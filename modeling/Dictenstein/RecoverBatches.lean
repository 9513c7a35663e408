import Dictenstein.Recovery
import Dictenstein.WalReopen
import Mathlib.Data.List.AList
/-!
# RecoverBatches — recovering a log at once and in batches

`RecoveryManager::recover` reads the log twice: an analysis pass that finds the fate of every transaction, and a redo pass
that holds the operations of every open transaction under its id until it commits.  `IncrementalRecovery::next_batch` is a
streaming reader that holds the operations of the current transaction only, and a `BeginTx` clears them.
-/
namespace Dictenstein.Recovery

open Wire Wal List WalHeader

def ofRecord : WalRecord UInt64 → WalRecord Nat
  | .insert term value => .insert term value
  | .remove term => .remove term
  | .checkpoint checkpointLsn timestamp => .checkpoint checkpointLsn.toNat timestamp.toNat
  | .beginTx txId => .beginTx txId.toNat
  | .commitTx txId => .commitTx txId.toNat
  | .abortTx txId => .abortTx txId.toNat
  | .increment term delta result => .increment term delta result
  | .upsert term value => .upsert term value
  | .compareAndSwap term expected newValue success => .compareAndSwap term expected newValue success
  | .batchInsert entries => .batchInsert entries
  | .batchIncrement entries => .batchIncrement entries
  | .versionUpdate versionId rootPtr nodeCount timestamp =>
    .versionUpdate versionId.toNat rootPtr.toNat nodeCount.toNat timestamp.toNat
  | .versionDurable versionId checksum => .versionDurable versionId.toNat checksum
  | .versionGc versionIds => .versionGc (versionIds.map UInt64.toNat)
  | .commitRank dataLsn term generation => .commitRank dataLsn.toNat term generation.toNat

def ofEntry (e : UInt64 × WalRecord UInt64) : Nat × WalRecord Nat := (e.1.toNat, ofRecord e.2)

/-- What the reader returns from the bytes behind the header: records, or that one could not be read. -/
def readLog (body : Bytes) : List (Except WalError (Nat × WalRecord Nat)) := (records body).map (·.map ofEntry)

def lsnAfter (lsn : Nat) : Nat := (lsn + 1) % 2 ^ 64

/-! ## Recovery at once -/

inductive TransactionState where
  | inProgress
  | committed
  | aborted
deriving DecidableEq, Repr

structure RecoveryStats where
  recordsScanned : Nat
  validRecords : Nat
  corruptedRecords : Nat
  committedTransactions : Nat
  abortedTransactions : Nat
  incompleteTransactions : Nat
  insertOperations : Nat
  removeOperations : Nat
  checkpointLsn : Option Nat
deriving DecidableEq, Repr

def RecoveryStats.default : RecoveryStats := ⟨0, 0, 0, 0, 0, 0, 0, 0, none⟩

abbrev Transactions := AList fun _ : Nat => TransactionState

structure Analysis where
  stats : RecoveryStats
  checkpointLsn : Option Nat
  transactions : Transactions

def analyse (a : Analysis) : WalRecord Nat → Analysis
  | .checkpoint checkpointLsn _ => { a with checkpointLsn := some checkpointLsn }
  | .beginTx txId => { a with transactions := a.transactions.insert txId .inProgress }
  | .commitTx txId =>
    if (a.transactions.lookup txId).isSome then
      { a with
        transactions := a.transactions.insert txId .committed
        stats := { a.stats with committedTransactions := a.stats.committedTransactions + 1 } }
    else a
  | .abortTx txId =>
    if (a.transactions.lookup txId).isSome then
      { a with
        transactions := a.transactions.insert txId .aborted
        stats := { a.stats with abortedTransactions := a.stats.abortedTransactions + 1 } }
    else a
  | _ => a

/-- The loop of the analysis; a record that cannot be read ends it. -/
def analyseAll : List (Except WalError (Nat × WalRecord Nat)) → Analysis → Analysis
  | [], a => a
  | .ok (_, record) :: results, a =>
    let stats := { a.stats with recordsScanned := a.stats.recordsScanned + 1, validRecords := a.stats.validRecords + 1 }
    analyseAll results (analyse { a with stats } record)
  | .error _ :: _, a =>
    { a with stats := { a.stats with
        recordsScanned := a.stats.recordsScanned + 1, corruptedRecords := a.stats.corruptedRecords + 1 } }

def analysisPhase (results : List (Except WalError (Nat × WalRecord Nat))) : Analysis :=
  let a := analyseAll results ⟨.default, none, ∅⟩
  { a with stats := { a.stats with
      incompleteTransactions := a.transactions.entries.countP fun e => e.2 = .inProgress } }

structure Redo where
  operations : List RecoveredOperation
  nextLsn : Nat
  currentTx : Option Nat
  pendingTxOps : Nat → Option (List RecoveredOperation)

def Redo.start : Redo := ⟨[], 1, none, fun _ => none⟩

def extendPending (pending : Nat → Option (List RecoveredOperation)) (txId : Nat) (ops : List RecoveredOperation) :
    Nat → Option (List RecoveredOperation) :=
  Function.update pending txId (some ((pending txId).getD [] ++ ops))

/-- Operations go to the current transaction, or outside one to the result. -/
def Redo.addOps (s : Redo) (ops : List RecoveredOperation) : Redo :=
  match s.currentTx with
  | some txId => { s with pendingTxOps := extendPending s.pendingTxOps txId ops }
  | none => { s with operations := s.operations ++ ops }

/-- The end of a transaction: its pending operations are removed. -/
def Redo.close (s : Redo) (txId : Nat) : Redo :=
  { s with
    pendingTxOps := Function.update s.pendingTxOps txId none
    currentTx := if s.currentTx = some txId then none else s.currentTx }

def redo (s : Redo) (entry : Nat × WalRecord Nat) : Redo :=
  let s := { s with nextLsn := lsnAfter entry.1 }
  match entry.2 with
  | .beginTx txId => { s with currentTx := some txId, pendingTxOps := extendPending s.pendingTxOps txId [] }
  | .commitTx txId => { s with operations := s.operations ++ (s.pendingTxOps txId).getD [] }.close txId
  | .abortTx txId => s.close txId
  | record => s.addOps (recoveredOperationsFromRecord entry.1 record)

def redoAll : List (Except WalError (Nat × WalRecord Nat)) → Redo → Redo
  | .ok entry :: results, s => redoAll results (redo s entry)
  | _, s => s

def countOperation (stats : RecoveryStats) : RecoveredOperation → RecoveryStats
  | .remove .. => { stats with removeOperations := stats.removeOperations + 1 }
  | _ => { stats with insertOperations := stats.insertOperations + 1 }

structure RecoveredState where
  operations : List RecoveredOperation
  nextLsn : Nat
  stats : RecoveryStats

/-- `none` is a path with no file. -/
def recover : Option Bytes → RecoveredState
  | none => ⟨[], 1, .default⟩
  | some file =>
    let results := readLog (file.drop size)
    let analysis := analysisPhase results
    let s := redoAll results .start
    let stats := { analysis.stats with checkpointLsn := analysis.checkpointLsn }
    ⟨s.operations, s.nextLsn, s.operations.foldl countOperation stats⟩

/-! ## Recovery in batches -/

structure IncrementalRecovery where
  reader : Bytes
  currentTx : Option Nat
  pendingOps : List RecoveredOperation
  nextLsn : Nat
  stoppedAtCorruption : Bool
deriving DecidableEq

namespace IncrementalRecovery

def new (file : Bytes) : IncrementalRecovery := ⟨file.drop size, none, [], 1, false⟩

variable (s : IncrementalRecovery)

/-- Operations go to the buffer of the current transaction; outside one they are released. -/
def addOps (ops : List RecoveredOperation) :
    Option (List RecoveredOperation) × IncrementalRecovery :=
  if s.currentTx.isSome then (none, { s with pendingOps := s.pendingOps ++ ops })
  else (if ops.isEmpty then none else some ops, s)

/-- The end of a transaction: of the current one, or one that is not tracked. -/
def close (txId : Nat) : IncrementalRecovery :=
  if s.currentTx = some txId then { s with currentTx := none, pendingOps := [] } else s

def processRecord (lsn : Nat) (record : WalRecord Nat) :
    Option (List RecoveredOperation) × IncrementalRecovery :=
  match record with
  | .beginTx txId => (none, { s with currentTx := some txId, pendingOps := [] })
  | .commitTx txId => (if s.currentTx = some txId then some s.pendingOps else none, s.close txId)
  | .abortTx txId => (none, s.close txId)
  | record => s.addOps (recoveredOperationsFromRecord lsn record)

/-- The loop of `next_batch`, `fuel` being a bound on the records left. -/
def fillBatch (maxOps : Nat) : Nat → List RecoveredOperation → IncrementalRecovery →
    List RecoveredOperation × IncrementalRecovery
  | 0, batch, s => (batch, s)
  | fuel + 1, batch, s =>
    if batch.length < maxOps then
      match nextRecord s.reader with
      | some (.ok entry, reader) =>
        let (lsn, record) := ofEntry entry
        let (ops, s) := { s with reader, nextLsn := lsnAfter lsn }.processRecord lsn record
        fillBatch maxOps fuel (batch ++ ops.getD []) s
      | some (.error _, reader) => (batch, { s with reader, stoppedAtCorruption := true })
      | none => (batch, s)
    else (batch, s)

def nextBatch (maxOps : Nat) (s : IncrementalRecovery) : Option (List RecoveredOperation) × IncrementalRecovery :=
  if s.stoppedAtCorruption then (none, s)
  else
    let (batch, s) := fillBatch maxOps (s.reader.length + 1) [] s
    (if batch.isEmpty then none else some batch, s)

/-- The batches of successive calls until one returns `None`; `none` if `calls` are too few. -/
def batches (maxOps : Nat) : Nat → IncrementalRecovery → Option (List (List RecoveredOperation))
  | 0, _ => none
  | calls + 1, s =>
    match s.nextBatch maxOps with
    | (none, _) => some []
    | (some batch, s) => (batches maxOps calls s).map (batch :: ·)

/-! ## What the batches hold -/

/-- The operations that the records release one after the other. -/
def emitted (s : IncrementalRecovery) : Log → List RecoveredOperation
  | [] => []
  | e :: es => (s.processRecord e.1 e.2).1.getD [] ++ emitted (s.processRecord e.1 e.2).2 es

def left : Log := if s.stoppedAtCorruption then [] else (scan s.reader).map ofEntry

def SameTx (s s' : IncrementalRecovery) : Prop := s.currentTx = s'.currentTx ∧ s.pendingOps = s'.pendingOps

variable {s s' : IncrementalRecovery}

theorem processRecord_sameTx (h : SameTx s s') (lsn : Nat) (record : WalRecord Nat) :
    (s.processRecord lsn record).1 = (s'.processRecord lsn record).1 ∧
      SameTx (s.processRecord lsn record).2 (s'.processRecord lsn record).2 := by
  obtain ⟨reader, tx, ops, next, stopped⟩ := s
  obtain ⟨reader', tx', ops', next', stopped'⟩ := s'
  obtain ⟨rfl, rfl⟩ : tx = tx' ∧ ops = ops' := h
  cases record with
  | beginTx => exact ⟨rfl, rfl, rfl⟩
  | commitTx id | abortTx id =>
    by_cases htx : tx = some id
    · simp [processRecord, close, htx, SameTx]
    · simp [processRecord, close, htx, SameTx]
  | _ => cases tx <;> exact ⟨rfl, rfl, rfl⟩

theorem emitted_sameTx : ∀ {s s' : IncrementalRecovery} (es : Log), SameTx s s' → s.emitted es = s'.emitted es
  | _, _, [], _ => rfl
  | s, s', e :: es, h => by
    obtain ⟨hops, hnext⟩ := processRecord_sameTx h e.1 e.2
    rw [emitted, emitted, hops, emitted_sameTx es hnext]

theorem processRecord_frame (s : IncrementalRecovery) (lsn : Nat) (record : WalRecord Nat) :
    (s.processRecord lsn record).2.reader = s.reader ∧
      (s.processRecord lsn record).2.stoppedAtCorruption = s.stoppedAtCorruption := by
  cases record with
  | commitTx id | abortTx id => simp only [processRecord, close]; split <;> exact ⟨rfl, rfl⟩
  | beginTx => exact ⟨rfl, rfl⟩
  | _ => simp only [processRecord, addOps]; split <;> exact ⟨rfl, rfl⟩

theorem scan_eq (body : Bytes) : scan body = match nextRecord body with
    | some (.ok e, rest) => e :: scan rest
    | _ => [] := by
  rw [scan, records, readAll_eq consumes_nextRecord]
  cases nextRecord body with
  | none => rfl
  | some p =>
    obtain ⟨result, rest⟩ := p
    cases result <;> rfl

/-- **One call of `next_batch`'s loop** releases the operations of the records it reads, in order, and stops at a full
batch or at the end. -/
theorem fillBatch_spec (maxOps : Nat) : ∀ (fuel : Nat) (batch : List RecoveredOperation) (s : IncrementalRecovery),
    s.reader.length < fuel → s.stoppedAtCorruption = false → ∃ released s',
      fillBatch maxOps fuel batch s = (batch ++ released, s') ∧ s.emitted s.left = released ++ s'.emitted s'.left ∧
      (released ≠ [] → s'.left.length < s.left.length) ∧ s'.left.length ≤ s.left.length ∧
      ((batch ++ released).length < maxOps → s'.left = [])
  | 0, _, _, hfuel, _ => absurd hfuel (Nat.not_lt_zero _)
  | fuel + 1, batch, s, hfuel, hrun => by
    rw [fillBatch]
    by_cases hroom : batch.length < maxOps
    swap
    · refine ⟨[], s, by rw [if_neg hroom, append_nil], rfl, fun h => absurd rfl h, Nat.le_refl _, fun h => ?_⟩
      rw [append_nil] at h
      exact absurd h hroom
    rw [if_pos hroom]
    have hleft : s.left = (scan s.reader).map ofEntry := by rw [left, hrun]; rfl
    rw [scan_eq] at hleft
    cases hnext : nextRecord s.reader with
    | none =>
      rw [hnext] at hleft
      exact ⟨[], s, by rw [append_nil], rfl, fun h => absurd rfl h, Nat.le_refl _, fun _ => hleft⟩
    | some p =>
      obtain ⟨result, reader⟩ := p
      rw [hnext] at hleft
      cases result with
      | error e =>
        refine ⟨[], { s with reader, stoppedAtCorruption := true }, by rw [append_nil], ?_, fun h => absurd rfl h,
          Nat.zero_le _, fun _ => rfl⟩
        rw [hleft]
        rfl
      | ok entry =>
        -- the record is read in the same transaction, and the rest of the batch is that of the loop's next round
        set s₁ : IncrementalRecovery := { s with reader, nextLsn := lsnAfter (ofEntry entry).1 } with hs₁
        set s₂ := (s₁.processRecord (ofEntry entry).1 (ofEntry entry).2).2 with hs₂
        set ops := ((s₁.processRecord (ofEntry entry).1 (ofEntry entry).2).1).getD [] with hops
        obtain ⟨hreader, hstop⟩ := processRecord_frame s₁ (ofEntry entry).1 (ofEntry entry).2
        have hshort : s₂.reader.length < fuel := by
          have := consumes_nextRecord s.reader _ _ hnext
          rw [hs₂, hreader]
          show reader.length < fuel
          omega
        have hrun₂ : s₂.stoppedAtCorruption = false := hstop.trans hrun
        obtain ⟨released, s', hfill, hemit, -, hlen, hend⟩ := fillBatch_spec maxOps fuel (batch ++ ops) s₂ hshort hrun₂
        have hleft₂ : s.left = ofEntry entry :: s₂.left := by
          rw [hleft, left, hrun₂, hs₂, hreader]
          rfl
        have hpoint : SameTx s s₁ := ⟨rfl, rfl⟩
        have hsame := processRecord_sameTx hpoint (ofEntry entry).1 (ofEntry entry).2
        refine ⟨ops ++ released, s', ?_, ?_, fun _ => ?_, ?_, fun h => ?_⟩
        · rw [← append_assoc]
          exact hfill
        · rw [hleft₂, emitted, hsame.1, emitted_sameTx _ hsame.2, append_assoc, ← hemit]
        · rw [hleft₂, length_cons]
          omega
        · rw [hleft₂, length_cons]
          omega
        · rw [← append_assoc] at h
          exact hend h

/-- **One call**: it returns `None` when nothing more will be released, or else the next operations. -/
theorem nextBatch_cases {maxOps : Nat} (hmax : 1 ≤ maxOps) (s : IncrementalRecovery) :
    (∃ s', s.nextBatch maxOps = (none, s') ∧ s.emitted s.left = []) ∨
      ∃ batch s', s.nextBatch maxOps = (some batch, s') ∧ s.emitted s.left = batch ++ s'.emitted s'.left ∧
        s'.left.length < s.left.length := by
  rw [nextBatch]
  by_cases hrun : s.stoppedAtCorruption = true
  · rw [if_pos hrun, left, if_pos hrun]
    exact .inl ⟨s, rfl, rfl⟩
  obtain ⟨released, s', hfill, hemit, hshort, -, hend⟩ :=
    fillBatch_spec maxOps (s.reader.length + 1) [] s (Nat.lt_succ_self _) (eq_false_of_ne_true hrun)
  rw [if_neg hrun, hfill, hemit]
  cases released with
  | nil =>
    rw [hend hmax]
    exact .inl ⟨s', rfl, rfl⟩
  | cons op released => exact .inr ⟨op :: released, s', rfl, rfl, hshort (cons_ne_nil op released)⟩

theorem batches_emitted {maxOps : Nat} (hmax : 1 ≤ maxOps) (n : Nat) : ∀ s : IncrementalRecovery, s.left.length < n →
    ∃ bs, (∀ calls, n ≤ calls → s.batches maxOps calls = some bs) ∧ bs.flatten = s.emitted s.left := by
  induction n with
  | zero => exact fun s h => absurd h (Nat.not_lt_zero _)
  | succ n ih =>
    intro s hn
    obtain ⟨s', hbatch, hemit⟩ | ⟨batch, s', hbatch, hemit, hshort⟩ := nextBatch_cases hmax s
    · refine ⟨[], fun calls hcalls => ?_, hemit.symm⟩
      obtain ⟨calls, rfl⟩ := Nat.exists_eq_add_of_le' hcalls
      rw [← Nat.add_assoc, batches, hbatch]
    · obtain ⟨bs, hbs, hflat⟩ := ih s' (by omega)
      refine ⟨batch :: bs, fun calls hcalls => ?_, by rw [flatten_cons, hflat, hemit]⟩
      obtain ⟨calls, rfl⟩ := Nat.exists_eq_add_of_le' hcalls
      rw [← Nat.add_assoc, batches, hbatch]
      show (s'.batches maxOps (calls + n)).map _ = _
      rw [hbs (calls + n) (Nat.le_add_left n calls)]
      rfl

/-! ## The two readers side by side -/

/-- Whether the next record that ends the transaction commits it. -/
def committedNext (txId : Nat) : Log → Bool
  | [] => false
  | (_, .commitTx id) :: es => id = txId || committedNext txId es
  | (_, .abortTx id) :: es => id ≠ txId && committedNext txId es
  | _ :: es => committedNext txId es

/-- The transaction behind a record, and whether it has logged operations. -/
def txAfter (tx : Option (Nat × Bool)) (e : Nat × WalRecord Nat) : Option (Nat × Bool) := match e.2 with
  | .beginTx id => some (id, false)
  | .commitTx id | .abortTx id => tx.filter (·.1 ≠ id)
  | record => tx.map fun t => (t.1, t.2 || !(recoveredOperationsFromRecord e.1 record).isEmpty)

/-- The transaction that a record interrupts after it has logged operations. -/
def interrupted (tx : Option (Nat × Bool)) : WalRecord Nat → Option Nat
  | .beginTx _ => (tx.filter (·.2)).map (·.1)
  | _ => none

/-- No transaction that a `BeginTx` interrupts, after it has logged operations, is committed afterwards. -/
def unresumed (tx : Option (Nat × Bool)) : Log → Bool
  | [] => true
  | e :: es => (interrupted tx e.2).all (fun txId => !committedNext txId es) && unresumed (txAfter tx e) es

/-- The current transaction, and whether the reader holds operations of it. -/
def tx (s : IncrementalRecovery) : Option (Nat × Bool) := s.currentTx.map fun id => (id, !s.pendingOps.isEmpty)

/-- What the reader holds of a transaction. -/
def own (s : IncrementalRecovery) (txId : Nat) : List RecoveredOperation :=
  if s.currentTx = some txId then s.pendingOps else []

/-- What the redo pass holds of a transaction. -/
def held (r : Redo) (txId : Nat) : List RecoveredOperation := (r.pendingTxOps txId).getD []

variable {r : Redo} {e : Nat × WalRecord Nat} {es : Log}

theorem tx_close (s : IncrementalRecovery) (id : Nat) : (s.close id).tx = s.tx.filter (·.1 ≠ id) := by
  cases hcur : s.currentTx with
  | none => simp [close, tx, hcur]
  | some txId => by_cases hid : txId = id <;> simp [close, tx, hcur, hid, Option.filter]

theorem tx_addOps (s : IncrementalRecovery) (ops : List RecoveredOperation) :
    (s.addOps ops).2.tx = s.tx.map fun t => (t.1, t.2 || !ops.isEmpty) := by
  cases hcur : s.currentTx with
  | none => simp [addOps, tx, hcur]
  | some txId => cases hops : s.pendingOps <;> simp [addOps, tx, hcur, hops]

theorem tx_processRecord (s : IncrementalRecovery) (e : Nat × WalRecord Nat) :
    (s.processRecord e.1 e.2).2.tx = txAfter s.tx e := by
  obtain ⟨lsn, record⟩ := e
  cases record with
  | beginTx id => rfl
  | commitTx id | abortTx id => exact tx_close s id
  | _ => exact tx_addOps s _

theorem interrupted_tx {record : WalRecord Nat} {txId : Nat} :
    interrupted s.tx record = some txId ↔ (∃ id, record = .beginTx id) ∧ s.currentTx = some txId ∧ s.pendingOps ≠ [] := by
  cases record with
  | beginTx id =>
    cases hcur : s.currentTx with
    | none => simp [interrupted, tx, hcur]
    | some id' => cases hops : s.pendingOps <;> simp [interrupted, tx, hcur, hops, Option.filter]
  | _ => simp [interrupted]

/-- A transaction with operations is interrupted and committed later, or the records behind decide. -/
theorem unresumed_cons : unresumed s.tx (e :: es) = true ↔
    (∀ txId, interrupted s.tx e.2 = some txId → committedNext txId es = false) ∧
      unresumed (s.processRecord e.1 e.2).2.tx es = true := by
  rw [unresumed, Bool.and_eq_true_iff, tx_processRecord]
  cases interrupted s.tx e.2 <;> simp

theorem own_beginTx (s : IncrementalRecovery) (lsn id txId : Nat) : (s.processRecord lsn (.beginTx id)).2.own txId = [] :=
  ite_self _

theorem held_beginTx (r : Redo) (lsn id : Nat) : held (redo r (lsn, .beginTx id)) = held r := by
  funext txId
  show (extendPending r.pendingTxOps id [] txId).getD [] = _
  by_cases hid : txId = id
  · subst hid; simp [extendPending, held]
  · simp [extendPending, hid, held]

/-- Both keep the same operations of a record, or release them. -/
theorem addOps_both (hcur : r.currentTx = s.currentTx) (ops : List RecoveredOperation) :
    (r.addOps ops).currentTx = (s.addOps ops).2.currentTx ∧
      (r.addOps ops).operations = r.operations ++ (s.addOps ops).1.getD [] ∧
      ∀ txId, ∃ more, held (r.addOps ops) txId = held r txId ++ more ∧ (s.addOps ops).2.own txId = s.own txId ++ more := by
  cases hs : s.currentTx with
  | none =>
    rw [hs] at hcur
    have hadd : s.addOps ops = (if ops.isEmpty then none else some ops, s) := by simp [addOps, hs]
    rw [Redo.addOps, hcur, hadd]
    exact ⟨hs.symm, by cases ops <;> rfl, fun txId => ⟨[], (append_nil _).symm, (append_nil _).symm⟩⟩
  | some id =>
    rw [hs] at hcur
    have hadd : s.addOps ops = (none, { s with pendingOps := s.pendingOps ++ ops }) := by simp [addOps, hs]
    rw [Redo.addOps, hcur, hadd]
    refine ⟨hs.symm, (append_nil _).symm, fun txId => ?_⟩
    by_cases hid : txId = id
    · subst hid
      exact ⟨ops, by simp [held, extendPending], by simp [own, hs]⟩
    · exact ⟨[], by simp [held, extendPending, hid], by simp [own, hs, Ne.symm hid]⟩

/-- The end of a transaction clears what both hold of it and nothing else. -/
theorem close_both (hcur : r.currentTx = s.currentTx) (id : Nat) : (r.close id).currentTx = (s.close id).currentTx ∧
    ∀ txId, held (r.close id) txId = (if txId = id then [] else held r txId) ∧
      (s.close id).own txId = if txId = id then [] else s.own txId := by
  refine ⟨?_, fun txId => ⟨?_, ?_⟩⟩
  · by_cases hid : s.currentTx = some id <;> simp [Redo.close, close, hcur, hid]
  · by_cases hid : txId = id <;> simp [held, Redo.close, hid]
  · by_cases hid : s.currentTx = some id
    · by_cases heq : txId = id
      · simp [own, close, hid, heq]
      · simp [own, close, hid, heq, Ne.symm heq]
    · by_cases heq : txId = id <;> simp [own, close, hid, heq]

/-! ### Where the batches are complete -/

/-- The redo pass and the reader in front of the records `es`: of every transaction that is yet to be committed the redo
pass holds what the reader holds of the current one. -/
structure Matches (r : Redo) (s : IncrementalRecovery) (es : Log) : Prop where
  current : r.currentTx = s.currentTx
  held : ∀ txId, committedNext txId es = true → held r txId = s.own txId

theorem Matches.close {id : Nat} (hcurrent : r.currentTx = s.currentTx)
    (hheld : ∀ txId, txId ≠ id → committedNext txId es = true → IncrementalRecovery.held r txId = s.own txId) :
    Matches (r.close id) (s.close id) es := by
  obtain ⟨hcur, hclose⟩ := close_both hcurrent id
  refine ⟨hcur, fun txId htx => ?_⟩
  rw [(hclose txId).1, (hclose txId).2]
  by_cases hid : txId = id
  · rw [if_pos hid, if_pos hid]
  · rw [if_neg hid, if_neg hid, hheld txId hid htx]

theorem Matches.step (h : Matches r s (e :: es)) (hu : unresumed s.tx (e :: es) = true) :
    (redo r e).operations = r.operations ++ (s.processRecord e.1 e.2).1.getD [] ∧
      Matches (redo r e) (s.processRecord e.1 e.2).2 es := by
  obtain ⟨lsn, record⟩ := e
  cases record with
  | beginTx id =>
    refine ⟨(append_nil _).symm, rfl, fun txId htx => ?_⟩
    rw [held_beginTx, own_beginTx, h.held txId htx, own]
    split
    next hcur =>
      by_contra hops
      cases htx.symm.trans ((unresumed_cons.1 hu).1 txId (interrupted_tx.2 ⟨⟨id, rfl⟩, hcur, hops⟩))
    next => rfl
  | commitTx id =>
    have hid := h.held id (by simp [committedNext])
    refine ⟨?_, Matches.close h.current fun txId _ htx => h.held txId (by simp [committedNext, htx])⟩
    show r.operations ++ IncrementalRecovery.held r id = _
    rw [hid, processRecord, own]
    split <;> rfl
  | abortTx id =>
    exact ⟨(append_nil _).symm, Matches.close h.current fun txId hne htx =>
      h.held txId (by simp [committedNext, htx, Ne.symm hne])⟩
  | _ =>
    obtain ⟨hcur, hops, hboth⟩ := addOps_both (r := { r with nextLsn := lsnAfter lsn }) h.current
      (recoveredOperationsFromRecord lsn _)
    refine ⟨hops, hcur, fun txId htx => ?_⟩
    obtain ⟨more, hr, hs⟩ := hboth txId
    exact hr.trans ((congrArg (· ++ more) (h.held txId htx)).trans hs.symm)

theorem Matches.run : ∀ {es : Log} {r : Redo} {s : IncrementalRecovery}, Matches r s es → unresumed s.tx es = true →
    (es.foldl redo r).operations = r.operations ++ s.emitted es
  | [], _, _, _, _ => (append_nil _).symm
  | e :: es, r, s, h, hu => by
    obtain ⟨hops, hnext⟩ := h.step hu
    rw [foldl_cons, hnext.run (unresumed_cons.1 hu).2, hops, emitted, append_assoc]

/-! ### Where they are not -/

/-- The redo pass holds at least what the reader holds. -/
structure Covers (r : Redo) (s : IncrementalRecovery) : Prop where
  current : r.currentTx = s.currentTx
  le : ∀ txId, (s.own txId).length ≤ (held r txId).length

/-- It holds more of a transaction that is committed next. -/
def Exceeds (r : Redo) (s : IncrementalRecovery) (es : Log) : Prop :=
  ∃ txId, committedNext txId es = true ∧ (s.own txId).length < (held r txId).length

theorem Covers.close (h : Covers r s) (id : Nat) : Covers (r.close id) (s.close id) := by
  obtain ⟨hcur, hclose⟩ := close_both h.current id
  refine ⟨hcur, fun txId => ?_⟩
  rw [(hclose txId).1, (hclose txId).2]
  split
  · exact Nat.le_refl _
  · exact h.le txId

theorem exceeds_close (hcur : r.currentTx = s.currentTx) {id txId : Nat} (hne : txId ≠ id)
    (htx : committedNext txId es = true)
    (hlt : (s.own txId).length < (held r txId).length) : Exceeds (r.close id) (s.close id) es := by
  obtain ⟨-, hclose⟩ := close_both hcur id
  refine ⟨txId, htx, ?_⟩
  rw [(hclose txId).1, (hclose txId).2, if_neg hne, if_neg hne]
  exact hlt

theorem Covers.addOps (h : Covers r s) (ops : List RecoveredOperation) : Covers (r.addOps ops) (s.addOps ops).2 ∧
    r.operations.length + ((s.addOps ops).1.getD []).length ≤ (r.addOps ops).operations.length ∧
    (Exceeds r s es → Exceeds (r.addOps ops) (s.addOps ops).2 es ∨
      r.operations.length + ((s.addOps ops).1.getD []).length < (r.addOps ops).operations.length) := by
  obtain ⟨hcur, hops, hboth⟩ := addOps_both h.current ops
  refine ⟨⟨hcur, fun txId => ?_⟩, by rw [hops, length_append], fun ⟨txId, htx, hlt⟩ => .inl ⟨txId, htx, ?_⟩⟩
  · obtain ⟨more, hr, hs⟩ := hboth txId
    rw [hr, hs, length_append, length_append]
    exact Nat.add_le_add_right (h.le txId) _
  · obtain ⟨more, hr, hs⟩ := hboth txId
    rw [hr, hs, length_append, length_append]
    exact Nat.add_lt_add_right hlt _

/-- **The redo pass releases at least what the reader does**, and a transaction of which it holds more keeps that until its
commit, which releases it. -/
theorem Covers.step (h : Covers r s) (e : Nat × WalRecord Nat) (es : Log) :
    Covers (redo r e) (s.processRecord e.1 e.2).2 ∧
      r.operations.length + ((s.processRecord e.1 e.2).1.getD []).length ≤ (redo r e).operations.length ∧
      (Exceeds r s (e :: es) → Exceeds (redo r e) (s.processRecord e.1 e.2).2 es ∨
        r.operations.length + ((s.processRecord e.1 e.2).1.getD []).length < (redo r e).operations.length) := by
  obtain ⟨lsn, record⟩ := e
  cases record with
  | beginTx id =>
    refine ⟨⟨rfl, fun txId => ?_⟩, Nat.le_refl _, fun ⟨txId, htx, hlt⟩ => .inl ⟨txId, htx, ?_⟩⟩
    · rw [own_beginTx]
      exact Nat.zero_le _
    · rw [own_beginTx, held_beginTx]
      exact Nat.lt_of_le_of_lt (Nat.zero_le _) hlt
  | commitTx id =>
    have hout : (s.processRecord lsn (.commitTx id)).1.getD [] = s.own id := by
      rw [processRecord, own]
      split <;> rfl
    have hops : (redo r (lsn, .commitTx id)).operations.length = r.operations.length + (held r id).length := length_append
    rw [hout, hops]
    refine ⟨⟨(h.close id).current, (h.close id).le⟩, Nat.add_le_add_left (h.le id) _, fun ⟨txId, htx, hlt⟩ => ?_⟩
    by_cases hid : txId = id
    · exact .inr (Nat.add_lt_add_left (hid ▸ hlt) _)
    · exact .inl (exceeds_close h.current hid (by simpa [committedNext, Ne.symm hid] using htx) hlt)
  | abortTx id =>
    refine ⟨⟨(h.close id).current, (h.close id).le⟩, Nat.le_refl _, fun ⟨txId, htx, hlt⟩ => .inl ?_⟩
    obtain ⟨hne, htx⟩ : id ≠ txId ∧ committedNext txId es = true := by simpa [committedNext] using htx
    exact exceeds_close h.current (Ne.symm hne) htx hlt
  | _ =>
    exact Covers.addOps (r := { r with nextLsn := lsnAfter lsn }) ⟨h.current, h.le⟩ _

theorem Covers.run : ∀ {l : Log} {r : Redo} {s : IncrementalRecovery}, Covers r s →
    r.operations.length + (s.emitted l).length ≤ (l.foldl redo r).operations.length ∧
      (Exceeds r s l ∨ unresumed s.tx l = false →
        r.operations.length + (s.emitted l).length < (l.foldl redo r).operations.length)
  | [], r, s, _ => by
    refine ⟨Nat.le_refl _, ?_⟩
    rintro (⟨txId, htx, -⟩ | hu)
    · cases htx
    · cases hu
  | e :: es, r, s, h => by
    obtain ⟨hnext, hle, hexceeds⟩ := h.step e es
    obtain ⟨hrest, hstrict⟩ := hnext.run (l := es)
    rw [emitted, foldl_cons, length_append]
    refine ⟨by omega, fun hor => ?_⟩
    have hmore : Exceeds (redo r e) (s.processRecord e.1 e.2).2 es ∨ unresumed (s.processRecord e.1 e.2).2.tx es = false ∨
        r.operations.length + ((s.processRecord e.1 e.2).1.getD []).length < (redo r e).operations.length := by
      obtain hex | hu := hor
      · exact (hexceeds hex).imp_right .inr
      · by_cases hnext : unresumed (s.processRecord e.1 e.2).2.tx es = true
        · -- what the reader drops here the redo pass keeps until the commit
          obtain ⟨txId, hint, htx⟩ : ∃ txId, interrupted s.tx e.2 = some txId ∧ committedNext txId es = true := by
            by_contra hall
            refine Bool.eq_false_iff.1 hu (unresumed_cons.2 ⟨fun txId hint => ?_, hnext⟩)
            exact Bool.eq_false_iff.2 fun htx => hall ⟨txId, hint, htx⟩
          obtain ⟨⟨id, hbegin⟩, hcur, hops⟩ := interrupted_tx.1 hint
          obtain ⟨lsn, record⟩ := e
          subst hbegin
          refine .inl ⟨txId, htx, ?_⟩
          have hle := h.le txId
          rw [own, if_pos hcur] at hle
          rw [own_beginTx, held_beginTx]
          exact Nat.lt_of_lt_of_le (length_pos_iff.2 hops) hle
        · exact .inr (.inl (Bool.eq_false_iff.2 hnext))
    obtain hmore | hmore | hmore := hmore
    · have := hstrict (.inl hmore)
      omega
    · have := hstrict (.inr hmore)
      omega
    · omega

end IncrementalRecovery

theorem redoAll_eq : ∀ (results : List (Except WalError (Nat × WalRecord Nat))) (s : Redo),
    redoAll results s = (okPrefix results).foldl redo s
  | [], _ => rfl
  | .error _ :: _, _ => rfl
  | .ok e :: results, s => redoAll_eq results (redo s e)

theorem okPrefix_map {ε α β : Type} (f : α → β) : ∀ l : List (Except ε α), okPrefix (l.map (·.map f)) = (okPrefix l).map f
  | [] => rfl
  | .error _ :: _ => rfl
  | .ok a :: l => congrArg (f a :: ·) (okPrefix_map f l)

theorem recover_operations (file : Bytes) :
    (recover (some file)).operations = (((scan (file.drop size)).map ofEntry).foldl redo .start).operations := by
  show (redoAll (readLog (file.drop size)) .start).operations = _
  rw [redoAll_eq, readLog, okPrefix_map]
  rfl

/-- **The batches of a log together are what recovery finds exactly if** no transaction that a `BeginTx` interrupted after
it had logged operations is committed afterwards. One call more than there are records is enough. -/
theorem batches_flatten_iff (file : Bytes) (maxOps : Nat) (hmax : 1 ≤ maxOps) :
    ∃ bs, (∀ calls, (IncrementalRecovery.new file).left.length < calls →
        (IncrementalRecovery.new file).batches maxOps calls = some bs) ∧
      (bs.flatten = (recover (some file)).operations ↔
        IncrementalRecovery.unresumed none (IncrementalRecovery.new file).left = true) := by
  obtain ⟨bs, hbs, hflat⟩ := IncrementalRecovery.batches_emitted hmax _ (IncrementalRecovery.new file) (Nat.lt_succ_self _)
  refine ⟨bs, hbs, ?_⟩
  rw [hflat, recover_operations]
  constructor
  · intro heq
    by_contra hu
    have hcovers : IncrementalRecovery.Covers .start (IncrementalRecovery.new file) := ⟨rfl, fun _ => Nat.zero_le _⟩
    have hlt := (hcovers.run (l := (IncrementalRecovery.new file).left)).2 (.inr (Bool.eq_false_iff.2 hu))
    rw [heq, show Redo.start.operations.length = 0 from rfl, Nat.zero_add] at hlt
    exact Nat.lt_irrefl _ hlt
  · intro hu
    have hmatches : IncrementalRecovery.Matches .start (IncrementalRecovery.new file) (IncrementalRecovery.new file).left :=
      ⟨rfl, fun _ _ => rfl⟩
    exact ((hmatches.run hu).trans (nil_append _)).symm

/-- A header of zeroes and the frames of records numbered from 1. -/
def logFile (rs : List (WalRecord UInt64)) : Bytes := List.replicate size 0 ++ frames (numbered 1 rs)

/-- A committed transaction, an aborted one, one that is interrupted and never ends, and records outside of any. -/
theorem batches_flatten_sequential :
    let file := logFile [.beginTx 1, .insert [1] none, .remove [2], .commitTx 1, .insert [3] none, .beginTx 2,
      .insert [4] none, .abortTx 2, .beginTx 3, .insert [5] none, .beginTx 4, .insert [6] none, .commitTx 4]
    (recover (some file)).operations = [.insert 2 [1] none, .remove 3 [2], .insert 5 [3] none, .insert 12 [6] none] ∧
      ∃ bs, (∀ calls, (IncrementalRecovery.new file).left.length < calls →
          (IncrementalRecovery.new file).batches 1 calls = some bs) ∧
        bs.flatten = (recover (some file)).operations := by
  refine ⟨by decide +kernel, ?_⟩
  obtain ⟨bs, hbs, hiff⟩ := batches_flatten_iff (logFile [.beginTx 1, .insert [1] none, .remove [2], .commitTx 1,
    .insert [3] none, .beginTx 2, .insert [4] none, .abortTx 2, .beginTx 3, .insert [5] none, .beginTx 4, .insert [6] none,
    .commitTx 4]) 1 (Nat.le_refl 1)
  exact ⟨bs, hbs, hiff.2 (by decide +kernel)⟩

/-- **The streaming reader loses what a transaction logged before another began inside it.** Transaction 2 begins and
commits inside transaction 1, whose insert the batches lose. -/
theorem batches_of_interleaved :
    let file := logFile [.beginTx 1, .insert [1] none, .beginTx 2, .insert [2] none, .commitTx 2, .commitTx 1]
    (recover (some file)).operations = [.insert 4 [2] none, .insert 2 [1] none] ∧
      (IncrementalRecovery.new file).batches 1 7 = some [[.insert 4 [2] none]] := by
  decide +kernel

end Dictenstein.Recovery
