import Dictenstein.DurableWrite
/-! # DurableReplay — a crash after a sequence of durable operations by one thread

The log holds one ranked record per publication, in generation order, and replaying that record does to the key's entry
exactly what the publication did (`Synced`). The one operation for which this fails is an increment of the empty key: its
publication counts, and the replay drops its record. -/

namespace Dictenstein.Overlay

open Wire Wal Recovery OverlayNode DictionaryValue CounterLeaf PersistentARTrie List

/-! ## Sequences of operations -/

inductive DurableOp (V : Type) where
  | insert (term : Bytes)
  | remove (term : Bytes)
  | insertWithValue (term : Bytes) (v : V)
  | upsert (term : Bytes) (v : V)
  | compareAndSwap (term : Bytes) (expected : Option V) (new : V)
  | increment (term : Bytes) (delta : UInt64)
  deriving DecidableEq, Repr

def DurableOp.term {V : Type} : DurableOp V → Bytes
  | .insert term | .remove term | .insertWithValue term _ | .upsert term _ | .compareAndSwap term _ _
  | .increment term _ => term

def DurableOp.isIncrement {V : Type} : DurableOp V → Bool
  | .increment .. => true
  | _ => false

section
variable {V : Type} [DictionaryValue V] [CounterLeaf V] (faultIn : FaultIn UInt8 V)

/-- Execute one operation to its return. Each retry of an increment leaves fewer evicted nodes on the path, so one more
iteration than the key has bytes is enough. -/
def DurableOp.exec (t : PersistentARTrie V) : DurableOp V → Option (PersistentARTrie V)
  | .insert term => some (t.insertCasDurable faultIn term).2
  | .remove term => some (t.removeCasDurable faultIn term).2
  | .insertWithValue term v => some (t.insertCasWithValueDurable faultIn term v).2
  | .upsert term v => some (t.upsertCasDurable faultIn term v).2
  | .compareAndSwap term expected new => some (t.compareAndSwapCasDurable faultIn term expected new).2
  | .increment term delta => (t.tryIncrementCasDurable faultIn (term.length + 1) term delta).map Prod.snd

def execAll : List (DurableOp V) → PersistentARTrie V → Option (PersistentARTrie V)
  | [], t => some t
  | op :: ops, t => (op.exec faultIn t).bind (execAll ops)

def reopen (log : Log) : LiveOverlay V :=
  LiveOverlay.fresh.drainIntoOverlay faultIn (reconcileLwwWithRegime log false 0 fun _ => .overlay)

end

/-! ## The log and the root agree -/

/-- The log is that of the published commits, all of them ranked, and the root holds what replaying them gives. -/
structure Synced {V : Type} [DictionaryValue V] [CounterLeaf V] (faultIn : FaultIn UInt8 V) (t : PersistentARTrie V)
    (commits : List Commit) : Prop where
  logged : Logged t.log commits
  ranked : ∀ c ∈ commits, isRanked t.log c.lsn = true
  below : ∀ c ∈ commits, c.generation ≤ t.commitSeq
  lsns : ∀ e ∈ t.log, e.1 < t.nextLsn
  entry : entryAt faultIn t.root = (commits.map Commit.op).foldl replayMap fun _ => none
  wellFormed : WellFormed faultIn t.root
  resident : Everywhere faultIn Resident t.root

section
variable {V : Type} [DictionaryValue V] [CounterLeaf V] {faultIn : FaultIn UInt8 V} {t : PersistentARTrie V}
  {commits : List Commit}

theorem entryAt_reopen {log : Log} (h : Logged log commits) :
    entryAt faultIn (reopen faultIn log : LiveOverlay V).slot.node =
      ((commits.filter fun c => isRanked log c.lsn).map Commit.op).foldl replayMap fun _ => none := by
  have hfilter : (commits.filter fun c => isRanked log c.lsn && !covered false 0 c.lsn) =
      commits.filter fun c => isRanked log c.lsn :=
    filter_congr (fun c _ => by simp [covered])
  rw [reopen, entryAt_drain reopened_fresh, reconcile_of_logged h, hfilter]
  congr 1
  funext key
  exact entryAt_new faultIn key

variable {record : WalRecord Nat} {t' : PersistentARTrie V} {key : Bytes}

section
variable (h : Synced faultIn t commits)
include h

theorem Synced.congr (hlog : t'.log = t.log) (hlsn : t'.nextLsn = t.nextLsn)
    (hslot : t'.root = t.root) (hseq : t.commitSeq ≤ t'.commitSeq) :
    Synced faultIn t' commits where
  logged := hlog ▸ h.logged
  ranked := hlog ▸ h.ranked
  below := fun c hc => (h.below c hc).trans hseq
  lsns := by rw [hlog, hlsn]; exact h.lsns
  entry := hslot ▸ h.entry
  wellFormed := hslot ▸ h.wellFormed
  resident := hslot ▸ h.resident

theorem Synced.fresh_lsn : t.nextLsn ∉ t.log.map Prod.fst := by
  intro hmem
  obtain ⟨e, he, heq⟩ := mem_map.1 hmem
  exact lt_irrefl _ (heq ▸ h.lsns e he)

theorem Synced.append (hrec : ∀ d k g, record ≠ .commitRank d k g) : Synced faultIn (t.append record) commits where
  logged := h.logged.append_data h.fresh_lsn hrec
  ranked := fun c hc => by
    have := h.ranked c hc
    rwa [isRanked, PersistentARTrie.append, rankMap_append_data _ hrec]
  below := h.below
  lsns := forall_mem_append.2 ⟨fun e he => Nat.lt_succ_of_lt (h.lsns e he), forall_mem_singleton.2 (Nat.lt_succ_self _)⟩
  entry := h.entry
  wellFormed := h.wellFormed
  resident := h.resident

theorem Synced.commit (lsn generation : Nat) {op : RecoveredOperation} {root : OverlayNode UInt8 V}
    (hops : recoveredOperationsFromRecord lsn record = [op]) (hmem : (lsn, record) ∈ t.log)
    (hnew : lsn ∉ commits.map Commit.lsn) (hgen : ∀ c ∈ commits, c.generation < generation)
    (hu : Updates faultIn t.root root op.term (replayEntry op (entryAt faultIn t.root op.term)))
    (hlog : t'.log = t.log ++ [(t.nextLsn, .commitRank lsn op.term generation)]) (hlsn : t'.nextLsn = t.nextLsn + 1)
    (hroot : t'.root = root) (hseq : t'.commitSeq = generation) :
    Synced faultIn t' (commits ++ [⟨generation, lsn, op⟩]) where
  logged := by
    rw [hlog]
    have hc : (⟨generation, lsn, op⟩ : Commit) ∈ commits ++ [⟨generation, lsn, op⟩] := by simp
    exact (h.logged.commit (c := ⟨generation, lsn, op⟩) hmem hops hgen hnew).append_rank h.fresh_lsn hc
  ranked := fun c hc => by
    rw [isRanked, hlog, rankMap_append_rank, Function.update_apply]
    split
    · rfl
    · rename_i hne
      rcases mem_append.1 hc with hc | hc
      · exact h.ranked c hc
      · rw [mem_singleton] at hc
        exact absurd (by rw [hc]) hne
  below := by
    rw [hseq]
    exact forall_mem_append.2 ⟨fun c hc => le_of_lt (hgen c hc), forall_mem_singleton.2 le_rfl⟩
  lsns := by
    rw [hlog, hlsn]
    exact forall_mem_append.2 ⟨fun e he => Nat.lt_succ_of_lt (h.lsns e he), forall_mem_singleton.2 (Nat.lt_succ_self _)⟩
  entry := by
    rw [hroot, hu.entry, map_append, foldl_append, ← h.entry]
    rfl
  wellFormed := hroot ▸ hu.wellFormed
  resident := hroot ▸ hu.resident h.resident

theorem Synced.new_lsn : t.nextLsn ∉ commits.map Commit.lsn := by
  intro hmem
  obtain ⟨c, hc, heq⟩ := mem_map.1 hmem
  obtain ⟨r, hr, -⟩ := h.logged.data c hc
  exact lt_irrefl _ (heq ▸ h.lsns _ hr)

end

/-- The record of an operation replays as one operation on its key. -/
structure Records (t : PersistentARTrie V) (record : WalRecord Nat) (op : RecoveredOperation) : Prop where
  ops : recoveredOperationsFromRecord t.nextLsn record = [op]
  data : ∀ d k g, record ≠ .commitRank d k g

/-- **Settling an attempt keeps log and root in step** when the record replays as the attempt's own update. -/
theorem Synced.settle (h : Synced faultIn t commits) (op : RecoveredOperation) (hrec : Records t record op)
    (attempt : Attempt V) (hatt : ∀ root delta, attempt = .publish root delta →
      Updates faultIn t.root root op.term (replayEntry op (entryAt faultIn t.root op.term)))
    {touch touchRefused : PersistentARTrie V → PersistentARTrie V}
    (htouch : ∀ x, ∃ cache, touch x = { x with overlay := ⟨x.overlay.slot, cache⟩ })
    (hrefused : ∀ x, ∃ cache, touchRefused x = { x with overlay := ⟨x.overlay.slot, cache⟩ })
    (a b : Except PersistentARTrieError Bool) :
    ∃ commits', Synced faultIn ((t.append record).settle t.nextLsn op.term attempt touch touchRefused a b).2
      commits' := by
  have happ := h.append hrec.data
  cases attempt with
  | publish root delta =>
    obtain ⟨cache, hcache⟩ := htouch ((t.append record).claim.publish root delta)
    refine ⟨_, happ.commit t.nextLsn (t.commitSeq + 1) hrec.ops (mem_append_right _ ?_)
      h.new_lsn (fun c hc => Nat.lt_succ_of_le (h.below c hc)) (hatt root delta rfl) ?_ ?_ ?_ ?_⟩
    · exact mem_singleton.2 rfl
    all_goals simp only [PersistentARTrie.settle, hcache]; rfl
  | refuse claimed =>
    obtain ⟨cache, hcache⟩ := hrefused (if claimed then (t.append record).claim else t.append record)
    refine ⟨commits, happ.congr ?_ ?_ ?_ ?_⟩
    all_goals simp only [PersistentARTrie.settle, hcache]
    all_goals cases claimed <;> simp [mark, claim, root]
  | fail e => exact ⟨commits, happ.congr rfl rfl rfl (Nat.le_succ _)⟩

theorem Synced.gated (h : Synced faultIn t commits) {method noun : String}
    {body : Except PersistentARTrieError Bool × PersistentARTrie V} (hbody : ∃ commits', Synced faultIn body.2 commits') :
    ∃ commits', Synced faultIn (t.gated method noun body).2 commits' := by
  unfold PersistentARTrie.gated
  split
  · exact ⟨commits, h⟩
  · exact hbody

/-! ## Each operation keeps them in step -/

theorem Synced.insertCasDurable (h : Synced faultIn t commits) (term : Bytes) :
    ∃ commits', Synced faultIn (t.insertCasDurable faultIn term).2 commits' := by
  apply h.gated
  split
  · exact ⟨commits, h⟩
  split
  · exact ⟨commits, h.congr rfl rfl rfl le_rfl⟩
  · refine h.settle (.insert t.nextLsn term none) ⟨rfl, fun d k g heq => by cases heq⟩ _ (fun root delta hatt => ?_)
      (fun x => ⟨_, rfl⟩) (fun x => ⟨_, rfl⟩) _ _
    obtain ⟨hentry, -, hu⟩ := insertAttempt_publish h.wellFormed hatt
    simpa [replayEntry, RecoveredOperation.term, hentry] using hu

omit [DictionaryValue V] [CounterLeaf V] in
theorem presentBefore_of_resident (h : Everywhere faultIn Resident t.overlay.slot.node) (term : Bytes) :
    ∃ present, t.presentBefore faultIn term = (.ok present, t) := by
  unfold presentBefore
  split
  · exact ⟨_, rfl⟩
  split
  · exact ⟨_, rfl⟩
  · obtain ⟨found, hfound, -⟩ := findLeafFaulting_of_resident h term defaultMaxFaultinRetries
    exact ⟨found.isSome, by rw [hfound]; rfl⟩

section
variable (h : Synced faultIn t commits)
include h

variable (term : Bytes)

theorem Synced.removeCasDurable : ∃ commits', Synced faultIn (t.removeCasDurable faultIn term).2 commits' := by
  apply h.gated
  obtain ⟨present, hpresent⟩ := presentBefore_of_resident h.resident term
  rw [hpresent]
  cases present with
  | false => exact ⟨commits, h.congr rfl rfl rfl le_rfl⟩
  | true =>
    refine h.settle (.remove t.nextLsn term) ⟨rfl, fun d k g heq => by cases heq⟩ _ (fun root delta hatt => ?_)
      (fun x => ⟨_, rfl⟩) (fun x => ⟨_, rfl⟩) _ _
    exact (removeAttempt_publish h.wellFormed hatt).2.2

theorem Synced.publishValue (op : RecoveredOperation) {v : V} (hrec : Records t record op)
    (hreplay : ∀ e : Option (Option V), replayEntry op e = some (some v)) (mode : ValueWriteMode)
    (a b : Except PersistentARTrieError Bool) :
    ∃ commits', Synced faultIn (t.publishValue faultIn record op.term v mode a b).2 commits' := by
  refine h.settle op hrec _ (fun root delta hatt => ?_) (fun x => ⟨_, rfl⟩) (fun x => ⟨x.overlay.cache, rfl⟩) a b
  rw [hreplay]
  exact (valueAttempt_publish h.wellFormed hatt).2.2

theorem Synced.insertCasWithValueDurable (v : V) :
    ∃ commits', Synced faultIn (t.insertCasWithValueDurable faultIn term v).2 commits' := by
  apply h.gated
  split
  · exact ⟨commits, h⟩
  · exact h.publishValue (.insert t.nextLsn term (some (serialize v))) ⟨rfl, fun d k g heq => by cases heq⟩
      (fun e => by simp [replayEntry, deserialize_serialize, setEntry]) _ _ _

theorem Synced.upsertCasDurable (v : V) : ∃ commits', Synced faultIn (t.upsertCasDurable faultIn term v).2 commits' :=
  h.gated (h.publishValue (.upsert t.nextLsn term (serialize v)) ⟨rfl, fun d k g heq => by cases heq⟩
    (fun e => by simp [replayEntry, deserialize_serialize, setEntry]) _ _ _)

theorem Synced.compareAndSwapCasDurable (expected : Option V) (new : V) :
    ∃ commits', Synced faultIn (t.compareAndSwapCasDurable faultIn term expected new).2 commits' := by
  apply h.gated
  split
  · exact ⟨commits, h⟩
  · exact h.publishValue (.upsert t.nextLsn term (serialize new)) ⟨rfl, fun d k g heq => by cases heq⟩
      (fun e => by simp [replayEntry, deserialize_serialize, setEntry]) _ _ _

end

theorem replayEntry_increment {e : Option (Option V)} {delta : UInt64} {bounded : Int64} {newVal : V} (lsn : Nat)
    (hkey : key ≠ []) (hbound : boundIncrementDelta key delta = .ok bounded)
    (hval : incrementValue key (e.join) delta = .ok newVal) :
    replayEntry (.increment lsn key bounded none) e = some (some newVal) := by
  have hdelta : bounded.toInt = delta.toNat := by
    unfold boundIncrementDelta at hbound
    split at hbound
    · rename_i hlt
      rw [← Except.ok.inj hbound, Int64.toInt_ofNat_of_lt hlt]
    · cases hbound
  unfold incrementValue at hval
  rw [replayEntry, if_neg hkey, accumulateEntry, hdelta]
  cases hcount : counterOf (e.join) with
  | none => simp [hcount] at hval
  | some n =>
    simp only [hcount] at hval
    cases hnew : (i128ToCounterValue (n + delta.toNat) : Option V) with
    | none => simp [hnew] at hval
    | some v =>
      simp only [hnew, Except.ok.injEq] at hval
      simp [setEntry, hnew, hval]

theorem tryIncrementCasInner_of_resident (hwf : WellFormed faultIn t.root)
    (hres : Everywhere faultIn Resident t.overlay.slot.node) (key : Bytes) (delta : UInt64) (fuel : Nat) :
    (∃ e, tryIncrementCasInner faultIn key delta (fuel + 1) t = some (.error e, t.claim)) ∨ ∃ newVal root termCountDelta,
        incrementValue key ((entryAt faultIn t.root key).join) delta = .ok newVal ∧
          Updates faultIn t.root root key (some (some newVal)) ∧ tryIncrementCasInner faultIn key delta (fuel + 1) t =
              some (.ok (newVal, t.commitSeq + 1), t.claim.publish root termCountDelta) := by
  obtain ⟨found, hfound, hvalue⟩ := findLeafFaulting_of_resident hres key defaultMaxFaultinRetries
  have hcurrent : found.bind OverlayNode.value = (entryAt faultIn t.root key).join := by
    show _ = (entryAt faultIn t.overlay.slot.node key).join
    rw [← hvalue]
    cases found <;> rfl
  rw [tryIncrementCasInner, hfound]
  simp only [hcurrent]
  cases hval : incrementValue key ((entryAt faultIn t.root key).join) delta with
  | error e => exact .inl ⟨e, rfl⟩
  | ok newVal =>
    obtain ⟨root, hroot, hu⟩ := valuePublication_spec hwf key newVal
    refine .inr ⟨newVal, root, presenceDelta t.root key, rfl, hu, ?_⟩
    have hroot' : valuePublication faultIn t.overlay.slot.node key newVal = .ok (root, presenceDelta t.root key) := hroot
    simp only [hroot']
    exact if_pos rfl

theorem Synced.tryIncrementCasDurable (h : Synced faultIn t commits) (hkey : key ≠ []) (delta : UInt64) (fuel : Nat) :
    ∃ r t' commits', t.tryIncrementCasDurable faultIn (fuel + 1) key delta = some (r, t') ∧ Synced faultIn t' commits' := by
  unfold PersistentARTrie.tryIncrementCasDurable
  cases hgate : t.durablePolicyGate "try_increment_cas_durable" "increment" with
  | error e => exact ⟨_, t, commits, rfl, h⟩
  | ok _ =>
    cases hbound : boundIncrementDelta key delta with
    | error e => exact ⟨_, t, commits, rfl, h⟩
    | ok bounded =>
      have happ : Synced faultIn (t.append (.batchIncrement [(key, bounded)])) commits :=
        h.append nofun
      rcases tryIncrementCasInner_of_resident happ.wellFormed happ.resident key delta fuel with
        ⟨e, hrun⟩ | ⟨newVal, root, termCountDelta, hval, hu, hrun⟩
      · simp only [hrun]
        exact ⟨_, _, commits, rfl, happ.congr rfl rfl rfl (Nat.le_succ _)⟩
      · simp only [hrun]
        refine ⟨_, _, _, rfl, happ.commit t.nextLsn (t.commitSeq + 1) rfl
          (mem_append_right _ (mem_singleton.2 rfl)) h.new_lsn
          (fun c hc => Nat.lt_succ_of_le (h.below c hc)) ?_ rfl rfl rfl rfl⟩
        have hreplay := replayEntry_increment t.nextLsn hkey hbound hval
        exact hreplay ▸ hu

/-! ## The whole sequence -/

theorem synced_create (policy : DurabilityPolicy) : Synced faultIn (create policy : PersistentARTrie V) [] where
  logged := Logged.nil
  ranked := nofun
  below := nofun
  lsns := nofun
  entry := by
    funext key
    exact entryAt_new faultIn key
  wellFormed := wellFormed_new
  resident := resident_new

theorem Synced.exec (h : Synced faultIn t commits) (op : DurableOp V) (hop : op.isIncrement = true → op.term ≠ []) :
    ∃ t' commits', op.exec faultIn t = some t' ∧ Synced faultIn t' commits' := by
  cases op with
  | insert term =>
    obtain ⟨c, hc⟩ := h.insertCasDurable term
    exact ⟨_, c, rfl, hc⟩
  | remove term =>
    obtain ⟨c, hc⟩ := h.removeCasDurable term
    exact ⟨_, c, rfl, hc⟩
  | insertWithValue term v =>
    obtain ⟨c, hc⟩ := h.insertCasWithValueDurable term v
    exact ⟨_, c, rfl, hc⟩
  | upsert term v =>
    obtain ⟨c, hc⟩ := h.upsertCasDurable term v
    exact ⟨_, c, rfl, hc⟩
  | compareAndSwap term expected new =>
    obtain ⟨c, hc⟩ := h.compareAndSwapCasDurable term expected new
    exact ⟨_, c, rfl, hc⟩
  | increment term delta =>
    have hterm : term ≠ [] := hop rfl
    obtain ⟨r, t', c, hrun, hc⟩ := h.tryIncrementCasDurable hterm delta term.length
    exact ⟨t', c, by rw [DurableOp.exec, hrun]; rfl, hc⟩

theorem Synced.execAll (ops : List (DurableOp V)) (hops : ∀ op ∈ ops, op.isIncrement = true → op.term ≠ [])
    (h : Synced faultIn t commits) : ∃ t' commits', execAll faultIn ops t = some t' ∧ Synced faultIn t' commits' := by
  induction ops generalizing t commits with
  | nil => exact ⟨t, commits, rfl, h⟩
  | cons op ops ih =>
    obtain ⟨t', c', hexec, h'⟩ := h.exec op (hops op mem_cons_self)
    obtain ⟨t'', c'', hrest, h''⟩ := ih (fun o ho => hops o (mem_cons_of_mem _ ho)) h'
    exact ⟨t'', c'', by rw [Overlay.execAll, hexec]; exact hrest, h''⟩

/-- **What a log in step with its trie replays to is the trie's map.** -/
theorem Synced.reopen (h : Synced faultIn t commits) :
    entryAt faultIn (reopen faultIn t.log).slot.node = entryAt faultIn t.root := by
  rw [entryAt_reopen h.logged, filter_eq_self.2 h.ranked, h.entry]

end

/-- **Reopening after a crash gives the live trie's map back**, for every sequence of durable operations by one thread in
which no increment is of the empty key. -/
theorem reopen_restores_map (faultIn : FaultIn UInt8 UInt64) (policy : DurabilityPolicy)
    (ops : List (DurableOp UInt64)) (hops : ∀ op ∈ ops, op.isIncrement = true → op.term ≠ []) :
    ∃ t, execAll faultIn ops (create policy) = some t ∧
      entryAt faultIn (reopen faultIn t.log).slot.node = entryAt faultIn t.root := by
  obtain ⟨t, commits, hrun, h⟩ := (synced_create policy).execAll ops hops
  exact ⟨t, hrun, h.reopen⟩

def noLoader {V : Type} : FaultIn UInt8 V := fun _ => .error (.ioError "no such block")

/-- One increment of the empty key: the live trie counts it, and the reopened one has not even the key. -/
theorem reopen_drops_empty_increment :
    ∃ t : PersistentARTrie UInt64, execAll noLoader [.increment [] 5] (create .immediate) = some t ∧
      entryAt noLoader t.root [] = some (some 5) ∧
      entryAt noLoader (reopen noLoader t.log).slot.node [] = (none : Option (Option UInt64)) :=
  ⟨_, rfl, by decide +kernel, by decide +kernel⟩

theorem reopen_restores_map_six :
    ∃ t : PersistentARTrie UInt64, execAll noLoader [.insert [1], .insertWithValue [2] 7, .upsert [] 3,
        .compareAndSwap [2] (some 7) 8, .increment [1] 4, .remove []] (create .immediate) = some t ∧
      entryAt noLoader (reopen noLoader t.log).slot.node = entryAt noLoader t.root :=
  reopen_restores_map noLoader .immediate _ (by decide)

end Dictenstein.Overlay
