import Dictenstein.Replay
import Dictenstein.Frontier
/-! # DurableWrite — the durable write paths of a byte trie

Every durable write follows one order: append the data record, publish by a compare-and-swap of the root at a fresh
generation, append the commit rank, mark both LSNs committed. A write that turns out to change nothing only marks its record
("burned", never ranked).

What one attempt makes of the root it has loaded is a function of that root (`insertAttempt`, `removeAttempt`,
`valueAttempt`). For one thread alone the compare-and-swap succeeds unless the same call published a root in between, which
only the increment's faulting read does. -/

namespace Dictenstein.Overlay

open Wire Wal Recovery OverlayNode DictionaryValue CounterLeaf

/-! ## One attempt against a loaded root -/

inductive Attempt (V : Type) where
  | publish (root : OverlayNode UInt8 V) (termCountDelta : Int)
  -- nothing to change; `claimed` says whether a generation was used up to find out
  | refuse (claimed : Bool)
  | fail (error : PersistentARTrieError)

section Attempts

variable {V : Type} (faultIn : FaultIn UInt8 V) (root : OverlayNode UInt8 V)

/-- One iteration of `publish_root_cas_ranked`, the empty term's publisher. -/
def rootAttempt (transform : OverlayNode UInt8 V → OverlayNode UInt8 V)
    (alreadyInState : OverlayNode UInt8 V → Bool) : Attempt V :=
  if alreadyInState root then .refuse false else .publish (transform root) (finalDelta root (transform root))

def insertAttempt (term : Bytes) : Attempt V :=
  if term = [] then rootAttempt root asFinal isFinal
  else match buildFinalPathIterative faultIn root term with
    | .ok new => .publish new 1
    | .error .alreadyExists => .refuse true
    | .error (.failure e) => .fail e

def removeAttempt (term : Bytes) : Attempt V :=
  if term = [] then rootAttempt root asNonFinal fun r => !r.isFinal
  else match buildRemovePathIterative faultIn root term with
    | .ok new => .publish new (-1)
    | .error .alreadyExists => .refuse true
    | .error (.failure e) => .fail e

inductive ValueWriteMode where
  | insertOnce
  | upsert
  | compareAndSwap (expectedBytes : Option Bytes)
  deriving DecidableEq, Repr

def valueRead (key : Bytes) : Option V := (findLeafIterative root key).bind value

/-- `isize::from(!was_present)`, with the presence the non-faulting walk reports. -/
def presenceDelta (key : Bytes) : Int := if (findLeafIterative root key).isSome then 0 else 1

variable [DictionaryValue V]

def ValueWriteMode.refuses (key : Bytes) : ValueWriteMode → Bool
  | .insertOnce => (findLeafIterative root key).isSome
  | .upsert => false
  | .compareAndSwap expectedBytes => (valueRead root key).map serialize != expectedBytes

def valuePublication (key : Bytes) (v : V) : Except PersistentARTrieError (OverlayNode UInt8 V × Int) :=
  (buildValuePathIterative faultIn root key v).map fun new => (new, presenceDelta root key)

def valueAttempt (key : Bytes) (v : V) (mode : ValueWriteMode) : Attempt V :=
  if mode.refuses root key then .refuse true
  else match valuePublication faultIn root key v with
    | .ok (new, delta) => .publish new delta
    | .error e => .fail e

variable [CounterLeaf V]

/-- The count after an increment of the value read, or the error it is refused with. -/
def incrementValue (key : Bytes) (current : Option V) (delta : UInt64) : Except PersistentARTrieError V :=
  match counterOf current with
  | none => .error (.internal "not a counter")
  | some n => match i128ToCounterValue (n + delta.toNat) with
    | some v => .ok v
    | none => .error (.incrementOverflow key n delta.toNat)

end Attempts

/-! ## What an attempt does to the map -/

section AttemptSpecs

variable {V : Type} {faultIn : FaultIn UInt8 V} {root : OverlayNode UInt8 V}
variable {term : Bytes} {new : OverlayNode UInt8 V} {delta : Int}

theorem insertAttempt_absent (hn : WellFormed faultIn root) (h : entryAt faultIn root term = none) :
    ∃ new, insertAttempt faultIn root term = .publish new 1 ∧ Updates faultIn root new term (some none) := by
  obtain ⟨new, hnew, hu⟩ := buildFinalPathIterative_absent hn h
  refine ⟨new, ?_, hu⟩
  unfold insertAttempt
  split
  · rename_i hterm
    subst hterm
    have hf : root.isFinal = false := entryAt_eq_none.1 h root rfl
    simp only [buildFinalPathIterative, pathCopy, hf, Bool.false_eq_true, if_false, Except.ok.injEq] at hnew
    simp [rootAttempt, hf, ← hnew, finalDelta]
  · rw [hnew]

theorem insertAttempt_present (h : entryAt faultIn root term ≠ none) :
    ∃ claimed, insertAttempt faultIn root term = .refuse claimed := by
  unfold insertAttempt
  split
  · rename_i hterm
    subst hterm
    have hf : root.isFinal = true := by
      by_contra hf
      exact h (by simp [entry, hf])
    exact ⟨false, by rw [rootAttempt, if_pos hf]⟩
  · exact ⟨true, by rw [buildFinalPathIterative_present h]⟩

section
variable (hn : WellFormed faultIn root)
include hn

theorem removeAttempt_present (h : entryAt faultIn root term ≠ none) :
    ∃ new, removeAttempt faultIn root term = .publish new (-1) ∧ Updates faultIn root new term none := by
  obtain ⟨new, hnew, hu⟩ := buildRemovePathIterative_present hn h
  refine ⟨new, ?_, hu⟩
  unfold removeAttempt
  split
  · rename_i hterm
    subst hterm
    have hf : root.isFinal = true := by
      by_contra hf
      exact h (by simp [entry, hf])
    simp only [buildRemovePathIterative, pathCopy, hf, if_true, Except.ok.injEq] at hnew
    simp [rootAttempt, hf, ← hnew, finalDelta]
  · rw [hnew]

theorem removeAttempt_absent (h : entryAt faultIn root term = none) :
    ∃ claimed, removeAttempt faultIn root term = .refuse claimed := by
  unfold removeAttempt
  split
  · rename_i hterm
    subst hterm
    have hf : root.isFinal = false := entryAt_eq_none.1 h root rfl
    exact ⟨false, by rw [rootAttempt, if_pos (by simp [hf])]⟩
  · exact ⟨true, by rw [buildRemovePathIterative_absent hn h]⟩

theorem valuePublication_spec (key : Bytes) (v : V) :
    ∃ new, valuePublication faultIn root key v = .ok (new, presenceDelta root key) ∧
      Updates faultIn root new key (some (some v)) := by
  obtain ⟨new, hnew, hu⟩ := buildValuePathIterative_spec hn key v
  exact ⟨new, by rw [valuePublication, hnew]; rfl, hu⟩

theorem insertAttempt_publish (h : insertAttempt faultIn root term = .publish new delta) :
    entryAt faultIn root term = none ∧ delta = 1 ∧ Updates faultIn root new term (some none) := by
  by_cases hentry : entryAt faultIn root term = none
  · obtain ⟨new', hnew', hu⟩ := insertAttempt_absent hn hentry
    rw [hnew', Attempt.publish.injEq] at h
    exact ⟨hentry, h.2.symm, h.1 ▸ hu⟩
  · obtain ⟨claimed, hrefuse⟩ := insertAttempt_present hentry
    rw [hrefuse] at h
    cases h

theorem removeAttempt_publish (h : removeAttempt faultIn root term = .publish new delta) :
    entryAt faultIn root term ≠ none ∧ delta = -1 ∧ Updates faultIn root new term none := by
  by_cases hentry : entryAt faultIn root term = none
  · obtain ⟨claimed, hrefuse⟩ := removeAttempt_absent hn hentry
    rw [hrefuse] at h
    cases h
  · obtain ⟨new', hnew', hu⟩ := removeAttempt_present hn hentry
    rw [hnew', Attempt.publish.injEq] at h
    exact ⟨hentry, h.2.symm, h.1 ▸ hu⟩

theorem valueAttempt_publish [DictionaryValue V] {key : Bytes} {v : V} {mode : ValueWriteMode}
    (h : valueAttempt faultIn root key v mode = .publish new delta) :
    mode.refuses root key = false ∧ delta = presenceDelta root key ∧ Updates faultIn root new key (some (some v)) := by
  obtain ⟨new', hnew', hu⟩ := valuePublication_spec hn key v
  rw [valueAttempt, hnew'] at h
  cases hrefuse : mode.refuses root key with
  | true => simp [hrefuse] at h
  | false =>
    simp only [hrefuse, Bool.false_eq_true, if_false, Attempt.publish.injEq] at h
    exact ⟨rfl, h.2.symm, h.1 ▸ hu⟩

end

end AttemptSpecs

/-! ## The trie -/

inductive DurabilityPolicy where
  | immediate
  | groupCommit
  | periodic
  | none
  deriving DecidableEq, Repr

def DurabilityPolicy.synchronous : DurabilityPolicy → Bool
  | .immediate | .groupCommit => true
  | .periodic | .none => false

/-- `CommittedWatermark::mark_committed` on the contiguous prefix and the LSNs waiting above it. -/
def markCommitted (lsn : Nat) (w : Frontier) : Frontier := if lsn ≤ w.cur then w else w.mark lsn

structure PersistentARTrie (V : Type) where
  overlay : LiveOverlay V
  commitSeq : Nat
  log : Log
  nextLsn : Nat
  watermark : Frontier
  policy : DurabilityPolicy

namespace PersistentARTrie

variable {V : Type}

def create (policy : DurabilityPolicy) : PersistentARTrie V := ⟨.fresh, 0, [], 1, ⟨0, ∅⟩, policy⟩

variable (t : PersistentARTrie V)

def root : OverlayNode UInt8 V := t.overlay.slot.node

def withSlot (slot : RootRevision UInt8 V) : PersistentARTrie V := { t with overlay := ⟨slot, t.overlay.cache⟩ }

def publish (root : OverlayNode UInt8 V) (delta : Int) : PersistentARTrie V :=
  t.withSlot (t.overlay.slot.publish root delta)

def cacheInsert (term : Bytes) : PersistentARTrie V :=
  { t with overlay := ⟨t.overlay.slot, insert term t.overlay.cache⟩ }

def cacheRemove (term : Bytes) : PersistentARTrie V :=
  { t with overlay := ⟨t.overlay.slot, t.overlay.cache.erase term⟩ }

def claim : PersistentARTrie V := { t with commitSeq := t.commitSeq + 1 }

def append (record : WalRecord Nat) : PersistentARTrie V :=
  { t with log := t.log ++ [(t.nextLsn, record)], nextLsn := t.nextLsn + 1 }

def mark (lsn : Nat) : PersistentARTrie V := { t with watermark := markCommitted lsn t.watermark }

def commitRankAndMark (dataLsn : Nat) (key : Bytes) (generation : Nat) : PersistentARTrie V :=
  ((t.append (.commitRank dataLsn key generation)).mark dataLsn).mark t.nextLsn

def durablePolicyGate (method noun : String) : Except PersistentARTrieError Unit :=
  if t.policy.synchronous then .ok ()
  else .error (.invalidOperation (s!"{method} requires Immediate or GroupCommit durability so an acknowledged {noun} " ++
    "is guaranteed durable before it becomes visible"))

def gated (method noun : String) (body : Except PersistentARTrieError Bool × PersistentARTrie V) :
    Except PersistentARTrieError Bool × PersistentARTrie V :=
  match t.durablePolicyGate method noun with
  | .error e => (.error e, t)
  | .ok _ => body

/-- From the attempt to the reply: rank what was published, burn what was refused. `touch` and `touchRefused` are the
effects on the cache. -/
def settle (lsn : Nat) (key : Bytes) (attempt : Attempt V) (touch touchRefused : PersistentARTrie V → PersistentARTrie V)
    (onPublished onRefused : Except PersistentARTrieError Bool) :
    Except PersistentARTrieError Bool × PersistentARTrie V :=
  match attempt with
  | .publish root delta =>
    (onPublished, (touch (t.claim.publish root delta)).commitRankAndMark lsn key (t.commitSeq + 1))
  | .refuse claimed => (onRefused, (touchRefused (if claimed then t.claim else t)).mark lsn)
  | .fail e => (.error e, t.claim)

/-! ## Membership -/

variable (faultIn : FaultIn UInt8 V)

/-- The present-hoist of `insert_cas_durable`: the empty term asks the root, any other the non-faulting walk. -/
def presentHoist (term : Bytes) : Bool :=
  if term = [] then t.root.isFinal else (findLeafIterative t.root term).isSome

def insertCasDurable (term : Bytes) : Except PersistentARTrieError Bool × PersistentARTrie V :=
  t.gated "insert_cas_durable" "write" <| if term ∈ t.overlay.cache then (.ok false, t)
    else if t.presentHoist term then (.ok false, t.cacheInsert term)
    else
      let t' := t.append (.insert term none)
      t'.settle t.nextLsn term (insertAttempt faultIn t'.root term) (cacheInsert · term) (cacheInsert · term)
        (.ok true) (.ok false)

/-- The presence check of `remove_cas_durable`, with the faulting read behind the non-faulting one. -/
def presentBefore (term : Bytes) : Except PersistentARTrieError Bool × PersistentARTrie V :=
  if term = [] then (.ok t.root.isFinal, t)
  else if (findLeafIterative t.root term).isSome then (.ok true, t)
  else match findLeafFaulting faultIn t.overlay.slot term defaultMaxFaultinRetries with
    | (.ok found, slot) => (.ok found.isSome, t.withSlot slot)
    | (.error e, slot) => (.error e, t.withSlot slot)

def removeCasDurable (term : Bytes) : Except PersistentARTrieError Bool × PersistentARTrie V :=
  t.gated "remove_cas_durable" "remove" <| match t.presentBefore faultIn term with
    | (.error e, t) => (.error e, t)
    | (.ok false, t) => (.ok false, t.cacheRemove term)
    | (.ok true, t) =>
      let t' := t.append (.remove term)
      t'.settle t.nextLsn term (removeAttempt faultIn t'.root term) (cacheRemove · term) (cacheRemove · term)
        (.ok true) (.ok false)

/-! ## Values -/

variable [DictionaryValue V]

section
variable (key : Bytes)

/-- `value_present_faulting`, which for the byte trie is the non-faulting walk. -/
def valuePresentFaulting : Bool := (findLeafIterative t.root key).isSome

def valueReadFaulting : Option V := valueRead t.root key

/-- Append a value record, publish the value in the given mode and settle. Only a publication touches the cache. -/
def publishValue (record : WalRecord Nat) (key : Bytes) (v : V) (mode : ValueWriteMode)
    (onPublished onRefused : Except PersistentARTrieError Bool) :
    Except PersistentARTrieError Bool × PersistentARTrie V :=
  let t' := t.append record
  t'.settle t.nextLsn key (valueAttempt faultIn t'.root key v mode) (cacheInsert · key) id onPublished onRefused

def insertCasWithValueDurable (v : V) : Except PersistentARTrieError Bool × PersistentARTrie V :=
  t.gated "insert_cas_with_value_durable" "write" <| if t.valuePresentFaulting key then (.ok false, t)
    else t.publishValue faultIn (.insert key (some (serialize v))) key v .insertOnce (.ok true) (.ok false)

def upsertCasDurable (v : V) : Except PersistentARTrieError Bool × PersistentARTrie V :=
  t.gated "upsert_cas_durable" "write" <|
    t.publishValue faultIn (.upsert key (serialize v)) key v .upsert (.ok !t.valuePresentFaulting key)
      (.error (.internal ("upsert_cas_durable: value publish unexpectedly refused (NotApplied); the " ++
        "Upsert record is durable and replays on reopen")))

def compareAndSwapCasDurable (expected : Option V) (new : V) :
    Except PersistentARTrieError Bool × PersistentARTrie V :=
  t.gated "compare_and_swap" "write" <|
    if (t.valueReadFaulting key).map serialize != expected.map serialize then (.ok false, t)
    else t.publishValue faultIn (.upsert key (serialize new)) key new
      (.compareAndSwap (expected.map serialize)) (.ok true) (.ok false)

end

/-! ## Counters -/

variable [CounterLeaf V]

def boundIncrementDelta (key : Bytes) (delta : UInt64) : Except PersistentARTrieError Int64 :=
  if delta.toNat < 2 ^ 63 then .ok (Int64.ofNat delta.toNat) else .error (.deltaOutOfDomain key delta.toNat)

/-- The retry loop of `try_increment_cas_inner`: the new count with its generation. A read that loads evicted nodes
publishes, and the compare-and-swap then fails. -/
def tryIncrementCasInner (key : Bytes) (delta : UInt64) :
    Nat → PersistentARTrie V → Option (Except PersistentARTrieError (V × Nat) × PersistentARTrie V)
  | 0, _ => none
  | fuel + 1, t =>
    let revision := t.overlay.slot
    let t := t.claim
    let generation := t.commitSeq
    let (read, slot) := findLeafFaulting faultIn revision key defaultMaxFaultinRetries
    let t := t.withSlot slot
    let current := match read with
      | .ok found => found.bind value
      | .error _ => valueRead revision.node key
    match incrementValue key current delta with
    | .error e => some (.error e, t)
    | .ok newVal => match valuePublication faultIn revision.node key newVal with
      | .error e => some (.error e, t)
      | .ok (root, termCountDelta) =>
        if t.overlay.slot.revision = revision.revision then
          some (.ok (newVal, generation), t.publish root termCountDelta)
        else tryIncrementCasInner key delta fuel t

def tryIncrementCasDurable (fuel : Nat) (key : Bytes) (delta : UInt64) :
    Option (Except PersistentARTrieError V × PersistentARTrie V) :=
  match t.durablePolicyGate "try_increment_cas_durable" "increment" with
  | .error e => some (.error e, t)
  | .ok _ => match boundIncrementDelta key delta with
    | .error e => some (.error e, t)
    | .ok bounded =>
      let t' := t.append (.batchIncrement [(key, bounded)])
      match tryIncrementCasInner faultIn key delta fuel t' with
      | none => none
      | some (.error e, t'') => some (.error e, t'')
      | some (.ok (newVal, generation), t'') => some (.ok newVal, t''.commitRankAndMark t.nextLsn key generation)

end PersistentARTrie

end Dictenstein.Overlay
