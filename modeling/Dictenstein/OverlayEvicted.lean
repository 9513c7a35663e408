import Dictenstein.DurableReplay
/-! # OverlayEvicted — the durable value operations on a partly evicted trie

Eviction replaces a subtree by a reference to the record that holds it, which no caller should notice. The increment keeps to
this: it reads through the faulting walk, and a read that loaded something makes the compare-and-swap fail, so the attempt
that counts sees the whole path in memory.

The other value operations ask for presence and value by the non-faulting walk, which takes a key behind a reference for
absent, and build their path copy with the faulting one. So they answer like the resident trie exactly when the key is not
`Hidden`, or when a compare-and-swap on a hidden key expects a value that is not there anyway. -/

namespace Dictenstein.Overlay

open Wire Wal Recovery OverlayNode DictionaryValue CounterLeaf PersistentARTrie Option

/-! ## Eviction -/

mutual
/-- The first trie is the second, resident one with some subtrees replaced by references to records that load as them
(perhaps partly evicted in turn). -/
inductive Evicted {U V : Type} (faultIn : FaultIn U V) : OverlayNode U V → OverlayNode U V → Prop
  | node {f : Bool} {v : Option V} {es es' : List (U × Child U V)} (edges : EvictedEdges faultIn es es') :
      Evicted faultIn (.mk f v es) (.mk f v es')
inductive EvictedEdges {U V : Type} (faultIn : FaultIn U V) : List (U × Child U V) → List (U × Child U V) → Prop
  | nil : EvictedEdges faultIn [] []
  | inMem {u : U} {a b : OverlayNode U V} {es es' : List (U × Child U V)} (child : Evicted faultIn a b)
      (rest : EvictedEdges faultIn es es') : EvictedEdges faultIn ((u, .inMem a) :: es) ((u, .inMem b) :: es')
  | onDisk {u : U} {p : SwizzledPtr} {a b : OverlayNode U V} {es es' : List (U × Child U V)}
      (present : p.isNull = false) (loads : faultIn p = .ok a) (child : Evicted faultIn a b)
      (rest : EvictedEdges faultIn es es') : EvictedEdges faultIn ((u, .onDisk p) :: es) ((u, .inMem b) :: es')
end

section Relation

variable {U V : Type} [DecidableEq U] {faultIn : FaultIn U V}

inductive EvictedChild (faultIn : FaultIn U V) : Option (Child U V) → Option (Child U V) → Prop
  | absent : EvictedChild faultIn none none
  | inMem {a b : OverlayNode U V} (child : Evicted faultIn a b) : EvictedChild faultIn (some (.inMem a)) (some (.inMem b))
  | onDisk {p : SwizzledPtr} {a b : OverlayNode U V} (present : p.isNull = false) (loads : faultIn p = .ok a)
      (child : Evicted faultIn a b) : EvictedChild faultIn (some (.onDisk p)) (some (.inMem b))

theorem EvictedEdges.find (u : U) {es es' : List (U × Child U V)} (h : EvictedEdges faultIn es es') :
    EvictedChild faultIn (findEdge u es) (findEdge u es') := by
  cases h with
  | nil => exact .absent
  | inMem child rest =>
    simp only [findEdge]
    split
    · exact .inMem child
    · exact rest.find u
  | onDisk present loads child rest =>
    simp only [findEdge]
    split
    · exact .onDisk present loads child
    · exact rest.find u

variable {a b : OverlayNode U V}

section
variable (h : Evicted faultIn a b)
include h

theorem Evicted.findChild (u : U) : EvictedChild faultIn (a.findChild u) (b.findChild u) := by
  cases h with
  | node edges => exact edges.find u

theorem Evicted.childAt (u : U) : childAt faultIn a u = none ∧ childAt faultIn b u = none ∨
      ∃ c d, childAt faultIn a u = some c ∧ childAt faultIn b u = some d ∧ Evicted faultIn c d := by
  have hchild := h.findChild u
  unfold Overlay.childAt resolveOrFault
  generalize a.findChild u = x at hchild ⊢
  generalize b.findChild u = y at hchild ⊢
  cases hchild with
  | absent => exact .inl ⟨rfl, rfl⟩
  | inMem child => exact .inr ⟨_, _, rfl, rfl, child⟩
  | onDisk present loads child => exact .inr ⟨_, _, by simp [present, loads], rfl, child⟩

theorem Evicted.nodeAt (path : List U) : nodeAt faultIn a path = none ∧ nodeAt faultIn b path = none ∨
      ∃ m m', nodeAt faultIn a path = some m ∧ nodeAt faultIn b path = some m' ∧ Evicted faultIn m m' := by
  induction path generalizing a b with
  | nil => exact .inr ⟨a, b, rfl, rfl, h⟩
  | cons u path ih =>
    simp only [Overlay.nodeAt]
    rcases h.childAt u with ⟨ha, hb⟩ | ⟨c, d, ha, hb, hcd⟩
    · exact .inl ⟨by rw [ha], by rw [hb]⟩
    · rw [ha, hb]
      exact ih hcd

omit [DecidableEq U] in
theorem Evicted.entry_eq : a.entry = b.entry := by
  cases h with
  | node edges => rfl

theorem Evicted.entryAt_eq : entryAt faultIn a = entryAt faultIn b := by
  funext key
  unfold entryAt
  rcases h.nodeAt key with ⟨ha, hb⟩ | ⟨m, m', ha, hb, hm⟩
  · rw [ha, hb]
  · rw [ha, hb]
    exact hm.entry_eq

theorem Evicted.resolved : Everywhere faultIn (Resolved faultIn) a := by
  intro path m hm u p hp
  rcases h.nodeAt path with ⟨ha, -⟩ | ⟨n, n', ha, -, hn⟩
  · rw [ha] at hm
    cases hm
  · obtain rfl : n = m := some.inj (ha.symm.trans hm)
    have hchild := hn.findChild u
    rw [hp] at hchild
    generalize n'.findChild u = y at hchild
    cases hchild with
    | onDisk present loads child => exact ⟨present, _, loads⟩

theorem Evicted.resident : Everywhere faultIn Resident b := by
  intro path m hm u p hp
  rcases h.nodeAt path with ⟨-, hb⟩ | ⟨n, n', -, hb, hn⟩
  · rw [hb] at hm
    cases hm
  · obtain rfl : n' = m := some.inj (hb.symm.trans hm)
    have hchild := hn.findChild u
    rw [hp] at hchild
    generalize n.findChild u = x at hchild
    cases hchild

end

end Relation


/-! ## What a value operation makes of what it finds -/

section Operations

variable {V : Type} [DictionaryValue V] {faultIn : FaultIn UInt8 V}

inductive ValueOp (V : Type) where
  | insertWithValue (v : V)
  | upsert (v : V)
  | compareAndSwap (expected : Option V) (new : V)

def ValueOp.exec (faultIn : FaultIn UInt8 V) (t : PersistentARTrie V) (key : Bytes) :
    ValueOp V → Except PersistentARTrieError Bool × PersistentARTrie V
  | .insertWithValue v => t.insertCasWithValueDurable faultIn key v
  | .upsert v => t.upsertCasDurable faultIn key v
  | .compareAndSwap expected new => t.compareAndSwapCasDurable faultIn key expected new

/-- The reply to an operation that finds `found` at its key, and the value it writes. -/
def ValueOp.outcome (found : Option (Option V)) : ValueOp V → Bool × Option V
  | .insertWithValue v => if found.isSome then (false, none) else (true, some v)
  | .upsert v => (!found.isSome, some v)
  | .compareAndSwap expected new =>
    if found.join.map serialize != expected.map serialize then (false, none) else (true, some new)

def foundAt (root : OverlayNode UInt8 V) (key : Bytes) : Option (Option V) :=
  (findLeafIterative root key).map OverlayNode.value

/-- The trie after an operation that wrote `written`, having found `found`. -/
structure Wrote (faultIn : FaultIn UInt8 V) (t t' : PersistentARTrie V) (key : Bytes) (found : Option (Option V))
    (written : Option V) : Prop where
  entry : entryAt faultIn t'.root = match written with
    | none => entryAt faultIn t.root
    | some v => Function.update (entryAt faultIn t.root) key (some (some v))
  termCount : t'.overlay.slot.termCount = t.overlay.slot.termCount + if written.isSome && !found.isSome then 1 else 0

section
omit [DictionaryValue V]

theorem isSome_foundAt (root : OverlayNode UInt8 V) (key : Bytes) :
    (foundAt root key).isSome = (findLeafIterative root key).isSome := isSome_map ..

theorem join_foundAt (root : OverlayNode UInt8 V) (key : Bytes) : (foundAt root key).join = valueRead root key := by
  unfold foundAt valueRead
  cases findLeafIterative root key <;> rfl

end

variable {t : PersistentARTrie V} {root : OverlayNode UInt8 V} {key : Bytes}

omit [DictionaryValue V] in
theorem valuePublication_of_resolved (hn : Everywhere faultIn (Resolved faultIn) root) (key : Bytes) (v : V) :
    ∃ new, valuePublication faultIn root key v = .ok (new, presenceDelta root key) ∧
      entryAt faultIn new = Function.update (entryAt faultIn root) key (some (some v)) := by
  obtain ⟨new, hnew⟩ := buildValuePathIterative_ok hn key v
  refine ⟨new, by rw [valuePublication, hnew]; rfl, ?_⟩
  refine entryAt_pathCopy (fun m m' _ hleaf => ?_) (fun rest s _ hs k => ?_) hnew
  · cases hleaf
    exact ⟨rfl, rfl⟩
  · cases hs
    exact entryAt_createSpine rfl rest k

theorem publishValue_spec (hn : Everywhere faultIn (Resolved faultIn) t.root) (record : WalRecord Nat) (key : Bytes) (v : V)
    {mode : ValueWriteMode} (hmode : mode.refuses t.root key = false)
    (onPublished onRefused : Except PersistentARTrieError Bool) :
    ∃ t', t.publishValue faultIn record key v mode onPublished onRefused = (onPublished, t') ∧
      Wrote faultIn t t' key (foundAt t.root key) (some v) := by
  obtain ⟨new, hnew, hentry⟩ := valuePublication_of_resolved hn key v
  have hattempt : valueAttempt faultIn (t.append record).root key v mode = .publish new (presenceDelta t.root key) := by
    show valueAttempt faultIn t.root key v mode = _
    rw [valueAttempt, hmode, hnew]
    rfl
  rw [publishValue, hattempt]
  refine ⟨_, rfl, hentry, ?_⟩
  rw [presenceDelta, isSome_foundAt]
  cases (findLeafIterative t.root key).isSome <;> rfl

section
omit [DictionaryValue V]

theorem wrote_nothing (t : PersistentARTrie V) (key : Bytes) (found : Option (Option V)) :
    Wrote faultIn t t key found none where
  entry := rfl
  termCount := (Int.add_zero _).symm

theorem gated_of_synchronous (h : t.policy.synchronous = true) (method noun : String)
    (body : Except PersistentARTrieError Bool × PersistentARTrie V) : t.gated method noun body = body := by
  rw [gated, durablePolicyGate, if_pos h]

end

/-- **A value operation acts on what the non-faulting walk finds**, however much of the trie is on disk. -/
theorem ValueOp.exec_outcome (hsync : t.policy.synchronous = true) (hn : Everywhere faultIn (Resolved faultIn) t.root)
    (key : Bytes) (op : ValueOp V) :
    ∃ t', op.exec faultIn t key = (.ok (op.outcome (foundAt t.root key)).1, t') ∧
      Wrote faultIn t t' key (foundAt t.root key) (op.outcome (foundAt t.root key)).2 := by
  cases op with
  | insertWithValue v =>
    rw [ValueOp.exec, insertCasWithValueDurable, gated_of_synchronous hsync, ValueOp.outcome, isSome_foundAt,
      valuePresentFaulting]
    split
    · exact ⟨t, rfl, wrote_nothing t key _⟩
    · rename_i habsent
      exact publishValue_spec hn _ key v (by rw [ValueWriteMode.refuses, Bool.eq_false_iff]; exact habsent) _ _
  | upsert v =>
    rw [ValueOp.exec, upsertCasDurable, gated_of_synchronous hsync, ValueOp.outcome, isSome_foundAt]
    exact publishValue_spec hn _ key v rfl _ _
  | compareAndSwap expected new =>
    rw [ValueOp.exec, compareAndSwapCasDurable, gated_of_synchronous hsync, ValueOp.outcome, join_foundAt, valueReadFaulting]
    split
    · exact ⟨t, rfl, wrote_nothing t key _⟩
    · rename_i hsame
      exact publishValue_spec hn _ key new (by rw [ValueWriteMode.refuses, Bool.eq_false_iff]; exact hsame) _ _

theorem ValueOp.exec_refused (faultIn : FaultIn UInt8 V) (hsync : t.policy.synchronous = false) (key : Bytes)
    (op : ValueOp V) :
    ∃ e, ∀ t' : PersistentARTrie V, t'.policy = t.policy → op.exec faultIn t' key = (.error e, t') := by
  have hgate (method noun : String) : ∃ e,
    ∀ (t' : PersistentARTrie V) (body : Except PersistentARTrieError Bool × PersistentARTrie V),
      t'.policy = t.policy → t'.gated method noun body = (.error e, t') :=
    ⟨_, fun t' body hpolicy => by rw [gated, durablePolicyGate, hpolicy, hsync]; rfl⟩
  cases op <;> exact (hgate _ "write").imp fun e he t' => he t' _

/-! ## The evicted and the resident trie -/

def PersistentARTrie.withNode (t : PersistentARTrie V) (node : OverlayNode UInt8 V) : PersistentARTrie V :=
  t.withSlot { t.overlay.slot with node := node }

/-- Two executions, from `t` and from `s`, that no caller can tell apart. -/
structure Agrees {α : Type} (faultIn : FaultIn UInt8 V) (t s : PersistentARTrie V)
    (x y : Except PersistentARTrieError α × PersistentARTrie V) : Prop where
  reply : x.1 = y.1
  entry : entryAt faultIn x.2.root = entryAt faultIn y.2.root
  termCount : x.2.overlay.slot.termCount - t.overlay.slot.termCount = y.2.overlay.slot.termCount - s.overlay.slot.termCount

/-- The key is in the trie, but the non-faulting walk does not reach it. -/
def Hidden (faultIn : FaultIn UInt8 V) (root : OverlayNode UInt8 V) (key : Bytes) : Prop :=
  findLeafIterative root key = none ∧ entryAt faultIn root key ≠ none

/-- A compare-and-swap that expects a value other than the one stored: it fails whether or not it sees the key. -/
def ValueOp.missesAnyway (stored : Option (Option V)) : ValueOp V → Prop
  | .compareAndSwap (some e) _ => stored.join.map serialize ≠ some (serialize e)
  | _ => False

section
omit [DictionaryValue V]

theorem agrees_of_wrote {α : Type} {t' s s' : PersistentARTrie V} {found : Option (Option V)} {written : Option V}
    (ht : Wrote faultIn t t' key found written) (hs : Wrote faultIn s s' key found written)
    (hts : entryAt faultIn t.root = entryAt faultIn s.root) (r : Except PersistentARTrieError α) :
    Agrees faultIn t s (r, t') (r, s') where
  reply := rfl
  entry := by rw [ht.entry, hs.entry, hts]
  termCount := by
    have hcount := ht.termCount
    have hcount' := hs.termCount
    simp only at *
    omega

theorem foundAt_of_not_hidden (h : ¬ Hidden faultIn root key) : foundAt root key = entryAt faultIn root key := by
  unfold foundAt
  cases hleaf : findLeafIterative root key with
  | none =>
    by_contra hne
    exact h ⟨hleaf, fun he => hne he.symm⟩
  | some m => exact (entryAt_of_findLeafIterative hleaf).symm

end

theorem ValueOp.outcome_hidden (op : ValueOp V) (stored : Option (Option V)) :
    (op.missesAnyway stored → op.outcome none = op.outcome stored ∧ (op.outcome none).2 = none) ∧
      (¬ op.missesAnyway stored → (op.outcome none).1 ≠ (op.outcome stored).1 ∨ (op.outcome none).2.isSome = true) := by
  cases op with
  | insertWithValue | upsert => exact ⟨False.elim, fun _ => .inr rfl⟩
  | compareAndSwap expected new =>
    cases expected with
    | none => exact ⟨False.elim, fun _ => .inr rfl⟩
    | some e =>
      constructor
      · intro hmiss
        have hne : (stored.join.map serialize != some (serialize e)) = true := bne_iff_ne.2 hmiss
        simp [ValueOp.outcome, hne]
      · intro hhit
        have heq : stored.join.map serialize = some (serialize e) := not_not.1 hhit
        left
        simp [ValueOp.outcome, heq]

/-- **When a value operation on a partly evicted trie agrees with the resident one.** -/
theorem ValueOp.exec_agrees_iff {b : OverlayNode UInt8 V} (h : Evicted faultIn t.root b) (key : Bytes) (op : ValueOp V) :
    Agrees faultIn t (t.withNode b) (op.exec faultIn t key) (op.exec faultIn (t.withNode b) key) ↔
      (t.policy.synchronous = true → Hidden faultIn t.root key → op.missesAnyway (entryAt faultIn t.root key)) := by
  have hmap : entryAt faultIn t.root = entryAt faultIn (t.withNode b).root := h.entryAt_eq
  cases hsync : t.policy.synchronous with
  | false =>
    obtain ⟨e, he⟩ := op.exec_refused faultIn hsync key
    rw [he t rfl, he (t.withNode b) rfl]
    simp only [Bool.false_eq_true, false_implies, iff_true]
    exact agrees_of_wrote (wrote_nothing t key none) (wrote_nothing (t.withNode b) key none) hmap _
  | true =>
    have hresident : Everywhere faultIn Resident (t.withNode b).root := h.resident
    have hfound : foundAt (t.withNode b).root key = entryAt faultIn t.root key := by
      rw [hmap]
      exact (entryAt_of_resident hresident key).symm
    obtain ⟨t', hexec, hwrote⟩ := op.exec_outcome hsync h.resolved key
    obtain ⟨s', hexec', hwrote'⟩ := op.exec_outcome (t := t.withNode b) hsync
      (fun path m hm => (hresident path m hm).resolved faultIn) key
    rw [hfound] at hexec' hwrote'
    rw [hexec, hexec']
    by_cases hhidden : Hidden faultIn t.root key
    · have hnone : foundAt t.root key = none := by rw [foundAt, hhidden.1]; rfl
      have hsome : (entryAt faultIn t.root key).isSome = true := isSome_iff_ne_none.2 hhidden.2
      rw [hnone] at hwrote ⊢
      obtain ⟨hmiss, hhit⟩ := op.outcome_hidden (entryAt faultIn t.root key)
      simp only [hhidden, true_implies]
      constructor
      · intro hagrees
        by_contra hnot
        rcases hhit hnot with hreply | hwritten
        · exact hreply (Except.ok.inj hagrees.reply)
        · -- the hidden key is counted a second time
          have hcount := hwrote.termCount
          have hcount' := hwrote'.termCount
          have hagree := hagrees.termCount
          simp only [hwritten, hsome, isSome_none, Bool.not_false, Bool.not_true, Bool.and_true, Bool.and_false,
            if_true, Bool.false_eq_true, if_false] at hcount hcount' hagree
          omega
      · intro hmisses
        obtain ⟨houtcome, hnothing⟩ := hmiss hmisses
        rw [houtcome] at hnothing hwrote ⊢
        rw [hnothing] at hwrote hwrote'
        have hwrote'' : Wrote faultIn (t.withNode b) s' key none none := ⟨hwrote'.entry, hwrote'.termCount⟩
        exact agrees_of_wrote hwrote hwrote'' hmap _
    · simp only [hhidden, false_implies, implies_true, iff_true]
      rw [foundAt_of_not_hidden hhidden] at hwrote ⊢
      exact agrees_of_wrote hwrote hwrote' hmap _

/-! ## The increment

The read may load evicted nodes, and then the compare-and-swap fails and the loop runs again with fewer of them on the
path. The iteration that publishes has loaded nothing, so its presence check is exact. -/

variable [CounterLeaf V]
variable {fuel : Nat} {t : PersistentARTrie V}

theorem tryIncrementCasInner_spec (key : Bytes) (delta : UInt64) (hn : Everywhere faultIn (Resolved faultIn) t.root)
    (hfuel : pathFaults faultIn t.root key < fuel) :
    ∃ r t', tryIncrementCasInner faultIn key delta fuel t = some (r, t') ∧
      r.map Prod.fst = incrementValue key (entryAt faultIn t.root key).join delta ∧
      Wrote faultIn t t' key (entryAt faultIn t.root key)
        (incrementValue key (entryAt faultIn t.root key).join delta).toOption := by
  induction fuel generalizing t with
  | zero => exact absurd hfuel (Nat.not_lt_zero _)
  | succ fuel ih =>
    obtain ⟨found, slot, hread, hfound, hslot⟩ := findLeafFaulting_spec hn key defaultMaxFaultinRetries
    have hcurrent : found.bind OverlayNode.value = (entryAt faultIn t.root key).join := by
      rw [show entryAt faultIn t.root key = found.map OverlayNode.value from hfound.symm]
      cases found <;> rfl
    rw [tryIncrementCasInner]
    rw [show findLeafFaulting faultIn t.overlay.slot key defaultMaxFaultinRetries = (.ok found, slot) from hread]
    simp only [hcurrent]
    cases hvalue : incrementValue key (entryAt faultIn t.root key).join delta with
    | error e => exact ⟨_, _, rfl, rfl, hslot.entry, hslot.termCount.trans (Int.add_zero _).symm⟩
    | ok v =>
      obtain ⟨new, hnew, hentry⟩ := valuePublication_of_resolved hn key v
      have hpublication : valuePublication faultIn t.overlay.slot.node key v = .ok (new, presenceDelta t.root key) := hnew
      simp only [hpublication]
      rcases hslot.progress with ⟨rfl, hfaults⟩ | ⟨hrevision, hfewer⟩
      · refine ⟨_, _, if_pos rfl, rfl, hentry, ?_⟩
        have hwalk : foundAt t.root key = entryAt faultIn t.root key := findLeafIterative_of_pathFaults hn hfaults
        rw [presenceDelta, ← isSome_foundAt, hwalk]
        cases (entryAt faultIn t.root key).isSome <;> rfl
      · have hne : ¬ slot.revision = t.overlay.slot.revision := Nat.ne_of_gt hrevision
        have hmap : entryAt faultIn (t.claim.withSlot slot).root = entryAt faultIn t.root := hslot.entry
        have hcount : (t.claim.withSlot slot).overlay.slot.termCount = t.overlay.slot.termCount := hslot.termCount
        have hless : pathFaults faultIn (t.claim.withSlot slot).root key < fuel :=
          Nat.lt_of_lt_of_le hfewer (Nat.le_of_lt_succ hfuel)
        obtain ⟨r, t', hrun, hreply, hwrote⟩ := ih (t := t.claim.withSlot slot) hslot.resolved hless
        rw [hmap, hvalue] at hreply hwrote
        refine ⟨r, t', (if_neg hne).trans hrun, hreply, ?_, ?_⟩
        · rw [← hmap]
          exact hwrote.entry
        · rw [← hcount]
          exact hwrote.termCount

/-- **An increment agrees with the resident trie**, whatever is evicted. -/
theorem tryIncrementCasDurable_agrees {b : OverlayNode UInt8 V} (h : Evicted faultIn t.root b)
    (key : Bytes) (delta : UInt64) (hfuel : key.length < fuel) :
    ∃ x y, t.tryIncrementCasDurable faultIn fuel key delta = some x ∧
      (t.withNode b).tryIncrementCasDurable faultIn fuel key delta = some y ∧ Agrees faultIn t (t.withNode b) x y := by
  have hmap : entryAt faultIn t.root = entryAt faultIn (t.withNode b).root := h.entryAt_eq
  have hsame : ∀ e : PersistentARTrieError, Agrees faultIn t (t.withNode b) ((.error e : Except PersistentARTrieError V), t)
      (.error e, t.withNode b) :=
    fun e => agrees_of_wrote (wrote_nothing t key none) (wrote_nothing (t.withNode b) key none) hmap _
  unfold PersistentARTrie.tryIncrementCasDurable
  rw [show (t.withNode b).durablePolicyGate "try_increment_cas_durable" "increment" =
    t.durablePolicyGate "try_increment_cas_durable" "increment" from rfl]
  cases t.durablePolicyGate "try_increment_cas_durable" "increment" with
  | error e => exact ⟨_, _, rfl, rfl, hsame e⟩
  | ok u =>
    cases boundIncrementDelta key delta with
    | error e => exact ⟨_, _, rfl, rfl, hsame e⟩
    | ok bounded =>
      have hresident : Everywhere faultIn Resident (t.withNode b).root := h.resident
      have hless : ∀ n, pathFaults faultIn n key < fuel := fun n => (pathFaults_le faultIn n key).trans_lt hfuel
      obtain ⟨r, t', hrun, hreply, hwrote⟩ := tryIncrementCasInner_spec key delta
        (t := t.append (.batchIncrement [(key, bounded)])) h.resolved (hless _)
      obtain ⟨q, s', hrun', hreply', hwrote'⟩ := tryIncrementCasInner_spec key delta
        (t := (t.withNode b).append (.batchIncrement [(key, bounded)]))
        (fun path m hm => (hresident path m hm).resolved faultIn) (hless _)
      have hmap' : entryAt faultIn ((t.withNode b).append (.batchIncrement [(key, bounded)])).root =
          entryAt faultIn (t.append (.batchIncrement [(key, bounded)])).root := hmap.symm
      rw [hmap'] at hreply' hwrote'
      have hagrees := agrees_of_wrote hwrote hwrote' hmap'.symm (r.map Prod.fst)
      have hqr : r.map Prod.fst = q.map Prod.fst := hreply.trans hreply'.symm
      simp only [hrun, hrun']
      -- ranking and marking leave the root alone
      cases r with
      | error e =>
        cases q with
        | error e' => exact ⟨_, _, rfl, rfl, hqr, hagrees.entry, hagrees.termCount⟩
        | ok p => cases hqr
      | ok p =>
        cases q with
        | error e' => cases hqr
        | ok p' => exact ⟨_, _, rfl, rfl, hqr, hagrees.entry, hagrees.termCount⟩

/-- **The durable value operations on a partly evicted trie.** Insert-with-value, upsert and compare-and-swap agree with the
resident trie exactly when the key is not hidden (or the compare-and-swap misses anyway, or the policy refuses all);
increments always agree. -/
theorem value_operations_on_evicted (faultIn : FaultIn UInt8 V) (t : PersistentARTrie V) (b : OverlayNode UInt8 V)
    (h : Evicted faultIn t.root b) (key : Bytes) :
    (∀ op : ValueOp V, Agrees faultIn t (t.withNode b) (op.exec faultIn t key) (op.exec faultIn (t.withNode b) key) ↔
        (t.policy.synchronous = true → Hidden faultIn t.root key → op.missesAnyway (entryAt faultIn t.root key))) ∧
      (∀ (delta : UInt64) (fuel : Nat), key.length < fuel → ∃ x y, t.tryIncrementCasDurable faultIn fuel key delta = some x ∧
          (t.withNode b).tryIncrementCasDurable faultIn fuel key delta = some y ∧
          Agrees faultIn t (t.withNode b) x y) ∧
      (∀ v : V, ¬ Hidden faultIn t.root key → entryAt faultIn t.root key ≠ none →
        entryAt faultIn (t.insertCasWithValueDurable faultIn key v).2.root = entryAt faultIn t.root) := by
  refine ⟨ValueOp.exec_agrees_iff h key, fun delta fuel => tryIncrementCasDurable_agrees h key delta, ?_⟩
  intro v hhidden hpresent
  show entryAt faultIn ((ValueOp.insertWithValue v).exec faultIn t key).2.root = _
  cases hsync : t.policy.synchronous with
  | false =>
    obtain ⟨e, he⟩ := (ValueOp.insertWithValue v).exec_refused faultIn hsync key
    rw [he t rfl]
  | true =>
    obtain ⟨t', hexec, hwrote⟩ := (ValueOp.insertWithValue v).exec_outcome hsync h.resolved key
    rw [foundAt_of_not_hidden hhidden, ValueOp.outcome, if_pos (isSome_iff_ne_none.2 hpresent)] at hwrote
    rw [hexec]
    exact hwrote.entry

end Operations

/-! ## One evicted leaf -/

def leafRecord : OverlayNode UInt8 UInt64 := .mk true (some 7) []

def residentLeaf : OverlayNode UInt8 UInt64 := .mk false none [(1, .inMem leafRecord)]

def evictedLeaf : PersistentARTrie UInt64 := (create .immediate).withNode (.mk false none [(1, .onDisk ⟨1⟩)])

/-- An insert-with-value of a key whose leaf is on disk reports a new key and overwrites its value. -/
theorem insert_overwrites_evicted : Evicted (fun _ => .ok leafRecord) evictedLeaf.root residentLeaf ∧
      (evictedLeaf.insertCasWithValueDurable (fun _ => .ok leafRecord) [1] 9).1 = .ok true ∧
      entryAt (fun _ => .ok leafRecord)
        (evictedLeaf.insertCasWithValueDurable (fun _ => .ok leafRecord) [1] 9).2.root [1] = some (some 9) ∧
      ((evictedLeaf.withNode residentLeaf).insertCasWithValueDurable (fun _ => .ok leafRecord) [1] 9).1 = .ok false ∧
      entryAt (fun _ => .ok leafRecord)
        ((evictedLeaf.withNode residentLeaf).insertCasWithValueDurable (fun _ => .ok leafRecord) [1] 9).2.root [1] =
          some (some 7) :=
  ⟨.node (.onDisk rfl rfl (.node .nil) .nil), rfl, rfl, rfl, rfl⟩

theorem value_operations_on_evicted_leaf : Evicted (fun _ => .ok leafRecord) evictedLeaf.root residentLeaf ∧
      ∃ x y, evictedLeaf.tryIncrementCasDurable (fun _ => .ok leafRecord) 2 [1] 5 = some x ∧
        (evictedLeaf.withNode residentLeaf).tryIncrementCasDurable (fun _ => .ok leafRecord) 2 [1] 5 = some y ∧
        Agrees (fun _ => .ok leafRecord) evictedLeaf (evictedLeaf.withNode residentLeaf) x y :=
  have h : Evicted (fun _ => .ok leafRecord) evictedLeaf.root residentLeaf := .node (.onDisk rfl rfl (.node .nil) .nil)
  ⟨h, (value_operations_on_evicted _ evictedLeaf residentLeaf h [1]).2.1 5 2 (by decide)⟩

end Dictenstein.Overlay
