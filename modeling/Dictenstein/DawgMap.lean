import Mathlib.Data.Finmap
import Mathlib.Data.Set.Card
import Dictenstein.DawgBuilder
/-!
# DawgMap — what one attempt of a DAWG operation does, against a finite map

The operations of `LockFreeDawg` in `dynamic_dawg/lockfree.rs`.  Each loads the published version, builds a new root from
it or finds that nothing is to be changed, and publishes the new version by a compare-and-swap.  `attempt` is what is done
between the load and the compare-and-swap.
-/
namespace Dictenstein.Dawg

open List Bool Finmap Heap

variable {U V : Type}

structure GraphVersion where
  root : Nat
  termCount : Nat
  needsCompaction : Bool
  revision : Nat
deriving DecidableEq, Repr

inductive DawgOp (U V : Type) where
  | insertUnits (units : List U)
  | insertUnitsWithOptionalValue (units : List U) (value : Option V)
  | updateOrInsertUnits (units : List U) (defaultValue : V) (updateFn : V → V)
  | removeUnits (units : List U)
  | clear
  -- `compact` and `minimize`
  | rebuildFromVisibleEntries

inductive DawgResult where
  | changed (b : Bool)
  | nodesSaved (n : Nat)
deriving DecidableEq, Repr

/-! ## The ends of the copied paths -/

def insertTerminal (n : DawgNode U V) : Option (TerminalEdit V) :=
  if n.isFinal then none else some ⟨true, n.value, true⟩

def valueTerminal (value : Option V) (n : DawgNode U V) : Option (TerminalEdit V) :=
  some ⟨true, value, !n.isFinal⟩

def updateTerminal (defaultValue : V) (updateFn : V → V) (n : DawgNode U V) : Option (TerminalEdit V) :=
  let nextValue := if n.isFinal then
      match n.value with
      | some value => updateFn value
      | none => defaultValue
    else defaultValue
  some ⟨true, some nextValue, !n.isFinal⟩

def removeTerminal (n : DawgNode U V) : Option (TerminalEdit V) :=
  if !n.isFinal then none else some ⟨false, none, false⟩

inductive Attempt where
  | unchanged (result : DawgResult)
  | publish (next : GraphVersion) (result : DawgResult)
  -- an assertion of the builder failed
  | panicked

variable [LinearOrder U]

/-- A new root on the version `current`, one term more if `inserted`. -/
def publishRewrite (current : GraphVersion) (rewrite : Rewrite) : Attempt :=
  .publish ⟨rewrite.node, current.termCount + rewrite.inserted.toNat, current.needsCompaction, current.revision + 1⟩
    (.changed rewrite.inserted)

def attempt (h : Heap U V) (current : GraphVersion) : DawgOp U V → Attempt × Heap U V
  | .insertUnits units =>
    let (rewrite, h) := rewritePath insertTerminal h current.root units
    if !rewrite.changed then (.unchanged (.changed false), h) else (publishRewrite current rewrite, h)
  | .insertUnitsWithOptionalValue units value =>
    let (rewrite, h) := rewritePath (valueTerminal value) h current.root units
    (publishRewrite current rewrite, h)
  | .updateOrInsertUnits units defaultValue updateFn =>
    let (rewrite, h) := rewritePath (updateTerminal defaultValue updateFn) h current.root units
    (publishRewrite current rewrite, h)
  | .removeUnits units =>
    let (rewrite, h) := rewritePath removeTerminal h current.root units
    if !rewrite.changed then (.unchanged (.changed false), h)
    else (.publish ⟨rewrite.node, current.termCount - 1, true, current.revision + 1⟩ (.changed true), h)
  | .clear =>
    if current.termCount = 0 then (.unchanged (.changed false), h)
    else
      let (root, h) := h.alloc (.new false)
      (.publish ⟨root, 0, false, current.revision + 1⟩ (.changed true), h)
  | .rebuildFromVisibleEntries =>
    let oldNodeCount := h.countUniqueNodesFrom current.root
    let entries := h.collectVisibleEntriesFrom current.root
    match buildMinimizedParts h entries with
    | none => (.panicked, h)
    | some ((root, _), h) =>
      let newNodeCount := h.countUniqueNodesFrom root
      (.publish ⟨root, entries.length, false, current.revision + 1⟩ (.nodesSaved (oldNodeCount - newNodeCount)), h)

/-! ## The finite map -/

abbrev PlainMap (U V : Type) := Finmap fun _ : List U => Option V

/-- What an operation does to a finite map, and what it returns. -/
def PlainMap.exec (m : PlainMap U V) : DawgOp U V → PlainMap U V × Option Bool
  | .insertUnits units => if units ∈ m then (m, some false) else (m.insert units none, some true)
  | .insertUnitsWithOptionalValue units value => (m.insert units value, some (decide (units ∉ m)))
  | .updateOrInsertUnits units defaultValue updateFn =>
    (m.insert units (some (match m.lookup units with
      | some (some value) => updateFn value
      | _ => defaultValue)), some (decide (units ∉ m)))
  | .removeUnits units => (m.erase units, some (decide (units ∈ m)))
  | .clear => (∅, some (decide (m.keys.card ≠ 0)))
  | .rebuildFromVisibleEntries => (m, none)

/-- An operation that leaves the map and says so publishes nothing. -/
def PlainMap.publishes (m : PlainMap U V) : DawgOp U V → Bool
  | .insertUnits units => decide (units ∉ m)
  | .removeUnits units => decide (units ∈ m)
  | .clear => decide (m.keys.card ≠ 0)
  | _ => true

def DawgResult.Matches : DawgResult → Option Bool → Prop
  | .changed b, some b' => b = b'
  | .nodesSaved _, none => True
  | _, _ => False

/-- The version's root reads as the map, and its count is the number of keys. -/
structure Represents (h : Heap U V) (version : GraphVersion) (m : PlainMap U V) : Prop where
  wf : h.WellFormed
  root_lt : version.root < h.length
  entry_eq : ∀ k, h.entryAt version.root k = m.lookup k
  count_eq : version.termCount = m.keys.card

/-! ## Maps and counts -/

section
variable (m : PlainMap U V) (k : List U) (x : Option V)

theorem keys_insert : (m.insert k x).keys = insert k m.keys := by
  ext a
  rw [Finmap.mem_keys, Finmap.mem_insert, Finset.mem_insert, Finmap.mem_keys]

theorem card_keys_insert : (m.insert k x).keys.card = m.keys.card + (decide (k ∉ m)).toNat := by
  rw [keys_insert]
  by_cases hk : k ∈ m
  · rw [Finset.insert_eq_of_mem (mem_keys.2 hk)]
    simp [hk]
  · rw [Finset.card_insert_of_notMem (fun h => hk (mem_keys.1 h))]
    simp [hk]

theorem card_keys_erase (hk : k ∈ m) : (m.erase k).keys.card = m.keys.card - 1 := by
  rw [keys_erase, Finset.card_erase_of_mem (mem_keys.2 hk)]

theorem lookup_insert_ite (k' : List U) : (m.insert k x).lookup k' = if k' = k then some x else m.lookup k' := by
  by_cases h : k' = k
  · rw [if_pos h, h, lookup_insert]
  · rw [if_neg h, lookup_insert_of_ne _ h]

theorem lookup_erase_ite (k' : List U) : (m.erase k).lookup k' = if k' = k then none else m.lookup k' := by
  by_cases h : k' = k
  · rw [if_pos h, h, lookup_erase]
  · rw [if_neg h, lookup_erase_ne h]

theorem erase_of_notMem (hk : k ∉ m) : m.erase k = m := by
  apply ext_lookup
  intro k'
  rw [lookup_erase_ite]
  split
  · rename_i h
    rw [h, lookup_eq_none.2 hk]
  · rfl

theorem eq_empty_of_card (h : m.keys.card = 0) : m = ∅ := by
  apply ext_lookup
  intro k'
  rw [Finmap.lookup_empty, Finmap.lookup_eq_none, ← Finmap.mem_keys, Finset.card_eq_zero.1 h]
  exact Finset.notMem_empty k'

end

namespace Represents

variable {h h' : Heap U V} {version : GraphVersion} {m m' : PlainMap U V}

section
variable (hr : Represents h version m)
include hr

theorem extend (he : h.Extends h') : Represents h' version m where
  wf := he.wf
  root_lt := lt_of_lt_of_le hr.root_lt he.length_le
  entry_eq k := by rw [entryAt_of_isPrefix hr.wf he.pre k hr.root_lt, hr.entry_eq]
  count_eq := hr.count_eq

theorem unique (hr' : Represents h version m') : m = m' := by
  apply ext_lookup
  intro k
  rw [← hr.entry_eq, hr'.entry_eq]

theorem ncard_keys :
    {k | (h.entryAt version.root k).isSome}.Finite ∧ {k | (h.entryAt version.root k).isSome}.ncard = version.termCount := by
  have hkeys : {k | (h.entryAt version.root k).isSome} = (m.keys : Set (List U)) := by
    ext k
    rw [Set.mem_ofPred_eq, hr.entry_eq, Finmap.lookup_isSome, Finset.mem_coe, Finmap.mem_keys]
  rw [hkeys, Set.ncard_coe_finset, hr.count_eq]
  exact ⟨m.keys.finite_toSet, rfl⟩

theorem terminal_spec (units : List U) : ((h.terminalNode version.root units).isFinal = true ↔ units ∈ m) ∧
      entryOf (h.terminalNode version.root units) = m.lookup units := by
  have hentry : entryOf (h.terminalNode version.root units) = m.lookup units := by
    rw [entryOf_terminalNode, hr.entry_eq]
  refine ⟨?_, hentry⟩
  rw [← lookup_isSome, ← hentry, entryOf]
  cases (h.terminalNode version.root units).isFinal <;> simp

theorem insert {units : List U} {x : Option V} {r : Rewrite × Heap U V}
    {edit : TerminalEdit V} (hw : Rewritten h version.root units (some edit) r) (hfinal : edit.isFinal = true)
    (hvalue : edit.value = x) (hins : edit.inserted = decide (units ∉ m)) :
    r.1.changed = true ∧ r.1.inserted = decide (units ∉ m) ∧ ∀ needsCompaction revision, Represents r.2
        ⟨r.1.node, version.termCount + r.1.inserted.toNat, needsCompaction, revision⟩ (m.insert units x) := by
  obtain ⟨hch, hinserted, hentry⟩ := hw.changed edit rfl
  rw [hins] at hinserted
  refine ⟨hch, hinserted, fun _ _ => ⟨hw.extend.wf, hw.node_lt, fun k => ?_, ?_⟩⟩
  · rw [hentry, lookup_insert_ite, entryOf, hfinal, hvalue, hr.entry_eq]
    rfl
  · rw [hinserted, card_keys_insert, ← hr.count_eq]

end

end Represents

/-! ## An attempt -/

/-- An attempt on a version of the map `m` that ends in the heap `h'`. -/
inductive AttemptOk (h' : Heap U V) (current : GraphVersion) (m : PlainMap U V) (op : DawgOp U V) : Attempt → Prop where
  | unchanged (hpub : m.publishes op = false) (hexec : m.exec op = (m, some false)) :
      AttemptOk h' current m op (.unchanged (.changed false))
  | publish (next : GraphVersion) (result : DawgResult) (hpub : m.publishes op = true)
      (hnext : Represents h' next (m.exec op).1) (hresult : result.Matches (m.exec op).2)
      (hrevision : next.revision = current.revision + 1) : AttemptOk h' current m op (.publish next result)

def Attempted (h : Heap U V) (current : GraphVersion) (m : PlainMap U V) (op : DawgOp U V) : Prop :=
  h.Extends (attempt h current op).2 ∧ AttemptOk (attempt h current op).2 current m op (attempt h current op).1

section
variable {h : Heap U V} {current : GraphVersion} {m : PlainMap U V}

section
variable (hr : Represents h current m)
include hr

theorem attempt_value (op : DawgOp U V) (units : List U)
    (terminal : DawgNode U V → Option (TerminalEdit V)) (next : DawgNode U V → Option V)
    (hterminal : ∀ n, terminal n = some ⟨true, next n, !n.isFinal⟩) (hpub : m.publishes op = true)
    (hexec : m.exec op = (m.insert units (next (h.terminalNode current.root units)), some (decide (units ∉ m)))) :
    h.Extends (rewritePath terminal h current.root units).2 ∧
      AttemptOk (rewritePath terminal h current.root units).2 current m op
        (publishRewrite current (rewritePath terminal h current.root units).1) := by
  have hclean : ∀ n edit, terminal n = some edit → edit.isFinal = false → edit.value = none := by
    intro n edit he hf
    rw [hterminal] at he
    cases he
    cases hf
  have hw := rewritePath_spec hclean units hr.wf hr.root_lt
  rw [hterminal] at hw
  have hins : (!(h.terminalNode current.root units).isFinal) = decide (units ∉ m) := by
    rw [Bool.eq_iff_iff, Bool.not_eq_true', ← Bool.not_eq_true, (hr.terminal_spec units).1, decide_eq_true_iff]
  obtain ⟨-, hinserted, hrep⟩ := hr.insert hw rfl rfl hins
  refine ⟨hw.extend, .publish _ _ hpub ?_ ?_ rfl⟩
  · rw [hexec]
    exact hrep _ _
  · rw [hexec]
    exact hinserted

theorem attempt_insertUnits (units : List U) : Attempted h current m (.insertUnits units) := by
  obtain ⟨hfinal, hentry⟩ := hr.terminal_spec units
  have hclean : ∀ (n : DawgNode U V) edit, insertTerminal n = some edit → edit.isFinal = false → edit.value = none := by
    intro n edit he hf
    unfold insertTerminal at he
    split at he
    · cases he
    · cases he
      cases hf
  have hw := rewritePath_spec hclean units hr.wf hr.root_lt
  simp only [Attempted, attempt]
  generalize rewritePath insertTerminal h current.root units = r at hw ⊢
  by_cases hmem : units ∈ m
  · have hedit : insertTerminal (h.terminalNode current.root units) = none := if_pos (hfinal.2 hmem)
    have hun := hw.unchanged hedit
    simp only [hun, Bool.not_false, if_true]
    exact ⟨hw.extend, .unchanged (by simp [PlainMap.publishes, hmem]) (by simp [PlainMap.exec, hmem])⟩
  · have hnot : (h.terminalNode current.root units).isFinal = false := by
      rw [← not_eq_true, hfinal]
      exact hmem
    -- the node is not final, so it has no value
    have hvalue : (h.terminalNode current.root units).value = none := hr.wf.terminalNode_clean hr.root_lt units hnot
    have hedit : insertTerminal (h.terminalNode current.root units) = some ⟨true, none, true⟩ := by
      rw [insertTerminal, hnot, hvalue]
      rfl
    rw [hedit] at hw
    obtain ⟨hch, hins, hrep⟩ := hr.insert hw rfl rfl (by simp [hmem])
    simp only [hch, Bool.not_true, Bool.false_eq_true, if_false]
    refine ⟨hw.extend, .publish _ _ (by simp [PlainMap.publishes, hmem]) ?_ ?_ rfl⟩
    · simp only [PlainMap.exec, if_neg hmem]
      exact hrep _ _
    · simp only [PlainMap.exec, hins, hmem, not_false_eq_true, decide_true]
      rfl

theorem attempt_removeUnits (units : List U) : Attempted h current m (.removeUnits units) := by
  obtain ⟨hfinal, -⟩ := hr.terminal_spec units
  have hclean : ∀ (n : DawgNode U V) edit, removeTerminal n = some edit → edit.isFinal = false → edit.value = none := by
    intro n edit he _
    unfold removeTerminal at he
    split at he
    · cases he
    · cases he
      rfl
  have hw := rewritePath_spec hclean units hr.wf hr.root_lt
  simp only [Attempted, attempt]
  generalize rewritePath removeTerminal h current.root units = r at hw ⊢
  by_cases hmem : units ∈ m
  · have hedit : removeTerminal (h.terminalNode current.root units) = some ⟨false, none, false⟩ := by
      rw [removeTerminal, hfinal.2 hmem]
      rfl
    rw [hedit] at hw
    obtain ⟨hch, -, hentry⟩ := hw.changed _ rfl
    simp only [hch, Bool.not_true, Bool.false_eq_true, if_false]
    refine ⟨hw.extend,
      .publish _ _ (by simp [PlainMap.publishes, hmem]) ?_ (by simp [PlainMap.exec, hmem, DawgResult.Matches]) rfl⟩
    refine ⟨hw.extend.wf, hw.node_lt, fun k => ?_, ?_⟩
    · rw [hentry, hr.entry_eq]
      exact (lookup_erase_ite m units k).symm
    · show current.termCount - 1 = (m.erase units).keys.card
      rw [card_keys_erase m units hmem, hr.count_eq]
  · have hedit : removeTerminal (h.terminalNode current.root units) = none := by
      have hnot : (h.terminalNode current.root units).isFinal = false := by
        rw [← not_eq_true, hfinal]
        exact hmem
      rw [removeTerminal, hnot]
      rfl
    have hun := hw.unchanged hedit
    simp only [hun, Bool.not_false, if_true]
    exact ⟨hw.extend, .unchanged (by simp [PlainMap.publishes, hmem])
      (by simp [PlainMap.exec, hmem, erase_of_notMem m units hmem])⟩

theorem attempt_clear : Attempted h current m .clear := by
  unfold Attempted attempt
  by_cases hzero : current.termCount = 0
  · have hcard : m.keys.card = 0 := by rw [← hr.count_eq, hzero]
    rw [if_pos hzero]
    refine ⟨hr.wf.refl, .unchanged (by simp [PlainMap.publishes, hcard]) ?_⟩
    rw [eq_empty_of_card m hcard]
    rfl
  · have hcard : m.keys.card ≠ 0 := by rwa [← hr.count_eq]
    rw [if_neg hzero]
    have hext := hr.wf.alloc_new false
    refine ⟨hext, .publish _ _ (by simp [PlainMap.publishes, hcard]) ?_ ?_ rfl⟩
    · refine ⟨hext.wf, by simp [alloc], fun k => ?_, rfl⟩
      exact entryAt_new h k
    · simp [PlainMap.exec, hcard, DawgResult.Matches]

theorem attempt_rebuild : Attempted h current m .rebuildFromVisibleEntries := by
  obtain ⟨q, count, h', hbuild, hext, hlt, hentry⟩ := buildMinimizedParts_spec hr.wf
    (h.collectVisibleEntriesFrom current.root)
  have hsorted := sorted_collectVisibleEntriesFrom hr.wf hr.root_lt
  have hmem : ∀ k v, (k, v) ∈ h.collectVisibleEntriesFrom current.root ↔ m.lookup k = some v := by
    intro k v
    rw [mem_collectVisibleEntriesFrom hr.wf hr.root_lt, hr.entry_eq]
  rw [(hsorted.imp le_of_lt).insertionSort_eq] at hentry
  unfold Attempted attempt
  simp only [hbuild]
  refine ⟨hext, .publish _ _ rfl ⟨hext.wf, hlt, fun k => ?_, ?_⟩ trivial rfl⟩
  · apply Option.ext
    intro v
    rw [hentry, insertAll_eq_some_iff _ _ hsorted, hmem]
    simp [PlainMap.exec]
  · -- the keys of the entries are those of the map, each once
    have hkeys : m.keys = ((h.collectVisibleEntriesFrom current.root).map Prod.fst).toFinset := by
      ext k
      rw [Finmap.mem_keys, Finmap.mem_iff, mem_toFinset, mem_map]
      constructor
      · rintro ⟨v, hv⟩
        exact ⟨(k, v), (hmem k v).2 hv, rfl⟩
      · rintro ⟨⟨k', v⟩, hkv, rfl⟩
        exact ⟨v, (hmem k' v).1 hkv⟩
    have hnodup : ((h.collectVisibleEntriesFrom current.root).map Prod.fst).Nodup :=
      pairwise_map.2 (hsorted.imp ne_of_lt)
    show _ = (m.keys).card
    rw [hkeys, toFinset_card_of_nodup hnodup, length_map]

/-- **An attempt on a version does to the map what the operation does**, or leaves it where the operation would. -/
theorem attempt_spec (op : DawgOp U V) : Attempted h current m op := by
  cases op with
  | insertUnits units => exact attempt_insertUnits hr units
  | insertUnitsWithOptionalValue units value =>
    exact attempt_value hr _ units (valueTerminal value) (fun _ => value) (fun _ => rfl) rfl rfl
  | updateOrInsertUnits units defaultValue updateFn =>
    refine attempt_value hr _ units (updateTerminal defaultValue updateFn) (fun n => some (if n.isFinal then
      match n.value with
      | some value => updateFn value
      | none => defaultValue
    else defaultValue)) (fun _ => rfl) rfl ?_
    rw [PlainMap.exec, ← (hr.terminal_spec units).2, entryOf]
    cases (h.terminalNode current.root units).isFinal
    · rfl
    · cases (h.terminalNode current.root units).value <;> rfl
  | removeUnits units => exact attempt_removeUnits hr units
  | clear => exact attempt_clear hr
  | rebuildFromVisibleEntries => exact attempt_rebuild hr

end

end

end Dictenstein.Dawg
