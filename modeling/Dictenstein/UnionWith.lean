import Dictenstein.DawgRun
import Dictenstein.EdgeStore
import Dictenstein.OverlayIter
import Dictenstein.UpdateOrInsert
/-! # UnionWith — merging one dictionary into another

The entries of the other dictionary are merged in one by one, but only those with a value (`unionWith_leaves_out`). -/

namespace Dictenstein.UnionWith

open Dawg UpdateOrInsert Overlay OverlayNode Function List AdaptiveLabel

variable {V : Type} (merge : V → V → V)

/-! ## Merging a list of entries -/

section Merge
variable {K σ : Type}

/-- The two calls of a dictionary that `union_with` makes. -/
structure Calls (K V σ : Type) where
  getValue : σ → K → Option V
  insertWithValue : σ → K → V → σ

variable (d : Calls K V σ)

def mergeEntry (s : σ) : K × Option V → σ
  | (_, none) => s
  | (key, some otherValue) => d.insertWithValue s key (match d.getValue s key with
    | some selfValue => merge selfValue otherValue
    | none => otherValue)

/-- What is at a key after the merge, and a value of the other dictionary. -/
def merged (x : Option (Option V)) : Option V → Option (Option V)
  | none => x
  | some v => some (some (x.join.elim v (merge · v)))

/-- The union of two maps: a value of both is merged once. -/
def Unites (m o m' : K → Option (Option V)) : Prop :=
  ∀ key, ((m' key).isSome ↔ (m key).isSome ∨ (o key).isSome) ∧ (m' key).join = match (m key).join, (o key).join with
    | some x, some v => some (merge x v)
    | x, v => x.or v

variable [DecidableEq K]

/-- The states in `I` hold the map `view`. -/
structure Holds (I : σ → Prop) (view : σ → K → Option (Option V)) : Prop where
  get : ∀ s key, I s → d.getValue s key = (view s key).join
  insert : ∀ s key v, I s → I (d.insertWithValue s key v) ∧
    view (d.insertWithValue s key v) = update (view s) key (some (some v))

variable {merge d} {I : σ → Prop} {view : σ → K → Option (Option V)}
  (h : Holds d I view) {es : List (K × Option V)} {s : σ} {key : K}
include h

theorem mergeEntry_spec (hs : I s) (key : K) (e : K × Option V) : I (mergeEntry merge d s e) ∧
    view (mergeEntry merge d s e) key = if key = e.1 then merged merge (view s key) e.2 else view s key := by
  obtain ⟨k, _ | v⟩ := e
  · exact ⟨hs, by simp [mergeEntry, merged]⟩
  · obtain ⟨hI, hview⟩ := h.insert s k (match d.getValue s k with
      | some x => merge x v
      | none => v) hs
    refine ⟨hI, ?_⟩
    rw [mergeEntry, hview, h.get s k hs, update_apply]
    by_cases hkey : key = k
    · subst hkey
      cases hx : (view s key).join <;> simp [merged, hx]
    · simp [hkey]

theorem foldl_mergeEntry (hs : I s) (hnodup : (es.map Prod.fst).Nodup) {y : Option (Option V)}
    (hmem : ∀ x, (key, x) ∈ es ↔ y = some x) :
    view (es.foldl (mergeEntry merge d) s) key = merged merge (view s key) y.join := by
  induction es generalizing s y with
  | nil =>
    obtain rfl : y = none := Option.eq_none_iff_forall_ne_some.2 fun x hx => not_mem_nil ((hmem x).2 hx)
    rfl
  | cons e es ih =>
    obtain ⟨hI, hview⟩ := mergeEntry_spec h hs key e
    rw [map_cons, nodup_cons] at hnodup
    rw [foldl_cons]
    by_cases hkey : key = e.1
    · obtain rfl : y = some e.2 := (hmem e.2).1 (hkey ▸ mem_cons_self)
      rw [ih (y := none) hI hnodup.2 fun x => ?_, hview, if_pos hkey]
      · rfl
      · simpa using fun hx => hnodup.1 (hkey ▸ mem_map_of_mem hx)
    · rw [ih hI hnodup.2 fun x => ?_, hview, if_neg hkey]
      rw [← hmem x, mem_cons, or_iff_right fun heq => hkey (congrArg Prod.fst heq)]

/-- **When merging a map's entries unites the two**: what it has without a value is there already, and so is a value that is
left out of the entries, with nothing to merge. -/
theorem unites_foldl_iff {o : K → Option (Option V)} (text : K → Bool) (hs : I s)
    (hes : (es.map Prod.fst).Nodup ∧ ∀ key x, (key, x) ∈ es ↔ text key = true ∧ o key = some x) :
    Unites merge (view s) o (view (es.foldl (mergeEntry merge d) s)) ↔
      (∀ key, o key = some none → view s key ≠ none) ∧
        ∀ key v, o key = some (some v) → text key = false → ∃ x, view s key = some (some x) ∧ merge x v = x := by
  rw [← forall_and]
  refine forall_congr' fun key => ?_
  rw [foldl_mergeEntry h hs hes.1 (y := if text key = true then o key else none) fun x => by rw [hes.2]; grind]
  generalize view s key = x
  generalize o key = y
  cases text key <;> rcases y with _ | _ | v <;> rcases x with _ | _ | x <;> simp [merged, eq_comm]

end Merge

/-! ## `DynamicDawg` -/

structure DynamicDawg (U V : Type) where
  heap : Heap U V
  version : GraphVersion

namespace DynamicDawg
variable {U : Type} [LinearOrder U] (d : DynamicDawg U V)

def getValue (term : List U) : Option V := (d.heap.findNodeFrom d.version.root term).bind fun p => (d.heap.node p).value

def insertWithValue (term : List U) (value : V) : DynamicDawg U V :=
  match attempt d.heap d.version (.insertUnitsWithOptionalValue term (some value)) with
  | (.publish next _, h) => ⟨h, next⟩
  | (_, h) => ⟨h, d.version⟩

-- the units are bytes, and `utf8` says which terms are text
def unionWith (utf8 : List U → Bool) (other : DynamicDawg U V) : Nat × DynamicDawg U V :=
  let entries := (other.heap.collectVisibleEntriesFrom other.version.root).filter fun e => utf8 e.1
  (entries.length, entries.foldl (mergeEntry merge ⟨getValue, insertWithValue⟩) d)

def entry : List U → Option (Option V) := d.heap.entryAt d.version.root

def Valid : Prop := ∃ m, Represents d.heap d.version m

theorem holds : Holds ⟨getValue (U := U) (V := V), insertWithValue⟩ Valid entry where
  get := by
    rintro d term ⟨m, hr⟩
    rw [entry, Heap.entryAt]
    simp only [getValue]
    cases hp : d.heap.findNodeFrom d.version.root term with
    | none => rfl
    | some p =>
      have hclean := hr.wf.clean _ (Heap.node_mem (hr.wf.findNodeFrom_lt term hr.root_lt hp))
      cases hfinal : (d.heap.node p).isFinal <;> simp [Heap.entryOf, hfinal, hclean]
  insert := by
    rintro d term value ⟨m, hr⟩
    have hok := (attempt_spec hr (.insertUnitsWithOptionalValue term (some value))).2
    simp only [insertWithValue]
    generalize attempt d.heap d.version (.insertUnitsWithOptionalValue term (some value)) = out at hok ⊢
    obtain ⟨a, h⟩ := out
    cases hok with
    | unchanged hpub => cases hpub
    | publish next result hpub hnext =>
      refine ⟨⟨_, hnext⟩, funext fun key => ?_⟩
      rw [entry, hnext.entry_eq, update_apply, PlainMap.exec, entry, hr.entry_eq]
      split
      · rename_i hkey
        rw [hkey, Finmap.lookup_insert]
      · rename_i hkey
        exact Finmap.lookup_insert_of_ne _ hkey

end DynamicDawg

/-! ## `PersistentARTrieU64` -/

namespace PersistentARTrieU64

def insertSequenceWithValue (root : U64Node V) (sequence : List UInt64) (value : V) : U64Node V :=
  (buildInsertPath (some value) root sequence).elim root Prod.fst

def unionWith (root other : U64Node V) : Nat × U64Node V :=
  let entries := iterWithValues other
  ((entries.filter (·.2.isSome)).length, entries.foldl (mergeEntry merge ⟨getSequenceValue, insertSequenceWithValue⟩) root)

variable {n : U64Node V}

theorem found_cons (n : U64Node V) (label : UInt64) (rest : List UInt64) :
    found n (label :: rest) = found ((inMemChild n label).getD .new) rest := by
  rw [found, findLeafIterative, inMemChild]
  rcases n.findChild label with _ | c | ptr <;> cases rest <;> rfl

theorem buildInsertPath_spec (value : V) (h : Tidy n) (sequence : List UInt64) :
    ∃ out, buildInsertPath (some value) n sequence = some out ∧ Tidy out.1 ∧
      found out.1 = update (found n) sequence (some (some value)) := by
  induction sequence generalizing n with
  | nil =>
    obtain ⟨hsorted, hdisk, hchild⟩ := h
    refine ⟨(terminal n (some value), !n.isFinal), by simp [buildInsertPath], .mk hsorted hdisk hchild, funext fun key => ?_⟩
    cases key <;> rfl
  | cons label rest ih =>
    obtain ⟨out, hout, htidy, hfound⟩ := ih (n := (inMemChild n label).getD .new) (by
      rw [inMemChild]
      split
      · rename_i hc
        exact h.child hc
      · exact .new)
    rw [buildInsertPath_cons, hout]
    refine ⟨_, rfl, h.withChild htidy, funext fun key => ?_⟩
    cases key with
    | nil =>
      rw [update_of_ne (cons_ne_nil label rest).symm, found_nil, found_nil]
      rfl
    | cons l key =>
      rw [found_cons, update_apply, found_cons n]
      by_cases hl : label = l
      · simp [← hl, inMemChild_withChild, hfound, update_apply]
      · simp [inMemChild, findChild_withChild, hl, Ne.symm hl]

theorem getSequenceValue_eq (root : U64Node V) (sequence : List UInt64) :
    getSequenceValue root sequence = (found root sequence).join := by
  induction sequence generalizing root with
  | nil => cases h : root.isFinal <;> simp [getSequenceValue, findNode, found_nil, h]
  | cons label rest ih =>
    rw [found_cons, ← ih, getSequenceValue, findNode]
    cases inMemChild root label with
    | none => cases rest <;> rfl
    | some c => rfl

theorem holds : Holds ⟨getSequenceValue (V := V), insertSequenceWithValue⟩ Tidy found where
  get root sequence _ := getSequenceValue_eq root sequence
  insert root sequence value h := by
    obtain ⟨out, hout, hspec⟩ := buildInsertPath_spec value h sequence
    simp only [insertSequenceWithValue, hout]
    exact hspec

end PersistentARTrieU64

/-- **When the union is that of the two maps**: every term that the other dictionary has without a value is there already
and, for a `DynamicDawg`, a term of it that is no text and has a value is there with one that the merge does not change. -/
theorem unionWith_unites_iff :
    (∀ {U : Type} [LinearOrder U] (utf8 : List U → Bool) (d other : DynamicDawg U V), d.Valid → other.Valid →
      (Unites merge d.entry other.entry (d.unionWith merge utf8 other).2.entry ↔
        (∀ term, other.entry term = some none → d.entry term ≠ none) ∧
        ∀ term v, other.entry term = some (some v) → utf8 term = false → ∃ x, d.entry term = some (some x) ∧
          merge x v = x)) ∧
    ∀ root other : U64Node V, Tidy root → Tidy other →
      (Unites merge (found root) (found other) (found (PersistentARTrieU64.unionWith merge root other).2) ↔
        ∀ sequence, found other sequence = some none → found root sequence ≠ none) := by
  refine ⟨fun utf8 d other h ⟨m, hr⟩ => unites_foldl_iff DynamicDawg.holds utf8 h ⟨?_, fun term x => ?_⟩,
    fun root other h ho => ?_⟩
  · rw [nodup_iff_pairwise_ne, pairwise_map]
    exact ((Heap.sorted_collectVisibleEntriesFrom hr.wf hr.root_lt).filter _).imp fun hlt => hlt.ne
  · rw [mem_filter, Heap.mem_collectVisibleEntriesFrom hr.wf hr.root_lt, and_comm]
    rfl
  · obtain ⟨hnodup, hmem⟩ := iterWithValues_spec ho
    -- the trie leaves no entry out
    refine (unites_foldl_iff PersistentARTrieU64.holds (fun _ => true) h ⟨hnodup, fun key x => ?_⟩).trans (and_iff_left ?_)
    · rw [hmem, and_iff_right rfl]
    · simp

/-- A term that is no text, with a value above the other's. -/
theorem unionWith_unites_max : let new : DynamicDawg UInt8 Nat := ⟨[.new false], 0, 0, false, 0⟩
    let d := new.insertWithValue [0xFF] 5
    let other := new.insertWithValue [0xFF] 3
    Unites max d.entry other.entry (d.unionWith max (fun _ => false) other).2.entry ∧
      Unites max (found .new) (found (PersistentARTrieU64.insertSequenceWithValue .new [1] 3))
        (found (PersistentARTrieU64.unionWith max .new (PersistentARTrieU64.insertSequenceWithValue .new [1] 3)).2) := by
  intro new d other
  have hnew : new.Valid := ⟨_, represents_new⟩
  have hnone (term : List UInt8) : new.entry term = none := (represents_new.entry_eq term).trans (Finmap.lookup_empty _)
  obtain ⟨hd, hentry⟩ := DynamicDawg.holds.insert new [0xFF] 5 hnew
  obtain ⟨hother, hentry'⟩ := DynamicDawg.holds.insert new [0xFF] 3 hnew
  obtain ⟨htidy, hfound⟩ := PersistentARTrieU64.holds.insert .new [1] 3 Tidy.new
  have hunites := unionWith_unites_iff (max : Nat → Nat → Nat)
  refine ⟨(hunites.1 _ d other hd hother).2 ⟨fun term hterm => ?_, fun term v hterm _ => ?_⟩,
    (hunites.2 _ _ Tidy.new htidy).2 fun sequence hsequence => ?_⟩
  · rw [hentry', update_apply, hnone] at hterm
    split at hterm <;> cases hterm
  · rw [hentry', update_apply, hnone] at hterm
    split at hterm
    · rename_i hkey
      cases hterm
      exact ⟨5, by rw [hentry, hkey, update_self], rfl⟩
    · cases hterm
  · rw [hfound, update_apply] at hsequence
    split at hsequence
    · cases hsequence
    · exact hsequence ▸ Option.some_ne_none _

/-- A term without a value is not added. -/
theorem unionWith_leaves_out : let d : DynamicDawg UInt8 Nat := ⟨[.new false], 0, 0, false, 0⟩
    let other : DynamicDawg UInt8 Nat := ⟨[.new true], 0, 1, false, 0⟩
    (∀ utf8, other.entry [] = some none ∧ (d.unionWith (· + ·) utf8 other).2.entry [] = none) ∧
      found (new.asFinal : U64Node Nat) [] = some none ∧
      found (PersistentARTrieU64.unionWith (· + ·) .new (new.asFinal : U64Node Nat)).2 [] = none := by
  refine ⟨fun utf8 => ⟨rfl, ?_⟩, rfl, rfl⟩
  have hentries : Heap.collectVisibleEntriesFrom ([.new true] : Heap UInt8 Nat) 0 = [([], none)] := rfl
  rw [DynamicDawg.unionWith, hentries, filter_cons]
  cases utf8 [] <;> rfl

end Dictenstein.UnionWith
