import Mathlib.Data.Set.Card
import Dictenstein.OverlayIter
/-!
# VocabTrie — the overlay of a vocabulary

A vocabulary keeps its terms in an overlay trie whose values are the ids of the terms.
-/
namespace Dictenstein.Vocab

open Overlay Function List Option OverlayNode

abbrev VocabNode (U : Type) := OverlayNode U Nat

variable {U : Type}

inductive VocabPathInsertError (U : Type) where
  | alreadyExists (index : Nat)
  | finalNodeMissingValue (depth : Nat)
  | nullChild (depth : Nat) (unit : U)
  | unexpectedOnDiskChild (depth : Nat) (unit : U) (raw : UInt64)
deriving DecidableEq, Repr

section
variable [LinearOrder U]

def createLockfreePath (index : Nat) (chars : List U) : VocabNode U :=
  createSpine (new.asFinal.withValue index) chars

/-- A new root with the term inserted.  `depth` is the place in the term. -/
def tryInsertLockfreePath (index : Nat) : Nat → VocabNode U → List U → Except (VocabPathInsertError U) (VocabNode U)
  | depth, n, [] =>
    if n.isFinal then match n.value with
      | some existing => .error (.alreadyExists existing)
      | none => .error (.finalNodeMissingValue depth)
    else .ok (n.asFinal.withValue index)
  | depth, n, unit :: chars => match n.findChild unit with
    | some (.inMem child) =>
      (tryInsertLockfreePath index (depth + 1) child chars).map fun child => n.withChild unit (.inMem child)
    -- `FaultMode::NoFaultIn` resolves every on-disk child as null
    | some (.onDisk ptr) =>
      .error (if ptr.isNull then .nullChild depth unit else .unexpectedOnDiskChild depth unit ptr.state)
    | none => .ok (n.withChild unit (.inMem (createLockfreePath index chars)))

/-- The value at the end of the term, whether the node is final or not. -/
def findInLockfreeTrie : VocabNode U → List U → Option Nat
  | n, [] => n.value
  | n, unit :: chars => match n.findChild unit with
    | some (.inMem child) => findInLockfreeTrie child chars
    | _ => none

/-! ## Enumerating and building -/

mutual
def overlayTerms : VocabNode U → List (List U × Option Nat)
  | .mk isFinal value store => (if isFinal then [([], value)] else []) ++ storeTerms store
def storeTerms : List (U × Child U Nat) → List (List U × Option Nat)
  | [] => []
  | (unit, .inMem child) :: store => (overlayTerms child).map (fun e => (unit :: e.1, e.2)) ++ storeTerms store
  | (_, .onDisk _) :: store => storeTerms store
end

mutual
def overlayCountFinals : VocabNode U → Nat
  | .mk isFinal _ store => isFinal.toNat + storeCountFinals store
def storeCountFinals : List (U × Child U Nat) → Nat
  | [] => 0
  | (_, .inMem child) :: store => overlayCountFinals child + storeCountFinals store
  | (_, .onDisk _) :: store => storeCountFinals store
end

/-- `enumerate_overlay_terms_from_disk`: the terms of an image, the empty term apart. -/
def enumerateOverlayTerms (image : VocabNode U) : List (List U × Option Nat) × Option (Option Nat) :=
  ((overlayTerms image).filter (·.1 ≠ []), (overlayTerms image).lookup [])

/-- One term of `build_overlay_root_from_terms`, entered into the tree that is built. -/
def addTerm : VocabNode U → List U → Option Nat → VocabNode U
  | n, [], value => .mk true (value.or n.value) n.store
  | n, unit :: units, value =>
    let child := match n.findChild unit with
      | some (.inMem child) => child
      | _ => .new
    n.withChild unit (.inMem (addTerm child units value))

def buildOverlayRootFromTerms (terms : List (List U × Option Nat)) (emptyTerm : Option (Option Nat)) : VocabNode U :=
  let root : VocabNode U := match emptyTerm with
    | some value => .mk true value []
    | none => .new
  terms.foldl (fun root e => addTerm root e.1 e.2) root

end

/-! ## Vocabulary tries -/

variable [LinearOrder U]

/-- All nodes are in memory, their edges are sorted, and a node is final if it has a value. -/
inductive IsVocab : VocabNode U → Prop where
  | mk {isFinal : Bool} {value : Option Nat} {store : List (U × Child U Nat)} (hfinal : isFinal = value.isSome)
      (hsorted : SortedEdges.Sorted store) (hdisk : ∀ unit ptr, (unit, Child.onDisk ptr) ∉ store)
      (hchild : ∀ unit child, (unit, Child.inMem child) ∈ store → IsVocab child) : IsVocab (.mk isFinal value store)

namespace IsVocab

variable {n m : VocabNode U} {unit : U}

theorem isFinal_eq (h : IsVocab n) : n.isFinal = n.value.isSome := by
  cases h
  assumption

theorem tidy (h : IsVocab n) : Tidy n := by
  induction h with
  | mk _ hsorted hdisk _ ih => exact .mk hsorted hdisk ih

theorem child (h : IsVocab n) (hc : n.findChild unit = some (.inMem m)) : IsVocab m := by
  have hmem := h.tidy.mem_store.2 hc
  cases h with
  | mk _ _ _ hchild => exact hchild unit m hmem

theorem not_onDisk (h : IsVocab n) (ptr : SwizzledPtr) : n.findChild unit ≠ some (.onDisk ptr) := by
  intro hc
  rw [findChild, findEdge_eq_lookup] at hc
  have hmem := SortedEdges.mem_of_lookup hc
  cases h with
  | mk _ _ hdisk _ => exact hdisk unit ptr hmem

theorem new : IsVocab (.new : VocabNode U) := ⟨rfl, List.Pairwise.nil, nofun, nofun⟩

theorem withChild (h : IsVocab n) (hm : IsVocab m) (unit : U) : IsVocab (n.withChild unit (.inMem m)) := by
  obtain ⟨hsorted', hdisk', -⟩ := h.tidy.withChild (u := unit) hm.tidy
  cases h with
  | mk hfinal hsorted hdisk hchild =>
    refine ⟨hfinal, hsorted', hdisk', fun u c he => ?_⟩
    rw [withEdge_eq] at he
    obtain heq | he := SortedEdges.mem_withEdge he
    · cases heq
      exact hm
    · exact hchild u c he

theorem valued (h : IsVocab n) (index : Nat) : IsVocab (.mk true (some index) n.store) := by
  cases h with
  | mk hfinal hsorted hdisk hchild => exact ⟨rfl, hsorted, hdisk, hchild⟩

end IsVocab

/-! ## Looking up -/

section
variable {n child : VocabNode U} {unit : U}

theorem find_cons_of_child (hc : n.findChild unit = some (.inMem child)) (chars : List U) :
    findInLockfreeTrie n (unit :: chars) = findInLockfreeTrie child chars := by
  rw [findInLockfreeTrie, hc]

theorem find_cons_of_none (hc : n.findChild unit = none) (chars : List U) : findInLockfreeTrie n (unit :: chars) = none := by
  rw [findInLockfreeTrie, hc]

theorem find_new (chars : List U) : findInLockfreeTrie .new chars = none := by
  cases chars with
  | nil => rfl
  | cons unit chars => exact find_cons_of_none rfl chars

theorem find_withChild (n child : VocabNode U) (unit other : U) (chars : List U) :
    findInLockfreeTrie (n.withChild unit (.inMem child)) (other :: chars) =
      if other = unit then findInLockfreeTrie child chars else findInLockfreeTrie n (other :: chars) := by
  by_cases h : other = unit
  · subst h
    rw [if_pos rfl, find_cons_of_child (by rw [findChild_withChild, if_pos rfl])]
  · rw [if_neg h, findInLockfreeTrie, findInLockfreeTrie, findChild_withChild, if_neg (Ne.symm h)]

theorem find_withChild_update {term : List U} {index : Nat} {old new : VocabNode U}
    (hold : ∀ chars, findInLockfreeTrie n (unit :: chars) = findInLockfreeTrie old chars)
    (hnew : findInLockfreeTrie new = update (findInLockfreeTrie old) term (some index)) :
    findInLockfreeTrie (n.withChild unit (.inMem new)) = update (findInLockfreeTrie n) (unit :: term) (some index) := by
  funext chars
  cases chars with
  | nil => rfl
  | cons other chars =>
    rw [find_withChild]
    by_cases hu : other = unit
    · subst hu
      rw [if_pos rfl, hnew, update_apply, update_apply, hold]
      simp only [cons.injEq, true_and]
    · rw [if_neg hu, update_of_ne (fun h => hu (cons.inj h).1)]

theorem find_valued (n : VocabNode U) (index : Nat) :
    findInLockfreeTrie (.mk true (some index) n.store) = update (findInLockfreeTrie n) [] (some index) := by
  funext chars
  cases chars with
  | nil => rfl
  | cons unit chars => rw [update_of_ne (cons_ne_nil unit chars)]; rfl

theorem addTerm_spec (index : Nat) : ∀ (term : List U) (n : VocabNode U), IsVocab n → IsVocab (addTerm n term (some index)) ∧
      findInLockfreeTrie (addTerm n term (some index)) = update (findInLockfreeTrie n) term (some index)
  | [], n, hn => ⟨hn.valued index, find_valued n index⟩
  | unit :: units, n, hn => by
    rw [addTerm]
    cases hc : n.findChild unit with
    | none =>
      obtain ⟨hvocab, hfind⟩ := addTerm_spec index units .new IsVocab.new
      refine ⟨hn.withChild hvocab unit, find_withChild_update (fun other => ?_) hfind⟩
      rw [find_cons_of_none hc, find_new]
    | some c =>
      cases c with
      | onDisk ptr => exact absurd hc (hn.not_onDisk ptr)
      | inMem child =>
        obtain ⟨hvocab, hfind⟩ := addTerm_spec index units child (hn.child hc)
        exact ⟨hn.withChild hvocab unit, find_withChild_update (find_cons_of_child hc) hfind⟩

theorem addTerm_new (index : Nat) : ∀ chars : List U, addTerm .new chars (some index) = createLockfreePath index chars
  | [] => rfl
  | unit :: chars => by
    show withChild .new unit (.inMem (addTerm .new chars (some index))) = _
    rw [addTerm_new index chars]
    rfl

/-- **An insertion enters the term**, and is refused with the id of a term that is there. -/
theorem tryInsertLockfreePath_eq (index : Nat) : ∀ (term : List U) (depth : Nat) (n : VocabNode U), IsVocab n →
    tryInsertLockfreePath index depth n term = match findInLockfreeTrie n term with
      | some existing => .error (.alreadyExists existing)
      | none => .ok (addTerm n term (some index))
  | [], depth, n, hn => by
    rw [findInLockfreeTrie, tryInsertLockfreePath, hn.isFinal_eq]
    cases hv : n.value <;> rfl
  | unit :: chars, depth, n, hn => by
    rw [findInLockfreeTrie, tryInsertLockfreePath, addTerm]
    cases hc : n.findChild unit with
    | none => simp only [addTerm_new]
    | some c =>
      cases c with
      | onDisk ptr => exact absurd hc (hn.not_onDisk ptr)
      | inMem child =>
        simp only [tryInsertLockfreePath_eq index chars (depth + 1) child (hn.child hc)]
        cases findInLockfreeTrie child chars <;> rfl

theorem tryInsertLockfreePath_spec (index : Nat) (term : List U) (depth : Nat) (n : VocabNode U) (hn : IsVocab n) :
    match findInLockfreeTrie n term with
    | some existing => tryInsertLockfreePath index depth n term = .error (.alreadyExists existing)
    | none => ∃ n', tryInsertLockfreePath index depth n term = .ok n' ∧ IsVocab n' ∧
        findInLockfreeTrie n' = update (findInLockfreeTrie n) term (some index) := by
  rw [tryInsertLockfreePath_eq index term depth n hn]
  cases findInLockfreeTrie n term with
  | some existing => rfl
  | none => exact ⟨_, rfl, addTerm_spec index term n hn⟩

end

/-! ## The terms of a trie -/

omit [LinearOrder U] in
mutual
theorem overlayTerms_eq : ∀ n : VocabNode U, overlayTerms n = iterWithValues n
  | .mk _ _ store => by rw [overlayTerms, iterWithValues, storeTerms_eq store]
theorem storeTerms_eq : ∀ store : List (U × Child U Nat), storeTerms store = iterStore store
  | [] => rfl
  | (_, .inMem child) :: store => by rw [storeTerms, iterStore, overlayTerms_eq child, storeTerms_eq store]
  | (_, .onDisk _) :: store => by rw [storeTerms, iterStore, storeTerms_eq store]
end

variable {n : VocabNode U}

theorem found_eq (hn : IsVocab n) (term : List U) : found n term = (findInLockfreeTrie n term).map some := by
  induction term generalizing n with
  | nil =>
    rw [found_nil, hn.isFinal_eq, findInLockfreeTrie]
    cases n.value <;> rfl
  | cons unit rest ih =>
    rw [found, findLeafIterative, findInLockfreeTrie]
    rcases hc : n.findChild unit with _ | child | ptr
    · rfl
    · exact ih (hn.child hc)
    · rfl

theorem mem_overlayTerms (hn : IsVocab n) (term : List U) (value : Option Nat) :
    (term, value) ∈ overlayTerms n ↔ value.isSome ∧ findInLockfreeTrie n term = value := by
  rw [overlayTerms_eq, (iterWithValues_spec hn.tidy).2, found_eq hn]
  cases findInLockfreeTrie n term <;> cases value <;> simp

theorem nodup_overlayTerms (hn : IsVocab n) : ((overlayTerms n).map Prod.fst).Nodup := by
  rw [overlayTerms_eq]
  exact (iterWithValues_spec hn.tidy).1

theorem lookup_overlayTerms (hn : IsVocab n) (term : List U) :
    (overlayTerms n).lookup term = (findInLockfreeTrie n term).map some := by
  rw [← found_eq hn]
  cases hlookup : (overlayTerms n).lookup term with
  | none =>
    refine (eq_none_iff_forall_ne_some.2 fun value hvalue => ?_).symm
    rw [← (iterWithValues_spec hn.tidy).2, ← overlayTerms_eq] at hvalue
    simpa using lookup_eq_none_iff.1 hlookup _ hvalue
  | some value =>
    obtain ⟨l₁, l₂, hl, -⟩ := lookup_eq_some_iff.1 hlookup
    rw [eq_comm, ← (iterWithValues_spec hn.tidy).2, ← overlayTerms_eq, hl]
    exact mem_append_right _ (.head _)

omit [LinearOrder U] in
mutual
theorem length_overlayTerms : ∀ n : VocabNode U, (overlayTerms n).length = overlayCountFinals n
  | .mk isFinal value store => by
    rw [overlayTerms, overlayCountFinals, length_append, length_storeTerms store]
    cases isFinal <;> rfl
theorem length_storeTerms : ∀ store : List (U × Child U Nat), (storeTerms store).length = storeCountFinals store
  | [] => rfl
  | (unit, .inMem child) :: store => by
    rw [storeTerms, storeCountFinals, length_append, length_map, length_overlayTerms child, length_storeTerms store]
  | (unit, .onDisk ptr) :: store => by rw [storeTerms, storeCountFinals, length_storeTerms store]
end

theorem ncard_terms (hn : IsVocab n) : {term | (findInLockfreeTrie n term).isSome}.Finite ∧
      {term | (findInLockfreeTrie n term).isSome}.ncard = overlayCountFinals n := by
  have hset : {term | (findInLockfreeTrie n term).isSome} = (((overlayTerms n).map Prod.fst).toFinset : Set (List U)) := by
    ext term
    rw [Set.mem_ofPred_eq, Finset.mem_coe, List.mem_toFinset, List.mem_map]
    constructor
    · intro h
      exact ⟨(term, findInLockfreeTrie n term), (mem_overlayTerms hn term _).2 ⟨h, rfl⟩, rfl⟩
    · rintro ⟨⟨term', value⟩, hmem, rfl⟩
      obtain ⟨hsome, hterm⟩ := (mem_overlayTerms hn term' value).1 hmem
      rwa [hterm]
  rw [hset, Set.ncard_coe_finset, toFinset_card_of_nodup (nodup_overlayTerms hn), length_map, length_overlayTerms]
  exact ⟨Finset.finite_toSet _, rfl⟩

theorem overlayCountFinals_update {n' : VocabNode U} {term : List U} {index : Nat} (hn : IsVocab n) (hn' : IsVocab n')
    (hnone : findInLockfreeTrie n term = none)
    (hfind : findInLockfreeTrie n' = update (findInLockfreeTrie n) term (some index)) :
    overlayCountFinals n' = overlayCountFinals n + 1 := by
  -- the terms are those there were and the new one
  have hset : {t | (findInLockfreeTrie n' t).isSome} = insert term {t | (findInLockfreeTrie n t).isSome} := by
    ext t
    rw [Set.mem_insert_iff, Set.mem_ofPred_eq, Set.mem_ofPred_eq, hfind, update_apply]
    by_cases ht : t = term <;> simp [ht]
  rw [← (ncard_terms hn').2, ← (ncard_terms hn).2, hset, Set.ncard_insert_of_notMem (by simp [hnone]) (ncard_terms hn).1]

/-! ## Building a trie from its terms -/

theorem foldl_addTerm_spec : ∀ (terms : List (List U × Option Nat)) (n : VocabNode U), IsVocab n →
    (terms.map Prod.fst).Nodup → (∀ e ∈ terms, e.2.isSome) →
    IsVocab (terms.foldl (fun root e => addTerm root e.1 e.2) n) ∧ ∀ term, (∀ value, (term, value) ∈ terms →
          findInLockfreeTrie (terms.foldl (fun root e => addTerm root e.1 e.2) n) term = value) ∧
        (term ∉ terms.map Prod.fst →
          findInLockfreeTrie (terms.foldl (fun root e => addTerm root e.1 e.2) n) term = findInLockfreeTrie n term)
  | [], n, hn, _, _ => ⟨hn, fun _ => ⟨nofun, fun _ => rfl⟩⟩
  | (units, none) :: terms, n, hn, hnodup, hsome => absurd (hsome _ mem_cons_self) (by simp)
  | (units, some index) :: terms, n, hn, hnodup, hsome => by
    rw [map_cons, nodup_cons] at hnodup
    obtain ⟨hvocab, hfind⟩ := addTerm_spec index units n hn
    obtain ⟨hv, hf⟩ := foldl_addTerm_spec terms _ hvocab hnodup.2 fun e he => hsome e (.tail _ he)
    refine ⟨hv, fun term => ⟨fun value hmem => ?_, fun hterm => ?_⟩⟩
    · rw [foldl_cons]
      obtain heq | hmem := mem_cons.1 hmem
      · cases heq
        rw [(hf units).2 hnodup.1, hfind, update_self]
      · exact (hf term).1 value hmem
    · rw [map_cons, mem_cons, not_or] at hterm
      rw [foldl_cons, (hf term).2 hterm.2, hfind, update_of_ne hterm.1]

def reestablishRoot (image : VocabNode U) : VocabNode U :=
  buildOverlayRootFromTerms (enumerateOverlayTerms image).1 (enumerateOverlayTerms image).2

theorem reestablish_spec {image : VocabNode U} (hn : IsVocab image) :
    IsVocab (reestablishRoot image) ∧ findInLockfreeTrie (reestablishRoot image) = findInLockfreeTrie image := by
  have hnodup := nodup_overlayTerms hn
  have hmem : ∀ e, e ∈ (overlayTerms image).filter (·.1 ≠ []) ↔ e ∈ overlayTerms image ∧ e.1 ≠ [] := fun e => by
    rw [mem_filter, decide_eq_true_iff]
  -- the empty term is the root of what is built
  have hroot : ∃ root : VocabNode U, IsVocab root ∧ findInLockfreeTrie root [] = findInLockfreeTrie image [] ∧
      (∀ term, term ≠ [] → findInLockfreeTrie root term = none) ∧
      reestablishRoot image = ((overlayTerms image).filter (·.1 ≠ [])).foldl (fun root e => addTerm root e.1 e.2) root := by
    simp only [reestablishRoot, buildOverlayRootFromTerms, enumerateOverlayTerms]
    rw [lookup_overlayTerms hn]
    cases findInLockfreeTrie image [] with
    | none => exact ⟨.new, IsVocab.new, find_new [], fun term _ => find_new term, rfl⟩
    | some index =>
      refine ⟨_, IsVocab.new.valued index, rfl, fun term hterm => ?_, rfl⟩
      rw [find_valued, update_of_ne hterm, find_new]
  obtain ⟨root, hvocab, hempty, hrest, heq⟩ := hroot
  have hsub : ((overlayTerms image).filter (·.1 ≠ [])).map Prod.fst |>.Nodup := hnodup.sublist (filter_sublist.map _)
  obtain ⟨hv, hf⟩ := foldl_addTerm_spec _ root hvocab hsub fun e he =>
    ((mem_overlayTerms hn e.1 e.2).1 ((hmem e).1 he).1).1
  rw [← heq] at hv hf
  refine ⟨hv, funext fun term => ?_⟩
  by_cases hterm : term ∈ ((overlayTerms image).filter (·.1 ≠ [])).map Prod.fst
  · obtain ⟨⟨term', value⟩, he, rfl⟩ := mem_map.1 hterm
    rw [(hf term').1 value he, ((mem_overlayTerms hn term' value).1 ((hmem _).1 he).1).2]
  · rw [(hf term).2 hterm]
    by_cases hnil : term = []
    · rw [hnil, hempty]
    · rw [hrest term hnil]
      by_contra hne
      have hsome : (findInLockfreeTrie image term).isSome := isSome_iff_ne_none.2 (Ne.symm hne)
      exact hterm (mem_map.2 ⟨_, (hmem _).2 ⟨(mem_overlayTerms hn term _).2 ⟨hsome, rfl⟩, hnil⟩, rfl⟩)

end Dictenstein.Vocab
