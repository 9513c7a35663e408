import Mathlib.Data.List.Nodup
import Mathlib.Order.Lattice
/-!
# SortedEdges — association lists sorted by key, searched linearly or by bisection

A node's edges are kept sorted by label.  Small nodes are searched from the front and large ones by binary search, and an
edge is added at the place the binary search ends at.  On a sorted list both searches are `List.lookup` (`find_eq_lookup`),
and adding an edge keeps the list sorted and changes the lookup of its label only.
-/
namespace SortedEdges

open List

variable {U C : Type} [LinearOrder U]

def Sorted (es : List (U × C)) : Prop := es.Pairwise (fun a b => a.1 < b.1)

/-- Binary search in a sorted list: the position of the key, or where it would have to be inserted. -/
def binarySearchByKey (label : U) (es : List (U × C)) : Except Nat Nat :=
  let pos := (es.takeWhile (·.1 < label)).length
  match es[pos]? with
  | some (edge, _) => if edge = label then .ok pos else .error pos
  | none => .error pos

/-- Linear search in lists shorter than `limit`, binary search in longer ones. -/
def find (limit : Nat) (label : U) (es : List (U × C)) : Option C :=
  if es.length < limit then (es.find? (·.1 = label)).map Prod.snd
  else match binarySearchByKey label es with
    | .ok pos => es[pos]?.map Prod.snd
    | .error _ => none

/-- The edge is replaced, or inserted where the binary search ends. -/
def withEdge (label : U) (target : C) (es : List (U × C)) : List (U × C) :=
  match binarySearchByKey label es with
  | .ok pos => es.set pos (label, target)
  | .error pos => es.insertIdx pos (label, target)

def withoutEdge (label : U) (es : List (U × C)) : Option (List (U × C)) :=
  match binarySearchByKey label es with
  | .ok pos => some (es.eraseIdx pos)
  | .error _ => none

/-- The first edge with the label gets another target; nothing is done if there is none. -/
def updateEdge (label : U) (target : C) : List (U × C) → List (U × C)
  | [] => []
  | (edge, old) :: es => if edge = label then (edge, target) :: es else (edge, old) :: updateEdge label target es

/-! ## The searches -/

section
variable {label edge : U} {c : C} {es : List (U × C)}

theorem binarySearchByKey_cons_of_lt (h : edge < label) :
    binarySearchByKey label ((edge, c) :: es) = match binarySearchByKey label es with
      | .ok pos => .ok (pos + 1)
      | .error pos => .error (pos + 1) := by
  simp only [binarySearchByKey, takeWhile_cons, h, decide_true, if_true, length_cons, getElem?_cons_succ]
  split
  · split <;> simp_all
  · simp_all

theorem binarySearchByKey_cons_of_not_lt (h : ¬ edge < label) :
    binarySearchByKey label ((edge, c) :: es) = if edge = label then .ok 0 else .error 0 := by
  simp [binarySearchByKey, h]

theorem lookup_cons (other edge : U) (c : C) (es : List (U × C)) :
    ((edge, c) :: es).lookup other = if other = edge then some c else es.lookup other := by
  rw [List.lookup_cons]
  by_cases h : other = edge
  · simp [h]
  · rw [if_neg h, beq_false_of_ne h]

theorem lookup_eq_none_of_forall_lt (h : ∀ e ∈ es, label < e.1) : es.lookup label = none := by
  rw [lookup_eq_none_iff]
  intro e he
  simpa using (h e he).ne

theorem find?_eq_lookup (label : U) : ∀ es : List (U × C), (es.find? (·.1 = label)).map Prod.snd = es.lookup label
  | [] => rfl
  | (edge, c) :: es => by
    rw [lookup_cons, ← find?_eq_lookup label es, find?_cons]
    by_cases h : edge = label
    · simp [h]
    · simp [h, Ne.symm h]

theorem binarySearch_eq_lookup (label : U) : ∀ {es : List (U × C)}, Sorted es → (match binarySearchByKey label es with
      | .ok pos => es[pos]?.map Prod.snd
      | .error _ => none) = es.lookup label
  | [], _ => rfl
  | (edge, c) :: es, hs => by
    obtain ⟨hedge, hs⟩ := pairwise_cons.1 hs
    rw [lookup_cons]
    by_cases hlt : edge < label
    · rw [binarySearchByKey_cons_of_lt hlt, if_neg hlt.ne', ← binarySearch_eq_lookup label hs]
      cases binarySearchByKey label es <;> rfl
    · rw [binarySearchByKey_cons_of_not_lt hlt]
      by_cases heq : edge = label
      · simp [heq]
      · -- the label would stand before all edges
        have hall : ∀ e ∈ es, label < e.1 := fun e he =>
          lt_trans (lt_of_le_of_ne (not_lt.1 hlt) (Ne.symm heq)) (hedge e he)
        rw [if_neg heq, if_neg (Ne.symm heq)]
        exact (lookup_eq_none_of_forall_lt hall).symm

/-- **On a sorted list both searches are the lookup of the label.** -/
theorem find_eq_lookup (limit : Nat) (label : U) (hs : Sorted es) : find limit label es = es.lookup label := by
  unfold find
  split
  · exact find?_eq_lookup label es
  · exact binarySearch_eq_lookup label hs

theorem lookup_of_mem {es : List (U × C)} (hs : Sorted es) {label : U} {c : C} (hmem : (label, c) ∈ es) :
    es.lookup label = some c := by
  obtain ⟨l₁, l₂, rfl⟩ := append_of_mem hmem
  have hne : ∀ p ∈ l₁, p.1 < label := fun p hp => (pairwise_append.1 hs).2.2 p hp _ mem_cons_self
  exact lookup_eq_some_iff.2 ⟨l₁, l₂, rfl, fun p hp => bne_iff_ne.2 (hne p hp).ne'⟩

theorem mem_of_lookup {es : List (U × C)} {label : U} {c : C} (h : es.lookup label = some c) : (label, c) ∈ es := by
  obtain ⟨l₁, l₂, rfl, -⟩ := lookup_eq_some_iff.1 h
  exact mem_append_right _ mem_cons_self

/-! ## Adding and changing an edge -/

theorem withEdge_nil (label : U) (c : C) : withEdge label c [] = [(label, c)] := rfl

theorem withEdge_cons (label : U) (c : C) (edge : U) (old : C) (es : List (U × C)) : withEdge label c ((edge, old) :: es) =
      if edge < label then (edge, old) :: withEdge label c es
      else if edge = label then (label, c) :: es else (label, c) :: (edge, old) :: es := by
  unfold withEdge
  by_cases hlt : edge < label
  · rw [binarySearchByKey_cons_of_lt hlt, if_pos hlt]
    cases binarySearchByKey label es <;> simp
  · rw [binarySearchByKey_cons_of_not_lt hlt, if_neg hlt]
    by_cases heq : edge = label <;> simp [heq]

variable {es : List (U × C)} {label : U} {c : C}

theorem withEdge_of_lookup_none (h : es.lookup label = none) (c : C) :
    ∃ pos, binarySearchByKey label es = .error pos ∧ es.insertIdx pos (label, c) = withEdge label c es := by
  unfold withEdge
  cases hs : binarySearchByKey label es with
  | error pos => exact ⟨pos, rfl, rfl⟩
  | ok pos =>
    -- the edge that was found has the label
    simp only [binarySearchByKey] at hs
    split at hs
    · rename_i edge c' hget
      split at hs
      · rename_i heq
        rw [heq] at hget
        have hne := lookup_eq_none_iff.1 h _ (mem_of_getElem? hget)
        simp at hne
      · cases hs
    · cases hs

theorem mem_withEdge : ∀ {es : List (U × C)} {e : U × C}, e ∈ withEdge label c es → e = (label, c) ∨ e ∈ es
  | [], e, h => by
    rw [withEdge_nil, mem_singleton] at h
    exact Or.inl h
  | (edge, old) :: es, e, h => by
    rw [withEdge_cons] at h
    split at h
    · rcases mem_cons.1 h with rfl | h
      · exact Or.inr mem_cons_self
      · exact (mem_withEdge h).imp_right (mem_cons_of_mem _)
    · split at h
      · exact (mem_cons.1 h).imp_right (mem_cons_of_mem _)
      · exact mem_cons.1 h

theorem sorted_withEdge (label : U) (c : C) : ∀ {es : List (U × C)}, Sorted es → Sorted (withEdge label c es)
  | [], _ => pairwise_singleton _ _
  | (edge, old) :: es, hs => by
    obtain ⟨hedge, hes⟩ := pairwise_cons.1 hs
    rw [withEdge_cons]
    split
    · rename_i hlt
      refine pairwise_cons.2 ⟨fun e he => ?_, sorted_withEdge label c hes⟩
      rcases mem_withEdge he with rfl | he
      · exact hlt
      · exact hedge e he
    · rename_i hlt
      split
      · rename_i heq
        subst heq
        exact pairwise_cons.2 ⟨hedge, hes⟩
      · rename_i hne
        have hgt : label < edge := lt_of_le_of_ne (not_lt.1 hlt) (Ne.symm hne)
        refine pairwise_cons.2 ⟨fun e he => ?_, hs⟩
        obtain rfl | he := mem_cons.1 he
        · exact hgt
        · exact lt_trans hgt (hedge e he)

theorem lookup_withEdge (label other : U) (c : C) : ∀ es : List (U × C),
    (withEdge label c es).lookup other = if other = label then some c else es.lookup other
  | [] => by rw [withEdge_nil, lookup_cons]
  | (edge, old) :: es => by
    rw [withEdge_cons]
    split
    · rename_i hlt
      rw [lookup_cons, lookup_cons, lookup_withEdge label other c es]
      by_cases h : other = edge
      · simp [h, hlt.ne]
      · rw [if_neg h, if_neg h]
    · split
      · rename_i heq
        rw [lookup_cons, lookup_cons, heq]
        by_cases h : other = label <;> simp [h]
      · rw [lookup_cons]

section
variable (hs : Sorted es)
include hs

theorem mem_iff_lookup : (label, c) ∈ es ↔ es.lookup label = some c :=
  ⟨lookup_of_mem hs, mem_of_lookup⟩

theorem mem_withEdge_iff {other : U} {x : C} :
    (other, x) ∈ withEdge label c es ↔ (other = label ∧ x = c) ∨ (other ≠ label ∧ (other, x) ∈ es) := by
  rw [mem_iff_lookup (sorted_withEdge label c hs), mem_iff_lookup hs, lookup_withEdge]
  by_cases h : other = label
  · simp [h, eq_comm]
  · simp [h]

theorem nodup_of_sorted : (es.map Prod.fst).Nodup := by
  unfold Sorted at hs
  rw [← pairwise_map (f := Prod.fst) (R := (· < ·))] at hs
  exact hs.imp fun h => ne_of_lt h

theorem le_of_head? {first e : U × C} (h : es.head? = some first) (he : e ∈ es) : first.1 ≤ e.1 := by
  cases es with
  | nil => cases h
  | cons first' es =>
    cases h
    obtain rfl | he := mem_cons.1 he
    · exact le_refl _
    · exact le_of_lt ((pairwise_cons.1 hs).1 e he)

theorem le_of_getLast? {last e : U × C} (h : es.getLast? = some last) (he : e ∈ es) : e.1 ≤ last.1 := by
  obtain ⟨init, rfl⟩ := getLast?_eq_some_iff.1 h
  obtain he | he := mem_append.1 he
  · exact le_of_lt ((pairwise_append.1 hs).2.2 e he last (mem_singleton_self last))
  · rw [mem_singleton.1 he]

end

theorem map_fst_updateEdge (label : U) (c : C) : ∀ es : List (U × C), (updateEdge label c es).map Prod.fst = es.map Prod.fst
  | [] => rfl
  | (edge, old) :: es => by
    unfold updateEdge
    split
    · rfl
    · rw [map_cons, map_cons, map_fst_updateEdge label c es]

theorem sorted_updateEdge (label : U) (c : C) (hs : Sorted es) : Sorted (updateEdge label c es) := by
  unfold Sorted at *
  rw [← pairwise_map (f := Prod.fst) (R := (· < ·))] at hs ⊢
  rwa [map_fst_updateEdge]

theorem lookup_updateEdge (label other : U) (c : C) : ∀ es : List (U × C), (updateEdge label c es).lookup other =
      if other = label then (es.lookup other).map (fun _ => c) else es.lookup other
  | [] => by simp [updateEdge]
  | (edge, old) :: es => by
    unfold updateEdge
    split
    · rename_i heq
      rw [lookup_cons, lookup_cons, heq]
      by_cases h : other = label <;> simp [h]
    · rename_i hne
      rw [lookup_cons, lookup_cons, lookup_updateEdge label other c es]
      by_cases h : other = edge
      · simp [h, hne]
      · rw [if_neg h, if_neg h]

end

/-! ## Renaming the targets -/

variable {es : List (U × C)} {C' T : Type}

theorem sorted_map_snd (f : C → C') (hs : Sorted es) : Sorted (es.map fun e => (e.1, f e.2)) := pairwise_map.2 hs

theorem lookup_map_snd (f : C → C') (label : U) : ∀ es : List (U × C),
    (es.map fun e => (e.1, f e.2)).lookup label = (es.lookup label).map f
  | [] => rfl
  | (edge, c) :: es => by
    rw [map_cons, lookup_cons, lookup_cons, lookup_map_snd f label es]
    split <;> rfl

/-! ## Taking an edge out -/

theorem withoutEdge_cons (label edge : U) (old : C) (es : List (U × C)) : withoutEdge label ((edge, old) :: es) =
      if edge < label then (withoutEdge label es).map ((edge, old) :: ·) else if edge = label then some es else none := by
  unfold withoutEdge
  by_cases hlt : edge < label
  · rw [binarySearchByKey_cons_of_lt hlt, if_pos hlt]
    cases binarySearchByKey label es <;> rfl
  · rw [binarySearchByKey_cons_of_not_lt hlt, if_neg hlt]
    by_cases heq : edge = label <;> simp [heq]

/-- **Taking an edge out**: there is one to take out if the label is found, and then it alone goes. -/
theorem withoutEdge_spec (label : U) : ∀ {es : List (U × C)}, Sorted es → match withoutEdge label es with
    | none => es.lookup label = none
    | some es' => (es.lookup label).isSome = true ∧ es'.Sublist es ∧
        ∀ other, es'.lookup other = if other = label then none else es.lookup other
  | [], _ => rfl
  | (edge, old) :: es, hs => by
    obtain ⟨hedge, hes⟩ := pairwise_cons.1 hs
    rw [withoutEdge_cons]
    by_cases hlt : edge < label
    · have ih := withoutEdge_spec label hes
      rw [if_pos hlt, lookup_cons, if_neg hlt.ne']
      cases hrest : withoutEdge label es with rw [hrest] at ih
      | none =>
        exact ih
      | some es' =>
        refine ⟨ih.1, ih.2.1.cons_cons _, fun other => ?_⟩
        rw [lookup_cons, lookup_cons, ih.2.2 other]
        by_cases hother : other = edge
        · simp [hother, hlt.ne]
        · rw [if_neg hother, if_neg hother]
    · have hall : ∀ e ∈ es, label < e.1 := fun e he => lt_of_le_of_lt (not_lt.1 hlt) (hedge e he)
      rw [if_neg hlt, lookup_cons]
      by_cases heq : edge = label
      · subst heq
        rw [if_pos rfl, if_pos rfl]
        refine ⟨rfl, sublist_cons_self _ _, fun other => ?_⟩
        rw [lookup_cons]
        by_cases hother : other = edge
        · rw [if_pos hother, hother]
          exact lookup_eq_none_of_forall_lt hall
        · rw [if_neg hother, if_neg hother]
      · rw [if_neg heq, if_neg (Ne.symm heq)]
        exact lookup_eq_none_of_forall_lt hall

theorem eq_of_lookup {es' : List (U × C)} (hs : Sorted es) (hs' : Sorted es')
    (h : ∀ label, es.lookup label = es'.lookup label) :
    es = es' := by
  have hnodup : ∀ {l : List (U × C)}, Sorted l → l.Nodup := fun hl => List.Nodup.of_map _ (nodup_of_sorted hl)
  have hperm : es.Perm es' := by
    refine (perm_ext_iff_of_nodup (hnodup hs) (hnodup hs')).2 fun e => ?_
    obtain ⟨label, c⟩ := e
    rw [mem_iff_lookup hs, mem_iff_lookup hs', h label]
  exact hperm.eq_of_pairwise (fun a b _ _ hab hba => absurd hab hba.asymm) hs hs'

/-! ## Positions -/

/-- A table of positions, filled from the position `n` on in the order of the list. -/
def indexFrom (put : T → U → Nat → T) : Nat → List (U × C) → T → T
  | _, [], t => t
  | n, e :: es, t => indexFrom put (n + 1) es (put t e.1 n)

def position (label : U) (es : List (U × C)) : Option Nat := es.findIdx? (·.1 = label)

theorem position_cons (label : U) (e : U × C) (es : List (U × C)) :
    position label (e :: es) = if e.1 = label then some 0 else (position label es).map (· + 1) := by
  rw [position, findIdx?_cons]
  by_cases h : e.1 = label <;> simp [h, position]

theorem position_bind (label : U) :
    ∀ es : List (U × C), ((position label es).bind fun i => es[i]?.map Prod.snd) = es.lookup label
  | [] => rfl
  | (edge, c) :: es => by
    rw [position_cons, lookup_cons]
    by_cases h : edge = label
    · simp [h]
    · rw [if_neg h, if_neg (Ne.symm h), ← position_bind label es]
      cases position label es <;> rfl

theorem position_eq_none {label : U} (h : ∀ e ∈ es, label ≠ e.1) : position label es = none := by
  rw [position, findIdx?_eq_none_iff]
  exact fun e he => decide_eq_false (Ne.symm (h e he))

/-- **A table of positions is read back as the position of the label**, for at most `bound` positions that the table can
tell apart. -/
theorem get_indexFrom {put : T → U → Nat → T} {get : T → U → Option Nat} {bound : Nat}
    (hput : ∀ t label other n, n < bound → get (put t label n) other = if other = label then some n else get t other)
    (label : U) :
    ∀ (n : Nat) {es : List (U × C)} (t : T), Sorted es → n + es.length ≤ bound →
      get (indexFrom put n es t) label = ((position label es).map (n + ·)).or (get t label)
  | _, [], t, _, _ => by rw [indexFrom]; rfl
  | n, e :: es, t, hs, hlen => by
    obtain ⟨hedge, hes⟩ := pairwise_cons.1 hs
    rw [length_cons] at hlen
    rw [indexFrom, get_indexFrom hput label (n + 1) _ hes (by omega), hput _ _ _ _ (by omega), position_cons]
    by_cases h : label = e.1
    · -- the labels behind are greater
      rw [if_pos h, if_pos h.symm, position_eq_none fun e' he' => h ▸ (hedge e' he').ne]
      rfl
    · rw [if_neg h, if_neg (Ne.symm h)]
      cases position label es with
      | none => rfl
      | some i => simp; omega

omit [LinearOrder U] in
theorem indexFrom_congr (put : T → U → Nat → T) : ∀ (n : Nat) (es : List (U × C)) (es' : List (U × C')) (t : T),
    es.map Prod.fst = es'.map Prod.fst → indexFrom put n es t = indexFrom put n es' t
  | _, [], [], _, _ => rfl
  | n, e :: es, e' :: es', t, h => by
    obtain ⟨hhead, htail⟩ := cons.inj h
    rw [indexFrom, indexFrom, hhead]
    exact indexFrom_congr put (n + 1) es es' _ htail

/-! ## Adding several edges -/

theorem sorted_iff_map : Sorted es ↔ (es.map Prod.fst).Pairwise (· < ·) := pairwise_map.symm

theorem foldl_withEdge_sorted : ∀ (rs : List (U × C)) {es : List (U × C)}, Sorted es →
    Sorted (rs.foldl (fun es e => withEdge e.1 e.2 es) es)
  | [], _, hs => hs
  | r :: rs, _, hs => foldl_withEdge_sorted rs (sorted_withEdge r.1 r.2 hs)

theorem lookup_foldl_withEdge (label : U) : ∀ {rs : List (U × C)} (es : List (U × C)), Sorted rs →
    (rs.foldl (fun es e => withEdge e.1 e.2 es) es).lookup label = (rs.lookup label).or (es.lookup label)
  | [], _, _ => rfl
  | (edge, c) :: rs, es, hs => by
    obtain ⟨hedge, hrs⟩ := pairwise_cons.1 hs
    rw [foldl_cons, lookup_foldl_withEdge label _ hrs, lookup_withEdge, lookup_cons]
    by_cases h : label = edge
    · rw [if_pos h, if_pos h, lookup_eq_none_of_forall_lt fun e he => h ▸ hedge e he]
      rfl
    · rw [if_neg h, if_neg h]

end SortedEdges
