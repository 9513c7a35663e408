import Dictenstein.OverlayNode
/-! # OverlayIter — the keys of a trie in memory

The iterators go depth first.  If every child is in memory and the edges are sorted, they yield each key once, with what a
walk finds at it (`iterWithValues_spec`). -/

namespace Dictenstein.Overlay

open OverlayNode List Option Function

variable {U V : Type}

mutual
def iterWithValues : OverlayNode U V → List (List U × Option V)
  | .mk isFinal value store => (if isFinal then [([], value)] else []) ++ iterStore store
def iterStore : List (U × Child U V) → List (List U × Option V)
  | [] => []
  | (unit, .inMem child) :: store => (iterWithValues child).map (fun e => (unit :: e.1, e.2)) ++ iterStore store
  | (_, .onDisk _) :: store => iterStore store
end

def iterEdge (e : U × Child U V) : List (List U × Option V) := match e.2 with
  | .inMem c => (iterWithValues c).map fun s => (e.1 :: s.1, s.2)
  | .onDisk _ => []

theorem iterStore_eq (store : List (U × Child U V)) : iterStore store = store.flatMap iterEdge := by
  induction store with
  | nil => rfl
  | cons e store ih => obtain ⟨u, c | ptr⟩ := e <;> simp [iterStore, iterEdge, ih]

theorem mem_iterEdge {e : U × Child U V} {key : List U} {x : Option V} :
    (key, x) ∈ iterEdge e ↔ ∃ c rest, e.2 = .inMem c ∧ key = e.1 :: rest ∧ (rest, x) ∈ iterWithValues c := by
  obtain ⟨u, c | ptr⟩ := e
  · simp [iterEdge, eq_comm, and_comm]
  · simp [iterEdge]

variable [LinearOrder U]

theorem withEdge_eq {C : Type} (label : U) (c : C) :
    ∀ es : List (U × C), withEdge label c es = SortedEdges.withEdge label c es
  | [] => rfl
  | (edge, old) :: es => by
    rw [SortedEdges.withEdge_cons, withEdge, withEdge_eq label c es]
    rcases lt_trichotomy edge label with h | h | h
    · rw [if_pos h, if_neg h.ne, if_neg h.not_gt]
    · subst h
      rw [if_pos rfl, if_neg (lt_irrefl _), if_pos rfl]
    · rw [if_neg h.not_gt, if_neg h.ne', if_pos h, if_neg h.ne']

/-- All nodes are in memory, and their edges are sorted. -/
inductive Tidy : OverlayNode U V → Prop where
  | mk {n} (hsorted : SortedEdges.Sorted n.store) (hdisk : ∀ u ptr, (u, Child.onDisk ptr) ∉ n.store)
      (hchild : ∀ u c, (u, Child.inMem c) ∈ n.store → Tidy c) : Tidy n

def found (n : OverlayNode U V) (key : List U) : Option (Option V) := (findLeafIterative n key).map value

variable {n c : OverlayNode U V} {u : U}

theorem found_nil (n : OverlayNode U V) : found n [] = if n.isFinal then some n.value else none := by
  rw [found, findLeafIterative]
  split <;> rfl

namespace Tidy

theorem mem_store (h : Tidy n) : (u, Child.inMem c) ∈ n.store ↔ n.findChild u = some (.inMem c) := by
  obtain ⟨hsorted, -, -⟩ := h
  rw [SortedEdges.mem_iff_lookup hsorted, ← findEdge_eq_lookup, findChild]

theorem new : Tidy (.new : OverlayNode U V) := ⟨.nil, nofun, nofun⟩

theorem child (h : Tidy n) (hc : n.findChild u = some (.inMem c)) : Tidy c := by
  have hmem := h.mem_store.2 hc
  obtain ⟨-, -, hchild⟩ := h
  exact hchild u c hmem

theorem withChild (h : Tidy n) (hc : Tidy c) : Tidy (n.withChild u (.inMem c)) := by
  obtain ⟨hsorted, hdisk, hchild⟩ := h
  have hstore : (n.withChild u (.inMem c)).store = SortedEdges.withEdge u (.inMem c) n.store := withEdge_eq _ _ _
  refine .mk (hstore ▸ SortedEdges.sorted_withEdge _ _ hsorted) (fun w ptr hmem => ?_) fun w c' hmem => ?_
  · obtain heq | hmem := SortedEdges.mem_withEdge (hstore ▸ hmem)
    · cases heq
    · exact hdisk w ptr hmem
  · obtain heq | hmem := SortedEdges.mem_withEdge (hstore ▸ hmem)
    · cases heq
      exact hc
    · exact hchild w c' hmem

end Tidy

/-- **Each key is yielded once, with what a walk finds at it.** -/
theorem iterWithValues_spec (h : Tidy n) : ((iterWithValues n).map Prod.fst).Nodup ∧
    ∀ key x, (key, x) ∈ iterWithValues n ↔ found n key = some x := by
  induction h with
  | @mk n hsorted hdisk hchild ih =>
    have hn : Tidy n := .mk hsorted hdisk hchild
    have hiter : iterWithValues n = (if n.isFinal then [([], n.value)] else []) ++ iterStore n.store := by
      cases n
      rfl
    have hhead : ∀ e : U × Child U V, ∀ key ∈ (iterEdge e).map Prod.fst, ∃ rest, key = e.1 :: rest := fun e key hkey => by
      obtain ⟨x, hx, rfl⟩ := mem_map.1 hkey
      obtain ⟨c, rest, -, heq, -⟩ := mem_iterEdge.1 hx
      exact ⟨rest, heq⟩
    rw [hiter, iterStore_eq]
    refine ⟨?_, fun key x => ?_⟩
    · rw [map_append, nodup_append, map_flatMap, nodup_flatMap]
      refine ⟨by split <;> simp, ⟨fun e he => ?_, hsorted.imp fun hlt key hkey hkey' => ?_⟩, fun a ha b hb => ?_⟩
      · obtain ⟨w, c | ptr⟩ := e
        · simpa [iterEdge, comp_def] using (ih w c he).1.map (cons_injective (a := w))
        · exact nodup_nil
      · obtain ⟨rest, rfl⟩ := hhead _ key hkey
        obtain ⟨rest', heq⟩ := hhead _ _ hkey'
        exact hlt.ne (cons.inj heq).1
      · obtain ⟨e, -, he⟩ := mem_flatMap.1 hb
        obtain ⟨rest, rfl⟩ := hhead e b he
        split at ha <;> simp_all
    · rw [mem_append, mem_flatMap]
      cases key with
      | nil => cases hf : n.isFinal <;> simp [found_nil, mem_iterEdge, hf, eq_comm]
      | cons w rest =>
        have hfirst : (w :: rest, x) ∉ (if n.isFinal then [([], n.value)] else []) := by split <;> simp
        rw [or_iff_right hfirst, found, findLeafIterative]
        constructor
        · rintro ⟨⟨u, e⟩, hmem, hx⟩
          obtain ⟨c, rest', rfl, heq, hx⟩ := mem_iterEdge.1 hx
          cases heq
          simp only [hn.mem_store.1 hmem]
          exact ((ih _ c hmem).2 rest x).1 hx
        · intro hx
          split at hx
          · rename_i c hc
            have hmem := hn.mem_store.2 hc
            exact ⟨_, hmem, mem_iterEdge.2 ⟨c, rest, rfl, rfl, ((ih w c hmem).2 rest x).2 hx⟩⟩
          all_goals cases hx

end Dictenstein.Overlay
