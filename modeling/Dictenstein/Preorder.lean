import Mathlib.Data.List.Nodup
import Mathlib.Data.Set.Basic
/-!
# Preorder — a tree walked with a stack of continuations

A frame of the stack is a node and the position of its next child; a node is visited when its frame is new.  In a forest, in
which ranks grow from parents to children, the walk from a node visits its descendants (`mem_subtree`), each of them once
(`nodup_subtree`), and ends after two steps for each (`visit_eq`).
-/
namespace Preorder

open List Option

variable {σ : Type}

/-- The walk, with the nodes it has visited.  The result is `none` if it has not ended after `fuel` steps. -/
def visit (children : σ → List σ) : Nat → List (σ × Nat) → List σ → Option (List σ)
  | 0, _, _ => none
  | _ + 1, [], visited => some visited
  | fuel + 1, (node, next) :: stack, visited =>
    let visited := if next = 0 then visited ++ [node] else visited
    match (children node)[next]? with
    | some child => visit children fuel ((child, 0) :: (node, next + 1) :: stack) visited
    | none => visit children fuel stack visited

/-- The descendants of a node down to a depth, in the order of the recursive walk. -/
def subtree (children : σ → List σ) : Nat → σ → List σ
  | 0, _ => []
  | depth + 1, s => s :: (children s).flatMap (subtree children depth)

structure Forest (D : Set σ) (parent : σ → Option σ) (children : σ → List σ) (rank : σ → Nat) (bound : Nat) : Prop where
  parent_mem : ∀ u ∈ D, ∀ s, parent u = some s → s ∈ D
  mem_children : ∀ s ∈ D, ∀ u, u ∈ children s ↔ u ∈ D ∧ parent u = some s
  nodup_children : ∀ s ∈ D, (children s).Nodup
  rank_lt : ∀ u ∈ D, ∀ s, parent u = some s → rank s < rank u
  rank_le : ∀ u ∈ D, rank u ≤ bound

/-- The second node is an ancestor of the first, or the node itself. -/
def Ancestor (parent : σ → Option σ) : σ → σ → Prop := Relation.ReflTransGen fun u s => parent u = some s

namespace Forest

variable {D : Set σ} {parent : σ → Option σ} {children : σ → List σ} {rank : σ → Nat} {bound : Nat} {s t u : σ}

section
variable (h : Forest D parent children rank bound)
include h

theorem ancestor_mem (hu : u ∈ D) (hs : Ancestor parent u s) : s ∈ D ∧ rank s ≤ rank u := by
  induction hs with
  | refl => exact ⟨hu, le_rfl⟩
  | tail _ hparent ih => exact ⟨h.parent_mem _ ih.1 _ hparent, (h.rank_lt _ ih.1 _ hparent).le.trans ih.2⟩

theorem depth_child (hs : s ∈ D) {depth : Nat} (hd : bound - rank s < depth + 1)
    (hu : u ∈ children s) : u ∈ D ∧ bound - rank u < depth := by
  obtain ⟨hmem, hparent⟩ := (h.mem_children s hs u).1 hu
  have hlt := h.rank_lt u hmem s hparent
  have hle := h.rank_le u hmem
  exact ⟨hmem, by omega⟩

theorem mem_subtree : ∀ (depth : Nat) {s : σ}, s ∈ D → bound - rank s < depth →
    (u ∈ subtree children depth s ↔ u ∈ D ∧ Ancestor parent u s) := by
  intro depth
  induction depth with
  | zero => exact fun _ hd => absurd hd (Nat.not_lt_zero _)
  | succ depth ih =>
    intro s hs hd
    rw [subtree, mem_cons, mem_flatMap]
    constructor
    · rintro (rfl | ⟨c, hc, hu⟩)
      · exact ⟨hs, .refl⟩
      · obtain ⟨hcD, hcd⟩ := h.depth_child hs hd hc
        obtain ⟨huD, hanc⟩ := (ih hcD hcd).1 hu
        exact ⟨huD, hanc.tail ((h.mem_children s hs c).1 hc).2⟩
    · rintro ⟨huD, hanc⟩
      obtain heq | ⟨c, hanc, hparent⟩ := Relation.ReflTransGen.cases_tail hanc
      · exact .inl heq.symm
      · have hc := (h.mem_children s hs c).2 ⟨(h.ancestor_mem huD hanc).1, hparent⟩
        obtain ⟨hcD, hcd⟩ := h.depth_child hs hd hc
        exact .inr ⟨c, hc, (ih hcD hcd).2 ⟨huD, hanc⟩⟩

theorem children_disjoint (hs : s ∈ D) {c c' : σ} (hc : c ∈ children s)
    (hc' : c' ∈ children s) (hu : Ancestor parent u c) (hu' : Ancestor parent u c') : c = c' := by
  have hunique : Relator.RightUnique fun a b : σ => parent a = some b := fun a b b' hb hb' =>
    some.inj (hb.symm.trans hb')
  -- one of them would be below the other, and so below the parent they share
  have hbelow : ∀ {a b}, a ∈ children s → b ∈ children s → Ancestor parent a b → a = b := by
    intro a b ha hb hab
    obtain heq | ⟨m, hm, hmb⟩ := Relation.ReflTransGen.cases_head hab
    · exact heq
    · obtain ⟨-, hpa⟩ := (h.mem_children s hs a).1 ha
      obtain ⟨hbD, hpb⟩ := (h.mem_children s hs b).1 hb
      obtain rfl : s = m := some.inj (hpa.symm.trans hm)
      exact absurd (h.rank_lt b hbD s hpb) (not_lt.2 (h.ancestor_mem hs hmb).2)
  obtain hab | hba := Relation.ReflTransGen.total_of_right_unique hunique hu hu'
  · exact hbelow hc hc' hab
  · exact (hbelow hc' hc hba).symm

theorem nodup_subtree : ∀ (depth : Nat) {s : σ}, s ∈ D → bound - rank s < depth → (subtree children depth s).Nodup := by
  intro depth
  induction depth with
  | zero => exact fun _ _ => nodup_nil
  | succ depth ih =>
    intro s hs hd
    have hmem : ∀ {c u}, c ∈ children s → u ∈ subtree children depth c → Ancestor parent u c := fun hc hu => by
      obtain ⟨hcD, hcd⟩ := h.depth_child hs hd hc
      exact ((h.mem_subtree depth hcD hcd).1 hu).2
    rw [subtree, nodup_cons, nodup_flatMap]
    refine ⟨fun hself => ?_, fun c hc => ?_, ?_⟩
    · obtain ⟨c, hc, hsc⟩ := mem_flatMap.1 hself
      obtain ⟨hcD, hparent⟩ := (h.mem_children s hs c).1 hc
      exact absurd (h.rank_lt c hcD s hparent) (not_lt.2 (h.ancestor_mem hs (hmem hc hsc)).2)
    · obtain ⟨hcD, hcd⟩ := h.depth_child hs hd hc
      exact ih hcD hcd
    · refine (h.nodup_children s hs).imp_of_mem fun {c c'} hc hc' hne => ?_
      intro u hu hu'
      exact hne (h.children_disjoint hs hc hc' (hmem hc hu) (hmem hc' hu'))

end

end Forest

/-! ## The walk -/

section
variable {children : σ → List σ} {s : σ} {depth : Nat}

theorem visit_children
    (hbelow : ∀ c ∈ children s, ∀ fuel stack visited, visit children (fuel + 2 * (subtree children depth c).length)
      ((c, 0) :: stack) visited = visit children (fuel + 1) stack (visited ++ subtree children depth c)) :
    ∀ (rest : List σ) (i : Nat), (children s).drop i = rest → ∀ fuel stack visited,
      visit children (fuel + 1 + 2 * (rest.flatMap (subtree children depth)).length) ((s, i) :: stack) visited =
        visit children fuel stack
          ((if i = 0 then visited ++ [s] else visited) ++ rest.flatMap (subtree children depth)) := by
  intro rest
  induction rest with intro i hdrop fuel stack visited
  | nil =>
    have hnone : (children s)[i]? = none := getElem?_eq_none_iff.2 (drop_eq_nil_iff.1 hdrop)
    simp only [flatMap_nil, length_nil, Nat.mul_zero, Nat.add_zero, visit, hnone, append_nil]
  | cons c rest ih =>
    have hsome : (children s)[i]? = some c := by
      rw [← head?_drop, hdrop]
      rfl
    have hdrop' : (children s).drop (i + 1) = rest := by
      rw [← tail_drop, hdrop]
      rfl
    have hfuel : fuel + 1 + 2 * ((c :: rest).flatMap (subtree children depth)).length =
        (fuel + 2 * (rest.flatMap (subtree children depth)).length + 2 * (subtree children depth c).length) + 1 := by
      rw [flatMap_cons, length_append]
      omega
    rw [hfuel]
    simp only [visit, hsome]
    rw [hbelow c (mem_of_getElem? hsome), Nat.add_right_comm, ih (i + 1) hdrop', if_neg (Nat.succ_ne_zero i),
      flatMap_cons, append_assoc]

variable {D : Set σ} {parent : σ → Option σ} {rank : σ → Nat} {bound : Nat}

theorem visit_subtree (h : Forest D parent children rank bound) : ∀ (depth : Nat) {s : σ}, s ∈ D → bound - rank s < depth →
    ∀ fuel stack visited, visit children (fuel + 2 * (subtree children depth s).length) ((s, 0) :: stack) visited =
      visit children (fuel + 1) stack (visited ++ subtree children depth s) := by
  intro depth
  induction depth with
  | zero => exact fun _ hd => absurd hd (Nat.not_lt_zero _)
  | succ depth ih =>
    intro s hs hd fuel stack visited
    have hwalk := visit_children (fun c hc => by
      obtain ⟨hcD, hcd⟩ := h.depth_child hs hd hc
      exact ih hcD hcd) (children s) 0 drop_zero (fuel + 1) stack visited
    have hfuel : fuel + 2 * (subtree children (depth + 1) s).length =
        fuel + 1 + 1 + 2 * ((children s).flatMap (subtree children depth)).length := by
      rw [subtree, length_cons]
      omega
    rw [hfuel, hwalk, if_pos rfl, subtree, append_assoc, singleton_append]

theorem visit_eq (h : Forest D parent children rank bound) (hs : s ∈ D) {n : Nat}
    (hn : (subtree children (bound + 1) s).length ≤ n) :
    visit children (2 * n + 1) [(s, 0)] [] = some (subtree children (bound + 1) s) := by
  have hfuel : 2 * n + 1 = (2 * n + 1 - 2 * (subtree children (bound + 1) s).length) +
      2 * (subtree children (bound + 1) s).length := by omega
  rw [hfuel, visit_subtree h (bound + 1) hs (by omega), nil_append]
  rfl

end

end Preorder
