import Mathlib.Data.List.Pairwise
import Mathlib.Data.List.Sort
/-!
# StableSort — sorting the elements of groups is sorting the groups

A stable sort keeps elements of equal rank in their order.  So if every record `b` contributes a group `f b` of elements, and
elements compare as their records do, then sorting all the elements is the same as sorting the records and listing their
groups (`insertionSort_flatMap`).
-/
namespace StableSort

open List

variable {α β : Type} {r : α → α → Prop} [DecidableRel r] {s : β → β → Prop} [DecidableRel s] {f : β → List α}

theorem orderedInsert_append {x : α} {m : List α} : ∀ {l : List α}, (∀ y ∈ l, ¬r x y) →
    (l ++ m).orderedInsert r x = l ++ m.orderedInsert r x
  | [], _ => rfl
  | y :: l, h => by
    rw [cons_append, orderedInsert_of_not_le r _ (h y mem_cons_self),
      orderedInsert_append fun z hz => h z (mem_cons_of_mem _ hz)]
    rfl

theorem orderedInsert_of_forall {x : α} : ∀ {l : List α}, (∀ y ∈ l, r x y) → l.orderedInsert r x = x :: l
  | [], _ => rfl
  | y :: l, h => orderedInsert_cons_of_le r l (h y mem_cons_self)

theorem foldr_orderedInsert_append {l m : List α} : ∀ {g : List α}, (∀ x ∈ g, ∀ y ∈ l, ¬r x y) →
    g.foldr (List.orderedInsert r) (l ++ m) = l ++ g.foldr (List.orderedInsert r) m
  | [], _ => rfl
  | x :: g, h => by
    rw [foldr_cons, foldr_cons, foldr_orderedInsert_append fun z hz => h z (mem_cons_of_mem _ hz),
      orderedInsert_append (h x mem_cons_self)]

theorem foldr_orderedInsert_of_forall {l : List α} : ∀ {g : List α}, (∀ x ∈ g, ∀ y ∈ g ++ l, r x y) →
    g.foldr (List.orderedInsert r) l = g ++ l
  | [], _ => rfl
  | x :: g, h => by
    have ih := foldr_orderedInsert_of_forall (l := l) (g := g) fun z hz y hy =>
      h z (mem_cons_of_mem _ hz) y (mem_cons_of_mem _ hy)
    rw [foldr_cons, ih]
    exact orderedInsert_of_forall fun y hy => h x mem_cons_self y (mem_cons_of_mem _ hy)

theorem insertionSort_append (l m : List α) :
    (l ++ m).insertionSort r = l.foldr (List.orderedInsert r) (m.insertionSort r) := by
  induction l with
  | nil => rfl
  | cons x l ih => rw [cons_append, insertionSort_cons, ih, foldr_cons]

theorem filter_insertionSort {l : List α} (p : α → Bool) (h : ∀ a ∈ l, p a → ∀ b ∈ l, p b → r a b) :
    (l.insertionSort r).filter p = l.filter p := by
  have htied : (l.filter p).Pairwise r := by
    refine Pairwise.imp_of_mem (fun {a b} ha hb _ => ?_) (pairwise_of_forall fun _ _ => trivial)
    exact h a (mem_of_mem_filter ha) (mem_filter.1 ha).2 b (mem_of_mem_filter hb) (mem_filter.1 hb).2
  have hsub := (sublist_insertionSort htied filter_sublist).filter p
  rw [filter_filter] at hsub
  refine (Sublist.eq_of_length ?_ ((perm_insertionSort r l).filter p).length_eq.symm).symm
  simpa using hsub

section
variable (hrs : ∀ a b x y, x ∈ f a → y ∈ f b → (r x y ↔ s a b))
include hrs

theorem foldr_orderedInsert_flatMap [IsTrans β s] [Std.Refl s] (a : β) : ∀ {l : List β}, l.Pairwise s →
    (f a).foldr (List.orderedInsert r) (l.flatMap f) = (l.orderedInsert s a).flatMap f
  | [], _ => by
    rw [flatMap_nil, foldr_orderedInsert_of_forall, orderedInsert_nil, flatMap_cons, flatMap_nil]
    intro x hx y hy
    rw [append_nil] at hy
    exact (hrs a a x y hx hy).2 (Std.Refl.refl a)
  | b :: l, h => by
    obtain ⟨hb, hl⟩ := pairwise_cons.1 h
    by_cases hab : s a b
    · rw [orderedInsert_cons_of_le s l hab, flatMap_cons (x := a)]
      refine foldr_orderedInsert_of_forall fun x hx y hy => ?_
      obtain hy | hy := mem_append.1 hy
      · exact (hrs a a x y hx hy).2 (Std.Refl.refl a)
      · obtain ⟨c, hc, hyc⟩ := mem_flatMap.1 hy
        refine (hrs a c x y hx hyc).2 ?_
        obtain rfl | hc := mem_cons.1 hc
        · exact hab
        · exact IsTrans.trans a b c hab (hb c hc)
    · rw [orderedInsert_of_not_le s l hab, flatMap_cons, flatMap_cons,
        foldr_orderedInsert_append (fun x hx y hy => fun hxy => hab ((hrs a b x y hx hy).1 hxy)),
        foldr_orderedInsert_flatMap a hl]

theorem insertionSort_flatMap [IsTrans β s] [Std.Total s] (l : List β) :
    (l.flatMap f).insertionSort r = (l.insertionSort s).flatMap f := by
  have : Std.Refl s := ⟨fun a => (Std.Total.total a a).elim id id⟩
  induction l with
  | nil => rfl
  | cons a l ih =>
    rw [flatMap_cons, insertionSort_append, ih, insertionSort_cons]
    exact foldr_orderedInsert_flatMap hrs a (pairwise_insertionSort s l)

end

end StableSort
