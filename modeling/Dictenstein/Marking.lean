import Mathlib.Algebra.Order.BigOperators.Group.Finset
import Mathlib.Data.List.GetD
import Mathlib.Data.List.Sigma
/-!
# Marking — the states that are reachable from a root

A stack of states to look at: a state that is popped is marked, unless it was before, and its successors are pushed.  The
search ends, because every state pushes its successors once, and then has marked what is reachable (`mark_spec`). -/
namespace Marking

open List

variable {succ : Nat → List Nat} {n root : Nat}

/-- The result is `none` if the search has not ended after `fuel` pops. -/
def mark (succ : Nat → List Nat) : Nat → List Bool → List Nat → Option (List Bool)
  | 0, _, _ => none
  | _ + 1, marked, [] => some marked
  | fuel + 1, marked, state :: stack =>
    if marked.getD state false then mark succ fuel marked stack
    else mark succ fuel (marked.set state true) ((succ state).reverse ++ stack)

def Reachable (succ : Nat → List Nat) : Nat → Nat → Prop := Relation.ReflTransGen fun s t => t ∈ succ s

def budget (succ : Nat → List Nat) (n : Nat) (marked : List Bool) : Nat :=
  ∑ s ∈ Finset.range n with marked.getD s false = false, (succ s).length

structure Searching (succ : Nat → List Nat) (n root : Nat) (marked : List Bool) (stack : List Nat) : Prop where
  length : marked.length = n
  stack_lt : ∀ s ∈ stack, s < n
  marked_reachable : ∀ s, marked.getD s false = true → Reachable succ root s
  stack_reachable : ∀ s ∈ stack, Reachable succ root s
  root : marked.getD root false = true ∨ root ∈ stack
  closed : ∀ s, marked.getD s false = true → ∀ t ∈ succ s, marked.getD t false = true ∨ t ∈ stack

variable {marked : List Bool} {s fuel : Nat} {stack : List Nat}

theorem getD_set_true (hs : s < marked.length) (t : Nat) :
    (marked.set s true).getD t false = true ↔ t = s ∨ marked.getD t false = true := by
  rw [getD_eq_getElem?_getD, getElem?_set, getD_eq_getElem?_getD]
  by_cases hts : s = t
  · simp [hts, hts ▸ hs]
  · simp [hts, Ne.symm hts]

theorem budget_set (succ : Nat → List Nat) (hs : s < n) (hlength : marked.length = n) (hnew : marked.getD s false = false) :
    budget succ n (marked.set s true) + (succ s).length = budget succ n marked := by
  have hset := getD_set_true (hlength.symm ▸ hs)
  have hfilter : (Finset.range n).filter (fun t => (marked.set s true).getD t false = false) =
      ((Finset.range n).filter fun t => marked.getD t false = false).erase s := by
    ext t
    rw [Finset.mem_filter, Finset.mem_erase, Finset.mem_filter, ← Bool.not_eq_true, hset, ← Bool.not_eq_true]
    tauto
  rw [budget, budget, hfilter]
  exact Finset.sum_erase_add _ _ (Finset.mem_filter.2 ⟨Finset.mem_range.2 hs, hnew⟩)

theorem Searching.pop (h : Searching succ n root marked (s :: stack)) (hold : marked.getD s false = true) :
    Searching succ n root marked stack where
  length := h.length
  stack_lt t ht := h.stack_lt t (.tail _ ht)
  marked_reachable := h.marked_reachable
  stack_reachable t ht := h.stack_reachable t (.tail _ ht)
  root := h.root.elim .inl fun hroot => (mem_cons.1 hroot).elim (fun heq => .inl (heq ▸ hold)) .inr
  closed t ht u hu := (h.closed t ht u hu).elim .inl fun hin => (mem_cons.1 hin).elim (fun heq => .inl (heq ▸ hold)) .inr

section
variable (hsucc : ∀ s, Reachable succ root s → ∀ t ∈ succ s, t < n)
include hsucc

theorem Searching.visit
    (h : Searching succ n root marked (s :: stack)) :
    Searching succ n root (marked.set s true) ((succ s).reverse ++ stack) := by
  have hs : s < n := h.stack_lt s (.head _)
  have hset := getD_set_true (h.length.symm ▸ hs)
  have hreach : Reachable succ root s := h.stack_reachable s (.head _)
  have hmem : ∀ t, t ∈ (succ s).reverse ++ stack ↔ t ∈ succ s ∨ t ∈ stack := fun t => by
    rw [mem_append, mem_reverse]
  -- what was marked or on the stack still is
  have hkeep : ∀ t, marked.getD t false = true ∨ t ∈ s :: stack →
      (marked.set s true).getD t false = true ∨ t ∈ (succ s).reverse ++ stack := by
    intro t ht
    rw [hset, hmem]
    obtain ht | ht := ht
    · exact .inl (.inr ht)
    · exact (mem_cons.1 ht).elim (fun heq => .inl (.inl heq)) fun hin => .inr (.inr hin)
  refine ⟨length_set.trans h.length, fun t ht => ?_, fun t ht => ?_, fun t ht => ?_, hkeep _ h.root, fun t ht u hu => ?_⟩
  · exact ((hmem t).1 ht).elim (hsucc s hreach t) fun hin => h.stack_lt t (.tail _ hin)
  · exact ((hset t).1 ht).elim (fun heq => heq ▸ hreach) (h.marked_reachable t)
  · exact ((hmem t).1 ht).elim (fun hin => hreach.tail hin) fun hin => h.stack_reachable t (.tail _ hin)
  · obtain rfl | ht := (hset t).1 ht
    · exact .inr ((hmem u).2 (.inl hu))
    · exact hkeep u (h.closed t ht u hu)

/-- **A search with enough fuel ends**, and has marked what is reachable. -/
theorem Searching.mark (h : Searching succ n root marked stack) (hfuel : stack.length + budget succ n marked < fuel) :
    ∃ marked', mark succ fuel marked stack = some marked' ∧ Searching succ n root marked' [] := by
  induction fuel generalizing marked stack with
  | zero => exact absurd hfuel (Nat.not_lt_zero _)
  | succ fuel ih =>
    cases stack with
    | nil => exact ⟨marked, rfl, h⟩
    | cons s stack =>
      rw [Marking.mark]
      rw [length_cons] at hfuel
      by_cases hold : marked.getD s false = true
      · rw [if_pos hold]
        exact ih (h.pop hold) (by omega)
      · rw [if_neg hold]
        have hbudget := budget_set succ (h.stack_lt s (.head _)) h.length (Bool.eq_false_iff.2 hold)
        refine ih (h.visit hsucc) ?_
        rw [length_append, length_reverse]
        omega

theorem mark_spec (hroot : root < n) (hfuel : (∑ s ∈ Finset.range n, (succ s).length) + 1 < fuel) :
    ∃ marked, mark succ fuel (List.replicate n false) [root] = some marked ∧ marked.length = n ∧
      ∀ s, marked.getD s false = true ↔ Reachable succ root s := by
  have hblank : ∀ s, (replicate n false).getD s false = false := fun s => getElem?_getD_replicate_default_eq ..
  have hstart : Searching succ n root (replicate n false) [root] := by
    refine ⟨length_replicate, fun s hs => ?_, fun s hs => ?_, fun s hs => ?_, .inr (mem_singleton_self root), fun s hs => ?_⟩
    · exact mem_singleton.1 hs ▸ hroot
    · rw [hblank] at hs
      cases hs
    · exact mem_singleton.1 hs ▸ .refl
    · rw [hblank] at hs
      cases hs
  have hbudget : budget succ n (replicate n false) ≤ ∑ s ∈ Finset.range n, (succ s).length :=
    Finset.sum_le_sum_of_subset (Finset.filter_subset ..)
  have henough : [root].length + budget succ n (replicate n false) < fuel := by
    rw [length_singleton]
    omega
  obtain ⟨marked, hmark, h⟩ := hstart.mark hsucc henough
  refine ⟨marked, hmark, h.length, fun s => ⟨h.marked_reachable s, fun hreach => ?_⟩⟩
  have hin : ∀ {t}, marked.getD t false = true ∨ t ∈ ([] : List Nat) → marked.getD t false = true :=
    fun hor => hor.elim id nofun
  induction hreach with
  | refl => exact hin h.root
  | tail _ hedge ih => exact hin (h.closed _ ih _ hedge)

end

/-! ## Sweeping -/

section
variable {α : Type} {marked : List Bool} {l : List α} {a : α} {i old : Nat}

def kept (marked : List Bool) (l : List α) : List (α × Nat) := l.zipIdx.filter fun x => marked.getD x.2 false

def rank (marked : List Bool) (old : Nat) : Nat := (marked.take old).count true

theorem kept_concat (marked : List Bool) (l : List α) (a : α) :
    kept marked (l ++ [a]) = kept marked l ++ if marked.getD l.length false then [(a, l.length)] else [] := by
  rw [kept, zipIdx_append, filter_append, zero_add]
  congr 1
  by_cases h : marked.getD l.length false = true
  · rw [if_pos h]
    exact filter_cons_of_pos h
  · rw [if_neg h]
    exact filter_cons_of_neg h

section
variable (h : l.length ≤ marked.length)
include h

theorem length_kept : (kept marked l).length = rank marked l.length := by
  induction l using reverseRecOn with
  | nil => rfl
  | append_singleton l a ih =>
    rw [length_append, length_singleton] at h
    have hget : marked[l.length]? = some (marked.getD l.length false) := by
      rw [getD_eq_getElem _ _ h, getElem?_eq_getElem]
    rw [kept_concat, length_append, ih (Nat.le_of_succ_le h), rank, rank, length_append, length_singleton,
      take_add_one, hget, count_append]
    cases marked.getD l.length false <;> rfl

theorem getElem?_kept_rank (hget : l[old]? = some a) (hmarked : marked.getD old false = true) :
    (kept marked l)[rank marked old]? = some (a, old) := by
  induction l using reverseRecOn with
  | nil => cases hget
  | append_singleton l b ih =>
    rw [length_append, length_singleton] at h
    rw [kept_concat]
    obtain hlt | rfl | hgt := lt_trichotomy old l.length
    · rw [getElem?_append_left hlt] at hget
      have := ih (Nat.le_of_succ_le h) hget
      rwa [List.getElem?_append_left (List.getElem?_eq_some_iff.1 this).1]
    · rw [getElem?_concat_length] at hget
      rw [if_pos hmarked, ← length_kept (Nat.le_of_succ_le h), getElem?_concat_length, Option.some.inj hget]
    · rw [getElem?_eq_none (by simpa using Nat.succ_le_of_lt hgt)] at hget
      cases hget

theorem getElem?_kept_iff : (kept marked l)[i]? = some (a, old) ↔
    l[old]? = some a ∧ marked.getD old false = true ∧ rank marked old = i := by
  constructor
  · intro hi
    obtain ⟨hin, hmarked⟩ := mem_filter.1 (mem_of_getElem? hi)
    have hget : l[old]? = some a := mem_zipIdx_iff_getElem?.1 hin
    have hnodup : (kept marked l).Nodup := (nodup_zipIdx_map_snd l).of_map.filter _
    have hrank := getElem?_kept_rank h hget hmarked
    exact ⟨hget, hmarked, (List.getElem?_inj (List.getElem?_eq_some_iff.1 hrank).1 hnodup).1 (hrank.trans hi.symm)⟩
  · rintro ⟨hget, hmarked, rfl⟩
    exact getElem?_kept_rank h hget hmarked

end

end
end Marking
