import Mathlib.Data.Finset.Card
/-!
# Paths — labelled paths from a root

States with a transition function `next`: a path from the root leads to a state or nowhere, and to the data of that state.
In a tree every state has one parent and one label, so no two paths meet (`walk_inj`).
-/
namespace Paths

open Function List Option Finset

variable {S U D : Type} {next : S → U → Option S} {data : S → Option D} {r : S}

def walk (next : S → U → Option S) : S → List U → Option S
  | s, [] => some s
  | s, u :: p => (next s u).bind fun t => walk next t p

def entry (next : S → U → Option S) (data : S → Option D) (r : S) (p : List U) : Option D := (walk next r p).bind data

theorem walk_append (s : S) (p q : List U) : walk next s (p ++ q) = (walk next s p).bind fun t => walk next t q := by
  induction p generalizing s with
  | nil => rfl
  | cons u p ih =>
    rw [cons_append, walk, walk]
    cases next s u with
    | none => rfl
    | some t => exact ih t

theorem walk_concat (s : S) (p : List U) (u : U) : walk next s (p ++ [u]) = (walk next s p).bind fun t => next t u := by
  rw [walk_append]
  cases walk next s p with
  | none => rfl
  | some t => cases hn : next t u <;> simp [walk, hn]

variable {p : List U} {t s : S}

theorem walk_concat_eq_some {u : U} : walk next s (p ++ [u]) = some t ↔ ∃ m, walk next s p = some m ∧ next m u = some t := by
  rw [walk_concat, bind_eq_some_iff]

theorem walk_invariant {P : S → Prop} (hroot : P r) (hstep : ∀ s u t, P s → next s u = some t → P t)
    (h : walk next r p = some s) : P s := by
  induction p using reverseRecOn generalizing s with
  | nil => exact some.inj h ▸ hroot
  | append_singleton p u ih =>
    obtain ⟨m, hm, hu⟩ := walk_concat_eq_some.1 h
    exact hstep m u s (ih hm) hu

/-- Every state has one parent and one label, and the root has none. -/
structure Tree (next : S → U → Option S) (r : S) : Prop where
  root : ∀ s u, next s u ≠ some r
  parent : ∀ s s' u u' t, next s u = some t → next s' u' = some t → s = s' ∧ u = u'

theorem walk_inj (h : Tree next r) {q : List U} (hp : walk next r p = some t) (hq : walk next r q = some t) : p = q := by
  induction p using reverseRecOn generalizing q t with
  | nil =>
    obtain rfl : r = t := some.inj hp
    cases q using reverseRecOn with
    | nil => rfl
    | append_singleton q w =>
      obtain ⟨m, -, hw⟩ := walk_concat_eq_some.1 hq
      exact absurd hw (h.root m w)
  | append_singleton p u ih =>
    obtain ⟨m, hm, hu⟩ := walk_concat_eq_some.1 hp
    cases q using reverseRecOn with
    | nil =>
      obtain rfl : r = t := some.inj hq
      exact absurd hu (h.root m u)
    | append_singleton q w =>
      obtain ⟨m', hm', hw⟩ := walk_concat_eq_some.1 hq
      obtain ⟨rfl, rfl⟩ := h.parent m m' u w t hu hw
      rw [ih hm hm']

theorem walk_length_lt (h : Tree next r) {states : Finset S} (hin : ∀ p s, walk next r p = some s → s ∈ states)
    (hp : walk next r p = some t) : p.length < states.card := by
  have hsome : ∀ i, ∃ s, walk next r (p.take i) = some s := by
    intro i
    rw [← take_append_drop i p, walk_append] at hp
    cases hw : walk next r (p.take i) with
    | none =>
      rw [hw] at hp
      cases hp
    | some s => exact ⟨s, rfl⟩
  choose state hstate using hsome
  have hcard : (Finset.range (p.length + 1)).card ≤ states.card := by
    refine card_le_card_of_injOn state (fun i _ => hin _ _ (hstate i)) ?_
    intro i hi j hj hij
    have hi := Nat.lt_succ_iff.1 (Finset.mem_range.1 (Finset.mem_coe.1 hi))
    have hj := Nat.lt_succ_iff.1 (Finset.mem_range.1 (Finset.mem_coe.1 hj))
    have htake := congrArg length (walk_inj h (hstate i) (hij ▸ hstate j))
    rwa [length_take_of_le hi, length_take_of_le hj] at htake
  rwa [card_range] at hcard

/-! ## Simulation -/

section
variable {T : Type} {next' : T → U → Option T} {data' : T → Option D} {R : S → T → Prop} {r' : T}

/-- **Related roots with related transitions lead along every path to related states**, or both nowhere. -/
theorem walk_rel (hroot : R r r') (hstep : ∀ s t u, R s t → (next s u).Rel R (next' t u)) (p : List U) :
    (walk next r p).Rel R (walk next' r' p) := by
  induction p generalizing r r' with
  | nil => exact .some hroot
  | cons u p ih =>
    rw [walk, walk]
    have hnext := hstep r r' u hroot
    generalize next r u = a, next' r' u = b at hnext ⊢
    cases hnext with
    | none => exact .none
    | some h => exact ih h

theorem entry_rel (hroot : R r r') (hstep : ∀ s t u, R s t → (next s u).Rel R (next' t u))
    (hdata : ∀ s t, R s t → data s = data' t) : entry next data r = entry next' data' r' := by
  funext p
  rw [entry, entry]
  have hwalk := walk_rel hroot hstep p
  generalize walk next r p = a, walk next' r' p = b at hwalk ⊢
  cases hwalk with
  | none => rfl
  | some h => exact hdata _ _ h

end

/-! ## Attaching a leaf -/

section
variable [DecidableEq S] [DecidableEq U] {next' : S → U → Option S} {data' : S → Option D} {P : S → Prop} {ρ : S → S}
  {s new : S} {u : U}

/-- The states with `P` renamed by `ρ`, and a leaf without data attached to the state `s` under the label `u`. -/
structure Attached (next next' : S → U → Option S) (data data' : S → Option D) (P : S → Prop) (ρ : S → S) (r s : S) (u : U)
    (new : S) : Prop where
  root : ρ r = r
  step : ∀ x w, P x → next' (ρ x) w = if x = s ∧ w = u then some new else (next x w).map ρ
  leaf : ∀ w, next' new w = none
  blank : data' new = none
  data_eq : ∀ x, P x → data' (ρ x) = data x

variable {p : List U}

section
variable (htree : Tree next r) (hP : ∀ p x, walk next r p = some x → P x)
  (h : Attached next next' data data' P ρ r s u new) (hp : walk next r p = some s) (hnone : next s u = none)
include htree hP h hp hnone

theorem Attached.walk_eq (q : List U) : walk next' r q = if q = p ++ [u] then some new else (walk next r q).map ρ := by
  induction q using reverseRecOn with
  | nil =>
    rw [if_neg (by simp)]
    simp only [walk, map_some, h.root]
  | append_singleton q w ih =>
    rw [walk_concat, walk_concat, ih]
    by_cases hq : q = p ++ [u]
    · -- below the new leaf there is nothing, and before it there was no such path
      rw [if_pos hq, if_neg (by subst hq; simp), hq, walk_concat, hp]
      simp [h.leaf, hnone]
    · rw [if_neg hq]
      cases hx : walk next r q with
      | none =>
        rw [if_neg]
        · rfl
        · intro heq
          obtain ⟨rfl, -⟩ := append_inj' heq rfl
          rw [hp] at hx
          cases hx
      | some x =>
        simp only [map_some, bind_some, h.step x w (hP q x hx)]
        by_cases hnew : x = s ∧ w = u
        · obtain ⟨rfl, rfl⟩ := hnew
          rw [if_pos ⟨rfl, rfl⟩, if_pos (by rw [walk_inj htree hx hp])]
        · rw [if_neg hnew, if_neg]
          intro heq
          obtain ⟨rfl, hw⟩ := append_inj' heq rfl
          exact hnew ⟨some.inj (hx.symm.trans hp), (cons.inj hw).1⟩

theorem Attached.entry_eq : entry next' data' r = entry next data r := by
  funext q
  unfold entry
  rw [h.walk_eq htree hP hp hnone q]
  by_cases hq : q = p ++ [u]
  · rw [if_pos hq, hq, walk_concat, hp]
    simp [h.blank, hnone]
  · rw [if_neg hq]
    cases hx : walk next r q with
    | none => rfl
    | some x => exact h.data_eq x (hP q x hx)

end

/-! ## Changing the data of a state -/

/-- **Data written to a state is the entry of its path.** -/
theorem entry_update (htree : Tree next r) (hp : walk next r p = some s) (d : Option D) :
    entry next (update data s d) r = update (entry next data r) p d := by
  funext q
  rw [update_apply]
  by_cases hq : q = p
  · rw [if_pos hq, entry, hq, hp]
    exact update_self ..
  · rw [if_neg hq, entry, entry]
    cases hx : walk next r q with
    | none => rfl
    | some x =>
      have hne : x ≠ s := by
        rintro rfl
        exact hq (walk_inj htree hx hp)
      exact update_of_ne hne ..

end
end Paths
