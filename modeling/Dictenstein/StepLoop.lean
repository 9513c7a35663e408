import Mathlib.Logic.Basic
/-!
# StepLoop — a loop over a state, and where it gets to

A round of a loop fails, returns or goes on with a next state.  `run` makes so many rounds, and `none` says that they were
not enough.  `Reaches s s'` says that the loop comes from `s` to `s'`, and `Ends s x` that it is over with `x`; they compose.
-/
namespace StepLoop

variable {S R E : Type}

def run (step : S → Except E (S ⊕ R)) : Nat → S → Option (Except E R)
  | 0, _ => none
  | fuel + 1, s => match step s with
    | .error e => some (.error e)
    | .ok (.inr r) => some (.ok r)
    | .ok (.inl s') => run step fuel s'

variable (step : S → Except E (S ⊕ R))

def Reaches (s s' : S) : Prop := ∃ k, ∀ fuel, run step (fuel + k) s = run step fuel s'

def Ends (s : S) (x : Except E R) : Prop := ∃ k, ∀ fuel, run step (fuel + k) s = some x

variable {step : S → Except E (S ⊕ R)} {s s' : S}

theorem Reaches.of_step (h : step s = .ok (.inl s')) : Reaches step s s' := ⟨1, fun fuel => by rw [run, h]⟩

theorem Reaches.ends {x : Except E R} (h : Reaches step s s') (h' : Ends step s' x) : Ends step s x := by
  obtain ⟨k, hk⟩ := h
  obtain ⟨k', hk'⟩ := h'
  exact ⟨k' + k, fun fuel => by rw [← Nat.add_assoc, hk, hk']⟩

theorem Ends.of_error {e : E} (h : step s = .error e) : Ends step s (.error e) := ⟨1, fun fuel => by rw [run, h]⟩

theorem Ends.of_return {r : R} (h : step s = .ok (.inr r)) : Ends step s (.ok r) := ⟨1, fun fuel => by rw [run, h]⟩

theorem run_returned {P : S → Prop} (hstep : ∀ s s', P s → step s = .ok (.inl s') → P s') {fuel : Nat} {r : R} (hs : P s)
    (h : run step fuel s = some (.ok r)) : ∃ s', P s' ∧ step s' = .ok (.inr r) := by
  induction fuel generalizing s with
  | zero => cases h
  | succ fuel ih =>
    rw [run] at h
    cases hround : step s with rw [hround] at h
    | error e =>
      cases h
    | ok next =>
      cases next with
      | inl s' => exact ih (hstep s s' hs hround) h
      | inr r' =>
        obtain rfl : r' = r := by injection h with h; injection h
        exact ⟨s, hs, hround⟩

end StepLoop
