import Mathlib.Data.List.Induction
/-!
# Runs — step functions, runs of them and what holds along a run

A system is a step function `σ → ε → Option σ`: the event `ε` is one atomic step of one of its parties, and `none` says
the step is not enabled.  An interleaving is a list of events, and `run` is what it reaches.  Every prefix of a run is a
run, so a statement about the state a run reaches is one about every state on the way.
-/
namespace Runs

open Function Option

variable {σ ε : Type} (step : σ → ε → Option σ)

/-- The state a list of events reaches, if every one of them is enabled in its turn. -/
def run : List ε → σ → Option σ
  | [], s => some s
  | e :: es, s => (step s e).bind (run es)

def Along (ok : σ → ε → Prop) : List ε → σ → Prop
  | [], _ => True
  | e :: es, s => ok s e ∧ match step s e with
    | none => True
    | some s' => Along ok es s'

instance decidableAlong (ok : σ → ε → Prop) [∀ s e, Decidable (ok s e)] :
    ∀ (es : List ε) (s : σ), Decidable (Along step ok es s)
  | [], _ => isTrue trivial
  | e :: es, s => by
    unfold Along
    have : Decidable (match step s e with
        | none => True
        | some s' => Along step ok es s') := by
      cases step s e with
      | none => exact isTrue trivial
      | some s' => exact decidableAlong ok es s'
    exact inferInstance

variable {step}
variable {ok C : σ → ε → Prop} {es es' : List ε} {s s' : σ} {I : σ → Prop}

theorem run_cons {e : ε} : run step (e :: es) s = some s' ↔ ∃ m, step s e = some m ∧ run step es m = some s' := by
  simp only [run, bind_eq_some_iff]

theorem run_append : run step (es ++ es') s = some s' ↔ ∃ m, run step es s = some m ∧ run step es' m = some s' := by
  induction es generalizing s with
  | nil => simp [run]
  | cons e es ih => simp only [List.cons_append, run_cons, ih]; aesop

theorem along_cons {e : ε} {m : σ} (hm : step s e = some m) (h : Along step ok (e :: es) s) :
    ok s e ∧ Along step ok es m := by
  simp only [Along, hm] at h
  exact h

/-- **An invariant kept by every step that meets the condition holds of the state a run of such steps reaches.** -/
theorem invariant (hstep : ∀ s e s', step s e = some s' → C s e → I s → I s') :
    ∀ (es : List ε) (s s' : σ), run step es s = some s' → Along step C es s → I s → I s'
  | [], s, s', hr, _, hi => some.inj hr ▸ hi
  | e :: es, s, s', hr, ha, hi => by
    obtain ⟨m, hm, hr'⟩ := run_cons.1 hr
    obtain ⟨hok, ha'⟩ := along_cons hm ha
    exact invariant hstep es m s' hr' ha' (hstep s e m hm hok hi)

/-- **What does not hold before a run and holds after it turns in a step of the run.** -/
theorem exists_turn (hstep : ∀ s e s', step s e = some s' → C s e → I s → I s') {P : σ → Prop}
    (hrun : run step es s = some s')
    (hok : Along step C es s) (h : I s) (hbefore : ¬P s) (hafter : P s') : ∃ es₁ e es₂ m m', es = es₁ ++ e :: es₂ ∧
      run step es₁ s = some m ∧ I m ∧ C m e ∧ step m e = some m' ∧ ¬P m ∧ P m' := by
  induction es generalizing s with
  | nil =>
    cases hrun
    exact absurd hafter hbefore
  | cons e es ih =>
    obtain ⟨k, hk, hrun⟩ := run_cons.1 hrun
    obtain ⟨he, hok⟩ := along_cons hk hok
    by_cases hturned : P k
    · exact ⟨[], e, es, s, k, rfl, rfl, h, he, hk, hbefore, hturned⟩
    · obtain ⟨es₁, e', es₂, m, m', rfl, hrun₁, hturn⟩ := ih hrun hok (hstep s e k hk he h) hturned
      exact ⟨e :: es₁, e', es₂, m, m', rfl, run_cons.2 ⟨k, hk, hrun₁⟩, hturn⟩

theorem along_of_forall : ∀ (es : List ε) (s : σ), (∀ e ∈ es, ∀ m, ok m e) → Along step ok es s
  | [], _, _ => trivial
  | e :: es, s, h => by
    refine ⟨h e (by simp) s, ?_⟩
    cases step s e with
    | none => trivial
    | some m => exact along_of_forall es m (fun e' he' => h e' (by simp [he']))

theorem of_run (hstep : ∀ s e s', step s e = some s' → I s → I s') (hr : run step es s = some s') (h : I s) : I s' :=
  invariant (C := fun _ _ => True) (fun s e s' hs _ => hstep s e s' hs) es s s' hr
    (along_of_forall es s fun _ _ _ => trivial) h

/-- **An invariant of the events so far and the state they lead to.** -/
theorem of_history {I : List ε → σ → Prop} (hr : run step es s = some s')
    (hstep : ∀ es m e m', run step es s = some m → step m e = some m' → I es m → I (es ++ [e]) m') (h : I [] s) :
    I es s' := by
  induction es using List.reverseRecOn generalizing s' with
  | nil => exact some.inj hr ▸ h
  | append_singleton es e ih =>
    obtain ⟨m, hm, hr⟩ := run_append.1 hr
    obtain ⟨m', hm', hr⟩ := run_cons.1 hr
    obtain rfl : m' = s' := some.inj hr
    exact hstep es m e m' hm hm' (ih hm)

theorem along_imp {D : σ → ε → Prop} (hstep : ∀ s e s', step s e = some s' → C s e → I s → I s')
    (himp : ∀ s e, I s → C s e → D s e) : ∀ (es : List ε) (s : σ), I s → Along step C es s → Along step D es s
  | [], _, _, _ => trivial
  | e :: es, s, hi, h => by
    refine ⟨himp s e hi h.1, ?_⟩
    cases hs : step s e with
    | none => trivial
    | some m =>
      obtain ⟨hc, h'⟩ := along_cons hs h
      exact along_imp hstep himp es m (hstep s e m hs hc hi) h'

theorem along_append : ∀ (es : List ε) (s m : σ), run step es s = some m →
    Along step ok (es ++ es') s → Along step ok es s ∧ Along step ok es' m
  | [], s, m, hr, h => ⟨trivial, some.inj hr ▸ h⟩
  | e :: es, s, m, hr, h => by
    obtain ⟨k, hk, hr'⟩ := run_cons.1 hr
    obtain ⟨hok, h'⟩ := along_cons hk h
    obtain ⟨h1, h2⟩ := along_append es k m hr' h'
    refine ⟨⟨hok, ?_⟩, h2⟩
    simp only [hk]
    exact h1

theorem along_and {P : ε → Prop} : ∀ (es : List ε) (s : σ), (∀ e ∈ es, P e) →
    Along step ok es s → Along step (fun s e => P e ∧ ok s e) es s
  | [], _, _, _ => trivial
  | e :: es, s, hP, h => by
    refine ⟨⟨hP e (by simp), h.1⟩, ?_⟩
    cases hs : step s e with
    | none => trivial
    | some m => exact along_and es m (fun e' he' => hP e' (by simp [he'])) (along_cons hs h).2

/-- **A fold succeeds if every step of it does**, after what was read before. -/
theorem foldlM_of_steps {α : Type} {f : σ → α → Option σ} {I : List α → σ → Prop}
    (hstep : ∀ read a s, I read s → ∃ s', f s a = some s' ∧ I (read ++ [a]) s') (h : I [] s) (l : List α) :
    ∃ s', l.foldlM f s = some s' ∧ I l s' := by
  induction l using List.reverseRecOn with
  | nil => exact ⟨s, rfl, h⟩
  | append_singleton l a ih =>
    obtain ⟨s₁, hs₁, h₁⟩ := ih
    obtain ⟨s₂, hs₂, h₂⟩ := hstep l a s₁ h₁
    exact ⟨s₂, by simp [List.foldlM_append, hs₁, hs₂], h₂⟩

theorem exists_run (step : σ → ε → Option σ) (es : List ε) (s : σ) (p : σ → Bool) (h : (run step es s).map p = some true) :
    ∃ s', run step es s = some s' ∧ p s' = true := by
  cases hr : run step es s with
  | none => simp [hr] at h
  | some s' => exact ⟨s', rfl, by simpa [hr] using h⟩

/-! ## Parties that move one at a time -/

section
variable {ι α : Type} [DecidableEq ι] {f : ι → α} {i j : ι} {a b : α}

theorem of_update (h : update f i a j = b) (hne : a ≠ b) : f j = b := by
  by_cases hji : j = i
  · subst hji
    rw [update_self] at h
    exact absurd h hne
  · rwa [update_of_ne hji] at h

theorem update_keep (h : f j = b) (hne : f i ≠ b) : update f i a j = b := by
  by_cases hji : j = i
  · subst hji
    exact absurd h hne
  · rw [update_of_ne hji, h]

end

end Runs
