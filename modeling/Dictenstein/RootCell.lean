import Dictenstein.Runs
/-!
# RootCell — calls that read a root and then replace it by compare-and-swap

A call observes the root, compares it with what it observed, appends a record, and then loads the root with its revision,
computes a new one and swaps it in.  The swap succeeds when the revision is still the current one, and otherwise the call
loads again; it does not observe again.  So a call is one step of the abstract state only when its observation still holds
where it takes effect (`explained`).  Behind the swap it appends the rank of its record: if that fails the call has failed,
and its effect stays. -/
namespace RootCell

open Function Runs List

inductive Verdict (σ : Type) where
  | go (new : σ)
  | finish
  | restart
  | fail

structure Call (σ O : Type) where
  observe : σ → O
  -- whether to go on, or to observe again
  probe : O → σ → Bool
  attempt : O → σ → Verdict σ

inductive Phase (σ O : Type) where
  | start
  | observed (o : O)
  | probed (o : O)
  | appended (o : O)
  | loaded (o : O) (new : σ) (revision : Nat)
  | swapped
  | returned
  | failed
  -- failed behind the swap
  | unranked

/-- The call has taken effect. -/
def Phase.effected {σ O : Type} : Phase σ O → Bool
  | .swapped | .returned | .unranked => true
  | _ => false

/-- The call is over. -/
def Phase.ended {σ O : Type} : Phase σ O → Bool
  | .returned | .failed | .unranked => true
  | _ => false

structure Cell (ι σ O : Type) where
  root : σ
  revision : Nat
  phase : ι → Phase σ O
  -- the calls that took effect, with what they had observed
  log : List (ι × O)

variable {ι σ O M : Type}

/-- The calls, each with what it observed, lead from one abstract state to the other. -/
def Explains (look : ι → M → O) (exec : ι → M → M) : M → List (ι × O) → M → Prop
  | m, [], m' => m = m'
  | m, (i, o) :: log, m' => look i m = o ∧ Explains look exec (exec i m) log m'

/-- Where a call takes effect `C` holds, and appends fail only if they may. -/
def Fresh (call : ι → Call σ O) (C : ι → O → σ → Bool) (fails : Bool) (s : Cell ι σ O) : ι × Bool → Bool
  | (i, appends) => (appends || fails) && match s.phase i with
    | .appended o => match (call i).attempt o s.root with
      | .finish => C i o s.root
      | _ => true
    | .loaded o _ revision => revision != s.revision || C i o s.root
    | _ => true

/-- What the call observed holds still. -/
def current [DecidableEq O] (call : ι → Call σ O) (i : ι) (o : O) (root : σ) : Bool := (call i).observe root = o

/-- What a call does to the root is what it does to the abstract state. -/
structure Meets (call : ι → Call σ O) (I : σ → Prop) (view : σ → M) (look : ι → M → O) (exec : ι → M → M)
    (C : ι → O → σ → Bool) : Prop where
  publish : ∀ {i o root new}, I root → C i o root = true → (call i).attempt o root = .go new →
    I new ∧ look i (view root) = o ∧ view new = exec i (view root)
  finish : ∀ {i o root}, I root → C i o root = true → (call i).attempt o root = .finish →
    look i (view root) = o ∧ exec i (view root) = view root
  total : ∀ {i o root}, I root → (call i).attempt o root ≠ .fail

structure Explained (call : ι → Call σ O) (I : σ → Prop) (view : σ → M) (look : ι → M → O) (exec : ι → M → M) (fails : Bool)
    (m : M) (s : Cell ι σ O) : Prop where
  inv : I s.root
  loaded : ∀ i o new revision, s.phase i = .loaded o new revision →
    revision ≤ s.revision ∧ (revision = s.revision → (call i).attempt o s.root = .go new)
  log : Explains look exec m s.log (view s.root)
  nodup : (s.log.map Prod.fst).Nodup
  effected : ∀ i, (s.phase i).effected = true ↔ i ∈ s.log.map Prod.fst
  failed : ∀ i, s.phase i = .failed ∨ s.phase i = .unranked → fails = true

variable {call : ι → Call σ O} {I : σ → Prop} {view : σ → M} {look : ι → M → O} {exec : ι → M → M}
  {C : ι → O → σ → Bool} {fails : Bool} {m m' : M} {s s' : Cell ι σ O} {i : ι} {o : O} {log : List (ι × O)}

theorem Explains.concat (h : Explains look exec m log m') (hlook : look i m' = o) :
    Explains look exec m (log ++ [(i, o)]) (exec i m') := by
  induction log generalizing m with
  | nil => exact ⟨h.symm ▸ hlook, congrArg (exec i) h⟩
  | cons e log ih => exact ⟨h.1, ih h.2⟩

theorem Explains.eq_foldl (h : Explains look exec m log m') : m' = log.foldl (fun m e => exec e.1 m) m := by
  induction log generalizing m with
  | nil => exact h.symm
  | cons e log ih => exact ih h.2

theorem Explains.map {O' : Type} (f : O → O') (h : Explains look exec m log m') :
    Explains (fun i m => f (look i m)) exec m (log.map fun e => (e.1, f e.2)) m' := by
  induction log generalizing m with
  | nil => exact h
  | cons e log ih => exact ⟨congrArg f h.1, ih h.2⟩

theorem meets_of_go [DecidableEq O] (hlook : ∀ i root, I root → (call i).observe root = look i (view root))
    (hgo : ∀ i o root, I root → ∃ new, (call i).attempt o root = .go new ∧ I new ∧
      (look i (view root) = o → view new = exec i (view root))) : Meets call I view look exec (current call) := by
  refine ⟨fun {i o root new} hroot ho hnew => ?_, fun {i o root} hroot _ hfinish => ?_, fun {i o root} hroot hfail => ?_⟩
  all_goals obtain ⟨new', hgo, hinv, hview⟩ := hgo i o root hroot
  · cases hgo.symm.trans hnew
    have ho : look i (view root) = o := (hlook i root hroot).symm.trans (of_decide_eq_true ho)
    exact ⟨hinv, ho, hview ho⟩
  · cases hgo.symm.trans hfinish
  · cases hgo.symm.trans hfail

/-- Where no append fails, a call that is over has taken effect. -/
theorem Explained.ended (h : Explained call I view look exec false m s) {i : ι} (hi : (s.phase i).ended = true) :
    i ∈ s.log.map Prod.fst := by
  rw [← h.effected]
  have hfailed := h.failed i
  cases hphase : s.phase i <;> simp_all [Phase.ended, Phase.effected]

variable [DecidableEq ι]

def start (root : σ) : Cell ι σ O := ⟨root, 0, fun _ => .start, []⟩

def Cell.set (s : Cell ι σ O) (i : ι) (p : Phase σ O) : Cell ι σ O := { s with phase := update s.phase i p }

def Cell.effect (s : Cell ι σ O) (i : ι) (o : O) (root : σ) (revision : Nat) (p : Phase σ O) : Cell ι σ O :=
  ⟨root, revision, update s.phase i p, s.log ++ [(i, o)]⟩

/-- One step of a call; the flag of the event says whether an append succeeds. -/
def step? (call : ι → Call σ O) (s : Cell ι σ O) : ι × Bool → Option (Cell ι σ O)
  | (i, appends) => match s.phase i with
    | .start => some (s.set i (.observed ((call i).observe s.root)))
    | .observed o => some (s.set i (if (call i).probe o s.root then .probed o else .start))
    | .probed o => some (s.set i (if appends then .appended o else .failed))
    | .appended o => match (call i).attempt o s.root with
      | .go new => some (s.set i (.loaded o new s.revision))
      | .finish => some (s.effect i o s.root s.revision .returned)
      | .restart => some (s.set i .start)
      | .fail => some (s.set i .failed)
    | .loaded o new revision =>
      if revision = s.revision then some (s.effect i o new (s.revision + 1) .swapped) else some (s.set i (.appended o))
    | .swapped => some (s.set i (if appends then .returned else .unranked))
    | .returned | .failed | .unranked => none

theorem Explained.set {p : Phase σ O} (h : Explained call I view look exec fails m s)
    (hp : p.effected = (s.phase i).effected) (hfailed : p = .failed ∨ p = .unranked → fails = true)
    (hloaded : ∀ o new revision, p = .loaded o new revision →
      revision ≤ s.revision ∧ (revision = s.revision → (call i).attempt o s.root = .go new)) :
    Explained call I view look exec fails m (s.set i p) := by
  refine ⟨h.inv, fun j o new revision hj => ?_, h.log, h.nodup, fun j => ?_, fun j hj => ?_⟩
  all_goals by_cases hji : j = i
  · subst hji
    exact hloaded o new revision (by simpa [Cell.set] using hj)
  · exact h.loaded j o new revision (by simpa [Cell.set, hji] using hj)
  · subst hji
    simpa [Cell.set, hp] using h.effected j
  · simpa [Cell.set, hji] using h.effected j
  · subst hji
    exact hfailed (by simpa [Cell.set] using hj)
  · exact h.failed j (by simpa [Cell.set, hji] using hj)

theorem Explained.effect {root : σ} {revision : Nat} {p : Phase σ O} (h : Explained call I view look exec fails m s)
    (hi : (s.phase i).effected = false) (hinv : I root) (hlook : look i (view s.root) = o)
    (hview : view root = exec i (view s.root)) (hp : p = .swapped ∨ p = .returned)
    (hrevision : root = s.root ∧ revision = s.revision ∨ revision = s.revision + 1) :
    Explained call I view look exec fails m (s.effect i o root revision p) := by
  have heffected : p.effected = true := by rcases hp with rfl | rfl <;> rfl
  refine ⟨hinv, fun j o' new revision' hj => ?_, ?_, ?_, fun j => ?_, fun j hj => ?_⟩
  · by_cases hji : j = i
    · rcases hp with rfl | rfl <;> simp [Cell.effect, hji] at hj
    · have hold := h.loaded j o' new revision' (by simpa [Cell.effect, hji] using hj)
      rcases hrevision with ⟨rfl, rfl⟩ | rfl
      · exact hold
      · exact ⟨Nat.le_succ_of_le hold.1, fun heq => absurd (heq ▸ hold.1) (Nat.not_succ_le_self _)⟩
  · exact hview ▸ h.log.concat hlook
  · have hnew : i ∉ s.log.map Prod.fst := fun hmem => by
      rw [← h.effected, hi] at hmem
      cases hmem
    simpa [Cell.effect, nodup_append, h.nodup] using fun j o hmem heq => hnew (mem_map.2 ⟨(j, o), hmem, heq⟩)
  · by_cases hji : j = i
    · simp [Cell.effect, hji, heffected]
    · simpa [Cell.effect, hji] using h.effected j
  · by_cases hji : j = i
    · rcases hp with rfl | rfl <;> simp [Cell.effect, hji] at hj
    · exact h.failed j (by simpa [Cell.effect, hji] using hj)

theorem explained_step (hm : Meets call I view look exec C) (s : Cell ι σ O) (e : ι × Bool) (s' : Cell ι σ O)
    (hstep : step? call s e = some s') (hfresh : Fresh call C fails s e = true)
    (h : Explained call I view look exec fails m s) :
    Explained call I view look exec fails m s' := by
  obtain ⟨i, appends⟩ := e
  rw [Fresh, Bool.and_eq_true] at hfresh
  obtain ⟨happends, hfresh⟩ := hfresh
  unfold step? at hstep
  cases hphase : s.phase i with simp only [hphase] at hstep hfresh
  | start =>
    cases hstep
    exact h.set (by rw [hphase]; rfl) (by simp) (by simp)
  | observed o =>
    cases hstep
    split <;> exact h.set (by rw [hphase]; rfl) (by simp) (by simp)
  | probed o =>
    cases hstep
    cases appends with
    | true => exact h.set (by rw [hphase]; rfl) (by simp) (by simp)
    | false => exact h.set (by rw [hphase]; rfl) (fun _ => by simpa using happends) (by simp)
  | appended o =>
    cases hattempt : (call i).attempt o s.root with simp only [hattempt] at hstep hfresh
    | go new =>
      cases hstep
      refine h.set (by rw [hphase]; rfl) (by simp) ?_
      rintro _ _ _ ⟨⟩
      exact ⟨Nat.le_refl _, fun _ => hattempt⟩
    | finish =>
      cases hstep
      obtain ⟨hlook, hexec⟩ := hm.finish h.inv hfresh hattempt
      exact h.effect (by rw [hphase]; rfl) h.inv hlook hexec.symm (.inr rfl) (.inl ⟨rfl, rfl⟩)
    | restart =>
      cases hstep
      exact h.set (by rw [hphase]; rfl) (by simp) (by simp)
    | fail => exact absurd hattempt (hm.total h.inv)
  | loaded o new revision =>
    split at hstep
    · cases hstep
      rename_i heq
      obtain ⟨hinv, hlook, hview⟩ :=
        hm.publish h.inv (by simpa [heq] using hfresh) ((h.loaded i o new revision hphase).2 heq)
      exact h.effect (by rw [hphase]; rfl) hinv hlook hview (.inl rfl) (.inr rfl)
    · cases hstep
      exact h.set (by rw [hphase]; rfl) (by simp) (by simp)
  | swapped =>
    cases hstep
    cases appends with
    | true => exact h.set (by rw [hphase]; rfl) (by simp) (by simp)
    | false => exact h.set (by rw [hphase]; rfl) (fun _ => by simpa using happends) (by simp)
  | _ => cases hstep

/-- **Calls whose observations hold where they take effect are executed one at a time**, in the order of their effects. -/
theorem explained (hm : Meets call I view look exec C) {root : σ} (hroot : I root) {es : List (ι × Bool)}
    (hrun : run (step? call) es (start root) = some s)
    (hfresh : Along (step? call) (fun s e => Fresh call C fails s e = true) es (start root)) :
    Explained call I view look exec fails (view root) s :=
  invariant (explained_step hm) es _ s hrun hfresh
    ⟨hroot, by simp [start], rfl, .nil, fun _ => iff_of_false Bool.false_ne_true not_mem_nil, by simp [start]⟩

/-! ## The order of the calls -/

theorem log_step {e : ι × Bool} (hstep : step? call s e = some s') : s.log <+: s'.log := by
  obtain ⟨i, appends⟩ := e
  unfold step? at hstep
  cases hphase : s.phase i with simp only [hphase] at hstep
  | appended o =>
    cases hattempt : (call i).attempt o s.root with simp only [hattempt] at hstep
    | finish =>
      cases hstep
      exact prefix_append ..
    | _ =>
      cases hstep
      exact prefix_rfl
  | loaded o new revision =>
    split at hstep <;> cases hstep
    · exact prefix_append ..
    · exact prefix_rfl
  | returned | failed | unranked => cases hstep
  | _ =>
    cases hstep
    exact prefix_rfl

/-- **Calls that do not overlap take effect in their order**: one that has taken effect is logged before every call that
takes effect later. -/
theorem Explained.order_of_calls (h : Explained call I view look exec fails m s) {es : List (ι × Bool)}
    (hrun : run (step? call) es s = some s') {j : ι} (hi : (s.phase i).effected = true) (hj : (s.phase j).effected = false)
    (hmem : j ∈ s'.log.map Prod.fst) : ∃ l₁ l₂ l₃, s'.log.map Prod.fst = l₁ ++ i :: l₂ ++ j :: l₃ := by
  obtain ⟨more, hmore⟩ : s.log <+: s'.log :=
    of_run (I := fun m => s.log <+: m.log) (fun _ _ _ hs h => h.trans (log_step hs)) hrun prefix_rfl
  obtain ⟨l₁, l₂, hlog⟩ := append_of_mem ((h.effected i).1 hi)
  rw [← hmore, map_append] at hmem ⊢
  obtain hold | hnew := mem_append.1 hmem
  · rw [← h.effected, hj] at hold
    cases hold
  · obtain ⟨l₃, l₄, hl⟩ := append_of_mem hnew
    exact ⟨l₁, l₂ ++ l₃, l₄, by rw [hlog, hl]; simp⟩

end RootCell
