import Dictenstein.WalWriter
/-!
# WalFrontier — the contiguous durable frontier keeps up with the LSNs handed out

A lock-free append returns once `segment_durable_lsn` has reached its LSN, so every LSN that is handed out must at some
time be marked.

Steps that hand out LSNs nobody marks are outside of it: the buffered `append` and `checkpoint`, whose durability comes
from `sync`, and a `set_min_lsn` that skips LSNs (`KeepsFrontier`).  So is a reservation while a rotation is between its
load of `next_lsn` and its store, which would hand the LSN out again.
-/
namespace Dictenstein.Wal

open Runs Function WalState

/-- How far a call's LSN has come: no append, reserved and not marked yet, or marked. -/
inductive Stage where
  | out
  | unmarked (lsn : Nat)
  | waiting (lsn : Nat)
deriving DecidableEq

def Call.stage : Call → Stage
  | .reserved lsn _ => .unmarked lsn
  | .placed p | .written p | .fsynced p => .unmarked p.lsn
  | .waiting p => .waiting p.lsn
  | _ => .out

namespace WalState

variable (s : WalState)

def stages (t : Nat) : Stage := (s.calls t).stage

def NoAppend : Prop := ∀ t, s.stages t = .out

theorem stages_setCall (t : Nat) (c : Call) : (s.setCall t c).stages = update s.stages t c.stage := by
  funext u
  by_cases h : u = t
  · subst h; simp [stages, setCall]
  · simp [stages, setCall, h]

theorem stages_setCall_of_eq {s : WalState} {t : Nat} {c : Call} (h : c.stage = s.stages t) :
    (s.setCall t c).stages = s.stages := by
  rw [stages_setCall, h, update_eq_self]

end WalState

structure FrontierInv (next : Nat) (f : Frontier) (failed : Option Nat) (stages : Nat → Stage) : Prop where
  covered_lt : ∀ n, f.Covered n → n < next
  unmarked_lt : ∀ t n, stages t = .unmarked n → n < next
  waiting_covered : ∀ t n, stages t = .waiting n → f.Covered n
  accounted : failed = none → ∀ n < next, f.Covered n ∨ ∃ t, stages t = .unmarked n
  waits : failed = none → ∀ n ∈ f.pending, f.cur < n → ∃ t, stages t = .waiting n
  settled : failed = none → f.cur + 1 ∈ f.pending → ∃ t n, stages t = .unmarked n ∧ n ≤ f.cur

namespace FrontierInv

variable {next : Nat} {f : Frontier} {failed : Option Nat} {stages : Nat → Stage}

theorem start (n : Nat) (hs : ∀ t, stages t = .out) : FrontierInv (n + 1) ⟨n, ∅⟩ none stages where
  covered_lt m hm := by simp only [Frontier.Covered, Finset.notMem_empty, or_false] at hm; omega
  unmarked_lt t m h := by rw [hs t] at h; cases h
  waiting_covered t m h := by rw [hs t] at h; cases h
  accounted _ m hm := .inl (.inl (by simp only; omega))
  waits _ m hm := absurd hm (Finset.notMem_empty m)
  settled _ hm := absurd hm (Finset.notMem_empty _)

section
variable (h : FrontierInv next f failed stages)
include h

variable {t lsn : Nat}

theorem reserve (ht : stages t = .out) : FrontierInv (next + 1) f failed (update stages t (.unmarked next)) := by
  constructor
  · intro n hn
    have := h.covered_lt n hn
    omega
  · intro u n hu
    by_cases hn : n = next
    · omega
    · have := h.unmarked_lt u n (of_update hu (fun he => hn (Stage.unmarked.inj he).symm))
      omega
  · intro u n hu
    exact h.waiting_covered u n (of_update hu (by simp))
  · intro hf n hn
    by_cases hnn : n = next
    · exact .inr ⟨t, by rw [update_self, hnn]⟩
    · rcases h.accounted hf n (by omega) with hc | ⟨u, hu⟩
      · exact .inl hc
      · exact .inr ⟨u, update_keep hu (by simp [ht])⟩
  · intro hf n hn hlt
    obtain ⟨u, hu⟩ := h.waits hf n hn hlt
    exact ⟨u, update_keep hu (by simp [ht])⟩
  · intro hf hm
    obtain ⟨u, n, hu, hn⟩ := h.settled hf hm
    exact ⟨u, n, update_keep hu (by simp [ht]), hn⟩

theorem fail (t lsn : Nat) : FrontierInv next f (some lsn) (update stages t .out) where
  covered_lt := h.covered_lt
  unmarked_lt u n hu := h.unmarked_lt u n (of_update hu (by simp))
  waiting_covered u n hu := h.waiting_covered u n (of_update hu (by simp))
  accounted hf := absurd hf (by simp)
  waits hf := absurd hf (by simp)
  settled hf := absurd hf (by simp)

theorem mark (ht : stages t = .unmarked lsn) : FrontierInv next (f.mark lsn) failed (update stages t (.waiting lsn)) := by
  constructor
  · intro n hn
    rcases (Frontier.covered_mark lsn f n).1 hn with rfl | hn
    · exact h.unmarked_lt t n ht
    · exact h.covered_lt n hn
  · intro u n hu
    exact h.unmarked_lt u n (of_update hu (by simp))
  · intro u n hu
    rw [Frontier.covered_mark]
    by_cases hn : n = lsn
    · exact .inl hn
    · exact .inr (h.waiting_covered u n (of_update hu (fun he => hn (Stage.waiting.inj he).symm)))
  · intro hf n hn
    rw [Frontier.covered_mark]
    by_cases hnl : n = lsn
    · exact .inl (.inl hnl)
    · rcases h.accounted hf n hn with hc | ⟨u, hu⟩
      · exact .inl (.inr hc)
      · exact .inr ⟨u, update_keep hu (by simp [ht, Ne.symm hnl])⟩
  · intro hf n hn hlt
    have hcur := Frontier.cur_le_mark lsn f
    rcases Frontier.mem_pending_mark hn with rfl | hn
    · exact ⟨t, update_self ..⟩
    · obtain ⟨u, hu⟩ := h.waits hf n hn (by omega)
      exact ⟨u, update_keep hu (by simp [ht])⟩
  · intro _ hm
    exact absurd hm (Frontier.settled_mark lsn f)

theorem leave (ht : stages t = .waiting lsn)
    (hdone : lsn ≤ f.cur ∨ failed ≠ none) : FrontierInv next f failed (update stages t .out) := by
  constructor
  · exact h.covered_lt
  · intro u n hu
    exact h.unmarked_lt u n (of_update hu (by simp))
  · intro u n hu
    exact h.waiting_covered u n (of_update hu (by simp))
  · intro hf n hn
    rcases h.accounted hf n hn with hc | ⟨u, hu⟩
    · exact .inl hc
    · exact .inr ⟨u, update_keep hu (by simp [ht])⟩
  · intro hf n hn hlt
    obtain ⟨u, hu⟩ := h.waits hf n hn hlt
    refine ⟨u, update_keep hu ?_⟩
    have hreached := hdone.resolve_right (fun hne => hne hf)
    rw [ht]
    intro he
    have := Stage.waiting.inj he
    omega
  · intro hf hm
    obtain ⟨u, n, hu, hn⟩ := h.settled hf hm
    exact ⟨u, n, update_keep hu (by simp [ht]), hn⟩

theorem raise {m : Nat} (hm : m < next) : FrontierInv next ⟨max f.cur m, f.pending⟩ failed stages := by
  constructor
  · rintro n (hn | hn)
    · have := h.covered_lt f.cur (.inl le_rfl)
      simp only at hn
      omega
    · exact h.covered_lt n (.inr hn)
  · exact h.unmarked_lt
  · intro t n ht
    rcases h.waiting_covered t n ht with hn | hn
    · exact .inl (by simp only; omega)
    · exact .inr hn
  · intro hf n hn
    rcases h.accounted hf n hn with (hc | hc) | hu
    · exact .inl (.inl (by simp only; omega))
    · exact .inl (.inr hc)
    · exact .inr hu
  · intro hf n hn hlt
    exact h.waits hf n hn (by simp only at hlt; omega)
  · intro hf hmem
    simp only at hmem ⊢
    by_cases hle : m ≤ f.cur
    · rw [Nat.max_eq_left hle] at hmem ⊢
      exact h.settled hf hmem
    · by_cases hs : f.cur + 1 ∈ f.pending
      · obtain ⟨t, n, ht, hn⟩ := h.settled hf hs
        exact ⟨t, n, ht, by omega⟩
      · rcases h.accounted hf (f.cur + 1) (by omega) with (hc | hc) | ⟨t, ht⟩
        · omega
        · exact absurd hc hs
        · exact ⟨t, f.cur + 1, ht, by omega⟩

/-- **With nothing in flight and nothing failed the frontier is at the last LSN handed out.** -/
theorem cur_add_one_eq (hs : ∀ t, stages t = .out) (hf : failed = none) : f.cur + 1 = next := by
  have hlt := h.covered_lt f.cur (.inl le_rfl)
  by_contra hne
  rcases h.accounted hf (f.cur + 1) (by omega) with (hc | hc) | ⟨t, ht⟩
  · omega
  · obtain ⟨t, ht⟩ := h.waits hf (f.cur + 1) hc (by omega)
    rw [hs t] at ht
    cases ht
  · rw [hs t] at ht
    cases ht

/-- **A marked LSN below which nobody is still to mark has been reached.** -/
theorem le_cur_of_waiting (hf : failed = none)
    (ht : stages t = .waiting lsn) (hmin : ∀ u n, stages u = .unmarked n → lsn ≤ n) : lsn ≤ f.cur := by
  have hcov := h.waiting_covered t lsn ht
  have hlt := h.covered_lt lsn hcov
  by_contra hgt
  have hpend : f.cur + 1 ∈ f.pending := by
    rcases h.accounted hf (f.cur + 1) (by omega) with (hc | hc) | ⟨u, hu⟩
    · omega
    · exact hc
    · have hle := hmin u _ hu
      rw [show f.cur + 1 = lsn by omega]
      exact hcov.resolve_left hgt
  obtain ⟨u, n, hu, hn⟩ := h.settled hf hpend
  have := hmin u n hu
  omega

end

end FrontierInv

/-! ## The writer's runs -/

namespace WalState

def Tracks (s : WalState) : Prop :=
  FrontierInv s.writer.nextLsn s.writer.segmentDurable s.writer.segmentFailedLsn s.stages ∧
    ∀ t n m, s.calls t = .rotating n m → n = s.writer.nextLsn

def NoRotation (s : WalState) : Prop := ∀ t n m, s.calls t ≠ .rotating n m

/-- The steps that leave no LSN behind that nobody marks, and lose none. -/
def KeepsFrontier (s : WalState) : WalEvent → Prop
  | .append _ | .checkpoint .. => False
  | .reserve .. => s.NoRotation
  | .setMinLsn minLsn => minLsn ≤ s.writer.nextLsn
  | .setMinSyncedLsn minLsn => minLsn < s.writer.nextLsn
  | .truncate => s.NoAppend ∧ s.NoRotation
  | _ => True

/-- A caller moves, and a rotation begins with the present counter or not at all. -/
theorem rotating_setCall {s s₁ : WalState} {t : Nat} {c : Call}
    (h : ∀ t n m, s.calls t = .rotating n m → n = s.writer.nextLsn)
    (hcalls : s₁.calls = s.calls) (hnext : s₁.writer.nextLsn = s.writer.nextLsn)
    (hc : ∀ n m, c = .rotating n m → n = s.writer.nextLsn) (u n m : Nat) (hu : (s₁.setCall t c).calls u = .rotating n m) :
    n = (s₁.setCall t c).writer.nextLsn := by
  show n = s₁.writer.nextLsn
  change update s₁.calls t c u = .rotating n m at hu
  rw [hnext]
  by_cases hut : u = t
  · subst hut
    exact hc n m (by rwa [update_self] at hu)
  · exact h u n m (by rwa [update_of_ne hut, hcalls] at hu)

theorem tracks_step (s : WalState) (e : WalEvent) (s' : WalState) (hstep : s.step? e = some s')
    (hok : s.KeepsFrontier e) (h : s.Tracks) : s'.Tracks := by
  obtain ⟨h, hrot⟩ := h
  -- a step that touches neither the three counters nor a stage
  have hsame : ∀ (s₁ : WalState) (t : Nat) (c : Call), s₁.calls = s.calls → s₁.writer.nextLsn = s.writer.nextLsn →
      s₁.writer.segmentDurable = s.writer.segmentDurable → s₁.writer.segmentFailedLsn = s.writer.segmentFailedLsn →
      c.stage = s.stages t → (∀ n m, c = .rotating n m → n = s.writer.nextLsn) → (s₁.setCall t c).Tracks := by
    intro s₁ t c h₁ h₂ h₃ h₄ h₅ h₆
    refine ⟨?_, rotating_setCall hrot h₁ h₂ h₆⟩
    have hst : s₁.stages = s.stages := funext fun u => by rw [stages, h₁]; rfl
    rw [stages_setCall_of_eq (by rw [hst, h₅]), hst]
    show FrontierInv s₁.writer.nextLsn s₁.writer.segmentDurable s₁.writer.segmentFailedLsn s.stages
    rwa [h₂, h₃, h₄]
  cases e with
  | reserve t r =>
    obtain ⟨ht, rfl⟩ := step_reserve.1 hstep
    refine ⟨?_, fun u n m hu => ?_⟩
    · rw [stages_setCall]
      exact h.reserve (by simp [stages, ht, Call.stage])
    · exact absurd (of_update hu (by simp)) (hok u n m)
  | place t =>
    obtain ⟨lsn, r, ht, rfl⟩ := step_place.1 hstep
    exact hsame _ t _ rfl rfl rfl rfl (by simp [stages, ht, Call.stage]) (by simp)
  | write t =>
    obtain ⟨p, ht, rfl⟩ := step_write.1 hstep
    exact hsame _ t _ rfl rfl rfl rfl (by simp [stages, ht, Call.stage]) (by simp)
  | fsync t =>
    obtain ⟨p, ht, rfl⟩ := step_fsync.1 hstep
    exact hsame s t _ rfl rfl rfl rfl (by simp [stages, ht, Call.stage]) (by simp)
  | fail t =>
    obtain ⟨p, -, rfl⟩ := step_fail.1 hstep
    refine ⟨?_, rotating_setCall hrot rfl rfl (by simp)⟩
    rw [stages_setCall]
    exact h.fail t _
  | mark t =>
    obtain ⟨p, ht, rfl⟩ := step_mark.1 hstep
    refine ⟨?_, rotating_setCall hrot rfl rfl (by simp)⟩
    rw [stages_setCall]
    exact h.mark (by simp [stages, ht, Call.stage])
  | poll t =>
    obtain ⟨p, ht, hcase⟩ := step_poll.1 hstep
    have hst : s.stages t = .waiting p.lsn := by simp [stages, ht, Call.stage]
    have hidle : ∀ u n m, (s.setCall t .idle).calls u = .rotating n m → n = (s.setCall t .idle).writer.nextLsn :=
      rotating_setCall hrot rfl rfl (by simp)
    rcases hcase with ⟨hp, rfl⟩ | ⟨hp, rfl⟩ | ⟨-, rfl⟩
    · refine ⟨?_, hidle⟩
      show FrontierInv _ _ _ (s.setCall t .idle).stages
      rw [stages_setCall]
      exact h.leave hst (.inl (WalWriter.pollDurable_eq_true.1 hp))
    · refine ⟨?_, hidle⟩
      rw [stages_setCall]
      exact h.leave hst (.inr (WalWriter.failed_of_pollDurable hp))
    · exact ⟨h, hrot⟩
  | syncLoad t =>
    obtain ⟨ht, -, rfl⟩ := step_syncLoad.1 hstep
    exact hsame _ t _ rfl rfl rfl rfl (by simp [stages, ht, Call.stage]) (by simp)
  | syncStore t =>
    obtain ⟨v, ht, rfl⟩ := step_syncStore.1 hstep
    exact hsame _ t _ rfl rfl rfl rfl (by simp [stages, ht, Call.stage]) (by simp)
  | segmentsLoad t =>
    obtain ⟨ht, rfl⟩ := step_segmentsLoad.1 hstep
    exact hsame _ t _ rfl rfl rfl rfl (by simp [stages, ht, Call.stage]) (by simp)
  | segmentsStore t =>
    obtain ⟨v, ht, rfl⟩ := step_segmentsStore.1 hstep
    exact hsame _ t _ rfl rfl rfl rfl (by simp [stages, ht, Call.stage]) (by simp)
  | append r => exact hok.elim
  | setMinLsn m =>
    cases hstep
    have hnext : (s.writer.setMinLsn m).nextLsn = s.writer.nextLsn := Nat.max_eq_left hok
    refine ⟨?_, fun t n k ht => (hrot t n k ht).trans hnext.symm⟩
    show FrontierInv (s.writer.setMinLsn m).nextLsn _ _ _
    rwa [hnext]
  | setMinSyncedLsn m =>
    cases hstep
    exact ⟨FrontierInv.raise h hok, hrot⟩
  | checkpoint c ts => exact hok.elim
  | truncate =>
    obtain ⟨-, rfl⟩ := step_truncate.1 hstep
    exact ⟨FrontierInv.start 0 hok.1, fun t n m ht => absurd ht (hok.2 t n m)⟩
  | rotateLoad t =>
    obtain ⟨ht, rfl⟩ := step_rotateLoad.1 hstep
    exact hsame s t _ rfl rfl rfl rfl (by simp [stages, ht, Call.stage]) (by rintro n m ⟨⟩; rfl)
  | rotateStore t =>
    obtain ⟨n, m, ht, -, rfl⟩ := step_rotateStore.1 hstep
    -- nothing was reserved since the load, so the store changes nothing
    exact hsame _ t _ rfl (hrot t n m ht) rfl rfl (by simp [stages, ht, Call.stage]) (by simp)

end WalState

theorem tracks_start {w : WalWriter} (hw : w.Opened) : (start w).Tracks := by
  refine ⟨?_, fun t n m ht => by cases ht⟩
  rcases hw with rfl | ⟨header, body, m, rfl⟩
  · exact FrontierInv.start 0 (fun _ => rfl)
  · exact FrontierInv.start _ (fun _ => rfl)

/-- **The frontier keeps up**: in every state reached by lock-free appends and the lifecycle operations, the durable LSN is
`next_lsn - 1` once no append is in flight, if no positional write has failed; and an append that has marked its LSN finds
it durable, unless one with a smaller LSN has still to mark. -/
theorem segmentDurable_keeps_up (w : WalWriter) (hw : w.Opened) (es : List WalEvent) (s : WalState)
    (hrun : run step? es (start w) = some s)
    (hok : Along step? WalState.KeepsFrontier es (start w))
    (hfail : s.writer.segmentFailedLsn = none) :
    (s.NoAppend → s.writer.segmentDurable.cur = s.writer.nextLsn - 1) ∧
      ∀ t p, s.calls t = .waiting p → (∀ u n, s.stages u = .unmarked n → p.lsn ≤ n) →
        s.writer.pollDurable p.lsn = some true := by
  have h : s.Tracks := invariant tracks_step es _ s hrun hok (tracks_start hw)
  constructor
  · intro hno
    have := h.1.cur_add_one_eq hno hfail
    omega
  · intro t p ht hmin
    have hst : s.stages t = .waiting p.lsn := by simp [stages, ht, Call.stage]
    exact WalWriter.pollDurable_eq_true.2 (h.1.le_cur_of_waiting hfail hst hmin)

/-- A buffered append hands out LSN 1 and leaves the frontier where it was. -/
theorem segmentDurable_behind_append : ∃ s, run step? [.append (.beginTx 7)] (start .create) = some s ∧ s.NoAppend ∧
      s.writer.segmentFailedLsn = none ∧ s.writer.segmentDurable.cur ≠ s.writer.nextLsn - 1 :=
  ⟨_, rfl, fun _ => rfl, rfl, by decide⟩

/-- Two concurrent appends, the second of them first to mark, and a rotation that begins while both are in flight. -/
def rotateAmongAppends : List WalEvent :=
  [.reserve 0 (.beginTx 7), .reserve 1 (.commitTx 7), .place 1, .place 0, .write 1, .fsync 1, .syncLoad 2, .syncStore 2,
    .rotateLoad 2, .mark 1, .poll 1, .write 0, .fsync 0, .rotateStore 2, .mark 0, .poll 1, .poll 0]

theorem segmentDurable_keeps_up_two : ∃ s, run step? rotateAmongAppends (start .create) = some s ∧ s.NoAppend ∧
    s.writer.nextLsn = 3 ∧ s.writer.segmentDurable.cur = s.writer.nextLsn - 1 := by
  obtain ⟨s, hs, hp⟩ := exists_run step? rotateAmongAppends (start .create) (fun s => s.calls 0 == .idle &&
    s.calls 1 == .idle && s.calls 2 == .idle && s.writer.nextLsn == 3 && s.writer.segmentFailedLsn == none)
      (by decide +kernel)
  simp only [Bool.and_eq_true, beq_iff_eq] at hp
  obtain ⟨⟨⟨⟨h0, h1⟩, h2⟩, hnext⟩, hf⟩ := hp
  have hno : s.NoAppend := by
    rintro (_ | _ | _ | t)
    · simp [stages, h0, Call.stage]
    · simp [stages, h1, Call.stage]
    · simp [stages, h2, Call.stage]
    · have ht : s.calls (t + 3) = .idle := run_calls_of_caller_ne hs (by simp [rotateAmongAppends, WalEvent.caller])
      simp [stages, ht, Call.stage]
  have hok : Along step? WalState.KeepsFrontier rotateAmongAppends (start .create) := by
    refine And.intro (fun t n m ht => by cases ht) (And.intro (fun t n m ht => ?_) ?_)
    · cases of_update (f := fun _ => Call.idle) ht (by simp)
    · exact along_of_forall _ _ (by simp [WalState.KeepsFrontier])
  exact ⟨s, hs, hno, hnext, (segmentDurable_keeps_up .create (.inl rfl) _ s hs hok hf).1 hno⟩

end Dictenstein.Wal
