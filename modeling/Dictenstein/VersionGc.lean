import Mathlib.Data.List.Infix
import Dictenstein.Runs
/-!
# VersionGc — reader guards and the collection of versions

A guard adds one to the entry of its version and takes one off when it is dropped; the drop that leaves zero removes the
entry, in a step of its own.  A cycle goes through the candidates under their lock and collects those without readers.  Both
go wrong if a guard is created between the two steps of a drop, and only then.  The counts are natural numbers, the nodes of
a candidate only feed the statistics. -/
namespace Dictenstein.VersionGc

open Runs Function

structure GcConfig where
  gracePeriod : Nat
  maxGcPerCycle : Nat
  minRetainedVersions : Nat

structure GcCandidate where
  versionId : Nat
  eligibleSince : Nat

/-- The entry of a version, with its live guards and the drops that have not removed the entry yet. -/
structure Version where
  activeReaders : Option Nat := none
  guards : Nat := 0
  removals : Nat := 0

inductive ReaderStep
  | addReader
  | decrement
  | remove

namespace Version

variable (x : Version)

def readerCount : Nat := x.activeReaders.getD 0

def hasReaders : Bool := 0 < x.readerCount

def step : ReaderStep → Option Version
  | .addReader => some { x with activeReaders := some (x.activeReaders.elim 1 (· + 1)), guards := x.guards + 1 }
  | .decrement =>
    if x.guards = 0 then none
    else match x.activeReaders with
      | none => some { x with guards := x.guards - 1 }
      | some count => some ⟨some (count - 1), x.guards - 1, if count - 1 = 0 then x.removals + 1 else x.removals⟩
  | .remove => if x.removals = 0 then none else some { x with activeReaders := none, removals := x.removals - 1 }

end Version

structure Cycle where
  now : Nat
  maxGcForRetention : Nat
  gcCount : Nat := 0
  remaining : List GcCandidate := []
  collected : List Nat := []

/-- `waiting` cycles have read the counter and wait for the candidates' lock, `finishing` ones have put back the rest. -/
structure VersionGcRegistry where
  versions : Nat → Version := fun _ => {}
  gcCandidates : List GcCandidate := []
  modificationsSinceGc : Nat := 0
  waiting : Nat := 0
  cycle : Option Cycle := none
  finishing : Nat := 0

inductive Event
  | reader (version : Nat) (step : ReaderStep)
  | addGcCandidate (candidate : GcCandidate)
  | clearCandidates
  | recordModification
  | load
  | lock (now : Nat)
  | check
  | unlock
  | store

def VersionGcRegistry.collected (r : VersionGcRegistry) : List Nat := r.cycle.elim [] (·.collected)

variable (config : GcConfig)

def step (r : VersionGcRegistry) : Event → Option VersionGcRegistry
  | .reader v a => ((r.versions v).step a).map fun x => { r with versions := update r.versions v x }
  | .addGcCandidate candidate => if r.cycle.isSome then none
      else some { r with gcCandidates := r.gcCandidates ++ [candidate] }
  | .clearCandidates => if r.cycle.isSome then none else some { r with gcCandidates := [] }
  | .recordModification => some { r with modificationsSinceGc := r.modificationsSinceGc + 1 }
  | .load => some (if r.modificationsSinceGc = 0 then r else { r with waiting := r.waiting + 1 })
  | .lock now =>
    if r.waiting = 0 ∨ r.cycle.isSome then none
    else if r.gcCandidates.length ≤ config.minRetainedVersions then some { r with waiting := r.waiting - 1 }
    else some
      { r with waiting := r.waiting - 1, cycle := some ⟨now, r.gcCandidates.length - config.minRetainedVersions, 0, [], []⟩ }
  | .check => match r.cycle, r.gcCandidates with
    | some c, candidate :: rest =>
      if config.maxGcPerCycle ≤ c.gcCount ∨ c.maxGcForRetention ≤ c.gcCount ∨
        c.now - candidate.eligibleSince < config.gracePeriod ∨
          (r.versions candidate.versionId).hasReaders then
        some { r with gcCandidates := rest, cycle := some { c with remaining := c.remaining ++ [candidate] } }
      else some { r with
        gcCandidates := rest,
        cycle := some { c with gcCount := c.gcCount + 1, collected := c.collected ++ [candidate.versionId] } }
    | _, _ => none
  | .unlock => match r.cycle, r.gcCandidates with
    | some c, [] => some { r with gcCandidates := c.remaining, cycle := none, finishing := r.finishing + 1 }
    | _, _ => none
  | .store => if r.finishing = 0 then none else some { r with modificationsSinceGc := 0, finishing := r.finishing - 1 }

/-- No guard is created while a drop is about to remove the entry. -/
def apart (r : VersionGcRegistry) : Event → Bool
  | .reader v .addReader => (r.versions v).removals = 0
  | _ => true

/-- The entry is the number of guards, and zero only until it is removed. -/
def Version.Ok (x : Version) : Prop :=
  x.removals = 0 ∧ x.activeReaders = (if x.guards = 0 then none else some x.guards) ∨
    x.removals = 1 ∧ x.guards = 0 ∧ x.activeReaders = some 0

theorem Version.Ok.readerCount {x : Version} (h : x.Ok) : x.readerCount = x.guards := by
  unfold Version.readerCount
  obtain ⟨-, h⟩ | ⟨-, hg, h⟩ := h
  · rw [h]
    split <;> simp [*]
  · rw [h, hg]
    rfl

theorem Version.Ok.step {x x' : Version} {a : ReaderStep} (h : x.Ok) (ha : a = .addReader → x.removals = 0)
    (hstep : x.step a = some x') : x'.Ok := by
  unfold Version.Ok at *
  cases a with
  | addReader | decrement | remove => grind [Version.step]

variable {config} {r r' r₀ : VersionGcRegistry} {e : Event} {es es₀ : List Event}

theorem step_cases (h : step config r e = some r') :
    (r'.versions = r.versions ∨ ∃ v a x, e = .reader v a ∧ (r.versions v).step a = some x ∧
      r'.versions = update r.versions v x) ∧
      ∀ v ∈ r'.collected, v ∈ r.collected ∨ (r.versions v).hasReaders = false := by
  cases e with
  | reader v a =>
    obtain ⟨x, hx, rfl⟩ := Option.map_eq_some_iff.1 h
    exact ⟨.inr ⟨v, a, x, rfl, hx, rfl⟩, fun _ => .inl⟩
  | recordModification =>
    cases h
    exact ⟨.inl rfl, fun _ => .inl⟩
  | lock now =>
    simp only [step] at h
    split at h
    · cases h
    · split at h <;> cases h
      · exact ⟨.inl rfl, fun _ => .inl⟩
      · exact ⟨.inl rfl, nofun⟩
  | check =>
    simp only [step] at h
    split at h
    · rename_i c candidate rest hc hrest
      have hold : r.collected = c.collected := by rw [VersionGcRegistry.collected, hc]; rfl
      rw [hold]
      split at h <;> cases h
      · exact ⟨.inl rfl, fun _ => .inl⟩
      · rename_i hcheck
        rw [not_or, not_or, not_or, Bool.not_eq_true] at hcheck
        refine ⟨.inl rfl, fun v hv => (List.mem_append.1 hv).imp_right fun hv => ?_⟩
        rw [List.mem_singleton.1 hv]
        exact hcheck.2.2.2
    · cases h
  | unlock =>
    simp only [step] at h
    split at h <;> cases h
    exact ⟨.inl rfl, nofun⟩
  | _ =>
    simp only [step] at h
    split at h <;> cases h
    all_goals exact ⟨.inl rfl, fun _ => .inl⟩

def Ok (r : VersionGcRegistry) : Prop := ∀ v, (r.versions v).Ok

theorem ok_step (hstep : step config r e = some r') (hapart : apart r e = true) (h : Ok r) : Ok r' := by
  unfold Ok
  obtain heq | ⟨v, a, x, rfl, hx, heq⟩ := (step_cases hstep).1
  · rwa [heq]
  · rw [heq]
    refine (forall_update_iff _ fun _ => Version.Ok).2 ⟨(h v).step ?_ hx, fun w _ => h w⟩
    rintro rfl
    exact of_decide_eq_true hapart

/-- **The entry of a version is the number of its guards**, and a cycle collects no version that has had a guard since
before its first collection, in every interleaving in which no guard is created between the two steps of a drop. -/
theorem guarded_versions_are_kept (h₀ : run (step config) es₀ {} = some r₀) (h : run (step config) es r₀ = some r)
    (hapart : Along (step config) (apart · · = true) (es₀ ++ es) {}) :
    (∀ v, (r.versions v).readerCount = (r.versions v).guards) ∧ (r₀.collected = [] → ∀ v,
      (∀ es' m, es' <+: es → run (step config) es' r₀ = some m → (m.versions v).guards ≠ 0) → v ∉ r.collected) := by
  obtain ⟨happ₀, happ⟩ := along_append es₀ {} r₀ h₀ hapart
  have hok₀ : Ok r₀ := invariant (fun _ _ _ => ok_step) es₀ {} r₀ h₀ happ₀ fun _ => .inl ⟨rfl, rfl⟩
  refine ⟨fun v => (invariant (fun _ _ _ => ok_step) es r₀ r h happ hok₀ v).readerCount, fun hnil v hguards hv => ?_⟩
  -- the step in which the version is collected
  obtain ⟨es', e, es'', m, m', rfl, hrun, hok, -, hstep, hnot, hin⟩ :=
    exists_turn (fun _ _ _ => ok_step) (P := (v ∈ ·.collected))
    h happ hok₀ (by rw [hnil]; nofun) hv
  refine hguards es' m (List.prefix_append ..) hrun ?_
  rw [← (hok v).readerCount]
  exact Nat.eq_zero_of_not_pos (of_decide_eq_false (((step_cases hstep).2 v hin).resolve_left hnot))

/-- The second guard of a version, behind the drop of the first. -/
def guardEvents : List Event := [.reader 1 .addReader, .reader 1 .decrement, .reader 1 .remove, .reader 1 .addReader]

def cycleEvents : List Event :=
  [.addGcCandidate ⟨1, 0⟩, .addGcCandidate ⟨2, 0⟩, .recordModification, .load, .lock 5, .check, .check]

theorem guarded_version_is_kept : ∃ r₀ r, run (step ⟨0, 2, 0⟩) guardEvents {} = some r₀ ∧
    run (step ⟨0, 2, 0⟩) cycleEvents r₀ = some r ∧ (r.versions 1).readerCount = (r.versions 1).guards ∧ 1 ∉ r.collected ∧
    2 ∈ r.collected := by
  obtain ⟨r₀, h₀, hr₀⟩ := exists_run (step ⟨0, 2, 0⟩) guardEvents {} (fun r₀ => r₀.collected.isEmpty &&
    (run (step ⟨0, 2, 0⟩) cycleEvents r₀).any (2 ∈ ·.collected) &&
    cycleEvents.inits.all fun es' => (run (step ⟨0, 2, 0⟩) es' r₀).all fun m =>
      (m.versions 1).guards != 0) (by decide +kernel)
  simp only [Bool.and_eq_true, List.isEmpty_iff, Option.any_eq_true, decide_eq_true_iff, List.all_eq_true] at hr₀
  obtain ⟨⟨hnil, r, hrun, hr⟩, hguards⟩ := hr₀
  obtain ⟨hcount, hkept⟩ := guarded_versions_are_kept h₀ hrun (by decide +kernel)
  refine ⟨r₀, r, h₀, hrun, hcount 1, hkept hnil 1 fun es' m hes' hm => ?_, hr⟩
  have hguard := hguards es' ((List.mem_inits ..).2 hes')
  rw [hm] at hguard
  simpa using hguard

/-- **A version with a guard is collected**: the drop of the first guard removes the entry of the second. -/
theorem guarded_version_is_collected :
    (run (step ⟨0, 2, 0⟩) [.reader 1 .addReader, .reader 1 .decrement, .reader 1 .addReader,
    .reader 1 .remove, .addGcCandidate ⟨1, 0⟩, .recordModification, .load, .lock 5, .check] {}).map
    (fun r => ((r.versions 1).guards, (r.versions 1).readerCount, r.collected)) = some (1, 0, [1]) := by decide +kernel

end Dictenstein.VersionGc
