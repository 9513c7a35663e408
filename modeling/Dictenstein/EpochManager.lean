import Mathlib.Algebra.Order.Ring.Nat
/-! # EpochManager — the readers a byte trie's calls enter

`enter_read` counts a reader and returns the epoch, which is a number. The count goes down in `exit_read` only, and that is
called where an `EpochGuard` is dropped. The calls of the overlay bind the number (`let _epoch = ..`) and make no guard.

What the trie decides in a call (a hit in the cache, an attempt that has to be made again) is an argument here. -/

namespace Dictenstein

structure EpochManager where
  globalEpoch : UInt64
  activeReaders : UInt64

namespace EpochManager

def new : EpochManager := ⟨0, 0⟩

def enterRead : StateM EpochManager UInt64 := fun e => (e.globalEpoch, { e with activeReaders := e.activeReaders + 1 })

/-- `wait_for_quiescence` while no call is in flight: it times out (`none`) unless there is no reader when it starts. -/
def waitForQuiescence : StateM EpochManager (Option UInt64) := fun e =>
  (if e.activeReaders > 0 then none else some e.globalEpoch, { e with globalEpoch := e.globalEpoch + 1 })

/-! ## The calls -/

/-- A loop of at most `n` attempts, each of which enters an epoch; `retried` of them would go on to the next. -/
def attempts : Nat → Nat → StateM EpochManager Bool
  | 0, _ => pure false
  | n + 1, retried => do
    let _epoch ← enterRead
    match retried with
    | 0 => pure true
    | retried + 1 => attempts n retried

/-- How a call of `find_leaf_faulting` goes. Without a `fallback` it answers from the root loaded last. -/
structure Lookup where
  retried : Nat
  fallback : Bool

def findLeafFaulting (maxFaultinRetries : Nat) (l : Lookup) : StateM EpochManager Unit := do
  unless ← attempts (maxFaultinRetries + 1) l.retried do
    if l.fallback then
      let _epoch ← enterRead

def defaultMaxFaultinRetries : Nat := 16

inductive Call where
  | insertCas (cached : Bool)
  -- no lookup: the cache has the term, or there is no overlay
  | containsLockfree (lookup : Option Lookup)
  | insertCasDurable (refused cached : Bool)
  -- no lookup: the empty term, or one whose leaf is in memory
  | removeCasDurable (refused : Bool) (lookup : Option Lookup)
  | findLeafFaulting (maxFaultinRetries : Nat) (l : Lookup)
  -- not planned: no candidate, plan, root slot, coordinator or memory
  | evictOverlayBatch (planned : Bool) (maxRebaseRetries retried : Nat)

/-- The two insertions enter one epoch for the empty term as well, and keep it over all their attempts. -/
def Call.run : Call → StateM EpochManager Unit
  | insertCas cached => do
    unless cached do
      let _epoch ← enterRead
  | containsLockfree lookup => do
    if let some l := lookup then EpochManager.findLeafFaulting defaultMaxFaultinRetries l
  | insertCasDurable refused cached => do
    unless refused || cached do
      let _epoch ← enterRead
  | removeCasDurable refused lookup => do
    unless refused do
      let _epoch ← enterRead
      if let some l := lookup then EpochManager.findLeafFaulting defaultMaxFaultinRetries l
  | findLeafFaulting maxFaultinRetries l => EpochManager.findLeafFaulting maxFaultinRetries l
  | evictOverlayBatch planned maxRebaseRetries retried => do
    if planned then
      let _ended ← attempts (maxRebaseRetries + 1) retried

/-! ## The count -/

def Lookup.entered (maxFaultinRetries : Nat) (l : Lookup) : Nat :=
  min (maxFaultinRetries + 1) (l.retried + 1) + if l.retried < maxFaultinRetries + 1 || !l.fallback then 0 else 1

def Call.entered : Call → Nat
  | insertCas cached => if cached then 0 else 1
  | containsLockfree lookup => lookup.elim 0 (Lookup.entered defaultMaxFaultinRetries)
  | insertCasDurable refused cached => if refused || cached then 0 else 1
  | removeCasDurable refused lookup => if refused then 0 else 1 + lookup.elim 0 (Lookup.entered defaultMaxFaultinRetries)
  | findLeafFaulting maxFaultinRetries l => l.entered maxFaultinRetries
  | evictOverlayBatch planned maxRebaseRetries retried => if planned then min (maxRebaseRetries + 1) (retried + 1) else 0

def enter (n : Nat) (e : EpochManager) : EpochManager := { e with activeReaders := e.activeReaders + UInt64.ofNat n }

variable (e : EpochManager)

@[simp] theorem enter_zero : e.enter 0 = e := by simp [enter]

@[simp] theorem enter_enter (n k : Nat) : (e.enter n).enter k = e.enter (n + k) := by
  simp [enter, UInt64.ofNat_add, UInt64.add_assoc]

@[simp] theorem enterRead_bind {α : Type} (f : UInt64 → StateM EpochManager α) :
    (enterRead >>= f) e = f e.globalEpoch (e.enter 1) := rfl

theorem pure_eq {α : Type} (a : α) : (pure a : StateM EpochManager α) e = (a, e) := rfl

theorem attempts_eq : ∀ (n retried : Nat) (e : EpochManager),
    attempts n retried e = (decide (retried < n), e.enter (min n (retried + 1)))
  | 0, retried, e => by simp [attempts, pure_eq]
  | n + 1, 0, e => by simp [attempts, pure_eq]
  | n + 1, retried + 1, e => by
    rw [attempts, enterRead_bind, attempts_eq n retried, enter_enter, Nat.add_min_add_right, Nat.add_comm 1]
    simp

theorem attempts_bind {α : Type} (n retried : Nat) (f : Bool → StateM EpochManager α) :
    (attempts n retried >>= f) e = f (decide (retried < n)) (e.enter (min n (retried + 1))) := by
  simp [bind, StateT.bind, attempts_eq]

theorem findLeafFaulting_eq (maxFaultinRetries : Nat) (l : Lookup) :
    (findLeafFaulting maxFaultinRetries l e).2 = e.enter (l.entered maxFaultinRetries) := by
  by_cases h : l.retried < maxFaultinRetries + 1
  · simp [findLeafFaulting, Lookup.entered, attempts_bind, h, pure_eq]
  · cases hf : l.fallback <;> simp [findLeafFaulting, Lookup.entered, attempts_bind, h, hf, pure_eq, -bind_pure_comp]

theorem Call.run_eq (c : Call) : (c.run e).2 = e.enter c.entered := by
  cases c with
  | insertCas cached => cases cached <;> simp [run, entered, pure_eq]
  | containsLockfree lookup => cases lookup <;> simp [run, entered, findLeafFaulting_eq, pure_eq]
  | insertCasDurable refused cached => cases refused <;> cases cached <;> simp [run, entered, pure_eq]
  | removeCasDurable refused lookup =>
    cases refused <;> cases lookup <;> simp [run, entered, findLeafFaulting_eq, pure_eq]
  | findLeafFaulting retries l => exact findLeafFaulting_eq e retries l
  | evictOverlayBatch planned retries retried =>
    cases planned <;> simp [run, entered, attempts_bind, pure_eq]

theorem foldl_run_eq (calls : List Call) :
    calls.foldl (fun e c => (c.run e).2) e = e.enter (calls.map Call.entered).sum := by
  induction calls generalizing e with
  | nil => exact (enter_zero e).symm
  | cons c calls ih => rw [List.foldl_cons, ih, c.run_eq, enter_enter, List.map_cons, List.sum_cons]

/-- **Every call leaves the epochs it entered in the count.** It is what it was before the calls exactly when they entered
none, or a multiple of 2^64. -/
theorem readers_after (calls : List Call) :
    let total := (calls.map Call.entered).sum
    let after := calls.foldl (fun e c => (c.run e).2) e
    (after.activeReaders = e.activeReaders ↔ 2 ^ 64 ∣ total) ∧
      ((waitForQuiescence after).1.isSome ↔ 2 ^ 64 ∣ e.activeReaders.toNat + total) := by
  intro total after
  have hafter : after = e.enter total := foldl_run_eq e calls
  have hdvd (n : Nat) : UInt64.ofNat n = 0 ↔ 2 ^ 64 ∣ n := by
    rw [← UInt64.toNat_inj, UInt64.toNat_ofNat', Nat.dvd_iff_mod_eq_zero]
    rfl
  rw [hafter, ← hdvd, ← hdvd, UInt64.ofNat_add, UInt64.ofNat_toNat]
  refine ⟨by simp [enter], ?_⟩
  by_cases h : e.activeReaders + UInt64.ofNat total = 0 <;> simp [waitForQuiescence, enter, h]

/-- One insertion of a term that the cache does not have, and the trie is not quiescent any more. -/
theorem insertCas_leaves_reader : let after := ((Call.insertCas false).run new).2
    after.activeReaders = 1 ∧ (waitForQuiescence after).1 = none := by decide

end EpochManager
end Dictenstein
