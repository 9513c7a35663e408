import Dictenstein.OverlayFault
/-! # FaultingRead — a faulting read while other threads change the root

`find_leaf_faulting` of `OverlayFault` again, among publications of other threads. Anything may be published between two
attempts, so a list of what the attempts meet is an interleaving.

On a bound revision the read resolves the occurrence in the registry first. If it cannot, and the revision is not the
published one any more, it gives the attempt up before it loads the record. When that uses up the last attempt there is no
loaded node to fall back on, and the last walk, which stays in memory, takes an on-disk edge for an absent key. -/

namespace Dictenstein.FaultingRead

open Overlay OverlayNode

variable {U V : Type} [DecidableEq U] [LT U] [DecidableLT U]

abbrev Result (U V : Type) := Except PersistentARTrieError (Option (OverlayNode U V))

/-- What `load_revision` gives; `bound` says that the root has an eviction binding. -/
structure Revision (U V : Type) where
  node : OverlayNode U V
  bound : Bool

/-- The revision an attempt loads, whether the registry prepares its occurrence, and whether the revision is still published
when it looks again. -/
structure Attempt (U V : Type) where
  revision : Option (Revision U V)
  prepared : Bool
  sameRevision : Bool

/-- `continue 'retry` before any record is loaded. -/
def Attempt.rebases (a : Attempt U V) : Bool := a.revision.any (·.bound) && !a.prepared && !a.sameRevision

/-- The attempts of a call, with the node loaded last, the part of the key below it and the root of the last load. What an
attempt installs, a later one may meet or not. -/
def findLeafFaulting (faultIn : FaultIn U V) (key : List U) (final : Option (Revision U V)) :
    List (Attempt U V) → Option (OverlayNode U V × List U) → Result U V
  | [], fallback => match final with
    | none => .ok none
    | some r => match findLeafIterative r.node key with
      | some m => .ok (some m)
      | none => match fallback with
        | some (decoded, suffix) => walkFaultingSnapshot (fun _ => faultIn) decoded suffix
        | none => .ok none
  | a :: rest, fallback => match a.revision with
    | none => .ok none
    | some r => match faultWalk faultIn r.node key with
      | .absent => .ok none
      | .leaf m => .ok (if m.isFinal then some m else none)
      | .faulted _ loaded suffix =>
        findLeafFaulting faultIn key final rest (if a.rebases then fallback else some (loaded, suffix))
      | .failed e => if a.rebases then findLeafFaulting faultIn key final rest fallback else .error e

/-! ## The answer of a walk -/

variable {faultIn : FaultIn U V}

theorem faultWalk_snapshot (n : OverlayNode U V) (key : List U) :
    walkFaultingSnapshot (fun _ => faultIn) n key = match faultWalk faultIn n key with
      | .absent => .ok none
      | .leaf m => .ok (if m.isFinal then some m else none)
      | .faulted _ loaded suffix => walkFaultingSnapshot (fun _ => faultIn) loaded suffix
      | .failed e => .error e := by
  fun_induction faultWalk faultIn n key <;> simp_all [walkFaultingSnapshot]

omit [LT U] [DecidableLT U] in
theorem snapshot_of_findLeafIterative {n m : OverlayNode U V} {key : List U} (h : findLeafIterative n key = some m) :
    walkFaultingSnapshot (fun _ => faultIn) n key = .ok (some m) := by
  fun_induction findLeafIterative n key <;> simp_all [walkFaultingSnapshot]

/-! ## The read -/

/-- The lookup of the key in what the slot holds. -/
def lookup (faultIn : FaultIn U V) (key : List U) : Option (Revision U V) → Result U V
  | none => .ok none
  | some r => walkFaultingSnapshot (fun _ => faultIn) r.node key

variable {key : List U} {final : Option (Revision U V)}

theorem answer_mem {S : List (Option (Revision U V))} (hfinal : final ∈ S) (as : List (Attempt U V))
    (has : ∀ a ∈ as, a.revision ∈ S) (fallback : Option (OverlayNode U V × List U))
    (hfallback : ∀ d ∈ fallback, ∃ q ∈ S, lookup faultIn key q = walkFaultingSnapshot (fun _ => faultIn) d.1 d.2)
    (hloads : fallback.isSome ∨ (∃ a ∈ as, a.rebases = false) ∨ ∃ r ∈ final, (findLeafIterative r.node key).isSome) :
    ∃ q ∈ S, lookup faultIn key q = findLeafFaulting faultIn key final as fallback := by
  induction as generalizing fallback with
  | nil => cases final with
    | none => exact ⟨none, hfinal, rfl⟩
    | some r =>
      cases hleaf : findLeafIterative r.node key with simp only [findLeafFaulting, hleaf]
      | some m => exact ⟨_, hfinal, snapshot_of_findLeafIterative hleaf⟩
      | none => cases fallback with
        | some d => exact hfallback d rfl
        | none => simp [hleaf] at hloads
  | cons a as ih =>
    obtain ⟨ha, has⟩ := List.forall_mem_cons.1 has
    rw [findLeafFaulting]
    cases hr : a.revision with rw [hr] at ha
    | none => exact ⟨none, ha, rfl⟩
    | some r =>
      have hlookup : lookup faultIn key (some r) = _ := faultWalk_snapshot r.node key
      -- an attempt that is given up leaves the fallback as it was
      have hskip (hb : a.rebases = true) : fallback.isSome ∨ (∃ a ∈ as, a.rebases = false) ∨
          ∃ r ∈ final, (findLeafIterative r.node key).isSome := by
        simpa [hb] using hloads
      cases hw : faultWalk faultIn r.node key with simp only [hw] at hlookup ⊢
      | absent | leaf m => exact ⟨_, ha, hlookup⟩
      | faulted root loaded suffix =>
        cases hb : a.rebases with
        | true => exact ih has fallback hfallback (hskip hb)
        | false => exact ih has (some (loaded, suffix)) (fun d hd => ⟨_, ha, by cases hd; exact hlookup⟩) (.inl rfl)
      | failed e =>
        cases hb : a.rebases with
        | true => exact ih has fallback hfallback (hskip hb)
        | false => exact ⟨_, ha, hlookup⟩

/-- **A faulting read among publications of other threads** answers as one of the roots it met, if it does not give every
attempt up, or the last root has the key in memory. -/
theorem read_answers_met (faultIn : FaultIn U V) (key : List U) (attempts : List (Attempt U V))
    (final : Option (Revision U V))
    (h : (∃ a ∈ attempts, a.rebases = false) ∨ ∃ r ∈ final, (findLeafIterative r.node key).isSome) :
    ∃ q ∈ final :: attempts.map Attempt.revision,
      lookup faultIn key q = findLeafFaulting faultIn key final attempts none := by
  exact answer_mem (.head _) attempts (fun a ha => .tail _ (List.mem_map_of_mem ha)) none nofun (.inr h)

def evicted (bound : Bool) : Option (Revision UInt8 Nat) := some ⟨.mk false none [(1, .onDisk ⟨1⟩)], bound⟩

def sevens : FaultIn UInt8 Nat := fun _ => .ok (.mk true (some 7) [])

theorem read_answers_met_evicted : ∃ q ∈ [evicted true, evicted true],
    lookup sevens [1] q = findLeafFaulting sevens [1] (evicted true) [⟨evicted true, true, true⟩] none :=
  read_answers_met sevens [1] [⟨evicted true, true, true⟩] (evicted true) (.inl ⟨_, .head _, rfl⟩)

/-- The binding is retired after the load, and the registry does not know the occurrence: the read says that a term of both
roots is absent. -/
theorem read_misses_retired : findLeafFaulting sevens [1] (evicted false) [⟨evicted true, false, false⟩] none = .ok none ∧
    ∀ bound, lookup sevens [1] (evicted bound) = .ok (some (.mk true (some 7) [])) := ⟨rfl, fun _ => rfl⟩

end Dictenstein.FaultingRead
