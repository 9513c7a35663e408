import Dictenstein.DoubleArray
import Mathlib.Data.List.GetD
import Mathlib.Data.UInt
/-!
# DatShared — the arrays of a built double-array trie

`DATCoreShared` of `double_array_trie/core/shared.rs` with the two reads that walk it.  States are compared as `i32`; up to
`i32::MAX` that is the state itself, and the reads are those of the total arrays (`termReads_eq`).
-/
namespace Dictenstein.Dat

open Function List

class DatUnit (U : Type) where
  toDatOffset : U → Nat
  injective : Function.Injective toDatOffset

export DatUnit (toDatOffset)

instance : DatUnit UInt8 where
  toDatOffset := UInt8.toNat
  injective _ _ h := UInt8.toNat_inj.1 h

instance : DatUnit Char where
  toDatOffset := Char.toNat
  injective _ _ h := Char.toNat_inj.1 h

def i32Max : Nat := 2147483647

/-- The cast `state as i32`, which wraps. -/
def asI32 (n : Nat) : Int := if n % 4294967296 ≤ i32Max then (n % 4294967296 : Nat) else (n % 4294967296 : Nat) - 4294967296

theorem asI32_of_le {n : Nat} (h : n ≤ i32Max) : asI32 n = n := by
  have hsmall : n % 4294967296 = n := Nat.mod_eq_of_lt (by unfold i32Max at h; omega)
  rw [asI32, hsmall, if_pos h]

structure DATCoreShared (U V : Type) where
  base : List Int
  check : List Int
  isFinal : List Bool
  edges : List (List U)
  values : List (Option V)

namespace DATCoreShared

variable {U V : Type} [DatUnit U] (d : DATCoreShared U V)

def transition (state : Nat) (unit : U) : Option Nat :=
  if d.base.length ≤ state then none
  else if d.base.getD state (-1) < 0 then none
  else
    let next := (d.base.getD state (-1)).toNat + toDatOffset unit
    if d.check.length ≤ next ∨ d.check.getD next (-1) ≠ asI32 state then none else some next

def containsTermFrom : List U → Nat → Bool
  | [], state => state < d.isFinal.length && d.isFinal.getD state false
  | unit :: term, state => match d.transition state unit with
    | none => false
    | some next => containsTermFrom term next

def termValueFrom : List U → Nat → Option V
  | [], state => if state < d.isFinal.length && d.isFinal.getD state false then d.values.getD state none else none
  | unit :: term, state => match d.transition state unit with
    | none => none
    | some next => termValueFrom term next

def cells : DoubleArray.Cells V where
  base i := d.base.getD i (-1)
  check i := d.check.getD i (-1)
  isFinal i := d.isFinal.getD i false
  value i := d.values.getD i none

end DATCoreShared

/-! ## The reads of the total arrays -/

section
variable {α : Type} {l : List α} {d : α}

theorem lt_length_of_getD_ne {i : Nat} (h : l.getD i d ≠ d) : i < l.length := by
  by_contra hi
  exact h (getD_eq_default l d (Nat.le_of_not_lt hi))

theorem lt_length_and_getD (l : List Bool) (i : Nat) : (decide (i < l.length) && l.getD i false) = l.getD i false := by
  cases hflag : l.getD i false with
  | false => exact Bool.and_false _
  | true =>
    have hlt : i < l.length := lt_length_of_getD_ne (by rw [hflag]; exact Bool.noConfusion)
    rw [decide_eq_true hlt]
    rfl

end

section
variable {α : Type} (l : List α) (d : α)

theorem getD_append_replicate (k i : Nat) : (l ++ List.replicate k d).getD i d = l.getD i d := by
  by_cases hi : i < l.length
  · exact getD_append l _ d i hi
  · rw [getD_append_right l _ d i (Nat.le_of_not_lt hi), getD_eq_default l d (Nat.le_of_not_lt hi)]
    exact getElem?_getD_replicate_default_eq ..

variable {l}

theorem getD_set {i : Nat} (hi : i < l.length) (x : α) (j : Nat) :
    (l.set i x).getD j d = if j = i then x else l.getD j d := by
  rw [getD_eq_getElem?_getD, getD_eq_getElem?_getD, getElem?_set]
  by_cases hj : j = i
  · rw [if_pos hj.symm, if_pos hi, if_pos hj]
    rfl
  · rw [if_neg (Ne.symm hj), if_neg hj]

theorem update_getD {i : Nat} (hi : i < l.length) (x : α) :
    (fun j => (l.set i x).getD j d) = update (fun j => l.getD j d) i x := by
  funext j
  rw [getD_set d hi, update_apply]

theorem getD_modify {i : Nat} (hi : i < l.length) (f : α → α) (j : Nat) :
    (l.modify i f).getD j d = if j = i then f (l.getD i d) else l.getD j d := by
  simp only [getD_eq_getElem?_getD, getElem?_modify]
  by_cases hj : j = i
  · subst hj
    simp [getElem?_eq_getElem hi]
  · simp [hj, Ne.symm hj]

end

namespace DATCoreShared

variable {U V : Type} [DatUnit U] {d : DATCoreShared U V}

theorem transition_eq {state : Nat} (hstate : state ≤ i32Max) (unit : U) :
    d.transition state unit = DoubleArray.next toDatOffset d.cells state unit := by
  refine Option.ext fun t => ?_
  rw [DoubleArray.next_eq_some]
  simp only [transition, asI32_of_le hstate, cells]
  by_cases hlen : d.base.length ≤ state
  · rw [if_pos hlen, getD_eq_default _ _ hlen]
    simp
  · rw [if_neg hlen]
    by_cases hbase : d.base.getD state (-1) < 0
    · rw [if_pos hbase]
      exact ⟨nofun, fun h => absurd h.1 (by omega)⟩
    · rw [if_neg hbase]
      split
      · rename_i hbad
        refine ⟨nofun, ?_⟩
        rintro ⟨-, rfl, hcheck⟩
        refine absurd hcheck (hbad.resolve_left fun hout => ?_)
        rw [getD_eq_default _ _ hout] at hcheck
        omega
      · rename_i hgood
        rw [not_or, not_not] at hgood
        rw [Option.some.injEq]
        exact ⟨fun h => ⟨by omega, h.symm, h ▸ hgood.2⟩, fun h => h.2.1.symm⟩

section
variable (hlen : d.check.length ≤ i32Max + 1)
include hlen

theorem le_of_transition {state next : Nat} {unit : U} (h : d.transition state unit = some next) : next ≤ i32Max := by
  simp only [transition] at h
  split at h
  · cases h
  · split at h
    · cases h
    · split at h
      · cases h
      · rename_i hgood
        cases h
        omega

theorem termReads_eq (term : List U) {state : Nat} (hstate : state ≤ i32Max) :
    d.containsTermFrom term state = (DoubleArray.entry toDatOffset d.cells state term).isSome ∧
      d.termValueFrom term state = (DoubleArray.entry toDatOffset d.cells state term).join := by
  induction term generalizing state with
  | nil =>
    rw [containsTermFrom, termValueFrom, lt_length_and_getD]
    show d.cells.isFinal state = (if d.cells.isFinal state then some (d.cells.value state) else none).isSome ∧
      (if d.cells.isFinal state then d.cells.value state else none) =
        (if d.cells.isFinal state then some (d.cells.value state) else none).join
    cases d.cells.isFinal state <;> exact ⟨rfl, rfl⟩
  | cons unit term ih =>
    rw [containsTermFrom, termValueFrom]
    simp only [Paths.entry, Paths.walk]
    rw [← transition_eq hstate]
    cases ht : d.transition state unit with
    | none => exact ⟨rfl, rfl⟩
    | some next => exact ih (le_of_transition hlen ht)

end

end DATCoreShared

/-! ## The map of a sequence of insertions -/

section
variable {U V : Type} [DecidableEq U]

/-- What inserting adds to a map: a value replaces the old one, no value leaves it. -/
def inserted (m : List U → Option (Option V)) (term : List U) (value : Option V) : List U → Option (Option V) :=
  update m term (some (value.or (m term).join))

def mapOf (ops : List (List U × Option V)) : List U → Option (Option V) :=
  ops.foldl (fun m op => inserted m op.1 op.2) fun _ => none

/-- The terms of a map are those of a set, and there are `count` of them. -/
structure HasTerms (m : List U → Option (Option V)) (count : Nat) (terms : Finset (List U)) : Prop where
  mem : ∀ q, (m q).isSome = true ↔ q ∈ terms
  count : count = terms.card

omit [DecidableEq U] in
theorem hasTerms_empty : HasTerms (fun _ : List U => (none : Option (Option V))) 0 ∅ := by
  refine ⟨fun q => ?_, rfl⟩
  simp

theorem HasTerms.inserted {m : List U → Option (Option V)} {count : Nat} {terms : Finset (List U)}
    (h : HasTerms m count terms) (term : List U) (value : Option V) :
    HasTerms (inserted m term value) (count + if (m term).isSome then 0 else 1) (insert term terms) := by
  refine ⟨fun q => ?_, ?_⟩
  · rw [Dat.inserted, update_apply, Finset.mem_insert]
    by_cases hq : q = term
    · simp [hq]
    · rw [if_neg hq, h.mem q]
      simp [hq]
  · rw [h.count]
    by_cases hin : term ∈ terms
    · rw [if_pos ((h.mem term).2 hin), Finset.insert_eq_of_mem hin]
      rfl
    · rw [if_neg fun hsome => hin ((h.mem term).1 hsome), Finset.card_insert_of_notMem hin]

end
end Dictenstein.Dat
