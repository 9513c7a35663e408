import Dictenstein.DatShared
/-!
# DatBuilder — building a double-array trie by insertion

`DoubleArrayTrieBuilder` of `double_array_trie/ascii.rs`: a term is walked byte by byte from the root, state 1, and a missing
transition is added.  Where the cell for it is taken, all children of the state are moved to a base that is free for them and
for the new byte.
-/
namespace Dictenstein.Dat

open DoubleArray hiding next
open Function List Option DATCoreShared DoubleArray.Cells
open Paths (walk_concat_eq_some)

structure DoubleArrayTrieBuilder (V : Type) where
  base : List Int
  check : List Int
  isFinal : List Bool
  values : List (Option V)
  termCount : Nat

@[irreducible]
def allBytes : List UInt8 := (List.range 256).map UInt8.ofNat

def firstFree (ok : Nat → Bool) : Nat → Nat → Option Nat
  | _, 0 => none
  | lo, count + 1 => if ok lo then some lo else firstFree ok (lo + 1) count

namespace DoubleArrayTrieBuilder

variable {V : Type}

def new : DoubleArrayTrieBuilder V := ⟨[-1, 0], [-1, -1], [false, false], [none, none], 0⟩

variable (b : DoubleArrayTrieBuilder V)

variable (state : Nat)

variable (byte : UInt8)

def transition : Option Nat :=
  if b.base.length ≤ state then none
  else if b.base.getD state (-1) < 0 then none
  else
    let next := (b.base.getD state (-1)).toNat + byte.toNat
    if next < b.check.length ∧ b.check.getD next (-1) = asI32 state then some next else none

/-- The loops that push cells until the array of length `len` has the cell `n`. -/
def ensure (len n : Nat) : DoubleArrayTrieBuilder V :=
  { b with
    base := b.base ++ List.replicate (n + 1 - len) (-1)
    check := b.check ++ List.replicate (n + 1 - len) (-1)
    isFinal := b.isFinal ++ List.replicate (n + 1 - len) false
    values := b.values ++ List.replicate (n + 1 - len) none }

/-- All the bytes' cells are free for the base; cells 0 and 1 are the sentinel's and the root's. -/
def allFree (bytes : List UInt8) (base : Nat) : Bool :=
  bytes.all fun byte =>
    let next := base + byte.toNat
    1 < next && (b.check.length ≤ next || b.check.getD next (-1) < 0)

/-- `none` is the panic at exhaustion. -/
def findFreeBase (start : Nat) (bytes : List UInt8) : Option Nat :=
  match bytes with
  | [] => some 0
  | _ :: _ =>
    let maxByte := bytes.foldl (fun m byte => max m byte.toNat) 0
    let maxBase := i32Max - maxByte
    let startBase := min start maxBase
    (firstFree (b.allFree bytes) startBase (maxBase + 1 - startBase)).or (firstFree (b.allFree bytes) 0 startBase)

def childBytes (state base : Nat) : List UInt8 :=
  allBytes.filter fun byte =>
    base + byte.toNat < b.check.length && b.check.getD (base + byte.toNat) (-1) == asI32 state

def repoint (childBase oldChild newChild : Nat) : DoubleArrayTrieBuilder V :=
  { b with check := allBytes.foldl (fun check byte =>
      let grandchild := childBase + byte.toNat
      if grandchild < check.length ∧ check.getD grandchild (-1) = asI32 oldChild then
        check.set grandchild (asI32 newChild)
      else check) b.check }

def copyChild (state oldChild newChild : Nat) : DoubleArrayTrieBuilder V :=
  { b with
    check := b.check.set newChild (asI32 state)
    base := b.base.set newChild (b.base.getD oldChild (-1))
    isFinal := b.isFinal.set newChild (b.isFinal.getD oldChild false)
    values := if oldChild < b.values.length then
        (b.values ++ List.replicate (newChild + 1 - b.values.length) none).set newChild (b.values.getD oldChild none)
      else b.values }

def clearCell (oldChild : Nat) : DoubleArrayTrieBuilder V :=
  { b with
    check := b.check.set oldChild (-1)
    base := b.base.set oldChild (-1)
    isFinal := b.isFinal.set oldChild false
    values := if oldChild < b.values.length then b.values.set oldChild none else b.values }

def relocateChild (state oldBase newBase : Nat) (byte : UInt8) : DoubleArrayTrieBuilder V :=
  let oldChild := oldBase + byte.toNat
  let newChild := newBase + byte.toNat
  let b := (b.ensure b.check.length newChild).copyChild state oldChild newChild
  let b := if 0 ≤ b.base.getD oldChild (-1) then b.repoint (b.base.getD oldChild (-1)).toNat oldChild newChild else b
  b.clearCell oldChild

def claim (state next : Nat) : DoubleArrayTrieBuilder V × Nat :=
  ({ b with check := b.check.set next (asI32 state) }, next)

def placeBase : Option (DoubleArrayTrieBuilder V) :=
  if b.base.getD state (-1) < 0 then
    (b.findFreeBase (state * 31 % 1000 + byte.toNat) [byte]).map fun base : Nat =>
      { b with base := b.base.set state base }
  else some b

/-- The transition added where its cell is taken: all children move. -/
def relocate (state next : Nat) (byte : UInt8) : Option (DoubleArrayTrieBuilder V × Nat) :=
  let oldBase := (b.base.getD state (-1)).toNat
  let bytes := b.childBytes state oldBase ++ [byte]
  (b.findFreeBase (next + 1) bytes).map fun newBase =>
    let b := bytes.foldl (fun b w => if w = byte then b else b.relocateChild state oldBase newBase w) b
    let b := { b with base := b.base.set state newBase }
    let newNext := newBase + byte.toNat
    (b.ensure b.check.length newNext).claim state newNext

def addTransition : Option (DoubleArrayTrieBuilder V × Nat) :=
  ((b.ensure b.base.length state).placeBase state byte).bind fun b =>
    let next := (b.base.getD state (-1)).toNat + byte.toNat
    let b := b.ensure b.check.length next
    if 0 ≤ b.check.getD next (-1) then b.relocate state next byte else some (b.claim state next)

def followPath : DoubleArrayTrieBuilder V → Nat → List UInt8 → Option (DoubleArrayTrieBuilder V × Nat)
  | b, state, [] => some (b, state)
  | b, state, byte :: bytes => match b.transition state byte with
    | some next => followPath b next bytes
    | none => match b.addTransition state byte with
      | some (b, next) => followPath b next bytes
      | none => none

/-- The end of a term marked: whether it is new, and the builder. -/
def markFinal (value : Option V) : Bool × DoubleArrayTrieBuilder V :=
  if state < b.isFinal.length && b.isFinal.getD state false then
    (false, if value.isSome && state < b.values.length then { b with values := b.values.set state value } else b)
  else
    (true, { b with
      isFinal := (b.isFinal ++ List.replicate (state + 1 - b.isFinal.length) false).set state true
      values := (b.values ++ List.replicate (state + 1 - b.values.length) none).set state value
      termCount := b.termCount + 1 })

def markRoot (value : Option V) : Bool × DoubleArrayTrieBuilder V :=
  let b := { b with
    isFinal := b.isFinal ++ List.replicate (2 - b.isFinal.length) false
    values := b.values ++ List.replicate (2 - b.values.length) none }
  if b.isFinal.getD 1 false then (false, if value.isSome then { b with values := b.values.set 1 value } else b)
  else (true, { b with isFinal := b.isFinal.set 1 true, values := b.values.set 1 value, termCount := b.termCount + 1 })

def insertWithValue (term : List UInt8) (value : Option V) : Option (Bool × DoubleArrayTrieBuilder V) :=
  if term = [] then some (b.markRoot value)
  else (b.followPath 1 term).map fun (b, state) => b.markFinal state value

def insertAll : DoubleArrayTrieBuilder V → List (List UInt8 × Option V) → Option (DoubleArrayTrieBuilder V)
  | b, [] => some b
  | b, (term, value) :: ops => (b.insertWithValue term value).bind fun (_, b) => insertAll b ops

/-- The arrays that `build` seals, with the edge lists read off them. -/
def parts : DATCoreShared UInt8 V where
  base := b.base
  check := b.check
  isFinal := b.isFinal
  edges := b.base.zipIdx.map fun (base, state) => if 0 ≤ base then b.childBytes state base.toNat else []
  values := b.values

end DoubleArrayTrieBuilder

structure DoubleArrayTrie (V : Type) where
  shared : DATCoreShared UInt8 V
  termCount : Nat

def DoubleArrayTrieBuilder.build {V : Type} (b : DoubleArrayTrieBuilder V) : DoubleArrayTrie V := ⟨b.parts, b.termCount⟩

namespace DoubleArrayTrie

variable {V : Type} (d : DoubleArrayTrie V)

def contains (term : List UInt8) : Bool := d.shared.containsTermFrom term 1

def getValue (term : List UInt8) : Option V := d.shared.termValueFrom term 1

def len : Option Nat := some d.termCount

end DoubleArrayTrie

/-! ## The search -/

variable {ok : Nat → Bool}

theorem firstFree_spec {lo count x : Nat} (h : firstFree ok lo count = some x) : ok x = true ∧ lo ≤ x ∧ x < lo + count := by
  induction count generalizing lo with
  | zero => cases h
  | succ count ih => grind [firstFree]

theorem firstFree_of_ok (lo count : Nat) {y : Nat} (hok : ok y = true) (hlo : lo ≤ y) (hhi : y < lo + count) :
    ∃ x, firstFree ok lo count = some x ∧ x ≤ y := by
  induction count generalizing lo with
  | zero => omega
  | succ count ih =>
    rw [firstFree]
    by_cases hfirst : ok lo = true
    · exact ⟨lo, if_pos hfirst, hlo⟩
    · have hne : lo ≠ y := fun heq => hfirst (heq ▸ hok)
      rw [if_neg hfirst]
      exact ih (lo + 1) (by omega) (by omega)

theorem foldl_max_spec (bytes : List UInt8) (m : Nat) : m ≤ bytes.foldl (fun m byte => max m byte.toNat) m ∧
    (∀ w ∈ bytes, w.toNat ≤ bytes.foldl (fun m byte => max m byte.toNat) m) ∧
      (m ≤ 255 → bytes.foldl (fun m byte => max m byte.toNat) m ≤ 255) := by
  induction bytes generalizing m with
  | nil => exact ⟨Nat.le_refl m, nofun, id⟩
  | cons byte bytes ih =>
    obtain ⟨hm, hbytes, hle⟩ := ih (max m byte.toNat)
    have := byte.toNat_lt
    exact ⟨le_trans (le_max_left ..) hm, forall_mem_cons.2 ⟨le_trans (le_max_right ..) hm, hbytes⟩, fun h => hle (by omega)⟩

/-! ## The arrays as total ones -/

theorem mem_allBytes (byte : UInt8) : byte ∈ allBytes := by
  rw [allBytes]
  exact mem_map.2 ⟨byte.toNat, mem_range.2 byte.toNat_lt, UInt8.ofNat_toNat⟩

theorem nodup_allBytes : allBytes.Nodup := by
  rw [allBytes]
  refine List.Nodup.map_on (fun x hx y hy h => ?_) nodup_range
  have hx' := UInt8.toNat_ofNat_of_lt' (mem_range.1 hx)
  have hy' := UInt8.toNat_ofNat_of_lt' (mem_range.1 hy)
  rw [← hx', ← hy', h]

namespace DoubleArrayTrieBuilder

variable {V : Type} {b : DoubleArrayTrieBuilder V}

def cells (b : DoubleArrayTrieBuilder V) : Cells V := b.parts.cells

structure Aligned (b : DoubleArrayTrieBuilder V) : Prop where
  base : b.base.length = b.check.length
  isFinal : b.isFinal.length = b.check.length
  values : b.values.length = b.check.length

variable {state oldChild base newChild oldBase newBase : Nat} {bytes ws p : List UInt8} {byte : UInt8}

theorem transition_eq (hstate : state ≤ i32Max) (byte : UInt8) :
    b.transition state byte = DoubleArray.next toDatOffset b.cells state byte := by
  rw [cells, ← DATCoreShared.transition_eq hstate]
  show _ = (if b.base.length ≤ state then none else if b.base.getD state (-1) < 0 then none else
    let next := (b.base.getD state (-1)).toNat + byte.toNat
    if b.check.length ≤ next ∨ b.check.getD next (-1) ≠ asI32 state then none else some next)
  rw [transition]
  by_cases hlen : b.base.length ≤ state
  · rw [if_pos hlen, if_pos hlen]
  · grind

theorem cells_ensure (len n : Nat) : (b.ensure len n).cells = b.cells := by
  simp only [cells, DATCoreShared.cells, parts, ensure, getD_append_replicate]

theorem length_ensure (n : Nat) : (b.ensure b.check.length n).check.length = max b.check.length (n + 1) := by
  simp only [ensure, length_append, length_replicate]
  omega

theorem Aligned.ensure (h : b.Aligned) (len n : Nat) : (b.ensure len n).Aligned := by
  constructor <;> simp only [DoubleArrayTrieBuilder.ensure, length_append, h.base, h.isFinal, h.values, length_replicate]

theorem getD_repoint {childBase : Nat} (hold : oldChild ≤ i32Max) (hnew : newChild ≤ i32Max) (x : Nat) :
    (b.repoint childBase oldChild newChild).check.getD x (-1) =
      if b.check.getD x (-1) = oldChild ∧ x ∈ allBytes.map (childBase + ·.toNat) then (newChild : Int)
      else b.check.getD x (-1) := by
  rw [repoint]
  simp only [asI32_of_le hold, asI32_of_le hnew]
  induction allBytes generalizing b with
  | nil => simp
  | cons byte bytes ih =>
    simp only [foldl_cons, map_cons, mem_cons]
    have hrest := fun check => ih (b := { b with check := check })
    simp only at hrest
    rw [hrest]
    by_cases hhit : childBase + byte.toNat < b.check.length ∧ b.check.getD (childBase + byte.toNat) (-1) = (oldChild : Int)
    · rw [if_pos hhit, getD_set _ hhit.1]
      by_cases hx : x = childBase + byte.toNat
      · -- given to the new child, whatever the later bytes do
        subst hx
        rw [if_pos rfl, ite_self, if_pos ⟨hhit.2, .inl rfl⟩]
      · simp only [hx, if_false, false_or]
    · grind

theorem copyChild_spec (h : b.Aligned) (hstate : state ≤ i32Max) (hold : oldChild < b.check.length)
    (hnew : newChild < b.check.length) :
    (b.copyChild state oldChild newChild).Aligned ∧ (b.copyChild state oldChild newChild).cells =
      ⟨update b.cells.base newChild (b.cells.base oldChild), update b.cells.check newChild state,
        update b.cells.isFinal newChild (b.cells.isFinal oldChild),
        update b.cells.value newChild (b.cells.value oldChild)⟩ := by
  have hvalues : newChild + 1 - b.values.length = 0 := by
    rw [h.values]
    omega
  refine ⟨⟨by simp [copyChild, h.base], by simp [copyChild, h.isFinal], ?_⟩,
    Cells.ext (update_getD _ (h.base ▸ hnew) _) ?_ (update_getD _ (h.isFinal ▸ hnew) _) ?_⟩
  · simp only [copyChild, hvalues]
    split <;> simp [h.values]
  · rw [← asI32_of_le hstate]
    exact update_getD _ hnew _
  · show (fun x => (if oldChild < b.values.length then _ else b.values).getD x none) = _
    rw [if_pos (h.values ▸ hold), hvalues, replicate_zero, append_nil]
    exact update_getD _ (h.values ▸ hnew) _

theorem clearCell_spec (h : b.Aligned) (hold : oldChild < b.check.length) :
    (b.clearCell oldChild).Aligned ∧ (b.clearCell oldChild).cells =
      ⟨update b.cells.base oldChild (-1), update b.cells.check oldChild (-1),
        update b.cells.isFinal oldChild false, update b.cells.value oldChild none⟩ := by
  refine ⟨⟨by simp [clearCell, h.base], by simp [clearCell, h.isFinal], ?_⟩,
    Cells.ext (update_getD _ (h.base ▸ hold) _) (update_getD _ hold _) (update_getD _ (h.isFinal ▸ hold) _) ?_⟩
  · simp only [clearCell]
    split <;> simp [h.values]
  · show (fun x => (if oldChild < b.values.length then _ else b.values).getD x none) = _
    rw [if_pos (h.values ▸ hold)]
    exact update_getD _ (h.values ▸ hold) _

theorem length_repoint (childBase oldChild newChild : Nat) :
    (b.repoint childBase oldChild newChild).check.length = b.check.length := by
  rw [repoint]
  simp only
  induction allBytes generalizing b with
  | nil => rfl
  | cons byte bytes ih =>
    rw [foldl_cons]
    have hrest := fun check => ih (b := { b with check := check })
    simp only at hrest
    rw [hrest]
    split
    · exact length_set
    · rfl

theorem adopt_spec (h : b.Aligned) (hold : oldChild ≤ i32Max) (hnew : newChild ≤ i32Max)
    (hkids : ∀ x, b.cells.check x = (oldChild : Nat) → 0 ≤ b.cells.base oldChild ∧
      ∃ w : UInt8, x = (b.cells.base oldChild).toNat + w.toNat) {b' : DoubleArrayTrieBuilder V}
    (hb' : (if 0 ≤ b.base.getD oldChild (-1) then b.repoint (b.base.getD oldChild (-1)).toNat oldChild newChild
      else b) = b') :
    b'.Aligned ∧ b'.cells =
      { b.cells with check := fun x => if b.cells.check x = (oldChild : Nat) then (newChild : Int) else b.cells.check x } ∧
      b'.check.length = b.check.length := by
  subst hb'
  split
  · have hlength := b.length_repoint (b.base.getD oldChild (-1)).toNat oldChild newChild
    refine ⟨⟨h.base.trans hlength.symm, h.isFinal.trans hlength.symm, h.values.trans hlength.symm⟩,
      Cells.ext rfl (funext fun x => ?_) rfl rfl, hlength⟩
    show (b.repoint _ oldChild newChild).check.getD x (-1) = _
    rw [getD_repoint hold hnew]
    have hiff : (b.check.getD x (-1) = (oldChild : Int) ∧
        x ∈ allBytes.map ((b.base.getD oldChild (-1)).toNat + ·.toNat)) ↔ b.cells.check x = (oldChild : Nat) := by
      refine ⟨fun hand => hand.1, fun hcheck => ⟨hcheck, ?_⟩⟩
      obtain ⟨-, w, hw⟩ := hkids x hcheck
      exact mem_map.2 ⟨w, mem_allBytes w, hw.symm⟩
    simp only [hiff]
    rfl
  · rename_i hbase
    refine ⟨h, Cells.ext rfl (funext fun x => ?_) rfl rfl, rfl⟩
    exact (if_neg fun hcheck => hbase (hkids x hcheck).1).symm

theorem termCount_relocateChild (state oldBase newBase : Nat) (byte : UInt8) :
    (b.relocateChild state oldBase newBase byte).termCount = b.termCount := by
  unfold relocateChild
  simp only
  split <;> rfl

theorem relocateChild_spec {old new : Nat} (h : b.Aligned) (hstate : state ≤ i32Max) (hnew : new ≤ i32Max)
    (hold : old < b.check.length) (hlen : b.check.length ≤ i32Max + 1) (hself : state ≠ old) (hne : new ≠ old)
    (hkids : ∀ x, b.cells.check x = (old : Nat) → 0 ≤ b.cells.base old ∧ ∃ w : UInt8, x = (b.cells.base old).toNat + w.toNat)
    (holdChild : oldBase + byte.toNat = old) (hnewChild : newBase + byte.toNat = new) {b' : DoubleArrayTrieBuilder V}
    (hb' : b.relocateChild state oldBase newBase byte = b') :
    b'.Aligned ∧ b'.cells = b.cells.move state old new ∧ b'.check.length = max b.check.length (new + 1) := by
  subst hb'
  have hcells := b.cells_ensure b.check.length new
  have halign := h.ensure b.check.length new
  have hroom := b.length_ensure new
  rw [relocateChild]
  simp only [holdChild, hnewChild]
  generalize b.ensure b.check.length new = b₁ at *
  rw [← hcells] at hkids ⊢
  have hold₁ : old < b₁.check.length := by omega
  have hnew₁ : new < b₁.check.length := by omega
  obtain ⟨haligned, hcopy⟩ := copyChild_spec halign hstate hold₁ hnew₁
  have hlength : (b₁.copyChild state old new).check.length = b₁.check.length := length_set
  generalize b₁.copyChild state old new = b₂ at *
  have hkids₂ : ∀ x, b₂.cells.check x = (old : Nat) →
      0 ≤ b₂.cells.base old ∧ ∃ w : UInt8, x = (b₂.cells.base old).toNat + w.toNat := by
    intro x hx
    rw [hcopy] at hx ⊢
    simp only [update_apply, if_neg (hne.symm)] at hx ⊢
    refine hkids x ?_
    split at hx
    · omega
    · exact hx
  generalize hb₃ : (if 0 ≤ b₂.base.getD old (-1) then b₂.repoint (b₂.base.getD old (-1)).toNat old new else b₂) = b₃
  obtain ⟨haligned₃, hadopt, hlength₃⟩ := adopt_spec haligned (by omega) hnew hkids₂ hb₃
  obtain ⟨haligned₄, hclear⟩ := clearCell_spec haligned₃ (show old < _ by omega)
  refine ⟨haligned₄, ?_, ?_⟩
  · rw [hclear, hadopt, hcopy]
    refine Cells.ext (funext fun x => ?_) (funext fun x => ?_) (funext fun x => ?_) (funext fun x => ?_) <;>
      simp only [move, update_apply]
    by_cases hx : x = new
    · simp only [if_pos hx]
      rw [if_neg (show ¬(state : Int) = old by omega)]
    · simp only [if_neg hx]
  · rw [← hroom, ← hlength, ← hlength₃]
    exact length_set

/-! ## Searching a base -/

theorem mem_childBytes (hstate : state ≤ i32Max) {w : UInt8} :
    w ∈ b.childBytes state base ↔ b.cells.check (base + w.toNat) = state := by
  rw [childBytes, mem_filter, Bool.and_eq_true, decide_eq_true_eq, beq_iff_eq, asI32_of_le hstate]
  refine ⟨fun h => h.2.2, fun h => ⟨mem_allBytes w, ?_, h⟩⟩
  exact lt_length_of_getD_ne (d := -1) (by rw [show b.check.getD (base + w.toNat) (-1) = state from h]; omega)

theorem nodup_childBytes (state base : Nat) : (b.childBytes state base).Nodup := nodup_allBytes.filter _

theorem allFree_iff : b.allFree bytes base = true ↔ ∀ w ∈ bytes, 1 < base + w.toNat ∧
    b.cells.check (base + w.toNat) < 0 := by
  rw [allFree, List.all_eq_true]
  refine forall_congr' fun w => imp_congr_right fun _ => ?_
  simp only [Bool.and_eq_true, decide_eq_true_eq, Bool.or_eq_true]
  refine and_congr_right fun _ => ⟨fun h => ?_, .inr⟩
  obtain h | h := h
  · show b.check.getD _ (-1) < 0
    rw [getD_eq_default _ _ h]
    decide
  · exact h

theorem findFreeBase_spec {start : Nat} (hne : bytes ≠ []) (h : b.findFreeBase start bytes = some base) :
    ∀ w ∈ bytes, ¬Used b.cells 1 (base + w.toNat) ∧ base + w.toNat ≤ i32Max := by
  obtain ⟨-, hbyte, hmax⟩ := foldl_max_spec bytes 0
  obtain ⟨hfree, hle⟩ : b.allFree bytes base = true ∧ base ≤ i32Max - bytes.foldl (fun m byte => max m byte.toNat) 0 := by
    cases bytes with
    | nil => exact absurd rfl hne
    | cons byte bytes =>
      simp only [findFreeBase, or_eq_some_iff] at h
      obtain h | ⟨-, h⟩ := h
      · obtain ⟨hok, -, hlt⟩ := firstFree_spec h
        exact ⟨hok, by omega⟩
      · obtain ⟨hok, -, hlt⟩ := firstFree_spec h
        exact ⟨hok, by omega⟩
  intro w hw
  obtain ⟨hroot, hcheck⟩ := allFree_iff.1 hfree w hw
  have := hbyte w hw
  refine ⟨?_, by unfold i32Max at *; omega⟩
  rintro (heq | hused) <;> omega

theorem findFreeBase_total (b : DoubleArrayTrieBuilder V) (start : Nat) (bytes : List UInt8)
    (h : max start (max b.check.length 2) + 255 ≤ i32Max) :
    ∃ base, b.findFreeBase start bytes = some base ∧ base ≤ max start (max b.check.length 2) := by
  cases bytes with
  | nil => exact ⟨0, rfl, Nat.zero_le _⟩
  | cons byte bytes =>
    have hmax := (foldl_max_spec (byte :: bytes) 0).2.2
    have hfree : b.allFree (byte :: bytes) (max start (max b.check.length 2)) = true := by
      refine allFree_iff.2 fun w _ => ⟨by omega, ?_⟩
      show b.check.getD _ (-1) < 0
      rw [getD_eq_default _ _ (by omega)]
      decide
    simp only [findFreeBase]
    generalize (byte :: bytes).foldl (fun m byte => max m byte.toNat) 0 = m at *
    have hstart : min start (i32Max - m) = start := by omega
    obtain ⟨base, hbase, hle⟩ := firstFree_of_ok start (i32Max - m + 1 - start) hfree (by omega) (by omega)
    rw [hstart, hbase]
    exact ⟨base, rfl, hle⟩

/-! ## Moving the children -/

theorem foldl_relocateChild (h : b.Aligned) (hs : Sound (U := UInt8) toDatOffset b.cells 1)
    (hlen : b.check.length ≤ i32Max + 1) (hstate : state < b.check.length) (hself : b.cells.check state ≠ state)
    (hnodup : ws.Nodup) (hchild : ∀ w ∈ ws, b.cells.check (oldBase + w.toNat) = state)
    (hfree : ∀ w ∈ ws, ¬Used b.cells 1 (newBase + w.toNat) ∧ newBase + w.toNat ≤ i32Max) :
    let b' := ws.foldl (fun b w => b.relocateChild state oldBase newBase w) b
    b'.Aligned ∧ b'.cells = b.cells.moveAll toDatOffset state oldBase newBase ws ∧
      b.check.length ≤ b'.check.length ∧ b'.check.length ≤ i32Max + 1 ∧ b'.termCount = b.termCount ∧
      b'.check.length ≤ max b.check.length (newBase + 256) := by
  induction ws using reverseRecOn with
  | nil => exact ⟨h, rfl, le_rfl, hlen, rfl, le_max_left ..⟩
  | append_singleton ws w ih =>
    rw [← concat_eq_append, nodup_concat] at hnodup
    obtain ⟨hw, hrest⟩ := hnodup
    have hin : w ∈ ws ++ [w] := mem_append_right _ (mem_singleton_self w)
    have hleft : ∀ w' ∈ ws, w' ∈ ws ++ [w] := fun w' hw' => mem_append_left _ hw'
    obtain ⟨ha, hcells, hgrew, hsmall, hcount, hbound⟩ := ih hrest (fun w' hw' => hchild w' (hleft w' hw'))
      fun w' hw' => hfree w' (hleft w' hw')
    simp only [foldl_append, foldl_cons, foldl_nil]
    generalize ws.foldl (fun b w => b.relocateChild state oldBase newBase w) b = b₁ at *
    have hused : Used b.cells 1 (oldBase + w.toNat) := .inr (by rw [hchild w hin]; omega)
    have hold : oldBase + w.toNat < b.check.length := by
      refine lt_length_of_getD_ne (d := -1) ?_
      rw [show b.check.getD (oldBase + w.toNat) (-1) = state from hchild w hin]
      omega
    obtain ⟨hnew, hle⟩ := hfree w hin
    have hne : newBase + w.toNat ≠ oldBase + w.toNat := fun heq => hnew (heq ▸ hused)
    have hself' : state ≠ oldBase + w.toNat := by grind
    obtain ⟨ha', hcells', hlen'⟩ := relocateChild_spec ha (by omega) hle (by omega) hsmall hself' hne (fun x hx => by
      rw [hcells] at hx ⊢
      exact kids_moveAll DatUnit.injective hs hself hrest (fun w' hw' => hchild w' (hleft w' hw'))
        (fun w' hw' => (hfree w' (hleft w' hw')).1) hw (hchild w hin) hx) rfl rfl rfl
    have hbyte := w.toNat_lt
    refine ⟨ha', ?_, by omega, by omega, ?_, by omega⟩
    · rw [hcells', hcells, moveAll, moveAll, foldl_append]
      rfl
    · rw [termCount_relocateChild, hcount]

/-! ## Adding a transition -/

/-- What the builder keeps: arrays of one length, up to `i32::MAX`, that hold a trie rooted at state 1. -/
structure Invariant (b : DoubleArrayTrieBuilder V) : Prop where
  aligned : b.Aligned
  sound : Sound (U := UInt8) toDatOffset b.cells 1
  length : b.check.length ≤ i32Max + 1
  root : 1 < b.check.length

theorem Invariant.lt_length (h : b.Invariant) {x : Nat} (hx : Used b.cells 1 x) : x < b.check.length := by
  obtain rfl | hx := hx
  · exact h.root
  · refine lt_length_of_getD_ne (d := -1) fun heq => ?_
    rw [show b.cells.check x = -1 from heq] at hx
    omega

theorem claim_spec (h : b.Aligned) (state new : Nat) (hstate : state ≤ i32Max) (hnew : new < b.check.length) :
    (b.claim state new).1.Aligned ∧
      (b.claim state new).1.cells = { b.cells with check := update b.cells.check new state } := by
  refine ⟨⟨?_, ?_, ?_⟩, ?_⟩
  · rw [claim, length_set]
    exact h.base
  · rw [claim, length_set]
    exact h.isFinal
  · rw [claim, length_set]
    exact h.values
  · refine Cells.ext rfl ?_ rfl rfl
    rw [← asI32_of_le hstate]
    exact update_getD _ hnew _

/-- What a transition that is added does: the cells are those with a free cell attached to the state. -/
structure Adds (b b' : DoubleArrayTrieBuilder V) (state : Nat) (byte : UInt8) (new : Nat) : Prop where
  invariant : b'.Invariant
  attached : ∃ ρ, Attached toDatOffset 1 ρ b.cells b'.cells state byte new
  termCount : b'.termCount = b.termCount
  -- what bounds the arrays bounds them afterwards
  length : b'.check.length ≤ max b.check.length (new + 256)
  base : ∀ L : Nat, (∀ x, b.cells.base x ≤ L) → new ≤ L → ∀ x, b'.cells.base x ≤ L

theorem adds_of_rebased (hb : b.Invariant) {b₁ b' : DoubleArrayTrieBuilder V} {new : Nat} {ρ : Nat → Nat} {c : Cells V}
    (hused : Used b.cells 1 state) (hself : b.cells.check state ≠ state) (ha : b₁.Aligned)
    (hlen : b.check.length ≤ b₁.check.length) (hsmall : b₁.check.length ≤ i32Max + 1)
    (hbound : b₁.check.length ≤ max b.check.length (base + 256))
    (hre : Rebased (U := UInt8) toDatOffset 1 ρ b.cells c state base)
    (hcells : b₁.cells = { c with base := update c.base state base })
    (hfree : ¬Used c 1 new) (hle : new ≤ i32Max) (hcount : b₁.termCount = b.termCount) (hnew : base + byte.toNat = new)
    (hb' : ((b₁.ensure b₁.check.length new).claim state new).1 = b') : Adds b b' state byte new := by
  have hstate := hb.lt_length hused
  have hlength := b₁.length_ensure new
  obtain ⟨haligned, hclaimed⟩ :=
    claim_spec (ha.ensure b₁.check.length new) state new (by have := hb.length; omega) (by omega)
  rw [cells_ensure, hcells, hb'] at hclaimed
  have hattach : b'.cells = c.attach state base new := hclaimed
  have hlength' : b'.check.length = max b₁.check.length (new + 1) := hb' ▸ length_set.trans hlength
  have hroot := hb.root
  refine ⟨⟨hb' ▸ haligned, ?_, by omega, by omega⟩, ⟨ρ, ?_⟩, hb' ▸ hcount, by omega, fun L hL hnewL x => ?_⟩
  · subst hnew
    rw [hattach]
    exact hre.sound hb.sound hused hself hfree
  · subst hnew
    rw [hattach]
    exact hre.attached hb.sound hused hself DatUnit.injective hfree
  · rw [hattach]
    simp only [Cells.attach, update_apply]
    split
    · omega
    · by_cases hx : Used c 1 x
      · obtain ⟨y, hy, rfl⟩ := hre.onto x hx
        rw [hre.base y hy]
        exact hL y
      · rw [(hre.blank x hx).1]
        omega

theorem cells_setBase (h : b.Aligned) (hstate : state < b.check.length) :
    { b with base := b.base.set state base }.cells = { b.cells with base := update b.cells.base state base } :=
  Cells.ext (update_getD _ (h.base ▸ hstate) _) rfl rfl rfl

theorem Aligned.setBase (h : b.Aligned) (state : Nat) (base : Int) : { b with base := b.base.set state base }.Aligned :=
  ⟨length_set.trans h.base, h.isFinal, h.values⟩

theorem foldl_skip {β : Type} (f : β → UInt8 → β) (hbyte : byte ∉ ws) (s : β) :
    (ws ++ [byte]).foldl (fun s w => if w = byte then s else f s w) s = ws.foldl f s := by
  rw [foldl_append, foldl_cons, foldl_nil, if_pos rfl]
  exact foldl_ext _ _ s fun a w hw => if_neg fun heq : w = byte => hbyte (heq ▸ hw)

section
variable {state new : Nat} {byte : UInt8} {b' : DoubleArrayTrieBuilder V}

theorem relocate_spec (hb : b.Invariant) (hused : Used b.cells 1 state) (hself : b.cells.check state ≠ state)
    (hnone : DoubleArray.next toDatOffset b.cells state byte = none) (hbase : 0 ≤ b.cells.base state) {slot : Nat}
    (h : b.relocate state slot byte = some (b', new)) : Adds b b' state byte new := by
  have hstate := hb.lt_length hused
  have hstateLe : state ≤ i32Max := by
    have := hb.length
    omega
  rw [relocate, map_eq_some_iff] at h
  obtain ⟨newBase, hfind, hnew⟩ := h
  have hspec := findFreeBase_spec (by simp) hfind
  have hchild : ∀ w, w ∈ b.childBytes state (b.base.getD state (-1)).toNat ↔
      b.cells.check ((b.cells.base state).toNat + toDatOffset w) = state := fun w => mem_childBytes hstateLe
  have hbyte : byte ∉ b.childBytes state (b.base.getD state (-1)).toNat := by
    rw [hchild]
    intro hcheck
    rw [next_eq_some.2 ⟨hbase, rfl, hcheck⟩] at hnone
    cases hnone
  simp only [foldl_skip (fun (b₁ : DoubleArrayTrieBuilder V) w =>
    b₁.relocateChild state (b.base.getD state (-1)).toNat newBase w) hbyte] at hnew
  generalize hws : b.childBytes state (b.base.getD state (-1)).toNat = ws at *
  have hnodup : ws.Nodup := hws ▸ nodup_childBytes ..
  have hfree : ∀ w ∈ ws, ¬Used b.cells 1 (newBase + w.toNat) ∧ newBase + w.toNat ≤ i32Max :=
    fun w hw => hspec w (mem_append_left _ hw)
  obtain ⟨hnewFree, hnewLe⟩ := hspec byte (mem_append_right _ (mem_singleton_self byte))
  obtain ⟨ha, hcells, hgrew, hsmall, hcount, hbound⟩ := foldl_relocateChild hb.aligned hb.sound hb.length hstate hself hnodup
    (fun w hw => (hchild w).1 hw) hfree
  have hre := rebased_moveAll DatUnit.injective hb.sound hself hnodup hchild fun w hw => (hfree w hw).1
  have hfree' := free_of_shifted DatUnit.injective hbyte hre.toRenames hnewFree
  obtain ⟨rfl, rfl⟩ := Prod.mk.inj hnew
  refine adds_of_rebased hb hused hself (ha.setBase state newBase) hgrew hsmall hbound hre ?_ hfree' hnewLe hcount rfl rfl
  exact (cells_setBase ha (lt_of_lt_of_le hstate hgrew)).trans (by rw [hcells])

/-- The cell a state with a base has for a byte is not the root's, and it is an `i32` state. -/
def Clear (b : DoubleArrayTrieBuilder V) (state : Nat) (byte : UInt8) : Prop :=
  0 ≤ b.base.getD state (-1) →
    (b.base.getD state (-1)).toNat + byte.toNat ≠ 1 ∧ (b.base.getD state (-1)).toNat + byte.toNat ≤ i32Max

instance (state : Nat) (byte : UInt8) : Decidable (b.Clear state byte) := inferInstanceAs (Decidable (_ → _))

theorem Invariant.ensure (hb : b.Invariant) {n : Nat} (hn : n ≤ i32Max) : (b.ensure b.check.length n).Invariant := by
  have hlength := b.length_ensure n
  have hlen := hb.length
  have hroot := hb.root
  refine ⟨hb.aligned.ensure _ _, ?_, by omega, by omega⟩
  rw [cells_ensure]
  exact hb.sound

theorem Invariant.ensure_self (hb : b.Invariant) (hused : Used b.cells 1 state) : b.ensure b.base.length state = b := by
  have hzero : state + 1 - b.base.length = 0 := by
    rw [hb.aligned.base]
    exact Nat.sub_eq_zero_of_le (hb.lt_length hused)
  simp [DoubleArrayTrieBuilder.ensure, hzero]

/-- **A transition that is added attaches a free cell**, wherever the children of the state go for it. -/
theorem addTransition_spec (hb : b.Invariant) (hused : Used b.cells 1 state) (hself : b.cells.check state ≠ state)
    (hnone : DoubleArray.next toDatOffset b.cells state byte = none) (hclear : b.Clear state byte)
    (h : b.addTransition state byte = some (b', new)) : Adds b b' state byte new := by
  have hstate := hb.lt_length hused
  rw [addTransition, hb.ensure_self hused, placeBase] at h
  by_cases hbase : b.base.getD state (-1) < 0
  · -- a state without children gets a base that is free for the byte
    rw [if_pos hbase, bind_eq_some_iff] at h
    obtain ⟨b₁, hplaced, h⟩ := h
    obtain ⟨base, hfind, rfl⟩ := map_eq_some_iff.1 hplaced
    obtain ⟨hfree, hle⟩ := findFreeBase_spec (by simp) hfind byte (mem_singleton_self byte)
    have hread : (b.base.set state (base : Int)).getD state (-1) = base := by grind [hb.aligned.base]
    have hcells : { b with base := b.base.set state (base : Int) }.cells =
        { b.cells with base := update b.cells.base state (base : Int) } := cells_setBase hb.aligned hstate
    simp only [hread, Int.toNat_natCast] at h
    have hblank :
      ¬0 ≤ ({ b with base := b.base.set state (base : Int) }.ensure b.check.length (base + byte.toNat)).check.getD
        (base + byte.toNat) (-1) := by
      show ¬0 ≤ (DoubleArrayTrieBuilder.ensure _ _ _).cells.check _
      rw [cells_ensure, hcells]
      exact fun hcheck => hfree (.inr hcheck)
    rw [if_neg hblank] at h
    obtain ⟨rfl, rfl⟩ := Prod.mk.inj (some.inj h)
    exact adds_of_rebased hb hused hself (hb.aligned.setBase state base) le_rfl hb.length (le_max_left ..)
      (Rebased.of_leaf hb.sound hbase) hcells hfree hle rfl rfl rfl
  · rw [if_neg hbase, bind_some] at h
    have hbase' : 0 ≤ b.base.getD state (-1) := by omega
    obtain ⟨hroot, hle⟩ := hclear hbase'
    let slot := (b.base.getD state (-1)).toNat + byte.toNat
    by_cases htaken : 0 ≤ (b.ensure b.check.length slot).check.getD slot (-1)
    · rw [if_pos htaken] at h
      have hcells := b.cells_ensure b.check.length slot
      have hinside : slot < b.check.length := by
        refine hb.lt_length (.inr ?_)
        rw [← hcells]
        exact htaken
      have hsame := b.length_ensure ((b.base.getD state (-1)).toNat + byte.toNat)
      have hadds := relocate_spec (hb.ensure hle) (hcells.symm ▸ hused) (hcells.symm ▸ hself) (hcells.symm ▸ hnone)
        (hcells.symm ▸ hbase') h
      exact ⟨hadds.invariant, hcells ▸ hadds.attached, hadds.termCount, by have := hadds.length; omega, hcells ▸ hadds.base⟩
    · rw [if_neg htaken] at h
      obtain ⟨rfl, rfl⟩ := Prod.mk.inj (some.inj h)
      refine adds_of_rebased hb hused hself hb.aligned le_rfl hb.length (le_max_left ..)
        (Rebased.refl hb.sound) ?_ ?_ hle rfl rfl rfl
      · have hsame : ((b.cells.base state).toNat : Int) = _ := Int.toNat_of_nonneg hbase'
        rw [hsame, update_eq_self]
      · rintro (heq | hcheck)
        · exact hroot heq
        · refine htaken ?_
          show 0 ≤ (b.ensure _ _).cells.check _
          rw [cells_ensure]
          exact hcheck

structure Within (b : DoubleArrayTrieBuilder V) (L : Nat) : Prop where
  length : b.check.length ≤ L
  base : ∀ x, b.cells.base x ≤ L

variable {L : Nat}

theorem Within.mono {L' : Nat} (h : b.Within L) (hle : L ≤ L') : b.Within L' := by
  refine ⟨le_trans h.length hle, fun x => ?_⟩
  have := h.base x
  omega

theorem Adds.within (h : Adds b b' state byte new) (hL : b.Within L) (hnew : new ≤ L + 511) : b'.Within (L + 768) := by
  refine ⟨?_, h.base (L + 768) (fun x => ?_) (by omega)⟩
  · have := h.length
    have := hL.length
    omega
  · have := hL.base x
    omega

/-- **With room in `i32` a transition is added**, and the arrays grow by less than 768 cells. -/
theorem addTransition_total (hb : b.Invariant) (hused : Used b.cells 1 state) (hL : b.Within L) (hlow : 1254 ≤ L)
    (hroom : L + 768 ≤ i32Max) (byte : UInt8) : ∃ b' new, b.addTransition state byte = some (b', new) ∧ new ≤ L + 511 := by
  have hstate := hb.lt_length hused
  have hbyte := byte.toNat_lt
  have hlen := hL.length
  -- the rest of the function, from arrays whose state has a base
  have hrest : ∀ b₁ : DoubleArrayTrieBuilder V, b₁.check.length = b.check.length → (b₁.base.getD state (-1)).toNat ≤ L →
      ∃ b' new, (let next := (b₁.base.getD state (-1)).toNat + byte.toNat
        let b := b₁.ensure b₁.check.length next
        if 0 ≤ b.check.getD next (-1) then b.relocate state next byte else some (b.claim state next)) =
          some (b', new) ∧ new ≤ L + 511 := by
    intro b₁ hlen₁ hbase₁
    simp only
    generalize hnext : (b₁.base.getD state (-1)).toNat + byte.toNat = next
    split
    · have hlength := b₁.length_ensure next
      rw [relocate]
      obtain ⟨newBase, hfind, hle⟩ := findFreeBase_total (b₁.ensure b₁.check.length next) (next + 1) _ (by omega)
      rw [hfind]
      exact ⟨_, _, rfl, by omega⟩
    · exact ⟨_, _, rfl, by omega⟩
  rw [addTransition, hb.ensure_self hused, placeBase]
  by_cases hbase : b.base.getD state (-1) < 0
  · rw [if_pos hbase]
    have hstart : state * 31 % 1000 + byte.toNat ≤ 1254 := by
      have := Nat.mod_lt (state * 31) (show 0 < 1000 by decide)
      omega
    obtain ⟨base, hfind, hle⟩ := b.findFreeBase_total (state * 31 % 1000 + byte.toNat) [byte] (by omega)
    rw [hfind]
    refine hrest _ rfl ?_
    simp only [getD_set _ (hb.aligned.base ▸ hstate), if_true, Int.toNat_natCast]
    omega
  · rw [if_neg hbase]
    have hle : b.base.getD state (-1) ≤ L := hL.base state
    exact hrest b rfl (by omega)

end

/-! ## Inserting a term -/

def PathClear : DoubleArrayTrieBuilder V → Nat → List UInt8 → Prop
  | _, _, [] => True
  | b, state, byte :: bytes => match b.transition state byte with
    | some next => PathClear b next bytes
    | none => b.Clear state byte ∧ match b.addTransition state byte with
      | some (b', next) => PathClear b' next bytes
      | none => True

def map (b : DoubleArrayTrieBuilder V) : List UInt8 → Option (Option V) := entry toDatOffset b.cells 1

variable {L : Nat} {b b' : DoubleArrayTrieBuilder V} {ops : List (List UInt8 × Option V)}

section
variable (hb : b.Invariant) (hp : walk toDatOffset b.cells 1 p = some state)
include hb hp

theorem transition_of_walk (byte : UInt8) : b.transition state byte = DoubleArray.next toDatOffset b.cells state byte := by
  refine transition_eq ?_ byte
  have := hb.lt_length (used_of_walk hp)
  have := hb.length
  omega

theorem adds_of_walk {new : Nat} (hstep : DoubleArray.next toDatOffset b.cells state byte = none)
    (hclear : b.Clear state byte) (h : b.addTransition state byte = some (b', new)) :
    Adds b b' state byte new ∧ walk toDatOffset b'.cells 1 (p ++ [byte]) = some new := by
  have hadds := addTransition_spec hb (used_of_walk hp) (check_ne_self DatUnit.injective hb.sound hp) hstep hclear h
  obtain ⟨ρ, hattached⟩ := hadds.attached
  have hwalk := hattached.walk_eq (tree DatUnit.injective hb.sound.root) (fun _ _ => used_of_walk) hp hstep (p ++ [byte])
  rw [if_pos rfl] at hwalk
  exact ⟨hadds, hwalk⟩

theorem followPath_spec {t : Nat} (hclear : b.PathClear state bytes) (h : b.followPath state bytes = some (b', t)) :
    b'.Invariant ∧ walk toDatOffset b'.cells 1 (p ++ bytes) = some t ∧ b'.map = b.map ∧ b'.termCount = b.termCount := by
  induction bytes generalizing b state p with
  | nil =>
    obtain ⟨rfl, rfl⟩ := Prod.mk.inj (some.inj h)
    rw [append_nil]
    exact ⟨hb, hp, rfl, rfl⟩
  | cons byte bytes ih =>
    rw [followPath] at h
    rw [PathClear] at hclear
    cases hstep : b.transition state byte with simp only [hstep] at h hclear
    | some next =>
      rw [transition_of_walk hb hp] at hstep
      have := ih hb (walk_concat_eq_some.2 ⟨state, hp, hstep⟩) hclear h
      rwa [append_assoc] at this
    | none =>
      rw [transition_of_walk hb hp] at hstep
      cases hadd : b.addTransition state byte with
      | none => simp [hadd] at h
      | some out =>
        obtain ⟨b₁, next⟩ := out
        simp only [hadd] at h hclear
        obtain ⟨hadds, hwalk⟩ := adds_of_walk hb hp hstep hclear.1 hadd
        obtain ⟨ρ, hattached⟩ := hadds.attached
        obtain ⟨hb', hp', hmap, hcount⟩ := ih hadds.invariant hwalk hclear.2 h
        rw [append_assoc] at hp'
        have hsame := hattached.entry_eq (tree DatUnit.injective hb.sound.root) (fun _ _ => used_of_walk) hp hstep
        exact ⟨hb', hp', hmap.trans hsame, hcount.trans hadds.termCount⟩

theorem followPath_total (hclear : b.PathClear state bytes) (hL : b.Within L) (hlow : 1254 ≤ L)
    (hroom : L + 768 * bytes.length ≤ i32Max) :
    ∃ b' t, b.followPath state bytes = some (b', t) ∧ b'.Within (L + 768 * bytes.length) := by
  induction bytes generalizing b state p L with
  | nil => exact ⟨b, state, rfl, hL⟩
  | cons byte bytes ih =>
    have hused := used_of_walk hp
    rw [length_cons, Nat.mul_succ, add_comm (768 * bytes.length) 768, ← add_assoc] at hroom ⊢
    have hroom₁ : L + 768 ≤ i32Max := le_trans (Nat.le_add_right _ _) hroom
    rw [followPath]
    rw [PathClear] at hclear
    cases hstep : b.transition state byte with simp only [hstep] at hclear ⊢
    | some next =>
      rw [transition_of_walk hb hp] at hstep
      obtain ⟨b', t, hpath, hwithin⟩ := ih hb (walk_concat_eq_some.2 ⟨state, hp, hstep⟩) hclear hL hlow (by omega)
      exact ⟨b', t, hpath, hwithin.mono (by omega)⟩
    | none =>
      rw [transition_of_walk hb hp] at hstep
      obtain ⟨b₁, next, hadd, hnext⟩ := addTransition_total hb hused hL hlow hroom₁ byte
      simp only [hadd] at hclear ⊢
      obtain ⟨hadds, hwalk⟩ := adds_of_walk hb hp hstep hclear.1 hadd
      exact ih hadds.invariant hwalk hclear.2 (hadds.within hL hnext) (le_trans hlow (Nat.le_add_right _ _)) hroom

end

structure Marks (b b' : DoubleArrayTrieBuilder V) (term : List UInt8) (value : Option V) : Prop where
  invariant : b'.Invariant
  map : b'.map = inserted b.map term value
  termCount : b'.termCount = b.termCount + if (b.map term).isSome then 0 else 1

variable {term : List UInt8} {state : Nat}

theorem map_of_walk (hp : walk toDatOffset b.cells 1 term = some state) :
    b.map term = if b.isFinal.getD state false then some (b.values.getD state none) else none := by
  show (walk toDatOffset b.cells 1 term).bind _ = _
  rw [hp]
  rfl

theorem Invariant.mark (hb : b.Invariant) (b' : DoubleArrayTrieBuilder V)
    (hp : walk toDatOffset b.cells 1 term = some state) (ha : b'.Aligned) (hlen : b'.check = b.check) {v : Option V}
    (hcells : b'.cells = b.cells.mark state v) : b'.Invariant ∧ b'.map = update b.map term (some v) := by
  refine ⟨⟨ha, ?_, hlen ▸ hb.length, hlen ▸ hb.root⟩, ?_⟩
  · rw [hcells]
    exact hb.sound.mark (used_of_walk hp) v
  · rw [map, hcells]
    exact entry_mark DatUnit.injective hb.sound.root hp v

theorem markFinal_spec (hb : b.Invariant) (hp : walk toDatOffset b.cells 1 term = some state) (value : Option V) :
    Marks b (b.markFinal state value).2 term value ∧ (b.markFinal state value).1 = (b.map term).isNone := by
  have hstate := hb.lt_length (used_of_walk hp)
  have hfinalLen : state < b.isFinal.length := hb.aligned.isFinal ▸ hstate
  have hvalueLen : state < b.values.length := hb.aligned.values ▸ hstate
  have hentry := map_of_walk hp
  rw [markFinal, lt_length_and_getD]
  by_cases hfinal : b.isFinal.getD state false = true
  · rw [if_pos hfinal] at hentry ⊢
    cases value with
    | none =>
      refine ⟨⟨hb, ?_, ?_⟩, by rw [hentry]; rfl⟩
      · show b.map = update b.map term (some ((b.map term).join))
        rw [hentry, join_some, ← hentry, update_eq_self]
      · rw [hentry]
        rfl
    | some v =>
      have hcells : { b with values := b.values.set state (some v) }.cells = b.cells.mark state (some v) := by
        refine Cells.ext rfl rfl ?_ (update_getD _ hvalueLen _)
        show b.cells.isFinal = update b.cells.isFinal state true
        rw [← show b.cells.isFinal state = true from hfinal, update_eq_self]
      have hmark := hb.mark { b with values := b.values.set state (some v) } hp
        ⟨hb.aligned.base, hb.aligned.isFinal, length_set.trans hb.aligned.values⟩ rfl hcells
      simp only [isSome_some, Bool.true_and, hvalueLen, decide_true, if_true]
      refine ⟨⟨hmark.1, hmark.2, ?_⟩, by rw [hentry]; rfl⟩
      rw [hentry]
      rfl
  · rw [if_neg hfinal] at hentry ⊢
    have hzero : state + 1 - b.isFinal.length = 0 := by omega
    have hzero' : state + 1 - b.values.length = 0 := by omega
    simp only [hzero, hzero', replicate_zero, append_nil]
    have hmark := hb.mark ⟨b.base, b.check, b.isFinal.set state true, b.values.set state value, b.termCount + 1⟩ hp
      ⟨hb.aligned.base, length_set.trans hb.aligned.isFinal, length_set.trans hb.aligned.values⟩ rfl
      (Cells.ext rfl rfl (update_getD _ hfinalLen _) (update_getD _ hvalueLen _))
    refine ⟨⟨hmark.1, hmark.2.trans ?_, ?_⟩, by rw [hentry]; rfl⟩
    · rw [inserted, hentry]
      cases value <;> rfl
    · rw [hentry]
      rfl

theorem markRoot_eq (hb : b.Invariant) (value : Option V) : b.markRoot value = b.markFinal 1 value := by
  have hfinalLen : 1 < b.isFinal.length := hb.aligned.isFinal ▸ hb.root
  have hvalueLen : 1 < b.values.length := hb.aligned.values ▸ hb.root
  have hzero : 2 - b.isFinal.length = 0 := by omega
  have hzero' : 2 - b.values.length = 0 := by omega
  simp [markRoot, markFinal, hzero, hzero', hfinalLen, hvalueLen]

variable {L : Nat} {b b' : DoubleArrayTrieBuilder V} {ops : List (List UInt8 × Option V)}

theorem insertWithValue_spec (hb : b.Invariant) {value : Option V} (hclear : b.PathClear 1 term) {isNew : Bool}
    (h : b.insertWithValue term value = some (isNew, b')) :
    Marks b b' term value ∧ isNew = (b.map term).isNone := by
  rw [insertWithValue] at h
  by_cases hterm : term = []
  · rw [if_pos hterm, markRoot_eq hb] at h
    have hp : walk toDatOffset b.cells 1 term = some 1 := by
      rw [hterm]
      rfl
    have hspec := markFinal_spec hb hp value
    rwa [some.inj h] at hspec
  · rw [if_neg hterm, map_eq_some_iff] at h
    obtain ⟨⟨b₁, state⟩, hpath, hmark⟩ := h
    obtain ⟨hb₁, hp, hmap, hcount⟩ := followPath_spec hb (p := []) rfl hclear hpath
    rw [nil_append] at hp
    have hspec := markFinal_spec hb₁ hp value
    have hmark' : b₁.markFinal state value = (isNew, b') := hmark
    rw [hmark', hmap] at hspec
    exact ⟨⟨hspec.1.invariant, hmap ▸ hspec.1.map, by rw [hspec.1.termCount, hcount, hmap]⟩, hspec.2⟩

theorem within_markFinal (hL : b.Within L) (state : Nat) (value : Option V) : (b.markFinal state value).2.Within L := by
  rw [markFinal]
  split
  · split <;> exact ⟨hL.length, hL.base⟩
  · exact ⟨hL.length, hL.base⟩

theorem insertWithValue_total (hb : b.Invariant) (value : Option V) (hclear : b.PathClear 1 term) (hL : b.Within L)
    (hlow : 1254 ≤ L) (hroom : L + 768 * term.length ≤ i32Max) :
    ∃ isNew b', b.insertWithValue term value = some (isNew, b') ∧ b'.Within (L + 768 * term.length) := by
  rw [insertWithValue]
  by_cases hterm : term = []
  · rw [if_pos hterm, markRoot_eq hb, hterm]
    exact ⟨_, _, rfl, within_markFinal hL 1 value⟩
  · rw [if_neg hterm]
    obtain ⟨b₁, state, hpath, hwithin⟩ := followPath_total hb (p := []) rfl hclear hL hlow hroom
    rw [hpath]
    exact ⟨_, _, rfl, within_markFinal hwithin state value⟩

/-! ## All the insertions -/

def RunClear : DoubleArrayTrieBuilder V → List (List UInt8 × Option V) → Prop
  | _, [] => True
  | b, (term, value) :: ops => b.PathClear 1 term ∧ match b.insertWithValue term value with
    | some (_, b') => RunClear b' ops
    | none => True

theorem check_new (x : Nat) : (new : DoubleArrayTrieBuilder V).cells.check x = -1 := by
  match x with
  | 0 => rfl
  | 1 => rfl
  | x + 2 => rfl

theorem invariant_new : (new : DoubleArrayTrieBuilder V).Invariant := by
  refine ⟨⟨rfl, rfl, rfl⟩, ⟨by rw [check_new]; decide, fun x hx => ?_, fun x hx => ?_⟩,
    show 2 ≤ i32Max + 1 by decide, show 1 < 2 by decide⟩
  · rw [check_new] at hx
    omega
  · match x with
    | 0 => exact ⟨rfl, rfl, rfl⟩
    | 1 => exact absurd (.inl rfl) hx
    | x + 2 => exact ⟨rfl, rfl, rfl⟩

theorem map_new : (new : DoubleArrayTrieBuilder V).map = fun _ => none := by
  funext q
  cases q with
  | nil => rfl
  | cons byte q =>
    have hnone : DoubleArray.next toDatOffset (new : DoubleArrayTrieBuilder V).cells 1 byte = none := by
      refine eq_none_iff_forall_ne_some.2 fun t hnext => ?_
      have hcheck := (next_eq_some.1 hnext).2.2
      rw [check_new] at hcheck
      omega
    show ((DoubleArray.next toDatOffset (new : DoubleArrayTrieBuilder V).cells 1 byte).bind _).bind _ = none
    rw [hnone]
    rfl

theorem within_new : (new : DoubleArrayTrieBuilder V).Within 1254 := by
  refine ⟨show 2 ≤ 1254 by decide, fun x => ?_⟩
  match x with
  | 0 => exact (by decide : (-1 : Int) ≤ 1254)
  | 1 => exact (by decide : (0 : Int) ≤ 1254)
  | x + 2 => exact (by decide : (-1 : Int) ≤ 1254)

theorem insertAll_spec (hb : b.Invariant)
    {terms : Finset (List UInt8)} (ht : HasTerms b.map b.termCount terms) (hclear : b.RunClear ops)
    (h : b.insertAll ops = some b') :
    b'.Invariant ∧ b'.map = ops.foldl (fun m op => inserted m op.1 op.2) b.map ∧
      HasTerms b'.map b'.termCount (terms ∪ (ops.map Prod.fst).toFinset) := by
  induction ops generalizing b terms with
  | nil =>
    cases h
    simpa using ⟨hb, ht⟩
  | cons op ops ih =>
    obtain ⟨term, value⟩ := op
    obtain ⟨hpath, hrest⟩ := hclear
    obtain ⟨⟨isNew, b₁⟩, hinsert, hall⟩ := bind_eq_some_iff.1 h
    simp only [hinsert] at hrest
    have hmarks := (insertWithValue_spec hb hpath hinsert).1
    have ht₁ := ht.inserted term value
    rw [← hmarks.map, ← hmarks.termCount] at ht₁
    obtain ⟨hb', hmap, hterms⟩ := ih hmarks.invariant ht₁ hrest hall
    refine ⟨hb', ?_, ?_⟩
    · rw [hmap, hmarks.map]
      rfl
    · rw [map_cons, toFinset_cons, Finset.union_insert, ← Finset.insert_union]
      exact hterms

theorem insertAll_total (hb : b.Invariant) (hclear : b.RunClear ops) (hL : b.Within L) (hlow : 1254 ≤ L)
    (hroom : L + 768 * (ops.map fun op => op.1.length).sum ≤ i32Max) : ∃ b', b.insertAll ops = some b' := by
  induction ops generalizing b L with
  | nil => exact ⟨b, rfl⟩
  | cons op ops ih =>
    obtain ⟨term, value⟩ := op
    obtain ⟨hpath, hrest⟩ := hclear
    rw [map_cons, sum_cons, Nat.mul_add, ← add_assoc] at hroom
    obtain ⟨isNew, b₁, hinsert, hwithin⟩ := insertWithValue_total hb value hpath hL hlow
      (le_trans (Nat.le_add_right _ _) hroom)
    simp only [hinsert] at hrest
    have hmarks := (insertWithValue_spec hb hpath hinsert).1
    obtain ⟨b', hall⟩ := ih hmarks.invariant hrest hwithin (le_trans hlow (Nat.le_add_right _ _)) hroom
    exact ⟨b', by rw [insertAll, hinsert]; exact hall⟩

/-- **The built trie is the map of the insertions**, if no transition that is added takes the root's cell or a cell beyond
`i32::MAX`.  Two million bytes of terms do not exhaust the bases. -/
theorem built_agrees (ops : List (List UInt8 × Option V)) (hclear : new.RunClear ops) : (∀ b, new.insertAll ops = some b →
      (∀ q, b.build.contains q = (mapOf ops q).isSome) ∧ (∀ q, b.build.getValue q = (mapOf ops q).join) ∧
        b.build.len = some (ops.map Prod.fst).toFinset.card) ∧
    ((ops.map fun op => op.1.length).sum ≤ 2000000 → ∃ b, new.insertAll ops = some b) := by
  refine ⟨fun b hrun => ?_, fun hsmall => insertAll_total invariant_new hclear within_new le_rfl ?_⟩
  · have hnone : HasTerms (new : DoubleArrayTrieBuilder V).map 0 ∅ := by
      rw [map_new]
      exact hasTerms_empty
    obtain ⟨hb, hmap, hterms⟩ := insertAll_spec invariant_new hnone hclear hrun
    rw [map_new] at hmap
    have hentry : ∀ q, entry toDatOffset b.parts.cells 1 q = mapOf ops q := fun q => congrFun hmap q
    refine ⟨fun q => ?_, fun q => ?_, ?_⟩
    · rw [← hentry]
      exact (termReads_eq hb.length q (by decide)).1
    · rw [← hentry]
      exact (termReads_eq hb.length q (by decide)).2
    · rw [Finset.empty_union] at hterms
      exact congrArg some hterms.count
  · unfold i32Max
    omega

/-! ## Which terms are clear -/

theorem pathClear_of_bytes (hb : b.Invariant) (hp : walk toDatOffset b.cells 1 p = some state)
    (hbytes : ∀ byte ∈ bytes, 2 ≤ byte.toNat)
    (hL : b.Within L) (hlow : 1254 ≤ L) (hroom : L + 768 * bytes.length ≤ i32Max) : b.PathClear state bytes := by
  induction bytes generalizing b state p L with
  | nil => trivial
  | cons byte bytes ih =>
    have hused := used_of_walk hp
    have hbyte := hbytes byte (.head _)
    have hrest : ∀ w ∈ bytes, 2 ≤ w.toNat := fun w hw => hbytes w (.tail _ hw)
    rw [length_cons, Nat.mul_succ, add_comm (768 * bytes.length) 768, ← add_assoc] at hroom
    have hroom₁ : L + 768 ≤ i32Max := le_trans (Nat.le_add_right _ _) hroom
    rw [PathClear]
    cases hstep : b.transition state byte with rw [transition_of_walk hb hp] at hstep
    | some next =>
      exact ih hb (walk_concat_eq_some.2 ⟨state, hp, hstep⟩) hrest hL hlow
        (le_trans (Nat.add_le_add_right (Nat.le_add_right _ _) _) hroom)
    | none =>
      have hclear : b.Clear state byte := by
        intro h0
        have hbase : b.base.getD state (-1) ≤ L := hL.base state
        have := byte.toNat_lt
        exact ⟨by omega, by omega⟩
      refine ⟨hclear, ?_⟩
      obtain ⟨b₁, next, hadd, hnext⟩ := addTransition_total hb hused hL hlow hroom₁ byte
      simp only [hadd]
      obtain ⟨hadds, hwalk⟩ := adds_of_walk hb hp hstep hclear hadd
      exact ih hadds.invariant hwalk hrest (hadds.within hL hnext) (le_trans hlow (Nat.le_add_right _ _)) hroom

/-- **Terms without the bytes 0 and 1 are clear**, up to two million bytes of them. -/
theorem runClear_of_bytes (hb : b.Invariant)
    (hbytes : ∀ op ∈ ops, ∀ byte ∈ op.1, 2 ≤ byte.toNat) (hL : b.Within L) (hlow : 1254 ≤ L)
    (hroom : L + 768 * (ops.map fun op => op.1.length).sum ≤ i32Max) : b.RunClear ops := by
  induction ops generalizing b L with
  | nil => trivial
  | cons op ops ih =>
    obtain ⟨term, value⟩ := op
    rw [map_cons, sum_cons, Nat.mul_add, ← add_assoc] at hroom
    have hroom₁ : L + 768 * term.length ≤ i32Max := le_trans (Nat.le_add_right _ _) hroom
    have hpath : b.PathClear 1 term := pathClear_of_bytes hb (p := []) rfl (hbytes _ (.head _)) hL hlow hroom₁
    obtain ⟨isNew, b₁, hinsert, hwithin⟩ := insertWithValue_total hb value hpath hL hlow hroom₁
    refine ⟨hpath, ?_⟩
    simp only [hinsert]
    exact ih (insertWithValue_spec hb hpath hinsert).1.invariant (fun op hop => hbytes op (.tail _ hop))
      hwithin (le_trans hlow (Nat.le_add_right _ _)) hroom

/-! ## Two runs -/

/-- **The byte 1 makes the root its own child**: the term it ends is found at every repetition of it, the empty one too. -/
theorem byte_one_loops : ∃ b, new.insertAll [([1], some (3 : Nat))] = some b ∧ mapOf [([1], some (3 : Nat))] [] = none ∧
      mapOf [([1], some (3 : Nat))] [1, 1] = none ∧ b.build.contains [] = true ∧ b.build.contains [1, 1] = true :=
  ⟨_, rfl, rfl, rfl, rfl, rfl⟩

/-- The cell of `[67]` is taken by a child of `[65]`, so the root's children move. -/
def relocating : List (List UInt8 × Option Nat) := [([65], some 1), ([65, 26], none), ([67], some 3), ([65, 26], some 2)]

theorem built_agrees_relocating : ∃ b, new.insertAll relocating = some b ∧
    (∀ q, b.build.contains q = (mapOf relocating q).isSome) ∧
      (∀ q, b.build.getValue q = (mapOf relocating q).join) ∧ b.build.len = some 3 := by
  have hclear : new.RunClear relocating := runClear_of_bytes invariant_new (by decide +kernel) within_new le_rfl (by decide)
  obtain ⟨hagrees, htotal⟩ := built_agrees relocating hclear
  obtain ⟨b, hrun⟩ := htotal (by decide)
  obtain ⟨hcontains, hvalue, hlen⟩ := hagrees b hrun
  exact ⟨b, hrun, hcontains, hvalue, hlen.trans (by decide)⟩

end DoubleArrayTrieBuilder

end Dictenstein.Dat
