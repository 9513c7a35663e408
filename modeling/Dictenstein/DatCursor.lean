import Dictenstein.DatCertified
/-!
# DatCursor — the cursor reads of a double array, and the ones that trust the layout

The cursor reads of the raw arrays (`double_array_trie/core/shared.rs`) test every index and every CHECK entry; those of a
validated layout test neither. -/
namespace Dictenstein.Dat

open List Paths DATCoreShared

class CertifiedDatUnit (U : Type) [DatUnit U] where
  certifiedDatOffset : U → Nat
  tryFromCertifiedDatOffset : Nat → Option U
  offset_eq : ∀ u, certifiedDatOffset u = toDatOffset u
  tryFrom_offset : ∀ u, tryFromCertifiedDatOffset (certifiedDatOffset u) = some u

export CertifiedDatUnit (certifiedDatOffset tryFromCertifiedDatOffset)

open AdaptiveLabel in
instance : CertifiedDatUnit UInt8 where
  certifiedDatOffset := UInt8.toNat
  tryFromCertifiedDatOffset offset := if offset < 256 then some (UInt8.ofNat offset) else none
  offset_eq := DoubleArrayUnit.code_eq
  tryFrom_offset u := by rw [if_pos u.toNat_lt, UInt8.ofNat_toNat]

instance : CertifiedDatUnit Char where
  certifiedDatOffset := Char.toNat
  tryFromCertifiedDatOffset offset := if offset.isValidChar then some (Char.ofNat offset) else none
  offset_eq := DoubleArrayUnit.code_eq
  tryFrom_offset u := by rw [if_pos (by exact u.valid), Char.ofNat_toNat]

structure SnapshotTraversalCursor where
  get : Nat
  pos : 0 < get
deriving DecidableEq

def SnapshotTraversalCursor.new (value : Nat) : Option SnapshotTraversalCursor :=
  if h : 0 < value then some ⟨value, h⟩ else none

/-! ## The checked reads -/

namespace DATCoreShared

def traversalCursor (state : Nat) : Option SnapshotTraversalCursor :=
  if usizeMax < state + 1 then none else SnapshotTraversalCursor.new (state + 1)

section
variable {U V : Type} [DatUnit U] (d : DATCoreShared U V)

variable (cursor : SnapshotTraversalCursor)

def traversalState : Option Nat :=
  let state := cursor.get - 1
  if state < d.base.length ∧ state < d.isFinal.length ∧ state < d.edges.length then some state else none

def containsTraversalCursor (rootState : Nat) : Bool :=
  match d.traversalState cursor with
  | none => false
  | some state => decide (state < d.values.length) && (decide (state = rootState) || decide (0 ≤ d.check.getD state (-1)))

def checkedTarget (state base : Nat) (label : U) : Option SnapshotTraversalCursor :=
  let next := base + toDatOffset label
  if usizeMax < next then none
  -- an index of an array and its successor fit a usize, so the `expect` of the visitors never fails
  else if next < d.check.length ∧ d.check.getD next (-1) = asI32 state then traversalCursor next
  else none

def traversalCursorTransition (label : U) : Option (Option SnapshotTraversalCursor) :=
  match d.traversalState cursor with
  | none => none
  | some state =>
    if d.base.getD state (-1) < 0 then some none
    else some (d.checkedTarget state (d.base.getD state (-1)).toNat label)

section
variable {σ T : Type}

/-- The visitor is a closure over a state `σ`. -/
def visitTraversalCursorEdgePage (cursor : SnapshotTraversalCursor) (start capacity : Nat)
    (visitor : U → SnapshotTraversalCursor → StateM σ Unit) : StateM σ (Option (Bool × Nat)) :=
  match d.traversalState cursor with
  | none => pure none
  | some state => do
    let isFinal := d.isFinal.getD state false
    let labels := d.edges.getD state []
    let total := labels.length
    let base := d.base.getD state (-1)
    if base < 0 ∨ total ≤ start ∨ capacity = 0 then return some (isFinal, total)
    ((labels.drop start).take capacity).forM fun label =>
      match d.checkedTarget state base.toNat label with
      | none => pure ()
      | some child => visitor label child
    return some (isFinal, total)

def filterMapTraversalCursor (cursor : SnapshotTraversalCursor) (project : U → StateM σ (Option T))
    (visitor : U → SnapshotTraversalCursor → T → StateM σ Unit) : StateM σ (Option Bool) :=
  match d.traversalState cursor with
  | none => pure none
  | some state => do
    let isFinal := d.isFinal.getD state false
    let base := d.base.getD state (-1)
    if base < 0 then return some isFinal
    (d.edges.getD state []).forM fun label => do
      match ← project label with
      | none => pure ()
      | some projected => match d.checkedTarget state base.toNat label with
        | none => pure ()
        | some child => visitor label child projected
    return some isFinal

end
end
end DATCoreShared

/-! ## The trusting reads -/

namespace ValidatedDATCoreShared

variable {U V : Type} {root : Nat}

section
variable [DatUnit U] [CertifiedDatUnit U] (d : ValidatedDATCoreShared U V root)

def trustedState (cursor : SnapshotTraversalCursor) : Option Nat :=
  if d.raw.containsTraversalCursor cursor root then some (cursor.get - 1) else none

/-- The target of a listed label, with the assertions that stand before its use. -/
def trustedTarget (state base : Nat) (label : U) : Option SnapshotTraversalCursor :=
  let next := base + certifiedDatOffset label
  if usizeMax < next then none
  else if next < d.raw.check.length ∧ d.raw.check.getD next (-1) = asI32 state then SnapshotTraversalCursor.new (next + 1)
  else none

/-- `checked` is `use_checked_dat_cursor_edges`. -/
def traversalCursorTransition (checked : Bool) (cursor : SnapshotTraversalCursor) (label : U) :
    Option (Option (Option SnapshotTraversalCursor)) :=
  if checked then some (d.raw.traversalCursorTransition cursor label)
  else do
    let state ← d.trustedState cursor
    let base ← d.raw.base[state]?
    if base < 0 then return some none
    let next := base.toNat + certifiedDatOffset label
    if usizeMax < next then return some none
    return some (match d.raw.check[next]? with
      | none => none
      | some parent => if parent = asI32 state then traversalCursor next else none)

section
variable {σ T : Type}

def visitTraversalCursorEdgePage (checked : Bool) (cursor : SnapshotTraversalCursor) (start capacity : Nat)
    (visitor : U → SnapshotTraversalCursor → StateM σ Unit) : StateT σ Option (Option (Bool × Nat)) :=
  if checked then fun s => some (d.raw.visitTraversalCursorEdgePage cursor start capacity visitor s)
  else do
    let state ← d.trustedState cursor
    let isFinal ← d.raw.isFinal[state]?
    let labels ← d.raw.edges[state]?
    let total := labels.length
    if total ≤ start ∨ capacity = 0 then return some (isFinal, total)
    let base ← d.raw.base[state]?
    guard (0 ≤ base)
    ((labels.drop start).take capacity).forM fun label => do
      let child ← d.trustedTarget state base.toNat label
      fun s => some (visitor label child s)
    return some (isFinal, total)

def filterMapTraversalCursor (checked : Bool) (cursor : SnapshotTraversalCursor) (project : U → StateM σ (Option T))
    (visitor : U → SnapshotTraversalCursor → T → StateM σ Unit) : StateT σ Option (Option Bool) :=
  if checked then fun s => some (d.raw.filterMapTraversalCursor cursor project visitor s)
  else do
    let state ← d.trustedState cursor
    let isFinal ← d.raw.isFinal[state]?
    let labels ← d.raw.edges[state]?
    if labels.isEmpty then return some isFinal
    let base ← d.raw.base[state]?
    guard (0 ≤ base)
    labels.forM fun label => do
      match ← (fun s => some (project label s) : StateT σ Option (Option T)) with
      | none => pure ()
      | some projected =>
        let child ← d.trustedTarget state base.toNat label
        fun s => some (visitor label child projected s)
    return some isFinal

end

def toUsize (i : Int) : Option Nat := if i < 0 then none else some i.toNat

/-- The parent of a state and the label that leads to the state. -/
def parentOf (state : Nat) : Option (U × Nat) := do
  let parent ← toUsize (← d.raw.check[state]?)
  let base ← toUsize (← d.raw.base[parent]?)
  if state < base then none
  let unit ← tryFromCertifiedDatOffset (state - base)
  return (unit, parent)

def keyUnits [DecidableEq U] (relativeRoot : Nat) (remaining state : Nat) (units : List U) : Option (Option (List U)) :=
  if state = relativeRoot then some (some units.reverse)
  else match remaining with
    | 0 => some none
    | remaining + 1 => match d.parentOf state with
      | none => some none
      | some (unit, parent) =>
        if unit ∈ d.raw.edges.getD parent [] then keyUnits relativeRoot remaining parent (units ++ [unit]) else none

def traversalCursorKeyUnits [DecidableEq U] (cursor : SnapshotTraversalCursor) (relativeRootState : Nat) :
    Option (Option (List U)) := do
  let state ← d.trustedState cursor
  guard (relativeRootState < d.raw.base.length)
  d.keyUnits relativeRootState d.raw.base.length state []

end
end ValidatedDATCoreShared

/-! ## What the trusting reads give -/

section
variable {σ α β : Type}

@[simp]
theorem liftM_some_bind (a : α) (f : α → StateT σ Option β) : ((liftM (some a) : StateT σ Option α) >>= f) = f a := rfl

/-- A computation that trusts what the other one checks gives the same. -/
def Trusts (g : StateT σ Option α) (f : StateM σ α) : Prop := ∀ x, g x = some (f x)

namespace Trusts

theorem call (f : StateM σ α) : Trusts (fun x => some (f x)) f := fun _ => rfl

theorem pure (a : α) : Trusts (Pure.pure a : StateT σ Option α) (Pure.pure a) := fun _ => rfl

theorem bind {g : StateT σ Option α} {f : StateM σ α} {g' : α → StateT σ Option β} {f' : α → StateM σ β} (h : Trusts g f)
    (h' : ∀ a, Trusts (g' a) (f' a)) : Trusts (g >>= g') (f >>= f') := by
  intro x
  show (g x).bind (fun y => g' y.1 y.2) = some (f' (f x).1 (f x).2)
  rw [h x]
  exact h' _ _

theorem forM {f : α → StateM σ Unit} {g : α → StateT σ Option Unit} {l : List α} (h : ∀ a ∈ l, Trusts (g a) (f a)) :
    Trusts (l.forM g) (l.forM f) := by
  induction l with
  | nil => exact pure _
  | cons a l ih => exact bind (h a mem_cons_self) fun _ => ih fun b hb => h b (mem_cons_of_mem _ hb)

end Trusts
end

section
variable {U V : Type} [LinearOrder U] [DatUnit U] [CertifiedDatUnit U] {root count : Nat} {visited : List Nat}
  {d : ValidatedDATCoreShared U V root} {s : Nat} {cursor : SnapshotTraversalCursor}

variable (h : Accepted d.raw root count visited) (hs : s ∈ visited) (hcursor : cursor.get = s + 1)
include h hs hcursor

section
omit [CertifiedDatUnit U]

theorem traversalState_of_mem : d.raw.traversalState cursor = some s := by
  have hlt := h.lt s hs
  rw [traversalState, hcursor]
  exact if_pos ⟨hlt, h.isFinal_length.symm ▸ hlt, h.edges_length.symm ▸ hlt⟩

theorem trustedState_of_mem : d.trustedState cursor = some s := by
  have hparent : s = root ∨ 0 ≤ d.raw.check.getD s (-1) := by
    by_cases hroot : s = root
    · exact .inl hroot
    · rw [h.queued, mem_cons, mem_flatMap] at hs
      obtain ⟨s', hs', htarget⟩ := hs.resolve_left hroot
      exact .inr ((h.ok s' hs').check s htarget ▸ Int.natCast_nonneg s')
  have hvalue : s < d.raw.values.length := h.values_length.symm ▸ h.lt s hs
  rw [ValidatedDATCoreShared.trustedState, containsTraversalCursor, traversalState_of_mem h hs hcursor, hcursor]
  simpa [hvalue, or_iff_not_imp_left] using hparent

end

omit hcursor

omit [LinearOrder U] [DatUnit U] [CertifiedDatUnit U] h hs in
theorem getElem?_of_lt {α : Type} {l : List α} {i : Nat} (hi : i < l.length) (x : α) : l[i]? = some (l.getD i x) := by
  rw [getElem?_eq_getElem hi, getD_eq_getElem l x hi]

theorem trustedTarget_of_mem {u : U} (hu : u ∈ d.raw.edges.getD s []) :
    ∃ child, d.raw.checkedTarget s (d.raw.base.getD s (-1)).toNat u = some child ∧
      d.trustedTarget s (d.raw.base.getD s (-1)).toNat u = some child := by
  have hl := listed_eq_some.2 ⟨hu, rfl⟩
  have hcheck := h.check_of_listed hl
  have hin := h.mem_of_check hcheck
  have hlt := h.lt _ hin
  have hle := (h.ok _ hin).le
  have hself : asI32 s = s := asI32_of_le (h.ok s hs).le
  have husize : ¬usizeMax < (d.raw.base.getD s (-1)).toNat + toDatOffset u + 1 := by
    unfold usizeMax
    unfold i32Max at hle
    omega
  refine ⟨⟨(d.raw.base.getD s (-1)).toNat + toDatOffset u + 1, Nat.succ_pos _⟩, ?_, ?_⟩
  · rw [checkedTarget, if_neg (by omega), if_pos ⟨h.check_length.symm ▸ hlt, hself.symm ▸ hcheck⟩,
      traversalCursor, if_neg husize, SnapshotTraversalCursor.new, dif_pos (Nat.succ_pos _)]
  · rw [ValidatedDATCoreShared.trustedTarget, CertifiedDatUnit.offset_eq, if_neg (by omega),
      if_pos ⟨h.check_length.symm ▸ hlt, hself.symm ▸ hcheck⟩, SnapshotTraversalCursor.new, dif_pos (Nat.succ_pos _)]

theorem reads_of_mem : ∃ base isFinal labels, d.raw.base[s]? = some base ∧ d.raw.isFinal[s]? = some isFinal ∧
    d.raw.edges[s]? = some labels ∧ (labels ≠ [] → 0 ≤ base) ∧ ∀ u ∈ labels, ∃ child,
      d.raw.checkedTarget s base.toNat u = some child ∧ d.trustedTarget s base.toNat u = some child :=
  ⟨_, _, _, getElem?_of_lt (h.lt s hs) (-1), getElem?_of_lt (h.isFinal_length.symm ▸ h.lt s hs) false,
    getElem?_of_lt (h.edges_length.symm ▸ h.lt s hs) [], (h.ok s hs).base, fun _ => trustedTarget_of_mem h hs⟩

include hcursor

theorem transition_trusted (checked : Bool) (label : U) :
    d.traversalCursorTransition checked cursor label = some (d.raw.traversalCursorTransition cursor label) := by
  cases checked with
  | true => rfl
  | false =>
    have hread := getElem?_of_lt (h.lt s hs) (-1)
    rw [ValidatedDATCoreShared.traversalCursorTransition, traversalCursorTransition,
      trustedState_of_mem h hs hcursor, traversalState_of_mem h hs hcursor]
    dsimp only
    generalize d.raw.base.getD s (-1) = base at hread ⊢
    simp only [Bool.false_eq_true, if_false, Option.bind_eq_bind, Option.bind_some, hread, CertifiedDatUnit.offset_eq,
      checkedTarget]
    by_cases hbase : base < 0
    · simp [hbase]
    · by_cases husize : usizeMax < base.toNat + toDatOffset label
      · simp [hbase, husize]
      · by_cases hlt : base.toNat + toDatOffset label < d.raw.check.length
        · simp [hbase, husize, hlt]
        · simp [hbase, husize, hlt]

theorem edgePage_trusted {σ : Type} (checked : Bool) (start capacity : Nat)
    (visitor : U → SnapshotTraversalCursor → StateM σ Unit) :
    Trusts (d.visitTraversalCursorEdgePage checked cursor start capacity visitor)
      (d.raw.visitTraversalCursorEdgePage cursor start capacity visitor) := by
  cases checked with
  | true => exact Trusts.call _
  | false =>
    obtain ⟨base, isFinal, labels, hbase, hfinal, hedges, hlabels, htarget⟩ := reads_of_mem h hs
    rw [ValidatedDATCoreShared.visitTraversalCursorEdgePage, visitTraversalCursorEdgePage,
      trustedState_of_mem h hs hcursor, traversalState_of_mem h hs hcursor]
    dsimp only
    simp only [Bool.false_eq_true, if_false, liftM_some_bind, getD_eq_getElem?_getD, hbase, hfinal, hedges,
      Option.getD_some]
    by_cases hpage : labels.length ≤ start ∨ capacity = 0
    · rw [if_pos hpage, if_pos (.inr hpage)]
      exact Trusts.pure _
    · have hnonneg : 0 ≤ base := by
        refine hlabels ?_
        rintro rfl
        exact hpage (.inl (Nat.zero_le _))
      rw [if_neg hpage, if_neg fun hbad => hbad.elim (Int.not_lt.2 hnonneg) hpage, guard, if_pos hnonneg, pure_bind]
      refine Trusts.bind (Trusts.forM fun u hu => ?_) fun _ => Trusts.pure _
      obtain ⟨child, hchecked, htrusted⟩ := htarget u (mem_of_mem_drop (mem_of_mem_take hu))
      rw [hchecked, htrusted, liftM_some_bind]
      exact Trusts.call _

theorem filterMap_trusted {σ T : Type} (checked : Bool) (project : U → StateM σ (Option T))
    (visitor : U → SnapshotTraversalCursor → T → StateM σ Unit) :
    Trusts (d.filterMapTraversalCursor checked cursor project visitor)
      (d.raw.filterMapTraversalCursor cursor project visitor) := by
  cases checked with
  | true => exact Trusts.call _
  | false =>
    obtain ⟨base, isFinal, labels, hbase, hfinal, hedges, hlabels, htarget⟩ := reads_of_mem h hs
    rw [ValidatedDATCoreShared.filterMapTraversalCursor, filterMapTraversalCursor,
      trustedState_of_mem h hs hcursor, traversalState_of_mem h hs hcursor]
    dsimp only
    simp only [Bool.false_eq_true, if_false, liftM_some_bind, getD_eq_getElem?_getD, hbase, hfinal, hedges,
      Option.getD_some]
    by_cases hnil : labels = []
    · -- without labels the one returns before it looks at BASE, the other after it
      subst hnil
      rw [isEmpty_nil, if_pos rfl]
      split
      all_goals exact Trusts.pure _
    · have hnonneg := hlabels hnil
      rw [if_neg (by simpa using hnil), if_neg (Int.not_lt.2 hnonneg), guard, if_pos hnonneg, pure_bind]
      refine Trusts.bind (Trusts.forM fun u hu => Trusts.bind (Trusts.call _) fun projected => ?_) fun _ => Trusts.pure _
      obtain ⟨child, hchecked, htrusted⟩ := htarget u hu
      rw [hchecked, htrusted]
      cases projected with
      | none => exact Trusts.pure _
      | some projected => exact Trusts.call _

/-! ## The key of a cursor -/

omit hs hcursor

theorem parentOf_of_listed {t : Nat} {u : U} (hl : d.raw.listed s u = some t) : d.parentOf t = some (u, s) := by
  have hcheck := h.check_of_listed hl
  have hbase := h.base_of_listed hl
  have ht := (listed_eq_some.1 hl).2
  have hlt : t < d.raw.check.length := h.check_length.symm ▸ h.lt t (h.mem_of_check hcheck)
  have hread := getElem?_of_lt (h.lt s (h.mem_of_listed hl)) (-1)
  rw [ValidatedDATCoreShared.parentOf, getElem?_of_lt hlt (-1), hcheck]
  generalize d.raw.base.getD s (-1) = base at hbase ht hread
  have hoffset : t - base.toNat = certifiedDatOffset u := by
    rw [CertifiedDatUnit.offset_eq]
    omega
  simp only [Option.bind_eq_bind, Option.bind_some, ValidatedDATCoreShared.toUsize, Int.toNat_natCast,
    if_neg (Int.not_lt.2 (Int.natCast_nonneg s)), hread, if_neg (Int.not_lt.2 hbase), hoffset,
      CertifiedDatUnit.tryFrom_offset]
  rw [if_neg (by omega)]
  rfl

theorem keyUnits_of_walk {p q : List U} {t : Nat} (hp : walk d.raw.listed root p = some s)
    (hq : walk d.raw.listed s q = some t) {remaining : Nat} (hremaining : q.length ≤ remaining) (units : List U) :
    d.keyUnits s remaining t units = some (some (q ++ units.reverse)) := by
  induction q using List.reverseRecOn generalizing t remaining units with
  | nil =>
    obtain rfl : s = t := Option.some.inj hq
    rw [ValidatedDATCoreShared.keyUnits.eq_def, if_pos rfl, nil_append]
  | append_singleton q u ih =>
    have hne : t ≠ s := by
      rintro rfl
      have hlong : walk d.raw.listed root (p ++ (q ++ [u])) = some t := by rw [walk_append, hp]; exact hq
      have := congrArg List.length (walk_inj h.tree hlong hp)
      simp at this
    obtain ⟨m, hm, hu⟩ := walk_concat_eq_some.1 hq
    rw [length_append, length_singleton] at hremaining
    obtain ⟨rest, rfl⟩ := Nat.exists_eq_add_of_le' (Nat.le_trans (Nat.le_add_left 1 q.length) hremaining)
    rw [ValidatedDATCoreShared.keyUnits, if_neg hne, parentOf_of_listed h hu]
    dsimp only
    rw [if_pos (listed_eq_some.1 hu).1, ih hm (by omega) (units ++ [u])]
    simp

theorem keyUnits_of_cursor {p q : List U} {t : Nat} (hp : walk d.raw.listed root p = some s)
    (hq : walk d.raw.listed s q = some t) (hcursor : cursor.get = t + 1) :
    d.traversalCursorKeyUnits cursor s = some (some q) := by
  have hpq : walk d.raw.listed root (p ++ q) = some t := by rw [walk_append, hp]; exact hq
  have hshort : (p ++ q).length < (Finset.range d.raw.base.length).card :=
    walk_length_lt h.tree (fun _ _ hw => Finset.mem_range.2 (h.lt _ (h.mem_of_walk hw))) hpq
  rw [Finset.card_range, length_append] at hshort
  rw [ValidatedDATCoreShared.traversalCursorKeyUnits, trustedState_of_mem h (h.mem_of_walk hpq) hcursor, guard,
    if_pos (h.lt s (h.mem_of_walk hp))]
  simp only [Option.bind_eq_bind, Option.bind_some, Option.pure_def]
  rw [keyUnits_of_walk h hp hq (by omega) []]
  simp

end

/-! ## The number of words -/

section
variable {U V : Type} [DatUnit U] {d : DATCoreShared U V}

theorem containsTermFrom_iff (w : List U) (s : Nat) :
    d.containsTermFrom w s = true ↔ ∃ t, walk d.transition s w = some t ∧ d.isFinal.getD t false = true := by
  induction w generalizing s with
  | nil =>
    rw [containsTermFrom, lt_length_and_getD]
    refine ⟨fun hf => ⟨s, rfl, hf⟩, ?_⟩
    rintro ⟨t, ht, hf⟩
    exact Option.some.inj ht ▸ hf
  | cons u w ih =>
    rw [containsTermFrom, walk]
    cases ht : d.transition s u with
    | none => simp
    | some t => exact ih t

/-- **The words lead one by one to the visited states that are final.** -/
theorem ncard_words [LinearOrder U] {root count : Nat} {visited : List Nat} (h : Accepted d root count visited)
    (hloop : ∀ u, d.transition root u ≠ some root) :
    {w | d.containsTermFrom w root = true}.Finite ∧ {w | d.containsTermFrom w root = true}.ncard = count := by
  have hmem : ∀ w, d.containsTermFrom w root = true ↔ ∃ t, walk d.listed root w = some t ∧
    d.isFinal.getD t false = true := by
    intro w
    rw [containsTermFrom_iff, h.walk_eq hloop]
  have hinj : Set.InjOn (fun w => (walk d.listed root w).getD root) {w | d.containsTermFrom w root = true} := by
    intro w hw w' hw' heq
    obtain ⟨t, ht, -⟩ := (hmem w).1 hw
    obtain ⟨t', ht', -⟩ := (hmem w').1 hw'
    simp only [ht, ht', Option.getD_some] at heq
    exact walk_inj h.tree ht (heq ▸ ht')
  have himage : (fun w => (walk d.listed root w).getD root) '' {w | d.containsTermFrom w root = true} =
      ((visited.filter fun s => d.isFinal.getD s false).toFinset : Finset Nat) := by
    ext s
    rw [Finset.mem_coe, mem_toFinset, mem_filter]
    constructor
    · rintro ⟨w, hw, rfl⟩
      obtain ⟨t, ht, hfinal⟩ := (hmem w).1 hw
      simp only [ht, Option.getD_some]
      exact ⟨h.mem_of_walk ht, hfinal⟩
    · rintro ⟨hs, hfinal⟩
      obtain ⟨p, hp⟩ := h.path s hs
      exact ⟨p, (hmem p).2 ⟨s, hp, hfinal⟩, by simp only [hp, Option.getD_some]⟩
  refine ⟨Set.Finite.of_finite_image (himage ▸ Finset.finite_toSet _) hinj, ?_⟩
  rw [← hinj.ncard_image, himage, Set.ncard_coe_finset, toFinset_card_of_nodup (h.nodup.filter _),
    ← countP_eq_length_filter, ← h.count]

end

/-! ## An accepted layout -/

section
variable {U V : Type} [LinearOrder U] [DatUnit U]

theorem accepted_of_tryFromUntrusted {root fuel declared : Nat} {raw : DATCoreShared U V}
    {d : ValidatedDATCoreShared U V root}
    (h : ValidatedDATCoreShared.tryFromUntrusted fuel raw declared = some (.ok d)) :
    d.raw = raw ∧ ∃ visited, Accepted raw root declared visited := by
  rw [ValidatedDATCoreShared.tryFromUntrusted] at h
  split at h
  · cases h
  · injection h with h
    cases h
  · rename_i count hvalid
    split at h
    · injection h with h
      cases h
    · rename_i hdeclared
      obtain rfl : declared = count := not_not.1 hdeclared
      obtain rfl := Except.ok.inj (Option.some.inj h)
      exact ⟨rfl, accepted_of_validateLayout hvalid⟩

/-- What a validated layout promises of its reads. -/
structure Certified [CertifiedDatUnit U] {root : Nat} (d : ValidatedDATCoreShared U V root) (raw : DATCoreShared U V)
    (declared : Nat) : Prop where
  /-- From every reachable state BASE/CHECK steps succeed for the listed labels and only for them. -/
  step : ∀ p s, walk raw.transition root p = some s → ∀ u t, raw.transition s u = some t ↔
    u ∈ raw.edges.getD s [] ∧ t = (raw.base.getD s (-1)).toNat + toDatOffset u
  /-- The trusting reads give what the checked ones give. -/
  reads : ∀ p s, walk raw.transition root p = some s →
    ∀ cursor : SnapshotTraversalCursor, cursor.get = s + 1 → ∀ checked : Bool,
      (∀ u, d.traversalCursorTransition checked cursor u = some (raw.traversalCursorTransition cursor u)) ∧
      (∀ (σ : Type) start capacity (visitor : U → SnapshotTraversalCursor → StateM σ Unit) x,
        d.visitTraversalCursorEdgePage checked cursor start capacity visitor x =
          some (raw.visitTraversalCursorEdgePage cursor start capacity visitor x)) ∧
      (∀ (σ T : Type) (project : U → StateM σ (Option T)) (visitor : U → SnapshotTraversalCursor → T → StateM σ Unit) x,
        d.filterMapTraversalCursor checked cursor project visitor x =
          some (raw.filterMapTraversalCursor cursor project visitor x))
  /-- The key of a cursor is the word of the path to it. -/
  keys : ∀ p s, walk raw.transition root p = some s → ∀ q t, walk raw.transition s q = some t →
    ∀ cursor : SnapshotTraversalCursor, cursor.get = t + 1 → d.traversalCursorKeyUnits cursor s = some (some q)
  finite : {w | raw.containsTermFrom w root = true}.Finite
  count : {w | raw.containsTermFrom w root = true}.ncard = declared

/-- **A layout accepted from outside keeps its promises exactly if no label leads the root to itself.** -/
theorem accepted_layout_certified_iff [CertifiedDatUnit U] {root fuel declared : Nat} {raw : DATCoreShared U V}
    {d : ValidatedDATCoreShared U V root}
    (h : ValidatedDATCoreShared.tryFromUntrusted fuel raw declared = some (.ok d)) :
    d.raw = raw ∧ (Certified d raw declared ↔ ∀ u, raw.transition root u ≠ some root) := by
  obtain ⟨rfl, visited, ha⟩ := accepted_of_tryFromUntrusted h
  refine ⟨rfl, fun hc u hu => ?_, fun hloop => ?_⟩
  · -- the root is no target of a listed edge
    exact ha.ne_root_of_listed (listed_eq_some.2 ((hc.step [] root rfl u root).1 hu)) rfl
  have hwalk {p : List U} {s : Nat} (hp : walk d.raw.transition root p = some s) : walk d.raw.listed root p = some s := by
    rwa [← ha.walk_eq hloop]
  obtain ⟨hfinite, hcount⟩ := ncard_words ha hloop
  refine ⟨fun p s hp u t => ?_, fun p s hp cursor hcursor checked => ?_, fun p s hp q t hq cursor hcursor => ?_,
    hfinite, hcount⟩
  · rw [ha.transition_eq hloop (ha.mem_of_walk (hwalk hp)), listed_eq_some]
  · have hs := ha.mem_of_walk (hwalk hp)
    exact ⟨transition_trusted ha hs hcursor checked, fun σ => edgePage_trusted ha hs hcursor checked,
      fun σ T => filterMap_trusted ha hs hcursor checked⟩
  · have hpq : walk d.raw.listed root (p ++ q) = some t := by
      rw [← ha.walk_eq hloop, walk_append, hp]
      exact hq
    rw [walk_append, hwalk hp] at hpq
    exact keyUnits_of_cursor ha (hwalk hp) hpq hcursor

/-- **A free list that is accepted with a layout** names distinct states that no word leads to. -/
theorem free_states_unreached {root fuel declared : Nat} {raw : DATCoreShared U V} {d : ValidatedDATCoreShared U V root}
    (h : ValidatedDATCoreShared.tryFromUntrusted fuel raw declared = some (.ok d)) (freeList : List Nat)
    (hfree : d.validateFreeList freeList = .ok ()) :
    freeList.Nodup ∧ ∀ s ∈ freeList, ∀ p, walk raw.transition root p ≠ some s := by
  obtain ⟨rfl, visited, ha⟩ := accepted_of_tryFromUntrusted h
  obtain ⟨hnodup, hunseen⟩ := validateFreeEntries_ok ha hfree
  refine ⟨hnodup, fun s hs p hp => (hunseen s hs).2 (walk_invariant ha.mem_root (fun s u t hs ht => ?_) hp)⟩
  rw [transition_eq (ha.ok s hs).le, DoubleArray.next_eq_some] at ht
  exact ha.mem_of_check ht.2.2

end

section
open scoped AdaptiveLabel

/-- Two states: the root at 1 and a final one that the byte 1 leads to. -/
def oneEdge : DATCoreShared UInt8 Nat :=
  ⟨[-1, 1, 0], [-1, -1, 1], [false, false, true], [[], [1], []], [none, none, some 7]⟩

theorem oneEdge_certified :
    (∃ d : ValidatedDATCoreShared UInt8 Nat 1, ValidatedDATCoreShared.tryFromUntrusted 9 oneEdge 1 = some (.ok d)) ∧
    {w | oneEdge.containsTermFrom w 1 = true}.ncard = 1 := by
  have haccept : ValidatedDATCoreShared.tryFromUntrusted 9 oneEdge 1 =
      some (.ok (⟨oneEdge, 1⟩ : ValidatedDATCoreShared UInt8 Nat 1)) := rfl
  have hloop : ∀ u, oneEdge.transition 1 u ≠ some 1 := by
    intro u hu
    rw [transition_eq (by decide), DoubleArray.next_eq_some] at hu
    exact absurd hu.2.2 (by decide)
  exact ⟨⟨_, haccept⟩, ((accepted_layout_certified_iff haccept).2.2 hloop).count⟩

def oneFree : DATCoreShared UInt8 Nat :=
  ⟨[-1, 1, 0, -1], [-1, -1, 1, -1], [false, false, true, false], [[], [1], [], []], [none, none, some 7, none]⟩

theorem oneFree_unreached : ∃ d : ValidatedDATCoreShared UInt8 Nat 1,
    ValidatedDATCoreShared.tryFromUntrusted 9 oneFree 1 = some (.ok d) ∧ ∀ p, walk oneFree.transition 1 p ≠ some 3 := by
  have haccept : ValidatedDATCoreShared.tryFromUntrusted 9 oneFree 1 =
      some (.ok (⟨oneFree, 1⟩ : ValidatedDATCoreShared UInt8 Nat 1)) := rfl
  exact ⟨_, haccept, (free_states_unreached haccept [3] rfl).2 3 (.head _)⟩

def ownParent : DATCoreShared UInt8 Nat := ⟨[-1, 0], [-1, 1], [false, true], [[], []], [none, none]⟩

/-- **A root that is its own parent is accepted**, and a byte that is not listed leads it to itself: more words are accepted
than are declared, and the key of the cursor is not the word of the path. -/
theorem ownParent_accepted :
    ∃ d : ValidatedDATCoreShared UInt8 Nat 1, ValidatedDATCoreShared.tryFromUntrusted 9 ownParent 1 = some (.ok d) ∧
      ownParent.transition 1 1 = some 1 ∧ (1 : UInt8) ∉ ownParent.edges.getD 1 [] ∧
      ownParent.containsTermFrom [] 1 = true ∧ ownParent.containsTermFrom [1] 1 = true ∧
      walk ownParent.transition 1 [1] = some 1 ∧ d.traversalCursorKeyUnits ⟨2, by decide⟩ 1 = some (some []) :=
  ⟨⟨ownParent, 1⟩, rfl, by decide +kernel⟩

end
end Dictenstein.Dat
