import Dictenstein.DatLayout
/-!
# DatCertified — layouts accepted from outside

`ValidatedDATCoreShared` of `double_array_trie/core/shared.rs` is a layout that passed `validate_layout` with the declared
number of terms.  A search that accepts leaves a tree of listed edges whose cells are the only ones with a parent
(`Accepted`). -/
namespace Dictenstein.Dat

open List Option Paths DATCoreShared

open BreadthFirst (Queued)

structure ValidatedDATCoreShared (U V : Type) (root : Nat) where
  raw : DATCoreShared U V
  reachableFinalCount : Nat

namespace ValidatedDATCoreShared

variable {U V : Type} {root : Nat}

def tryFromUntrusted [LinearOrder U] [DatUnit U] (fuel : Nat) (raw : DATCoreShared U V) (declaredTermCount : Nat) :
    Option (Except DatValidationError (ValidatedDATCoreShared U V root)) :=
  match raw.validateLayout fuel root with
  | none => none
  | some (.error e) => some (.error e)
  | some (.ok reachableFinalCount) =>
    if declaredTermCount ≠ reachableFinalCount then
      some (.error (.termCountMismatch declaredTermCount reachableFinalCount))
    else some (.ok ⟨raw, reachableFinalCount⟩)

/-- The loop over the free list; `listed` are the entries before. -/
def validateFreeEntries [DecidableEq U] (d : ValidatedDATCoreShared U V root) (listed : List Nat) :
    List Nat → Except DatValidationError Unit
  | [] => .ok ()
  | state :: freeList =>
    if state ≤ root ∨ d.raw.base.length ≤ state ∨ d.raw.base.getD state (-1) ≠ -1 ∨ d.raw.check.getD state (-1) ≠ -1 ∨
        d.raw.isFinal.getD state false = true ∨ d.raw.edges.getD state [] ≠ [] ∨
          (d.raw.values.getD state none).isSome = true then
      .error (.invalidFreeListEntry state)
    else if state ∈ listed then .error (.duplicateFreeListEntry state)
    else validateFreeEntries d (listed ++ [state]) freeList

def validateFreeList [DecidableEq U] (d : ValidatedDATCoreShared U V root) (freeList : List Nat) :
    Except DatValidationError Unit := d.validateFreeEntries [] freeList

end ValidatedDATCoreShared

/-! ## What an accepted search has found -/

section
variable {U V : Type} [LinearOrder U]

theorem pairwise_of_unsorted {labels : List U} (h : unsorted labels = false) : labels.Pairwise (· < ·) := by
  rw [← isChain_iff_pairwise]
  induction labels with
  | nil => exact .nil
  | cons a labels ih =>
    cases labels with
    | nil => exact .singleton a
    | cons b labels =>
      rw [unsorted, Bool.or_eq_false_iff, decide_eq_false_iff_not, not_le] at h
      exact .cons_cons h.1 (ih h.2)

variable [DatUnit U] {d : DATCoreShared U V} {root : Nat}

def DATCoreShared.targets (d : DATCoreShared U V) (s : Nat) : List Nat :=
  (d.edges.getD s []).map ((d.base.getD s (-1)).toNat + toDatOffset ·)

variable {v v' : Validation}

structure StateOk (d : DATCoreShared U V) (s : Nat) : Prop where
  le : s ≤ i32Max
  sorted : (d.edges.getD s []).Pairwise (· < ·)
  base : d.edges.getD s [] ≠ [] → 0 ≤ d.base.getD s (-1)
  lt : ∀ t ∈ d.targets s, t < d.base.length
  check : ∀ t ∈ d.targets s, d.check.getD t (-1) = s
  nodup : (d.targets s).Nodup

/-- **A round that was accepted** took the first of the queue, found its state good and queued what was new. -/
theorem visitState_ok (hv : v.reachable.length = d.base.length) (h : d.visitState v = .ok (.inl v')) :
    ∃ s queue, v.queue = s :: queue ∧ StateOk d s ∧ v'.reachable.length = d.base.length ∧ v'.queue = queue ++ d.targets s ∧
      v'.finalCount = v.finalCount + (if d.isFinal.getD s false then 1 else 0) ∧
      (∀ t ∈ d.targets s, v.reachable.getD t false = false) ∧
      ∀ x, v'.reachable.getD x false = true ↔ x ∈ d.targets s ∨ v.reachable.getD x false = true := by
  rw [visitState] at h
  cases hq : v.queue with rw [hq] at h
  | nil =>
    injection h with h
    cases h
  | cons s queue =>
    dsimp only at h
    split at h
    · cases h
    rename_i hle
    split at h
    · cases h
    split at h
    · cases h
    rename_i hsorted
    have hle : s ≤ i32Max := Nat.le_of_not_lt hle
    have hsorted := pairwise_of_unsorted (Bool.eq_false_iff.2 hsorted)
    split at h
    · rename_i hnil
      rw [List.isEmpty_iff] at hnil
      have htargets : d.targets s = [] := by rw [targets, hnil]; rfl
      obtain rfl := Sum.inl.inj (Except.ok.inj h)
      refine ⟨s, queue, rfl, ⟨hle, hsorted, fun hne => absurd hnil hne, ?_, ?_, ?_⟩, hv, ?_, rfl, ?_, fun x => ?_⟩ <;>
        simp [htargets]
    · split at h
      · cases h
      rename_i hbase
      cases hvisit : d.visitLabels s (d.base.getD s (-1)).toNat (d.edges.getD s [])
          { v with queue := queue, finalCount := v.finalCount + if d.isFinal.getD s false then 1 else 0 } with
      | error e =>
        rw [hvisit] at h
        cases h
      | ok w =>
        rw [hvisit] at h
        obtain rfl : w = v' := Sum.inl.inj (Except.ok.inj h)
        obtain ⟨htarget, hlength, hqueue, hcount, hnodup, hreach⟩ := visitLabels_ok (by exact hv) hvisit
        have hall : ∀ t ∈ d.targets s, t < d.base.length ∧ d.check.getD t (-1) = s ∧ v.reachable.getD t false = false := by
          intro t ht
          obtain ⟨u, hu, rfl⟩ := mem_map.1 ht
          exact htarget u hu
        exact ⟨s, queue, rfl, ⟨hle, hsorted, fun _ => Int.not_lt.1 hbase, fun t ht => (hall t ht).1,
          fun t ht => (hall t ht).2.1, hnodup⟩, hlength, hqueue, hcount, fun t ht => (hall t ht).2.2, hreach⟩

theorem visitState_returns (h : d.visitState v = .ok (.inr v')) : v.queue = [] ∧ v = v' := by
  rw [visitState] at h
  cases hq : v.queue with rw [hq] at h
  | nil =>
    exact ⟨rfl, Sum.inr.inj (Except.ok.inj h)⟩
  | cons s queue =>
    dsimp only at h
    repeat' split at h
    all_goals try cases h
    -- the loop over the labels fails or goes on
    all_goals
      generalize d.visitLabels s _ _ _ = r at h
      cases r <;> cases h

def DATCoreShared.listed (d : DATCoreShared U V) (s : Nat) (u : U) : Option Nat :=
  if u ∈ d.edges.getD s [] then some ((d.base.getD s (-1)).toNat + toDatOffset u) else none

structure Searched (d : DATCoreShared U V) (root : Nat) (visited : List Nat) (v : Validation) : Prop where
  length : v.reachable.length = d.base.length
  reachable : ∀ x, v.reachable.getD x false = true ↔ x ∈ visited ++ v.queue
  queued : Queued d.targets root visited v.queue
  nodup : (visited ++ v.queue).Nodup
  lt : ∀ x ∈ visited ++ v.queue, x < d.base.length
  ok : ∀ s ∈ visited, StateOk d s
  path : ∀ x ∈ visited ++ v.queue, ∃ p, walk d.listed root p = some x
  finalCount : v.finalCount = visited.countP fun s => d.isFinal.getD s false

theorem Searched.step {visited : List Nat} (hs : Searched d root visited v) (h : d.visitState v = .ok (.inl v')) :
    ∃ s, Searched d root (visited ++ [s]) v' := by
  obtain ⟨s, queue, hq, hok, hlength, hqueue, hcount, hnew, hreach⟩ := visitState_ok hs.length h
  have hperm : visited ++ [s] ++ v'.queue = (visited ++ v.queue) ++ d.targets s := by rw [hq, hqueue]; simp
  have hfound : s ∈ visited ++ v.queue := by rw [hq]; simp
  refine ⟨s, hlength, fun x => ?_, ?_, ?_, ?_, fun t ht => ?_, ?_, ?_⟩
  · rw [hreach, hperm, mem_append, ← hs.reachable x]
    exact or_comm
  · have := hs.queued
    rw [hq] at this
    rw [hqueue]
    exact this.step
  · rw [hperm]
    refine nodup_append.2 ⟨hs.nodup, hok.nodup, fun a ha b hb hab => ?_⟩
    have hold := (hs.reachable a).2 ha
    rw [hab, hnew b hb] at hold
    cases hold
  · rw [hperm]
    exact forall_mem_append.2 ⟨hs.lt, hok.lt⟩
  · rcases mem_append.1 ht with ht | ht
    · exact hs.ok t ht
    · exact mem_singleton.1 ht ▸ hok
  · rw [hperm]
    intro x hx
    rcases mem_append.1 hx with hx | hx
    · exact hs.path x hx
    · obtain ⟨p, hp⟩ := hs.path s hfound
      obtain ⟨u, hu, rfl⟩ := mem_map.1 hx
      exact ⟨p ++ [u], walk_concat_eq_some.2 ⟨s, hp, if_pos hu⟩⟩
  · rw [hcount, hs.finalCount, countP_append, countP_singleton]

/-- An accepted layout: the visited states are the tree of the listed edges, and no other cell has a parent. -/
structure Accepted (d : DATCoreShared U V) (root count : Nat) (visited : List Nat) : Prop where
  check_length : d.check.length = d.base.length
  isFinal_length : d.isFinal.length = d.base.length
  edges_length : d.edges.length = d.base.length
  values_length : d.values.length = d.base.length
  check_root : 0 ≤ d.check.getD root (-1) → d.check.getD root (-1) = root
  queued : visited = root :: visited.flatMap d.targets
  nodup : visited.Nodup
  lt : ∀ s ∈ visited, s < d.base.length
  ok : ∀ s ∈ visited, StateOk d s
  path : ∀ s ∈ visited, ∃ p, walk d.listed root p = some s
  blank : ∀ s, s ∉ visited → d.check.getD s (-1) = -1 ∧ d.edges.getD s [] = []
  count : count = visited.countP fun s => d.isFinal.getD s false

omit [LinearOrder U] [DatUnit U] in
theorem blank_of_checkState {reachable : List Bool} {s : Nat} (h : d.checkState reachable s = none)
    (hs : reachable.getD s false = false) : d.check.getD s (-1) = -1 ∧ d.edges.getD s [] = [] := by
  rw [checkState, hs, if_neg Bool.false_ne_true, ite_eq_right_iff] at h
  by_cases hbad : (decide (d.base.getD s (-1) ≠ -1) || decide (d.check.getD s (-1) ≠ -1) || d.isFinal.getD s false ||
      !(d.edges.getD s []).isEmpty || (d.values.getD s none).isSome) = true
  · cases h hbad
  · simp only [Bool.or_eq_true, decide_eq_true_eq, Bool.not_eq_true', not_or, not_not, Bool.not_eq_false, List.isEmpty_iff]
      at hbad
    exact ⟨hbad.1.1.1.2, hbad.1.2⟩

theorem accepted_of_validateLayout {fuel count : Nat} (h : d.validateLayout fuel root = some (.ok count)) :
    ∃ visited, Accepted d root count visited := by
  rw [validateLayout] at h
  split at h
  · injection h with h
    cases h
  rename_i hlengths
  simp only [not_or, not_not] at hlengths
  split at h
  · injection h with h
    cases h
  rename_i hroot
  split at h
  · injection h with h
    cases h
  split at h
  · injection h with h
    cases h
  rename_i hparent
  split at h
  · cases h
  · injection h with h
    cases h
  rename_i v hrun
  split at h
  · injection h with h
    cases h
  rename_i hcells
  obtain rfl : v.finalCount = count := Except.ok.inj (some.inj h)
  have hroot : root < d.base.length := Nat.lt_of_not_le hroot
  have hstart : ∃ visited, Searched d root visited ⟨(replicate d.base.length false).set root true, [root], 0⟩ := by
    refine ⟨[], by simp, fun x => ?_, Queued.start, by simp, by simpa using hroot, by simp, ?_, rfl⟩
    · have hfalse : (replicate d.base.length false).getD x false = false := getElem?_getD_replicate_default_eq ..
      rw [getD_set _ (by simpa using hroot), hfalse]
      simp
    · intro x hx
      exact ⟨[], by rw [mem_singleton.1 hx]; rfl⟩
  obtain ⟨v', ⟨visited, hs⟩, hend⟩ := StepLoop.run_returned (P := fun v => ∃ visited, Searched d root visited v)
    (fun _ _ hx hround => hx.elim fun visited hs => (hs.step hround).imp' (visited ++ [·]) fun _ => id) hstart hrun
  obtain ⟨hqueue, rfl⟩ := visitState_returns hend
  have hfound : visited ++ v'.queue = visited := by rw [hqueue, append_nil]
  refine ⟨visited, hlengths.1, hlengths.2.1, hlengths.2.2.1, hlengths.2.2.2, ?_, ?_, hfound ▸ hs.nodup,
    hfound ▸ hs.lt, hs.ok,
    hfound ▸ hs.path, fun s hnot => ?_, hs.finalCount⟩
  · intro hnonneg
    by_contra hne
    exact hparent ⟨hnonneg, hne⟩
  · have := hs.queued
    rwa [Queued, hfound] at this
  · by_cases hlt : s < d.base.length
    · refine blank_of_checkState (findSome?_eq_none_iff.1 hcells s (mem_range.2 hlt)) (Bool.eq_false_iff.2 fun hr => ?_)
      exact hnot (hfound ▸ (hs.reachable s).1 hr)
    · have hge := Nat.le_of_not_lt hlt
      exact ⟨getD_eq_default _ _ (hlengths.1 ▸ hge), getD_eq_default _ _ (hlengths.2.2.1 ▸ hge)⟩

/-! ## The tree of the listed edges -/

theorem listed_eq_some {s t : Nat} {u : U} :
    d.listed s u = some t ↔ u ∈ d.edges.getD s [] ∧ t = (d.base.getD s (-1)).toNat + toDatOffset u := by
  rw [listed, ite_none_right_eq_some, some.injEq, eq_comm (a := t)]

namespace Accepted

variable {count : Nat} {visited : List Nat} (h : Accepted d root count visited)
include h

theorem mem_root : root ∈ visited := by
  rw [h.queued]
  exact mem_cons_self

variable {s t : Nat} {u : U}

theorem mem_of_check (hc : d.check.getD t (-1) = s) : t ∈ visited := by
  by_contra hnot
  rw [(h.blank t hnot).1] at hc
  omega

section
variable (hl : d.listed s u = some t)
include hl

theorem mem_of_listed : s ∈ visited := by
  by_contra hnot
  obtain ⟨hu, -⟩ := listed_eq_some.1 hl
  rw [(h.blank s hnot).2] at hu
  cases hu

omit h in
theorem mem_targets : t ∈ d.targets s := by
  obtain ⟨hu, rfl⟩ := listed_eq_some.1 hl
  exact mem_map.2 ⟨u, hu, rfl⟩

theorem check_of_listed : d.check.getD t (-1) = s :=
  (h.ok s (h.mem_of_listed hl)).check t (mem_targets hl)

theorem base_of_listed : 0 ≤ d.base.getD s (-1) :=
  (h.ok s (h.mem_of_listed hl)).base (ne_nil_of_mem (listed_eq_some.1 hl).1)

theorem ne_root_of_listed : t ≠ root := by
  have hnodup := h.nodup
  rw [h.queued, nodup_cons] at hnodup
  rintro rfl
  exact hnodup.1 (mem_flatMap.2 ⟨s, h.mem_of_listed hl, mem_targets hl⟩)

end

theorem tree : Paths.Tree d.listed root where
  root s u hl := h.ne_root_of_listed hl rfl
  parent s s' u u' t hl hl' := by
    have hs : (s : Int) = s' := (h.check_of_listed hl).symm.trans (h.check_of_listed hl')
    obtain rfl : s = s' := by omega
    have htarget := (listed_eq_some.1 hl).2.symm.trans (listed_eq_some.1 hl').2
    exact ⟨rfl, DatUnit.injective (Nat.add_left_cancel htarget)⟩

theorem mem_of_walk {p : List U} (hp : walk d.listed root p = some s) : s ∈ visited :=
  walk_invariant h.mem_root (fun _ _ _ _ hl => h.mem_of_check (h.check_of_listed hl)) hp

/-- **Where no label leads the root to itself, the BASE/CHECK steps are the listed edges.** -/
theorem transition_eq (hloop : ∀ u, d.transition root u ≠ some root) (hs : s ∈ visited) (u : U) :
    d.transition s u = d.listed s u := by
  refine ext fun t => ?_
  rw [DATCoreShared.transition_eq (h.ok s hs).le, DoubleArray.next_eq_some]
  constructor
  · rintro ⟨hbase, ht, hcheck⟩
    have hvisited : t ∈ visited := h.mem_of_check hcheck
    have hroot : t ≠ root := by
      rintro rfl
      have hself : s = t := by
        have := h.check_root (by rw [show d.check.getD t (-1) = s from hcheck]; omega)
        rw [show d.check.getD t (-1) = s from hcheck] at this
        omega
      subst hself
      refine hloop u ?_
      rw [transition_eq (h.ok s hs).le, DoubleArray.next_eq_some]
      exact ⟨hbase, ht, hcheck⟩
    -- every other visited cell is a target, and its CHECK entry says of which state
    rw [h.queued, mem_cons, mem_flatMap] at hvisited
    obtain ⟨s', hs', htarget⟩ := hvisited.resolve_left hroot
    have hparent : (s' : Int) = s := ((h.ok s' hs').check t htarget).symm.trans hcheck
    obtain rfl : s' = s := by omega
    obtain ⟨w, hw, hwt⟩ := mem_map.1 htarget
    obtain rfl : w = u := DatUnit.injective (Nat.add_left_cancel (hwt.trans ht))
    exact listed_eq_some.2 ⟨hw, ht⟩
  · intro hl
    exact ⟨h.base_of_listed hl, (listed_eq_some.1 hl).2, h.check_of_listed hl⟩

theorem walk_eq (hloop : ∀ u, d.transition root u ≠ some root) (p : List U) :
    walk d.transition root p = walk d.listed root p := by
  have hrel : (walk d.transition root p).Rel (fun s t => s = t ∧ s ∈ visited) (walk d.listed root p) := by
    refine walk_rel ⟨rfl, h.mem_root⟩ (fun s t u hst => ?_) p
    obtain ⟨rfl, hs⟩ := hst
    rw [h.transition_eq hloop hs u]
    cases hl : d.listed s u with
    | none => exact .none
    | some t => exact .some ⟨rfl, h.mem_of_check (h.check_of_listed hl)⟩
  generalize walk d.transition root p = a, walk d.listed root p = b at hrel ⊢
  cases hrel with
  | none => rfl
  | some hst => rw [hst.1]

end Accepted

/-- **A free list that is accepted names distinct cells that the search has not found.** -/
theorem validateFreeEntries_ok {root count : Nat} {d : ValidatedDATCoreShared U V root} {visited listed freeList : List Nat}
    (h : Accepted d.raw root count visited) (hfree : d.validateFreeEntries listed freeList = .ok ()) :
    freeList.Nodup ∧ ∀ s ∈ freeList, s ∉ listed ∧ s ∉ visited := by
  induction freeList generalizing listed with
  | nil => exact ⟨nodup_nil, nofun⟩
  | cons state freeList ih =>
    rw [ValidatedDATCoreShared.validateFreeEntries] at hfree
    split at hfree
    · cases hfree
    rename_i hblank
    split at hfree
    · cases hfree
    rename_i hnew
    obtain ⟨hnodup, hrest⟩ := ih hfree
    have hunseen : state ∉ visited := by
      intro hin
      simp only [not_or, not_not] at hblank
      rw [h.queued, mem_cons, mem_flatMap] at hin
      rcases hin with rfl | ⟨s, hs, htarget⟩
      · exact hblank.1 le_rfl
      · have hparent := (h.ok s hs).check state htarget
        rw [hblank.2.2.2.1] at hparent
        omega
    refine ⟨nodup_cons.2 ⟨fun hin => ?_, hnodup⟩, fun s hs => ?_⟩
    · exact (hrest state hin).1 (mem_append_right _ (mem_singleton_self state))
    · rcases mem_cons.1 hs with rfl | hs
      · exact ⟨hnew, hunseen⟩
      · exact ⟨fun hold => (hrest s hs).1 (mem_append_left _ hold), (hrest s hs).2⟩

end
end Dictenstein.Dat
