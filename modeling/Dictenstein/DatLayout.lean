import Dictenstein.DatPlacement
/-!
# DatLayout — the check of a double array, and the built ones

`validate_layout` of `double_array_trie/core/shared.rs` searches the arrays breadth first from the root and accepts them if
the states form a tree with sorted labels, only final states have values, and all other cells are blank. -/
namespace Dictenstein.Dat

open BreadthFirst (Queued)
open SortedEdges List Option Paths DATCoreShared StaticDATBuilder

inductive DatValidationError
  | parallelArrayLengths (base check isFinal edges values : Nat)
  | rootOutOfBounds (root len : Nat)
  | invalidRootParent (root : Nat) (check : Int)
  | stateExceedsCheckRepresentation (state : Nat)
  | unsortedOrDuplicateEdges (state : Nat)
  | negativeBaseWithEdges (state : Nat)
  | transitionOverflow (state offset : Nat)
  | transitionOutOfBounds (state target len : Nat)
  | wrongTransitionParent (state target : Nat) (actual : Int)
  | repeatedOrCyclicTarget (state target : Nat)
  | nonCanonicalUnreachableState (state : Nat)
  | valueOnNonFinalState (state : Nat)
  | termCountMismatch (declared reachableFinals : Nat)
  | invalidFreeListEntry (state : Nat)
  | duplicateFreeListEntry (state : Nat)
deriving DecidableEq

def usizeMax : Nat := 18446744073709551615

def unsorted {U : Type} [LinearOrder U] : List U → Bool
  | a :: b :: labels => decide (b ≤ a) || unsorted (b :: labels)
  | _ => false

structure Validation where
  reachable : List Bool
  queue : List Nat
  finalCount : Nat

namespace DATCoreShared

section
variable {U V : Type} [LinearOrder U] [DatUnit U] (d : DATCoreShared U V)

def visitLabels (state base : Nat) : List U → Validation → Except DatValidationError Validation
  | [], v => .ok v
  | label :: labels, v =>
    let offset := toDatOffset label
    let target := base + offset
    if usizeMax < target then .error (.transitionOverflow state offset)
    else if d.base.length ≤ target then .error (.transitionOutOfBounds state target d.base.length)
    else if d.check.getD target (-1) ≠ state then .error (.wrongTransitionParent state target (d.check.getD target (-1)))
    else if v.reachable.getD target false then .error (.repeatedOrCyclicTarget state target)
    else visitLabels state base labels { v with reachable := v.reachable.set target true, queue := v.queue ++ [target] }

def visitState (v : Validation) : Except DatValidationError (Validation ⊕ Validation) :=
  match v.queue with
  | [] => .ok (.inr v)
  | state :: queue =>
    if i32Max < state then .error (.stateExceedsCheckRepresentation state)
    else
      let isFinal := d.isFinal.getD state false
      if !isFinal && (d.values.getD state none).isSome then .error (.valueOnNonFinalState state)
      else
        let v := { v with queue := queue, finalCount := v.finalCount + if isFinal then 1 else 0 }
        let labels := d.edges.getD state []
        if unsorted labels then .error (.unsortedOrDuplicateEdges state)
        else if labels.isEmpty then .ok (.inl v)
        else if d.base.getD state (-1) < 0 then .error (.negativeBaseWithEdges state)
        else (d.visitLabels state (d.base.getD state (-1)).toNat labels v).map .inl

def checkState (reachable : List Bool) (state : Nat) : Option DatValidationError :=
  if reachable.getD state false then
    if !d.isFinal.getD state false && (d.values.getD state none).isSome then some (.valueOnNonFinalState state) else none
  else if d.base.getD state (-1) ≠ -1 || d.check.getD state (-1) ≠ -1 || d.isFinal.getD state false ||
      !(d.edges.getD state []).isEmpty || (d.values.getD state none).isSome then
    some (.nonCanonicalUnreachableState state)
  else none

def validateLayout (fuel rootState : Nat) : Option (Except DatValidationError Nat) :=
  let len := d.base.length
  if d.check.length ≠ len ∨ d.isFinal.length ≠ len ∨ d.edges.length ≠ len ∨ d.values.length ≠ len then
    some (.error (.parallelArrayLengths len d.check.length d.isFinal.length d.edges.length d.values.length))
  else if len ≤ rootState then some (.error (.rootOutOfBounds rootState len))
  else if i32Max < rootState then some (.error (.stateExceedsCheckRepresentation rootState))
  else if 0 ≤ d.check.getD rootState (-1) ∧ d.check.getD rootState (-1) ≠ rootState then
    some (.error (.invalidRootParent rootState (d.check.getD rootState (-1))))
  else match StepLoop.run d.visitState fuel ⟨(List.replicate len false).set rootState true, [rootState], 0⟩ with
    | none => none
    | some (.error e) => some (.error e)
    | some (.ok v) => match (List.range len).findSome? (d.checkState v.reachable) with
      | some e => some (.error e)
      | none => some (.ok v.finalCount)

end
end DATCoreShared

variable {U V : Type} [LinearOrder U] [DatUnit U] [DoubleArrayUnit U]
variable {labels : List U}

omit [DatUnit U] [DoubleArrayUnit U] in
theorem unsorted_of_pairwise (h : labels.Pairwise (· < ·)) : unsorted labels = false := by
  induction labels with
  | nil => rfl
  | cons a labels ih =>
    obtain ⟨ha, hrest⟩ := pairwise_cons.1 h
    cases labels with
    | nil => rfl
    | cons b labels =>
      rw [unsorted, ih hrest, Bool.or_false, decide_eq_false]
      exact not_le.2 (ha b (.head _))

section
omit [LinearOrder U] [DoubleArrayUnit U]
variable {d : DATCoreShared U V} {state base : Nat}

theorem visitLabels_ok {v v' : Validation} (hv : v.reachable.length = d.base.length)
    (h : d.visitLabels state base labels v = .ok v') :
    (∀ w ∈ labels, base + toDatOffset w < d.base.length ∧ d.check.getD (base + toDatOffset w) (-1) = state ∧
      v.reachable.getD (base + toDatOffset w) false = false) ∧
    v'.reachable.length = d.base.length ∧ v'.queue = v.queue ++ labels.map (base + toDatOffset ·) ∧
    v'.finalCount = v.finalCount ∧ (labels.map (base + toDatOffset ·)).Nodup ∧
    ∀ x, v'.reachable.getD x false = true ↔ x ∈ labels.map (base + toDatOffset ·) ∨ v.reachable.getD x false = true := by
  induction labels generalizing v with
  | nil =>
    obtain rfl : v = v' := by injection h
    simp [hv]
  | cons w labels ih =>
    rw [visitLabels] at h
    split at h
    · cases h
    split at h
    · cases h
    rename_i hlt
    split at h
    · cases h
    rename_i hcheck
    split at h
    · cases h
    rename_i hnew
    have hlt : base + toDatOffset w < d.base.length := Nat.lt_of_not_le hlt
    have hget : ∀ x, (v.reachable.set (base + toDatOffset w) true).getD x false =
        if x = base + toDatOffset w then true else v.reachable.getD x false := getD_set _ (hv.symm ▸ hlt) true
    obtain ⟨htarget, hlength, hqueue, hcount, hnodup, hreach⟩ := ih (length_set.trans hv) h
    -- a label that came later was not reachable after this one was marked
    have hlater : ∀ w' ∈ labels, base + toDatOffset w' ≠ base + toDatOffset w ∧
        v.reachable.getD (base + toDatOffset w') false = false := by
      intro w' hw'
      have hfree := (htarget w' hw').2.2
      rw [hget] at hfree
      by_cases heq : base + toDatOffset w' = base + toDatOffset w
      · rw [if_pos heq] at hfree
        cases hfree
      · rw [if_neg heq] at hfree
        exact ⟨heq, hfree⟩
    refine ⟨forall_mem_cons.2 ⟨⟨hlt, not_not.1 hcheck, Bool.eq_false_iff.2 hnew⟩, fun w' hw' => ?_⟩, hlength, ?_, hcount, ?_,
      fun x => ?_⟩
    · exact ⟨(htarget w' hw').1, (htarget w' hw').2.1, (hlater w' hw').2⟩
    · rw [hqueue, map_cons, append_assoc]
      rfl
    · rw [map_cons, nodup_cons]
      refine ⟨fun hin => ?_, hnodup⟩
      obtain ⟨w', hw', heq⟩ := mem_map.1 hin
      exact (hlater w' hw').1 heq
    · rw [hreach, hget, map_cons, mem_cons]
      by_cases hx : x = base + toDatOffset w <;> simp [hx]

/-- **The targets of a state are all marked**, if they are its own and none was found before. -/
theorem exists_visitLabels (hlen : d.base.length ≤ i32Max + 1) (v : Validation) (hv : v.reachable.length = d.base.length)
    (htarget : ∀ w ∈ labels, base + toDatOffset w < d.base.length ∧ d.check.getD (base + toDatOffset w) (-1) = state)
    (hnodup : (labels.map (base + toDatOffset ·)).Nodup)
    (hnew : ∀ w ∈ labels, v.reachable.getD (base + toDatOffset w) false = false) :
    ∃ v', d.visitLabels state base labels v = .ok v' := by
  induction labels generalizing v with
  | nil => exact ⟨v, rfl⟩
  | cons w labels ih =>
    obtain ⟨hlt, hcheck⟩ := htarget w (.head _)
    rw [map_cons, nodup_cons] at hnodup
    have husize : ¬usizeMax < base + toDatOffset w := by
      unfold usizeMax
      unfold i32Max at hlen
      omega
    rw [visitLabels]
    simp only [if_neg husize, if_neg (not_le.2 hlt), hcheck, ne_eq, not_true, if_false, hnew w (.head _),
      Bool.false_eq_true]
    refine ih _ (length_set.trans hv) (fun w' hw' => htarget w' (.tail _ hw')) hnodup.2 fun w' hw' => ?_
    rw [getD_set _ (hv.symm ▸ hlt), if_neg]
    · exact hnew w' (.tail _ hw')
    · exact fun heq => hnodup.1 (mem_map.2 ⟨w', hw', heq⟩)

end

/-! ## The search of a built array -/

section
variable {b : StaticDATBuilder U V} {rootState : Nat} {s : Placing U V} {done : List (Nat × Nat)}

/-- The search has visited and queued what the build had placed first. -/
structure Visiting (b : StaticDATBuilder U V) (rootState : Nat) (s : Placing U V) (done visited pending : List (Nat × Nat))
    (v : Validation) : Prop where
  queued : Queued (placedKids b s.layout.base) (0, rootState) visited pending
  within : visited <+: done
  queue : v.queue = pending.map Prod.snd
  length : v.reachable.length = s.arrays.base.length
  reachable : ∀ x, v.reachable.getD x false = true ↔ x ∈ (visited ++ pending).map Prod.snd
  finalCount : v.finalCount = visited.countP fun x => (b.node x.1).isFinal

variable (hb : b.Invariant) (h : Running b rootState s done) (hend : s.queue = [])
include hb h hend

omit hb in
theorem placed_done : Placed b rootState s.layout done [] := by
  have := h.placed
  rwa [hend] at this

variable {t d : Nat} {v : Validation} {visited queue : List (Nat × Nat)}

omit hb hend in
theorem lt_length_of_done (hx : (t, d) ∈ done) : d < s.arrays.base.length :=
  h.lt_length (.inr (mem_map.2 ⟨(t, d), mem_append_left _ hx, rfl⟩))

omit hb in
theorem kid_done {e : U × Nat} (hx : (t, d) ∈ done) (he : e ∈ (b.node t).edges) :
    (e.2, (s.layout.base d).toNat + code e.1) ∈ done := append_nil done ▸ (placed_done h hend).mem_kids hx he

theorem visitState_spec (hv : Visiting b rootState s done visited ((t, d) :: queue) v) :
    ∃ v', s.arrays.visitState v = .ok (.inl v') ∧
      Visiting b rootState s done (visited ++ [(t, d)]) (queue ++ placedKids b s.layout.base (t, d)) v' := by
  have hplaced := placed_done h hend
  have hqueued := hv.queued.step
  have hwithin : visited ++ (t, d) :: queue <+: done := hv.queued.within hplaced.queued hv.within
  have hnext : visited ++ [(t, d)] <+: done := by
    refine List.IsPrefix.trans ⟨queue, ?_⟩ hwithin
    simp
  have hin : (t, d) ∈ done := hnext.mem (mem_append_right _ (mem_singleton_self _))
  have hlt := lt_length_of_done h hin
  have hle : ¬i32Max < d := by
    have := h.aligned.length
    omega
  have hfinal : s.arrays.isFinal.getD d false = (b.node t).isFinal := hplaced.isFinal t d hin
  have hvalue : s.arrays.values.getD d none = (b.node t).value := hplaced.value t d hin
  have hedges : s.arrays.edges.getD d [] = (b.node t).edges.map Prod.fst := hplaced.edges t d hin
  have hgood := hb.value_of_isFinal t
  have hsorted : unsorted ((b.node t).edges.map Prod.fst) = false :=
    unsorted_of_pairwise (pairwise_map.2 (hb.sorted t))
  have hcount : ∀ w : Validation, w.finalCount = v.finalCount + (if (b.node t).isFinal = true then 1 else 0) →
      w.finalCount = (visited ++ [(t, d)]).countP fun x => (b.node x.1).isFinal := by
    intro w hw
    rw [hw, hv.finalCount, countP_append, countP_singleton]
  have hqueue : v.queue = d :: queue.map Prod.snd := hv.queue
  simp only [visitState, hqueue, if_neg hle, hfinal, hvalue, hedges, hgood, hsorted, Bool.false_eq_true, if_false]
  have hmerge : visited ++ [(t, d)] ++ (queue ++ placedKids b s.layout.base (t, d)) =
      (visited ++ (t, d) :: queue) ++ placedKids b s.layout.base (t, d) := by simp
  by_cases hnil : (b.node t).edges = []
  · have hkids : placedKids b s.layout.base (t, d) = [] := by rw [placedKids, hnil]; rfl
    rw [hkids, append_nil] at hqueued ⊢
    rw [hkids, append_nil, append_nil] at hmerge
    refine ⟨_, if_pos (by rw [hnil]; rfl), hqueued, hnext, rfl, hv.length, fun x => ?_, hcount _ rfl⟩
    rw [hmerge]
    exact hv.reachable x
  · have hbase : ¬s.arrays.base.getD d (-1) < 0 := by
      have := hplaced.base t d hin
      rw [if_neg hnil] at this
      exact Int.not_lt.2 this
    have htargets : ((b.node t).edges.map Prod.fst).map ((s.arrays.base.getD d (-1)).toNat + toDatOffset ·) =
        (placedKids b s.layout.base (t, d)).map Prod.snd := by
      rw [placedKids, List.map_map, List.map_map]
      exact map_congr_left fun e _ => congrArg _ (DoubleArrayUnit.code_eq e.1).symm
    have hall : (visited ++ (t, d) :: queue) ++ placedKids b s.layout.base (t, d) <+: done := by
      have := hqueued.within hplaced.queued hnext
      rwa [hmerge] at this
    have hnodup : (((visited ++ (t, d) :: queue) ++ placedKids b s.layout.base (t, d)).map Prod.snd).Nodup := by
      have hstates := hplaced.states
      rw [append_nil] at hstates
      exact hstates.sublist (hall.sublist.map Prod.snd)
    rw [map_append, nodup_append] at hnodup
    have htarget : ∀ w ∈ (b.node t).edges.map Prod.fst,
      (s.arrays.base.getD d (-1)).toNat + toDatOffset w < s.arrays.base.length ∧
          s.arrays.check.getD ((s.arrays.base.getD d (-1)).toNat + toDatOffset w) (-1) = d := by
      intro w hw
      obtain ⟨e, he, rfl⟩ := mem_map.1 hw
      rw [← DoubleArrayUnit.code_eq]
      exact ⟨lt_length_of_done h (kid_done h hend hin he), hplaced.check t d e hin he⟩
    obtain ⟨v', hvisit⟩ := exists_visitLabels h.aligned.length
      { v with queue := queue.map Prod.snd, finalCount := v.finalCount + if (b.node t).isFinal = true then 1 else 0 }
      hv.length htarget (htargets ▸ hnodup.2.1) fun w hw => by
        refine Bool.eq_false_iff.2 fun hfound => ?_
        have hold := (hv.reachable _).1 hfound
        refine hnodup.2.2 _ hold _ ?_ rfl
        rw [← htargets]
        exact mem_map.2 ⟨w, hw, rfl⟩
    obtain ⟨-, hlength, hqueue', hcount', -, hreach⟩ := visitLabels_ok (by exact hv.length) hvisit
    refine ⟨v', ?_, hqueued, hnext, ?_, hlength, fun x => ?_, hcount v' hcount'⟩
    · rw [if_neg (by simpa using hnil), if_neg hbase, hvisit]
      rfl
    · rw [hqueue', htargets, map_append]
    · rw [hreach, htargets, hmerge, map_append, mem_append]
      exact (or_congr_right (hv.reachable x)).trans or_comm

theorem visitAll_spec (hv : Visiting b rootState s done visited queue v) :
    ∃ v', StepLoop.Ends s.arrays.visitState v (.ok v') ∧ Visiting b rootState s done done [] v' := by
  induction hn : done.length - visited.length using Nat.strongRecOn generalizing visited queue v with
  | _ n ih =>
    have hplaced := placed_done h hend
    cases queue with
    | nil =>
      obtain rfl := Queued.complete (rank_placedKids hb s.layout.base) hv.queued hplaced.queued hv.within
      refine ⟨v, .of_return ?_, hv⟩
      rw [visitState, hv.queue]
      rfl
    | cons x queue =>
      obtain ⟨t, d⟩ := x
      obtain ⟨v₁, hround, hv₁⟩ := visitState_spec hb h hend hv
      have hlonger := hv₁.within.length_le
      rw [length_append, length_singleton] at hlonger
      obtain ⟨v', hends, hv'⟩ := ih (done.length - (visited ++ [(t, d)]).length)
        (by rw [length_append, length_singleton]; omega) hv₁ rfl
      exact ⟨v', (StepLoop.Reaches.of_step hround).ends hends, hv'⟩

theorem checkState_spec (hv : Visiting b rootState s done done [] v) (x : Nat) :
    s.arrays.checkState v.reachable x = none := by
  have hplaced := placed_done h hend
  have hreach := hv.reachable x
  rw [append_nil] at hreach
  rw [checkState]
  by_cases hx : x ∈ done.map Prod.snd
  · obtain ⟨⟨t, d⟩, hin, rfl⟩ := mem_map.1 hx
    have hfinal : s.arrays.isFinal.getD d false = (b.node t).isFinal := hplaced.isFinal t d hin
    have hvalue : s.arrays.values.getD d none = (b.node t).value := hplaced.value t d hin
    rw [if_pos (hreach.2 hx), hfinal, hvalue, hb.value_of_isFinal t]
    rfl
  · have hcheck : s.arrays.check.getD x (-1) = -1 := hplaced.check_of_notMem (by rwa [append_nil])
    obtain ⟨hbase, hfinal, hvalue, hedges⟩ : s.arrays.base.getD x (-1) = -1 ∧ s.arrays.isFinal.getD x false = false ∧
        s.arrays.values.getD x none = none ∧ s.arrays.edges.getD x [] = [] := hplaced.blank x hx
    rw [if_neg fun hfound => hx (hreach.1 hfound), hbase, hcheck, hfinal, hvalue, hedges]
    rfl

theorem validateLayout_spec : ∃ k, ∀ fuel, k ≤ fuel →
      s.arrays.validateLayout fuel rootState = some (.ok (done.countP fun x => (b.node x.1).isFinal)) := by
  have hroot : rootState < s.arrays.base.length := h.lt_length (.inl (Nat.le_refl _))
  have hstart : Visiting b rootState s done [] [(0, rootState)]
      ⟨(replicate s.arrays.base.length false).set rootState true, [rootState], 0⟩ := by
    refine ⟨Queued.start, nil_prefix, rfl, by simp, fun x => ?_, rfl⟩
    have hfalse : (replicate s.arrays.base.length false).getD x false = false :=
      getElem?_getD_replicate_default_eq ..
    rw [getD_set _ (by simpa using hroot), hfalse]
    simp
  obtain ⟨v, ⟨k, hk⟩, hv⟩ := visitAll_spec hb h hend hstart
  refine ⟨k, fun fuel hfuel => ?_⟩
  obtain ⟨more, rfl⟩ := Nat.exists_eq_add_of_le' hfuel
  have hcells : (range s.arrays.base.length).findSome? (s.arrays.checkState v.reachable) = none :=
    findSome?_eq_none_iff.2 fun x _ => checkState_spec hb h hend hv x
  have hcheck : s.arrays.check.getD rootState (-1) = -1 := h.placed.check_root hb
  have hle : ¬i32Max < rootState := by
    have := h.aligned.length
    omega
  have hlengths : ¬(s.arrays.check.length ≠ s.arrays.base.length ∨ s.arrays.isFinal.length ≠ s.arrays.base.length ∨
      s.arrays.edges.length ≠ s.arrays.base.length ∨ s.arrays.values.length ≠ s.arrays.base.length) := by
    simp [h.aligned.check, h.aligned.isFinal, h.aligned.edges, h.aligned.values]
  have hparent : ¬(0 ≤ s.arrays.check.getD rootState (-1) ∧ s.arrays.check.getD rootState (-1) ≠ rootState) := by
    rw [hcheck]
    omega
  rw [validateLayout]
  simp only [if_neg hlengths, if_neg (not_le.2 hroot), if_neg hle, if_neg hparent, hk more, hcells, hv.finalCount]

/-! ## The map of a built array -/

theorem next_rel (u : U) (hx : (t, d) ∈ done) :
    (b.next t u).Rel (fun t d => (t, d) ∈ done) (DoubleArray.next toDatOffset s.arrays.cells d u) := by
  have hplaced := placed_done h hend
  cases hnext : b.next t u with
  | some j =>
    have he : (u, j) ∈ (b.node t).edges := mem_of_lookup hnext
    have hbase := hplaced.base t d hx
    rw [if_neg (ne_nil_of_mem he)] at hbase
    have hstep : DoubleArray.next toDatOffset s.arrays.cells d u = some ((s.layout.base d).toNat + code u) := by
      refine DoubleArray.next_eq_some.2 ⟨hbase, ?_, hplaced.check t d (u, j) hx he⟩
      rw [DoubleArrayUnit.code_eq]
      rfl
    rw [hstep]
    exact .some (kid_done h hend hx he)
  | none =>
    have hstep : DoubleArray.next toDatOffset s.arrays.cells d u = none := by
      refine eq_none_iff_forall_ne_some.2 fun x hsome => ?_
      obtain ⟨-, hcell, hcheck⟩ := DoubleArray.next_eq_some.1 hsome
      -- the cell has a parent, which is the state, and the state's edge to it has the label
      obtain hnone | ⟨t', d', e, hx', he, rfl⟩ := hplaced.owned x
      · have : s.layout.check x = d := hcheck
        omega
      · have hparent : (d' : Int) = d := (hplaced.check t' d' e hx' he).symm.trans hcheck
        obtain rfl : d' = d := by exact_mod_cast hparent
        obtain rfl : t' = t :=
          hplaced.node_unique (mem_append_left _ hx') (mem_append_left _ hx)
        have hcode : (s.layout.base d').toNat + code e.1 = (s.layout.base d').toNat + toDatOffset u := hcell
        have hlabel : e.1 = u := DoubleArrayUnit.strictMono.injective (by rw [DoubleArrayUnit.code_eq u]; omega)
        rw [StaticDATBuilder.next, ← hlabel, lookup_of_mem (hb.sorted t') he] at hnext
        cases hnext
    rw [hstep]
    exact .none

theorem entry_built : DoubleArray.entry toDatOffset s.arrays.cells rootState = b.map := by
  have hplaced := placed_done h hend
  have hroot : (0, rootState) ∈ done := by
    have := hplaced.mem_root
    rwa [append_nil] at this
  refine (entry_rel (R := fun t d => (t, d) ∈ done) hroot (fun t d u hx => next_rel hb h hend u hx)
    fun t d hx => ?_).symm
  have hfinal : s.arrays.cells.isFinal d = (b.node t).isFinal := hplaced.isFinal t d hx
  have hvalue : s.arrays.cells.value d = (b.node t).value := hplaced.value t d hx
  rw [data, DoubleArray.Cells.data, hfinal, hvalue]

theorem mem_done_iff_walk : t ∈ done.map Prod.fst ↔ ∃ q, walk b.next 0 q = some t := by
  have hplaced := placed_done h hend
  have hroot := hplaced.mem_root
  rw [append_nil] at hroot
  constructor
  · intro ht
    obtain ⟨x, hx, rfl⟩ := mem_map.1 ht
    refine Queued.induct (P := fun x => ∃ q, walk b.next 0 q = some x.1) (rank_placedKids hb s.layout.base)
      hplaced.queued ⟨[], rfl⟩ ?_ x (mem_append_left _ hx)
    rintro y - ⟨q, hq⟩ z hz
    obtain ⟨e, he, rfl⟩ := mem_map.1 hz
    exact ⟨q ++ [e.1], walk_concat_eq_some.2 ⟨y.1, hq, lookup_of_mem (hb.sorted y.1) he⟩⟩
  · rintro ⟨q, hq⟩
    refine walk_invariant (P := (· ∈ done.map Prod.fst)) (mem_map.2 ⟨_, hroot, rfl⟩) ?_ hq
    intro t u j ht hnext
    obtain ⟨⟨t, d⟩, hx, rfl⟩ := mem_map.1 ht
    exact mem_map.2 ⟨_, kid_done h hend hx (mem_of_lookup hnext), rfl⟩

theorem countP_done {count : Nat} {terms : Finset (List U)} (ht : HasTerms b.map count terms) :
    (done.countP fun x => (b.node x.1).isFinal) = count := by
  have hentry : ∀ {q t}, walk b.next 0 q = some t → (q ∈ terms ↔ (b.node t).isFinal = true) := by
    intro q t hq
    rw [← ht.mem, StaticDATBuilder.map, entry, hq, bind_some, StaticDATBuilder.data]
    cases (b.node t).isFinal <;> simp
  have hwalk : ∀ q ∈ terms, ∃ t, walk b.next 0 q = some t := by
    intro q hq
    have hsome := (ht.mem q).2 hq
    rw [StaticDATBuilder.map, entry] at hsome
    cases hw : walk b.next 0 q with
    | none => simp [hw] at hsome
    | some t => exact ⟨t, rfl⟩
  have hnodup := (placed_done h hend).nodes
  rw [append_nil] at hnodup
  have hfinals : ((done.map Prod.fst).filter fun t => (b.node t).isFinal).toFinset =
      terms.image fun q => (walk b.next 0 q).getD 0 := by
    ext t
    rw [List.mem_toFinset, List.mem_filter, Finset.mem_image, mem_done_iff_walk hb h hend]
    constructor
    · rintro ⟨⟨q, hq⟩, hfinal⟩
      exact ⟨q, (hentry hq).2 hfinal, by rw [hq]; rfl⟩
    · rintro ⟨q, hq, rfl⟩
      obtain ⟨t, hw⟩ := hwalk q hq
      rw [hw]
      exact ⟨⟨q, hw⟩, (hentry hw).1 hq⟩
  have hinj : Set.InjOn (fun q => (walk b.next 0 q).getD 0) terms := by
    intro p hp q hq heq
    obtain ⟨t, hw⟩ := hwalk p hp
    obtain ⟨t', hw'⟩ := hwalk q hq
    simp only [hw, hw', getD_some] at heq
    exact walk_inj hb.tree hw (heq ▸ hw')
  calc (done.countP fun x => (b.node x.1).isFinal)
      = ((done.map Prod.fst).filter fun t => (b.node t).isFinal).length := by
        rw [← countP_eq_length_filter, countP_map]
        rfl
    _ = (terms.image fun q => (walk b.next 0 q).getD 0).card := by
        rw [← hfinals, toFinset_card_of_nodup (hnodup.filter _)]
    _ = count := by rw [Finset.card_image_of_injOn hinj, ht.count]

end

/-- **The arrays that a sequence of insertions is built into**: the build ends, if in a panic then in `exhausted`; otherwise
the layout is valid, its final states are the distinct terms, and both walks read the map of the sequence. It is not
exhausted if the terms do not have too many units for the largest of their labels. -/
theorem static_build_agrees (ops : List (List U × Option V)) (rootState : Fin 2) :
    ∃ r, (∃ k, ∀ fuel, k ≤ fuel → (new.insertAll ops).build fuel rootState = some r) ∧
      (r = .error .exhausted ∨ ∃ built, r = .ok built ∧
        (∃ k, ∀ fuel, k ≤ fuel → built.raw.validateLayout fuel rootState = some (.ok built.termCount)) ∧
        (∀ q, built.raw.containsTermFrom q rootState = (mapOf ops q).isSome) ∧
        (∀ q, built.raw.termValueFrom q rootState = (mapOf ops q).join) ∧
        built.termCount = (ops.map Prod.fst).toFinset.card) ∧
      ∀ maxCode, (∀ op ∈ ops, ∀ u ∈ op.1, code u ≤ maxCode) →
        ((ops.map (·.1.length)).sum + 1) * (maxCode + 2) < i32Max → r ≠ .error .exhausted := by
  obtain ⟨hb, hmap, hterms⟩ := insertAll_new ops
  have hfits := fits_insertAll ops
  generalize new.insertAll ops = b at *
  have hroot : (rootState : Nat) ≤ i32Max := by
    have := rootState.isLt
    unfold i32Max
    omega
  obtain ⟨r, ⟨k, hk⟩, hr⟩ := placeAll_spec hb (Running.start b hroot)
  obtain ⟨rfl, hfull⟩ | ⟨s, done, rfl, h, hend⟩ := hr
  · refine ⟨.error .exhausted, ⟨k, fun fuel hfuel => by rw [build, hk fuel hfuel]⟩, .inl rfl, fun maxCode hmax hsmall => ?_⟩
    have hcodes : ∀ t, ∀ e ∈ (b.node t).edges, code e.1 ≤ maxCode := fun t e he => by
      obtain ⟨op, hop, hu⟩ := hfits.labels t e.1 e.2 he
      exact hmax op hop e.1 hu
    have hmany := hfull maxCode hcodes ⟨by simp [StaticDATBuilder.start], by simp [StaticDATBuilder.start]⟩
    have hnodes := Nat.mul_le_mul_right (maxCode + 2) hfits.nodes
    omega
  · refine ⟨.ok ⟨s.arrays, b.termCount⟩, ⟨k, fun fuel hfuel => by rw [build, hk fuel hfuel]⟩,
      .inr ⟨_, rfl, ?_, fun q => ?_, fun q => ?_, hterms.count⟩, by simp⟩
    · have hvalid := validateLayout_spec hb h hend
      rwa [countP_done hb h hend (hmap ▸ hterms)] at hvalid
    · rw [← hmap, ← entry_built hb h hend]
      exact (termReads_eq (h.aligned.check ▸ h.aligned.length) q hroot).1
    · rw [← hmap, ← entry_built hb h hend]
      exact (termReads_eq (h.aligned.check ▸ h.aligned.length) q hroot).2

section
open scoped AdaptiveLabel

/-- Two terms below one edge and a third that has no value yet, then one of them again with another value. -/
def fourInserts : List (List UInt8 × Option Nat) := [([7, 9], some 1), ([7, 2], none), ([7], some 3), ([7, 9], some 4)]

theorem fourInserts_built : ∃ built : StaticDATComponents UInt8 Nat,
    (∃ k, ∀ fuel, k ≤ fuel → (new.insertAll fourInserts).build fuel 1 = some (.ok built)) ∧ built.termCount = 3 ∧
      built.raw.termValueFrom [7, 9] 1 = some 4 ∧ built.raw.containsTermFrom [7, 2] 1 = true ∧
      built.raw.containsTermFrom [9] 1 = false := by
  obtain ⟨r, hrun, hr, hsmall⟩ := static_build_agrees fourInserts 1
  obtain rfl | ⟨built, rfl, -, hcontains, hvalue, hcount⟩ := hr
  · exact absurd rfl (hsmall 9 (by decide +kernel) (by decide +kernel))
  · refine ⟨built, hrun, hcount.trans (by decide), (hvalue _).trans (by decide), (hcontains _).trans (by decide),
      (hcontains _).trans (by decide)⟩

end

end Dictenstein.Dat
