import Dictenstein.StaticDat
/-!
# DatPlacement — what the placed nodes are

The nodes that `build` has placed and those in its queue are found breadth first from the root.  `Placed` says what the cells
hold: a placed state has the flag, the value and the labels of its node, its children are at its base, no cell belongs to two
of them, and the other cells are blank. -/
namespace Dictenstein.Dat

open Function List

open BreadthFirst (Queued)
open SortedEdges

variable {U V : Type} [LinearOrder U] [DatUnit U] [DoubleArrayUnit U]

def placedKids (b : StaticDATBuilder U V) (base : Nat → Int) (x : Nat × Nat) : List (Nat × Nat) :=
  (b.node x.1).edges.map fun e => (e.2, (base x.2).toNat + code e.1)

structure Placed (b : StaticDATBuilder U V) (rootState : Nat) (l : Layout U V) (done queue : List (Nat × Nat)) : Prop where
  queued : Queued (placedKids b l.base) (0, rootState) done queue
  nodes : ((done ++ queue).map Prod.fst).Nodup
  states : ((done ++ queue).map Prod.snd).Nodup
  occupied : ∀ x, l.occupied x = true ↔ x ≤ rootState ∨ x ∈ (done ++ queue).map Prod.snd
  base : ∀ t d, (t, d) ∈ done → if (b.node t).edges = [] then l.base d = -1 else 0 ≤ l.base d
  isFinal : ∀ t d, (t, d) ∈ done → l.isFinal d = (b.node t).isFinal
  value : ∀ t d, (t, d) ∈ done → l.value d = (b.node t).value
  edges : ∀ t d, (t, d) ∈ done → l.edges d = (b.node t).edges.map Prod.fst
  check : ∀ t d e, (t, d) ∈ done → e ∈ (b.node t).edges → l.check ((l.base d).toNat + code e.1) = d
  owned : ∀ x, l.check x = -1 ∨ ∃ t d e, (t, d) ∈ done ∧ e ∈ (b.node t).edges ∧ x = (l.base d).toNat + code e.1
  blank : ∀ x, x ∉ done.map Prod.snd → l.base x = -1 ∧ l.isFinal x = false ∧ l.value x = none ∧ l.edges x = []

theorem rank_placedKids {b : StaticDATBuilder U V} (hb : b.Invariant) (base : Nat → Int) (x y : Nat × Nat)
    (hy : y ∈ placedKids b base x) : x.1 < y.1 := by
  obtain ⟨e, he, rfl⟩ := mem_map.1 hy
  exact (hb.edge x.1 e.1 e.2 he).1

namespace Placed

omit [LinearOrder U] [DatUnit U] [DoubleArrayUnit U] in
theorem notMem_of_nodup {α β : Type} {f : α → β} {xs ys : List α} {x : α} (h : ((xs ++ x :: ys).map f).Nodup) :
    f x ∉ xs.map f := by
  rw [map_append, map_cons, nodup_middle, nodup_cons] at h
  exact fun hmem => h.1 (mem_append_left _ hmem)

variable {b : StaticDATBuilder U V} {rootState : Nat} {l : Layout U V} {done queue : List (Nat × Nat)} {t d c : Nat}

theorem mem_kids (h : Placed b rootState l done queue) (hx : (t, d) ∈ done) {e : U × Nat} (he : e ∈ (b.node t).edges) :
    (e.2, (l.base d).toNat + code e.1) ∈ done ++ queue :=
  h.queued.mem_iff.2 (.inr ⟨(t, d), hx, mem_map.2 ⟨e, he, rfl⟩⟩)

theorem lt_length (hb : b.Invariant) (h : Placed b rootState l done queue) {x : Nat × Nat} (hx : x ∈ done ++ queue) :
    x.1 < b.nodes.length := by
  obtain rfl | ⟨y, -, hy⟩ := h.queued.mem_iff.1 hx
  · exact hb.root
  · obtain ⟨e, he, rfl⟩ := mem_map.1 hy
    exact (hb.edge y.1 e.1 e.2 he).2

theorem kid_notMem (hb : b.Invariant) (h : Placed b rootState l done ((t, d) :: queue)) {e : U × Nat}
    (he : e ∈ (b.node t).edges) : e.2 ∉ (done ++ (t, d) :: queue).map Prod.fst := by
  intro hmem
  obtain ⟨x, hx, hxe⟩ := mem_map.1 hmem
  have hedge := hb.edge t e.1 e.2 he
  obtain rfl | ⟨y, hy, hkid⟩ := h.queued.mem_iff.1 hx
  · have : 0 = e.2 := hxe
    omega
  · -- its parent would be done
    obtain ⟨e', he', rfl⟩ := mem_map.1 hkid
    have hsame : (e'.1, e.2) ∈ (b.node y.1).edges := by
      rw [← show e'.2 = e.2 from hxe]
      exact he'
    obtain ⟨hyt, -⟩ := hb.parent y.1 t e'.1 e.1 e.2 hsame he
    exact notMem_of_nodup h.nodes (mem_map.2 ⟨y, hy, hyt⟩)

theorem kids_nodup (hb : b.Invariant) (t c : Nat) :
    (((b.node t).edges.map fun e => (e.2, c + code e.1)).map Prod.fst).Nodup ∧
      (((b.node t).edges.map fun e => (e.2, c + code e.1)).map Prod.snd).Nodup := by
  have hnodup : (b.node t).edges.Nodup := List.Nodup.of_map _ (nodup_of_sorted (hb.sorted t))
  rw [map_map, map_map]
  refine ⟨hnodup.map_on fun e he e' he' heq => ?_, hnodup.map_on fun e he e' he' heq => ?_⟩
  · have hchild : e.2 = e'.2 := heq
    have hsame : (e.1, e'.2) ∈ (b.node t).edges := hchild ▸ he
    exact Prod.ext (hb.parent t t e.1 e'.1 e'.2 hsame he').2 hchild
  · have hcode : c + code e.1 = c + code e'.1 := heq
    have hlabel : e.1 = e'.1 := DoubleArrayUnit.strictMono.injective (by omega)
    have hlookup := lookup_of_mem (hb.sorted t) he
    rw [hlabel, lookup_of_mem (hb.sorted t) he'] at hlookup
    exact Prod.ext hlabel (Option.some.inj hlookup).symm

section
variable (h : Placed b rootState l done ((t, d) :: queue))
  (hfree : ∀ e ∈ (b.node t).edges, l.occupied (c + code e.1) = false)
include h

theorem base_place_of_mem {x : Nat × Nat} (hx : x ∈ done) : (l.place d (b.node t) c).base x.2 = l.base x.2 := by
  have hne : x.2 ≠ d := by
    rintro rfl
    exact notMem_of_nodup h.states (mem_map.2 ⟨x, hx, rfl⟩)
  simp only [Layout.place]
  split
  · rfl
  · exact update_of_ne hne ..

omit h in
theorem base_place_self (hedges : (b.node t).edges ≠ []) : (l.place d (b.node t) c).base d = c := by
  simp only [Layout.place, if_neg hedges]
  exact update_self ..

include hfree

theorem check_place_of_mem {x : Nat} (hx : x ∈ (done ++ (t, d) :: queue).map Prod.snd) :
    (l.place d (b.node t) c).check x = l.check x := by
  refine if_neg fun hslot => ?_
  obtain ⟨e, he, rfl⟩ := mem_map.1 hslot
  have htaken := (h.occupied _).2 (.inr hx)
  rw [hfree e he] at htaken
  cases htaken

theorem place (hb : b.Invariant) : Placed b rootState (l.place d (b.node t) c) (done ++ [(t, d)])
    (queue ++ (b.node t).edges.map fun e => (e.2, c + code e.1)) := by
  have hkids : ∀ y ∈ done, placedKids b (l.place d (b.node t) c).base y = placedKids b l.base y := by
    intro y hy
    rw [placedKids, base_place_of_mem h hy, placedKids]
  have hself : placedKids b (l.place d (b.node t) c).base (t, d) = (b.node t).edges.map fun e => (e.2, c + code e.1) := by
    refine map_congr_left fun e he => ?_
    rw [base_place_self (ne_nil_of_mem he), Int.toNat_natCast]
  have hlist : done ++ [(t, d)] ++ (queue ++ (b.node t).edges.map fun e => (e.2, c + code e.1)) =
      (done ++ (t, d) :: queue) ++ (b.node t).edges.map fun e => (e.2, c + code e.1) := by simp
  have hblank := h.blank d (notMem_of_nodup h.states)
  have hold : ∀ t' d', (t', d') ∈ done → d' ≠ d := by
    rintro t' d' hx rfl
    exact notMem_of_nodup h.states (mem_map.2 ⟨(t', d'), hx, rfl⟩)
  have hcases : ∀ {t' d'}, (t', d') ∈ done ++ [(t, d)] → (t', d') ∈ done ∨ (t' = t ∧ d' = d) := by
    intro t' d' hx
    obtain hx | hx := mem_append.1 hx
    · exact .inl hx
    · exact .inr (Prod.mk.inj (mem_singleton.1 hx))
  have hcell {α : Type} {cells : Nat → α} {f : Nat → α} (hcells : ∀ t' d', (t', d') ∈ done → cells d' = f t') :
      ∀ t' d', (t', d') ∈ done ++ [(t, d)] → update cells d (f t) d' = f t' := by
    intro t' d' hx
    obtain hx | ⟨rfl, rfl⟩ := hcases hx
    · exact (update_of_ne (hold t' d' hx) ..).trans (hcells t' d' hx)
    · exact update_self ..
  constructor
  case queued => exact hself ▸ (h.queued.congr hkids).step
  case nodes =>
    rw [hlist, map_append]
    refine List.Nodup.append h.nodes (kids_nodup hb t c).1 fun x hx hnew => ?_
    obtain ⟨e, he, rfl⟩ := mem_map.1 (map_map ▸ hnew)
    exact kid_notMem hb h he hx
  case states =>
    rw [hlist, map_append]
    refine List.Nodup.append h.states (kids_nodup hb t c).2 fun x hx hnew => ?_
    obtain ⟨e, he, rfl⟩ := mem_map.1 (map_map ▸ hnew)
    have htaken := (h.occupied _).2 (.inr hx)
    exact Bool.noConfusion ((hfree e he).symm.trans htaken)
  case occupied =>
    intro x
    rw [hlist, map_append, mem_append, map_map]
    simp only [Layout.place, Bool.or_eq_true, decide_eq_true_eq, h.occupied x]
    constructor
    · rintro (hnew | hroot | hfound)
      exacts [.inr (.inr hnew), .inl hroot, .inr (.inl hfound)]
    · rintro (hroot | hfound | hnew)
      exacts [.inr (.inl hroot), .inr (.inr hfound), .inl hnew]
  case base =>
    intro t' d' hx
    obtain hx | ⟨rfl, rfl⟩ := hcases hx
    · rw [base_place_of_mem h hx]
      exact h.base t' d' hx
    · split
      · rename_i hedges
        simp only [Layout.place, if_pos hedges]
        exact hblank.1
      · rename_i hedges
        rw [base_place_self hedges]
        exact Int.natCast_nonneg c
  case isFinal => exact hcell h.isFinal
  case value => exact hcell h.value
  case edges => exact hcell h.edges
  case check =>
    intro t' d' e hx he
    obtain hx | ⟨rfl, rfl⟩ := hcases hx
    · rw [base_place_of_mem h hx, check_place_of_mem h hfree (mem_map_of_mem (h.mem_kids hx he))]
      exact h.check t' d' e hx he
    · rw [base_place_self (ne_nil_of_mem he), Int.toNat_natCast]
      exact if_pos (mem_map.2 ⟨e, he, rfl⟩)
  case owned =>
    intro x
    by_cases hslot : x ∈ (b.node t).edges.map (c + code ·.1)
    · obtain ⟨e, he, rfl⟩ := mem_map.1 hslot
      refine .inr ⟨t, d, e, mem_append_right _ (mem_singleton_self _), he, ?_⟩
      rw [base_place_self (ne_nil_of_mem he), Int.toNat_natCast]
    · obtain hnone | ⟨t', d', e, hx, he, rfl⟩ := h.owned x
      · exact .inl ((if_neg hslot).trans hnone)
      · exact .inr ⟨t', d', e, mem_append_left _ hx, he, by rw [base_place_of_mem h hx]⟩
  case blank =>
    intro x hx
    rw [map_append, mem_append, not_or] at hx
    have hne : x ≠ d := by
      rintro rfl
      exact hx.2 (mem_singleton_self _)
    obtain ⟨hbase, hfinal, hvalue, hedges⟩ := h.blank x hx.1
    refine ⟨?_, ?_, ?_, ?_⟩
    · simp only [Layout.place]
      split
      · exact hbase
      · exact (update_of_ne hne ..).trans hbase
    · exact (update_of_ne hne ..).trans hfinal
    · exact (update_of_ne hne ..).trans hvalue
    · exact (update_of_ne hne ..).trans hedges

end

theorem node_unique (h : Placed b rootState l done queue) {t' : Nat} (hx : (t, d) ∈ done ++ queue)
    (hx' : (t', d) ∈ done ++ queue) : t = t' :=
  (Prod.mk.inj (inj_on_of_nodup_map h.states hx hx' rfl)).1

theorem mem_root (h : Placed b rootState l done queue) : (0, rootState) ∈ done ++ queue := h.queued.mem_iff.2 (.inl rfl)

theorem check_root (hb : b.Invariant) (h : Placed b rootState l done queue) : l.check rootState = -1 := by
  obtain hnone | ⟨t, d, e, hx, he, hroot⟩ := h.owned rootState
  · exact hnone
  · have hkid := h.mem_kids hx he
    rw [← hroot] at hkid
    have := h.node_unique hkid h.mem_root
    have := hb.edge t e.1 e.2 he
    omega

theorem check_of_notMem (h : Placed b rootState l done queue) {x : Nat} (hx : x ∉ (done ++ queue).map Prod.snd) :
    l.check x = -1 := by
  obtain hnone | ⟨t, d, e, hin, he, rfl⟩ := h.owned x
  · exact hnone
  · exact absurd (mem_map.2 ⟨_, h.mem_kids hin he, rfl⟩) hx

theorem length_le (hb : b.Invariant) (h : Placed b rootState l done queue) : (done ++ queue).length ≤ b.nodes.length := by
  have hsub : (done ++ queue).map Prod.fst ⊆ range b.nodes.length := by
    intro t ht
    obtain ⟨x, hx, rfl⟩ := mem_map.1 ht
    exact mem_range.2 (h.lt_length hb hx)
  simpa using (h.nodes.subperm hsub).length_le

end Placed

/-! ## The run -/

/-- What holds before every round: the values of the placed nodes have been taken out. -/
structure Running (b : StaticDATBuilder U V) (rootState : Nat) (s : Placing U V) (done : List (Nat × Nat)) : Prop where
  aligned : s.Aligned
  placed : Placed b rootState s.layout done s.queue
  length : s.nodes.length = b.nodes.length
  node : ∀ i, s.node i = if i ∈ done.map Prod.fst then { b.node i with value := none } else b.node i

namespace Running

variable {b : StaticDATBuilder U V} {rootState : Nat} {s : Placing U V} {done : List (Nat × Nat)}

theorem lt_length (h : Running b rootState s done) {x : Nat} (hx : x ≤ rootState ∨ x ∈ (done ++ s.queue).map Prod.snd) :
    x < s.arrays.base.length := by
  have htaken := (h.placed.occupied x).2 hx
  rw [← h.aligned.occupied]
  exact lt_length_of_getD_ne (by rw [show s.occupied.getD x false = true from htaken]; exact Bool.noConfusion)

theorem start (b : StaticDATBuilder U V) (hroot : rootState ≤ i32Max) : Running b rootState (b.start rootState) [] := by
  have hget : ∀ {α : Type} (x : α) (i : Nat), (replicate (rootState + 1) x).getD i x = x := fun x i =>
    getElem?_getD_replicate_default_eq ..
  refine ⟨⟨?_, ?_, ?_, ?_, ?_, ?_⟩, ?_, rfl, fun i => rfl⟩
  iterate 5 simp only [StaticDATBuilder.start, length_replicate]
  · simp only [StaticDATBuilder.start, length_replicate]
    omega
  · constructor
    case queued => exact Queued.start
    case nodes => exact nodup_singleton _
    case states => exact nodup_singleton _
    case occupied =>
      intro x
      simp only [Placing.layout, StaticDATBuilder.start, getD_eq_getElem?_getD, getElem?_replicate]
      split
      · simp
        omega
      · simp
        omega
    case owned => exact fun x => .inl (hget _ x)
    case blank => exact fun x _ => ⟨hget _ x, hget _ x, hget _ x, hget _ x⟩
    all_goals
      intro t d
      simp

theorem step (hb : b.Invariant) {t d c : Nat} {queue : List (Nat × Nat)} {s' : Placing U V} (h : Running b rootState s done)
    (hqueue : s.queue = (t, d) :: queue) (hplaces : Placing.Places { s with queue := queue } s' t d c) :
    Running b rootState s' (done ++ [(t, d)]) := by
  have hplaced := h.placed
  rw [hqueue] at hplaced
  have ht : t ∉ done.map Prod.fst := Placed.notMem_of_nodup hplaced.nodes
  have hnode : s.node t = b.node t := by rw [h.node, if_neg ht]
  have htlen : t < s.nodes.length := by
    rw [h.length]
    exact hplaced.lt_length hb (x := (t, d)) (mem_append_right _ (.head _))
  refine ⟨hplaces.aligned, ?_, ?_, fun i => ?_⟩
  · rw [hplaces.layout, hplaces.queue]
    show Placed b rootState (s.layout.place d (s.node t) c) _ (queue ++ (s.node t).edges.map _)
    rw [hnode]
    exact hplaced.place (hnode ▸ hplaces.free) hb
  · rw [hplaces.nodes, length_modify]
    exact h.length
  · rw [Placing.node, hplaces.nodes, getD_modify _ htlen]
    by_cases hi : i = t
    · subst hi
      rw [if_pos rfl, if_pos (by simp)]
      show { s.node i with value := none } = _
      rw [hnode]
    · have hiff : i ∈ (done ++ [(t, d)]).map Prod.fst ↔ i ∈ done.map Prod.fst := by simp [hi]
      rw [if_neg hi]
      exact (h.node i).trans (if_congr hiff.symm rfl rfl)

end Running

/-- **The whole queue**: every node is placed, or the nodes and their labels are too many. -/
theorem placeAll_spec {b : StaticDATBuilder U V} (hb : b.Invariant) {rootState : Nat} {s : Placing U V}
    {done : List (Nat × Nat)} (h : Running b rootState s done) :
    ∃ r, (∃ k, ∀ fuel, k ≤ fuel → Placing.placeAll fuel s = some r) ∧
      (r = .error .exhausted ∧ (∀ maxCode, (∀ t, ∀ e ∈ (b.node t).edges, code e.1 ≤ maxCode) →
          s.Within (rootState + 1 + done.length * (maxCode + 2)) → i32Max < rootState + b.nodes.length * (maxCode + 2)) ∨
        ∃ s' done', r = .ok s' ∧ Running b rootState s' done' ∧ s'.queue = []) := by
  induction hn : b.nodes.length - done.length using Nat.strongRecOn generalizing s done with
  | _ n ih =>
    cases hqueue : s.queue with
    | nil =>
      refine ⟨.ok s, ⟨1, fun fuel hfuel => ?_⟩, .inr ⟨s, done, rfl, h, hqueue⟩⟩
      obtain ⟨more, rfl⟩ := Nat.exists_eq_add_of_le' hfuel
      simp only [Placing.placeAll, hqueue]
    | cons x queue =>
      obtain ⟨t, d⟩ := x
      have hplaced := h.placed
      rw [hqueue] at hplaced
      have hnode : s.node t = b.node t := by rw [h.node, if_neg (Placed.notMem_of_nodup hplaced.nodes)]
      have hlt : d < s.arrays.base.length := by
        refine h.lt_length (.inr ?_)
        rw [hqueue]
        exact mem_map.2 ⟨(t, d), mem_append_right _ (.head _), rfl⟩
      have hempty : s.layout.edges d = [] := (hplaced.blank d (Placed.notMem_of_nodup hplaced.states)).2.2.2
      have hpopped : Placing.Aligned { s with queue := queue } :=
        ⟨h.aligned.check, h.aligned.isFinal, h.aligned.edges, h.aligned.values, h.aligned.occupied, h.aligned.length⟩
      have hsorted : Sorted (s.node t).edges := by
        rw [hnode]
        exact hb.sorted t
      have hlen := hplaced.length_le hb
      rw [length_append, length_cons] at hlen
      -- the popped state has the same arrays, and its node is one of the trie
      have hcodes {maxCode : Nat} (hmax : ∀ t, ∀ e ∈ (b.node t).edges, code e.1 ≤ maxCode) :
          ∀ e ∈ (s.node t).edges, code e.1 ≤ maxCode := hnode ▸ hmax t
      obtain ⟨r, ⟨k, hk⟩, hr⟩ := Placing.placeNode_spec hpopped hlt hempty hsorted
      obtain ⟨rfl, hfull⟩ | ⟨s', c, rfl, hplaces, hgrows⟩ := hr
      · refine ⟨.error .exhausted, ⟨k + 1, fun fuel hfuel => ?_⟩, .inl ⟨rfl, fun maxCode hmax hwithin => ?_⟩⟩
        · obtain ⟨more, rfl⟩ := Nat.exists_eq_add_of_le' hfuel
          rw [← Nat.add_assoc, Placing.placeAll, hqueue]
          simp only [hk _ (Nat.le_add_left k more)]
        · have hmany := hfull _ maxCode ⟨hwithin.pos, hwithin.length⟩ (hcodes hmax)
          have hnodes : (done.length + 1) * (maxCode + 2) ≤ b.nodes.length * (maxCode + 2) :=
            Nat.mul_le_mul_right _ (by omega)
          rw [Nat.succ_mul] at hnodes
          omega
      · obtain ⟨r', ⟨k', hk'⟩, hr'⟩ := ih (b.nodes.length - (done ++ [(t, d)]).length)
          (by rw [length_append, length_singleton]; omega) (h.step hb hqueue hplaces) rfl
        refine ⟨r', ⟨max k k' + 1, fun fuel hfuel => ?_⟩,
          hr'.imp_left fun hfull => ⟨hfull.1, fun maxCode hmax hwithin => ?_⟩⟩
        · obtain ⟨more, rfl⟩ := Nat.exists_eq_add_of_le' hfuel
          rw [← Nat.add_assoc, Placing.placeAll, hqueue]
          simp only [hk (more + max k k') (by omega)]
          exact hk' _ (by omega)
        · refine hfull.2 maxCode hmax ?_
          have hnext := hgrows _ maxCode ⟨hwithin.pos, hwithin.length⟩ (hcodes hmax)
          rwa [length_append, length_singleton, Nat.succ_mul, ← Nat.add_assoc]

end Dictenstein.Dat
