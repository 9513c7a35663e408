import Mathlib.Order.Lattice.Nat
import Dictenstein.ScdawgInsert
/-!
# ScdawgOccurrences — what the queries find

The node that a word is read to holds the word, and the nodes below it along the left edges are those whose words end with it
(`visit_spec`).  Their positions are the ends of the occurrences of the word: a position belongs to one node only, and the
word of that node is the beginning of the term up to it.
-/
namespace Dictenstein.Scdawg

open SuffixClasses List ScdawgCoreInner ScdawgNode

variable {U V : Type} [LinearOrder U]

/-! ## Occurrences -/

def occurrences (w t : List U) : List Nat := (List.range t.length).filter fun k => decide (w <+: t.drop k)

section
variable {w t : List U}

theorem mem_occurrences {k : Nat} (hw : w ≠ []) : k ∈ occurrences w t ↔ w <+: t.drop k := by
  rw [occurrences, mem_filter, mem_range, decide_eq_true_iff, and_iff_right_iff_imp]
  intro h
  have hpos : 0 < w.length := length_pos_iff.2 hw
  have hle := h.length_le
  rw [length_drop] at hle
  omega

omit [LinearOrder U] in
theorem suffix_take_iff {m : Nat} (hm : m ≤ t.length) (hw : w.length ≤ m) :
    w <:+ t.take m ↔ w <+: t.drop (m - w.length) := by
  rw [suffix_iff_eq_drop, prefix_iff_eq_take, length_take, Nat.min_eq_left hm, drop_take, Nat.sub_sub_self hw]

end

/-! ## The walk along the left edges -/

section
variable {inner : ScdawgCoreInner U V} {word : Nat → List U} {terms : List (List U)} {w : List U} {s : Nat}

section
omit [LinearOrder U]

def leftTargets (nodes : List (ScdawgNode U V)) (s : Nat) : List Nat :=
  (nodes[s]?.elim [] leftEdges).map Prod.snd

theorem leftTargets_eq (hleft : LeftEdges inner.nodes) (hs : s < inner.nodes.length) : leftTargets inner.nodes s =
    (List.range' 1 (inner.nodes.length - 1)).filter fun u => decide (linkAt inner.nodes u = some s) := by
  obtain ⟨n, hn⟩ := exists_node hs
  rw [leftTargets, hn]
  exact hleft s n hn

theorem mem_leftTargets (hleft : LeftEdges inner.nodes) (hroot : linkAt inner.nodes 0 = none) (hs : s < inner.nodes.length)
    (u : Nat) : u ∈ leftTargets inner.nodes s ↔ u < inner.nodes.length ∧ linkAt inner.nodes u = some s := by
  rw [leftTargets_eq hleft hs, mem_filter, mem_range'_1, decide_eq_true_iff]
  refine ⟨fun ⟨hu, hlink⟩ => ⟨by omega, hlink⟩, fun ⟨hu, hlink⟩ => ⟨?_, hlink⟩⟩
  -- the root has no suffix link
  have hne : u ≠ 0 := by
    rintro rfl
    rw [hroot] at hlink
    cases hlink
  omega

end

theorem forest (hrep : Rep nodeOps ScdawgNode.Ok inner.nodes word) (hleft : LeftEdges inner.nodes) :
    Preorder.Forest {s | s < inner.nodes.length} (auto nodeOps inner.nodes word).link (leftTargets inner.nodes)
      (auto nodeOps inner.nodes word).rank
      ((Finset.range inner.nodes.length).sup (auto nodeOps inner.nodes word).rank) where
  parent_mem u hu t ht := by
    obtain ⟨n, hn⟩ := exists_node hu
    exact (hrep.link_lt hn ((auto_link hn).symm.trans ht)).1
  mem_children s hs u := mem_leftTargets hleft hrep.good.link_root hs u
  nodup_children s hs := by
    rw [leftTargets_eq hleft hs]
    exact List.Nodup.filter _ (nodup_range' 1)
  rank_lt u hu t ht := hrep.good.rank_link_lt hu ht
  rank_le u hu := Finset.le_sup (Finset.mem_range.2 hu)

/-- **The walk from the node of a word visits the nodes whose words end with it**, each once. -/
theorem visit_spec (hrep : Rep nodeOps ScdawgNode.Ok inner.nodes word) (hleft : LeftEdges inner.nodes)
    (hs : inner.findSubstringFast w = some s) : ∃ visited, inner.visitLeftEdgeSubtree s = some visited ∧ visited.Nodup ∧
      ∀ u, u ∈ visited ↔ u < inner.nodes.length ∧ w <:+ word u := by
  have hholds : (auto nodeOps inner.nodes word).Holds s w := hrep.good.reach_iff.1 hs
  have hforest := forest hrep hleft
  have hmem : s ∈ {s | s < inner.nodes.length} := hholds.1
  generalize (Finset.range inner.nodes.length).sup (auto nodeOps inner.nodes word).rank = bound at hforest
  have hdepth : bound - (auto nodeOps inner.nodes word).rank s < bound + 1 := by omega
  have hnodup := hforest.nodup_subtree (bound + 1) hmem hdepth
  have hvisited : ∀ u, u ∈ Preorder.subtree (leftTargets inner.nodes) (bound + 1) s ↔ u < inner.nodes.length ∧
    w <:+ word u := by
    intro u
    rw [hforest.mem_subtree (bound + 1) hmem hdepth]
    exact and_congr_right fun hu => (hrep.good.suffix_iff_chain hu hholds).symm
  have hlength : (Preorder.subtree (leftTargets inner.nodes) (bound + 1) s).length ≤ inner.nodes.length := by
    have hsubset : Preorder.subtree (leftTargets inner.nodes) (bound + 1) s ⊆ List.range inner.nodes.length :=
      fun u hu => mem_range.2 ((hvisited u).1 hu).1
    simpa only [length_range] using (subperm_of_subset hnodup hsubset).length_le
  exact ⟨_, Preorder.visit_eq hforest hmem hlength, hnodup, hvisited⟩

end

/-! ## The positions that are found -/

section
omit [LinearOrder U]

def endsAt (nodes : List (ScdawgNode U V)) (s : Nat) : List (Nat × Nat) := nodes[s]?.elim [] termEnds

variable {nodes : List (ScdawgNode U V)}

theorem mem_endsAt {s : Nat} {e : Nat × Nat} : e ∈ endsAt nodes s ↔ ∃ ends, (nodes.map termEnds)[s]? = some ends ∧
    e ∈ ends := by
  rw [endsAt, getElem?_map]
  cases nodes[s]? with
  | none => simp
  | some n => simp

theorem index_unique {β : Type} {L : List (List β)} (hL : L.flatten.Nodup) {s s' : Nat} {a a' : List β} {e : β}
    (hs : L[s]? = some a) (hs' : L[s']? = some a') (he : e ∈ a) (he' : e ∈ a') : s = s' := by
  have hdisjoint := pairwise_iff_getElem.1 (nodup_flatten.1 hL).2
  obtain ⟨hlt, rfl⟩ := List.getElem?_eq_some_iff.1 hs
  obtain ⟨hlt', rfl⟩ := List.getElem?_eq_some_iff.1 hs'
  rcases lt_trichotomy s s' with h | h | h
  · exact absurd he' (hdisjoint s s' hlt hlt' h he)
  · exact h
  · exact absurd he (hdisjoint s' s hlt' hlt h he')

theorem nodup_flatMap_endsAt (hnodes : (nodes.map termEnds).flatten.Nodup)
    {visited : List Nat} (hvisited : visited.Nodup) : (visited.flatMap (endsAt nodes)).Nodup := by
  rw [nodup_flatMap]
  constructor
  · intro s _
    unfold endsAt
    cases hs : nodes[s]? with
    | none => exact nodup_nil
    | some n => exact (nodup_flatten.1 hnodes).1 _ (mem_map_of_mem (mem_of_getElem? hs))
  · refine hvisited.imp fun {s s'} hne e he he' => hne ?_
    obtain ⟨ends, hs, hin⟩ := mem_endsAt.1 he
    obtain ⟨ends', hs', hin'⟩ := mem_endsAt.1 he'
    exact index_unique hnodes hs hs' hin hin'

end

section
variable {inner : ScdawgCoreInner U V} {nodes : List (ScdawgNode U V)} {terms : List (List U)} {w : List U} {last : Nat}

theorem Inv.exists_word (h : Inv nodes terms [] last) : ∃ word, Reading nodeOps ScdawgNode.Ok nodes word terms [] last ∧
    (∀ s e, e ∈ endsAt nodes s → ∃ t, terms[e.1]? = some t ∧ e.2 < t.length ∧ word s = t.take (e.2 + 1)) ∧
    (nodes.map termEnds).flatten = positions terms := by
  obtain ⟨word, hread, hword⟩ := h.reading
  refine ⟨word, hread, fun s e he => ?_, ?_⟩
  · obtain ⟨ends, hs, hin⟩ := mem_endsAt.1 he
    obtain ⟨t, ht, hlt, htake⟩ := hword s ends hs e hin
    by_cases hi : e.1 < terms.length
    · rw [getElem?_append_left hi] at ht
      exact ⟨t, ht, hlt, htake⟩
    · -- nothing has been read of the next term
      have hnil : t = [] := by
        rw [getElem?_append_right (by omega)] at ht
        exact mem_singleton.1 (mem_of_getElem? ht)
      rw [hnil] at hlt
      exact absurd hlt (Nat.not_lt_zero _)
  · rw [h.ends, positions_concat]
    exact append_nil _

structure EndsOf (terms : List (List U)) (w : List U) (ends : List (Nat × Nat)) : Prop where
  nodup : ends.Nodup
  mem_iff : ∀ i pos, (i, pos) ∈ ends ↔ ∃ t, terms[i]? = some t ∧ pos < t.length ∧ w <:+ t.take (pos + 1)

def startOf (terms : List (List U)) (patternLen : Nat) (e : Nat × Nat) : List U × Nat :=
  (terms.getD e.1 [], e.2 + 1 - patternLen)

omit [LinearOrder U]

theorem startOf_eq {e : Nat × Nat} {t : List U} (ht : terms[e.1]? = some t) (patternLen : Nat) :
    startOf terms patternLen e = (t, e.2 + 1 - patternLen) := by
  rw [startOf, getD_eq_getElem?_getD, ht]
  rfl

theorem termPositions_eq {s : Nat} (h : ∀ e ∈ endsAt inner.nodes s, ∃ t, inner.terms[e.1]? = some t ∧ w.length ≤ e.2 + 1) :
    inner.termPositions w.length s = (endsAt inner.nodes s).map (startOf inner.terms w.length) := by
  have hpoint : ∀ e ∈ endsAt inner.nodes s,
      (if e.2 + 1 ≥ w.length then inner.terms[e.1]?.map fun term => (term, e.2 + 1 - w.length) else none) =
        (some ∘ startOf inner.terms w.length) e := by
    intro e he
    obtain ⟨t, ht, hle⟩ := h e he
    rw [if_pos hle, ht, Function.comp, startOf_eq ht]
    rfl
  rw [← filterMap_eq_map]
  exact filterMap_congr hpoint

variable {ends : List (Nat × Nat)}

theorem EndsOf.mem_map_startOf (h : EndsOf terms w ends) (hw : w ≠ []) (t : List U) (k : Nat) :
    (t, k) ∈ ends.map (startOf terms w.length) ↔ t ∈ terms ∧ w <+: t.drop k := by
  have hpos : 0 < w.length := length_pos_iff.2 hw
  rw [mem_map]
  constructor
  · rintro ⟨⟨i, pos⟩, he, heq⟩
    obtain ⟨t', ht', hlt, hsuffix⟩ := (h.mem_iff i pos).1 he
    rw [startOf_eq ht'] at heq
    obtain ⟨rfl, rfl⟩ := Prod.mk.inj heq
    have hle := hsuffix.length_le
    rw [length_take] at hle
    exact ⟨mem_of_getElem? ht', (suffix_take_iff (by omega) (by omega)).1 hsuffix⟩
  · rintro ⟨ht, hpre⟩
    obtain ⟨i, hi⟩ := mem_iff_getElem?.1 ht
    have hle := hpre.length_le
    rw [length_drop] at hle
    have hend : k + w.length - 1 + 1 = k + w.length := by omega
    refine ⟨(i, k + w.length - 1), (h.mem_iff _ _).2 ⟨t, hi, by omega, ?_⟩, ?_⟩
    · rw [hend, suffix_take_iff (by omega) (by omega), Nat.add_sub_cancel]
      exact hpre
    · rw [startOf_eq hi, hend, Nat.add_sub_cancel]

theorem EndsOf.nodup_map_startOf (h : EndsOf terms w ends) (hterms : terms.Nodup) :
    (ends.map (startOf terms w.length)).Nodup := by
  refine List.Nodup.map_on ?_ h.nodup
  rintro ⟨i, pos⟩ he ⟨i', pos'⟩ he' heq
  obtain ⟨t, ht, hlt, hsuffix⟩ := (h.mem_iff i pos).1 he
  obtain ⟨t', ht', hlt', hsuffix'⟩ := (h.mem_iff i' pos').1 he'
  have hle := hsuffix.length_le
  have hle' := hsuffix'.length_le
  rw [length_take] at hle hle'
  rw [startOf_eq ht, startOf_eq ht'] at heq
  obtain ⟨rfl, hstart⟩ := Prod.mk.inj heq
  -- the terms are distinct
  have hi : i = i' := (getElem?_inj (lt_of_node ht) hterms).1 (ht.trans ht'.symm)
  have hp : pos = pos' := by
    have : pos + 1 - w.length = pos' + 1 - w.length := hstart
    omega
  rw [hi, hp]

end

section
variable {inner : ScdawgCoreInner U V} {w : List U}

/-- **The walk from the node of a word finds the ends of its occurrences.** -/
theorem exists_ends_of_node (h : Stored inner) (hleft : LeftEdges inner.nodes) {s : Nat}
    (hs : inner.findSubstringFast w = some s) :
    ∃ ends, EndsOf inner.terms w ends ∧ inner.countOccurrences s = some ends.length ∧
      inner.collectTermPositions s w.length = some (ends.map (startOf inner.terms w.length)) := by
  obtain ⟨word, hread, hword, hflatten⟩ := h.inv.exists_word
  obtain ⟨visited, hvisit, hnodup, hmem⟩ := visit_spec hread.rep hleft hs
  refine ⟨visited.flatMap (endsAt inner.nodes), ⟨?_, fun i pos => ?_⟩, ?_, ?_⟩
  · exact nodup_flatMap_endsAt (hflatten ▸ nodup_positions inner.terms) hnodup
  · rw [mem_flatMap]
    constructor
    · rintro ⟨u, hu, he⟩
      obtain ⟨t, ht, hlt, htake⟩ := hword u (i, pos) he
      exact ⟨t, ht, hlt, htake ▸ ((hmem u).1 hu).2⟩
    · rintro ⟨t, ht, hlt, hsuffix⟩
      have hpos : (i, pos) ∈ positions inner.terms := mem_positions.2 ⟨t, ht, hlt⟩
      rw [← hflatten, mem_flatten] at hpos
      obtain ⟨ends, hin, he⟩ := hpos
      obtain ⟨u, hu⟩ := mem_iff_getElem?.1 hin
      have he : (i, pos) ∈ endsAt inner.nodes u := mem_endsAt.2 ⟨ends, hu, he⟩
      obtain ⟨t', ht', -, htake⟩ := hword u (i, pos) he
      obtain rfl : t = t' := Option.some.inj (ht.symm.trans ht')
      refine ⟨u, (hmem u).2 ⟨?_, htake ▸ hsuffix⟩, he⟩
      simpa only [length_map] using lt_of_node hu
  · rw [countOccurrences, hvisit, length_flatMap]
    rfl
  · rw [collectTermPositions, hvisit, map_flatMap]
    refine congrArg some (flatMap_congr fun u hu => termPositions_eq fun e he => ?_)
    obtain ⟨t, ht, hlt, htake⟩ := hword u e he
    have hle := ((hmem u).1 hu).2.length_le
    rw [htake, length_take] at hle
    exact ⟨t, ht, by omega⟩

/-- **The queries find the ends of the occurrences**, of a word that is a part of no term as well. -/
theorem Ready.exists_ends (h : Ready inner) (hw : w ≠ []) : ∃ ends, EndsOf inner.terms w ends ∧
    inner.frequency w = some ends.length ∧
    inner.findExactSubstring w = some (ends.map (startOf inner.terms w.length)) := by
  obtain ⟨word, hread, -⟩ := h.inv.exists_word
  have hreach : (inner.findSubstringFast w).isSome ↔ ∃ t ∈ inner.terms, w <:+: t := hread.reach_iff hw
  unfold frequency findExactSubstring
  rw [if_neg hw, if_neg hw]
  cases hs : inner.findSubstringFast w with
  | some s =>
    obtain ⟨t, ht, -⟩ := hreach.1 (by rw [hs]; rfl)
    have hcomputed : inner.leftEdgesComputed = true := h.computed.resolve_right (ne_nil_of_mem ht)
    exact exists_ends_of_node h.toStored (h.left hcomputed) hs
  | none =>
    refine ⟨[], ⟨nodup_nil, fun i pos => iff_of_false not_mem_nil ?_⟩, rfl, rfl⟩
    rintro ⟨t, ht, -, hsuffix⟩
    have hsome := hreach.2 ⟨t, mem_of_getElem? ht, hsuffix.isInfix.trans ( take_prefix _ _).isInfix⟩
    rw [hs] at hsome
    cases hsome

theorem length_eq_sum {found : List (List U × Nat)} {texts : List (List U)} (hw : w ≠ []) (hnodup : found.Nodup)
    (hfound : ∀ t k, (t, k) ∈ found ↔ t ∈ texts ∧ w <+: t.drop k) :
    found.length = (texts.dedup.map fun t => (occurrences w t).length).sum := by
  have hall : (texts.dedup.flatMap fun t => (occurrences w t).map fun k => (t, k)).Nodup := by
    rw [nodup_flatMap]
    refine ⟨fun t _ => (nodup_range.filter _).map fun k k' h => (Prod.mk.inj h).2, ?_⟩
    refine (nodup_dedup texts).imp fun {t t'} hne e he he' => hne ?_
    obtain ⟨k, -, rfl⟩ := mem_map.1 he
    obtain ⟨k', -, heq⟩ := mem_map.1 he'
    exact (Prod.mk.inj heq).1.symm
  have hperm : found.Perm (texts.dedup.flatMap fun t => (occurrences w t).map fun k => (t, k)) := by
    rw [perm_ext_iff_of_nodup hnodup hall]
    rintro ⟨t, k⟩
    rw [hfound, mem_flatMap]
    constructor
    · rintro ⟨ht, hpre⟩
      exact ⟨t, mem_dedup.2 ht, mem_map.2 ⟨k, (mem_occurrences hw).2 hpre, rfl⟩⟩
    · rintro ⟨t', ht', hk⟩
      obtain ⟨k', hk', heq⟩ := mem_map.1 hk
      obtain ⟨rfl, rfl⟩ := Prod.mk.inj heq
      exact ⟨mem_dedup.1 ht', (mem_occurrences hw).1 hk'⟩
  rw [hperm.length_eq, length_flatMap]
  simp only [length_map]

end

/-- **After any calls a non-empty word is found exactly if it is a part of an inserted term; its frequency is the number of
its occurrences over the distinct terms, and every occurrence is listed once**, with the same terms and starts in the
wrapper's matches. -/
theorem substrings_found [Inhabited U] (made : Option (List (List U × Option V))) (calls : List (Call U V)) :
    ∃ inner, runCalls made calls = some inner ∧ ∀ w, w ≠ [] → let inserted := (insertedRecords made calls).map Prod.fst
      (inner.containsSubstring w = true ↔ ∃ t ∈ inserted, w <:+: t) ∧
      inner.frequency w = some (inserted.dedup.map fun t => (occurrences w t).length).sum ∧
      ∃ found, inner.findExactSubstring w = some found ∧ found.Nodup ∧
        (∀ t k, (t, k) ∈ found ↔ t ∈ inserted ∧ w <+: t.drop k) ∧
        ∃ reported, findExactSubstringInSnapshot inner w = some reported ∧
          reported.map (fun m => (m.term, m.position, m.length)) = found.map fun e => (e.1, e.2, w.length) := by
  obtain ⟨inner, hok, h, hterms⟩ := runCalls_ready made calls
  refine ⟨inner, hok, fun w hw => ?_⟩
  intro inserted
  obtain ⟨word, hread, -⟩ := h.inv.exists_word
  obtain ⟨ends, hends, hfrequency, hexact⟩ := h.exists_ends hw
  have hnodup := hends.nodup_map_startOf h.nodup
  have hfound : ∀ t k, (t, k) ∈ ends.map (startOf inner.terms w.length) ↔ t ∈ inserted ∧ w <+: t.drop k := by
    intro t k
    rw [hends.mem_map_startOf hw, hterms]
  refine ⟨?_, ?_, _, hexact, hnodup, hfound, ?_⟩
  · have hreach : inner.containsSubstring w = true ↔ ∃ t ∈ inner.terms, w <:+: t := hread.reach_iff hw
    rw [hreach]
    exact exists_congr fun t => and_congr_left fun _ => hterms t
  · rw [hfrequency, ← length_eq_sum hw hnodup hfound, length_map]
  · rw [findExactSubstringInSnapshot, hexact]
    refine ⟨_, rfl, ?_⟩
    rw [map_map]
    rfl

-- `ab` ends inside the first term, and the second one is a part of it
example : (runCalls none [.insert ([0, 1, 0, 1], none), .extendRecords [([0, 1], some 7), ([1], none)]]).bind
    (findExactSubstring · [0, 1]) = some [([0, 1, 0, 1], 0), ([0, 1, 0, 1], 2), ([0, 1], 0)] := by
  decide +kernel

end Dictenstein.Scdawg
