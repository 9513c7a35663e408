import Dictenstein.SuffixRecords
/-!
# SuffixCompact — compaction, and the records over whole histories

`compact` keeps the states that are reachable from the root.  The graph stays the one of the same texts, since a state that
is not reachable holds no word, and a record stays if its state is kept. -/
namespace Dictenstein.Suffix

open SuffixClasses List Option SuffixAutomatonInner Marking

variable {U V : Type} [LinearOrder U] {inner : SuffixAutomatonInner U V} {texts : List (List U)} {word : Nat → List U}

/-! ## The states that are kept -/

section
variable (h : Rep nodeOps SuffixNode.Ok inner.nodes word)
include h

theorem mem_targets {s t : Nat} : t ∈ inner.targets s ↔ ∃ d, inner.transition s d = some t := by
  unfold targets transition
  cases hn : inner.nodes[s]? with
  | none => simp
  | some n =>
    have hok : n.Ok := h.ok s n hn
    show t ∈ n.edges.map Prod.snd ↔ ∃ d, n.findEdge d = some t
    rw [List.mem_map]
    constructor
    · rintro ⟨⟨d, t⟩, hin, rfl⟩
      exact ⟨d, (findEdge_eq hok d).trans (SortedEdges.lookup_of_mem hok hin)⟩
    · rintro ⟨d, hd⟩
      exact ⟨(d, t), SortedEdges.mem_of_lookup ((findEdge_eq hok d).symm.trans hd), rfl⟩

theorem reachable_iff {s : Nat} : Marking.Reachable inner.targets 0 s ↔
    (auto nodeOps inner.nodes word).Holds s (word s) := by
  constructor
  · intro hs
    induction hs with
    | refl => exact ((findState_iff h).1 (rfl : inner.findState [] = some 0)).proper
    | tail _ hin ih =>
      obtain ⟨d, hd⟩ := (mem_targets h).1 hin
      exact ((h.good.edge_iff _ _ d _ ih).1 hd).proper
  · intro hs
    have hread := (findState_iff h).2 hs
    generalize word s = w at hread
    induction w using List.reverseRecOn generalizing s with
    | nil => exact some.inj hread ▸ .refl
    | append_singleton w c ih =>
      rw [findState, foldlM_append] at hread
      obtain ⟨r, hr, hstep⟩ := bind_eq_some_iff.1 hread
      have hedge : inner.transition r c = some s := by simpa using hstep
      exact (ih ((findState_iff h).1 hr).proper hr).tail ((mem_targets h).2 ⟨c, hedge⟩)

theorem reachableStates_spec : ∃ reachable, inner.reachableStates = some reachable ∧ reachable.length = inner.nodes.length ∧
      ∀ s, reachable.getD s false = true ↔ (auto nodeOps inner.nodes word).Holds s (word s) := by
  have hroot : 0 < inner.nodes.length := h.good.root_mem
  have hsucc : ∀ s, Marking.Reachable inner.targets 0 s → ∀ t ∈ inner.targets s, t < inner.nodes.length :=
    fun s hs t ht => ((reachable_iff h).1 (hs.tail ht)).1
  obtain ⟨reachable, hmark, hlength, hiff⟩ := mark_spec hsucc hroot
    (show (∑ s ∈ Finset.range inner.nodes.length, (inner.targets s).length) + 1 < inner.searchBound from Nat.lt_succ_self _)
  exact ⟨reachable, hmark, hlength, fun s => (hiff s).trans (reachable_iff h)⟩

end

section
variable {reachable : List Bool}

def oldOf (reachable : List Bool) (nodes : List (SuffixNode U V)) (i : Nat) : Nat :=
  ((Marking.kept reachable nodes)[i]?.map Prod.snd).getD 0

variable {n : SuffixNode U V}

omit [LinearOrder U] in
theorem oldOf_eq {nodes : List (SuffixNode U V)} {i old : Nat}
    (h : (Marking.kept reachable nodes)[i]? = some (n, old)) : oldOf reachable nodes i = old := by
  rw [oldOf, h]
  rfl

theorem ok_remap (hn : n.Ok) : (remap reachable n).Ok :=
  SortedEdges.sorted_map_snd _ hn

theorem findEdge_remap (hn : n.Ok) (d : U) : (remap reachable n).findEdge d = (n.findEdge d).map (oldToNew reachable) := by
  rw [findEdge_eq (ok_remap hn), findEdge_eq hn]
  exact SortedEdges.lookup_map_snd _ d n.edges

theorem cut_kept (h : Rep nodeOps SuffixNode.Ok inner.nodes word) (hlength : reachable.length = inner.nodes.length)
    (hreach : ∀ s, reachable.getD s false = true ↔ (auto nodeOps inner.nodes word).Holds s (word s)) :
    Cut nodeOps SuffixNode.Ok inner.nodes
      ((Marking.kept reachable inner.nodes).map fun x => remap reachable x.1) word
      (oldOf reachable inner.nodes) (oldToNew reachable) := by
  have hkept : ∀ {i n old}, (kept reachable inner.nodes)[i]? = some (n, old) ↔
      inner.nodes[old]? = some n ∧ reachable.getD old false = true ∧ rank reachable old = i :=
    getElem?_kept_iff hlength.ge
  -- a state that holds a word is kept
  have hplace : ∀ s, reachable.getD s false = true → oldToNew reachable s = rank reachable s ∧
      ∃ n, (kept reachable inner.nodes)[rank reachable s]? = some (n, s) := by
    intro s hs
    obtain ⟨n, hn⟩ := exists_node (show s < inner.nodes.length from ((hreach s).1 hs).1)
    exact ⟨if_pos hs, n, hkept.2 ⟨hn, hs, rfl⟩⟩
  have hlt : ∀ i < ((kept reachable inner.nodes).map fun x => remap reachable x.1).length,
      ∃ n old, (kept reachable inner.nodes)[i]? = some (n, old) := by
    intro i hi
    rw [length_map] at hi
    exact ⟨_, _, getElem?_eq_getElem hi⟩
  have hroot : reachable.getD 0 false = true :=
    (hreach 0).2 ((findState_iff h).1 (rfl : inner.findState [] = some 0)).proper
  obtain ⟨-, n₀, hn₀⟩ := hplace 0 hroot
  refine ⟨?_, oldOf_eq hn₀, fun i hi => ?_, fun s hs => ?_, fun i hi => ?_, fun i n' hn' => ?_⟩
  · rw [length_map]
    exact (List.getElem?_eq_some_iff.1 hn₀).1
  · obtain ⟨n, old, hget⟩ := hlt i hi
    rw [oldOf_eq hget]
    exact (hreach old).1 (hkept.1 hget).2.1
  · obtain ⟨heq, n, hget⟩ := hplace s ((hreach s).2 hs)
    rw [heq, length_map]
    exact ⟨(List.getElem?_eq_some_iff.1 hget).1, oldOf_eq hget⟩
  · obtain ⟨n, old, hget⟩ := hlt i hi
    obtain ⟨-, hold, hrank⟩ := hkept.1 hget
    rw [oldOf_eq hget, (hplace old hold).1, hrank]
  · rw [getElem?_map, map_eq_some_iff] at hn'
    obtain ⟨⟨n, old⟩, hget, rfl⟩ := hn'
    have hn := (hkept.1 hget).1
    have hok : n.Ok := h.ok old n hn
    rw [oldOf_eq hget]
    exact ⟨n, hn, ok_remap hok, rfl, rfl, findEdge_remap hok⟩

end

/-- **A compaction keeps the graph.** -/
theorem Inv.compact (h : Inv inner texts []) : ∃ inner', inner.compact = some inner' ∧ Inv inner' texts [] ∧
    inner'.sourceTexts = inner.sourceTexts ∧ inner'.stringCount = inner.stringCount ∧
      (inner.needsCompaction = false → inner' = inner) := by
  unfold SuffixAutomatonInner.compact
  cases hneeds : inner.needsCompaction with
  | false => exact ⟨inner, rfl, h, rfl, rfl, fun _ => rfl⟩
  | true =>
    obtain ⟨word, hword⟩ := h.reading
    obtain ⟨reachable, hmark, hlength, hreach⟩ := reachableStates_spec hword.rep
    simp only [hmark, Bool.not_true, Bool.false_eq_true, if_false, bind_eq_bind, bind_some]
    refine ⟨_, rfl, ⟨⟨_, hword.restrict (cut_kept hword.rep hlength hreach)⟩, allFinal_iff.2 fun i n' hn' => ?_⟩,
      rfl, rfl, nofun⟩
    obtain ⟨⟨n, old⟩, hget, rfl⟩ := map_eq_some_iff.1 ((getElem?_map ..).symm.trans hn')
    obtain ⟨hn, -, hrank⟩ := (getElem?_kept_iff hlength.ge).1 hget
    show n.isFinal = true
    refine h.isFinal (s := old) (fun hzero => ?_) hn
    rw [hzero] at hrank
    cases hrank

/-- **A compaction keeps the records**, if every state with positions is reachable. -/
theorem Recorded.compact (h : Recorded inner texts) (hpos : inner.needsCompaction = true → inner.positionsReachable = true) :
    ∃ inner', inner.compact = some inner' ∧ Recorded inner' texts ∧ inner'.table.records = inner.table.records := by
  obtain ⟨inner', hok, hinv, -⟩ := h.inv.compact
  unfold SuffixAutomatonInner.compact at hok ⊢
  cases hneeds : inner.needsCompaction with
  | false => exact ⟨inner, rfl, h, rfl⟩
  | true =>
    obtain ⟨word, hword⟩ := h.inv.reading
    obtain ⟨reachable, hmark, hlength, hreach⟩ := reachableStates_spec hword.rep
    have hcut := cut_kept hword.rep hlength hreach
    have hpos : ∀ s, inner.positions s ≠ [] → reachable.getD s false = true := by
      intro s hs
      obtain ⟨⟨id, stop⟩, hin⟩ := exists_mem_of_ne_nil _ hs
      have hlt : s < inner.nodes.length := (h.listed.entry s id stop hin).1
      have hall := hpos hneeds
      rw [positionsReachable, hmark] at hall
      have := all_eq_true.1 hall s (mem_range.2 hlt)
      simpa [hs] using this
    simp only [hneeds, hmark, Bool.not_true, Bool.false_eq_true, if_false, bind_eq_bind, bind_some] at hok ⊢
    cases hok
    refine ⟨_, rfl, ⟨hinv, ?_, h.covered⟩, rfl⟩
    refine (h.listed.cut (ι := oldOf reachable inner.nodes) (fun i hi => ?_) (fun i hi => ?_) (fun i hi j hj heq => ?_)
      fun s hs => ?_).1
    · obtain ⟨⟨n, old⟩, hget⟩ : ∃ x, (kept reachable inner.nodes)[i]? = some x :=
        ⟨_, getElem?_eq_getElem (by simpa using hi)⟩
      simp only [table, hget, oldOf_eq hget]
    · have hnone : (kept reachable inner.nodes)[i]? = none := getElem?_eq_none (by simpa using hi)
      simp only [hnone]
    · rw [← hcut.back i hi, ← hcut.back j hj, heq]
    · exact ⟨_, hcut.renamed s ((hreach s).1 (hpos s hs))⟩

/-! ## Histories -/

def Adds (r : Finset (Nat × List U)) (text : List U) (r' : Finset (Nat × List U)) : Prop :=
  ∃ id, (∀ id' t, (id', t) ∈ r → id' < id) ∧ r' = insert (id, text) r

def Follows (r : Finset (Nat × List U)) (c : Call U V) (r' : Finset (Nat × List U)) : Prop := match c with
  | .insert text => Adds r text r'
  | .insertWithValue text _ => Adds r text r'
  | .updateOrInsert term _ _ => r' = r ∨ Adds r term r'
  | .remove text => (∀ id, (id, text) ∉ r) ∧ r' = r ∨
      ∃ id, (id, text) ∈ r ∧ (∀ id', (id', text) ∈ r → id ≤ id') ∧ r' = r.erase (id, text)
  | .compact => r' = r
  | .clear => r' = ∅

def History : List (Call U V) → Finset (Nat × List U) → Finset (Nat × List U) → Prop
  | [], r, r' => r' = r
  | c :: calls, r, r' => ∃ m, Follows r c m ∧ History calls m r'

structure Observes (inner : SuffixAutomatonInner U V) (r : Finset (Nat × List U)) : Prop where
  count : inner.stringCount = r.card
  remove : ∀ t, (inner.remove t).1 = true ↔ ∃ id, (id, t) ∈ r
  sorted : ∀ w, w ≠ [] → (inner.matchPositions w).Pairwise Before
  mem_matchPositions : ∀ w, w ≠ [] → ∀ id stop, (id, stop) ∈ inner.matchPositions w ↔ ∃ t, (id, t) ∈ r ∧ EndsAt w t stop

/-- A compaction that has work to do finds no position at a state that is not reachable. -/
def KeepsPositions (inner : SuffixAutomatonInner U V) (c : Call U V) : Prop :=
  c.isCompact = true → inner.needsCompaction = true → inner.positionsReachable = true

instance (inner : SuffixAutomatonInner U V) (c : Call U V) : Decidable (KeepsPositions inner c) :=
  inferInstanceAs (Decidable (_ → _))

theorem Recorded.observes (h : Recorded inner texts) : Observes inner inner.table.records := by
  refine ⟨h.listed.card_records.symm, fun t => ?_, fun w hw => (h.matchPositions hw).1, fun w hw => (h.matchPositions hw).2⟩
  obtain ⟨-, ⟨hfalse, hnone, -⟩ | ⟨htrue, id, hin, -⟩⟩ := h.remove t
  · rw [hfalse]
    exact ⟨nofun, fun ⟨id, hin⟩ => absurd hin (hnone id)⟩
  · rw [htrue]
    exact ⟨fun _ => ⟨id, hin⟩, fun _ => rfl⟩

theorem Recorded.call (h : Recorded inner texts) (c : Call U V) (hkeeps : KeepsPositions inner c) :
    ∃ inner' texts', Suffix.call inner c = some inner' ∧ Recorded inner' texts' ∧
      Follows inner.table.records c inner'.table.records := by
  have hadds : ∀ text, Adds inner.table.records text (insert (inner.sourceTexts.length, text) inner.table.records) :=
    fun text => ⟨_, fun _ _ hin => h.lt_length hin, rfl⟩
  cases c with
  | insert text =>
    obtain ⟨inner', hok, hrec, hrecords⟩ := h.insertTextIntoInner text none
    exact ⟨inner', _, hok, hrec, hrecords ▸ hadds text⟩
  | insertWithValue text value =>
    obtain ⟨inner', hok, hrec, hrecords⟩ := h.insertTextIntoInner text (some value)
    exact ⟨inner', _, hok, hrec, hrecords ▸ hadds text⟩
  | updateOrInsert term defaultValue updateFn =>
    obtain ⟨result, texts', hok, hrec, hrecords⟩ := h.updateOrInsert term defaultValue updateFn
    refine ⟨result.2, texts', by simp only [Suffix.call, hok, map_some], hrec, ?_⟩
    rcases hrecords with heq | heq
    · exact .inl heq
    · exact .inr (heq ▸ hadds term)
  | remove text =>
    obtain ⟨hrec, ⟨-, hnone, heq⟩ | ⟨-, hsome⟩⟩ := h.remove text
    · exact ⟨_, texts, rfl, hrec, .inl ⟨hnone, by rw [heq]⟩⟩
    · exact ⟨_, texts, rfl, hrec, .inr hsome⟩
  | compact =>
    obtain ⟨inner', hok, hrec, hrecords⟩ := h.compact (hkeeps rfl)
    exact ⟨inner', texts, hok, hrec, hrecords⟩
  | clear =>
    obtain ⟨texts', hrec, hrecords⟩ := h.clear
    exact ⟨_, texts', rfl, hrec, hrecords⟩

theorem Recorded.run (calls : List (Call U V)) (h : Recorded inner texts)
    (hkeeps : Runs.Along Suffix.call KeepsPositions calls inner) :
    ∃ inner' texts', Runs.run Suffix.call calls inner = some inner' ∧
      Recorded inner' texts' ∧ History calls inner.table.records inner'.table.records := by
  induction calls generalizing inner texts with
  | nil => exact ⟨inner, texts, rfl, h, rfl⟩
  | cons c calls ih =>
    obtain ⟨inner₁, texts₁, hok, h₁, hfollows⟩ := h.call c hkeeps.1
    obtain ⟨inner₂, texts₂, hrun, h₂, hhistory⟩ := ih h₁ (Runs.along_cons hok hkeeps).2
    exact ⟨inner₂, texts₂, Runs.run_cons.2 ⟨inner₁, hok, hrun⟩, h₂, inner₁.table.records, hfollows, hhistory⟩

theorem Observes.same {inner' : SuffixAutomatonInner U V} {r : Finset (Nat × List U)} (h : Observes inner r)
    (h' : Observes inner' r) : inner'.stringCount = inner.stringCount ∧ (∀ t, (inner'.remove t).1 = (inner.remove t).1) ∧
      ∀ w, inner'.matchPositions w = inner.matchPositions w := by
  refine ⟨h'.count.trans h.count.symm, fun t => Bool.eq_iff_iff.2 ((h'.remove t).trans (h.remove t).symm), fun w => ?_⟩
  by_cases hw : w = []
  · subst hw
    rfl
  · refine List.Perm.eq_of_pairwise (fun a b _ _ hab hba => ?_) (h'.sorted w hw) (h.sorted w hw) ?_
    · unfold Before at hab hba
      omega
    · have hnodup : ∀ {l : List (Nat × Nat)}, l.Pairwise Before → l.Nodup := fun hl => hl.imp fun hab heq => by
        unfold Before at hab
        subst heq
        omega
      refine (perm_ext_iff_of_nodup (hnodup (h'.sorted w hw)) (hnodup (h.sorted w hw))).2 fun ⟨id, stop⟩ => ?_
      rw [h'.mem_matchPositions w hw, h.mem_matchPositions w hw]

/-- **Over any history whose compactions find no position at an unreachable state, the records that are counted, removed and
searched are those that were inserted and not removed**; and such a compaction changes nothing that can be observed. -/
theorem records_of_history (calls : List (Call U V)) (hkeeps : Runs.Along call KeepsPositions calls new) :
    ∃ inner r, Runs.run call calls new = some inner ∧ History calls ∅ r ∧ Observes inner r ∧
      (KeepsPositions inner .compact → ∃ inner', inner.compact = some inner' ∧ Observes inner' r ∧
        inner'.stringCount = inner.stringCount ∧ (∀ t, (inner'.remove t).1 = (inner.remove t).1) ∧
        ∀ w, inner'.matchPositions w = inner.matchPositions w) := by
  obtain ⟨inner, texts, hrun, h, hhistory⟩ := Recorded.new.run calls hkeeps
  refine ⟨inner, inner.table.records, hrun, hhistory, h.observes, fun hlast => ?_⟩
  obtain ⟨inner', hok, h', hrecords⟩ := h.compact (hlast rfl)
  have hobserves : Observes inner' inner.table.records := hrecords ▸ h'.observes
  exact ⟨inner', hok, hobserves, h.observes.same hobserves⟩

section
open AdaptiveLabel

def mixedCalls : List (Call UInt8 Nat) :=
  [.insert [97, 98], .updateOrInsert [98] 1 (· + 1), .insertWithValue [99] 2, .remove [97, 98], .compact, .insert [98, 97],
    .remove [98], .compact]

theorem records_of_mixedCalls : ∃ inner r, Runs.run call mixedCalls new = some inner ∧
    History mixedCalls ∅ r ∧ Observes inner r := by
  obtain ⟨inner, r, hrun, hhistory, hobserves, -⟩ := records_of_history mixedCalls (by decide +kernel)
  exact ⟨inner, r, hrun, hhistory, hobserves⟩

/-- **A compaction loses a record**: the second record of a text inserted twice is at a state that is not reachable. -/
theorem compact_loses_record : (Runs.run call ([.insert [97], .insert [97], .remove [97]] : List (Call UInt8 Nat))
    new).bind (fun inner => inner.compact.map fun inner' =>
      ((inner.stringCount, (inner.remove [97]).1, inner.matchPositions [97]),
        inner'.stringCount, (inner'.remove [97]).1, inner'.matchPositions [97])) =
    some ((1, true, [(1, 1)]), 1, false, []) := by decide +kernel

end

end Dictenstein.Suffix
