import Dictenstein.ScdawgNodes
/-!
# ScdawgHandles — finality, values, reverse edges and paths

`Kept` goes along with a run of calls: with it the flag, the value, the left edges and the parent of a node are read off its
longest word.
-/
namespace Dictenstein.Scdawg

open SuffixClasses List Option ScdawgCoreInner

variable {U V : Type}

/-! ## The labels of left edges -/

/-- A left edge is labelled with the first unit of the node it leads to. -/
def Labels (nodes : List (ScdawgNode U V)) : Prop :=
  ∀ n ∈ nodes, ∀ e ∈ n.leftEdges, (nodes.map ScdawgNode.firstChar)[e.2]? = some e.1

def labelled (n : ScdawgNode U V) : List (U × Nat) × U := (n.leftEdges, n.firstChar)

section
variable {nodes nodes' : List (ScdawgNode U V)}

theorem Labels.congr (h : Labels nodes) (hmap : nodes'.map labelled = nodes.map labelled) : Labels nodes' := by
  have hfirst : nodes'.map ScdawgNode.firstChar = nodes.map ScdawgNode.firstChar := by
    simpa [Function.comp_def, labelled] using congrArg (map Prod.snd) hmap
  intro n hn e he
  have hmem : labelled n ∈ nodes.map labelled := hmap ▸ mem_map_of_mem hn
  obtain ⟨n₀, hn₀, heq⟩ := mem_map.1 hmem
  rw [hfirst]
  exact h n₀ hn₀ e (by rwa [show n₀.leftEdges = n.leftEdges from congrArg Prod.fst heq])

theorem Labels.addLeftEdge (h : Labels nodes) (nodeIdx : Nat) : Labels (addLeftEdge nodes nodeIdx) := by
  have hfirst : (ScdawgCoreInner.addLeftEdge nodes nodeIdx).map ScdawgNode.firstChar = nodes.map ScdawgNode.firstChar :=
    map_addLeftEdge (fun _ _ => rfl) nodes nodeIdx
  intro n hn e he
  rw [hfirst]
  unfold ScdawgCoreInner.addLeftEdge at hn
  split at hn
  · exact h n hn e he
  · rename_i child hchild
    split at hn
    · exact h n hn e he
    · obtain ⟨s, hs⟩ := mem_iff_getElem?.1 hn
      rw [getElem?_modify] at hs
      obtain ⟨n₀, hn₀, rfl⟩ := map_eq_some_iff.1 hs
      have hold := h n₀ (mem_of_getElem? hn₀)
      split at he
      · rcases mem_append.1 he with he | he
        · exact hold e he
        · rw [mem_singleton.1 he, getElem?_map, hchild]
          rfl
      · exact hold e he

theorem labels_foldl (idxs : List Nat) : ∀ {nodes : List (ScdawgNode U V)}, Labels nodes →
    Labels (idxs.foldl addLeftEdge nodes) := by
  induction idxs with
  | nil => exact fun h => h
  | cons idx idxs ih => exact fun h => ih (h.addLeftEdge idx)

theorem labels_computeLeftEdges {inner : ScdawgCoreInner U V} (h : inner.leftEdgesComputed = true → Labels inner.nodes) :
    Labels inner.computeLeftEdges.nodes := by
  unfold computeLeftEdges
  split
  · exact h ‹_›
  · refine labels_foldl _ fun n hn e he => ?_
    obtain ⟨n₀, -, rfl⟩ := mem_map.1 hn
    cases he

theorem marks_computeLeftEdges (inner : ScdawgCoreInner U V) :
    inner.computeLeftEdges.nodes.map marks = inner.nodes.map marks := by
  unfold computeLeftEdges
  split
  · rfl
  · rw [map_foldl_addLeftEdge (fun _ _ => rfl), List.map_map]
    rfl

end

/-! ## Runs -/

variable [LinearOrder U]

def latest (log : List (List U × Option V)) (t : List U) : Option V :=
  log.foldl (fun value record => if record.1 = t then record.2.or value else value) none

section
variable (log : List (List U × Option V))
include log

theorem latest_concat (record : List U × Option V) (t : List U) :
    latest (log ++ [record]) t = if record.1 = t then record.2.or (latest log t) else latest log t := by simp [latest]

theorem latest_some (term : List U) (v : V) :
    latest (log ++ [(term, some v)]) = Function.update (latest log) term (some v) := by
  funext t
  rw [latest_concat]
  by_cases ht : t = term
  · simp [ht]
  · simp [ht, Ne.symm ht]

theorem latest_none (term : List U) : latest (log ++ [(term, none)]) = latest log := by
  funext t
  rw [latest_concat]
  simp

end

variable [Inhabited U]

def finished (value : Option V) (n : ScdawgNode U V) : ScdawgNode U V :=
  { n with isFinal := true, value := value.or n.value }

structure Kept (inner : ScdawgCoreInner U V) (log : List (List U × Option V)) : Prop where
  stored : Stored inner
  tracked : ∃ word, Tracked inner.nodes word inner.terms (log.map Prod.fst) inner.termValues [] 0
  values : inner.termValues = latest log
  labels : inner.leftEdgesComputed = true → Labels inner.nodes
  fresh : inner.terms = [] → inner.nodes = [ScdawgNode.root]

section
variable {inner inner' : ScdawgCoreInner U V} {log : List (List U × Option V)}

theorem Kept.insert_new (h : Kept inner log) {term : List U} (hmem : term ∉ inner.termSet) : ∃ inner₁ nodes₁ word,
    inner.insert term = some (inner₁, true) ∧
      inner₁.nodes = nodes₁.modify inner₁.last (fun n => { n with isFinal := true }) ∧
      Tracked nodes₁ word inner.terms (log.map Prod.fst) inner.termValues term inner₁.last ∧
      inner₁.terms = inner.terms ++ [term] ∧ inner₁.termValues = inner.termValues ∧
      (inner₁.leftEdgesComputed = true → Labels nodes₁) := by
  obtain ⟨nodes₁, last₁, flag₁, hok, ⟨word₁, h₁⟩, hleft₁⟩ := saExtend_units (i := inner.termCount)
    (P := fun nodes x last => ∃ word, Tracked nodes word inner.terms (log.map Prod.fst) inner.termValues x last)
    (fun inner' x c ⟨word, h⟩ => by
      obtain ⟨nodes₁, word₁, hok, h₁⟩ := h.extend c
      -- the position of the unit is not seen
      refine ⟨_, _, by rw [saExtend, hok]; rfl, word₁, h₁.congr ?_ ?_⟩ <;> apply map_modify_of_keep <;> intro n <;> rfl)
    term { inner with last := 0 } h.tracked h.labels
  rw [nil_append] at h₁
  rw [length_nil] at hok
  unfold ScdawgCoreInner.insert
  simp only [if_neg hmem, hok]
  exact ⟨_, nodes₁, word₁, rfl, rfl, h₁, rfl, rfl, hleft₁⟩

omit [Inhabited U] in
theorem mem_log_iff {word : Nat → List U} (hstored : Stored inner)
    (h : Tracked inner.nodes word inner.terms (log.map Prod.fst) inner.termValues [] 0) (t : List U) :
    t ∈ inner.termSet ↔ t ∈ log.map Prod.fst := (hstored.mem_termSet t).trans (h.logged t)

theorem Kept.insertOne {record : List U × Option V} {added : Bool} (h : Kept inner log)
    (hok : insertOne inner record = some (inner', added)) : Kept inner' (log ++ [record]) := by
  obtain ⟨inner₀, added₀, hok₀, hstored, hterms, -⟩ := h.stored.insertOne record
  obtain ⟨rfl, rfl⟩ := Prod.mk.inj (some.inj (hok₀.symm.trans hok))
  have hfresh : inner₀.terms ≠ [] := by
    rw [hterms, addTerm]
    split
    · exact ne_nil_of_mem ‹_›
    · simp
  obtain ⟨term, value⟩ := record
  obtain ⟨word, htracked⟩ := h.tracked
  have hmemLog := mem_log_iff h.stored htracked term
  suffices hrest : (∃ word, Tracked inner₀.nodes word inner₀.terms (log.map Prod.fst ++ [term]) inner₀.termValues [] 0) ∧
      inner₀.termValues = latest (log ++ [(term, value)]) ∧ (inner₀.leftEdgesComputed = true → Labels inner₀.nodes) from
    ⟨hstored, by simpa using hrest.1, hrest.2.1, hrest.2.2, fun hnil => absurd hnil hfresh⟩
  by_cases hmem : term ∈ inner.termSet
  · cases value with
    | none =>
      simp only [Scdawg.insertOne, ScdawgCoreInner.insert, if_pos hmem, some.injEq, Prod.mk.injEq] at hok
      obtain ⟨rfl, -⟩ := hok
      exact ⟨⟨word, htracked.again (hmemLog.1 hmem)⟩, by rw [latest_none, h.values], h.labels⟩
    | some v =>
      obtain ⟨node, hnode⟩ := htracked.exists_holds ((h.stored.mem_termSet term).1 hmem) infix_rfl
      have hwalk : inner.findSubstringFast term = some node := htracked.reading.rep.good.reach_iff.2 hnode
      simp only [Scdawg.insertOne, insertWithValue, if_pos hmem, hwalk, some.injEq, Prod.mk.injEq] at hok
      obtain ⟨rfl, -⟩ := hok
      have hkeep : ∀ {β : Type} (f : ScdawgNode U V → β), (∀ n : ScdawgNode U V, f { n with value := some v } = f n) →
          (inner.nodes.modify node fun n => if n.isFinal then { n with value := some v } else n).map f = inner.nodes.map f :=
        fun f hf => map_modify_of_keep (fun n => by split <;> [exact hf n; rfl]) _ _
      refine ⟨⟨word, (htracked.again (hmemLog.1 hmem)).setValue (by simp) hnode (hkeep core fun _ => rfl) ?_⟩,
        by rw [latest_some, h.values], fun hflag => (h.labels hflag).congr (hkeep labelled fun _ => rfl)⟩
      apply map_modify_comm
      intro n
      cases hfinal : n.isFinal <;> simp [marks, hfinal]
  · have hnew : term ∉ log.map Prod.fst := fun hin => hmem (hmemLog.2 hin)
    obtain ⟨inner₁, nodes₁, word₁, hok₁, hnodes, h₁, hterms₁, hvalues₁, hleft₁⟩ := h.insert_new hmem
    have hvalue : inner.termValues term = none := htracked.valued term hnew
    -- with a value or without one, the last node is changed once
    have hinner : inner₀.nodes = nodes₁.modify inner₁.last (finished value) ∧ inner₀.terms = inner.terms ++ [term] ∧
        inner₀.termValues = latest (log ++ [(term, value)]) ∧ inner₀.leftEdgesComputed = inner₁.leftEdgesComputed := by
      cases value with
      | none =>
        obtain ⟨rfl, -⟩ := Prod.mk.inj (some.inj (hok₁.symm.trans hok))
        exact ⟨hnodes, hterms₁, by rw [latest_none, hvalues₁, h.values], rfl⟩
      | some v =>
        simp only [Scdawg.insertOne, insertWithValue, if_neg hmem, hok₁, bind_eq_bind, bind_some,
          if_true, Option.pure_def, Option.some.injEq, Prod.mk.injEq] at hok
        obtain ⟨rfl, -⟩ := hok
        refine ⟨?_, hterms₁, by rw [latest_some, hvalues₁, h.values], rfl⟩
        simp only [hnodes, modify_modify_eq]
        rfl
    obtain ⟨hnodes₀, hterms₀, hvalues₀, hflag₀⟩ := hinner
    refine ⟨⟨word₁, ?_⟩, hvalues₀, fun hflag => ?_⟩
    · rw [hnodes₀, hterms₀, hvalues₀]
      refine h₁.finish hnew (fun t ht => ?_) ?_ ?_
      · rw [h.values, latest_concat, if_neg (Ne.symm ht)]
      · apply map_modify_of_keep
        intro n
        rfl
      · apply map_modify_comm
        intro n
        rw [latest_concat, if_pos rfl, ← h.values, hvalue, or_none]
        rfl
    · rw [hnodes₀]
      refine (hleft₁ (hflag₀ ▸ hflag)).congr ?_
      apply map_modify_of_keep
      intro n
      rfl

theorem Kept.insertEach (records : List (List U × Option V)) : ∀ {inner : ScdawgCoreInner U V} {log before added},
    Kept inner log → records.foldlM
      (fun acc record => (Scdawg.insertOne acc.1 record).map fun e => (e.1, acc.2 || e.2)) (inner, before) =
        some (inner', added) → Kept inner' (log ++ records) := by
  induction records with intro inner log before added h hok
  | nil =>
    obtain ⟨rfl, -⟩ := Prod.mk.inj (some.inj hok)
    rwa [append_nil]
  | cons record records ih =>
    rw [foldlM_cons] at hok
    obtain ⟨⟨inner₁, added₁⟩, hok₁, hrest⟩ := bind_eq_some_iff.1 hok
    obtain ⟨⟨inner₂, added₂⟩, hok₂, heq⟩ := map_eq_some_iff.1 hok₁
    obtain ⟨rfl, -⟩ := Prod.mk.inj heq
    rw [append_cons]
    exact ih (h.insertOne hok₂) hrest

theorem Kept.computeLeftEdges (h : Kept inner log) : Kept inner.computeLeftEdges log := by
  obtain ⟨nodes', heq, hcore, -⟩ := computeLeftEdges_spec inner h.stored.left
  have hlabels := labels_computeLeftEdges h.labels
  have hmarks := marks_computeLeftEdges inner
  have hfresh : inner.nodes = [ScdawgNode.root] → inner.computeLeftEdges.nodes = [ScdawgNode.root] := by
    intro hroot
    unfold ScdawgCoreInner.computeLeftEdges
    split
    · exact hroot
    · simp [hroot, ScdawgNode.root]
  obtain ⟨word, htracked⟩ := h.tracked
  refine ⟨h.stored.computeLeftEdges.1.toStored, ⟨word, ?_⟩, ?_, fun _ => hlabels, fun hnil => hfresh (h.fresh ?_)⟩
  · rw [heq] at hmarks ⊢
    exact htracked.congr hcore hmarks
  · rw [heq]
    exact h.values
  · rwa [h.stored.computeLeftEdges.2] at hnil

theorem Kept.run {call : Call U V} (h : Kept inner log) (hok : call.run inner = some inner') :
    Kept inner' (log ++ call.records) := by
  have hrefreshed : ∀ {result : ScdawgCoreInner U V × Bool} {log}, Kept result.1 log → Kept (refreshed result) log := by
    intro result log hresult
    unfold refreshed
    split
    · exact hresult.computeLeftEdges
    · exact hresult
  cases call with
  | insert record =>
    obtain ⟨⟨inner₁, added⟩, hok₁, rfl⟩ := map_eq_some_iff.1 hok
    exact hrefreshed (h.insertOne hok₁)
  | extendRecords records =>
    cases records with
    | nil =>
      cases hok
      exact (append_nil log).symm ▸ h
    | cons record records =>
      obtain ⟨⟨inner₁, added⟩, hok₁, rfl⟩ := map_eq_some_iff.1 hok
      exact hrefreshed (Kept.insertEach (record :: records) h hok₁)

theorem Kept.new : Kept (new : ScdawgCoreInner U V) [] := by
  have hread : Reading nodeOps ScdawgNode.Ok [(ScdawgNode.root : ScdawgNode U V)] (fun _ => []) [] [] 0 :=
    Reading.root List.Pairwise.nil (fun _ => rfl) rfl rfl
  have hzero : ∀ {s : Nat} {m : Marks U V}, ([(ScdawgNode.root : ScdawgNode U V)].map marks)[s]? = some m →
      s = 0 ∧ m = marks ScdawgNode.root := fun {s m} hm => by
    obtain rfl : s = 0 := Nat.lt_one_iff.1 (lt_of_node hm)
    exact ⟨rfl, (some.inj hm).symm⟩
  refine ⟨Ready.new.toStored, ⟨fun _ => [], hread, fun _ => Iff.rfl, fun _ _ => rfl, fun s m hm => ?_, fun s m hm _ => ?_,
    iff_of_true hread.rep.good.holds_root (.inl rfl)⟩, rfl, nofun, fun _ => rfl⟩
  · obtain ⟨rfl, rfl⟩ := hzero hm
    exact ⟨rfl, fun h => absurd rfl h, fun _ => rfl, fun h => absurd rfl h⟩
  · obtain ⟨rfl, rfl⟩ := hzero hm
    exact ⟨iff_of_false nofun (by simp), rfl⟩

theorem runCalls_kept (made : Option (List (List U × Option V))) (calls : List (Call U V)) :
    ∃ inner, runCalls made calls = some inner ∧ Ready inner ∧ Kept inner (insertedRecords made calls) := by
  obtain ⟨inner, hok, hready, -⟩ := runCalls_ready made calls
  refine ⟨inner, hok, hready, ?_⟩
  unfold runCalls at hok
  obtain ⟨inner₁, hmake, hcalls⟩ := bind_eq_some_iff.1 hok
  have hmade : Kept inner₁ (made.getD []) := by
    cases made with
    | none =>
      cases hmake
      exact Kept.new
    | some records =>
      obtain ⟨⟨inner₂, added⟩, hok₂, rfl⟩ := map_eq_some_iff.1 hmake
      exact (Kept.insertEach records Kept.new hok₂).computeLeftEdges
  have hfold : ∀ (calls : List (Call U V)) {inner₁ log}, Kept inner₁ log → calls.foldlM Call.run inner₁ = some inner →
      Kept inner (log ++ calls.flatMap Call.records) := by
    intro calls
    induction calls with intro inner₁ log h hok
    | nil =>
      cases hok
      simpa using h
    | cons call calls ih =>
      rw [foldlM_cons] at hok
      obtain ⟨inner₂, hok₂, hrest⟩ := bind_eq_some_iff.1 hok
      rw [flatMap_cons, ← append_assoc]
      exact ih (h.run hok₂) hrest
  exact hfold calls hmade hcalls

end

/-! ## What the handles say -/

section
omit [Inhabited U]

variable {inner : ScdawgCoreInner U V} {word : Nat → List U} {terms log : List (List U)} {values : List U →
  Option V} {s : Nat}
  {w t : List U}

theorem holds_word (h : (auto (nodeOps : NodeOps U (ScdawgNode U V)) inner.nodes word).Holds s w) :
    (auto nodeOps inner.nodes word).Holds s (word s) :=
  ⟨h.1, suffix_rfl, fun r hr => (h.2.2 r hr).trans_le h.2.1.length_le⟩

variable (h : Tracked inner.nodes word terms log values [] 0)
include h

theorem Tracked.walk_iff : inner.walk w = some s ↔ (auto nodeOps inner.nodes word).Holds s w := h.reading.rep.good.reach_iff

theorem Tracked.longest_iff : inner.Longest s w ↔ (auto nodeOps inner.nodes word).Holds s w ∧ word s = w := by
  unfold ScdawgCoreInner.Longest
  simp only [h.walk_iff]
  constructor
  · rintro ⟨hs, hmax⟩
    exact ⟨hs, (hs.2.1.eq_of_length_le (hmax _ (holds_word hs))).symm⟩
  · rintro ⟨hs, rfl⟩
    exact ⟨hs, fun w' hw' => hw'.2.1.length_le⟩

theorem Tracked.isFinal_iff (hs : inner.walk w = some s) : inner.isFinal s = true ↔ word s ∈ log ∧ ¬ Late log (word s) := by
  obtain ⟨n, hn⟩ := exists_node (h.walk_iff.1 hs).1
  rw [isFinal, hn]
  exact (h.final s (marks n) (by rw [getElem?_map, hn]; rfl) (holds_word (h.walk_iff.1 hs))).1

theorem Tracked.walk_term (ht : t ∈ log) : ∃ s, inner.walk t = some s ∧ word s = t := by
  obtain ⟨s, hs⟩ := h.exists_holds ((h.logged t).2 ht) infix_rfl
  exact ⟨s, h.walk_iff.2 hs, h.word_of_term ht hs⟩

/-- **`path_from_root` reads the longest word** backwards: the word gets shorter from a node to its parent. -/
theorem Tracked.pathFromRoot_eq (fuel : Nat) : ∀ {s : Nat} {labels : List U}, s < inner.nodes.length →
    (word s).length < fuel →
    inner.pathFromRoot fuel s labels = some (word s ++ labels.reverse) := by
  induction fuel with
  | zero => exact fun _ hlt => absurd hlt (Nat.not_lt_zero _)
  | succ fuel ih =>
    intro s labels hs hlt
    obtain ⟨n, hn⟩ := exists_node hs
    have hp := h.placed s (marks n) (by rw [getElem?_map, hn]; rfl)
    rw [pathFromRoot, parentLabel, parent, hn, bind_some, bind_some]
    by_cases h0 : s = 0
    · have hparent : n.parent = none := hp.root h0
      have hroot : word s = [] := h0 ▸ h.reading.rep.good.root_word
      rw [hparent, hroot]
      rfl
    · obtain ⟨p, hplt, hparent, hword⟩ := hp.parent h0
      rw [show n.parent = some p from hparent]
      rw [hword, length_append, length_singleton] at hlt
      simp only [map_some]
      rw [ih hplt (by omega), hword]
      simp [marks]

theorem Tracked.depth_eq (hs : s < inner.nodes.length) : inner.depth s = (word s).length := by
  obtain ⟨n, hn⟩ := exists_node hs
  rw [depth, hn]
  exact (h.placed s (marks n) (by rw [getElem?_map, hn]; rfl)).depth

/-- The node that holds a left extension of a longest word has that node as its link. -/
theorem Tracked.link_of_extension {child : Nat} {a : U} (hs : (auto nodeOps inner.nodes word).Holds s (word s))
    (hchild : (auto nodeOps inner.nodes word).Holds child (a :: word s)) :
    (auto nodeOps inner.nodes word).link child = some s := by
  have hgood := h.reading.rep.good
  have hlong : (word s).length < (word child).length := hchild.2.1.length_le
  have hchain := (hgood.suffix_iff_chain hchild.1 hs).1 ((suffix_cons a _).trans hchild.2.1)
  rcases Relation.ReflTransGen.cases_head hchain with rfl | ⟨r, hlink, hrest⟩
  · exact absurd hlong (lt_irrefl _)
  · obtain ⟨-, hproper⟩ := hgood.link_mem child hchild.1 r hlink
    have hsuffix := (hgood.chain_mem hproper.1 hrest).2
    have hle : (word r).length ≤ (word s).length := Nat.le_of_lt_succ (hchild.2.2 r hlink)
    have heq : word s = word r := hsuffix.eq_of_length_le hle
    rw [hgood.holds_unique (show (auto nodeOps inner.nodes word).Holds r (word s) by rw [heq]; exact hproper) hs] at hlink
    exact hlink

end

section
variable (made : Option (List (List U × Option V))) (calls : List (Call U V))

def insertedTerms : List (List U) := (insertedRecords made calls).map Prod.fst

/-- **Finality**: the node of `t` is final exactly when `t` was inserted, if `t` was not late, and if no inserted term that
shares the node of a `t` that was not inserted made it final. -/
theorem walk_final_iff_contains : ∃ inner, runCalls made calls = some inner ∧
    (∀ t, inner.contains t = true ↔ t ∈ insertedTerms made calls) ∧
    ∀ t, ((∃ s, inner.walk t = some s ∧ inner.isFinal s = true) ↔ inner.contains t = true) ↔
      (t ∈ insertedTerms made calls → ¬ Late (insertedTerms made calls) t) ∧
      (t ∉ insertedTerms made calls →
        ∀ x ∈ insertedTerms made calls, inner.walk x = inner.walk t → Late (insertedTerms made calls) x) := by
  obtain ⟨inner, hok, -, hkept⟩ := runCalls_kept made calls
  obtain ⟨word, h⟩ := hkept.tracked
  have hcontains : ∀ t, inner.contains t = true ↔ t ∈ insertedTerms made calls := fun t =>
    decide_eq_true_iff.trans (mem_log_iff hkept.stored h t)
  refine ⟨inner, hok, hcontains, fun t => ?_⟩
  rw [hcontains]
  by_cases ht : t ∈ insertedTerms made calls
  · obtain ⟨s, hs, hword⟩ := h.walk_term ht
    have hfinal := h.isFinal_iff hs
    rw [hword, ← insertedTerms, and_iff_right ht] at hfinal
    simp [ht, hs, hfinal]
  · simp only [ht, iff_false, false_implies, not_false_eq_true, true_implies, true_and]
    constructor
    · intro hnone x hx hwalk
      obtain ⟨s, hs, hword⟩ := h.walk_term hx
      by_contra hlate
      exact hnone ⟨s, hwalk ▸ hs, (h.isFinal_iff hs).2 (hword ▸ ⟨hx, hlate⟩)⟩
    · rintro hall ⟨s, hs, hfinal⟩
      obtain ⟨hin, hlate⟩ := (h.isFinal_iff hs).1 hfinal
      have hsame : inner.walk (word s) = some s := h.walk_iff.2 (holds_word (h.walk_iff.1 hs))
      exact hlate (hall _ hin (hsame.trans hs.symm))

/-- After `ab`, the node of `b` is final although `b` was not inserted; after `ab` and `b`, it is not although `b` was. -/
theorem walk_final_ab : (runCalls none [Call.insert ([97, 98], (none : Option Nat))]).map
        (fun inner => ((inner.walk [98]).map inner.isFinal, inner.contains [98])) = some (some true, false) ∧
      (runCalls none [Call.insert ([97, 98], (none : Option Nat)), Call.insert ([98], none)]).map
        (fun inner => ((inner.walk [98]).map inner.isFinal, inner.contains [98])) = some (some false, true) := by
  decide +kernel

/-- **Values**: what `get_value` reads is the value that was inserted last, unless `t` has none and shares its node with a
term that has one. -/
theorem getValue_eq_latest_iff : ∃ inner, runCalls made calls = some inner ∧
    ∀ t, inner.getValue t = latest (insertedRecords made calls) t ↔
      (latest (insertedRecords made calls) t = none → ∀ x ∈ insertedTerms made calls, inner.walk x = inner.walk t →
        ¬ Late (insertedTerms made calls) x → latest (insertedRecords made calls) x = none) := by
  obtain ⟨inner, hok, -, hkept⟩ := runCalls_kept made calls
  obtain ⟨word, h⟩ := hkept.tracked
  rw [hkept.values] at h
  refine ⟨inner, hok, fun t => ?_⟩
  rw [getValue, hkept.values]
  cases ht : latest (insertedRecords made calls) t with
  | some v => simp
  | none =>
    simp only [true_implies]
    cases hs : inner.walk t with
    | none =>
      refine iff_of_true rfl fun x hx hwalk => ?_
      obtain ⟨s, hs', -⟩ := h.walk_term hx
      rw [hwalk] at hs'
      cases hs'
    | some s =>
      have hholds := holds_word (h.walk_iff.1 hs)
      obtain ⟨n, hn⟩ := exists_node hholds.1
      obtain ⟨hfinal, hvalue⟩ := h.final s (marks n) (by rw [getElem?_map, hn]; rfl) hholds
      have hshared : ∀ x ∈ insertedTerms made calls, inner.walk x = some s ↔ x = word s := by
        intro x hx
        refine ⟨fun hx' => (h.word_of_term hx (h.walk_iff.1 hx')).symm, ?_⟩
        rintro rfl
        exact h.walk_iff.2 hholds
      simp only [bind_some, hn]
      change (if n.isFinal then n.value else none) = none ↔ _
      rw [show n.value = _ from hvalue]
      change (n.isFinal = true ↔ _) at hfinal
      change (if n.isFinal = true then (if n.isFinal = true then _ else none) else none) = none ↔ _
      rw [← insertedTerms] at hfinal
      constructor
      · intro hnone x hx hwalk hlate
        obtain rfl := (hshared x hx).1 hwalk
        rw [if_pos (hfinal.2 ⟨hx, hlate⟩), if_pos (hfinal.2 ⟨hx, hlate⟩)] at hnone
        exact hnone
      · intro hall
        split
        · rename_i htrue
          obtain ⟨hin, hlate⟩ := hfinal.1 htrue
          exact hall _ hin ((hshared _ hin).2 rfl) hlate
        · rfl

theorem getValue_suffix_ab : (runCalls none [Call.insert ([97, 98], some 1)]).map
    (fun inner => (inner.getValue [98], latest (insertedRecords none [Call.insert ([97, 98], some 1)]) [98])) =
      some (some 1, none) := by
  decide +kernel

/-- **Paths**: `path_from_root` ends, with the longest word that is walked to the node. -/
theorem pathFromRoot_longest : ∃ inner, runCalls made calls = some inner ∧
    ∀ v, (∃ w, inner.walk w = some v) → ∃ path, (∀ fuel > inner.depth v, inner.pathFromRoot fuel v [] = some path) ∧
      inner.Longest v path ∧ inner.walk path = some v ∧ path.length = inner.depth v := by
  obtain ⟨inner, hok, -, hkept⟩ := runCalls_kept made calls
  obtain ⟨word, h⟩ := hkept.tracked
  refine ⟨inner, hok, fun v hv => ?_⟩
  obtain ⟨w, hw⟩ := hv
  have hholds := holds_word (h.walk_iff.1 hw)
  have hdepth := h.depth_eq hholds.1
  refine ⟨word v, fun fuel hfuel => ?_, h.longest_iff.2 ⟨hholds, rfl⟩, h.walk_iff.2 hholds, hdepth.symm⟩
  rw [h.pathFromRoot_eq fuel hholds.1 (hdepth ▸ hfuel)]
  simp

theorem Kept.leftEdges {inner : ScdawgCoreInner U V} {log : List (List U × Option V)} (hready : Ready inner)
    (h : Kept inner log) : LeftEdges inner.nodes ∧ Labels inner.nodes := by
  rcases hready.computed with hflag | hnil
  · exact ⟨hready.left hflag, h.labels hflag⟩
  · rw [h.fresh hnil]
    refine ⟨fun s n hn => ?_, fun n hn e he => ?_⟩
    · obtain rfl : s = 0 := Nat.lt_one_iff.1 (lt_of_node hn)
      cases hn
      rfl
    · rw [mem_singleton.1 hn] at he
      cases he

omit [Inhabited U] in
theorem Tracked.head_of_label {inner : ScdawgCoreInner U V} {word : Nat → List U} {terms log : List (List U)}
    {values : List U → Option V} {e : U × Nat} {z w : List U} {a : U} (h : Tracked inner.nodes word terms log values [] 0)
    (hlabel : (inner.nodes.map ScdawgNode.firstChar)[e.2]? = some e.1) (hlongest : inner.Longest e.2 (z ++ a :: w)) :
    (z ++ [a]).head? = some e.1 := by
  obtain ⟨child, hchild, hlabel⟩ := map_eq_some_iff.1 (getElem?_map ▸ hlabel)
  have hword := (h.longest_iff.1 hlongest).2
  have hne : e.2 ≠ 0 := by
    intro h0
    rw [h0, show word 0 = [] from h.reading.rep.good.root_word] at hword
    simp at hword
  have hfirst := (h.placed e.2 (marks child) (by rw [getElem?_map, hchild]; rfl)).first hne
  rw [hword, show (marks child).firstChar = e.1 from hlabel] at hfirst
  rw [← hfirst]
  cases z <;> rfl

omit [LinearOrder U] [Inhabited U] in
theorem head_of_suffix {a b : U} {w x : List U} (ha : a :: w <:+ x) (hb : b :: w <:+ x) : a = b :=
  (cons_eq_cons.1 ((suffix_of_suffix_length_le ha hb (by simp)).eq_of_length (by simp))).1

omit [Inhabited U] in
/-- A node that is walked to and has `s` as its link holds a left extension of the longest word of `s`. -/
theorem Tracked.extension_of_link {inner : ScdawgCoreInner U V} {word : Nat → List U} {terms log : List (List U)}
    {values : List U → Option V} {s child : Nat} {w : List U} (h : Tracked inner.nodes word terms log values [] 0)
    (hlink : (auto nodeOps inner.nodes word).link child = some s) (hw : inner.walk w = some child) :
    ∃ z a, word child = z ++ a :: word s ∧ (auto nodeOps inner.nodes word).Holds child (a :: word s) := by
  have hholds := h.walk_iff.1 hw
  have hlong : (word s).length < (word child).length := (hholds.2.2 s hlink).trans_le hholds.2.1.length_le
  obtain ⟨⟨z, hz⟩, -⟩ := h.reading.rep.good.link_mem child hholds.1 s hlink
  change z ++ word s = word child at hz
  obtain ⟨z, a, rfl⟩ := exists_concat_of_ne_nil (w := z) (by rintro rfl; rw [← hz] at hlong; exact lt_irrefl _ hlong)
  rw [append_assoc, singleton_append] at hz
  refine ⟨z, a, hz.symm, hholds.1, ⟨z, hz⟩, fun r hr => ?_⟩
  obtain rfl : s = r := some.inj (hlink.symm.trans hr)
  exact Nat.lt_succ_self _

/-- **Reverse edges**: they are the left extensions of the longest word `w` of the node exactly if every node that has this
one as its suffix link is walked to, and the longest word of the node of `a :: w` begins with `a`, for every unit `a` that
stands before `w` in an inserted term. -/
theorem reverseEdges_iff : ∃ inner, runCalls made calls = some inner ∧ ∀ u w, inner.Longest u w →
    (((∀ e ∈ inner.reverseEdges u, (∃ w', inner.Longest e.2 w' ∧ e.1 :: w <:+ w') ∧
          ∃ t ∈ insertedTerms made calls, e.1 :: w <:+: t) ∧
        ∀ a, (∃ t ∈ insertedTerms made calls, a :: w <:+: t) →
          ∃ e ∈ inner.reverseEdges u, e.1 = a ∧ ∃ w', inner.Longest e.2 w' ∧ a :: w <:+ w') ↔
      (∀ v, linkAt inner.nodes v = some u → ∃ x, inner.walk x = some v) ∧
        ∀ a, (∃ t ∈ insertedTerms made calls, a :: w <:+: t) →
          ∃ v w', inner.walk (a :: w) = some v ∧ inner.Longest v w' ∧ w'.head? = some a) := by
  obtain ⟨inner, hok, hready, hkept⟩ := runCalls_kept made calls
  obtain ⟨hleft, hlabels⟩ := hkept.leftEdges hready
  obtain ⟨word, h⟩ := hkept.tracked
  refine ⟨inner, hok, fun u w hu => ?_⟩
  obtain ⟨hholds, rfl⟩ := h.longest_iff.1 hu
  obtain ⟨n, hn⟩ := exists_node hholds.1
  have hentries : inner.reverseEdges u = n.leftEdges := by rw [reverseEdges, hn]; rfl
  have htargets := hleft u n hn
  rw [hentries]
  have hfirst := fun e he z a => h.head_of_label (z := z) (a := a) (w := word u) (hlabels n (mem_of_getElem? hn) e he)
  have hlinked : ∀ v, linkAt inner.nodes v = some u ↔ ∃ e ∈ n.leftEdges, e.2 = v := by
    intro v
    rw [← List.mem_map (f := Prod.snd), htargets, mem_filter, mem_range'_1, decide_eq_true_iff]
    refine ⟨fun hlink => ⟨?_, hlink⟩, And.right⟩
    have hne : v ≠ 0 := by
      rintro rfl
      exact absurd hlink (by rw [show linkAt inner.nodes 0 = none from h.reading.rep.good.link_root]; nofun)
    have hlt : v < inner.nodes.length := by
      obtain ⟨m, hm, -⟩ := bind_eq_some_iff.1 hlink
      exact lt_of_node hm
    omega
  constructor
  · rintro ⟨hgenuine, -⟩
    refine ⟨fun v hv => ?_, fun a ⟨t, ht, hinfix⟩ => ?_⟩
    · obtain ⟨e, he, rfl⟩ := (hlinked v).1 hv
      obtain ⟨⟨w', hlongest, -⟩, -⟩ := hgenuine e he
      exact ⟨w', hlongest.1⟩
    · obtain ⟨child, hchild⟩ := h.exists_holds ((h.logged t).2 ht) hinfix
      obtain ⟨e, he, rfl⟩ := (hlinked child).1 (h.link_of_extension hholds hchild)
      obtain ⟨⟨w', hlongest, z, rfl⟩, -⟩ := hgenuine e he
      obtain rfl : a = e.1 := head_of_suffix hchild.2.1 ⟨z, (h.longest_iff.1 hlongest).2.symm⟩
      refine ⟨e.2, _, h.walk_iff.2 hchild, hlongest, ?_⟩
      rw [← hfirst e he z e.1 hlongest]
      cases z <;> rfl
  · rintro ⟨hwalked, hheads⟩
    have hlabel : ∀ e ∈ n.leftEdges, ∃ z, inner.Longest e.2 (z ++ e.1 :: word u) ∧
        ∃ t ∈ insertedTerms made calls, e.1 :: word u <:+: t := by
      intro e he
      have hlink := (hlinked e.2).2 ⟨e, he, rfl⟩
      obtain ⟨x, hx⟩ := hwalked e.2 hlink
      obtain ⟨z, a, hword, hchild⟩ := h.extension_of_link hlink hx
      have hsuffix : a :: word u <:+ word e.2 := ⟨z, hword.symm⟩
      have hoccurs : ∃ t ∈ insertedTerms made calls, a :: word u <:+: t := by
        rcases h.reading.covered e.2 hchild.1 with hnil | ⟨t, ht, hinfix⟩ | hinfix
        · simp [hnil] at hsuffix
        · exact ⟨t, (h.logged t).1 ht, hsuffix.isInfix.trans hinfix⟩
        · exact absurd (hsuffix.isInfix.trans hinfix) (by simp)
      have hlongest : inner.Longest e.2 (z ++ a :: word u) := h.longest_iff.2 ⟨hword ▸ holds_word hchild, hword⟩
      obtain ⟨v, w', hv, hw', hhead⟩ := hheads a hoccurs
      obtain rfl : e.2 = v := some.inj ((h.walk_iff.2 hchild).symm.trans hv)
      obtain rfl : word e.2 = w' := (h.longest_iff.1 hw').2
      obtain rfl : a = e.1 := by
        have hz : (z ++ [a]).head? = some a := by
          rw [← hhead, hword]
          cases z <;> rfl
        exact some.inj (hz.symm.trans (hfirst e he z a hlongest))
      exact ⟨z, hlongest, hoccurs⟩
    refine ⟨fun e he => ?_, fun a ⟨t, ht, hinfix⟩ => ?_⟩
    · obtain ⟨z, hlongest, hoccurs⟩ := hlabel e he
      exact ⟨⟨_, hlongest, z, rfl⟩, hoccurs⟩
    · obtain ⟨child, hchild⟩ := h.exists_holds ((h.logged t).2 ht) hinfix
      obtain ⟨e, he, rfl⟩ := (hlinked child).1 (h.link_of_extension hholds hchild)
      obtain ⟨z, hlongest, -⟩ := hlabel e he
      obtain rfl : a = e.1 := head_of_suffix hchild.2.1 ⟨z, (h.longest_iff.1 hlongest).2.symm⟩
      exact ⟨e, he, rfl, _, hlongest, z, rfl⟩

/-- After `ab`, the edges of the root have the label `a` only, and one leads to the node of `ab` and `b`; `b`, which extends
the empty word, is the label of no edge. -/
theorem reverseEdges_root_ab : (runCalls none [Call.insert ([97, 98], (none : Option Nat))]).map
    (fun inner => (inner.reverseEdges 0, inner.walk [], inner.walk [97], inner.walk [98], inner.walk [97, 98])) =
      some ([(97, 1), (97, 2)], some 0, some 1, some 2, some 2) := by
  decide +kernel

end

end Dictenstein.Scdawg
