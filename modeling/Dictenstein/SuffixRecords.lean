import Dictenstein.Marking
import Dictenstein.SuffixRestrict
import Dictenstein.SuffixTable
import Dictenstein.SuffixValues
/-!
# SuffixRecords — the source records of a suffix automaton

Every text that was inserted is a record, active until it is removed: `positions` has it at the state that was last when it
was inserted.  A removal deactivates a record and leaves the states; `compact` keeps the states that are reachable from the
root and the records that are at such states. -/
namespace Dictenstein.Suffix

open SuffixClasses List Option SuffixAutomatonInner

variable {U V : Type} [LinearOrder U]

/-! ## The operations -/

def dedup {α : Type} [DecidableEq α] : List α → List α
  | a :: b :: l => if a = b then dedup (b :: l) else a :: dedup (b :: l)
  | l => l

def endsIn (needle source : List U) : List Nat :=
  ((List.range (source.length - needle.length + 1)).filter fun start => needle.isPrefixOf (source.drop start)).map
    (· + needle.length)

def occurrences (active : Nat → Bool) (needle : List U) (sources : List (List U)) : List (Nat × Nat) :=
  sources.zipIdx.flatMap fun (source, sourceId) =>
    if !active sourceId || decide (source.length < needle.length) then []
    else (endsIn needle source).map fun stop => (sourceId, stop)

namespace SuffixAutomatonInner

variable (inner : SuffixAutomatonInner U V)

/-- The entries of the position lists, with their states and their places there. -/
def positionEntries : List ((Nat × Nat) × Nat × Nat) :=
  (List.range inner.nodes.length).flatMap fun state => (inner.positions state).zipIdx.map fun (entry, index) =>
    (entry, state, index)

variable (text : List U)

def isRecordOf (entry : Nat × Nat) : Bool :=
  decide (entry.2 = text.length) && decide (inner.sourceTexts[entry.1]? = some text)

def removeLocation : Option (Nat × Nat × Nat) :=
  inner.positionEntries.foldl (fun best (entry, state, index) =>
    if inner.isRecordOf text entry && (match best with
      | none => true
      | some (bestSource, _, _) => decide (entry.1 < bestSource)) then some (entry.1, state, index) else best) none

def unindexSource (sourceId : Nat) : SuffixAutomatonInner U V :=
  { inner with sortedSourceIndices := inner.sortedSourceIndices.erase sourceId }

def remove : Bool × SuffixAutomatonInner U V :=
  match inner.removeLocation text with
  | none => (false, inner)
  | some (sourceId, state, index) =>
    let positions := Function.update inner.positions state ((inner.positions state).eraseIdx index)
    let inner := { inner with positions }.unindexSource sourceId
    (true, { inner with needsCompaction := true, stringCount := inner.stringCount - 1 })

def clear : SuffixAutomatonInner U V :=
  if inner.stringCount = 0 ∧ inner.nodes.length = 1 then inner else new

def targets (state : Nat) : List Nat :=
  (inner.nodes[state]?.map fun n => n.edges.map Prod.snd).getD []

def searchBound : Nat := ((List.range inner.nodes.length).map fun s => (inner.targets s).length).sum + 2

def reachableStates : Option (List Bool) :=
  Marking.mark inner.targets inner.searchBound (List.replicate inner.nodes.length false) [0]

def oldToNew (reachable : List Bool) (old : Nat) : Nat :=
  if reachable.getD old false then Marking.rank reachable old else 0

def remap (reachable : List Bool) (n : SuffixNode U V) : SuffixNode U V :=
  { n with edges := n.edges.map fun edge => (edge.1, oldToNew reachable edge.2)
           suffixLink := n.suffixLink.map (oldToNew reachable) }

def compact : Option (SuffixAutomatonInner U V) :=
  if !inner.needsCompaction then some inner
  else do
    let reachable ← inner.reachableStates
    let kept := Marking.kept reachable inner.nodes
    return { inner with
      nodes := kept.map fun x => remap reachable x.1
      -- the positions of a kept state go to its new place
      positions := fun state => match kept[state]? with
        | some (_, old) => inner.positions old
        | none => []
      lastState := 0
      needsCompaction := false }

/-- Whether every state that has positions is kept by `compact`. -/
def positionsReachable : Bool := match inner.reachableStates with
  | none => false
  | some reachable => (List.range inner.nodes.length).all fun state =>
      (inner.positions state).isEmpty || reachable.getD state false

def isActive (sourceId : Nat) : Bool :=
  (List.range inner.nodes.length).any fun state => (inner.positions state).any fun entry => decide (entry.1 = sourceId)

def matchPositions (substring : List U) : List (Nat × Nat) :=
  if substring = [] then []
  else match inner.findState substring with
    | none => []
    | some _ =>
      let result := occurrences inner.isActive substring inner.sourceTexts
      dedup (result.mergeSort fun a b => decide (a.1 < b.1 ∨ a.1 = b.1 ∧ a.2 ≤ b.2))

def recordsAt (state : Nat) (term : List U) : List Nat :=
  ((inner.positions state).filter (inner.isRecordOf term)).map Prod.fst

def updateSourceRecordValue (state : Nat) (term : List U) (value : V) :
    SuffixAutomatonInner U V :=
  let records := inner.recordsAt state term
  let valued := records.filter fun sourceId => (inner.sourceValues.getD sourceId none).isSome
  match valued.max?.or records.max? with
  | none => inner
  | some sourceId => { inner with sourceValues := inner.sourceValues.set sourceId (some value) }

def updateOrInsert (term : List U) (defaultValue : V) (updateFn : V → V) :
    Option (Bool × SuffixAutomatonInner U V) :=
  match inner.findTermState term with
  | none => (inner.insertTextIntoInner term (some defaultValue)).map (true, ·)
  | some state => match inner.nodes[state]?.bind SuffixNode.value with
    | some value =>
      let inner := { inner with nodes := inner.nodes.modify state fun n => { n with value := some (updateFn value) } }
      some (false, inner.updateSourceRecordValue state term (updateFn value))
    | none =>
      let inner := { inner with nodes := inner.nodes.modify state fun n => { n with value := some defaultValue } }
      let inner := inner.updateSourceRecordValue state term defaultValue
      let inner := { inner with nodes := inner.nodes.modify state fun n => { n with isFinal := true } }
      if (inner.positions state).any (inner.isRecordOf term) then some (true, inner)
      else
        let stringId := inner.sourceTexts.length
        let inner := { inner with
          sourceTexts := inner.sourceTexts ++ [term]
          sourceValues := inner.sourceValues ++ [some defaultValue]
          positions :=
            Function.update inner.positions state (inner.positions state ++ [(stringId, term.length)]) }.indexSource stringId
        some (true, { inner with stringCount := inner.stringCount + 1 })

end SuffixAutomatonInner

/-! ## Calls -/

inductive Call (U V : Type)
  | insert (text : List U)
  | insertWithValue (text : List U) (value : V)
  | updateOrInsert (term : List U) (defaultValue : V) (updateFn : V → V)
  | remove (text : List U)
  | compact
  | clear

def Call.isCompact : Call U V → Bool
  | .compact => true
  | _ => false

def call (inner : SuffixAutomatonInner U V) : Call U V → Option (SuffixAutomatonInner U V)
  | .insert text => inner.insertTextIntoInner text none
  | .insertWithValue text value => inner.insertTextIntoInner text (some value)
  | .updateOrInsert term defaultValue updateFn => (inner.updateOrInsert term defaultValue updateFn).map Prod.snd
  | .remove text => some (inner.remove text).2
  | .compact => inner.compact
  | .clear => some inner.clear

def SuffixAutomatonInner.table (inner : SuffixAutomatonInner U V) : Table U :=
  ⟨inner.sourceTexts, inner.positions, inner.sortedSourceIndices, inner.stringCount⟩

/-- The graph is one of `texts`, the records are listed, and every source can be read. -/
structure Recorded (inner : SuffixAutomatonInner U V) (texts : List (List U)) : Prop where
  inv : Inv inner texts []
  listed : inner.table.Listed inner.nodes.length
  covered : ∀ t ∈ inner.sourceTexts, t = [] ∨ ∃ g ∈ texts, t <:+: g

variable {inner : SuffixAutomatonInner U V} {texts : List (List U)} {text : List U}

theorem Recorded.new : Recorded (new : SuffixAutomatonInner U V) [] :=
  ⟨Inv.new, .new, nofun⟩

/-! ## Removing -/

variable {id stop state : Nat} {term w t : List U} {nodes : List (SuffixNode U V)} {value : Option V}
  {inner' : SuffixAutomatonInner U V}

omit [LinearOrder U] in
theorem mem_positionEntries {index : Nat} : ((id, stop), state, index) ∈ inner.positionEntries ↔
    state < inner.nodes.length ∧ (inner.positions state)[index]? = some (id, stop) := by
  rw [positionEntries, mem_flatMap]
  constructor
  · rintro ⟨s, hs, hin⟩
    obtain ⟨⟨entry, i⟩, hentry, heq⟩ := mem_map.1 hin
    obtain ⟨rfl, rfl, rfl⟩ : entry = (id, stop) ∧ s = state ∧ i = index := by simpa using heq
    have hget := mem_zipIdx_iff_getElem?.1 hentry
    exact ⟨mem_range.1 hs, hget⟩
  · rintro ⟨hs, hget⟩
    exact ⟨state, mem_range.2 hs, mem_map.2 ⟨((id, stop), index), mem_zipIdx_iff_getElem?.2 hget, rfl⟩⟩

theorem isRecordOf_iff {entry : Nat × Nat} :
    inner.isRecordOf text entry = true ↔ entry.2 = text.length ∧ inner.sourceTexts[entry.1]? = some text := by
  rw [isRecordOf, Bool.and_eq_true, decide_eq_true_iff, decide_eq_true_iff]

/-- What the search for a record has found among the entries that it has seen. -/
def Found (inner : SuffixAutomatonInner U V) (text : List U) (seen : List ((Nat × Nat) × Nat × Nat)) :
    Option (Nat × Nat × Nat) → Prop
  | none => ∀ x ∈ seen, inner.isRecordOf text x.1 = false
  | some (id, state, index) => (∃ stop, ((id, stop), state, index) ∈ seen ∧ inner.isRecordOf text (id, stop) = true) ∧
      ∀ x ∈ seen, inner.isRecordOf text x.1 = true → id ≤ x.1.1

/-- **The search finds a record of the text with the least source.** -/
theorem found_removeLocation (inner : SuffixAutomatonInner U V) (text : List U) :
    Found inner text inner.positionEntries (inner.removeLocation text) := by
  rw [removeLocation]
  -- over the entries seen so far
  induction inner.positionEntries using reverseRecOn with
  | nil => exact nofun
  | append_singleton seen x ih =>
    rw [foldl_append, foldl_cons, foldl_nil]
    generalize seen.foldl _ none = best at ih ⊢
    obtain ⟨⟨id, stop⟩, state, index⟩ := x
    have hlast : ((id, stop), state, index) ∈ seen ++ [((id, stop), state, index)] :=
      mem_append_right _ (mem_singleton_self _)
    match best, ih with
    | none, ih =>
      show Found inner text _ (if (inner.isRecordOf text (id, stop) && true) = true then some (id, state, index) else none)
      rw [Bool.and_true]
      split
      · rename_i hr
        refine ⟨⟨stop, hlast, hr⟩, forall_mem_append.2 ⟨fun y hy hyr => ?_, forall_mem_singleton.2 fun _ => le_rfl⟩⟩
        rw [ih y hy] at hyr
        cases hyr
      · rename_i hr
        exact forall_mem_append.2 ⟨ih, forall_mem_singleton.2 (Bool.eq_false_iff.2 hr)⟩
    | some (bestId, s, i), ih =>
      show Found inner text _
        (if (inner.isRecordOf text (id, stop) && decide (id < bestId)) = true then some (id, state, index)
        else some (bestId, s, i))
      simp only [Bool.and_eq_true, decide_eq_true_eq]
      obtain ⟨⟨stop', hin, hr'⟩, hleast⟩ := ih
      split
      · rename_i hr
        exact ⟨⟨stop, hlast, hr.1⟩, forall_mem_append.2 ⟨fun y hy hyr => hr.2.le.trans (hleast y hy hyr),
          forall_mem_singleton.2 fun _ => le_rfl⟩⟩
      · rename_i hr
        refine ⟨⟨stop', mem_append_left _ hin, hr'⟩, forall_mem_append.2 ⟨hleast, forall_mem_singleton.2 fun hyr => ?_⟩⟩
        exact Nat.le_of_not_lt fun hlt => hr ⟨hyr, hlt⟩

/-- **A removal takes the first record of the text**, or there is none. -/
theorem Recorded.remove (h : Recorded inner texts) (text : List U) : Recorded (inner.remove text).2 texts ∧
    ((inner.remove text).1 = false ∧ (∀ id, (id, text) ∉ inner.table.records) ∧ (inner.remove text).2 = inner ∨
      (inner.remove text).1 = true ∧ ∃ id, (id, text) ∈ inner.table.records ∧
        (∀ id', (id', text) ∈ inner.table.records → id ≤ id') ∧
        (inner.remove text).2.table.records = inner.table.records.erase (id, text)) := by
  -- the entries are the records
  have hrecord : ∀ id, (id, text) ∈ inner.table.records ↔
      ∃ stop state index, ((id, stop), state, index) ∈ inner.positionEntries ∧ inner.isRecordOf text (id, stop) = true := by
    intro id
    rw [h.listed.mem_records]
    constructor
    · rintro ⟨state, hin, ht⟩
      obtain ⟨index, hget⟩ := mem_iff_getElem?.1 hin
      exact ⟨text.length, state, index, mem_positionEntries.2 ⟨(h.listed.entry _ _ _ hin).1, hget⟩,
        isRecordOf_iff.2 ⟨rfl, ht⟩⟩
    · rintro ⟨stop, state, index, hin, hr⟩
      obtain ⟨rfl, ht⟩ := isRecordOf_iff.1 hr
      exact ⟨state, mem_of_getElem? (mem_positionEntries.1 hin).2, ht⟩
  have hfound := found_removeLocation inner text
  rw [SuffixAutomatonInner.remove]
  match inner.removeLocation text, hfound with
  | none, hnone =>
    refine ⟨h, .inl ⟨rfl, fun id hin => ?_, rfl⟩⟩
    obtain ⟨stop, state, index, hin, hr⟩ := (hrecord id).1 hin
    rw [hnone _ hin] at hr
    cases hr
  | some (id, state, index), ⟨⟨stop, hin, hr⟩, hleast⟩ =>
    have hget := (mem_positionEntries.1 hin).2
    have hlisted := h.listed.remove (T := inner.table) hget
    have herase := h.listed.records_remove (T := inner.table) hget (isRecordOf_iff.1 hr).2
    refine ⟨⟨⟨h.inv.reading, h.inv.final⟩, hlisted, h.covered⟩, .inr ⟨rfl, id, (hrecord id).2 ⟨stop, state, index, hin, hr⟩,
      fun id' hin' => ?_, herase⟩⟩
    obtain ⟨stop', state', index', hin', hr'⟩ := (hrecord id').1 hin'
    exact hleast _ hin' hr'

/-! ## Inserting -/

theorem Recorded.lt_length (h : Recorded inner texts) (hin : (id, t) ∈ inner.table.records) :
    id < inner.sourceTexts.length := by
  obtain ⟨s, hpos, -⟩ := h.listed.mem_records.1 hin
  exact h.listed.lt_length hpos

omit [LinearOrder U] in
theorem length_storeValue {last : Nat} : (storeValue nodes last value).length = nodes.length := by
  cases value with
  | none => rfl
  | some v => exact length_modify ..

theorem perm_indexSource (id : Nat) : (inner.indexSource id).sortedSourceIndices.Perm (id :: inner.sortedSourceIndices) :=
  perm_insertIdx _ _ ( takeWhile_prefix _).length_le

theorem Inv.table_insertTextIntoInner (h : Inv inner texts []) (hok : inner.insertTextIntoInner text value = some inner') :
    ∃ state index, state < inner'.nodes.length ∧
      inner.nodes.length ≤ inner'.nodes.length ∧ index.Perm (inner.sourceTexts.length :: inner.sortedSourceIndices) ∧
      inner'.table = inner.table.add state text index ∧ inner'.sourceTexts = inner.sourceTexts ++ [text] ∧
      inner'.stringCount = inner.stringCount + 1 ∧ inner'.needsCompaction = inner.needsCompaction := by
  obtain ⟨word, hroot⟩ := h.reading_root
  obtain ⟨inner₁, word₁, hrun, hframe, hlonger, h₁, -⟩ := extend_units_carries (i := { inner with
    lastState := 0, sourceTexts := inner.sourceTexts ++ [text], sourceValues := inner.sourceValues ++ [value] }) text hroot
  simp only [SuffixAutomatonInner.insertTextIntoInner, hrun, bind_eq_bind, bind_some] at hok
  have hlast := h₁.last_lt
  generalize inner₁.nodes = nodes₁ at hframe hlonger hlast
  generalize inner₁.lastState = last₁ at hframe hlast
  obtain rfl := hframe
  cases hok
  have hlength : (storeValue nodes₁ last₁ value).length = nodes₁.length := length_storeValue
  refine ⟨last₁, _, hlength.symm ▸ hlast, hlength.symm ▸ hlonger, ?_, rfl, rfl, rfl, rfl⟩
  exact perm_indexSource _

theorem Recorded.insertTextIntoInner (h : Recorded inner texts) (text : List U) (value : Option V) :
    ∃ inner', inner.insertTextIntoInner text value = some inner' ∧ Recorded inner' (texts ++ [text]) ∧
      inner'.table.records = insert (inner.sourceTexts.length, text) inner.table.records := by
  obtain ⟨inner', hok, hinv⟩ := h.inv.insertTextIntoInner text value
  obtain ⟨state, index, hstate, hlonger, hperm, htable, hsources, -⟩ := h.inv.table_insertTextIntoInner hok
  refine ⟨inner', hok, ⟨hinv, ?_, fun t ht => ?_⟩, ?_⟩
  · rw [htable]
    exact h.listed.add hlonger hstate hperm
  · rw [hsources, mem_append, mem_singleton] at ht
    rcases ht with ht | rfl
    · exact (h.covered t ht).imp_right fun ⟨g, hg, hinfix⟩ => ⟨g, mem_append_left _ hg, hinfix⟩
    · exact .inr ⟨t, mem_append_right _ (mem_singleton_self t), infix_rfl⟩
  · rw [htable]
    exact h.listed.records_add hlonger hstate hperm

/-! ## Updating -/

omit [LinearOrder U] in
theorem allFinal_iff : AllFinal nodes ↔ ∀ s n, nodes[s + 1]? = some n → n.isFinal = true := by
  constructor
  · intro h s n hn
    refine h _ (mem_of_getElem? (i := s) ?_)
    rw [getElem?_tail, getElem?_map, hn]
    rfl
  · intro h b hb
    obtain ⟨s, hs⟩ := mem_iff_getElem?.1 hb
    rw [getElem?_tail, getElem?_map, map_eq_some_iff] at hs
    obtain ⟨n, hn, rfl⟩ := hs
    exact h s n hn

theorem findState_congr
    (hmap : inner'.nodes.map (fun n => (n.edges, n.suffixLink, n.maxLength)) =
      inner.nodes.map fun n => (n.edges, n.suffixLink, n.maxLength))
    (w : List U) : inner'.findState w = inner.findState w := by
  have hauto : auto nodeOps inner'.nodes (fun _ => []) = auto nodeOps inner.nodes fun _ => [] :=
    readsCore_nodeOps.auto_eq hmap
  exact congrArg (Auto.reach · w) hauto

theorem Recorded.modify (h : Recorded inner texts) (state : Nat) {f : SuffixNode U V → SuffixNode U V}
    (hcore : ∀ n, ((f n).edges, (f n).suffixLink, (f n).maxLength) = (n.edges, n.suffixLink, n.maxLength))
    (hfinal : ∀ n, n.isFinal = true → (f n).isFinal = true) (values : List (Option V)) :
    Recorded { inner with nodes := inner.nodes.modify state f, sourceValues := values } texts := by
  obtain ⟨word, hword⟩ := h.inv.reading
  refine ⟨⟨⟨word, Reading.congr readsCore_nodeOps (map_modify_of_keep hcore _ _) hword⟩, allFinal_iff.2 fun s n hn => ?_⟩,
    ?_, h.covered⟩
  · have hn : (inner.nodes.modify state f)[s + 1]? = some n := hn
    rw [getElem?_modify] at hn
    obtain ⟨m, hm, rfl⟩ := map_eq_some_iff.1 hn
    have := allFinal_iff.1 h.inv.final s m hm
    split
    · exact hfinal m this
    · exact this
  · rw [length_modify]
    exact h.listed

theorem updateSourceRecordValue_eq (inner : SuffixAutomatonInner U V) (state : Nat) (term : List U) (value : V) :
    ∃ values, inner.updateSourceRecordValue state term value = { inner with sourceValues := values } := by
  unfold updateSourceRecordValue
  dsimp only
  split
  · exact ⟨_, rfl⟩
  · exact ⟨_, rfl⟩

theorem Recorded.add (h : Recorded inner texts) (hs : inner.findTermState term = some state) (values : List (Option V)) :
    Recorded { ({ inner with
        sourceTexts := inner.sourceTexts ++ [term], sourceValues := values,
        positions :=
          Function.update inner.positions state (inner.positions state ++ [(inner.sourceTexts.length, term.length)]) } :
      SuffixAutomatonInner U V).indexSource inner.sourceTexts.length with stringCount := inner.stringCount + 1 } texts ∧
    (inner.table.add state term (({ inner with sourceTexts := inner.sourceTexts ++ [term] } :
      SuffixAutomatonInner U V).indexSource inner.sourceTexts.length).sortedSourceIndices).records =
      insert (inner.sourceTexts.length, term) inner.table.records := by
  obtain ⟨word, hword⟩ := h.inv.reading
  have hheld := (findState_iff hword.rep).1 hs
  have hstate : state < inner.nodes.length := hheld.1
  refine ⟨⟨⟨⟨word, hword⟩, h.inv.final⟩, h.listed.add le_rfl hstate (perm_indexSource _), fun t ht => ?_⟩,
    h.listed.records_add le_rfl hstate (perm_indexSource _)⟩
  rcases mem_append.1 ht with ht | ht
  · exact h.covered t ht
  · rw [mem_singleton.1 ht]
    by_cases hnil : term = []
    · exact .inl hnil
    · exact .inr ((hword.reach_iff hnil).1 (isSome_iff_exists.2 ⟨state, hs⟩))

/-- An update at the state of a term that can be read: the node gets the value, and there is a record of the term then,
unless the node had a value. -/
structure Updated (inner inner' : SuffixAutomatonInner U V) (term : List U) (state : Nat) (value : V) : Prop where
  nodes : ∃ f : SuffixNode U V → SuffixNode U V, inner'.nodes = inner.nodes.modify state f ∧
    ∀ n, (f n).edges = n.edges ∧ (f n).suffixLink = n.suffixLink ∧ (f n).maxLength = n.maxLength ∧ (f n).value = some value
  records : inner'.table.records = inner.table.records ∧
      ((inner.valueFromInner term).isSome ∨ ∃ id, (id, term) ∈ inner.table.records) ∨
    inner'.table.records = insert (inner.sourceTexts.length, term) inner.table.records

theorem Recorded.updated (h : Recorded inner texts) (hs : inner.findTermState term = some state) (defaultValue : V)
    (updateFn : V → V) : ∃ result, inner.updateOrInsert term defaultValue updateFn = some result ∧
      Recorded result.2 texts ∧
        Updated inner result.2 term state ((inner.valueFromInner term).elim defaultValue updateFn) := by
  have hget : inner.valueFromInner term = inner.nodes[state]?.bind SuffixNode.value := by
    rw [valueFromInner, hs, bind_some]
  simp only [updateOrInsert, hs]
  cases hvalue : inner.nodes[state]?.bind SuffixNode.value with
  | some value =>
    obtain ⟨values, heq⟩ := updateSourceRecordValue_eq ({ inner with
      nodes := inner.nodes.modify state fun n => { n with value := some (updateFn value) } }) state term (updateFn value)
    simp only [heq]
    refine ⟨_, rfl, h.modify state (f := fun n => { n with value := some (updateFn value) }) (fun _ => rfl) (fun _ => id)
      values, ⟨_, rfl, fun n => ⟨rfl, rfl, rfl, ?_⟩⟩, .inl ⟨rfl, .inl ?_⟩⟩
    · rw [hget, hvalue, elim_some]
    · rw [hget, hvalue]
      rfl
  | none =>
    obtain ⟨values, heq⟩ := updateSourceRecordValue_eq ({ inner with
      nodes := inner.nodes.modify state fun n => { n with value := some defaultValue } }) state term defaultValue
    simp only [heq, modify_modify_eq]
    have h₁ := h.modify state (f := (fun n => { n with isFinal := true }) ∘ fun n => { n with value := some defaultValue })
      (fun _ => rfl) (fun _ _ => rfl) values
    have hdefault : (inner.valueFromInner term).elim defaultValue updateFn = defaultValue := by
      rw [hget, hvalue, elim_none]
    rw [hdefault]
    split
    · rename_i hany
      refine ⟨_, rfl, h₁, ⟨_, rfl, fun n => ⟨rfl, rfl, rfl, rfl⟩⟩, .inl ⟨rfl, .inr ?_⟩⟩
      obtain ⟨⟨id, stop⟩, hin, hr⟩ := any_eq_true.1 hany
      obtain ⟨rfl, ht⟩ := isRecordOf_iff.1 hr
      exact ⟨id, h.listed.mem_records.2 ⟨state, hin, ht⟩⟩
    · have hs₁ : findTermState ({ inner with
          nodes := inner.nodes.modify state
            ((fun n => { n with isFinal := true }) ∘ fun n => { n with value := some defaultValue })
          sourceValues := values }) term = some state := by
        refine (findState_congr ?_ term).trans hs
        apply map_modify_of_keep
        exact fun _ => rfl
      obtain ⟨hrec, hrecords⟩ := h₁.add hs₁ (values ++ [some defaultValue])
      exact ⟨_, rfl, hrec, ⟨_, rfl, fun n => ⟨rfl, rfl, rfl, rfl⟩⟩, .inr hrecords⟩

theorem updateOrInsert_of_none (hs : inner.findTermState term = none) (defaultValue : V) (updateFn : V → V) :
    inner.updateOrInsert term defaultValue updateFn = (inner.insertTextIntoInner term (some defaultValue)).map
      (true, ·) := by
  rw [updateOrInsert, hs]

theorem Recorded.updateOrInsert (h : Recorded inner texts) (term : List U) (defaultValue : V) (updateFn : V → V) :
    ∃ result texts', inner.updateOrInsert term defaultValue updateFn = some result ∧ Recorded result.2 texts' ∧
      (result.2.table.records = inner.table.records ∨
        result.2.table.records = insert (inner.sourceTexts.length, term) inner.table.records) := by
  cases hs : inner.findTermState term with
  | none =>
    obtain ⟨inner', hok, hrec, hrecords⟩ := h.insertTextIntoInner term (some defaultValue)
    exact ⟨(true, inner'), _, by rw [updateOrInsert_of_none hs, hok, map_some], hrec, .inr hrecords⟩
  | some state =>
    obtain ⟨result, hok, hrec, hup⟩ := h.updated hs defaultValue updateFn
    exact ⟨result, texts, hok, hrec, hup.records.imp_left And.left⟩

theorem Recorded.clear (h : Recorded inner texts) : ∃ texts', Recorded inner.clear texts' ∧
    inner.clear.table.records = ∅ := by
  unfold SuffixAutomatonInner.clear
  split
  · rename_i hempty
    exact ⟨texts, h, Finset.card_eq_zero.1 (h.listed.card_records.trans hempty.1)⟩
  · exact ⟨[], .new, rfl⟩

/-! ## Occurrences -/

def EndsAt (w t : List U) (stop : Nat) : Prop := ∃ a b, a ++ w ++ b = t ∧ stop = a.length + w.length

theorem mem_endsIn (hlength : w.length ≤ t.length) : stop ∈ endsIn w t ↔ EndsAt w t stop := by
  rw [endsIn, List.mem_map]
  constructor
  · rintro ⟨start, hin, rfl⟩
    obtain ⟨hstart, hprefix⟩ := mem_filter.1 hin
    obtain ⟨b, hb⟩ := isPrefixOf_iff_prefix.1 hprefix
    have hle : start ≤ t.length := by
      have := mem_range.1 hstart
      omega
    refine ⟨t.take start, b, ?_, ?_⟩
    · rw [append_assoc, hb, take_append_drop]
    · rw [length_take_of_le hle]
  · rintro ⟨a, b, rfl, rfl⟩
    refine ⟨a.length, mem_filter.2 ⟨mem_range.2 ?_, isPrefixOf_iff_prefix.2 ?_⟩, rfl⟩
    · simp only [length_append]
      omega
    · rw [append_assoc, drop_left]
      exact prefix_append w b

theorem sorted_endsIn (w t : List U) : (endsIn w t).Pairwise (· < ·) :=
  pairwise_map.2 ((pairwise_lt_range.filter _).imp fun h => Nat.add_lt_add_right h _)

omit [LinearOrder U] in
theorem dedup_eq {α : Type} [DecidableEq α] : ∀ {l : List α}, l.Pairwise (· ≠ ·) → dedup l = l
  | [], _ => rfl
  | [_], _ => rfl
  | a :: b :: l, h => by
    have hne : a ≠ b := (pairwise_cons.1 h).1 b mem_cons_self
    rw [dedup, if_neg hne, dedup_eq (pairwise_cons.1 h).2]

def Before (a b : Nat × Nat) : Prop := a.1 < b.1 ∨ a.1 = b.1 ∧ a.2 < b.2

theorem mem_occurrences {active : Nat → Bool} {sources : List (List U)} :
    (id, stop) ∈ occurrences active w sources ↔ active id = true ∧ ∃ t, sources[id]? = some t ∧ EndsAt w t stop := by
  rw [occurrences, mem_flatMap]
  constructor
  · rintro ⟨⟨source, sourceId⟩, hin, hstop⟩
    have hget := mem_zipIdx_iff_getElem?.1 hin
    dsimp only at hstop hget
    split at hstop
    · cases hstop
    · rename_i hcond
      rw [Bool.or_eq_true, not_or, Bool.not_eq_true', Bool.not_eq_false, decide_eq_true_iff, not_lt] at hcond
      obtain ⟨e, he, heq⟩ := mem_map.1 hstop
      obtain ⟨rfl, rfl⟩ := Prod.mk.inj heq
      exact ⟨hcond.1, source, hget, (mem_endsIn hcond.2).1 he⟩
  · rintro ⟨hactive, t, ht, hends⟩
    have hlength : w.length ≤ t.length := by
      obtain ⟨a, b, rfl, -⟩ := hends
      simp only [length_append]
      omega
    refine ⟨(t, id), mem_zipIdx_iff_getElem?.2 ht, ?_⟩
    dsimp only
    rw [if_neg (by simp [hactive, hlength])]
    exact mem_map.2 ⟨stop, (mem_endsIn hlength).2 hends, rfl⟩

theorem sorted_occurrences (active : Nat → Bool) (w : List U) (sources : List (List U)) :
    (occurrences active w sources).Pairwise Before := by
  have hplaces : sources.zipIdx.Pairwise fun a b => a.2 < b.2 := by
    refine pairwise_map.1 (?_ : (sources.zipIdx.map Prod.snd).Pairwise (· < ·))
    rw [zipIdx_map_snd]
    exact pairwise_lt_range' 1
  have hblock : ∀ a : List U × Nat, ∀ x ∈ (if !active a.2 || decide (a.1.length < w.length) then []
      else (endsIn w a.1).map fun stop => (a.2, stop)), x.1 = a.2 := by
    intro a x hx
    split at hx
    · cases hx
    · obtain ⟨e, -, rfl⟩ := mem_map.1 hx
      rfl
  refine pairwise_flatMap.2 ⟨fun a _ => ?_, hplaces.imp fun hlt x hx y hy => .inl ?_⟩
  · dsimp only
    split
    · exact .nil
    · exact pairwise_map.2 ((sorted_endsIn w a.1).imp fun h => .inr ⟨rfl, h⟩)
  · rw [hblock _ x hx, hblock _ y hy]
    exact hlt

theorem Recorded.isActive_iff (h : Recorded inner texts) :
    inner.isActive id = true ↔ ∃ s stop, (id, stop) ∈ inner.positions s := by
  rw [isActive, List.any_eq_true]
  constructor
  · rintro ⟨s, -, hs⟩
    obtain ⟨⟨id', stop⟩, hin, heq⟩ := any_eq_true.1 hs
    exact ⟨s, stop, of_decide_eq_true heq ▸ hin⟩
  · rintro ⟨s, stop, hin⟩
    exact ⟨s, mem_range.2 (h.listed.entry s id stop hin).1, any_eq_true.2 ⟨_, hin, decide_eq_true rfl⟩⟩

/-- **The matches of a word are its occurrences in the active texts**, in order and each once. -/
theorem Recorded.matchPositions (h : Recorded inner texts) (hw : w ≠ []) : (inner.matchPositions w).Pairwise Before ∧
      ∀ id stop, (id, stop) ∈ inner.matchPositions w ↔ ∃ t, (id, t) ∈ inner.table.records ∧ EndsAt w t stop := by
  -- a source with a position is active with its text
  have hactive : ∀ id t, inner.sourceTexts[id]? = some t → (inner.isActive id = true ↔ (id, t) ∈ inner.table.records) := by
    intro id t ht
    rw [h.isActive_iff, h.listed.mem_records]
    constructor
    · rintro ⟨s, stop, hin⟩
      obtain ⟨-, t', ht', rfl⟩ := h.listed.entry s id stop hin
      obtain rfl : t = t' := some.inj (ht.symm.trans ht')
      exact ⟨s, hin, ht⟩
    · rintro ⟨s, hin, -⟩
      exact ⟨s, _, hin⟩
  obtain ⟨word, hword⟩ := h.inv.reading
  rw [SuffixAutomatonInner.matchPositions, if_neg hw]
  cases hs : inner.findState w with
  | none =>
    refine ⟨.nil, fun id stop => ⟨nofun, ?_⟩⟩
    -- a word that occurs in a source can be read
    rintro ⟨t, hin, a, b, rfl, -⟩
    obtain ⟨s, -, ht⟩ := h.listed.mem_records.1 hin
    have hinfix : w <:+: a ++ w ++ b := ⟨a, b, rfl⟩
    have hread : (inner.findState w).isSome := by
      rcases h.covered _ (mem_of_getElem? ht) with hnil | ⟨g, hg, hin⟩
      · exact absurd (infix_nil.1 (hnil ▸ hinfix)) hw
      · exact (hword.reach_iff hw).2 ⟨g, hg, hinfix.trans hin⟩
    rw [hs] at hread
    cases hread
  | some s =>
    have hsorted := sorted_occurrences inner.isActive w inner.sourceTexts
    have heq : dedup ((occurrences inner.isActive w inner.sourceTexts).mergeSort
        fun a b => decide (a.1 < b.1 ∨ a.1 = b.1 ∧ a.2 ≤ b.2)) = occurrences inner.isActive w inner.sourceTexts := by
      rw [mergeSort_of_pairwise, dedup_eq]
      · refine hsorted.imp fun hab heq => ?_
        subst heq
        exact hab.elim (lt_irrefl _) fun hab => lt_irrefl _ hab.2
      · exact hsorted.imp fun hab => decide_eq_true (hab.imp_right fun hab => ⟨hab.1, hab.2.le⟩)
    rw [heq]
    refine ⟨hsorted, fun id stop => mem_occurrences.trans ?_⟩
    constructor
    · rintro ⟨ha, t, ht, hends⟩
      exact ⟨t, (hactive id t ht).1 ha, hends⟩
    · rintro ⟨t, hin, hends⟩
      obtain ⟨s, -, ht⟩ := h.listed.mem_records.1 hin
      exact ⟨(hactive id t ht).2 hin, t, ht, hends⟩

end Dictenstein.Suffix
