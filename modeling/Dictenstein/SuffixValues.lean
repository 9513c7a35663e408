import Dictenstein.EdgeStore
import Dictenstein.SuffixAutomaton
/-!
# SuffixValues — the values of the texts in a suffix automaton

`insert_text_into_inner` stores the value of a text in the state that was appended for its last unit, and `value_from_inner`
reads the state to which the text leads from the root.  The two are the same if the text is new (`Inserted.own`).  If it is
part of an earlier text, the appended state is not reachable and the value is lost. -/
namespace Dictenstein.Suffix

open SuffixClasses List Option SuffixAutomatonInner SuffixNode

variable {U V : Type} [LinearOrder U]

theorem keeps_value : Keeps (nodeOps : NodeOps U (SuffixNode U V)) value :=
  ⟨fun _ _ _ => rfl, fun _ _ _ => rfl, fun _ _ => rfl⟩

section
variable {inner inner' : SuffixAutomatonInner U V} {word word' : Nat → List U} {w : List U} {s : Nat}

theorem findState_iff (h : Rep nodeOps SuffixNode.Ok inner.nodes word) :
    inner.findState w = some s ↔ (auto nodeOps inner.nodes word).Holds s w := h.good.reach_iff

theorem value_appended {nodes nodes' : List (SuffixNode U V)} {last : Nat} {c : U}
    (h : SuffixClasses.extend nodeOps newNode clonedNode last c nodes = some nodes')
    {n : SuffixNode U V} (hn : nodes'[nodes.length]? = some n) : n.value = none := by
  obtain ⟨lastNode, -, hmap⟩ := extend_map keeps_value h
  have hvalue : (nodes'.map value)[nodes.length]? = some none := by
    rcases hmap with hmap | ⟨p, pNode, qNode, hmap⟩ <;>
      · rw [hmap, getElem?_append_right (by simp), length_map, Nat.sub_self]
        rfl
  rw [getElem?_map, hn] at hvalue
  exact some.inj hvalue

theorem extend_units_carries {i : SuffixAutomatonInner U V} {texts : List (List U)} {x : List U} (units : List U)
    (h : Reading nodeOps SuffixNode.Ok i.nodes word texts x i.lastState) :
    ∃ inner' word', units.foldlM extend i = some inner' ∧
      inner' = { i with nodes := inner'.nodes, lastState := inner'.lastState } ∧ i.nodes.length ≤ inner'.nodes.length ∧
      Reading nodeOps SuffixNode.Ok inner'.nodes word' texts (x ++ units) inner'.lastState ∧
      Carries nodeOps value none i.nodes inner'.nodes word word' := by
  induction units generalizing i word x with
  | nil => exact ⟨i, word, rfl, rfl, le_rfl, by rwa [append_nil], .refl h.rep⟩
  | cons unit units ih =>
    obtain ⟨nodes₁, word₁, origin, hok, hext, ho, -⟩ := extend_traces lawful_nodeOps makes_nodeOps keeps_value
      (fun _ _ _ => rfl) keeps_value h.rep h.last_lt (h.word_last ▸ h.short) h.fresh unit
    obtain ⟨inner', word', hrun, hframe, hlonger, hread, hcarries⟩ := ih (i := { i with
      nodes := nodes₁, lastState := i.nodes.length }) (h.extended hext)
    refine ⟨inner', word', ?_, hframe, hext.longer.le.trans hlonger, ?_,
      (ho.carries h.rep hext.rep fun _ => value_appended hok).trans
      hcarries⟩
    · rw [foldlM_cons, SuffixAutomatonInner.extend, hok]
      exact hrun
    · rwa [append_assoc, singleton_append] at hread

end

/-! ## One insertion -/

/-- What an insertion does to the values, and to the states that words lead to. -/
structure Inserted (inner inner' : SuffixAutomatonInner U V) (text : List U) (value : Option V) : Prop where
  keep : ∀ w, (inner.findState w).isSome → w ≠ [] ∨ text ≠ [] → inner'.valueFromInner w = inner.valueFromInner w
  own : text ≠ [] → inner.findState text = none → inner'.valueFromInner text = value
  own_nil : text = [] → inner'.valueFromInner [] = value.or (inner.valueFromInner [])
  apart : ∀ u v, (inner.findState u).isSome → inner'.findState u = inner'.findState v → inner.findState u = inner.findState v
  fresh : ∀ u, inner.findState text = none → inner.findState u = none → inner'.findState u ≠ inner'.findState text →
    inner'.valueFromInner u = none

def storeValue (nodes : List (SuffixNode U V)) (last : Nat) (value : Option V) : List (SuffixNode U V) :=
  match value with
  | some value => nodes.modify last fun n => { n with value := some value }
  | none => nodes

section
variable {nodes : List (SuffixNode U V)} {last s : Nat} {value : Option V} {word : Nat → List U}

omit [LinearOrder U] in
theorem core_storeValue : (storeValue nodes last value).map (fun n => (n.edges, n.suffixLink, n.maxLength)) =
    nodes.map fun n => (n.edges, n.suffixLink, n.maxLength) := by
  cases value with
  | none => rfl
  | some v =>
    apply map_modify_of_keep
    intro n
    rfl

theorem auto_storeValue : auto nodeOps (storeValue nodes last value) word = auto nodeOps nodes word :=
  readsCore_nodeOps.auto_eq core_storeValue

section
omit [LinearOrder U]

theorem storeValue_of_ne (hs : s ≠ last) : (storeValue nodes last value)[s]? = nodes[s]? := by
  cases value with
  | none => rfl
  | some v => exact getElem?_modify_ne _ _ hs.symm

theorem value_storeValue_self (value : Option V) {n : SuffixNode U V} (hn : nodes[last]? = some n) :
    ∃ n', (storeValue nodes last value)[last]? = some n' ∧ n'.value = value.or n.value := by
  cases value with
  | none => exact ⟨n, hn, rfl⟩
  | some v =>
    refine ⟨{ n with value := some v }, ?_, rfl⟩
    show (nodes.modify last _)[last]? = _
    rw [getElem?_modify_eq, hn]
    rfl

end

end

section
variable {inner inner' : SuffixAutomatonInner U V} {texts : List (List U)}

theorem inserted_nil {word : Nat → List U} (h : Rep nodeOps SuffixNode.Ok inner.nodes word) (value : Option V)
    (hnodes : inner'.nodes = storeValue inner.nodes 0 value) : Inserted inner inner' [] value := by
  have hauto : auto nodeOps inner'.nodes word = auto nodeOps inner.nodes word := by rw [hnodes, auto_storeValue]
  have hstate : ∀ w, inner'.findState w = inner.findState w := fun w => congrArg (Auto.reach · w) hauto
  refine ⟨fun w hw hne => ?_, fun hne => absurd rfl hne, fun _ => ?_, fun u v _ heq => ?_, fun u hnone => ?_⟩
  · obtain ⟨s, hs⟩ := isSome_iff_exists.1 hw
    have hroot : s ≠ 0 := by
      rintro rfl
      have hheld := (findState_iff h).1 hs
      have hword : (auto nodeOps inner.nodes word).word 0 = [] := h.good.root_word
      exact hne.elim (fun hwne => hwne (suffix_nil.1 (hword ▸ hheld.2.1))) fun hnil => hnil rfl
    simp only [valueFromInner, findTermState, hstate, hs, bind_some]
    rw [hnodes, storeValue_of_ne hroot]
  · have hlt : 0 < inner.nodes.length := h.good.root_mem
    obtain ⟨n, hn⟩ := exists_node hlt
    obtain ⟨n', hn', hvalue⟩ := value_storeValue_self value hn
    show inner'.nodes[0]?.bind _ = value.or (inner.nodes[0]?.bind _)
    rw [hnodes, hn', hn]
    exact hvalue
  · rwa [hstate, hstate] at heq
  · cases hnone

/-- **A text that is not empty**: all units but the last carry the words along, the last one appends the state that gets the
value. -/
theorem inserted_concat {x : List U} {c : U} {word word₁ word₂ : Nat → List U} {nodes₁ nodes₂ : List (SuffixNode U V)}
    {last : Nat} {origin : Nat → Nat} (value : Option V) (h : Reading nodeOps SuffixNode.Ok inner.nodes word texts [] 0)
    (hcarries : Carries nodeOps SuffixNode.value none inner.nodes nodes₁ word word₁)
    (h₁ : Reading nodeOps SuffixNode.Ok nodes₁ word₁ texts x last)
    (hext : Extended nodeOps SuffixNode.Ok nodes₁ nodes₂ word₁ word₂ last c)
    (ho : Origin nodeOps SuffixNode.value nodes₁ nodes₂ word₁ word₂ origin)
    (hvalue : ∀ n, nodes₂[nodes₁.length]? = some n → n.value = none)
    (hnodes : inner'.nodes = storeValue nodes₂ nodes₁.length value) : Inserted inner inner' (x ++ [c]) value := by
  have hauto : auto nodeOps inner'.nodes word₂ = auto nodeOps nodes₂ word₂ := by rw [hnodes, auto_storeValue]
  have hstate : ∀ w s, inner'.findState w = some s ↔ (auto nodeOps nodes₂ word₂).Holds s w := by
    intro w s
    rw [← hauto]
    exact (hauto.symm ▸ hext.rep.good : Good (auto nodeOps inner'.nodes word₂)).reach_iff
  have hcarries₂ := hcarries.trans (ho.carries h₁.rep hext.rep hvalue)
  -- a word that was read before does not lead to the appended state
  have hold : ∀ w s, inner.findState w = some s → ∃ t n n', inner'.findState w = some t ∧ t ≠ nodes₁.length ∧
      inner.nodes[s]? = some n ∧ nodes₂[t]? = some n' ∧ n'.value = n.value := by
    intro w s hs
    have hheld := (findState_iff h.rep).1 hs
    obtain ⟨n, hn⟩ := exists_node (show s < inner.nodes.length from hheld.1)
    obtain ⟨m, -, hm, -⟩ := hcarries.held s w n hheld hn
    obtain ⟨t, n', ht, hn', heq⟩ := hcarries₂.held s w n hheld hn
    exact ⟨t, n, n', (hstate w t).2 ht, ho.ne_cur hext.rep hm ht, hn, hn', heq⟩
  -- and a new text leads to it
  have hnew : inner.findState (x ++ [c]) = none → inner'.findState (x ++ [c]) = some nodes₁.length := by
    intro hnone
    have hcur := hext.holds_cur ho h₁.rep
    rw [h₁.word_last] at hcur
    refine (hstate _ _).2 (hcur fun s hs => ?_)
    have hne : x ++ [c] ≠ [] := append_ne_nil_of_right_ne_nil x (cons_ne_nil c [])
    rcases h₁.covered s hs.1 with hnil | ⟨t, ht, hinfix⟩ | hinfix
    · exact hne (suffix_nil.1 (hnil ▸ hs.2.1))
    · have hread := (h.reach_iff hne).2 ⟨t, ht, hs.2.1.isInfix.trans hinfix⟩
      rw [show (auto nodeOps inner.nodes word).reach (x ++ [c]) = none from hnone] at hread
      cases hread
    · have := (hs.2.1.isInfix.trans hinfix).length_le
      rw [length_append, length_singleton] at this
      omega
  refine ⟨fun w hw _ => ?_, fun _ hnone => ?_, fun hnil => ?_, fun u v hu heq => ?_, fun u hnone hu hne => ?_⟩
  · obtain ⟨s, hs⟩ := isSome_iff_exists.1 hw
    obtain ⟨t, n, n', ht, hne, hn, hn', heq⟩ := hold w s hs
    simp only [valueFromInner, findTermState, hs, ht, bind_some]
    rw [hnodes, storeValue_of_ne hne, hn, hn']
    exact heq
  · obtain ⟨n, hn⟩ := exists_node (show nodes₁.length < nodes₂.length from hext.longer)
    obtain ⟨n', hn', heq⟩ := value_storeValue_self value hn
    simp only [valueFromInner, findTermState, hnew hnone, bind_some]
    rw [hnodes, hn', bind_some, heq, hvalue n hn, or_none]
  · exact absurd hnil (append_ne_nil_of_right_ne_nil x (cons_ne_nil c []))
  · obtain ⟨s, hs⟩ := isSome_iff_exists.1 hu
    obtain ⟨t, -, -, ht, -⟩ := hold u s hs
    have ht' : inner'.findState v = some t := heq ▸ ht
    rw [hs, (findState_iff h.rep).2 (hcarries₂.together t u v ((hstate u t).1 ht) ((hstate v t).1 ht') s
      ((findState_iff h.rep).1 hs))]
  · cases ht : inner'.findState u with
    | none => rw [valueFromInner, findTermState, ht, bind_none]
    | some t =>
      -- the state of a new word has no value, unless it is the one where the value was stored
      have hnothing : ∀ s, ¬(auto nodeOps inner.nodes word).Holds s u := fun s hs => by
        rw [(findState_iff h.rep).2 hs] at hu
        cases hu
      obtain ⟨t', n', ht', hn', heq⟩ := hcarries₂.fresh t u ((hstate u t).1 ht) hnothing
      obtain rfl : t = t' := hext.rep.good.holds_unique ((hstate u t).1 ht) ht'
      have hcur : t ≠ nodes₁.length := by
        rintro rfl
        exact hne (ht.trans (hnew hnone).symm)
      simp only [valueFromInner, findTermState, ht, bind_some]
      rw [hnodes, storeValue_of_ne hcur, hn', bind_some, heq]

theorem Inv.insertTextIntoInner_values (h : Inv inner texts []) (text : List U) (value : Option V) :
    ∃ inner', inner.insertTextIntoInner text value = some inner' ∧ Inv inner' (texts ++ [text]) [] ∧
      Inserted inner inner' text value := by
  obtain ⟨inner', hok, hinv⟩ := h.insertTextIntoInner text value
  refine ⟨inner', hok, hinv, ?_⟩
  obtain ⟨word, hroot⟩ := h.reading_root
  -- the text is read from the root on
  let start : SuffixAutomatonInner U V := { inner with
    lastState := 0, sourceTexts := inner.sourceTexts ++ [text], sourceValues := inner.sourceValues ++ [value] }
  cases text using List.reverseRecOn with
  | nil =>
    cases hok
    exact inserted_nil hroot.rep value rfl
  | append_singleton x c =>
    obtain ⟨inner₁, word₁, hrun, -, -, h₁, hcarries⟩ := extend_units_carries (i := start) x hroot
    obtain ⟨nodes₂, word₂, origin, hext₂, hext, ho, -⟩ := extend_traces lawful_nodeOps makes_nodeOps keeps_value
      (fun _ _ _ => rfl) keeps_value h₁.rep h₁.last_lt (h₁.word_last ▸ h₁.short) h₁.fresh c
    have hfold : (x ++ [c]).foldlM SuffixAutomatonInner.extend start =
        some { inner₁ with nodes := nodes₂, lastState := inner₁.nodes.length } := by
      rw [foldlM_append, hrun]
      show [c].foldlM SuffixAutomatonInner.extend inner₁ = _
      rw [foldlM_cons, SuffixAutomatonInner.extend, hext₂]
      rfl
    simp only [SuffixAutomatonInner.insertTextIntoInner, bind_eq_bind] at hok
    rw [show ({ inner with
        lastState := 0, sourceTexts := inner.sourceTexts ++ [x ++ [c]],
        sourceValues := inner.sourceValues ++ [value] } : SuffixAutomatonInner U V) = start from rfl, hfold] at hok
    cases hok
    exact inserted_concat value hroot hcarries h₁ hext ho (fun _ => value_appended hext₂) rfl

theorem Inv.foldlM_values (records : List (List U × Option V)) (h : Inv inner texts []) {w : List U} (hw : w ≠ [])
    (hread : (inner.findState w).isSome) :
    ∃ inner', records.foldlM (fun inner record => inner.insertTextIntoInner record.1 record.2) inner = some inner' ∧
      inner'.valueFromInner w = inner.valueFromInner w := by
  obtain ⟨inner', hrun, -, -, hvalue⟩ :=
    Runs.foldlM_of_steps (I := fun _ inner' => (∃ texts, Inv inner' texts []) ∧ (inner'.findState w).isSome ∧
    inner'.valueFromInner w = inner.valueFromInner w) (fun _ record inner₁ ⟨⟨texts, h⟩, hread, hvalue⟩ => by
      obtain ⟨inner₂, hok, hinv, hins⟩ := h.insertTextIntoInner_values record.1 record.2
      obtain ⟨word, hword⟩ := h.reading
      obtain ⟨word₂, hword₂⟩ := hinv.reading
      obtain ⟨t, ht, hinfix⟩ := (hword.reach_iff hw).1 hread
      exact ⟨inner₂, hok, ⟨_, hinv⟩, (hword₂.reach_iff hw).2 ⟨t, mem_append_left _ ht, hinfix⟩,
        (hins.keep w hread (.inl hw)).trans hvalue⟩)
    ⟨⟨texts, h⟩, hread, rfl⟩ records
  exact ⟨inner', hrun, hvalue⟩

end

/-! ## The value of a text -/

/-- The value `v` is the last one that was given for the text, after the insertions `before`. -/
def LastGiven (records before : List (List U × Option V)) (text : List U) (v : V) : Prop :=
  ∃ after, records = before ++ (text, some v) :: after ∧ ∀ record ∈ after, record.1 = text → record.2 = none

/-- **The value that was last given for a text is read, if the text was new when it was given.** -/
theorem value_of_lastGiven {records before : List (List U × Option V)} {text : List U} {v : V}
    (hrecords : ∀ record ∈ records, record.1 ≠ []) (hgiven : LastGiven records before text v)
    (hnew : ∀ record ∈ before, ¬text <:+: record.1) :
    ∃ inner, insertTexts records = some inner ∧ inner.valueFromInner text = some v := by
  obtain ⟨after, rfl, -⟩ := hgiven
  have hne : text ≠ [] := hrecords (text, some v) (mem_append_right _ mem_cons_self)
  obtain ⟨inner₀, hrun₀, h₀⟩ := Inv.new.foldlM_records before
  obtain ⟨inner₁, hok, h₁, hins⟩ := h₀.insertTextIntoInner_values text (some v)
  have hunread : inner₀.findState text = none := by
    obtain ⟨word, hword⟩ := h₀.reading
    refine not_isSome_iff_eq_none.1 fun hread => ?_
    obtain ⟨t, ht, hinfix⟩ := (hword.reach_iff hne).1 hread
    rw [nil_append] at ht
    obtain ⟨record, hrecord, rfl⟩ := mem_map.1 ht
    exact hnew record hrecord hinfix
  have hread : (inner₁.findState text).isSome := by
    obtain ⟨word, hword⟩ := h₁.reading
    exact (hword.reach_iff hne).2 ⟨text, mem_append_right _ (mem_singleton_self text), infix_rfl⟩
  obtain ⟨inner, hrun, hvalue⟩ := h₁.foldlM_values after hne hread
  refine ⟨inner, ?_, hvalue.trans (hins.own hne hunread)⟩
  rw [insertTexts, foldlM_append, hrun₀, bind_eq_bind, bind_some, foldlM_cons, hok]
  exact hrun

section
open scoped AdaptiveLabel

theorem value_of_lastGiven_example :
    ∃ inner, insertTexts [([97, 98], some 1), ([(98 : UInt8), 99], some 2), ([99], none)] = some inner ∧
      inner.valueFromInner [98, 99] = some 2 := by
  have hgiven : LastGiven [([97, 98], some 1), ([(98 : UInt8), 99], some 2), ([99], none)] [([97, 98], some 1)] [98, 99] 2 :=
    ⟨[([99], none)], rfl, by decide⟩
  exact value_of_lastGiven (by decide) hgiven (by decide)

/-- **A text that is part of an earlier one, or was inserted before, does not get its value.** -/
theorem value_lost : (insertTexts [([97, 98], some 1), ([(97 : UInt8)], some 2)]).map (·.valueFromInner [97]) = some none ∧
    (insertTexts [([97], some 1), ([(97 : UInt8)], some 2)]).map (·.valueFromInner [97]) = some (some 1) := by
  decide +kernel

end
end Dictenstein.Suffix
