import Dictenstein.SuffixCompact
/-!
# SuffixUnion — merging one suffix automaton into another

`union_with` goes through all source texts of the other automaton, active or not, reads their values from the graph and puts
the merged values by `update_or_insert`. -/
namespace Dictenstein.Suffix

open SuffixClasses List SuffixAutomatonInner Runs SuffixNode

variable {U V : Type} [LinearOrder U]

namespace SuffixAutomatonInner

variable (inner : SuffixAutomatonInner U V)

def activeTexts : List (List U) :=
  inner.sortedSourceIndices.map fun sourceId => inner.sourceTexts.getD sourceId []

variable (other : SuffixAutomatonInner U V)

/-- One round of the loop of `union_with`, with the number of texts processed. -/
def unionStep (mergeFn : V → V → V) (r : Nat × SuffixAutomatonInner U V) (term : List U) :
    Option (Nat × SuffixAutomatonInner U V) :=
  if term = [] then some r
  else match other.valueFromInner term with
    | none => some r
    | some otherValue =>
      let newValue := match r.2.valueFromInner term with
        | some selfValue => mergeFn selfValue otherValue
        | none => otherValue
      (r.2.updateOrInsert term newValue fun _ => newValue).map fun u => (r.1 + 1, u.2)

def unionWith (mergeFn : V → V → V) : Option (Nat × SuffixAutomatonInner U V) :=
  other.sourceTexts.foldlM (unionStep other mergeFn) (0, inner)

def mergedTexts : List (List U) :=
  other.sourceTexts.filter fun t => decide (t ≠ []) && (other.valueFromInner t).isSome

def grow (text : List U) : Option (SuffixAutomatonInner U V) :=
  if (inner.findState text).isSome then some inner else inner.insertTextIntoInner text none

end SuffixAutomatonInner

/-! ## Graphs without values -/

section
variable {c c' g : SuffixAutomatonInner U V} {texts : List (List U)} {t : List U}

def SuffixNode.bare (n : SuffixNode U V) : SuffixNode U V := { n with value := none, isFinal := true }

def SameGraph (c g : SuffixAutomatonInner U V) : Prop := c.nodes.map bare = g.nodes.map bare

theorem hom_bare : (nodeOps : NodeOps U (SuffixNode U V)).Hom nodeOps bare :=
  ⟨fun _ => rfl, fun _ => rfl, fun _ => rfl, fun _ _ _ => rfl, fun _ _ _ => rfl, fun _ _ => rfl⟩

theorem SameGraph.findState (h : SameGraph c g) (w : List U) : c.findState w = g.findState w := by
  refine findState_congr ?_ w
  have := congrArg (map fun n : SuffixNode U V => (n.edges, n.suffixLink, n.maxLength)) h
  rwa [map_map, map_map] at this

theorem SameGraph.extend (h : SameGraph c g) (hlast : c.lastState = g.lastState) {unit : U} (hok : c.extend unit = some c') :
    ∃ g', g.extend unit = some g' ∧ SameGraph c' g' ∧ c'.lastState = g'.lastState := by
  have hnew : ∀ n : SuffixNode U V, newNode n.bare = (newNode n).bare := fun _ => rfl
  have hclone : ∀ p (m n : SuffixNode U V), clonedNode p m.bare n.bare = (clonedNode p m n).bare := fun _ _ _ => rfl
  have hhom : ∀ nodes : List (SuffixNode U V), SuffixClasses.extend nodeOps newNode
      clonedNode g.lastState unit (nodes.map bare) =
      (SuffixClasses.extend nodeOps newNode clonedNode g.lastState unit nodes).map
        (map bare) := extend_hom hom_bare hnew hclone g.lastState unit
  obtain ⟨nodes, hnodes, hc⟩ := Option.bind_eq_some_iff.1 hok
  cases hc
  have himage := hhom c.nodes
  rw [show c.nodes.map bare = g.nodes.map bare from h, hhom, ← hlast, hnodes, hlast] at himage
  obtain ⟨nodes', hnodes', heq⟩ := Option.map_eq_some_iff.1 himage
  have hlength : c.nodes.length = g.nodes.length := by simpa using congrArg length h
  refine ⟨{ g with nodes := nodes', lastState := g.nodes.length }, ?_, heq.symm, hlength⟩
  rw [SuffixAutomatonInner.extend, hnodes']
  rfl

theorem SameGraph.extend_units (units : List U) (h : SameGraph c g)
    (hlast : c.lastState = g.lastState) (hok : units.foldlM SuffixAutomatonInner.extend c = some c') :
    ∃ g', units.foldlM SuffixAutomatonInner.extend g = some g' ∧ SameGraph c' g' ∧ c'.lastState = g'.lastState := by
  induction units generalizing c g with
  | nil => exact ⟨g, rfl, Option.some.inj hok ▸ h, Option.some.inj hok ▸ hlast⟩
  | cons unit units ih =>
    rw [foldlM_cons] at hok
    obtain ⟨c₁, hc₁, hok⟩ := Option.bind_eq_some_iff.1 hok
    obtain ⟨g₁, hg₁, h₁, hlast₁⟩ := h.extend hlast hc₁
    obtain ⟨g', hg', h', hlast'⟩ := ih h₁ hlast₁ hok
    refine ⟨g', ?_, h', hlast'⟩
    rw [foldlM_cons, hg₁]
    exact hg'

omit [LinearOrder U] in
theorem bare_storeValue {nodes : List (SuffixNode U V)} {last : Nat} {value : Option V} :
    (storeValue nodes last value).map bare = nodes.map bare := by
  cases value with
  | none => rfl
  | some v =>
    apply map_modify_of_keep
    exact fun _ => rfl

theorem SameGraph.insertTextIntoInner (h : SameGraph c g) {value : Option V} (value' : Option V)
    (hok : c.insertTextIntoInner t value = some c') : ∃ g', g.insertTextIntoInner t value' = some g' ∧ SameGraph c' g' := by
  obtain ⟨c₁, hc₁, hok⟩ := Option.bind_eq_some_iff.1 hok
  cases hok
  have hstart : SameGraph { c with
      lastState := 0, sourceTexts := c.sourceTexts ++ [t], sourceValues := c.sourceValues ++ [value] } { g with
      lastState := 0, sourceTexts := g.sourceTexts ++ [t], sourceValues := g.sourceValues ++ [value'] } := h
  obtain ⟨g₁, hg₁, h₁, -⟩ := hstart.extend_units t rfl hc₁
  simp only [insertTextIntoInner, hg₁, Option.bind_eq_bind, Option.bind_some]
  refine ⟨_, rfl, ?_⟩
  show (storeValue c₁.nodes c₁.lastState value).map bare = (storeValue g₁.nodes g₁.lastState value').map bare
  rw [bare_storeValue, bare_storeValue]
  exact h₁

/-! ## Putting a value -/

/-- The value of a text is put: the text gets it, the words at other states keep theirs, states are not joined, and the text
is active. -/
structure Put (c c' : SuffixAutomatonInner U V) (t : List U) (v : V) : Prop where
  own : c'.valueFromInner t = some v
  keep : ∀ u, c'.findState u ≠ c'.findState t → c'.valueFromInner u = c.valueFromInner u
  apart : ∀ u w, (c.findState u).isSome → c'.findState u = c'.findState w → c.findState u = c.findState w
  active : ∀ w, w ∈ c'.activeTexts ↔ w ∈ c.activeTexts ∨ w = t
  graph : ∀ g, SameGraph c g → ∃ g', g.grow t = some g' ∧ SameGraph c' g'

theorem mem_activeTexts {w : List U} : w ∈ c.activeTexts ↔ ∃ id, (id, w) ∈ c.table.records := by
  simp only [activeTexts, Table.records, table, mem_toFinset, mem_map, Prod.mk.injEq]
  constructor
  · rintro ⟨id, hid, rfl⟩
    exact ⟨id, id, hid, rfl, rfl⟩
  · rintro ⟨-, id, hid, -, rfl⟩
    exact ⟨id, hid, rfl⟩

theorem mem_activeTexts_of_insert {id : Nat} (h : c'.table.records = insert (id, t) c.table.records) (w : List U) :
    w ∈ c'.activeTexts ↔ w ∈ c.activeTexts ∨ w = t := by
  rw [mem_activeTexts, mem_activeTexts, h]
  simp only [Finset.mem_insert, Prod.mk.injEq]
  constructor
  · rintro ⟨id', ⟨-, rfl⟩ | hin⟩
    · exact .inr rfl
    · exact .inl ⟨id', hin⟩
  · rintro (⟨id', hin⟩ | rfl)
    · exact ⟨id', .inr hin⟩
    · exact ⟨id, .inl ⟨rfl, rfl⟩⟩

theorem put_inserted {v : V} {id : Nat} (ht : t ≠ []) (hnone : c.findState t = none)
    (hok : c.insertTextIntoInner t (some v) = some c') (hins : Inserted c c' t (some v))
    (hrecords : c'.table.records = insert (id, t) c.table.records) : Put c c' t v := by
  refine ⟨hins.own ht hnone, fun u hne => ?_, hins.apart, mem_activeTexts_of_insert hrecords, fun g hg => ?_⟩
  · cases hu : c.findState u with
    | none =>
      rw [hins.fresh u hnone hu hne, valueFromInner, findTermState, hu, Option.bind_none]
    | some s => exact hins.keep u (Option.isSome_of_eq_some hu) (.inr ht)
  · obtain ⟨g', hg', hsame⟩ := hg.insertTextIntoInner none hok
    refine ⟨g', ?_, hsame⟩
    rw [grow, ← hg.findState t, hnone]
    exact hg'

theorem put_updated {v : V} {s : Nat} (hs : c.findState t = some s) (hlt : s < c.nodes.length) (hup : Updated c c' t s v)
    (hactive : (c.valueFromInner t).isSome → t ∈ c.activeTexts) : Put c c' t v := by
  obtain ⟨⟨f, hnodes, hf⟩, hrecords⟩ := hup
  have hstate : ∀ w, c'.findState w = c.findState w := by
    refine findState_congr ?_
    rw [hnodes]
    apply map_modify_of_keep
    intro n
    rw [(hf n).1, (hf n).2.1, (hf n).2.2.1]
  refine ⟨?_, fun u hne => ?_, fun u w _ heq => ?_, fun w => ?_, fun g hg => ⟨g, ?_, ?_⟩⟩
  · obtain ⟨n, hn⟩ := exists_node hlt
    simp only [valueFromInner, findTermState, hstate, hs, Option.bind_some]
    rw [hnodes, getElem?_modify_eq, hn]
    exact (hf n).2.2.2
  · simp only [valueFromInner, findTermState]
    rw [hstate]
    cases hu : c.findState u with
    | none => rfl
    | some r =>
      rw [hstate, hstate, hu, hs] at hne
      simp only [Option.bind_some]
      rw [hnodes, getElem?_modify_ne _ _ fun heq => hne (congrArg some heq.symm)]
  · rwa [hstate, hstate] at heq
  · obtain ⟨hsame, hmem⟩ | hinsert := hrecords
    · have hiff : w ∈ c'.activeTexts ↔ w ∈ c.activeTexts := by rw [mem_activeTexts, mem_activeTexts, hsame]
      have hin : t ∈ c.activeTexts := hmem.elim hactive mem_activeTexts.2
      rw [hiff]
      exact ⟨.inl, fun h => h.elim id fun heq => heq ▸ hin⟩
    · exact mem_activeTexts_of_insert hinsert w
  · rw [grow, ← hg.findState t, hs]
    rfl
  · refine Eq.trans ?_ hg
    rw [hnodes]
    apply map_modify_of_keep
    intro n
    simp only [bare, hf]

theorem Recorded.put (h : Recorded c texts) (ht : t ≠ []) (v : V)
    (hactive : (c.valueFromInner t).isSome → t ∈ c.activeTexts) :
    ∃ result texts', c.updateOrInsert t v (fun _ => v) = some result ∧ Recorded result.2 texts' ∧ Put c result.2 t v := by
  cases hs : c.findState t with
  | none =>
    obtain ⟨c', hok, hrec, hrecords⟩ := h.insertTextIntoInner t (some v)
    obtain ⟨c'', hok', -, hins⟩ := h.inv.insertTextIntoInner_values t (some v)
    obtain rfl : c'' = c' := Option.some.inj (hok'.symm.trans hok)
    exact ⟨(true, c''), _, by rw [updateOrInsert_of_none hs, hok, Option.map_some], hrec,
      put_inserted ht hs hok hins hrecords⟩
  | some s =>
    obtain ⟨result, hok, hrec, hup⟩ := h.updated hs v fun _ => v
    have helim : (c.valueFromInner t).elim v (fun _ => v) = v := by cases c.valueFromInner t <;> rfl
    obtain ⟨word, hword⟩ := h.inv.reading
    exact ⟨result, texts, hok, hrec, put_updated hs ((findState_iff hword.rep).1 hs).1 (helim ▸ hup) hactive⟩

end

/-! ## The loop -/

/-- While the texts are made readable one after the other, none of them comes to the state of an active text or of a later
one. -/
def StatesApart (actives : List (List U)) : List (List U) → SuffixAutomatonInner U V → Prop
  | [], _ => True
  | t :: after, g => match g.grow t with
    | none => True
    | some g' => (∀ u ∈ actives ++ after, u ≠ t → g'.findState u ≠ g'.findState t) ∧ StatesApart actives after g'

instance decidableStatesApart (actives : List (List U)) : ∀ (texts : List (List U)) (g : SuffixAutomatonInner U V),
    Decidable (StatesApart actives texts g)
  | [], _ => isTrue trivial
  | t :: after, g => by
    unfold StatesApart
    cases g.grow t with
    | none => exact isTrue trivial
    | some g' =>
      have := decidableStatesApart actives after g'
      exact inferInstance

/-- The sources of the other automaton that have values are its active texts, each once; of these, those with a value here
are the active ones; texts do not share states. -/
structure Mergeable (inner other : SuffixAutomatonInner U V) : Prop where
  nodup : other.mergedTexts.Nodup
  active : ∀ t ∈ other.mergedTexts, t ∈ other.activeTexts
  merged : ∀ t ∈ other.activeTexts, t ∈ other.mergedTexts
  valued : ∀ t ∈ other.activeTexts, ((inner.valueFromInner t).isSome ↔ t ∈ inner.activeTexts)
  apart : StatesApart inner.activeTexts other.mergedTexts inner

-- texts are compared by the order of their units, also where another equality of lists is in scope
local instance lawfulBEqText : LawfulBEq (List U) := inferInstance

instance (inner other : SuffixAutomatonInner U V) : Decidable (Mergeable inner other) :=
  decidable_of_iff (other.mergedTexts.Nodup ∧ (∀ t ∈ other.mergedTexts, t ∈ other.activeTexts) ∧
    (∀ t ∈ other.activeTexts, t ∈ other.mergedTexts) ∧
    (∀ t ∈ other.activeTexts, ((inner.valueFromInner t).isSome ↔ t ∈ inner.activeTexts)) ∧
    StatesApart inner.activeTexts other.mergedTexts inner)
    ⟨fun ⟨h₁, h₂, h₃, h₄, h₅⟩ => ⟨h₁, h₂, h₃, h₄, h₅⟩, fun h => ⟨h.nodup, h.active, h.merged, h.valued, h.apart⟩⟩

def mergedValue (mergeFn : V → V → V) : Option V → Option V → Option V
  | some selfValue, some otherValue => some (mergeFn selfValue otherValue)
  | none, some otherValue => some otherValue
  | selfValue, none => selfValue

section
variable {inner other c g : SuffixAutomatonInner U V} {mergeFn : V → V → V} {texts : List (List U)} {t : List U}

theorem mem_mergedTexts : t ∈ other.mergedTexts ↔ t ∈ other.sourceTexts ∧ t ≠ [] ∧ (other.valueFromInner t).isSome := by
  rw [mergedTexts, mem_filter, Bool.and_eq_true, decide_eq_true_iff]

theorem foldlM_unionStep (l : List (List U)) (r : Nat × SuffixAutomatonInner U V) : l.foldlM (unionStep other mergeFn) r =
      (l.filter fun t => decide (t ≠ []) && (other.valueFromInner t).isSome).foldlM
        (unionStep other mergeFn) r := by
  induction l generalizing r with
  | nil => rfl
  | cons t l ih =>
    rw [filter_cons]
    split
    · rw [foldlM_cons, foldlM_cons]
      exact congrArg _ (funext ih)
    · rename_i hskip
      have hstep : unionStep other mergeFn r t = some r := by
        unfold unionStep
        split
        · rfl
        · rename_i hne
          have hnone : other.valueFromInner t = none := by
            rw [Bool.and_eq_true, decide_eq_true_iff, not_and] at hskip
            exact Option.not_isSome_iff_eq_none.1 (hskip hne)
          rw [hnone]
      rw [foldlM_cons, hstep]
      exact ih r

/-- Where the loop stands: the texts before are merged, those after are not yet. -/
structure Merging (inner other : SuffixAutomatonInner U V) (mergeFn : V → V → V) (before after : List (List U))
    (c g : SuffixAutomatonInner U V) : Prop where
  recorded : ∃ texts, Recorded c texts
  graph : SameGraph c g
  active : ∀ w, w ∈ c.activeTexts ↔ w ∈ inner.activeTexts ∨ w ∈ before
  done : ∀ t ∈ before, c.valueFromInner t = mergedValue mergeFn (inner.valueFromInner t) (other.valueFromInner t)
  rest : ∀ u ∈ inner.activeTexts ++ after, u ∉ before → c.valueFromInner u = inner.valueFromInner u
  apart : ∀ t ∈ before, ∀ u ∈ inner.activeTexts ++ after, u ∉ before → c.findState u ≠ c.findState t

theorem findState_isSome_of_value {w : List U} (h : (c.valueFromInner w).isSome) : (c.findState w).isSome := by
  rw [valueFromInner, findTermState] at h
  exact Option.isSome_of_isSome_bind h

theorem Merging.step {before after : List (List U)} (h : Merging inner other mergeFn before (t :: after) c g)
    (hbefore : t ∉ before) (ht : t ≠ []) (hvalue : (other.valueFromInner t).isSome)
    (hdone : ∀ t ∈ before, (other.valueFromInner t).isSome)
    (hvalued : (inner.valueFromInner t).isSome → t ∈ inner.activeTexts)
    (hapart : StatesApart inner.activeTexts (t :: after) g) (n : Nat) :
    ∃ c' g', unionStep other mergeFn (n, c) t = some (n + 1, c') ∧
      Merging inner other mergeFn (before ++ [t]) after c' g' ∧ StatesApart inner.activeTexts after g' := by
  obtain ⟨otherValue, hother⟩ := Option.isSome_iff_exists.1 hvalue
  have hown : c.valueFromInner t = inner.valueFromInner t :=
    h.rest t (mem_append_right _ (.head _)) hbefore
  obtain ⟨v, hv⟩ : ∃ v, v = (match c.valueFromInner t with
    | some selfValue => mergeFn selfValue otherValue
    | none => otherValue) := ⟨_, rfl⟩
  have hmerged : mergedValue mergeFn (inner.valueFromInner t) (other.valueFromInner t) = some v := by
    rw [hv, hown, hother]
    cases inner.valueFromInner t <;> rfl
  obtain ⟨texts, hrec⟩ := h.recorded
  obtain ⟨result, texts', hok, hrec', hput⟩ := hrec.put ht v fun hsome => (h.active t).2 (.inl (hvalued (hown ▸ hsome)))
  obtain ⟨g', hg', hsame⟩ := hput.graph g h.graph
  rw [StatesApart, hg'] at hapart
  -- no other text is at the state of the merged one
  have hfar : ∀ u ∈ inner.activeTexts ++ after, u ≠ t → result.2.findState u ≠ result.2.findState t := by
    intro u hu hne
    rw [hsame.findState, hsame.findState]
    exact hapart.1 u hu hne
  have hread : ∀ t' ∈ before, (c.findState t').isSome := by
    intro t' ht'
    refine findState_isSome_of_value ?_
    rw [h.done t' ht']
    obtain ⟨y, hy⟩ := Option.isSome_iff_exists.1 (hdone t' ht')
    rw [hy]
    cases inner.valueFromInner t' <;> rfl
  have hwider : ∀ u ∈ inner.activeTexts ++ after, u ∈ inner.activeTexts ++ t :: after := fun u hu =>
    (mem_append.1 hu).elim (mem_append_left _) fun hin => mem_append_right _ (.tail _ hin)
  have hold : ∀ t' ∈ before, ∀ u ∈ inner.activeTexts ++ t :: after, u ∉ before →
      result.2.findState u ≠ result.2.findState t' := fun t' ht' u hu hnot heq =>
    h.apart t' ht' u hu hnot (hput.apart t' u (hread t' ht') heq.symm).symm
  refine ⟨result.2, g', ?_,
    ⟨⟨texts', hrec'⟩, hsame, fun w => ?_, fun t' ht' => ?_, fun u hu hnot => ?_, fun t' ht' u hu hnot => ?_⟩,
    hapart.2⟩
  · simp only [unionStep, if_neg ht, hother]
    rw [← hv, hok, Option.map_some]
  · rw [hput.active, h.active, mem_append, mem_singleton, or_assoc]
  · obtain ht' | ht' := mem_append.1 ht'
    · rw [hput.keep t' fun heq => ?_, h.done t' ht']
      exact hold t' ht' t (mem_append_right _ (.head _)) hbefore heq.symm
    · rw [mem_singleton.1 ht', hput.own, hmerged]
  · rw [mem_append, mem_singleton, not_or] at hnot
    rw [hput.keep u (hfar u hu hnot.2)]
    exact h.rest u (hwider u hu) hnot.1
  · rw [mem_append, mem_singleton, not_or] at hnot
    obtain ht' | ht' := mem_append.1 ht'
    · exact hold t' ht' u (hwider u hu) hnot.1
    · rw [mem_singleton.1 ht']
      exact hfar u hu hnot.2

theorem Merging.run {before : List (List U)} (after : List (List U)) (h : Merging inner other mergeFn before after c g)
    (hnodup : (before ++ after).Nodup) (hmerged : ∀ t ∈ before ++ after, t ≠ [] ∧ (other.valueFromInner t).isSome)
    (hvalued : ∀ t ∈ after, (inner.valueFromInner t).isSome → t ∈ inner.activeTexts)
    (hapart : StatesApart inner.activeTexts after g) (n : Nat) :
    ∃ n' c' g', after.foldlM (unionStep other mergeFn) (n, c) = some (n', c') ∧
      Merging inner other mergeFn (before ++ after) [] c' g' := by
  induction after generalizing before c g n with
  | nil => exact ⟨n, c, g, rfl, by rwa [append_nil]⟩
  | cons t after ih =>
    have hbefore : t ∉ before := fun hin =>
      (nodup_append.1 hnodup).2.2 t hin t (.head _) rfl
    have hmem : t ∈ before ++ t :: after := mem_append_right _ (.head _)
    obtain ⟨c₁, g₁, hok, h₁, hapart₁⟩ := h.step hbefore (hmerged t hmem).1 (hmerged t hmem).2
      (fun t' ht' => (hmerged t' (mem_append_left _ ht')).2) (hvalued t (.head _)) hapart n
    have hassoc : before ++ [t] ++ after = before ++ t :: after := append_cons .. |>.symm
    obtain ⟨n', c', g', hrun, h'⟩ := ih h₁ (hassoc.symm ▸ hnodup) (hassoc.symm ▸ hmerged)
      (fun t' ht' => hvalued t' (.tail _ ht')) hapart₁ (n + 1)
    refine ⟨n', c', g', ?_, hassoc ▸ h'⟩
    rw [foldlM_cons, hok]
    exact hrun

/-- **The union has the active texts of both, and their merged values.** -/
theorem unionWith_of_mergeable {calls : List (Call U V)} (hcalls : ∀ c ∈ calls, c.isCompact = false)
    (hinner : run call calls new = some inner) (h : Mergeable inner other) (mergeFn : V → V → V) :
    ∃ processed result, inner.unionWith other mergeFn = some (processed, result) ∧
      (∀ t, t ∈ result.activeTexts ↔ t ∈ inner.activeTexts ∨ t ∈ other.activeTexts) ∧
      (∀ t ∈ inner.activeTexts, t ∉ other.activeTexts → result.valueFromInner t = inner.valueFromInner t) ∧
      (∀ t ∈ other.activeTexts, t ∉ inner.activeTexts → result.valueFromInner t = other.valueFromInner t) ∧
      ∀ t ∈ inner.activeTexts, t ∈ other.activeTexts → ∃ selfValue otherValue, inner.valueFromInner t = some selfValue ∧
        other.valueFromInner t = some otherValue ∧ result.valueFromInner t = some (mergeFn selfValue otherValue) := by
  have hkeeps : Runs.Along call KeepsPositions calls new := by
    refine along_of_forall calls _ fun c hc m hcompact => ?_
    rw [hcalls c hc] at hcompact
    cases hcompact
  obtain ⟨inner', texts, hrun, hrec, -⟩ := Recorded.new.run calls hkeeps
  obtain rfl : inner' = inner := Option.some.inj (hrun.symm.trans hinner)
  have hmem : ∀ t, t ∈ other.mergedTexts ↔ t ∈ other.activeTexts := fun t => ⟨h.active t, h.merged t⟩
  have hstart : Merging inner' other mergeFn [] other.mergedTexts inner' inner' :=
    ⟨⟨texts, hrec⟩, rfl, fun w => by simp, nofun, fun _ _ _ => rfl, nofun⟩
  obtain ⟨n, c, g, hok, hdone⟩ := hstart.run other.mergedTexts h.nodup (fun t ht => (mem_mergedTexts.1 ht).2)
    (fun t ht => (h.valued t (h.active t ht)).1) h.apart 0
  rw [nil_append] at hdone
  refine ⟨n, c, (foldlM_unionStep _ _).trans hok, fun t => ?_, fun t ht hnot => ?_, fun t ht hnot => ?_, fun t ht ht' => ?_⟩
  · rw [hdone.active, hmem]
  · exact hdone.rest t (mem_append_left _ ht) fun hin => hnot ((hmem t).1 hin)
  · have hnone : inner'.valueFromInner t = none :=
      Option.not_isSome_iff_eq_none.1 fun hsome => hnot ((h.valued t ht).1 hsome)
    obtain ⟨y, hy⟩ := Option.isSome_iff_exists.1 (mem_mergedTexts.1 ((hmem t).2 ht)).2.2
    rw [hdone.done t ((hmem t).2 ht), hnone, hy]
    rfl
  · obtain ⟨x, hx⟩ := Option.isSome_iff_exists.1 ((h.valued t ht').2 ht)
    obtain ⟨y, hy⟩ := Option.isSome_iff_exists.1 (mem_mergedTexts.1 ((hmem t).2 ht')).2.2
    refine ⟨x, y, hx, hy, ?_⟩
    rw [hdone.done t ((hmem t).2 ht'), hx, hy]
    rfl

end

section
open AdaptiveLabel

def leftCalls : List (Call UInt8 Nat) := [.insertWithValue [97, 98] 1, .insertWithValue [99] 5]

/-- A shared text, a new one, and a part of the new one that leads to a state of its own. -/
def rightCalls : List (Call UInt8 Nat) := [.insertWithValue [97, 98] 10, .insertWithValue [100, 100, 101] 7,
  .updateOrInsert [100, 100] 2 id]

theorem unionWith_of_leftCalls : ∃ inner other processed result, run call leftCalls new = some inner ∧
    run call rightCalls new = some other ∧
    inner.unionWith other (· + ·) = some (processed, result) ∧
    ∀ t, t ∈ result.activeTexts ↔ t ∈ inner.activeTexts ∨ t ∈ other.activeTexts := by
  obtain ⟨other, hother, hright⟩ := exists_run call rightCalls new
    (fun other => (run call leftCalls new).all fun inner => decide (Mergeable inner other))
    (by decide +kernel)
  obtain ⟨inner, hinner, -⟩ := exists_run call leftCalls new (fun _ => true) (by decide +kernel)
  rw [hinner] at hright
  obtain ⟨processed, result, hunion, hactive, -⟩ :=
    unionWith_of_mergeable (by decide +kernel) hinner (of_decide_eq_true hright) (· + ·)
  exact ⟨inner, other, processed, result, hinner, hother, hunion, hactive⟩

/-- The active texts of two automata and of their union, and the value of `ab` in the union. -/
def unionOf (left right : List (Call UInt8 Nat)) :
    Option (List (List UInt8) × List (List UInt8) × List (List UInt8) × Option Nat) := do
  let inner ← run call left new
  let other ← run call right new
  let result ← inner.unionWith other (· + ·)
  return (inner.activeTexts, other.activeTexts, result.2.activeTexts, result.2.valueFromInner [97, 98])

/-- **A removed text comes back, the empty text is lost, and a text at the state of another one is not added** but merged
with it. -/
theorem unionWith_not_union : unionOf [] [.insertWithValue [120] 1, .remove [120]] = some ([], [], [[120]], none) ∧
    unionOf [] [.insertWithValue [] 1] = some ([], [[]], [], none) ∧
    unionOf [.insertWithValue [97, 98] 1] [.insertWithValue [98] 5] = some ([[97, 98]], [[98]], [[97, 98]], some 6) := by
  refine ⟨?_, ?_, ?_⟩ <;> decide +kernel

end

end Dictenstein.Suffix
