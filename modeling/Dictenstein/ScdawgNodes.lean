import Dictenstein.ScdawgInsert
/-!
# ScdawgNodes — what the nodes say of themselves

A node is made at the end of another one, its parent, and keeps the unit and the depth; only `insert` sets `is_final`, and
only at the node that the insertion appended.  That node holds its term unless the term was a part of an earlier one. -/
namespace Dictenstein.Scdawg

open SuffixClasses Function List Option

variable {U V : Type}

/-! ## Node handles -/

namespace ScdawgCoreInner

def isFinal (inner : ScdawgCoreInner U V) (nodeIdx : Nat) : Bool := inner.nodes[nodeIdx]?.elim false (·.isFinal)

def parent (inner : ScdawgCoreInner U V) (nodeIdx : Nat) : Option Nat := inner.nodes[nodeIdx]?.bind (·.parent)

def parentLabel (inner : ScdawgCoreInner U V) (nodeIdx : Nat) : Option U :=
  inner.nodes[nodeIdx]?.bind fun node => node.parent.map fun _ => node.parentLabel

def reverseEdges (inner : ScdawgCoreInner U V) (nodeIdx : Nat) : List (U × Nat) :=
  inner.nodes[nodeIdx]?.elim [] (·.leftEdges)

def depth (inner : ScdawgCoreInner U V) (nodeIdx : Nat) : Nat := inner.nodes[nodeIdx]?.elim 0 (·.depth)

/-- The loop of `path_from_root`; `none` says that the fuel is used up. -/
def pathFromRoot (inner : ScdawgCoreInner U V) : Nat → Nat → List U → Option (List U)
  | 0, _, _ => none
  | fuel + 1, current, labels =>
    match inner.parentLabel current with
    | none => some labels.reverse
    | some label =>
      match inner.parent current with
      | some parent => inner.pathFromRoot fuel parent (labels ++ [label])
      | none => some (labels ++ [label]).reverse

variable [LinearOrder U]

def contains (inner : ScdawgCoreInner U V) (term : List U) : Bool := decide (term ∈ inner.termSet)

def transition (inner : ScdawgCoreInner U V) (nodeIdx : Nat) (label : U) : Option Nat :=
  inner.nodes[nodeIdx]?.bind (·.getEdge label)

def walk (inner : ScdawgCoreInner U V) (term : List U) : Option Nat := term.foldlM inner.transition 0

def getValue (inner : ScdawgCoreInner U V) (term : List U) : Option V :=
  match inner.termValues term with
  | some value => some value
  | none => (inner.walk term).bind fun current =>
      inner.nodes[current]?.bind fun node => if node.isFinal then node.value else none

def Longest (inner : ScdawgCoreInner U V) (nodeIdx : Nat) (w : List U) : Prop :=
  inner.walk w = some nodeIdx ∧ ∀ w', inner.walk w' = some nodeIdx → w'.length ≤ w.length

end ScdawgCoreInner

/-! ## Late terms -/

section
variable [DecidableEq U] {log log' : List (List U)} {t : List U}

/-- When `t` was inserted first, it was a part of a term that was there. -/
def Late (log : List (List U)) (t : List U) : Prop := t ≠ [] ∧ ∃ y ∈ log.takeWhile fun y => decide (y ≠ t), t <:+: y

theorem takeWhile_append_of_mem (h : t ∈ log) :
    (log ++ log').takeWhile (fun y => decide (y ≠ t)) = log.takeWhile fun y => decide (y ≠ t) := by
  rw [takeWhile_append, if_neg]
  intro hlength
  rw [← ( takeWhile_prefix _).eq_of_length hlength] at h
  simpa using all_eq_true.1 all_takeWhile t h

theorem late_append (h : t ∈ log) : Late (log ++ log') t ↔ Late log t := by rw [Late, takeWhile_append_of_mem h, Late]

theorem late_concat (h : t ∉ log) : Late (log ++ [t]) t ↔ t ≠ [] ∧ ∃ y ∈ log, t <:+: y := by
  have hall : ∀ y ∈ log, decide (y ≠ t) = true := fun y hy => decide_eq_true fun heq => h (heq ▸ hy)
  rw [Late, takeWhile_append_of_pos hall]
  simp

end

/-! ## The nodes of a construction -/

structure Marks (U V : Type) where
  isFinal : Bool
  value : Option V
  parent : Option Nat
  parentLabel : U
  firstChar : U
  depth : Nat

def marks (n : ScdawgNode U V) : Marks U V := ⟨n.isFinal, n.value, n.parent, n.parentLabel, n.firstChar, n.depth⟩

structure Placed (word : Nat → List U) (size s : Nat) (m : Marks U V) : Prop where
  depth : m.depth = (word s).length
  first : s ≠ 0 → (word s).head? = some m.firstChar
  root : s = 0 → m.parent = none
  parent : s ≠ 0 → ∃ p < size, m.parent = some p ∧ word s = word p ++ [m.parentLabel]

theorem Placed.child {word word' : Nat → List U} {size size' p s : Nat} {m : Marks U V} {pNode : ScdawgNode U V} {c : U}
    (h : Placed word size p (marks pNode)) (hlength : pNode.length = (word p).length) (hroot : word 0 = []) (hp : p < size')
    (hs : s ≠ 0) (hold : word' p = word p) (hword : word' s = word p ++ [c])
    (hm : m.parent = some p ∧ m.parentLabel = c ∧ m.depth = pNode.depth + 1 ∧
      m.firstChar = if pNode.length = 0 then c else pNode.firstChar) : Placed word' size' s m := by
  obtain ⟨hparent, hlabel, hdepth, hfirst⟩ := hm
  have hpdepth : pNode.depth = (word p).length := h.depth
  refine ⟨by rw [hdepth, hword, hpdepth, length_append, length_singleton], fun _ => ?_, fun h0 => absurd h0 hs,
    fun _ => ⟨p, hp, hparent, by rw [hold, hlabel, hword]⟩⟩
  rw [hword, hfirst, hlength]
  cases hpword : word p with
  | nil => rfl
  | cons d rest =>
    have hp0 : p ≠ 0 := fun h0 => by
      rw [h0, hroot] at hpword
      cases hpword
    have hhead := h.first hp0
    rw [hpword] at hhead
    simpa [marks] using hhead

section
variable [LinearOrder U]

/-- The nodes after the insertions of `log` and the units of `x`. -/
structure Tracked (nodes : List (ScdawgNode U V)) (word : Nat → List U) (terms log : List (List U))
    (values : List U → Option V) (x : List U) (last : Nat) : Prop where
  reading : Reading nodeOps ScdawgNode.Ok nodes word terms x last
  logged : ∀ t, t ∈ terms ↔ t ∈ log
  valued : ∀ t, t ∉ log → values t = none
  placed : ∀ s m, (nodes.map marks)[s]? = some m → Placed word nodes.length s m
  final : ∀ s m, (nodes.map marks)[s]? = some m → (auto nodeOps nodes word).Holds s (word s) →
    (m.isFinal = true ↔ word s ∈ log ∧ ¬ Late log (word s)) ∧ m.value = if m.isFinal then values (word s) else none
  last_holds : (auto nodeOps nodes word).Holds last x ↔ x = [] ∨ ∀ y ∈ terms, ¬ x <:+: y

variable {nodes nodes' : List (ScdawgNode U V)} {word : Nat → List U} {terms log : List (List U)}
  {values : List U → Option V}
  {x : List U} {last : Nat}

theorem auto_of_core (word : Nat → List U) (hcore : nodes'.map core = nodes.map core) :
    auto nodeOps nodes' word = auto nodeOps nodes word ∧ nodes'.length = nodes.length :=
  ⟨readsCore_nodeOps.auto_eq hcore, by simpa using congrArg List.length hcore⟩

section
variable (h : Tracked nodes word terms log values x last)
include h

theorem Tracked.congr (hcore : nodes'.map core = nodes.map core)
    (hmarks : nodes'.map marks = nodes.map marks) : Tracked nodes' word terms log values x last := by
  obtain ⟨hauto, hlength⟩ := auto_of_core word hcore
  refine ⟨h.reading.congr readsCore_nodeOps hcore, h.logged, h.valued, ?_, ?_, hauto ▸ h.last_holds⟩
  · rw [hmarks, hlength]
    exact h.placed
  · rw [hmarks, hauto]
    exact h.final

theorem Tracked.word_of_term {t : List U} {s : Nat} (ht : t ∈ log) (hs : (auto nodeOps nodes word).Holds s t) :
    word s = t := by
  obtain ⟨r, hr, rfl⟩ := h.reading.indexed t ((h.logged t).2 ht) t prefix_rfl
  have hchain := (h.reading.rep.good.suffix_iff_chain hr hs).1 suffix_rfl
  exact ((h.reading.rep.good.chain_mem hr hchain).2.eq_of_length_le hs.2.1.length_le)

theorem Tracked.exists_holds {w t : List U} (ht : t ∈ terms) (hw : w <:+: t) : ∃ s, (auto nodeOps nodes word).Holds s w := by
  obtain ⟨y, hsuffix, hy⟩ := infix_iff_suffix_prefix.1 hw
  obtain ⟨r, hr, rfl⟩ := h.reading.indexed t ht y hy
  obtain ⟨s, -, hs⟩ := h.reading.rep.good.suffix_held hr hsuffix
  exact ⟨s, hs⟩

end

variable [Inhabited U]

omit [LinearOrder U] [Inhabited U] in
theorem keeps_marks [LinearOrder U] : Keeps (nodeOps : NodeOps U (ScdawgNode U V)) marks :=
  ⟨fun _ _ _ => rfl, fun _ _ _ => rfl, fun _ _ => rfl⟩

/-- **One unit is read.**  The appended node holds its word only if no term has it as a part; a clone has the word of no
term. -/
theorem Tracked.extend (h : Tracked nodes word terms log values x last) (c : U) :
    ∃ nodes' word',
      SuffixClasses.extend nodeOps (ScdawgCoreInner.newNode last c) (ScdawgCoreInner.clonedNode c) last c nodes =
      some nodes' ∧ Tracked nodes' word' terms log values (x ++ [c]) nodes.length := by
  have hread := h.reading
  have hgood := hread.rep.good
  obtain ⟨nodes', word', origin, hok, hext, ho, htr⟩ := extend_traces lawful_nodeOps (makes_nodeOps last c)
    (f := fun _ => ()) ⟨fun _ _ _ => rfl, fun _ _ _ => rfl, fun _ _ => rfl⟩
      (fun _ _ _ => rfl) keeps_marks hread.rep hread.last_lt
    (hread.word_last ▸ hread.short) hread.fresh c
  have hroot : word 0 = [] := hgood.root_word
  have hcurWord : word' nodes.length = x ++ [c] := by rw [hext.word_cur, hread.word_last]
  -- a word that is held then, but not by the appended node, was held
  have hheld : ∀ s w, s ≠ nodes.length → (auto nodeOps nodes' word').Holds s w →
      ∃ r, (auto nodeOps nodes word).Holds r w := fun s w hs hw => ⟨_, ho.holds s w hs hw⟩
  have hlast : (auto nodeOps nodes' word').Holds nodes.length (x ++ [c]) ↔ x ++ [c] = [] ∨
    ∀ y ∈ terms, ¬ x ++ [c] <:+: y := by
    constructor
    · intro hcur
      refine .inr fun y hy hinfix => ?_
      obtain ⟨r, hr⟩ := h.exists_holds hy hinfix
      obtain ⟨t, hne, ht⟩ := ho.held r _ hr
      exact hne (hext.rep.good.holds_unique ht hcur)
    · intro hnone
      obtain ⟨t, -, ht⟩ := hext.rep.good.suffix_held (s := nodes.length) hext.longer
        (show x ++ [c] <:+ word' nodes.length by rw [hcurWord])
      by_cases hne : t = nodes.length
      · exact hne ▸ ht
      · obtain ⟨r, hr⟩ := hheld t _ hne ht
        rcases hread.covered r hr.1 with hnil | ⟨y, hy, hinfix⟩ | hinfix
        · have hsuffix : x ++ [c] <:+ word r := hr.2.1
          rw [hnil, suffix_nil] at hsuffix
          exact absurd hsuffix (by simp)
        · exact absurd (hr.2.1.isInfix.trans hinfix) ((hnone.resolve_left (by simp)) y hy)
        · exact absurd (hr.2.1.isInfix.trans hinfix).length_le (by simp)
  suffices hmarks : ∀ s m, (nodes'.map marks)[s]? = some m → Placed word' nodes'.length s m ∧
      ((auto nodeOps nodes' word').Holds s (word' s) → (m.isFinal = true ↔ word' s ∈ log ∧ ¬ Late log (word' s)) ∧
        m.value = if m.isFinal then values (word' s) else none) from
    ⟨nodes', word', hok, hread.extended hext, h.logged, h.valued, fun s m hm => (hmarks s m hm).1,
      fun s m hm => (hmarks s m hm).2, hlast⟩
  intro s m hm
  have hlt : s < nodes'.length := by simpa using lt_of_node hm
  obtain hold | rfl | hnew := lt_trichotomy s nodes.length
  · rw [htr.old s hold] at hm
    have hp := h.placed s m hm
    rw [hext.word_old s hold]
    refine ⟨⟨by rw [hp.depth, hext.word_old s hold], fun h0 => by rw [hext.word_old s hold, hp.first h0], hp.root,
      fun h0 => ?_⟩,
      fun hs => h.final s m hm (htr.holds_old s hold _ hs)⟩
    obtain ⟨p, hlt, hparent, hword⟩ := hp.parent h0
    exact ⟨p, hlt.trans hext.longer, hparent, by rw [hext.word_old s hold, hext.word_old p hlt, hword]⟩
  · obtain ⟨lastNode, hlastNode, hcur⟩ := htr.cur
    obtain rfl := some.inj (hcur.symm.trans hm)
    refine ⟨(h.placed last _ (by rw [getElem?_map, hlastNode]; rfl)).child (hread.rep.length last _ hlastNode) hroot
      (hread.last_lt.trans hext.longer) (Nat.ne_of_gt (Nat.zero_lt_of_lt hread.last_lt)) (hext.word_old last hread.last_lt)
      hext.word_cur ⟨rfl, rfl, rfl, rfl⟩, fun hs => ⟨iff_of_false nofun fun ⟨hin, _⟩ => ?_, rfl⟩⟩
    rw [hcurWord] at hin hs
    exact (hlast.1 hs).resolve_left (by simp) _ ((h.logged _).2 hin) infix_rfl
  · obtain ⟨p, q, pNode, qNode, hpNode, hclone, hword, hq, hlonger⟩ := htr.clone s hnew hlt
    obtain rfl := some.inj (hclone.symm.trans hm)
    have hp := lt_of_node hpNode
    refine ⟨(h.placed p _ (by rw [getElem?_map, hpNode]; rfl)).child (hread.rep.length p _ hpNode) hroot
      (hp.trans hext.longer) (Nat.ne_of_gt (Nat.zero_lt_of_lt hnew)) (hext.word_old p hp) hword ⟨rfl, rfl, rfl, rfl⟩,
      fun hs => ⟨iff_of_false nofun fun ⟨hin, _⟩ => ?_, rfl⟩⟩
    rw [h.word_of_term hin hq] at hlonger
    exact lt_irrefl _ hlonger

/-! ## A term is finished -/

section
omit [Inhabited U]

section
variable (h : Tracked nodes word terms log values x last)
include h

/-- **The last node is made final**: it is the node of the term, unless the term is late. -/
theorem Tracked.finish (hx : x ∉ log) {values' : List U → Option V}
    (hvalues : ∀ t, t ≠ x → values' t = values t) (hcore : nodes'.map core = nodes.map core)
    (hmarks : nodes'.map marks =
      (nodes.map marks).modify last fun m => { m with isFinal := true, value := (values' x).or m.value }) :
    Tracked nodes' word (terms ++ [x]) (log ++ [x]) values' [] 0 := by
  obtain ⟨hauto, hlength⟩ := auto_of_core word hcore
  have hread := (h.reading.congr readsCore_nodeOps hcore).finish
  have hlate : Late (log ++ [x]) x ↔ ¬ (auto nodeOps nodes word).Holds last x := by
    rw [late_concat hx, h.last_holds]
    simp [h.logged]
  refine ⟨hread, fun t => by simp [h.logged], fun t ht => ?_, fun s m hm => ?_, fun s m hm hs => ?_,
    iff_of_true hread.rep.good.holds_root (.inl rfl)⟩
  · simp only [mem_append, mem_singleton, not_or] at ht
    rw [hvalues t ht.2, h.valued t ht.1]
  · rw [hmarks, getElem?_modify] at hm
    obtain ⟨m₀, hm₀, rfl⟩ := map_eq_some_iff.1 hm
    have hp := h.placed s m₀ hm₀
    rw [hlength]
    split
    · exact ⟨hp.depth, hp.first, hp.root, hp.parent⟩
    · exact hp
  · rw [hauto] at hs
    rw [hmarks, getElem?_modify] at hm
    obtain ⟨m₀, hm₀, rfl⟩ := map_eq_some_iff.1 hm
    obtain ⟨hfinal, hvalue⟩ := h.final s m₀ hm₀ hs
    by_cases hlast : last = s
    · subst hlast
      rw [h.reading.word_last] at hs hfinal hvalue ⊢
      have hnot : m₀.isFinal = false := Bool.eq_false_iff.2 fun htrue => hx (hfinal.1 htrue).1
      rw [hnot] at hvalue
      simp [hlate, hs, hvalue]
    · rw [if_neg hlast]
      by_cases hword : word s = x
      · -- the last node does not hold the term, since another one does
        have hlastNot : ¬ (auto nodeOps nodes word).Holds last x := fun hl =>
          hlast (h.reading.rep.good.holds_unique hl (hword ▸ hs))
        have hnot : m₀.isFinal = false := Bool.eq_false_iff.2 fun htrue => hx (hword ▸ (hfinal.1 htrue).1)
        rw [hnot] at hvalue
        simp [hword, hnot, hlate, hlastNot, hvalue]
      · rw [hvalues _ hword]
        refine ⟨hfinal.trans ?_, hvalue⟩
        rw [mem_append, mem_singleton, or_iff_left hword]
        exact and_congr_right fun hin => not_congr (late_append hin).symm

theorem Tracked.again {t : List U} (ht : t ∈ log) : Tracked nodes word terms (log ++ [t]) values x last := by
  have hmem : ∀ y, y ∈ log ++ [t] ↔ y ∈ log := fun y => by
    rw [mem_append, mem_singleton, or_iff_left_iff_imp]
    exact fun heq => heq ▸ ht
  refine ⟨h.reading, fun y => (h.logged y).trans (hmem y).symm, fun y hy => h.valued y fun hin => hy ((hmem y).2 hin),
    h.placed,
    fun s m hm hs => ?_, h.last_holds⟩
  obtain ⟨hfinal, hvalue⟩ := h.final s m hm hs
  refine ⟨hfinal.trans ?_, hvalue⟩
  rw [hmem]
  exact and_congr_right fun hin => not_congr (late_append hin).symm

/-- **The value of a term that is there** is set, at the node that its walk reaches if that node is final. -/
theorem Tracked.setValue {t : List U} {node : Nat} {value : V} (ht : t ∈ log)
    (hnode : (auto nodeOps nodes word).Holds node t) (hcore : nodes'.map core = nodes.map core)
    (hmarks : nodes'.map marks = (nodes.map marks).modify node fun m => if m.isFinal then { m with value := some value }
      else m) :
    Tracked nodes' word terms log (update values t (some value)) x last := by
  obtain ⟨hauto, hlength⟩ := auto_of_core word hcore
  refine ⟨h.reading.congr readsCore_nodeOps hcore, h.logged, fun y hy => ?_, fun s m hm => ?_, fun s m hm hs => ?_,
    hauto ▸ h.last_holds⟩
  · have hne : y ≠ t := fun heq => hy (heq ▸ ht)
    rw [update_of_ne hne, h.valued y hy]
  · rw [hmarks, getElem?_modify] at hm
    obtain ⟨m₀, hm₀, rfl⟩ := map_eq_some_iff.1 hm
    have hp := h.placed s m₀ hm₀
    rw [hlength]
    split
    · split
      · exact ⟨hp.depth, hp.first, hp.root, hp.parent⟩
      · exact hp
    · exact hp
  · rw [hauto] at hs
    rw [hmarks, getElem?_modify] at hm
    obtain ⟨m₀, hm₀, rfl⟩ := map_eq_some_iff.1 hm
    obtain ⟨hfinal, hvalue⟩ := h.final s m₀ hm₀ hs
    by_cases hsame : node = s
    · subst hsame
      rw [h.word_of_term ht hnode] at hfinal ⊢
      rw [if_pos rfl]
      cases hf : m₀.isFinal with
      | true => simpa [hf] using hfinal
      | false => simpa [hf, hvalue] using hfinal
    · have hword : word s ≠ t := fun heq => hsame (h.reading.rep.good.holds_unique hnode (heq ▸ hs))
      rw [if_neg hsame, update_of_ne hword]
      exact ⟨hfinal, hvalue⟩

end

end

end

end Dictenstein.Scdawg
