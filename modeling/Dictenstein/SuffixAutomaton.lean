import Dictenstein.Runs
import Dictenstein.SortedEdges
import Dictenstein.SuffixTexts
/-!
# SuffixAutomaton — the suffix automaton of several texts

`insert_text_into_inner` restarts the online construction at the root for every text, without looking whether the root has
the transition already, so an insertion can leave states behind that are not reachable.  The construction is the one of
`SuffixExtend`, whose invariant has such states.
-/
namespace Dictenstein.Suffix

open SuffixClasses List Option SortedEdges

variable {U V : Type} [LinearOrder U]

/-! ## Nodes -/

structure SuffixNode (U V : Type) where
  edges : List (U × Nat)
  suffixLink : Option Nat
  maxLength : Nat
  isFinal : Bool
  value : Option V

namespace SuffixNode

def root : SuffixNode U V := ⟨[], none, 0, false, none⟩

def new (maxLength : Nat) : SuffixNode U V := ⟨[], none, maxLength, false, none⟩

variable (n : SuffixNode U V)

def findEdge (label : U) : Option Nat := find 16 label n.edges

def addEdge (label : U) (target : Nat) : SuffixNode U V :=
  { n with edges := withEdge label target n.edges }

def updateEdge (label : U) (newTarget : Nat) : SuffixNode U V × Bool :=
  ({ n with edges := SortedEdges.updateEdge label newTarget n.edges }, n.edges.any (·.1 = label))

end SuffixNode

def nodeOps : NodeOps U (SuffixNode U V) where
  edge := SuffixNode.findEdge
  addEdge := SuffixNode.addEdge
  moveEdge n label target := (n.updateEdge label target).1
  link := SuffixNode.suffixLink
  setLink n target := { n with suffixLink := some target }
  length := SuffixNode.maxLength

/-! ## The automaton -/

structure SuffixAutomatonInner (U V : Type) where
  nodes : List (SuffixNode U V)
  lastState : Nat
  stringCount : Nat
  sourceTexts : List (List U)
  sourceValues : List (Option V)
  sortedSourceIndices : List Nat
  -- of a state, the texts that end there and their lengths
  positions : Nat → List (Nat × Nat)
  needsCompaction : Bool

namespace SuffixAutomatonInner

def new : SuffixAutomatonInner U V := ⟨[.root], 0, 0, [], [], [], fun _ => [], false⟩

def newNode (last : SuffixNode U V) : SuffixNode U V := { SuffixNode.new (last.maxLength + 1) with isFinal := true }

def clonedNode (_p : Nat) (pNode qNode : SuffixNode U V) : SuffixNode U V :=
  { qNode with maxLength := pNode.maxLength + 1, isFinal := true }

variable (inner : SuffixAutomatonInner U V)

def extend (unit : U) : Option (SuffixAutomatonInner U V) := do
  let nodes ← SuffixClasses.extend nodeOps newNode clonedNode inner.lastState unit inner.nodes
  return { inner with nodes, lastState := inner.nodes.length }

def sourceBefore (sourceId existing : Nat) : Bool :=
  let text := inner.sourceTexts.getD sourceId []
  let other := inner.sourceTexts.getD existing []
  other < text ∨ other = text ∧ existing < sourceId

def indexSource (sourceId : Nat) : SuffixAutomatonInner U V :=
  let insertion := (inner.sortedSourceIndices.takeWhile (inner.sourceBefore sourceId)).length
  { inner with sortedSourceIndices := inner.sortedSourceIndices.insertIdx insertion sourceId }

def insertTextIntoInner (text : List U) (value : Option V) :
    Option (SuffixAutomatonInner U V) := do
  let stringId := inner.sourceTexts.length
  let inner := { inner with
    lastState := 0, sourceTexts := inner.sourceTexts ++ [text], sourceValues := inner.sourceValues ++ [value] }
  let inner ← text.foldlM extend inner
  let lastState := inner.lastState
  let nodes := match value with
    | some value => inner.nodes.modify lastState fun n => { n with value := some value }
    | none => inner.nodes
  let positions := Function.update inner.positions lastState (inner.positions lastState ++ [(stringId, text.length)])
  let inner := { inner with nodes, positions }.indexSource stringId
  return { inner with stringCount := inner.stringCount + 1, lastState := 0 }

def insertTexts (records : List (List U × Option V)) : Option (SuffixAutomatonInner U V) :=
  records.foldlM (fun inner record => inner.insertTextIntoInner record.1 record.2) new

def transition (state : Nat) (label : U) : Option Nat :=
  inner.nodes[state]?.bind (·.findEdge label)

variable (term : List U)

def findState : Option Nat := term.foldlM inner.transition 0

def contains : Bool := (inner.findState term).isSome

def findTermState : Option Nat := inner.findState term

def valueFromInner : Option V :=
  (inner.findTermState term).bind fun state => inner.nodes[state]?.bind SuffixNode.value

end SuffixAutomatonInner

/-! ## The operations on nodes -/

def SuffixNode.Ok (n : SuffixNode U V) : Prop := SortedEdges.Sorted n.edges

theorem findEdge_eq {n : SuffixNode U V} (hn : n.Ok) (label : U) : n.findEdge label = n.edges.lookup label :=
  find_eq_lookup 16 label hn

theorem lawful_nodeOps : (nodeOps : NodeOps U (SuffixNode U V)).Lawful SuffixNode.Ok where
  edge_addEdge n c t d hn := by
    show (n.addEdge c t).findEdge d = if d = c then some t else n.findEdge d
    have hok : (n.addEdge c t).Ok := sorted_withEdge c t hn
    rw [findEdge_eq hok, findEdge_eq hn]
    exact lookup_withEdge c d t n.edges
  edge_moveEdge n c t d hn hsome := by
    have hsome : (n.findEdge c).isSome := hsome
    show (n.updateEdge c t).1.findEdge d = if d = c then some t else n.findEdge d
    have hok : (n.updateEdge c t).1.Ok := SortedEdges.sorted_updateEdge c t hn
    rw [findEdge_eq hn] at hsome
    rw [findEdge_eq hok, findEdge_eq hn]
    refine (SortedEdges.lookup_updateEdge c d t n.edges).trans ?_
    split
    · rename_i hdc
      obtain ⟨old, hold⟩ := isSome_iff_exists.1 hsome
      rw [hdc, hold]
      rfl
    · rfl
  edge_setLink _ _ _ := rfl
  link_addEdge _ _ _ := rfl
  link_moveEdge _ _ _ := rfl
  link_setLink _ _ := rfl
  length_addEdge _ _ _ := rfl
  length_moveEdge _ _ _ := rfl
  length_setLink _ _ := rfl
  ok_addEdge n c t hn := sorted_withEdge c t hn
  ok_moveEdge n c t hn := SortedEdges.sorted_updateEdge c t hn
  ok_setLink _ _ hn := hn

theorem makes_nodeOps : Makes (nodeOps : NodeOps U (SuffixNode U V)) SuffixNode.Ok SuffixAutomatonInner.newNode
    SuffixAutomatonInner.clonedNode where
  ok_new _ := List.Pairwise.nil
  edge_new _ _ := rfl
  length_new _ := rfl
  ok_clone _ _ _ hq := hq
  edge_clone _ _ _ _ := rfl
  link_clone _ _ _ := rfl
  length_clone _ _ _ := rfl

theorem readsCore_nodeOps : ReadsCore (nodeOps : NodeOps U (SuffixNode U V)) SuffixNode.Ok
    (fun n => (n.edges, n.suffixLink, n.maxLength)) where
  edge n m h := by
    funext d
    show find 16 d n.edges = find 16 d m.edges
    rw [(Prod.mk.inj h).1]
  link n m h := (Prod.mk.inj (Prod.mk.inj h).2).1
  length n m h := (Prod.mk.inj (Prod.mk.inj h).2).2
  ok n m h hn := by
    show SortedEdges.Sorted m.edges
    rw [← (Prod.mk.inj h).1]
    exact hn

theorem keeps_isFinal : Keeps (nodeOps : NodeOps U (SuffixNode U V)) SuffixNode.isFinal :=
  ⟨fun _ _ _ => rfl, fun _ _ _ => rfl, fun _ _ => rfl⟩

/-! ## Inserting -/

def AllFinal (nodes : List (SuffixNode U V)) : Prop := ∀ b ∈ (nodes.map SuffixNode.isFinal).tail, b = true

structure Inv (inner : SuffixAutomatonInner U V) (texts : List (List U)) (x : List U) : Prop where
  reading : ∃ word, Reading nodeOps SuffixNode.Ok inner.nodes word texts x inner.lastState
  final : AllFinal inner.nodes

namespace Inv

variable {inner : SuffixAutomatonInner U V} {texts : List (List U)} {x : List U}

theorem new : Inv (SuffixAutomatonInner.new : SuffixAutomatonInner U V) [] [] :=
  ⟨⟨_, Reading.root List.Pairwise.nil (fun _ => rfl) rfl rfl⟩, nofun⟩

theorem extend (h : Inv inner texts x) (unit : U) : ∃ inner', inner.extend unit = some inner' ∧
    Inv inner' texts (x ++ [unit]) := by
  obtain ⟨word, hword⟩ := h.reading
  obtain ⟨nodes', word', hok, -, hread⟩ := hword.extend lawful_nodeOps makes_nodeOps unit
  refine ⟨{ inner with nodes := nodes', lastState := inner.nodes.length }, ?_, ⟨word', hread⟩, ?_⟩
  · simp only [SuffixAutomatonInner.extend, hok]
    rfl
  · obtain ⟨lastNode, -, hmap⟩ := extend_map keeps_isFinal hok
    have hne : inner.nodes.map SuffixNode.isFinal ≠ [] := by
      rw [Ne, map_eq_nil_iff]
      rintro hnil
      have := hword.last_lt
      rw [hnil] at this
      exact absurd this (Nat.not_lt_zero _)
    intro b hb
    have hb : b ∈ (nodes'.map SuffixNode.isFinal).tail := hb
    rcases hmap with hmap | ⟨p, pNode, qNode, hmap⟩
    all_goals
      rw [hmap, tail_append_of_ne_nil hne] at hb
      obtain hb | hb := mem_append.1 hb
      · exact h.final b hb
      · simp only [mem_cons, not_mem_nil, or_false] at hb
        first | exact hb | exact hb.elim id id

theorem extend_units (h : Inv inner texts x) (units : List U) :
    ∃ inner', units.foldlM SuffixAutomatonInner.extend inner = some inner' ∧ Inv inner' texts (x ++ units) := by
  refine Runs.foldlM_of_steps (I := fun read inner => Inv inner texts (x ++ read)) (fun read unit inner h => ?_) ?_ units
  · rw [← append_assoc]
    exact h.extend unit
  · rwa [append_nil]

theorem reading_root (h : Inv inner texts []) : ∃ word, Reading nodeOps SuffixNode.Ok inner.nodes word texts [] 0 := by
  obtain ⟨word, hword⟩ := h.reading
  exact ⟨word, { hword with
    last_lt := hword.rep.good.root_mem, word_last := hword.rep.good.root_word, fresh := .inl rfl }⟩

/-- **A text is inserted**: the walks along the links end, and the text is one of the texts then. -/
theorem insertTextIntoInner (h : Inv inner texts []) (text : List U) (value : Option V) :
    ∃ inner', inner.insertTextIntoInner text value = some inner' ∧ Inv inner' (texts ++ [text]) [] := by
  obtain ⟨word, hroot⟩ := h.reading_root
  have hstart : Inv { inner with lastState := 0, sourceTexts := inner.sourceTexts ++ [text],
                                 sourceValues := inner.sourceValues ++ [value] } texts [] :=
    ⟨⟨word, hroot⟩, h.final⟩
  obtain ⟨inner₁, hok, h₁⟩ := hstart.extend_units text
  obtain ⟨word₁, hword₁⟩ := h₁.reading
  -- the value of the last node is not seen by the automaton
  have hcore : ∀ v : V, (inner₁.nodes.modify inner₁.lastState fun n => { n with value := some v }).map
      (fun n => (n.edges, n.suffixLink, n.maxLength)) = inner₁.nodes.map fun n => (n.edges, n.suffixLink, n.maxLength) := by
    intro v
    apply map_modify_of_keep
    intro n
    rfl
  have hfinal : ∀ v : V, (inner₁.nodes.modify inner₁.lastState fun n => { n with value := some v }).map SuffixNode.isFinal =
      inner₁.nodes.map SuffixNode.isFinal := by
    intro v
    apply map_modify_of_keep
    intro n
    rfl
  rw [nil_append] at hword₁
  simp only [SuffixAutomatonInner.insertTextIntoInner, hok, bind_eq_bind, bind_some]
  refine ⟨_, rfl, ?_⟩
  cases value with
  | none => exact ⟨⟨word₁, hword₁.finish⟩, h₁.final⟩
  | some v =>
    refine ⟨⟨word₁, (Reading.congr readsCore_nodeOps (hcore v) hword₁).finish⟩, ?_⟩
    show AllFinal (inner₁.nodes.modify inner₁.lastState _)
    unfold AllFinal
    rw [hfinal v]
    exact h₁.final

theorem foldlM_records (h : Inv inner texts []) (records : List (List U × Option V)) :
    ∃ inner', records.foldlM (fun inner record => inner.insertTextIntoInner record.1 record.2) inner = some inner' ∧
      Inv inner' (texts ++ records.map Prod.fst) [] := by
  refine Runs.foldlM_of_steps (I := fun read inner => Inv inner (texts ++ read.map Prod.fst) [])
    (fun read record inner h => ?_) ?_ records
  · rw [map_append, ← append_assoc]
    exact h.insertTextIntoInner record.1 record.2
  · rwa [map_nil, append_nil]

theorem isFinal (h : Inv inner texts x) {s : Nat} {n : SuffixNode U V} (hs : s ≠ 0) (hn : inner.nodes[s]? = some n) :
    n.isFinal = true := by
  refine h.final _ (mem_of_getElem? (i := s - 1) ?_)
  rw [getElem?_tail, Nat.sub_add_cancel (Nat.pos_of_ne_zero hs), getElem?_map, hn]
  rfl

end Inv

/-- **After any insertions a non-empty word is read from the root exactly if it is a part of an inserted text, and every
state but the root is final.** The insertions return. -/
theorem contains_iff_substring (records : List (List U × Option V)) :
    ∃ inner, SuffixAutomatonInner.insertTexts records = some inner ∧
      (∀ w, w ≠ [] → (inner.contains w = true ↔ ∃ text ∈ records.map Prod.fst, w <:+: text)) ∧
      ∀ w s, inner.findState w = some s → s ≠ 0 → ∃ n, inner.nodes[s]? = some n ∧ n.isFinal = true := by
  obtain ⟨inner, hok, hinv⟩ := Inv.new.foldlM_records records
  rw [nil_append] at hinv
  obtain ⟨word, hword⟩ := hinv.reading
  refine ⟨inner, hok, fun w hw => hword.reach_iff hw, fun w s hs hne => ?_⟩
  have hstate : s < inner.nodes.length := (hword.rep.good.reach_iff.1 hs).1
  obtain ⟨n, hn⟩ := exists_node hstate
  exact ⟨n, hn, hinv.isFinal hne hn⟩

end Dictenstein.Suffix
