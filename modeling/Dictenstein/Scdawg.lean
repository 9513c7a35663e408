import Mathlib.Algebra.GroupWithZero.Nat
import Dictenstein.Preorder
import Dictenstein.SortedEdges
import Dictenstein.SuffixTexts
/-!
# Scdawg — the symmetric compact dictionary of substrings

`sa_extend` is the construction of `SuffixExtend`; the node that it appends gets the position of the unit in its term, and a
clone has no positions.  `insert` runs it over a term that is new, and the wrapper computes the left edges, which are the
suffix links turned around, when a term was added.
-/
namespace Dictenstein.Scdawg

open SuffixClasses List SortedEdges

variable {U V : Type} [LinearOrder U]

/-! ## Nodes -/

structure ScdawgNode (U V : Type) where
  forwardEdges : List (U × Nat)
  -- `none` is `NIL`
  suffixLink : Option Nat
  leftEdges : List (U × Nat)
  length : Nat
  isFinal : Bool
  termEnds : List (Nat × Nat)
  value : Option V
  parent : Option Nat
  parentLabel : U
  firstChar : U
  depth : Nat

namespace ScdawgNode

def root [Inhabited U] : ScdawgNode U V := ⟨[], none, [], 0, false, [], none, none, default, default, 0⟩

def new [Inhabited U] (length : Nat) (suffixLink : Option Nat) (firstChar : U) : ScdawgNode U V :=
  ⟨[], suffixLink, [], length, false, [], none, none, default, firstChar, 0⟩

-- binary search, whatever the number of edges
def getEdge (n : ScdawgNode U V) (label : U) : Option Nat := find 0 label n.forwardEdges

def setEdge (n : ScdawgNode U V) (label : U) (target : Nat) : ScdawgNode U V :=
  { n with forwardEdges := withEdge label target n.forwardEdges }

end ScdawgNode

def nodeOps : NodeOps U (ScdawgNode U V) where
  edge := ScdawgNode.getEdge
  addEdge := ScdawgNode.setEdge
  moveEdge := ScdawgNode.setEdge
  link := ScdawgNode.suffixLink
  setLink n target := { n with suffixLink := some target }
  length := ScdawgNode.length

/-! ## The dictionary -/

structure ScdawgCoreInner (U V : Type) where
  nodes : List (ScdawgNode U V)
  last : Nat
  termCount : Nat
  terms : List (List U)
  sortedTermIndices : List Nat
  termSet : List (List U)
  termValues : List U → Option V
  leftEdgesComputed : Bool

namespace ScdawgCoreInner

section
variable [Inhabited U]

def new : ScdawgCoreInner U V := ⟨[.root], 0, 0, [], [], [], fun _ => none, false⟩

def newNode (last : Nat) (c : U) (lastNode : ScdawgNode U V) : ScdawgNode U V :=
  { ScdawgNode.new (lastNode.length + 1) (some 0) (if lastNode.length = 0 then c else lastNode.firstChar) with
    parent := some last, parentLabel := c, depth := lastNode.depth + 1 }

def clonedNode (c : U) (p : Nat) (pNode qNode : ScdawgNode U V) : ScdawgNode U V :=
  { qNode with
    length := pNode.length + 1
    firstChar := if pNode.length = 0 then c else pNode.firstChar
    parent := some p, parentLabel := c, depth := pNode.depth + 1
    termEnds := [], isFinal := false, value := none }

variable (inner : ScdawgCoreInner U V)

def saExtend (c : U) (termIdx pos : Nat) : Option (ScdawgCoreInner U V) := do
  let cur := inner.nodes.length
  let nodes ← SuffixClasses.extend nodeOps (newNode inner.last c) (clonedNode c) inner.last c inner.nodes
  let nodes := nodes.modify cur fun n => { n with termEnds := n.termEnds ++ [(termIdx, pos)] }
  return { inner with nodes, last := cur, leftEdgesComputed := false }

def insert (term : List U) : Option (ScdawgCoreInner U V × Bool) :=
  if term ∈ inner.termSet then some (inner, false)
  else do
    let termIdx := inner.termCount
    let inner ← term.zipIdx.foldlM (fun inner e => inner.saExtend e.1 termIdx e.2) { inner with last := 0 }
    let nodes := inner.nodes.modify inner.last fun n => { n with isFinal := true }
    let terms := inner.terms ++ [term]
    let sortedPosition := (inner.sortedTermIndices.takeWhile fun index => decide (terms.getD index [] < term)).length
    return ({ inner with
      nodes, terms, termSet := term :: inner.termSet, termCount := inner.termCount + 1
      sortedTermIndices := inner.sortedTermIndices.insertIdx sortedPosition termIdx }, true)

end

def findSubstringFast (inner : ScdawgCoreInner U V) (pattern : List U) : Option Nat :=
  pattern.foldlM (fun current unit => inner.nodes[current]?.bind (·.getEdge unit)) 0

def containsSubstring (inner : ScdawgCoreInner U V) (pattern : List U) : Bool := (inner.findSubstringFast pattern).isSome

def insertWithValue [Inhabited U] (inner : ScdawgCoreInner U V) (term : List U) (value : V) :
    Option (ScdawgCoreInner U V × Bool) :=
  if term ∈ inner.termSet then
    let nodes := match inner.findSubstringFast term with
      | some node => inner.nodes.modify node fun n => if n.isFinal then { n with value := some value } else n
      | none => inner.nodes
    some ({ inner with nodes, termValues := Function.update inner.termValues term (some value) }, false)
  else do
    let (inner, added) ← inner.insert term
    if added then
      let nodes := inner.nodes.modify inner.last fun n => { n with value := some value }
      return ({ inner with nodes, termValues := Function.update inner.termValues term (some value) }, true)
    else return (inner, false)

section
omit [LinearOrder U]

def addLeftEdge (nodes : List (ScdawgNode U V)) (nodeIdx : Nat) : List (ScdawgNode U V) :=
  match nodes[nodeIdx]? with
  | none => nodes
  | some n => match n.suffixLink with
    | none => nodes
    | some target => nodes.modify target fun t => { t with leftEdges := t.leftEdges ++ [(n.firstChar, nodeIdx)] }

variable (inner : ScdawgCoreInner U V)

def computeLeftEdges : ScdawgCoreInner U V :=
  if inner.leftEdgesComputed then inner
  else
    let nodes := inner.nodes.map fun n => { n with leftEdges := [] }
    { inner with nodes := (List.range' 1 (nodes.length - 1)).foldl addLeftEdge nodes, leftEdgesComputed := true }

/-- The nodes that `visit_left_edge_subtree` visits, in its order. -/
def visitLeftEdgeSubtree (node : Nat) : Option (List Nat) :=
  Preorder.visit (fun s => (inner.nodes[s]?.elim [] (·.leftEdges)).map Prod.snd) (2 * inner.nodes.length + 1) [(node, 0)] []

/-- The positions of a node, as starts of a pattern that ends there. -/
def termPositions (patternLen node : Nat) : List (List U × Nat) :=
  (inner.nodes[node]?.elim [] (·.termEnds)).filterMap fun (termIdx, endPos) =>
    if endPos + 1 ≥ patternLen then inner.terms[termIdx]?.map fun term => (term, endPos + 1 - patternLen) else none

def collectTermPositions (node patternLen : Nat) : Option (List (List U × Nat)) :=
  (inner.visitLeftEdgeSubtree node).map fun visited => visited.flatMap (inner.termPositions patternLen)

def countOccurrences (node : Nat) : Option Nat :=
  (inner.visitLeftEdgeSubtree node).map fun visited =>
    (visited.map fun s => (inner.nodes[s]?.elim [] (·.termEnds)).length).sum

end

def findExactSubstring (inner : ScdawgCoreInner U V) (pattern : List U) : Option (List (List U × Nat)) :=
  if pattern = [] then some (inner.terms.map fun t => (t, 0))
  else match inner.findSubstringFast pattern with
    | some endNode => inner.collectTermPositions endNode pattern.length
    | none => some []

def frequency (inner : ScdawgCoreInner U V) (pattern : List U) : Option Nat :=
  if pattern = [] then some (inner.terms.map fun t => t.length + 1).sum
  else match inner.findSubstringFast pattern with
    | some node => inner.countOccurrences node
    | none => some 0

end ScdawgCoreInner

/-! ## The wrapper

A record is a term, with a value or without. -/

section
variable [Inhabited U]

def insertOne (inner : ScdawgCoreInner U V) (record : List U × Option V) : Option (ScdawgCoreInner U V × Bool) :=
  match record.2 with
  | none => inner.insert record.1
  | some value => inner.insertWithValue record.1 value

-- the flag says whether one of the terms is new
def insertEach (inner : ScdawgCoreInner U V) (records : List (List U × Option V)) : Option (ScdawgCoreInner U V × Bool) :=
  records.foldlM (fun acc record => (insertOne acc.1 record).map fun e => (e.1, acc.2 || e.2)) (inner, false)

def refreshed (result : ScdawgCoreInner U V × Bool) : ScdawgCoreInner U V :=
  if result.2 then result.1.computeLeftEdges else result.1

/-- `Scdawg::from_terms`, or `Scdawg::from_terms_with_values` if there are values. -/
def fromRecords (records : List (List U × Option V)) : Option (ScdawgCoreInner U V) :=
  (insertEach .new records).map fun result => result.1.computeLeftEdges

end

inductive Call (U V : Type) where
  -- `insert`, or `insert_with_value` if there is a value
  | insert (record : List U × Option V)
  | extendRecords (records : List (List U × Option V))

def Call.records : Call U V → List (List U × Option V)
  | .insert record => [record]
  | .extendRecords records => records

def Call.run [Inhabited U] (inner : ScdawgCoreInner U V) : Call U V → Option (ScdawgCoreInner U V)
  | .insert record => (insertOne inner record).map refreshed
  | .extendRecords [] => some inner
  | .extendRecords records => (insertEach inner records).map refreshed

def make [Inhabited U] : Option (List (List U × Option V)) → Option (ScdawgCoreInner U V)
  | none => some .new
  | some records => fromRecords records

def runCalls [Inhabited U] (made : Option (List (List U × Option V))) (calls : List (Call U V)) :
    Option (ScdawgCoreInner U V) := do
  calls.foldlM Call.run (← make made)

/-- What `find_exact_substring_in_snapshot` reports of an occurrence. -/
structure SubstringMatch (U : Type) where
  nodeIdx : Nat
  term : List U
  position : Nat
  length : Nat

def findExactSubstringInSnapshot (inner : ScdawgCoreInner U V) (pattern : List U) : Option (List (SubstringMatch U)) :=
  (inner.findExactSubstring pattern).map fun occurrences => occurrences.map fun (term, position) =>
    let nodeIdx := (term.take (position + pattern.length)).foldl
      (fun nodeIdx unit => (inner.nodes[nodeIdx]?.bind (·.getEdge unit)).getD nodeIdx) 0
    ⟨nodeIdx, term, position, pattern.length⟩

/-! ## The operations on nodes -/

def ScdawgNode.Ok (n : ScdawgNode U V) : Prop := SortedEdges.Sorted n.forwardEdges

theorem edge_setEdge {n : ScdawgNode U V} (hn : n.Ok) (c : U) (t : Nat) (d : U) :
    (n.setEdge c t).getEdge d = if d = c then some t else n.getEdge d := by
  have hok : SortedEdges.Sorted (n.setEdge c t).forwardEdges := sorted_withEdge c t hn
  rw [ScdawgNode.getEdge, ScdawgNode.getEdge, find_eq_lookup 0 d hok, find_eq_lookup 0 d hn]
  exact lookup_withEdge c d t n.forwardEdges

theorem lawful_nodeOps : (nodeOps : NodeOps U (ScdawgNode U V)).Lawful ScdawgNode.Ok where
  edge_addEdge _ c t d hn := edge_setEdge hn c t d
  edge_moveEdge _ c t d hn _ := edge_setEdge hn c t d
  edge_setLink _ _ _ := rfl
  link_addEdge _ _ _ := rfl
  link_moveEdge _ _ _ := rfl
  link_setLink _ _ := rfl
  length_addEdge _ _ _ := rfl
  length_moveEdge _ _ _ := rfl
  length_setLink _ _ := rfl
  ok_addEdge _ c t hn := sorted_withEdge c t hn
  ok_moveEdge _ c t hn := sorted_withEdge c t hn
  ok_setLink _ _ hn := hn

theorem makes_nodeOps [Inhabited U] (last : Nat) (c : U) : Makes (nodeOps : NodeOps U (ScdawgNode U V)) ScdawgNode.Ok
    (ScdawgCoreInner.newNode last c) (ScdawgCoreInner.clonedNode c) where
  ok_new _ := List.Pairwise.nil
  edge_new _ _ := rfl
  length_new _ := rfl
  ok_clone _ _ _ hq := hq
  edge_clone _ _ _ _ := rfl
  link_clone _ _ _ := rfl
  length_clone _ _ _ := rfl

def core (n : ScdawgNode U V) : List (U × Nat) × Option Nat × Nat := (n.forwardEdges, n.suffixLink, n.length)

theorem readsCore_nodeOps : ReadsCore (nodeOps : NodeOps U (ScdawgNode U V)) ScdawgNode.Ok core where
  edge n m h := by
    funext d
    show find 0 d n.forwardEdges = find 0 d m.forwardEdges
    rw [(Prod.mk.inj h).1]
  link n m h := (Prod.mk.inj (Prod.mk.inj h).2).1
  length n m h := (Prod.mk.inj (Prod.mk.inj h).2).2
  ok n m h hn := by
    show SortedEdges.Sorted m.forwardEdges
    rw [← (Prod.mk.inj h).1]
    exact hn

theorem keeps_termEnds : Keeps (nodeOps : NodeOps U (ScdawgNode U V)) ScdawgNode.termEnds :=
  ⟨fun _ _ _ => rfl, fun _ _ _ => rfl, fun _ _ => rfl⟩

theorem modify_length_append {β : Type} (l r : List β) (b : β) (g : β → β) :
    (l ++ b :: r).modify l.length g = l ++ g b :: r := by
  induction l with
  | nil => rfl
  | cons a l ih => rw [cons_append, length_cons, modify_succ_cons, ih, cons_append]

/-! ## Positions -/

section
omit [LinearOrder U]

variable (terms : List (List U))

def positions : List (Nat × Nat) :=
  terms.zipIdx.flatMap fun e => (List.range e.1.length).map fun pos => (e.2, pos)

theorem positions_concat (t : List U) :
    positions (terms ++ [t]) = positions terms ++ (List.range t.length).map fun pos => (terms.length, pos) := by
  simp [positions, zipIdx_append]

theorem mem_positions {terms : List (List U)} {i pos : Nat} :
    (i, pos) ∈ positions terms ↔ ∃ t, terms[i]? = some t ∧ pos < t.length := by
  simp only [positions, mem_flatMap, mem_map, mem_range, Prod.mk.injEq]
  constructor
  · rintro ⟨⟨t, j⟩, hmem, pos', hlt, rfl, rfl⟩
    exact ⟨t, mem_zipIdx_iff_getElem?.1 hmem, hlt⟩
  · rintro ⟨t, ht, hlt⟩
    exact ⟨(t, i), mem_zipIdx_iff_getElem?.2 ht, pos, hlt, rfl, rfl⟩

theorem nodup_positions : (positions terms).Nodup := by
  induction terms using List.reverseRecOn with
  | nil => exact nodup_nil
  | append_singleton terms t ih =>
    rw [positions_concat, nodup_append]
    refine ⟨ih, (nodup_range).map fun a b h => (Prod.mk.inj h).2, fun e he e' he' heq => ?_⟩
    obtain ⟨pos, -, rfl⟩ := mem_map.1 he'
    obtain ⟨i, j⟩ := e
    obtain ⟨u, hu, -⟩ := mem_positions.1 he
    have := lt_of_node hu
    rw [(Prod.mk.inj heq).1] at this
    exact lt_irrefl _ this

end

/-- The terms are inserted, and `x` of the next one, up to the node `last`. -/
structure Inv (nodes : List (ScdawgNode U V)) (terms : List (List U)) (x : List U) (last : Nat) : Prop where
  -- a node with a position has the beginning of the term up to there as its word
  reading : ∃ word, Reading nodeOps ScdawgNode.Ok nodes word terms x last ∧
    ∀ (s : Nat) ends, (nodes.map ScdawgNode.termEnds)[s]? = some ends → ∀ e ∈ ends, ∃ t, (terms ++ [x])[e.1]? = some t ∧
      e.2 < t.length ∧ word s = t.take (e.2 + 1)
  ends : (nodes.map ScdawgNode.termEnds).flatten = positions (terms ++ [x])

namespace Inv

variable {nodes nodes' : List (ScdawgNode U V)} {terms : List (List U)} {x : List U} {last : Nat}

theorem congr (hcore : nodes'.map core = nodes.map core)
    (hends : nodes'.map ScdawgNode.termEnds = nodes.map ScdawgNode.termEnds) (h : Inv nodes terms x last) :
    Inv nodes' terms x last := by
  obtain ⟨word, hread, hword⟩ := h.reading
  exact ⟨⟨word, Reading.congr readsCore_nodeOps hcore hread, hends ▸ hword⟩, hends ▸ h.ends⟩

theorem finish (h : Inv nodes terms x last) : Inv nodes (terms ++ [x]) [] 0 := by
  obtain ⟨word, hread, hword⟩ := h.reading
  refine ⟨⟨word, hread.finish, fun s ends hs e he => ?_⟩, ?_⟩
  · obtain ⟨t, ht, hlt, hw⟩ := hword s ends hs e he
    exact ⟨t, by rw [getElem?_append_left (lt_of_node ht), ht], hlt, hw⟩
  · rw [h.ends, positions_concat (terms ++ [x])]
    exact (append_nil _).symm

omit [LinearOrder U] in
theorem exists_longer {i pos : Nat} {t : List U} (ht : (terms ++ [x])[i]? = some t) (hpos : pos < t.length) (c : U) :
    ∃ t', (terms ++ [x ++ [c]])[i]? = some t' ∧ pos < t'.length ∧ t'.take (pos + 1) = t.take (pos + 1) := by
  by_cases hi : i < terms.length
  · rw [getElem?_append_left hi] at ht ⊢
    exact ⟨t, ht, hpos, rfl⟩
  · have hi' : i = terms.length := by
      have := lt_of_node ht
      rw [length_append, length_singleton] at this
      omega
    rw [hi', getElem?_concat_length] at ht ⊢
    cases ht
    refine ⟨x ++ [c], rfl, ?_, take_append_of_le_length hpos⟩
    rw [length_append]
    omega

theorem exists_termEnds [Inhabited U] {c : U} {e : Nat × Nat}
    (hok : SuffixClasses.extend nodeOps (ScdawgCoreInner.newNode last c) (ScdawgCoreInner.clonedNode c) last c nodes =
      some nodes') : ∃ rest : List (List (Nat × Nat)), (∀ ends ∈ rest, ends = []) ∧
      (nodes'.modify nodes.length fun n => { n with termEnds := n.termEnds ++ [e] }).map ScdawgNode.termEnds =
        nodes.map ScdawgNode.termEnds ++ [e] :: rest := by
  obtain ⟨lastNode, -, hmap⟩ := extend_map keeps_termEnds hok
  have hmodify : (nodes'.modify nodes.length fun n => { n with termEnds := n.termEnds ++ [e] }).map ScdawgNode.termEnds =
      (nodes'.map ScdawgNode.termEnds).modify (nodes.map ScdawgNode.termEnds).length fun ends => ends ++ [e] := by
    refine ext_getElem? fun i => ?_
    simp only [List.length_map, List.getElem?_map, List.getElem?_modify, Option.map_eq_map, Option.map_map]
    congr 1
    funext n
    simp only [Function.comp]
    split <;> rfl
  rcases hmap with hmap | ⟨p, pNode, qNode, hmap⟩
  · refine ⟨[], nofun, ?_⟩
    rw [hmodify, hmap, modify_length_append]
    rfl
  · refine ⟨[[]], fun ends he => mem_singleton.1 he, ?_⟩
    rw [hmodify, hmap, modify_length_append]
    rfl

theorem saExtend [Inhabited U] {inner : ScdawgCoreInner U V} (h : Inv inner.nodes terms x inner.last) (c : U) :
    ∃ nodes' last', inner.saExtend c terms.length x.length =
        some { inner with nodes := nodes', last := last', leftEdgesComputed := false } ∧
      Inv nodes' terms (x ++ [c]) last' := by
  obtain ⟨word, hread, hword⟩ := h.reading
  obtain ⟨nodes₁, word₁, hok, hext, hread₁⟩ := hread.extend lawful_nodeOps (makes_nodeOps inner.last c) c
  obtain ⟨rest, hrest, hends⟩ := exists_termEnds (e := (terms.length, x.length)) hok
  refine ⟨_, inner.nodes.length, by simp only [ScdawgCoreInner.saExtend, hok]; rfl, ⟨word₁, ?_, ?_⟩, ?_⟩
  · refine Reading.congr readsCore_nodeOps ?_ hread₁
    apply map_modify_of_keep
    intro n
    rfl
  · intro s ends hs e he
    rw [hends] at hs
    rcases lt_trichotomy s inner.nodes.length with hlt | rfl | hgt
    · rw [getElem?_append_left (by rwa [length_map])] at hs
      obtain ⟨t, ht, hpos, hw⟩ := hword s ends hs e he
      obtain ⟨t', ht', hpos', htake⟩ := exists_longer ht hpos c
      exact ⟨t', ht', hpos', by rw [hext.word_old s hlt, hw, htake]⟩
    · rw [getElem?_append_right (by rw [length_map]), length_map, Nat.sub_self] at hs
      cases hs
      rw [mem_singleton.1 he]
      refine ⟨x ++ [c], getElem?_concat_length, by simp, ?_⟩
      rw [hext.word_cur, hread.word_last, take_of_length_le (by simp)]
    · rw [getElem?_append_right (by rw [length_map]; omega), length_map,
        show s - inner.nodes.length = (s - inner.nodes.length - 1) + 1 by omega, getElem?_cons_succ] at hs
      rw [hrest ends (mem_of_getElem? hs)] at he
      cases he
  · have hnil : rest.flatten = [] := flatten_eq_nil_iff.2 hrest
    rw [hends, flatten_append, flatten_cons, hnil, append_nil, h.ends, positions_concat, positions_concat,
      length_append, length_singleton, range_succ, map_append, append_assoc]
    rfl

end Inv

end Dictenstein.Scdawg
