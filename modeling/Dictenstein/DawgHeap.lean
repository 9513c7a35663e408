import Mathlib.Data.List.GetD
import Mathlib.Data.List.Lex
import Dictenstein.SortedEdges
/-!
# DawgHeap — the nodes of the lock-free DAWG and the copying of a path

`dynamic_dawg/lockfree.rs`.  Nodes are reference-counted and immutable once they are published; a writer copies the path
from the root to the term and shares everything else.
-/
namespace Dictenstein.Dawg

open List Option SortedEdges

structure DawgNode (U V : Type) where
  edges : List (U × Nat)
  isFinal : Bool
  value : Option V
  -- the number that a minimizing build gives; copies have none
  snapshotId : Option Nat
deriving DecidableEq, Repr

def DawgNode.new {U V : Type} (isFinal : Bool) : DawgNode U V := ⟨[], isFinal, none, none⟩

abbrev Heap (U V : Type) := List (DawgNode U V)

def edgeLinearScanLimit : Nat := 16

variable {U V : Type}

namespace Heap

def node (h : Heap U V) (p : Nat) : DawgNode U V := h.getD p (.new false)

def alloc (h : Heap U V) (n : DawgNode U V) : Nat × Heap U V := (h.length, h ++ [n])

variable [LinearOrder U]

section
variable (h : Heap U V)

def find (p : Nat) (label : U) : Option Nat :=
  SortedEdges.find edgeLinearScanLimit label (h.node p).edges

def childOrNew (p : Nat) (label : U) : Nat × Heap U V :=
  match h.find p label with
  | some child => (child, h)
  | none => h.alloc (.new false)

def findNodeFrom (h : Heap U V) : Nat → List U → Option Nat
  | p, [] => some p
  | p, label :: units => (h.find p label).bind fun child => findNodeFrom h child units

/-- What a node says about the term it ends: absent, or present with an optional value. -/
def entryOf (n : DawgNode U V) : Option (Option V) := if n.isFinal then some n.value else none

def entryAt (p : Nat) (units : List U) : Option (Option V) :=
  (h.findNodeFrom p units).bind fun q => entryOf (h.node q)

/-- The addresses of the nodes below `p`, with repetitions; nodes deeper than the fuel are left out. -/
def nodesFrom (h : Heap U V) : Nat → Nat → List Nat
  | 0, _ => []
  | fuel + 1, p => p :: (h.node p).edges.flatMap fun e => nodesFrom h fuel e.2

/-- `count_unique_nodes_from`.  An edge goes to a smaller address, so `root + 1` is depth enough. -/
def countUniqueNodesFrom (root : Nat) : Nat := (h.nodesFrom (root + 1) root).dedup.length

def visibleEntries (h : Heap U V) : Nat → List U → Nat → List (List U × Option V)
  | 0, _, _ => []
  | fuel + 1, path, p =>
    (if (h.node p).isFinal then [(path, (h.node p).value)] else []) ++
      (h.node p).edges.flatMap fun e => visibleEntries h fuel (path ++ [e.1]) e.2

/-- `collect_visible_entries_from`: depth first, the edges in order. -/
def collectVisibleEntriesFrom (root : Nat) : List (List U × Option V) :=
  h.visibleEntries (root + 1) [] root

end

end Heap

structure TerminalEdit (V : Type) where
  isFinal : Bool
  value : Option V
  inserted : Bool

structure Rewrite where
  node : Nat
  changed : Bool
  inserted : Bool
deriving DecidableEq

/-- `rewrite_path`: down the term, making the nodes that are missing, and up again copying. `terminal` is the edit of the
last node; without one nothing is copied. -/
def rewritePath [LinearOrder U] (terminal : DawgNode U V → Option (TerminalEdit V)) :
    Heap U V → Nat → List U → Rewrite × Heap U V
  | h, p, [] => match terminal (h.node p) with
    | none => (⟨p, false, false⟩, h)
    | some edit =>
      let (q, h) := h.alloc ⟨(h.node p).edges, edit.isFinal, edit.value, none⟩
      (⟨q, true, edit.inserted⟩, h)
  | h, p, label :: units =>
    let (child, h) := h.childOrNew p label
    let (rewrite, h) := rewritePath terminal h child units
    if !rewrite.changed then (⟨p, false, false⟩, h)
    else
      let parent := h.node p
      let (q, h) := h.alloc ⟨withEdge label rewrite.node parent.edges, parent.isFinal, parent.value, none⟩
      (⟨q, true, rewrite.inserted⟩, h)

namespace Heap

variable [LinearOrder U]

/-- Edges are sorted and go to nodes made before; only final nodes have a value. -/
structure WellFormed (h : Heap U V) : Prop where
  sorted : ∀ n ∈ h, SortedEdges.Sorted n.edges
  below : ∀ p < h.length, ∀ e ∈ (h.node p).edges, e.2 < p
  clean : ∀ n ∈ h, n.isFinal = false → n.value = none

section
omit [LinearOrder U]

theorem node_mem {h : Heap U V} {p : Nat} (hp : p < h.length) : h.node p ∈ h := by
  unfold node
  rw [getD_eq_getElem _ _ hp]
  exact getElem_mem hp

theorem node_of_isPrefix {h h' : Heap U V} (hpre : h <+: h') {p : Nat} (hp : p < h.length) : h'.node p = h.node p := by
  obtain ⟨t, rfl⟩ := hpre
  unfold node
  rw [getD_append _ _ _ _ hp]

@[simp] theorem node_alloc (h : Heap U V) (n : DawgNode U V) : node (h ++ [n]) h.length = n := by
  simp [node]

end

variable {h h' : Heap U V} {p : Nat}

theorem WellFormed.alloc (hwf : h.WellFormed) {n : DawgNode U V} (hsorted : SortedEdges.Sorted n.edges)
    (hbelow : ∀ e ∈ n.edges, e.2 < h.length) (hclean : n.isFinal = false → n.value = none) :
    WellFormed (h ++ [n]) := by
  constructor
  · exact forall_mem_append.2 ⟨hwf.sorted, forall_mem_singleton.2 hsorted⟩
  · intro q hq e he
    by_cases hlt : q < h.length
    · rw [node_of_isPrefix (prefix_append h [n]) hlt] at he
      exact hwf.below q hlt e he
    · obtain rfl : q = h.length := by simp at hq; omega
      rw [node_alloc] at he
      exact hbelow e he
  · exact forall_mem_append.2 ⟨hwf.clean, forall_mem_singleton.2 hclean⟩

theorem WellFormed.find_eq (hwf : h.WellFormed) (hp : p < h.length) (label : U) :
    h.find p label = (h.node p).edges.lookup label :=
  find_eq_lookup _ label (hwf.sorted _ (node_mem hp))

theorem WellFormed.find_lt (hwf : h.WellFormed) (hp : p < h.length) {label : U} {q : Nat} (hq : h.find p label = some q) :
    q < p := by
  rw [hwf.find_eq hp] at hq
  exact hwf.below p hp _ (mem_of_lookup hq)

theorem entryAt_nil (h : Heap U V) (p : Nat) : h.entryAt p [] = entryOf (h.node p) := rfl

theorem entryAt_cons (h : Heap U V) (p : Nat) (label : U) (units : List U) :
    h.entryAt p (label :: units) = (h.find p label).bind fun q => h.entryAt q units := by
  unfold entryAt
  rw [findNodeFrom, bind_assoc]

theorem entryAt_of_isPrefix (hwf : h.WellFormed) (hpre : h <+: h') : ∀ (units : List U) {p : Nat}, p < h.length →
    h'.entryAt p units = h.entryAt p units
  | [], p, hp => by rw [entryAt_nil, entryAt_nil, node_of_isPrefix hpre hp]
  | label :: units, p, hp => by
    have hfind : h'.find p label = h.find p label := by
      unfold find
      rw [node_of_isPrefix hpre hp]
    rw [entryAt_cons, entryAt_cons, hfind]
    cases hq : h.find p label with
    | none => rfl
    | some q => exact entryAt_of_isPrefix hwf hpre units (lt_trans (hwf.find_lt hp hq) hp)

/-- The node a term ends at, or the empty node that would be made for it. -/
def terminalNode (h : Heap U V) (p : Nat) (units : List U) : DawgNode U V :=
  match h.findNodeFrom p units with
  | some q => h.node q
  | none => .new false

theorem WellFormed.findNodeFrom_lt (hwf : h.WellFormed) : ∀ (units : List U) {p q : Nat}, p < h.length →
    h.findNodeFrom p units = some q → q < h.length
  | [], p, q, hp, hq => (some.inj hq) ▸ hp
  | label :: units, p, q, hp, hq => by
    obtain ⟨c, hc, hq⟩ := bind_eq_some_iff.1 hq
    exact hwf.findNodeFrom_lt units (lt_trans (hwf.find_lt hp hc) hp) hq

theorem WellFormed.terminalNode_clean (hwf : h.WellFormed) (hp : p < h.length) (units : List U)
    (hf : (h.terminalNode p units).isFinal = false) : (h.terminalNode p units).value = none := by
  unfold terminalNode at *
  cases hq : h.findNodeFrom p units with
  | none => rfl
  | some q =>
    rw [hq] at hf
    exact hwf.clean _ (node_mem (hwf.findNodeFrom_lt units hp hq)) hf

theorem entryOf_terminalNode (h : Heap U V) (p : Nat) (units : List U) :
    entryOf (h.terminalNode p units) = h.entryAt p units := by
  unfold terminalNode entryAt
  cases h.findNodeFrom p units <;> rfl

/-! ## The visible entries -/

theorem WellFormed.find_of_mem (hwf : h.WellFormed) (hp : p < h.length) {e : U × Nat} (he : e ∈ (h.node p).edges) :
    h.find p e.1 = some e.2 := by
  rw [hwf.find_eq hp]
  exact lookup_of_mem (hwf.sorted _ (node_mem hp)) he

theorem mem_visibleEntries (hwf : h.WellFormed) : ∀ (fuel : Nat) (path : List U) {p : Nat}, p < h.length → p < fuel →
    ∀ k v, (k, v) ∈ h.visibleEntries fuel path p ↔ ∃ rest, k = path ++ rest ∧ h.entryAt p rest = some v
  | fuel + 1, path, p, hp, hfuel, k, v => by
    have hchild : ∀ e ∈ (h.node p).edges, e.2 < h.length ∧ e.2 < fuel := fun e he => by
      have := hwf.below p hp e he
      omega
    rw [visibleEntries, mem_append, mem_flatMap]
    constructor
    · rintro (hmem | ⟨e, he, hmem⟩)
      · split at hmem
        · rename_i hfinal
          obtain ⟨rfl, rfl⟩ := Prod.mk.inj (mem_singleton.1 hmem)
          exact ⟨[], by simp, by rw [entryAt_nil, entryOf, if_pos hfinal]⟩
        · cases hmem
      · obtain ⟨hlt, hlt'⟩ := hchild e he
        obtain ⟨rest, rfl, hrest⟩ := (mem_visibleEntries hwf fuel _ hlt hlt' k v).1 hmem
        refine ⟨e.1 :: rest, by simp, ?_⟩
        rw [entryAt_cons, hwf.find_of_mem hp he]
        exact hrest
    · rintro ⟨rest, rfl, hrest⟩
      cases rest with
      | nil =>
        rw [entryAt_nil, entryOf] at hrest
        split at hrest
        · rename_i hfinal
          left
          rw [if_pos hfinal, ← some.inj hrest]
          simp
        · cases hrest
      | cons u rest =>
        right
        rw [entryAt_cons] at hrest
        obtain ⟨c, hc, hrest⟩ := bind_eq_some_iff.1 hrest
        have he : (u, c) ∈ (h.node p).edges := by
          rw [hwf.find_eq hp] at hc
          exact mem_of_lookup hc
        obtain ⟨hlt, hlt'⟩ := hchild _ he
        exact ⟨(u, c), he, (mem_visibleEntries hwf fuel _ hlt hlt' _ v).2 ⟨rest, by simp, hrest⟩⟩

theorem sorted_visibleEntries (hwf : h.WellFormed) : ∀ (fuel : Nat) (path : List U) {p : Nat}, p < h.length → p < fuel →
    (h.visibleEntries fuel path p).Pairwise (fun a b => a.1 < b.1)
  | fuel + 1, path, p, hp, hfuel => by
    have hchild : ∀ e ∈ (h.node p).edges, e.2 < h.length ∧ e.2 < fuel := fun e he => by
      have := hwf.below p hp e he
      omega
    have hbelow : ∀ e ∈ (h.node p).edges, ∀ x ∈ h.visibleEntries fuel (path ++ [e.1]) e.2, ∃ rest,
      x.1 = path ++ e.1 :: rest := by
      intro e he x hx
      obtain ⟨hlt, hlt'⟩ := hchild e he
      obtain ⟨rest, hrest, -⟩ := (mem_visibleEntries hwf fuel _ hlt hlt' x.1 x.2).1 hx
      exact ⟨rest, by simpa using hrest⟩
    rw [visibleEntries, pairwise_append, pairwise_flatMap]
    refine ⟨?_, ⟨fun e he => ?_, ?_⟩, ?_⟩
    · split
      · exact pairwise_singleton _ _
      · exact List.Pairwise.nil
    · obtain ⟨hlt, hlt'⟩ := hchild e he
      exact sorted_visibleEntries hwf fuel _ hlt hlt'
    · refine (hwf.sorted _ (node_mem hp)).imp_of_mem fun {e e'} he he' hlt x hx y hy => ?_
      obtain ⟨rest, hx⟩ := hbelow e he x hx
      obtain ⟨rest', hy⟩ := hbelow e' he' y hy
      rw [hx, hy]
      exact append_left_lt (cons_lt_cons_iff.2 (Or.inl hlt))
    · intro x hx y hy
      obtain ⟨e, he, hy⟩ := mem_flatMap.1 hy
      obtain ⟨rest, hy⟩ := hbelow e he y hy
      split at hx
      · rw [mem_singleton.1 hx, hy]
        have hlt : path ++ [] < path ++ e.1 :: rest := append_left_lt (nil_lt_cons e.1 rest)
        simpa using hlt
      · cases hx

theorem mem_collectVisibleEntriesFrom (hwf : h.WellFormed) (hp : p < h.length) {k : List U} {v : Option V} :
    (k, v) ∈ h.collectVisibleEntriesFrom p ↔ h.entryAt p k = some v := by
  unfold collectVisibleEntriesFrom
  rw [mem_visibleEntries hwf (p + 1) [] hp (Nat.lt_succ_self p)]
  simp

theorem sorted_collectVisibleEntriesFrom (hwf : h.WellFormed) (hp : p < h.length) :
    (h.collectVisibleEntriesFrom p).Pairwise (fun a b => a.1 < b.1) :=
  sorted_visibleEntries hwf (p + 1) [] hp (Nat.lt_succ_self p)

/-! ## Copying a path -/

structure Extends (h h' : Heap U V) : Prop where
  pre : h <+: h'
  wf : h'.WellFormed

theorem Extends.length_le (he : h.Extends h') : h.length ≤ h'.length := he.pre.length_le

theorem Extends.trans {h'' : Heap U V} (he : h.Extends h') (he' : h'.Extends h'') : h.Extends h'' :=
  ⟨he.pre.trans he'.pre, he'.wf⟩

theorem WellFormed.refl (hwf : h.WellFormed) : h.Extends h := ⟨prefix_rfl, hwf⟩

theorem WellFormed.alloc_new (hwf : h.WellFormed) (b : Bool) : h.Extends (h ++ [.new b]) :=
  ⟨prefix_append _ _, hwf.alloc List.Pairwise.nil (fun _ => nofun) (fun _ => rfl)⟩

theorem find_new (h : Heap U V) (label : U) : find (h ++ [.new false]) h.length label = none := by
  rw [find, node_alloc]
  rfl

theorem entryAt_new (h : Heap U V) (units : List U) : entryAt (h ++ [.new false]) h.length units = none := by
  cases units with
  | nil => rw [entryAt_nil, node_alloc]; rfl
  | cons label units => rw [entryAt_cons, find_new]; rfl

theorem childOrNew_spec (hwf : h.WellFormed) (hp : p < h.length) (label : U) (units : List U) :
    h.Extends (h.childOrNew p label).2 ∧ (h.childOrNew p label).1 < (h.childOrNew p label).2.length ∧
      (h.childOrNew p label).2.terminalNode (h.childOrNew p label).1 units = h.terminalNode p (label :: units) ∧
      ∀ k, (h.childOrNew p label).2.entryAt (h.childOrNew p label).1 k = h.entryAt p (label :: k) := by
  unfold childOrNew
  cases hq : h.find p label with
  | some q =>
    refine ⟨hwf.refl, lt_trans (hwf.find_lt hp hq) hp, ?_, fun k => ?_⟩
    · simp only [terminalNode, findNodeFrom, hq, bind_some]
    · rw [entryAt_cons, hq]
      rfl
  | none =>
    refine ⟨hwf.alloc_new false, by simp [alloc], ?_, fun k => ?_⟩
    · cases units with
      | nil => simp [terminalNode, findNodeFrom, hq, alloc]
      | cons u units => simp only [terminalNode, findNodeFrom, hq, alloc, find_new, bind_none]
    · rw [entryAt_cons, hq]
      exact entryAt_new h k

theorem entryAt_copy (hwf : h.WellFormed) (hp : p < h.length) (label : U) {q : Nat} (hq : q < h.length) :
    h.Extends (h ++ [⟨withEdge label q (h.node p).edges, (h.node p).isFinal, (h.node p).value, none⟩]) ∧
      ∀ k, entryAt (h ++ [⟨withEdge label q (h.node p).edges, (h.node p).isFinal, (h.node p).value, none⟩])
        h.length k = match k with
          | [] => h.entryAt p []
          | u :: us => if u = label then h.entryAt q us else h.entryAt p (u :: us) := by
  have hsorted := sorted_withEdge label q (hwf.sorted _ (node_mem hp))
  have hext : h.Extends
      (h ++ [⟨withEdge label q (h.node p).edges, (h.node p).isFinal, (h.node p).value, none⟩]) := by
    refine ⟨prefix_append _ _, hwf.alloc hsorted (fun e he => ?_) (hwf.clean (h.node p) (node_mem hp))⟩
    rcases mem_withEdge he with rfl | he
    · exact hq
    · exact lt_trans (hwf.below p hp e he) hp
  refine ⟨hext, fun k => ?_⟩
  cases k with
  | nil => rw [entryAt_nil, node_alloc]; rfl
  | cons u us =>
    simp only
    rw [entryAt_cons, hext.wf.find_eq (by simp), node_alloc, SortedEdges.lookup_withEdge]
    by_cases hu : u = label
    · rw [if_pos hu, if_pos hu]
      exact entryAt_of_isPrefix hwf hext.pre us hq
    · rw [if_neg hu, if_neg hu, entryAt_cons, ← hwf.find_eq hp]
      cases hc : h.find p u with
      | none => rfl
      | some c => exact entryAt_of_isPrefix hwf hext.pre us (lt_trans (hwf.find_lt hp hc) hp)

end Heap

/-- With no edit the old root, and otherwise a root that differs from the old one at the term alone. -/
structure Rewritten [LinearOrder U] (h : Heap U V) (p : Nat) (units : List U) (edit : Option (TerminalEdit V))
    (r : Rewrite × Heap U V) : Prop where
  extend : h.Extends r.2
  node_lt : r.1.node < r.2.length
  unchanged : edit = none → r.1 = ⟨p, false, false⟩
  changed : ∀ e, edit = some e → r.1.changed = true ∧ r.1.inserted = e.inserted ∧
    ∀ k, r.2.entryAt r.1.node k = if k = units then Heap.entryOf (⟨[], e.isFinal, e.value, none⟩ : DawgNode U V)
      else h.entryAt p k

/-- **Copying a path changes one key**, as the edit of the node at its end says. -/
theorem rewritePath_spec [LinearOrder U] {terminal : DawgNode U V → Option (TerminalEdit V)}
    (hclean : ∀ n edit, terminal n = some edit → edit.isFinal = false → edit.value = none) :
    ∀ (units : List U) {h : Heap U V} {p : Nat}, h.WellFormed → p < h.length →
      Rewritten h p units (terminal (h.terminalNode p units)) (rewritePath terminal h p units)
  | [], h, p, hwf, hp => by
    have hnode : h.terminalNode p [] = h.node p := rfl
    rw [hnode, rewritePath]
    cases hedit : terminal (h.node p) with
    | none =>
      exact ⟨hwf.refl, hp, fun _ => rfl, fun _ => nofun⟩
    | some edit =>
      have hext : h.Extends (h ++ [⟨(h.node p).edges, edit.isFinal, edit.value, none⟩]) :=
        ⟨prefix_append _ _, hwf.alloc (hwf.sorted (h.node p) (Heap.node_mem hp))
          (fun e he => lt_trans (hwf.below p hp e he) hp) (hclean _ edit hedit)⟩
      refine ⟨hext, by simp [Heap.alloc], nofun, ?_⟩
      rintro _ ⟨⟩
      refine ⟨rfl, rfl, fun k => ?_⟩
      show Heap.entryAt (h ++ [_]) h.length k = _
      cases k with
      | nil => rw [Heap.entryAt_nil, Heap.node_alloc]; rfl
      | cons u us =>
        rw [if_neg (cons_ne_nil _ _), Heap.entryAt_cons, hext.wf.find_eq (by simp), Heap.node_alloc,
          Heap.entryAt_cons, ← hwf.find_eq hp]
        cases hc : h.find p u with
        | none => rfl
        | some c => exact Heap.entryAt_of_isPrefix hwf hext.pre us (lt_trans (hwf.find_lt hp hc) hp)
  | label :: units, h, p, hwf, hp => by
    obtain ⟨hext₁, hchild, hterm, hentry⟩ := Heap.childOrNew_spec hwf hp label units
    rw [← hterm, rewritePath]
    generalize h.childOrNew p label = cn at *
    obtain ⟨child, h₁⟩ := cn
    obtain ⟨hext₂, hlt, hunchanged, hchanged⟩ := rewritePath_spec hclean units hext₁.wf hchild
    dsimp only at *
    generalize rewritePath terminal h₁ child units = r at *
    obtain ⟨r, h₂⟩ := r
    dsimp only at *
    have hext := hext₁.trans hext₂
    cases hedit : terminal (h₁.terminalNode child units) with
    | none =>
      have hr : r = ⟨child, false, false⟩ := hunchanged hedit
      rw [hr]
      exact ⟨hext, lt_of_lt_of_le hp hext.length_le, fun _ => rfl, fun _ => nofun⟩
    | some edit =>
      obtain ⟨hch, hins, hnew⟩ := hchanged edit hedit
      have hp' : p < h₂.length := lt_of_lt_of_le hp hext.length_le
      obtain ⟨hext₃, hcopy⟩ := Heap.entryAt_copy hext₂.wf hp' label hlt
      simp only [hch, Bool.not_true, Bool.false_eq_true, if_false]
      refine ⟨hext.trans hext₃, by simp [Heap.alloc], nofun, ?_⟩
      rintro _ ⟨⟩
      refine ⟨rfl, hins, fun k => ?_⟩
      show Heap.entryAt (h₂ ++ [_]) h₂.length k = _
      rw [hcopy]
      cases k with
      | nil =>
        rw [if_neg (cons_ne_nil _ _).symm]
        exact Heap.entryAt_of_isPrefix hwf hext.pre [] hp
      | cons u us =>
        simp only
        by_cases hu : u = label
        · subst hu
          rw [if_pos rfl, hnew us, hentry us]
          simp
        · rw [if_neg hu, if_neg (fun h => hu (List.cons.inj h).1)]
          exact Heap.entryAt_of_isPrefix hwf hext.pre _ hp

end Dictenstein.Dawg
