import Dictenstein.DatShared
import Dictenstein.EdgeStore
import Mathlib.Data.Char
/-!
# StaticTrie — the trie that a static double array is built from

`StaticDATBuilder` of `double_array_trie/core/builder.rs` in its first phase: terms are inserted into an ordinary trie whose
nodes lie in one vector.
-/
namespace Dictenstein.Dat

open SortedEdges Function List Option Paths
open Paths (Tree walk_concat_eq_some)

/-- `DoubleArrayUnit`: labels with their place in the double array. -/
class DoubleArrayUnit (U : Type) [LinearOrder U] [DatUnit U] where
  code : U → Nat
  code_eq : ∀ u, code u = toDatOffset u
  strictMono : StrictMono code
  le : ∀ u, code u ≤ i32Max

export DoubleArrayUnit (code)

section
open scoped AdaptiveLabel

instance : DoubleArrayUnit UInt8 where
  code := UInt8.toNat
  code_eq _ := rfl
  strictMono _ _ h := h
  le u := Nat.le_trans (Nat.le_of_lt u.toNat_lt) (by decide)

end

instance : DoubleArrayUnit Char where
  code := Char.toNat
  code_eq _ := rfl
  strictMono _ _ h := h
  le u := by
    have hvalid : u.toNat < 55296 ∨ (57343 < u.toNat ∧ u.toNat < 1114112) := u.valid
    unfold i32Max
    omega

structure TrieNode (U V : Type) where
  edges : List (U × Nat)
  isFinal : Bool
  value : Option V

def TrieNode.new {U V : Type} : TrieNode U V := ⟨[], false, none⟩

structure StaticDATBuilder (U V : Type) where
  nodes : List (TrieNode U V)
  termCount : Nat

namespace StaticDATBuilder

variable {U V : Type} [LinearOrder U]

def new : StaticDATBuilder U V := ⟨[TrieNode.new], 0⟩

variable (b : StaticDATBuilder U V)

variable (state : Nat)

def node : TrieNode U V := b.nodes.getD state .new

def child (label : U) : StaticDATBuilder U V × Nat :=
  match binarySearchByKey label (b.node state).edges with
  | .ok index => (b, ((b.node state).edges.getD index (label, 0)).2)
  | .error index =>
    let child := b.nodes.length
    let nodes := b.nodes ++ [TrieNode.new]
    ({ b with nodes := nodes.modify state fun n => { n with edges := n.edges.insertIdx index (label, child) } }, child)

def descend : StaticDATBuilder U V → Nat → List U → StaticDATBuilder U V × Nat
  | b, state, [] => (b, state)
  | b, state, label :: term => descend (b.child state label).1 (b.child state label).2 term

/-- The end of an insertion: the node is final from now on, and `none` does not replace a value. -/
def finish (value : Option V) : Bool × StaticDATBuilder U V :=
  let inserted := !(b.node state).isFinal
  let b := if inserted then
      ⟨b.nodes.modify state fun n => { n with isFinal := true }, b.termCount + 1⟩
    else b
  (inserted, if value.isSome || inserted then { b with nodes := b.nodes.modify state fun n => { n with value := value } }
    else b)

def insert (term : List U) (value : Option V) : Bool × StaticDATBuilder U V :=
  (b.descend 0 term).1.finish (b.descend 0 term).2 value

variable (ops : List (List U × Option V))

def insertAll : StaticDATBuilder U V :=
  ops.foldl (fun b op => (b.insert op.1 op.2).2) b

/-! ## The nodes as a tree -/

def next (label : U) : Option Nat := (b.node state).edges.lookup label

def data : Option (Option V) :=
  if (b.node state).isFinal then some (b.node state).value else none

def map : List U → Option (Option V) := entry b.next b.data 0

/-- The edges of every node are sorted, lead to nodes behind it, no two to one node; only final nodes have values. -/
structure Invariant : Prop where
  root : 0 < b.nodes.length
  sorted : ∀ i, Sorted (b.node i).edges
  edge : ∀ i u j, (u, j) ∈ (b.node i).edges → i < j ∧ j < b.nodes.length
  parent : ∀ i i' u u' j, (u, j) ∈ (b.node i).edges → (u', j) ∈ (b.node i').edges → i = i' ∧ u = u'
  value : ∀ i, (b.node i).isFinal = false → (b.node i).value = none

omit [LinearOrder U] in
theorem node_push (nodes : List (TrieNode U V)) (i : Nat) : (nodes ++ [TrieNode.new]).getD i .new = nodes.getD i .new := by
  rcases Nat.lt_trichotomy i nodes.length with h | rfl | h
  · exact getD_append _ _ _ _ h
  · simp
  · rw [getD_eq_default _ _ (le_of_lt h), getD_eq_default]
    simp
    omega

variable {b : StaticDATBuilder U V}

theorem Invariant.tree (hb : b.Invariant) : Tree b.next 0 where
  root s u h := absurd (hb.edge s u 0 (mem_of_lookup h)).1 (Nat.not_lt_zero s)
  parent s s' u u' t h h' := hb.parent s s' u u' t (mem_of_lookup h) (mem_of_lookup h')

variable {state i j : Nat} {p : List U} {label : U}

theorem Invariant.lt_length (hb : b.Invariant) (hp : walk b.next 0 p = some i) : i < b.nodes.length :=
  walk_invariant (P := (· < b.nodes.length)) hb.root (fun s u t _ h => (hb.edge s u t (mem_of_lookup h)).2) hp

theorem Invariant.value_of_isFinal (hb : b.Invariant) (i : Nat) :
    (!(b.node i).isFinal && (b.node i).value.isSome) = false := by
  cases hf : (b.node i).isFinal with
  | true => rfl
  | false =>
    rw [hb.value i hf]
    rfl

/-! ## One label -/

def push (b : StaticDATBuilder U V) (state : Nat) (label : U) : StaticDATBuilder U V :=
  { b with nodes := (b.nodes ++ [TrieNode.new]).modify state
             fun n => { n with edges := withEdge label b.nodes.length n.edges } }

theorem child_of_some (hb : b.Invariant) (h : b.next state label = some j) : b.child state label = (b, j) := by
  have hfind := binarySearch_eq_lookup label (hb.sorted state)
  rw [child]
  rw [next] at h
  cases hs : binarySearchByKey label (b.node state).edges with rw [hs, h] at hfind
  | error index =>
    cases hfind
  | ok index =>
    obtain ⟨e, he, rfl⟩ := map_eq_some_iff.1 hfind
    simp only [getD_eq_getElem?_getD, he, getD_some]

theorem child_of_none (hstate : state < b.nodes.length) (h : b.next state label = none) :
    b.child state label = (b.push state label, b.nodes.length) := by
  obtain ⟨index, hs, hinsert⟩ := withEdge_of_lookup_none h b.nodes.length
  rw [child, hs]
  refine Prod.ext ?_ rfl
  simp only [push]
  congr 1
  refine ext_getElem? fun i => ?_
  simp only [getElem?_modify]
  by_cases hi : state = i
  · subst hi
    rw [getElem?_append_left hstate, getElem?_eq_getElem hstate]
    have hnode : b.node state = b.nodes[state] := by simp [node, hstate]
    rw [hnode] at hinsert
    simp [hinsert]
  · simp [hi]

theorem node_child (hstate : state < b.nodes.length) (label : U) (i : Nat) : (b.push state label).node i =
      if i = state then { b.node i with edges := withEdge label b.nodes.length (b.node i).edges } else b.node i := by
  rw [push, node, getD_modify _ (by simp; omega)]
  simp only [node_push]
  by_cases hi : i = state
  · subst hi
    rw [if_pos rfl, if_pos rfl]
    rfl
  · rw [if_neg hi, if_neg hi]
    rfl

theorem length_push (b : StaticDATBuilder U V) (state : Nat) (label : U) :
    (b.push state label).nodes.length = b.nodes.length + 1 := by
  simp [push]

theorem mem_edges_push (hb : b.Invariant) (hstate : state < b.nodes.length) (h : b.next state label = none) {u : U} :
    (u, j) ∈ ((b.push state label).node i).edges ↔ (u, j) ∈ (b.node i).edges ∨
      (i = state ∧ u = label ∧ j = b.nodes.length) := by
  rw [node_child hstate]
  by_cases hi : i = state
  · subst hi
    rw [if_pos rfl]
    simp only [mem_withEdge_iff (hb.sorted i), true_and]
    constructor
    · rintro (⟨rfl, rfl⟩ | ⟨-, hmem⟩)
      · exact .inr ⟨rfl, rfl⟩
      · exact .inl hmem
    · rintro (hmem | ⟨rfl, rfl⟩)
      · refine .inr ⟨?_, hmem⟩
        rintro rfl
        rw [next, (mem_iff_lookup (hb.sorted i)).1 hmem] at h
        cases h
      · exact .inl ⟨rfl, rfl⟩
  · rw [if_neg hi]
    simp [hi]

theorem Invariant.push (hb : b.Invariant) (hstate : state < b.nodes.length) (h : b.next state label = none) :
    (b.push state label).Invariant where
  root := by
    rw [length_push]
    omega
  sorted i := by
    rw [node_child hstate]
    split
    · exact sorted_withEdge _ _ (hb.sorted i)
    · exact hb.sorted i
  edge i u j hmem := by
    rw [length_push]
    rcases (mem_edges_push hb hstate h).1 hmem with hold | ⟨rfl, rfl, rfl⟩
    · have := hb.edge i u j hold
      omega
    · omega
  parent i i' u u' j hmem hmem' := by
    -- the pushed node is no old edge's target
    rcases (mem_edges_push hb hstate h).1 hmem with hold | ⟨rfl, rfl, rfl⟩ <;>
      rcases (mem_edges_push hb hstate h).1 hmem' with hold' | ⟨rfl, rfl, hj⟩
    · exact hb.parent i i' u u' j hold hold'
    · have := hb.edge i u j hold
      omega
    · have := hb.edge i' u' _ hold'
      omega
    · exact ⟨rfl, rfl⟩
  value i := by
    rw [node_child hstate]
    split
    · exact hb.value i
    · exact hb.value i

theorem attached_push (hstate : state < b.nodes.length) (label : U) :
    Paths.Attached b.next (b.push state label).next b.data (b.push state label).data (· < b.nodes.length) id 0 state label
      b.nodes.length where
  root := rfl
  step x w hx := by
    simp only [id_eq, Option.map_id_fun, next, node_child hstate]
    by_cases hxs : x = state
    · rw [if_pos hxs]
      simp only [lookup_withEdge, hxs, true_and]
    · rw [if_neg hxs, if_neg fun hand => hxs hand.1]
  leaf w := by
    have hnew : b.node b.nodes.length = .new := getD_eq_default _ _ le_rfl
    rw [next, node_child hstate, if_neg (by omega), hnew]
    rfl
  blank := by
    have hnew : b.node b.nodes.length = .new := getD_eq_default _ _ le_rfl
    have hne : b.nodes.length ≠ state := by omega
    rw [data, node_child hstate, if_neg hne, hnew]
    rfl
  data_eq x _ := by
    simp only [data, id_eq, node_child hstate]
    split <;> rfl

/-! ## One term -/

theorem descend_spec (hb : b.Invariant) (hp : walk b.next 0 p = some state) (term : List U) :
    (b.descend state term).1.Invariant ∧
      walk (b.descend state term).1.next 0 (p ++ term) = some (b.descend state term).2 ∧
      (b.descend state term).1.map = b.map ∧ (b.descend state term).1.termCount = b.termCount := by
  induction term generalizing b state p with
  | nil => exact ⟨hb, by rwa [append_nil], rfl, rfl⟩
  | cons label term ih =>
    rw [descend, ← singleton_append, ← append_assoc]
    have hstate := hb.lt_length hp
    cases hnext : b.next state label with
    | some j =>
      rw [child_of_some hb hnext]
      exact ih hb (walk_concat_eq_some.2 ⟨state, hp, hnext⟩)
    | none =>
      rw [child_of_none hstate hnext]
      have hattached := attached_push hstate label
      have hlt : ∀ q i, walk b.next 0 q = some i → i < b.nodes.length := fun _ _ => hb.lt_length
      have hwalk := hattached.walk_eq hb.tree hlt hp hnext (p ++ [label])
      rw [if_pos rfl] at hwalk
      obtain ⟨hb', hp', hmap, hcount⟩ := ih (hb.push hstate hnext) hwalk
      exact ⟨hb', hp', hmap.trans (hattached.entry_eq hb.tree hlt hp hnext), hcount⟩

theorem Invariant.mark (hb : b.Invariant) (b' : StaticDATBuilder U V) (v : Option V) (hp : walk b.next 0 p = some state)
    (hlen : b'.nodes.length = b.nodes.length)
    (hnode : ∀ i, b'.node i = if i = state then ⟨(b.node i).edges, true, v⟩ else b.node i) :
    b'.Invariant ∧ b'.map = update b.map p (some v) := by
  have hedges : ∀ i, (b'.node i).edges = (b.node i).edges := by
    intro i
    rw [hnode]
    split <;> rfl
  have hnext : b'.next = b.next := by
    funext i u
    rw [next, next, hedges]
  have hdata : b'.data = update b.data state (some v) := by
    funext i
    rw [data, hnode, update_apply]
    split <;> rfl
  refine ⟨⟨hlen ▸ hb.root, fun i => hedges i ▸ hb.sorted i, ?_, ?_, fun i hi => ?_⟩, ?_⟩
  · simpa only [hedges, hlen] using hb.edge
  · simpa only [hedges] using hb.parent
  · rw [hnode] at hi ⊢
    split at hi
    · cases hi
    · rename_i hne
      rw [if_neg hne]
      exact hb.value i hi
  · rw [map, hnext, hdata]
    exact entry_update hb.tree hp (some v)

theorem finish_spec (hb : b.Invariant) (hp : walk b.next 0 p = some state) (value : Option V) :
    (b.finish state value).2.Invariant ∧ (b.finish state value).2.map = inserted b.map p value ∧
      (b.finish state value).2.termCount = b.termCount + if (b.map p).isSome then 0 else 1 := by
  have hstate := hb.lt_length hp
  have hentry : b.map p = b.data state := by
    rw [map, entry, hp]
    rfl
  rw [inserted, hentry, finish, data]
  cases hfinal : (b.node state).isFinal with
  | true =>
    cases value with
    | none =>
      have hsame : update b.map p (some (b.node state).value) = b.map := by
        rw [update_eq_self_iff, hentry, data, if_pos hfinal]
      exact ⟨hb, hsame.symm, rfl⟩
    | some v =>
      obtain ⟨hb', hmap⟩ := hb.mark { b with nodes := b.nodes.modify state fun n => { n with value := some v } } (some v) hp
        (length_modify ..) fun i => by
          rw [node, getD_modify _ hstate]
          by_cases hi : i = state
          · subst hi
            rw [if_pos rfl, if_pos rfl, ← hfinal]
            rfl
          · rw [if_neg hi, if_neg hi]
            rfl
      exact ⟨hb', hmap, rfl⟩
  | false =>
    have hlen : state < (b.nodes.modify state fun n => { n with isFinal := true }).length := by simpa using hstate
    obtain ⟨hb', hmap⟩ := hb.mark ⟨(b.nodes.modify state fun n => { n with isFinal := true }).modify state
      fun n => { n with value := value }, b.termCount + 1⟩ value hp (by simp) fun i => by
        rw [node, getD_modify _ hlen, getD_modify _ hstate, getD_modify _ hstate]
        by_cases hi : i = state
        · subst hi
          rw [if_pos rfl, if_pos rfl, if_pos rfl]
          rfl
        · rw [if_neg hi, if_neg hi, if_neg hi]
          rfl
    simp only [Bool.not_false, Bool.or_true, if_true]
    refine ⟨hb', hmap.trans ?_, rfl⟩
    cases value <;> rfl

theorem insert_spec (hb : b.Invariant) (term : List U) (value : Option V) :
    (b.insert term value).2.Invariant ∧ (b.insert term value).2.map = inserted b.map term value ∧
      (b.insert term value).2.termCount = b.termCount + if (b.map term).isSome then 0 else 1 := by
  obtain ⟨hb', hp, hmap, hcount⟩ := descend_spec hb (p := []) rfl term
  have hfinish := finish_spec hb' hp value
  rwa [hmap, hcount] at hfinish

/-! ## All the insertions -/

theorem invariant_new : (new : StaticDATBuilder U V).Invariant := by
  have hnode : ∀ i, (new : StaticDATBuilder U V).node i = .new := fun i => node_push [] i
  refine ⟨Nat.zero_lt_one, fun i => ?_, fun i u j h => ?_, fun i i' u u' j h => ?_, fun i _ => ?_⟩
  · rw [hnode]
    exact List.Pairwise.nil
  · rw [hnode] at h
    cases h
  · rw [hnode] at h
    cases h
  · rw [hnode]
    rfl

theorem map_new : (new : StaticDATBuilder U V).map = fun _ => none := by
  funext q
  cases q <;> rfl

theorem insertAll_spec {b : StaticDATBuilder U V} (hb : b.Invariant) {terms : Finset (List U)}
    (ht : HasTerms b.map b.termCount terms) (ops : List (List U × Option V)) :
    (b.insertAll ops).Invariant ∧ (b.insertAll ops).map = ops.foldl (fun m op => inserted m op.1 op.2) b.map ∧
      HasTerms (b.insertAll ops).map (b.insertAll ops).termCount (terms ∪ (ops.map Prod.fst).toFinset) := by
  induction ops generalizing b terms with
  | nil => simpa using ⟨hb, rfl, ht⟩
  | cons op ops ih =>
    obtain ⟨term, value⟩ := op
    obtain ⟨hb₁, hmap₁, hcount₁⟩ := insert_spec hb term value
    have ht₁ := ht.inserted term value
    rw [← hmap₁, ← hcount₁] at ht₁
    obtain ⟨hb', hmap, hterms⟩ := ih hb₁ ht₁
    refine ⟨hb', ?_, ?_⟩
    · rw [foldl_cons, ← hmap₁]
      exact hmap
    · rw [map_cons, toFinset_cons, Finset.union_insert, ← Finset.insert_union]
      exact hterms

theorem insertAll_new : (insertAll new ops).Invariant ∧ (insertAll new ops).map = mapOf ops ∧
      HasTerms (mapOf ops) (insertAll new ops).termCount (ops.map Prod.fst).toFinset := by
  have hnone : HasTerms (new : StaticDATBuilder U V).map 0 ∅ := by
    rw [map_new]
    exact hasTerms_empty
  obtain ⟨hb, hmap, hterms⟩ := insertAll_spec invariant_new hnone ops
  rw [map_new] at hmap
  have hmap' : (insertAll new ops).map = mapOf ops := hmap
  rw [Finset.empty_union, hmap'] at hterms
  exact ⟨hb, hmap', hterms⟩

/-! ## How large the trie is -/

/-- At most `count` nodes, with the labels that `labels` allows. -/
structure Fits (b : StaticDATBuilder U V) (count : Nat) (labels : U → Prop) : Prop where
  nodes : b.nodes.length ≤ count
  labels : ∀ i u j, (u, j) ∈ (b.node i).edges → labels u

variable {count : Nat} {labels : U → Prop}

theorem Fits.descend (h : b.Fits count labels) (hb : b.Invariant) (hp : walk b.next 0 p = some state) {term : List U}
    (hterm : ∀ u ∈ term, labels u) : (b.descend state term).1.Fits (count + term.length) labels := by
  induction term generalizing b state p count with
  | nil => exact h
  | cons label term ih =>
    obtain ⟨hlabel, hterm⟩ := forall_mem_cons.1 hterm
    rw [StaticDATBuilder.descend, length_cons, Nat.add_comm term.length, ← Nat.add_assoc]
    have hstate := hb.lt_length hp
    cases hnext : b.next state label with
    | some j =>
      rw [child_of_some hb hnext]
      exact ih ⟨h.nodes.trans (Nat.le_succ _), h.labels⟩ hb (walk_concat_eq_some.2 ⟨state, hp, hnext⟩) hterm
    | none =>
      rw [child_of_none hstate hnext]
      have hwalk := (attached_push hstate label).walk_eq hb.tree (fun _ _ => hb.lt_length) hp hnext (p ++ [label])
      rw [if_pos rfl] at hwalk
      refine ih ⟨?_, fun i u j hmem => ?_⟩ (hb.push hstate hnext) hwalk hterm
      · rw [length_push]
        exact Nat.succ_le_succ h.nodes
      · rcases (mem_edges_push hb hstate hnext).1 hmem with hold | ⟨-, rfl, -⟩
        · exact h.labels i u j hold
        · exact hlabel

omit [LinearOrder U] in
theorem Fits.finish (h : b.Fits count labels) (hstate : state < b.nodes.length) (value : Option V) :
    (b.finish state value).2.Fits count labels := by
  have hmodify : ∀ {b : StaticDATBuilder U V} {f : TrieNode U V → TrieNode U V} {termCount : Nat},
      (∀ n, (f n).edges = n.edges) → b.Fits count labels → state < b.nodes.length →
      (StaticDATBuilder.mk (b.nodes.modify state f) termCount).Fits count labels := fun {b f _} hf h hstate => by
    refine ⟨(length_modify ..).trans_le h.nodes, fun i u j hmem => h.labels i u j ?_⟩
    rw [node, getD_modify _ hstate] at hmem
    by_cases hi : i = state
    · subst hi
      rw [if_pos rfl, hf] at hmem
      exact hmem
    · rw [if_neg hi] at hmem
      exact hmem
  have hmarked : (if !(b.node state).isFinal then
      ⟨b.nodes.modify state fun n => { n with isFinal := true }, b.termCount + 1⟩ else b : StaticDATBuilder U V).Fits
      count labels := by
    split
    · exact hmodify (fun _ => rfl) h hstate
    · exact h
  rw [StaticDATBuilder.finish]
  dsimp only
  split
  · refine hmodify (fun _ => rfl) hmarked ?_
    split
    · exact hstate.trans_eq (length_modify ..).symm
    · exact hstate
  · exact hmarked

/-- **The trie of a sequence of insertions** has no more nodes than the root and one for each unit of a term, and no labels
but these units. -/
theorem fits_insertAll (ops : List (List U × Option V)) :
    (insertAll new ops).Fits ((ops.map (·.1.length)).sum + 1) fun u => ∃ op ∈ ops, u ∈ op.1 := by
  suffices h : ∀ (ops : List (List U × Option V)) {b : StaticDATBuilder U V} {count : Nat} {labels : U → Prop},
      b.Invariant → b.Fits count labels → (∀ op ∈ ops, ∀ u ∈ op.1, labels u) →
      (b.insertAll ops).Fits ((ops.map (·.1.length)).sum + count) labels by
    refine h ops invariant_new ⟨le_rfl, fun i u j hmem => ?_⟩ fun op hop u hu => ⟨op, hop, hu⟩
    rw [show (new : StaticDATBuilder U V).node i = .new from node_push [] i] at hmem
    cases hmem
  intro ops
  induction ops with
  | nil => exact fun _ h _ => by simpa [insertAll] using h
  | cons op ops ih =>
    intro b count labels hb h hops
    obtain ⟨hop, hops⟩ := forall_mem_cons.1 hops
    obtain ⟨hb', hp, -, -⟩ := descend_spec hb (p := []) rfl op.1
    have hstep := (h.descend hb (p := []) rfl hop).finish (hb'.lt_length hp) op.2
    rw [map_cons, sum_cons, Nat.add_comm op.1.length, Nat.add_assoc, Nat.add_comm op.1.length]
    exact ih (insert_spec hb op.1 op.2).1 hstep hops

end StaticDATBuilder
end Dictenstein.Dat
