import Mathlib.Data.Finset.Card
import Dictenstein.DawgBuilder
/-!
# DawgMinimal — why the graph of a sorted list is the minimal one

The register of `SortedDawgBuilder` has every frozen node without a value, under its finality and its edges, so no two such
nodes agree in both (`Registered`).

A build numbers the nodes it makes in the order in which it makes them (`Registered.numbered`), and it makes no node that
the root does not reach (`Linked`).
-/
namespace Dictenstein.Dawg

open Function List Option SortedDawgBuilder Heap

variable {U V : Type} [LinearOrder U]

/-- `from_sorted_entries_by`; the root's address and the number of terms. -/
def fromSortedEntriesBy (heap : Heap U V) (entries : List (List U × Option V)) : Option ((Nat × Nat) × Heap U V) :=
  (entries.foldlM (fun (b : SortedDawgBuilder U V) e => b.insert e.1 e.2) (new heap)).map
    finish

namespace Heap

variable (h : Heap U V)

def Below (root p : Nat) : Prop := ∃ units, h.findNodeFrom root units = some p

def ValueFree (p : Nat) : Prop := ∀ k v, h.entryAt p k = some v → v = none

def SameSuffixes (p q : Nat) : Prop := ∀ k, (h.entryAt p k).isSome = (h.entryAt q k).isSome

/-- The nodes below the root have the numbers from 1 to `count`, each once, and a child has a smaller number than its
parent. -/
structure Numbering (root count : Nat) : Prop where
  range : ∀ p, h.Below root p → ∃ i, (h.node p).snapshotId = some i ∧ 1 ≤ i ∧ i ≤ count
  unique : ∀ i, 1 ≤ i → i ≤ count → ∃! p, h.Below root p ∧ (h.node p).snapshotId = some i
  child_lt : ∀ p, h.Below root p → ∀ e ∈ (h.node p).edges, ∀ i j, (h.node e.2).snapshotId = some i →
    (h.node p).snapshotId = some j → i < j

variable {h h' : Heap U V} {p q : Nat}

theorem findNodeFrom_append (h : Heap U V) : ∀ (units rest : List U) (p : Nat),
    h.findNodeFrom p (units ++ rest) = (h.findNodeFrom p units).bind fun q => h.findNodeFrom q rest
  | [], _, _ => rfl
  | u :: units, rest, p => by
    rw [cons_append, findNodeFrom, findNodeFrom, bind_assoc]
    congr 1
    funext c
    exact findNodeFrom_append h units rest c

theorem entryAt_append (h : Heap U V) (units rest : List U) (p : Nat) :
    h.entryAt p (units ++ rest) = (h.findNodeFrom p units).bind fun q => h.entryAt q rest := by
  unfold entryAt
  rw [findNodeFrom_append, bind_assoc]

theorem Below.refl (h : Heap U V) (p : Nat) : h.Below p p := ⟨[], rfl⟩

variable {root : Nat} {e : U × Nat}

theorem Below.edge (hwf : h.WellFormed) (hp : p < h.length) (hb : h.Below root p)
    (he : e ∈ (h.node p).edges) : h.Below root e.2 := by
  obtain ⟨units, hunits⟩ := hb
  refine ⟨units ++ [e.1], ?_⟩
  rw [findNodeFrom_append, hunits, bind_some, findNodeFrom, hwf.find_of_mem hp he]
  rfl

theorem Below.induct (hwf : h.WellFormed) {motive : Nat → Prop} (hroot : root < h.length) (start : motive root)
    (edge : ∀ p, p < h.length → motive p → ∀ e ∈ (h.node p).edges, motive e.2) (hb : h.Below root p) : motive p := by
  obtain ⟨units, hunits⟩ := hb
  induction units generalizing root with
  | nil =>
    cases hunits
    exact start
  | cons u units ih =>
    obtain ⟨c, hc, hunits⟩ := bind_eq_some_iff.1 hunits
    have hmem : (u, c) ∈ (h.node root).edges := by
      rw [hwf.find_eq hroot] at hc
      exact SortedEdges.mem_of_lookup hc
    exact ih (lt_trans (hwf.find_lt hroot hc) hroot) (edge root hroot start _ hmem) hunits

theorem WellFormed.length_le_of_entryAt (hwf : h.WellFormed) : ∀ (k : List U) {p : Nat}, p < h.length →
    (h.entryAt p k).isSome → k.length ≤ p
  | [], _, _, _ => Nat.zero_le _
  | u :: us, p, hp, hk => by
    rw [entryAt_cons] at hk
    cases hc : h.find p u with
    | none => rw [hc] at hk; cases hk
    | some c =>
      rw [hc] at hk
      have hlt := hwf.find_lt hp hc
      have := hwf.length_le_of_entryAt us (lt_trans hlt hp) hk
      rw [length_cons]
      omega

/-- **A node does not accept what a node properly below it accepts**, unless both accept nothing. -/
theorem not_sameSuffixes_below (hwf : h.WellFormed) (hp : p < h.length) {units : List U} (hne : units ≠ [])
    (hq : h.findNodeFrom p units = some q) (hterm : ∃ k, (h.entryAt p k).isSome) : ¬ h.SameSuffixes p q := by
  intro hsame
  have hlong : ∀ n, ∃ k, n ≤ k.length ∧ (h.entryAt p k).isSome := by
    intro n
    induction n with
    | zero =>
      obtain ⟨k, hk⟩ := hterm
      exact ⟨k, Nat.zero_le _, hk⟩
    | succ n ih =>
      obtain ⟨k, hlen, hk⟩ := ih
      refine ⟨units ++ k, ?_, ?_⟩
      · have := length_pos_iff.2 hne
        rw [length_append]
        omega
      · rw [entryAt_append, hq, bind_some, ← hsame k]
        exact hk
  obtain ⟨k, hlen, hk⟩ := hlong (p + 1)
  have := hwf.length_le_of_entryAt k hp hk
  omega

theorem ValueFree.child (hwf : h.WellFormed) (hp : p < h.length) (hv : h.ValueFree p)
    (he : e ∈ (h.node p).edges) : h.ValueFree e.2 := by
  intro k v hk
  refine hv (e.1 :: k) v ?_
  rw [entryAt_cons, hwf.find_of_mem hp he]
  exact hk

theorem ValueFree.value (hwf : h.WellFormed) (hp : p < h.length) (hv : h.ValueFree p) : (h.node p).value = none := by
  cases hfinal : (h.node p).isFinal with
  | true => exact hv [] _ (by rw [entryAt_nil, entryOf, if_pos hfinal])
  | false => exact hwf.clean _ (node_mem hp) hfinal

theorem SameSuffixes.isFinal (hs : h.SameSuffixes p q) : (h.node p).isFinal = (h.node q).isFinal := by
  have := hs []
  rw [entryAt_nil, entryAt_nil, entryOf, entryOf] at this
  cases hp : (h.node p).isFinal <;> cases hq : (h.node q).isFinal <;> simp_all

/-- The addresses from `lo` to `hi` hold nodes of one build: their edges are among themselves, each accepts a term, and
those without a value differ in finality or edges. -/
structure Reduced (h : Heap U V) (lo hi : Nat) : Prop where
  own : ∀ p, lo ≤ p → p < hi → ∀ e ∈ (h.node p).edges, lo ≤ e.2
  productive : ∀ p, lo ≤ p → p < hi → (h.node p).isFinal = true ∨ (h.node p).edges ≠ []
  apart : ∀ p q, lo ≤ p → p < hi → lo ≤ q → q < hi → (h.node p).value = none → (h.node q).value = none →
    (h.node p).isFinal = (h.node q).isFinal → (h.node p).edges = (h.node q).edges → p = q

section
variable {lo hi : Nat} (hr : h.Reduced lo hi) (hwf : h.WellFormed) (hhi : hi ≤ h.length)
include hr hwf hhi

theorem Reduced.exists_term (p : Nat) (hlo : lo ≤ p) (hp : p < hi) : ∃ k, (h.entryAt p k).isSome := by
  induction p using Nat.strong_induction_on with
  | _ p ih =>
    obtain hfinal | hedges := hr.productive p hlo hp
    · exact ⟨[], by rw [entryAt_nil, entryOf, if_pos hfinal]; rfl⟩
    · obtain ⟨e, he⟩ := exists_mem_of_ne_nil _ hedges
      have hlt := hwf.below p (by omega) e he
      obtain ⟨k, hk⟩ := ih e.2 hlt (hr.own p hlo hp e he) (by omega)
      refine ⟨e.1 :: k, ?_⟩
      rw [entryAt_cons, hwf.find_of_mem (by omega) he]
      exact hk

theorem Reduced.lookup_of_sameSuffixes (hlo : lo ≤ p) (hp : p < hi) (hq : q < h.length) (hs : h.SameSuffixes p q) {u : U}
    {c : Nat} (hc : (h.node p).edges.lookup u = some c) :
    ∃ c', (h.node q).edges.lookup u = some c' ∧ h.SameSuffixes c c' := by
  have hmem := SortedEdges.mem_of_lookup hc
  obtain ⟨k, hk⟩ := hr.exists_term hwf hhi c (hr.own p hlo hp _ hmem)
    (lt_trans (hwf.below p (by omega) _ hmem) hp)
  have hread : ∀ k, h.entryAt p (u :: k) = h.entryAt c k := fun k => by
    rw [entryAt_cons, hwf.find_eq (by omega), hc]
    rfl
  cases hc' : (h.node q).edges.lookup u with
  | none =>
    have := hs (u :: k)
    rw [hread, hk, entryAt_cons, hwf.find_eq hq, hc'] at this
    cases this
  | some c' =>
    refine ⟨c', rfl, fun k => ?_⟩
    have := hs (u :: k)
    rwa [hread, entryAt_cons, hwf.find_eq hq, hc'] at this

/-- **Two nodes of a build without values below them that accept the same terms are one node.** -/
theorem Reduced.eq_of_sameSuffixes : ∀ p q, lo ≤ p → p < hi → lo ≤ q → q < hi → h.ValueFree p → h.ValueFree q →
    h.SameSuffixes p q → p = q := by
  intro p
  induction p using Nat.strong_induction_on with
  | _ p ih =>
    intro q hlo hp hlo' hq hv hv' hs
    have hp' : p < h.length := by omega
    have hq' : q < h.length := by omega
    refine hr.apart p q hlo hp hlo' hq (hv.value hwf hp') (hv'.value hwf hq') hs.isFinal ?_
    refine SortedEdges.eq_of_lookup (hwf.sorted _ (node_mem hp')) (hwf.sorted _ (node_mem hq')) fun u => ?_
    -- an edge of either has its counterpart at the other, and the two targets are one node
    have hback : h.SameSuffixes q p := fun k => (hs k).symm
    cases hc : (h.node p).edges.lookup u with
    | none =>
      cases hc' : (h.node q).edges.lookup u with
      | none => rfl
      | some c' =>
        obtain ⟨c, hnone, -⟩ := hr.lookup_of_sameSuffixes hwf hhi hlo' hq hp' hback hc'
        rw [hc] at hnone
        cases hnone
    | some c =>
      obtain ⟨c', hc', hsame⟩ := hr.lookup_of_sameSuffixes hwf hhi hlo hp hq' hs hc
      have hmem := SortedEdges.mem_of_lookup hc
      have hmem' := SortedEdges.mem_of_lookup hc'
      have hlt := hwf.below p hp' _ hmem
      have hlt' := hwf.below q hq' _ hmem'
      have := ih c hlt c' (hr.own p hlo hp _ hmem) (by omega) (hr.own q hlo' hq _ hmem') (by omega)
        (hv.child hwf hp' hmem) (hv'.child hwf hq' hmem') hsame
      rw [hc', this]

end

end Heap

/-! ## The register and the numbers -/

namespace SortedDawgBuilder

def Built (h₀ h : Heap U V) (p : Nat) : Prop := h₀.length ≤ p ∧ p < h.length

structure Registered (h₀ : Heap U V) (b : SortedDawgBuilder U V) : Prop where
  nextId : b.nextSnapshotId + h₀.length = b.heap.length + 1
  numbered : ∀ p, Built h₀ b.heap p → (b.heap.node p).snapshotId = some (p + 1 - h₀.length)
  own : ∀ p, Built h₀ b.heap p → ∀ e ∈ (b.heap.node p).edges, h₀.length ≤ e.2
  productive : ∀ p, Built h₀ b.heap p → (b.heap.node p).isFinal = true ∨ (b.heap.node p).edges ≠ []
  registered : ∀ p, Built h₀ b.heap p → (b.heap.node p).value = none →
    b.interned.lookup ⟨(b.heap.node p).isFinal, (b.heap.node p).edges⟩ = some p
  interned_own : ∀ sig q, b.interned.lookup sig = some q → h₀.length ≤ q

/-- Every node that was made is the target of an edge, of a node that was made or of one on the stack. -/
structure Linked (h₀ : Heap U V) (b : SortedDawgBuilder U V) : Prop where
  own : ∀ n ∈ b.pending, ∀ e ∈ n.edges, h₀.length ≤ e.2
  linked : ∀ p, Built h₀ b.heap p → (∃ q, Built h₀ b.heap q ∧ ∃ e ∈ (b.heap.node q).edges, e.2 = p) ∨
    ∃ n ∈ b.pending, ∃ e ∈ n.edges, e.2 = p

variable {h₀ : Heap U V} {b : SortedDawgBuilder U V} {path : List U} {content : Content U V}
  {n : PendingBuildNode U V} {label : U}

omit [LinearOrder U] in
theorem built_alloc {h : Heap U V} {m : DawgNode U V} {p : Nat} (hp : Built h₀ (h ++ [m]) p) :
    Built h₀ h p ∧ node (h ++ [m]) p = h.node p ∨ p = h.length ∧ node (h ++ [m]) p = m := by
  obtain ⟨hlo, hlt⟩ := hp
  rw [length_append, length_singleton] at hlt
  by_cases hp : p < h.length
  · exact .inl ⟨⟨hlo, hp⟩, node_of_isPrefix (prefix_append h [m]) hp⟩
  · obtain rfl : p = h.length := by omega
    exact .inr ⟨rfl, node_alloc h m⟩

omit [LinearOrder U] in
theorem forall_built_alloc {h : Heap U V} {m : DawgNode U V} {P : Nat → DawgNode U V → Prop}
    (hold : ∀ p, Built h₀ h p → P p (h.node p)) (hnew : P h.length m) (p : Nat) (hp : Built h₀ (h ++ [m]) p) :
    P p (node (h ++ [m]) p) := by
  obtain ⟨hp, hnode⟩ | ⟨rfl, hnode⟩ := built_alloc hp <;> rw [hnode]
  · exact hold p hp
  · exact hnew

/-- What freezing leaves for the edge that is made to the frozen node. -/
structure Placed (h₀ : Heap U V) (b : SortedDawgBuilder U V) (n : PendingBuildNode U V)
    (r : Nat × SortedDawgBuilder U V) : Prop where
  registered : Registered h₀ r.2
  built : Built h₀ r.2.heap r.1
  edges : (r.2.heap.node r.1).edges = n.edges
  old : ∀ p, Built h₀ r.2.heap p → Built h₀ b.heap p ∧ r.2.heap.node p = b.heap.node p ∨ p = r.1
  grown : ∀ p, Built h₀ b.heap p → Built h₀ r.2.heap p ∧ r.2.heap.node p = b.heap.node p

/-- **Freezing keeps the register complete**: a node is added only if it has a value, or if none without one has its
finality and its edges. -/
theorem Registered.freeze (hr : Registered h₀ b) (hs : Sound h₀ b path content)
    (hown : ∀ e ∈ n.edges, h₀.length ≤ e.2) (hprod : n.isFinal = true ∨ n.edges ≠ []) :
    Placed h₀ b n (b.freeze n) := by
  have hle := hs.extend.length_le
  unfold SortedDawgBuilder.freeze
  simp only
  split
  · rename_i existing hlookup
    split at hlookup
    · obtain ⟨hlt, hnode⟩ := hs.interned _ _ hlookup
      exact ⟨hr, ⟨hr.interned_own _ _ hlookup, hlt⟩, hnode.1, fun p hp => .inl ⟨hp, rfl⟩, fun p hp => ⟨hp, rfl⟩⟩
    · cases hlookup
  · rename_i hnone
    simp only [alloc]
    have hgrown : ∀ p, Built h₀ b.heap p → Built h₀ (b.heap ++ [n.node b.nextSnapshotId]) p ∧
        node (b.heap ++ [n.node b.nextSnapshotId]) p = b.heap.node p := fun p hp =>
      ⟨⟨hp.1, by rw [length_append]; exact Nat.lt_add_right _ hp.2⟩, node_of_isPrefix (prefix_append _ _) hp.2⟩
    refine ⟨⟨?_, forall_built_alloc (P := fun p m => m.snapshotId = some (p + 1 - h₀.length)) hr.numbered ?_,
      forall_built_alloc (P := fun _ m => ∀ e ∈ m.edges, h₀.length ≤ e.2) hr.own hown,
      forall_built_alloc (P := fun _ m => m.isFinal = true ∨ m.edges ≠ []) hr.productive hprod,
      fun p hp hvalue => ?_, fun sig q hq => ?_⟩, ⟨hle, by simp⟩, ?_, fun p hp => (built_alloc hp).imp id And.left, hgrown⟩
    · have := hr.nextId
      show b.nextSnapshotId + 1 + h₀.length = (b.heap ++ [n.node b.nextSnapshotId]).length + 1
      rw [length_append, length_singleton]
      omega
    · have := hr.nextId
      simp only [PendingBuildNode.node]
      congr 1
      omega
    · obtain ⟨hp, hnode⟩ | ⟨rfl, hnode⟩ := built_alloc hp <;> rw [hnode] at hvalue ⊢
      · have hreg := hr.registered p hp hvalue
        split
        · rename_i hfresh
          rw [if_pos hfresh] at hnone
          rw [lookup_cons]
          split
          · rename_i heq
            rw [eq_of_beq heq, hnone] at hreg
            cases hreg
          · exact hreg
        · exact hreg
      · have hvalue : n.value.isNone := isNone_iff_eq_none.2 hvalue
        simp only [hvalue, if_true]
        exact lookup_cons_self
    · split at hq
      · rw [lookup_cons] at hq
        split at hq
        · exact (some.inj hq) ▸ hle
        · exact hr.interned_own sig q hq
      · exact hr.interned_own sig q hq
    · rw [node_alloc]
      rfl

def TopLive (b : SortedDawgBuilder U V) : Prop :=
  ∃ top rest, b.pending = top :: rest ∧ (top.isFinal = true ∨ top.edges ≠ [])

structure Tidy (h₀ : Heap U V) (b : SortedDawgBuilder U V) : Prop where
  registered : Registered h₀ b
  links : Linked h₀ b

theorem Tidy.minimizeStep (ht : Tidy h₀ b) (hs : Sound h₀ b (label :: path) content) (hlive : b.TopLive) :
    Tidy h₀ b.minimizeStep ∧ b.minimizeStep.TopLive := by
  obtain ⟨top, rest, hstack, hlive⟩ := hlive
  have hchain := hs.chain
  rw [hstack] at hchain
  cases hchain with
  | push hn hl hrest =>
    cases rest with
    | nil => cases hrest
    | cons parent rest =>
      obtain ⟨incoming, isFinal, value, edges⟩ := top
      obtain rfl : incoming = some label := hl
      have hplaced := ht.registered.freeze hs (ht.links.own _ (hstack ▸ (.head _))) hlive
      rw [minimizeStep_eq hstack]
      generalize b.freeze ⟨some label, isFinal, value, edges⟩ = r at *
      have hparent : parent ∈ b.pending := by rw [hstack]; simp
      have hothers : ∀ n ∈ rest, n ∈ b.pending := fun n hn => by rw [hstack]; simp [hn]
      obtain ⟨hreg, hbuilt, hedges, hold, hgrown⟩ := hplaced
      refine ⟨⟨{ hreg with }, ?_, ?_⟩,
        _, rest, rfl, .inr (by simp)⟩
      · exact forall_mem_cons.2 ⟨forall_mem_append.2 ⟨ht.links.own parent hparent, forall_mem_singleton.2 hbuilt.1⟩,
          fun n hmem => ht.links.own n (hothers n hmem)⟩
      · intro p hp
        obtain ⟨hp, -⟩ | rfl := hold p hp
        · obtain ⟨q, hq, e, he, hep⟩ | ⟨n, hmem, e, he, hep⟩ := ht.links.linked p hp
          · obtain ⟨hq, hnode⟩ := hgrown q hq
            exact .inl ⟨q, hq, e, hnode.symm ▸ he, hep⟩
          · -- an edge of the frozen node is now one of the heap
            rw [hstack] at hmem
            obtain rfl | hmem := mem_cons.1 hmem
            · exact .inl ⟨r.1, hbuilt, e, hedges.symm ▸ he, hep⟩
            · obtain rfl | hmem := mem_cons.1 hmem
              · exact .inr ⟨_, .head _, e, mem_append_left _ he, hep⟩
              · exact .inr ⟨n, .tail _ hmem, e, he, hep⟩
        · exact .inr ⟨_, .head _, (label, r.1), by simp, rfl⟩

theorem Tidy.minimizeSteps : ∀ (ys : List U) {b : SortedDawgBuilder U V}, Tidy h₀ b →
    Sound h₀ b (ys ++ path) content → b.TopLive →
      Tidy h₀ (SortedDawgBuilder.minimizeStep^[ys.length] b)
  | [], _, ht, _, _ => ht
  | _ :: ys, _, ht, hs, hlive => by
    obtain ⟨ht, hlive⟩ := ht.minimizeStep hs hlive
    exact Tidy.minimizeSteps ys ht hs.minimizeStep.1 hlive

theorem Tidy.push (ht : Tidy h₀ b) (label : U) : Tidy h₀ (b.push label) := by
  obtain ⟨hreg, hown, hlinked⟩ := ht
  refine ⟨{ hreg with }, forall_mem_cons.2 ⟨nofun, hown⟩, fun p hp => (hlinked p hp).imp id ?_⟩
  rintro ⟨n, hn, hrest⟩
  exact ⟨n, .tail _ hn, hrest⟩

theorem Tidy.pushAll : ∀ (labels : List U) {b : SortedDawgBuilder U V}, Tidy h₀ b →
    Tidy h₀ (labels.foldl SortedDawgBuilder.push b)
  | [], _, ht => ht
  | label :: labels, _, ht => Tidy.pushAll labels (ht.push label)

theorem Tidy.setTerminal (ht : Tidy h₀ b) (value : Option V) : Tidy h₀ (b.setTerminal value) := by
  obtain ⟨hreg, hown, hlinked⟩ := ht
  unfold SortedDawgBuilder.setTerminal
  split
  · exact ⟨hreg, hown, hlinked⟩
  · rename_i terminal rest hstack
    rw [hstack] at hown hlinked
    refine ⟨{ hreg with }, forall_mem_cons.2 (forall_mem_cons.1 hown), fun p hp => (hlinked p hp).imp id ?_⟩
    rintro ⟨n, hn, hrest⟩
    obtain rfl | hn := mem_cons.1 hn
    · exact ⟨_, .head _, hrest⟩
    · exact ⟨n, .tail _ hn, hrest⟩

variable {value : Option V}

omit [LinearOrder U] in
theorem topLive_setTerminal (hne : (b.setTerminal value).pending ≠ []) : (b.setTerminal value).TopLive := by
  unfold setTerminal at *
  split at hne
  · rename_i hstack
    exact absurd hstack hne
  · exact ⟨_, _, rfl, .inl rfl⟩

/-- The builder between two terms is tidy, and the last term ends at the top of the stack. -/
structure Neat (h₀ : Heap U V) (b : SortedDawgBuilder U V) : Prop where
  tidy : Tidy h₀ b
  live : b.previous ≠ [] → b.TopLive

theorem neat_new (h₀ : Heap U V) : Neat h₀ (new h₀) := by
  have hnone {P : Nat → Prop} : ∀ p, Built h₀ h₀ p → P p := fun p hp => absurd hp.1 (not_le.2 hp.2)
  refine ⟨⟨⟨Nat.add_comm _ _, hnone, hnone, hnone, hnone, nofun⟩, forall_mem_singleton.2 nofun, hnone⟩,
    fun hne => absurd rfl hne⟩

theorem Neat.minimizeTo (hn : Neat h₀ b) (hb : Between h₀ b content) {pre rest : List U}
    (hprev : b.previous = pre ++ rest) : Tidy h₀ (b.minimizeTo pre.length) := by
  have hsound := hb.sound
  rw [hprev, reverse_append] at hsound
  rw [hsound.minimizeTo]
  cases hrest : rest with
  | nil => exact hn.tidy
  | cons x xs =>
    have hlive := hn.live (by rw [hprev, hrest]; simp)
    have := hn.tidy.minimizeSteps rest.reverse hsound hlive
    rwa [length_reverse, hrest] at this

theorem Neat.insert (hn : Neat h₀ b) (hb : Between h₀ b content) {units : List U} (hle : b.previous ≤ units)
    {b' : SortedDawgBuilder U V} (h : b.insert units value = some b') : Neat h₀ b' := by
  rw [insert_of_le hle value] at h
  cases h
  have htidy : Tidy h₀ (b.openPath units) := by
    obtain ⟨pre, a, d, hprev, rfl, hlen, -⟩ := commonPrefix_spec b.previous units
    unfold openPath
    rw [← hlen]
    exact (hn.minimizeTo hb hprev).pushAll _
  obtain ⟨hreg, hlinks⟩ := htidy.setTerminal value
  refine ⟨⟨{ hreg with }, { hlinks with }⟩, fun _ => ?_⟩
  have hlive : ((b.openPath units).setTerminal value).TopLive := topLive_setTerminal fun hnil => by
    have hlen := ((hb.openPath hle).1.setTerminal value).chain.length_eq
    rw [hnil] at hlen
    cases hlen
  exact hlive

/-! ## The number of terms -/

def Counted (b : SortedDawgBuilder U V) (content : Content U V) : Prop :=
  ∃ keys : Finset (List U), (∀ k, k ∈ keys ↔ (content k).isSome) ∧ b.termCount = keys.card

theorem termCount_minimizeStep (b : SortedDawgBuilder U V) : b.minimizeStep.termCount = b.termCount := by
  unfold minimizeStep freeze
  split
  · simp only
    split <;> rfl
  · rfl

theorem termCount_minimizeTo (b : SortedDawgBuilder U V) (prefixLen : Nat) :
    (b.minimizeTo prefixLen).termCount = b.termCount := by
  unfold minimizeTo
  generalize b.pending.length - (prefixLen + 1) = turns
  induction turns generalizing b with
  | zero => rfl
  | succ turns ih => rw [iterate_succ_apply, ih, termCount_minimizeStep]

theorem termCount_openPath (b : SortedDawgBuilder U V) (units : List U) : (b.openPath units).termCount = b.termCount := by
  have hpush : ∀ (labels : List U) (b : SortedDawgBuilder U V), (labels.foldl push b).termCount = b.termCount := by
    intro labels
    induction labels with
    | nil => exact fun _ => rfl
    | cons label labels ih => exact fun b => ih (b.push label)
  unfold openPath
  rw [hpush, termCount_minimizeTo]

theorem Sound.content_path (hs : Sound h₀ b path content) : ∃ top rest, b.pending = top :: rest ∧
    content path.reverse = if top.isFinal then some top.value else none := by
  have hchain := hs.chain
  have hcontent := hs.content_eq
  generalize b.pending = stack at *
  cases hchain with
  | @root top _ hn hl =>
    refine ⟨top, [], rfl, ?_⟩
    rw [← hcontent]
    simp only [stackContent, hl]
    rfl
  | @push top _ rest label path hn hl hrest =>
    refine ⟨top, rest, rfl, ?_⟩
    rw [← hcontent, reverse_cons]
    simp only [stackContent, hl]
    -- replacing what is under the label at one term by itself changes nothing
    have hself := stackContent_update hrest label (pendingContent b.heap top none) []
      (pendingContent b.heap top none [])
    rw [update_eq_self] at hself
    rw [hself, update_self]
    rfl

theorem Counted.setTerminal (hc : Counted b content) (hs : Sound h₀ b path content) (value : Option V) :
    Counted (b.setTerminal value) (update content path.reverse (some value)) := by
  obtain ⟨keys, hkeys, hcount⟩ := hc
  obtain ⟨top, rest, hstack, htop⟩ := hs.content_path
  refine ⟨Insert.insert path.reverse keys, fun k => ?_, ?_⟩
  · rw [Finset.mem_insert, hkeys]
    by_cases hk : k = path.reverse
    · subst hk
      simp
    · rw [update_of_ne hk]
      simp [hk]
  · have hmem : path.reverse ∈ keys ↔ top.isFinal = true := by
      rw [hkeys, htop]
      cases top.isFinal <;> simp
    simp only [SortedDawgBuilder.setTerminal, hstack]
    split
    · rename_i hfinal
      rw [Finset.insert_eq_of_mem (hmem.2 hfinal), hcount]
    · rename_i hfinal
      rw [Finset.card_insert_of_notMem fun h => hfinal (hmem.1 h), hcount]

/-! ## The finished graph -/

/-- A root and the nodes a build has made for it, on top of the heap `h₀`. -/
structure Minimized (h₀ h : Heap U V) (root : Nat) : Prop where
  extend : h₀.Extends h
  lo : h₀.length ≤ root
  length : h.length = root + 1
  numbered : ∀ p, h₀.length ≤ p → p ≤ root → (h.node p).snapshotId = some (p + 1 - h₀.length)
  own : ∀ p, h₀.length ≤ p → p ≤ root → ∀ e ∈ (h.node p).edges, h₀.length ≤ e.2
  reduced : h.Reduced h₀.length root
  linked : ∀ p, h₀.length ≤ p → p < root → ∃ q, p < q ∧ q ≤ root ∧ ∃ e ∈ (h.node q).edges, e.2 = p

theorem Neat.finish (hn : Neat h₀ b) (hb : Between h₀ b content) : Minimized h₀ b.finish.2 b.finish.1.1 := by
  have hextend := hb.finish.1
  have htidy : Tidy h₀ (b.minimizeTo 0) := hn.minimizeTo hb (nil_append _).symm
  have hs : Sound h₀ (b.minimizeTo 0) [] content := hb.minimizeTo_zero
  have hchain := hs.chain
  have hle := hs.extend.length_le
  revert hextend
  unfold SortedDawgBuilder.finish
  generalize b.minimizeTo 0 = b₁ at *
  obtain ⟨pending, interned, previous, termCount, nextSnapshotId, heap⟩ := b₁
  cases hchain with
  | @root root _ hroot hl =>
    simp only [alloc]
    intro hextend
    obtain ⟨⟨hnext, hnum, hown, hprod, hreg, -⟩, hpown, hlinked⟩ := htidy
    dsimp only at *
    have hold : ∀ p, p < heap.length → node (heap ++ [root.node nextSnapshotId]) p = heap.node p := fun p hp =>
      node_of_isPrefix (prefix_append _ _) hp
    -- a node of the build is a frozen one or the root
    have hbuilt : ∀ p, h₀.length ≤ p → p ≤ heap.length → Built h₀ (heap ++ [root.node nextSnapshotId]) p := fun p hlo hp =>
      ⟨hlo, by rw [length_append]; exact Nat.lt_succ_of_le hp⟩
    refine ⟨hextend, hle, by simp,
      fun p hlo hp => forall_built_alloc (P := fun p m => m.snapshotId = some (p + 1 - h₀.length)) hnum ?_ p
      (hbuilt p hlo hp), fun p hlo hp => forall_built_alloc (P := fun _ m => ∀ e ∈ m.edges, h₀.length ≤ e.2) hown
      (hpown root (.head _)) p (hbuilt p hlo hp), ⟨fun p hlo hp => ?_, fun p hlo hp => ?_, ?_⟩, fun p hlo hp => ?_⟩
    · simp only [PendingBuildNode.node]
      congr 1
      omega
    · rw [hold p hp]
      exact hown p ⟨hlo, hp⟩
    · rw [hold p hp]
      exact hprod p ⟨hlo, hp⟩
    · intro p q hlo hp hlo' hq hv hv' hfinal hedges
      rw [hold p hp] at hv hfinal hedges
      rw [hold q hq] at hv' hfinal hedges
      have hp := hreg p ⟨hlo, hp⟩ hv
      rw [hfinal, hedges, hreg q ⟨hlo', hq⟩ hv'] at hp
      exact (some.inj hp).symm
    · rcases hlinked p ⟨hlo, hp⟩ with ⟨q, hq, e, he, rfl⟩ | ⟨n, hmem, e, he, rfl⟩
      · have hlt := hs.extend.wf.below q hq.2 e he
        exact ⟨q, hlt, hq.2.le, e, (hold q hq.2).symm ▸ he, rfl⟩
      · obtain rfl := mem_singleton.1 hmem
        refine ⟨heap.length, hp, le_refl _, e, ?_, rfl⟩
        rw [node_alloc]
        exact he

theorem termCount_finish (b : SortedDawgBuilder U V) : b.finish.1.2 = b.termCount := by
  have hcount := termCount_minimizeTo b 0
  unfold finish
  simp only
  split <;> exact hcount

namespace Minimized

variable {h : Heap U V} {root p : Nat}

theorem below_iff (hm : Minimized h₀ h root) : h.Below root p ↔ h₀.length ≤ p ∧ p ≤ root := by
  have hwf := hm.extend.wf
  have hlen := hm.length
  constructor
  · intro hb
    refine Heap.Below.induct (motive := fun q => h₀.length ≤ q ∧ q ≤ root) hwf (by omega) ⟨hm.lo, le_refl _⟩
      (fun q hq hlo e he => ?_) hb
    have := hwf.below q hq e he
    exact ⟨hm.own q hlo.1 hlo.2 e he, by omega⟩
  · rintro ⟨hlo, hp⟩
    -- from the root down: a node below it has an edge to this one
    obtain ⟨d, hd⟩ : ∃ d, root - p = d := ⟨_, rfl⟩
    induction d using Nat.strong_induction_on generalizing p with
    | _ d ih =>
      obtain hlt | rfl := hp.lt_or_eq
      · obtain ⟨q, hpq, hq, e, he, rfl⟩ := hm.linked p hlo hlt
        have hbelow := ih (root - q) (by omega) (by omega) hq rfl
        exact hbelow.edge hwf (by omega) he
      · exact .refl h p

/-- **The nodes of a build are numbered without gaps, children before their parents.** -/
theorem numbering (hm : Minimized h₀ h root) : h.Numbering root (root + 1 - h₀.length) := by
  have hlo := hm.lo
  refine ⟨fun p hb => ?_, fun i hi hle => ?_, fun p hb e he i j hi hj => ?_⟩
  · obtain ⟨hlo, hp⟩ := hm.below_iff.1 hb
    exact ⟨_, hm.numbered p hlo hp, by omega, by omega⟩
  · refine ⟨h₀.length + i - 1, ⟨hm.below_iff.2 ⟨by omega, by omega⟩, ?_⟩, ?_⟩
    · rw [hm.numbered _ (by omega) (by omega)]
      congr 1
      omega
    · rintro p ⟨hb, hp⟩
      obtain ⟨hlo, hle⟩ := hm.below_iff.1 hb
      rw [hm.numbered p hlo hle] at hp
      have := some.inj hp
      omega
  · have hlen := hm.length
    obtain ⟨hlo, hp⟩ := hm.below_iff.1 hb
    have hlt := hm.extend.wf.below p (by omega) e he
    have hown := hm.own p hlo hp e he
    rw [hm.numbered p hlo hp] at hj
    rw [hm.numbered e.2 hown (by omega)] at hi
    have := some.inj hi
    have := some.inj hj
    omega

/-- **No two nodes below the root without values below them accept the same terms.** -/
theorem eq_of_sameSuffixes (hm : Minimized h₀ h root) {q : Nat} (hp : h.Below root p) (hq : h.Below root q)
    (hv : h.ValueFree p) (hv' : h.ValueFree q) (hs : h.SameSuffixes p q) : p = q := by
  have hwf := hm.extend.wf
  have hlen := hm.length
  -- a node properly below the root does not accept what the root accepts
  have hroot : ∀ q, h.Below root q → q ≠ root → ¬ h.SameSuffixes root q := by
    intro q hq hne hs
    obtain ⟨hlo, hle⟩ := hm.below_iff.1 hq
    obtain ⟨units, hunits⟩ := hq
    obtain ⟨k, hk⟩ := hm.reduced.exists_term hwf (by omega) q hlo (by omega)
    refine not_sameSuffixes_below hwf (by omega) ?_ hunits ⟨k, by rw [hs k]; exact hk⟩ hs
    rintro rfl
    exact hne (some.inj hunits).symm
  obtain ⟨hlo, hple⟩ := hm.below_iff.1 hp
  obtain ⟨hlo', hqle⟩ := hm.below_iff.1 hq
  by_cases hpr : p = root
  · by_contra hne
    subst hpr
    exact hroot q hq (Ne.symm hne) hs
  · by_cases hqr : q = root
    · subst hqr
      exact absurd (fun k => (hs k).symm) (hroot p hp hpr)
    · exact hm.reduced.eq_of_sameSuffixes hwf (by omega) p q hlo (by omega) hlo' (by omega) hv hv' hs

end Minimized

end SortedDawgBuilder

/-! ## A whole list of terms -/

open SortedDawgBuilder in
theorem neat_entries {h₀ : Heap U V} : ∀ (entries : List (List U × Option V)) {b b' : SortedDawgBuilder U V}
    {content : Content U V}, Between h₀ b content → Neat h₀ b → Counted b content → (∀ e ∈ entries, b.previous ≤ e.1) →
    entries.Pairwise (fun a b => a.1 ≤ b.1) →
    entries.foldlM (fun (b : SortedDawgBuilder U V) e => b.insert e.1 e.2) b = some b' →
      Neat h₀ b' ∧ Counted b' (insertAll content entries)
  | [], b, b', content, _, hn, hc, _, _, h => by
    cases h
    exact ⟨hn, hc⟩
  | e :: entries, b, b', content, hb, hn, hc, hle, hsorted, h => by
    obtain ⟨hfirst, hsorted⟩ := pairwise_cons.1 hsorted
    have hprevious := hle e (.head _)
    obtain ⟨b₁, hinsert, hprev, hb₁⟩ := hb.insert hprevious e.2
    rw [foldlM_cons, hinsert] at h
    have hc₁ : Counted b₁ (update content e.1 (some e.2)) := by
      have hc' : Counted (b.openPath e.1) content := by
        obtain ⟨keys, hkeys, hcount⟩ := hc
        exact ⟨keys, hkeys, (termCount_openPath b e.1).trans hcount⟩
      have hterm := hc'.setTerminal (hb.openPath hprevious).1 e.2
      rw [reverse_reverse] at hterm
      rw [insert_of_le hprevious] at hinsert
      cases hinsert
      exact hterm
    exact neat_entries entries hb₁ (hn.insert hb hprevious hinsert) hc₁ (fun e' he' => hprev ▸ hfirst e' he') hsorted h

theorem insertAll_none (entries : List (List U × Option V)) (k : List U) :
    insertAll (fun _ => none) entries k = entries.reverse.lookup k := by
  induction entries using reverseRecOn with
  | nil => rfl
  | append_singleton entries e ih =>
    have hlast : insertAll (fun _ => none) (entries ++ [e]) = update (insertAll (fun _ => none) entries) e.1 (some e.2) := by
      unfold insertAll
      rw [foldl_append]
      rfl
    rw [hlast, reverse_append, reverse_singleton, singleton_append, lookup_cons]
    by_cases hk : k = e.1
    · subst hk
      rw [update_self, beq_self_eq_true]
    · rw [update_of_ne hk, ih, beq_eq_false_iff_ne.2 hk]

open SortedDawgBuilder in
/-- **The graph of a sorted list of terms is the minimal one.** It accepts the listed terms, each with its last value, and
counts each once; its nodes are numbered without gaps, children first; and of its nodes without values below them no two
accept the same terms. -/
theorem sortedEntries_minimal {h₀ : Heap U V} (hwf : h₀.WellFormed) (entries : List (List U × Option V))
    (hsorted : entries.Pairwise fun a b => a.1 ≤ b.1) :
    ∃ root count h, fromSortedEntriesBy h₀ entries = some ((root, count), h) ∧
      (∀ k, h.entryAt root k = entries.reverse.lookup k) ∧ count = (entries.map Prod.fst).toFinset.card ∧
      (∃ nodes, h.Numbering root nodes) ∧
      ∀ p q, h.Below root p → h.Below root q → h.ValueFree p → h.ValueFree q → h.SameSuffixes p q → p = q := by
  have hfirst : ∀ e ∈ entries, (new h₀).previous ≤ e.1 := fun e _ => not_lt.1 (not_lt_nil e.1)
  obtain ⟨b, hfold, hb⟩ := insert_entries entries (between_new hwf) hfirst hsorted
  have hempty : Counted (new h₀) (fun _ => none) := ⟨∅, by simp, rfl⟩
  obtain ⟨hn, keys, hkeys, hcount⟩ := neat_entries entries (between_new hwf) (neat_new h₀) hempty hfirst hsorted hfold
  have hm := hn.finish hb
  refine ⟨b.finish.1.1, b.finish.1.2, b.finish.2, ?_, fun k => ?_, ?_, ⟨_, hm.numbering⟩,
    fun p q hp hq hv hv' hs => hm.eq_of_sameSuffixes hp hq hv hv' hs⟩
  · unfold fromSortedEntriesBy
    rw [hfold]
    rfl
  · rw [hb.finish.2.2]
    exact insertAll_none entries k
  · rw [termCount_finish, hcount]
    congr 1
    ext k
    rw [hkeys, insertAll_none, List.lookup_isSome_iff, List.mem_toFinset, List.mem_map]
    simp only [mem_reverse, beq_iff_eq]
    exact exists_congr fun e => and_congr_right fun _ => eq_comm

theorem sortedEntries_minimal_shared : ∃ root count h,
    fromSortedEntriesBy ([] : Heap Nat Nat) [([1, 3], none), ([2, 3], none), ([2, 3], some 7), ([4, 3], none)] =
      some ((root, count), h) ∧
    (∀ k, h.entryAt root k =
      [([4, 3], none), ([2, 3], some 7), ([2, 3], none), ([1, 3], (none : Option Nat))].lookup k) ∧ count = 3 ∧
    (∃ nodes, h.Numbering root nodes) ∧
    ∀ p q, h.Below root p → h.Below root q → h.ValueFree p → h.ValueFree q → h.SameSuffixes p q → p = q :=
  sortedEntries_minimal ⟨by simp, by simp, by simp⟩ _ (by decide)

end Dictenstein.Dawg
