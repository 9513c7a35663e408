import Mathlib.Data.List.Sort
import Dictenstein.DawgHeap
/-!
# DawgBuilder — the minimal graph of a sorted list of terms

`SortedDawgBuilder` of `dynamic_dawg/lockfree.rs`.  The builder keeps the nodes of the last term on a stack; when the next
term leaves that path, the nodes below the common prefix are frozen, and a frozen node without a value is shared with an
earlier one that has the same finality and the same edges to the same addresses.
-/
namespace Dictenstein.Dawg

open Function List Option Heap

variable {U V : Type}

structure PendingBuildNode (U V : Type) where
  incomingLabel : Option U
  isFinal : Bool
  value : Option V
  edges : List (U × Nat)

namespace PendingBuildNode

def root : PendingBuildNode U V := ⟨none, false, none, []⟩

def child (incomingLabel : U) : PendingBuildNode U V := ⟨some incomingLabel, false, none, []⟩

variable (n : PendingBuildNode U V)

def node (snapshotId : Nat) : DawgNode U V := ⟨n.edges, n.isFinal, n.value, some snapshotId⟩

def Frozen (m : DawgNode U V) : Prop :=
  m.edges = n.edges ∧ m.isFinal = n.isFinal ∧ m.value = n.value

theorem frozen_node (snapshotId : Nat) : n.Frozen (n.node snapshotId) := ⟨rfl, rfl, rfl⟩

end PendingBuildNode

structure MergeSignature (U : Type) where
  isFinal : Bool
  edges : List (U × Nat)
deriving DecidableEq

def MergeSignature.Of (sig : MergeSignature U) (m : DawgNode U V) : Prop :=
  m.edges = sig.edges ∧ m.isFinal = sig.isFinal ∧ m.value = none

structure SortedDawgBuilder (U V : Type) where
  /-- The top of the stack first. -/
  pending : List (PendingBuildNode U V)
  interned : List (MergeSignature U × Nat)
  previous : List U
  termCount : Nat
  nextSnapshotId : Nat
  heap : Heap U V

def commonPrefix [DecidableEq U] (left right : List U) : Nat :=
  ((left.zip right).takeWhile fun p => p.1 = p.2).length

namespace SortedDawgBuilder

def new (heap : Heap U V) : SortedDawgBuilder U V := ⟨[.root], [], [], 0, 1, heap⟩

variable [LinearOrder U]

variable (b : SortedDawgBuilder U V)

def freeze (pending : PendingBuildNode U V) : Nat × SortedDawgBuilder U V :=
  let signature : MergeSignature U := ⟨pending.isFinal, pending.edges⟩
  match if pending.value.isNone then b.interned.lookup signature else none with
  | some existing => (existing, b)
  | none =>
    let (q, heap) := b.heap.alloc (pending.node b.nextSnapshotId)
    (q, { b with
      heap, nextSnapshotId := b.nextSnapshotId + 1
      interned := if pending.value.isNone then (signature, q) :: b.interned else b.interned })

def minimizeStep : SortedDawgBuilder U V :=
  match b.pending with
  | ⟨some label, isFinal, value, edges⟩ :: parent :: rest =>
    let (frozen, b) := b.freeze ⟨some label, isFinal, value, edges⟩
    { b with pending := { parent with edges := parent.edges ++ [(label, frozen)] } :: rest }
  | _ => b

def minimizeTo (prefixLen : Nat) : SortedDawgBuilder U V :=
  minimizeStep^[b.pending.length - (prefixLen + 1)] b

def push (label : U) : SortedDawgBuilder U V :=
  { b with pending := .child label :: b.pending }

def setTerminal (value : Option V) : SortedDawgBuilder U V :=
  match b.pending with
  | [] => b
  | terminal :: rest =>
    { b with
      termCount := if terminal.isFinal then b.termCount else b.termCount + 1
      pending := { terminal with isFinal := true, value } :: rest }

/-- `insert`; the assertion that the terms come in order fails with `none`. -/
def insert (units : List U) (value : Option V) : Option (SortedDawgBuilder U V) :=
  let common := commonPrefix b.previous units
  let ordered := common = b.previous.length ∨ ∃ x ∈ b.previous[common]?, ∃ y ∈ units[common]?, x < y
  if ordered then
    let b := (units.drop common).foldl push (b.minimizeTo common)
    some { b.setTerminal value with previous := units }
  else none

def finish : (Nat × Nat) × Heap U V :=
  let b := b.minimizeTo 0
  match b.pending with
  | root :: _ =>
    let (q, heap) := b.heap.alloc (root.node b.nextSnapshotId)
    ((q, b.termCount), heap)
  | [] => ((0, b.termCount), b.heap)

end SortedDawgBuilder

/-- `build_minimized_parts`.  The sort is stable. -/
def buildMinimizedParts [LinearOrder U] (heap : Heap U V) (entries : List (List U × Option V)) :
    Option ((Nat × Nat) × Heap U V) :=
  let sortedEntries := entries.insertionSort fun a b => a.1 ≤ b.1
  (sortedEntries.foldlM (fun (b : SortedDawgBuilder U V) e => b.insert e.1 e.2) (SortedDawgBuilder.new heap)).map
    SortedDawgBuilder.finish

/-! ## What the stack stands for -/

abbrev Content (U V : Type) := List U → Option (Option V)

section
variable [LinearOrder U]

/-- The terms below a node of the stack; `above` is the label and the terms of the node pushed on it. -/
def pendingContent (h : Heap U V) (n : PendingBuildNode U V) (above : Option (U × Content U V)) : Content U V
  | [] => if n.isFinal then some n.value else none
  | u :: us =>
    match above with
    | some (label, content) => if u = label then content us else (n.edges.lookup u).bind fun q => h.entryAt q us
    | none => (n.edges.lookup u).bind fun q => h.entryAt q us

def stackContent (h : Heap U V) : List (PendingBuildNode U V) → Option (U × Content U V) → Content U V
  | [], _ => fun _ => none
  | n :: rest, above => match n.incomingLabel with
    | none => pendingContent h n above
    | some label => stackContent h rest (some (label, pendingContent h n above))

/-- A node of the stack whose next node is under the label `above`: its frozen edges come before that label. -/
structure NodeOk (h : Heap U V) (n : PendingBuildNode U V) (above : Option U) : Prop where
  sorted : SortedEdges.Sorted n.edges
  target_lt : ∀ e ∈ n.edges, e.2 < h.length
  clean : n.isFinal = false → n.value = none
  before : ∀ label, above = some label → ∀ e ∈ n.edges, e.1 < label

/-- The stack of the nodes on a path, which is given from its end to the root. -/
inductive Chain (h : Heap U V) : List (PendingBuildNode U V) → List U → Option U → Prop where
  | root {n : PendingBuildNode U V} {above : Option U} (hn : NodeOk h n above) (hl : n.incomingLabel = none) :
      Chain h [n] [] above
  | push {n : PendingBuildNode U V} {above : Option U} {rest : List (PendingBuildNode U V)} {label : U} {path : List U}
      (hn : NodeOk h n above) (hl : n.incomingLabel = some label) (hrest : Chain h rest path (some label)) :
      Chain h (n :: rest) (label :: path) above

variable {h h' : Heap U V} {stack rest : List (PendingBuildNode U V)} {path : List U} {above : Option U}
  {n : PendingBuildNode U V} {label : U}

theorem Chain.length_eq (hc : Chain h stack path above) : stack.length = path.length + 1 := by
  induction hc with
  | root => rfl
  | push _ _ _ ih => rw [length_cons, length_cons, ih]

theorem NodeOk.extend (hn : NodeOk h n above) (he : h.Extends h') : NodeOk h' n above :=
  ⟨hn.sorted, fun e hm => lt_of_lt_of_le (hn.target_lt e hm) he.length_le, hn.clean, hn.before⟩

theorem Chain.extend (hc : Chain h stack path above) (he : h.Extends h') : Chain h' stack path above := by
  induction hc with
  | root hn hl => exact .root (hn.extend he) hl
  | push hn hl _ ih => exact .push (hn.extend he) hl ih

theorem pendingContent_extend (hwf : h.WellFormed) (hn : NodeOk h n above) (he : h.Extends h')
    (next : Option (U × Content U V)) : pendingContent h' n next = pendingContent h n next := by
  funext k
  cases k with
  | nil => rfl
  | cons u us =>
    have hedge : ((n.edges.lookup u).bind fun q => h'.entryAt q us) = (n.edges.lookup u).bind fun q => h.entryAt q us := by
      cases hq : n.edges.lookup u with
      | none => rfl
      | some q => exact entryAt_of_isPrefix hwf he.pre us (hn.target_lt _ (SortedEdges.mem_of_lookup hq))
    obtain _ | ⟨l, f⟩ := next
    · exact hedge
    · simp only [pendingContent, hedge]

theorem stackContent_extend (hwf : h.WellFormed) (hc : Chain h stack path above) (he : h.Extends h') :
    ∀ next : Option (U × Content U V), stackContent h' stack next = stackContent h stack next := by
  induction hc with
  | root hn hl =>
    intro next
    simp only [stackContent, hl]
    exact pendingContent_extend hwf hn he next
  | push hn hl _ ih =>
    intro next
    simp only [stackContent, hl]
    rw [pendingContent_extend hwf hn he next, ih]

theorem pendingContent_empty_above (hlabel : n.edges.lookup label = none) :
    pendingContent h n (some (label, fun _ => none)) = pendingContent h n none := by
  funext k
  cases k with
  | nil => rfl
  | cons u us =>
    simp only [pendingContent]
    split
    · rename_i hu
      rw [hu, hlabel]
      rfl
    · rfl

theorem pendingContent_update (h : Heap U V) (n : PendingBuildNode U V) (label : U) (f : Content U V) (k : List U)
    (x : Option (Option V)) : pendingContent h n (some (label, update f k x)) =
      update (pendingContent h n (some (label, f))) (label :: k) x := by
  funext key
  cases key with
  | nil => rw [update_of_ne (cons_ne_nil _ _).symm]; rfl
  | cons u us =>
    by_cases hu : u = label
    · subst hu
      by_cases hk : us = k
      · subst hk
        simp [pendingContent]
      · rw [update_of_ne (fun e => hk (cons.inj e).2)]
        simp [pendingContent, hk]
    · rw [update_of_ne (fun e => hu (cons.inj e).1)]
      simp [pendingContent, hu]

theorem stackContent_update (hc : Chain h stack path above) (label : U) (f : Content U V) (k : List U)
    (x : Option (Option V)) : stackContent h stack (some (label, update f k x)) =
      update (stackContent h stack (some (label, f))) (path.reverse ++ label :: k) x := by
  induction hc generalizing label f k with
  | root hn hl =>
    simp only [stackContent, hl]
    exact pendingContent_update h _ label f k x
  | push hn hl _ ih =>
    simp only [stackContent, hl, reverse_cons, append_assoc, singleton_append]
    rw [pendingContent_update, ih]

theorem entryAt_eq_pendingContent (hwf : h.WellFormed) {q : Nat} (hq : q < h.length)
    (hnode : n.Frozen (h.node q)) : h.entryAt q = pendingContent h n none := by
  obtain ⟨hedges, hfinal, hvalue⟩ := hnode
  funext k
  cases k with
  | nil => rw [entryAt_nil, entryOf, hfinal, hvalue]; rfl
  | cons u us => rw [entryAt_cons, hwf.find_eq hq, hedges]; rfl

end

/-! ## The steps of the builder -/

namespace SortedDawgBuilder

variable [LinearOrder U]

/-- The builder stands for the terms `content`, and its stack for the end of `path`. -/
structure Sound (h₀ : Heap U V) (b : SortedDawgBuilder U V) (path : List U) (content : Content U V) : Prop where
  extend : h₀.Extends b.heap
  interned : ∀ sig q, b.interned.lookup sig = some q → q < b.heap.length ∧ sig.Of (b.heap.node q)
  chain : Chain b.heap b.pending path none
  content_eq : stackContent b.heap b.pending none = content

variable {h₀ : Heap U V} {b : SortedDawgBuilder U V} {path : List U} {content : Content U V}
  {n : PendingBuildNode U V} {label : U}

/-- What freezing a node leaves: its address, and a heap and a table that have grown. -/
structure Frozen (b : SortedDawgBuilder U V) (n : PendingBuildNode U V) (r : Nat × SortedDawgBuilder U V) : Prop where
  extend : b.heap.Extends r.2.heap
  lt : r.1 < r.2.heap.length
  entry : r.2.heap.entryAt r.1 = pendingContent b.heap n none
  interned : ∀ sig q, r.2.interned.lookup sig = some q → q < r.2.heap.length ∧ sig.Of (r.2.heap.node q)
  pending_eq : r.2.pending = b.pending

theorem freeze_spec (hwf : b.heap.WellFormed) (hint : ∀ sig q, b.interned.lookup sig = some q →
      q < b.heap.length ∧ sig.Of (b.heap.node q))
    (hn : NodeOk b.heap n none) : Frozen b n (b.freeze n) := by
  unfold freeze
  simp only
  split
  · rename_i existing hlookup
    split at hlookup
    · rename_i hvalue
      obtain ⟨hlt, hnode⟩ := hint _ _ hlookup
      have hnode : n.Frozen (b.heap.node existing) :=
        ⟨hnode.1, hnode.2.1, hnode.2.2.trans (isNone_iff_eq_none.1 hvalue).symm⟩
      exact ⟨hwf.refl, hlt, entryAt_eq_pendingContent hwf hlt hnode, hint, rfl⟩
    · cases hlookup
  · let heap := b.heap ++ [n.node b.nextSnapshotId]
    have hext : b.heap.Extends heap :=
      ⟨prefix_append _ _, hwf.alloc hn.sorted hn.target_lt hn.clean⟩
    have hentry : entryAt heap b.heap.length = pendingContent b.heap n none := by
      rw [entryAt_eq_pendingContent hext.wf (by simp [heap])
        ((node_alloc b.heap (n.node b.nextSnapshotId)).symm ▸ n.frozen_node _),
        pendingContent_extend hwf hn hext]
    refine ⟨hext, by simp [alloc], hentry, fun sig q hq => ?_, rfl⟩
    have hold : ∀ sig q, b.interned.lookup sig = some q → q < heap.length ∧
        sig.Of (node heap q) := by
      intro sig q hq
      obtain ⟨hlt, hnode⟩ := hint sig q hq
      exact ⟨lt_of_lt_of_le hlt hext.length_le, by rwa [node_of_isPrefix hext.pre hlt]⟩
    simp only [alloc] at hq ⊢
    split at hq
    · rename_i hvalue
      rw [lookup_cons] at hq
      split at hq
      · rename_i heq
        obtain rfl := eq_of_beq heq
        cases hq
        refine ⟨by simp, ?_⟩
        rw [node_alloc]
        exact ⟨rfl, rfl, isNone_iff_eq_none.1 hvalue⟩
      · exact hold sig q hq
    · exact hold sig q hq

variable {es : List (U × Nat)}

theorem sorted_append_edge (hs : SortedEdges.Sorted es) (hbefore : ∀ e ∈ es, e.1 < label)
    (q : Nat) : SortedEdges.Sorted (es ++ [(label, q)]) := by
  refine pairwise_append.2 ⟨hs, pairwise_singleton _ _, fun e he e' he' => ?_⟩
  rw [mem_singleton.1 he']
  exact hbefore e he

theorem lookup_append_edge (hbefore : ∀ e ∈ es, e.1 < label) (q : Nat) (u : U) :
    (es ++ [(label, q)]).lookup u = if u = label then some q else es.lookup u := by
  rw [lookup_append, SortedEdges.lookup_cons]
  by_cases hu : u = label
  · have hnone : es.lookup u = none := lookup_eq_none_iff.2 fun e he => by simpa [hu] using (hbefore e he).ne'
    rw [hnone, if_pos hu, if_pos hu]
    rfl
  · rw [if_neg hu, if_neg hu]
    exact or_none

theorem minimizeStep_eq {isFinal : Bool} {value : Option V} {parent : PendingBuildNode U V}
    {rest : List (PendingBuildNode U V)} (hstack : b.pending = ⟨some label, isFinal, value, es⟩ :: parent :: rest) :
    b.minimizeStep = { (b.freeze ⟨some label, isFinal, value, es⟩).2 with
      pending := { parent with
        edges := parent.edges ++ [(label, (b.freeze ⟨some label, isFinal, value, es⟩).1)] } :: rest } := by
  unfold SortedDawgBuilder.minimizeStep
  rw [hstack]

/-- **Freezing the top of the stack keeps the terms**: its label is behind all the edges its parent has. -/
theorem Sound.minimizeStep (hs : Sound h₀ b (label :: path) content) : Sound h₀ b.minimizeStep path content ∧
      ∃ top rest, b.minimizeStep.pending = top :: rest ∧ ∀ e ∈ top.edges, e.1 ≤ label := by
  obtain ⟨hext, hint, hchain, hcontent⟩ := hs
  generalize hstack : b.pending = stack at hchain hcontent
  cases hchain with
  | @push node _ rest _ _ hn hl hrest =>
    obtain ⟨incoming, isFinal, value, edges⟩ := node
    obtain rfl : incoming = some label := hl
    -- the parent and what is under it
    cases rest with
    | nil => cases hrest
    | cons parent rest =>
      have hparent : NodeOk b.heap parent (some label) := by cases hrest <;> assumption
      have hfrozen := freeze_spec hext.wf hint hn
      rw [minimizeStep_eq hstack]
      generalize b.freeze ⟨some label, isFinal, value, edges⟩ = r at *
      have hbefore := hparent.before label rfl
      have hok : NodeOk r.2.heap { parent with edges := parent.edges ++ [(label, r.1)] } none := by
        refine ⟨sorted_append_edge hparent.sorted hbefore r.1,
          forall_mem_append.2 ⟨fun e he => ?_, forall_mem_singleton.2 hfrozen.lt⟩,
          hparent.clean, nofun⟩
        exact lt_of_lt_of_le (hparent.target_lt e he) hfrozen.extend.length_le
      have hnode : pendingContent r.2.heap { parent with edges := parent.edges ++ [(label, r.1)] } none =
          pendingContent r.2.heap parent
            (some (label, pendingContent b.heap ⟨some label, isFinal, value, edges⟩ none)) := by
        funext k
        cases k with
        | nil => rfl
        | cons u us =>
          show ((parent.edges ++ [(label, r.1)]).lookup u).bind _ = ite (u = label) _ _
          rw [lookup_append_edge hbefore]
          split
          · rw [bind_some, hfrozen.entry]
          · rfl
      refine ⟨⟨hext.trans hfrozen.extend, hfrozen.interned, ?_, ?_⟩, _, rest, rfl,
        forall_mem_append.2 ⟨fun e he => (hbefore e he).le, forall_mem_singleton.2 le_rfl⟩⟩
      · cases hrest with
        | root _ hl => exact .root hok hl
        | push _ hl hrest => exact .push hok hl (hrest.extend hfrozen.extend)
      · -- the content of the stack, with the frozen node in place of the pending one
        have hpop : stackContent b.heap (⟨some label, isFinal, value, edges⟩ :: parent :: rest) none =
            stackContent b.heap (parent :: rest)
              (some (label, pendingContent b.heap ⟨some label, isFinal, value, edges⟩ none)) := rfl
        rw [← hcontent, hpop, ← stackContent_extend hext.wf hrest hfrozen.extend]
        simp only [stackContent, hnode]

/-- The node on top of the stack meets a condition on its edges. -/
def TopEdges (b : SortedDawgBuilder U V) (P : List (U × Nat) → Prop) : Prop :=
  ∃ top rest, b.pending = top :: rest ∧ P top.edges

theorem Sound.minimizeSteps : ∀ (ys : List U) {b : SortedDawgBuilder U V}, Sound h₀ b (ys ++ label :: path) content →
      Sound h₀ (SortedDawgBuilder.minimizeStep^[ys.length + 1] b) path content ∧
        (SortedDawgBuilder.minimizeStep^[ys.length + 1] b).TopEdges fun es => ∀ e ∈ es, e.1 ≤ label
  | [], b, hs => hs.minimizeStep
  | y :: ys, b, hs => by
    obtain ⟨hs, -⟩ := hs.minimizeStep
    exact Sound.minimizeSteps ys hs

theorem Sound.minimizeTo {pre rest : List U} (hs : Sound h₀ b (rest.reverse ++ pre.reverse) content) :
    b.minimizeTo pre.length = SortedDawgBuilder.minimizeStep^[rest.length] b := by
  unfold SortedDawgBuilder.minimizeTo
  rw [hs.chain.length_eq]
  congr 2
  simp only [length_append, length_reverse]
  omega

theorem Sound.push (hs : Sound h₀ b path content) (htop : b.TopEdges fun es => ∀ e ∈ es, e.1 < label) :
    Sound h₀ (b.push label) (label :: path) content ∧ (b.push label).TopEdges fun es => es = [] := by
  obtain ⟨hext, hint, hchain, hcontent⟩ := hs
  obtain ⟨top, rest, hstack, hbefore⟩ := htop
  rw [hstack] at hchain hcontent
  have hlookup : top.edges.lookup label = none := by
    rw [lookup_eq_none_iff]
    intro e he
    simpa using (hbefore e he).ne'
  refine ⟨⟨hext, hint, ?_, ?_⟩, _, _, rfl, rfl⟩
  · show Chain b.heap (.child label :: b.pending) (label :: path) none
    rw [hstack]
    have hok : ∀ n : PendingBuildNode U V, NodeOk b.heap n none → (∀ e ∈ n.edges, e.1 < label) →
        NodeOk b.heap n (some label) := fun n hn hlt =>
      ⟨hn.sorted, hn.target_lt, hn.clean, fun l hl e he => (some.inj hl) ▸ hlt e he⟩
    refine .push ⟨List.Pairwise.nil, nofun, fun _ => rfl, nofun⟩ rfl ?_
    cases hchain with
    | root hn hl => exact .root (hok top hn hbefore) hl
    | push hn hl hrest => exact .push (hok top hn hbefore) hl hrest
  · have hempty : pendingContent b.heap (.child label) none = fun _ => none := by
      funext k
      cases k <;> rfl
    show stackContent b.heap (.child label :: b.pending) none = content
    rw [hstack, ← hcontent]
    have hpush : stackContent b.heap (.child label :: top :: rest) none =
        stackContent b.heap (top :: rest) (some (label, pendingContent b.heap (.child label) none)) := rfl
    rw [hpush, hempty]
    simp only [stackContent, pendingContent_empty_above hlookup]

theorem Sound.pushAll : ∀ (labels : List U) {b : SortedDawgBuilder U V} {path : List U}, Sound h₀ b path content →
    (b.TopEdges fun es => es = [] ∨ ∃ label ∈ labels.head?, ∀ e ∈ es, e.1 < label) →
      Sound h₀ (labels.foldl SortedDawgBuilder.push b) (labels.reverse ++ path) content ∧
        (labels.foldl SortedDawgBuilder.push b).TopEdges fun es => es = []
  | [], b, path, hs, htop => by
    obtain ⟨top, rest, hstack, hedges | ⟨label, hlabel, -⟩⟩ := htop
    · exact ⟨hs, top, rest, hstack, hedges⟩
    · cases hlabel
  | label :: labels, b, path, hs, htop => by
    have hbefore : b.TopEdges fun es => ∀ e ∈ es, e.1 < label := by
      obtain ⟨top, rest, hstack, hedges | ⟨_, hlabel, hbefore⟩⟩ := htop
      · exact ⟨top, rest, hstack, by simp [hedges]⟩
      · cases hlabel
        exact ⟨top, rest, hstack, hbefore⟩
    obtain ⟨hs, top, rest, hstack, hedges⟩ := hs.push hbefore
    have := Sound.pushAll labels hs ⟨top, rest, hstack, .inl hedges⟩
    rwa [reverse_cons, append_assoc]

theorem Sound.setTerminal (hs : Sound h₀ b path content) (value : Option V) :
    Sound h₀ (b.setTerminal value) path (update content path.reverse (some value)) := by
  obtain ⟨hext, hint, hchain, hcontent⟩ := hs
  have hnode : ∀ n : PendingBuildNode U V, pendingContent b.heap { n with isFinal := true, value } none =
      update (pendingContent b.heap n none) [] (some value) := by
    intro n
    funext k
    cases k with
    | nil => rw [update_self]; rfl
    | cons u us => rw [update_of_ne (cons_ne_nil _ _)]; rfl
  have hok : ∀ n : PendingBuildNode U V, NodeOk b.heap n none → NodeOk b.heap { n with isFinal := true, value } none :=
    fun n hn =>
    ⟨hn.sorted, hn.target_lt, nofun, hn.before⟩
  unfold SortedDawgBuilder.setTerminal
  rw [← hcontent]
  generalize b.pending = stack at hchain
  cases hchain with
  | root hn hl =>
    refine ⟨hext, hint, .root (hok _ hn) hl, ?_⟩
    simp only [stackContent, hl]
    exact hnode _
  | @push n _ rest label path hn hl hrest =>
    refine ⟨hext, hint, .push (hok _ hn) hl hrest, ?_⟩
    obtain ⟨incoming, isFinal, old, edges⟩ := n
    obtain rfl : incoming = some label := hl
    show stackContent b.heap rest (some (label, pendingContent b.heap ⟨some label, true, value, edges⟩ none)) = _
    rw [hnode ⟨some label, isFinal, old, edges⟩, stackContent_update hrest, reverse_cons]
    rfl

/-! ## A whole list of terms -/

end SortedDawgBuilder

section
variable [LinearOrder U]

theorem commonPrefix_spec : ∀ l r : List U, ∃ pre a d, l = pre ++ a ∧ r = pre ++ d ∧ pre.length = commonPrefix l r ∧
    ∀ x ∈ a.head?, ∀ y ∈ d.head?, x ≠ y
  | [], r => ⟨[], [], r, rfl, rfl, by simp [commonPrefix], by simp⟩
  | x :: l, [] => ⟨[], x :: l, [], rfl, rfl, by simp [commonPrefix], by simp⟩
  | x :: l, y :: r => by
    by_cases h : x = y
    · subst h
      obtain ⟨pre, a, d, hl, hr, hlen, hne⟩ := commonPrefix_spec l r
      refine ⟨x :: pre, a, d, by rw [hl]; rfl, by rw [hr]; rfl, ?_, hne⟩
      simp only [commonPrefix] at hlen ⊢
      simp [hlen]
    · exact ⟨[], x :: l, y :: r, rfl, rfl, by simp [commonPrefix, h], by simpa using h⟩

theorem parts_of_le {pre a d : List U} (hle : pre ++ a ≤ pre ++ d) (hne : ∀ x ∈ a.head?, ∀ y ∈ d.head?, x ≠ y) :
    a = [] ∨ ∃ x xs y ys, a = x :: xs ∧ d = y :: ys ∧ x < y := by
  have hle' : ¬ d < a := fun h => not_lt.2 hle (append_left_lt h)
  cases a with
  | nil => exact .inl rfl
  | cons x xs =>
    right
    cases d with
    | nil => exact absurd (nil_lt_cons x xs) hle'
    | cons y ys =>
      refine ⟨x, xs, y, ys, rfl, rfl, ?_⟩
      obtain hlt | heq | hgt := lt_trichotomy x y
      · exact hlt
      · exact absurd heq (hne x rfl y rfl)
      · exact absurd (cons_lt_cons_iff.2 (.inl hgt)) hle'

end

namespace SortedDawgBuilder

variable [LinearOrder U] {h₀ : Heap U V} {b : SortedDawgBuilder U V} {content : Content U V}

/-- A builder between two terms: its stack is the path of the last one, which ends in a node without edges. -/
structure Between (h₀ : Heap U V) (b : SortedDawgBuilder U V) (content : Content U V) : Prop where
  sound : Sound h₀ b b.previous.reverse content
  top : b.TopEdges fun es => es = []

theorem between_new (hwf : h₀.WellFormed) : Between h₀ (new h₀) fun _ => none := by
  refine ⟨⟨hwf.refl, nofun, .root ⟨List.Pairwise.nil, nofun, fun _ => rfl, nofun⟩ rfl, ?_⟩, _, _, rfl, rfl⟩
  funext k
  cases k <;> rfl

/-- The builder with the path of a term on its stack, before the end of the term is marked. -/
def openPath (b : SortedDawgBuilder U V) (units : List U) : SortedDawgBuilder U V :=
  (units.drop (commonPrefix b.previous units)).foldl SortedDawgBuilder.push (b.minimizeTo (commonPrefix b.previous units))

variable {units : List U}

theorem Between.openPath (hb : Between h₀ b content) (hle : b.previous ≤ units) :
    Sound h₀ (b.openPath units) units.reverse content ∧ (b.openPath units).TopEdges fun es => es = [] := by
  obtain ⟨pre, a, d, hprev, rfl, hlen, hne⟩ := commonPrefix_spec b.previous units
  have hsound := hb.sound
  rw [hprev, reverse_append] at hsound
  rw [hprev] at hle
  -- what is left of the stack, and that the next label comes behind its edges
  have hmin : Sound h₀ (b.minimizeTo pre.length) pre.reverse content ∧
      (b.minimizeTo pre.length).TopEdges fun es => es = [] ∨ ∃ label ∈ d.head?, ∀ e ∈ es, e.1 < label := by
    rw [hsound.minimizeTo]
    obtain rfl | ⟨x, xs, y, ys, rfl, rfl, hlt⟩ := parts_of_le hle hne
    · obtain ⟨top, rest, hstack, hedges⟩ := hb.top
      exact ⟨hsound, top, rest, hstack, .inl hedges⟩
    · rw [reverse_cons, append_assoc] at hsound
      obtain ⟨hs, top, rest, hstack, hedges⟩ := hsound.minimizeSteps xs.reverse
      rw [length_reverse] at hs hstack
      exact ⟨hs, top, rest, hstack, .inr ⟨y, rfl, fun e he => lt_of_le_of_lt (hedges e he) hlt⟩⟩
  unfold SortedDawgBuilder.openPath
  rw [← hlen, drop_left, reverse_append]
  exact Sound.pushAll d hmin.1 hmin.2

theorem insert_of_le (hle : b.previous ≤ units) (value : Option V) :
    b.insert units value = some { (b.openPath units).setTerminal value with previous := units } := by
  obtain ⟨pre, a, d, hprev, rfl, hlen, hne⟩ := commonPrefix_spec b.previous units
  rw [hprev] at hle
  have hordered : commonPrefix b.previous (pre ++ d) = b.previous.length ∨
    ∃ x ∈ b.previous[commonPrefix b.previous (pre ++ d)]?,
        ∃ y ∈ (pre ++ d)[commonPrefix b.previous (pre ++ d)]?, x < y := by
    rw [← hlen]
    obtain rfl | ⟨x, xs, y, ys, rfl, rfl, hlt⟩ := parts_of_le hle hne
    · exact .inl (by rw [hprev]; simp)
    · exact .inr ⟨x, by rw [hprev]; simp, y, by simp, hlt⟩
  exact if_pos hordered

section
variable (hb : Between h₀ b content)
include hb

theorem Between.insert (hle : b.previous ≤ units) (value : Option V) :
    ∃ b', b.insert units value = some b' ∧ b'.previous = units ∧ Between h₀ b' (update content units (some value)) := by
  obtain ⟨hs, top, rest, hstack, hedges⟩ := hb.openPath hle
  have hterm := hs.setTerminal value
  rw [reverse_reverse] at hterm
  refine ⟨_, insert_of_le hle value, rfl, ⟨⟨hterm.extend, hterm.interned, hterm.chain, hterm.content_eq⟩, ?_⟩⟩
  refine ⟨{ top with isFinal := true, value }, rest, ?_, hedges⟩
  simp only [SortedDawgBuilder.setTerminal, hstack]

theorem Between.minimizeTo_zero : Sound h₀ (b.minimizeTo 0) [] content := by
  have hsound : Sound h₀ b (b.previous.reverse ++ ([] : List U).reverse) content := by
    rw [reverse_nil, append_nil]
    exact hb.sound
  have hmin := hsound.minimizeTo
  rw [length_nil] at hmin
  rw [hmin]
  rcases hprev : b.previous with _ | ⟨x, xs⟩
  · rw [hprev] at hsound
    exact hsound
  · rw [hprev, reverse_cons, append_assoc] at hsound
    have hsteps := (hsound.minimizeSteps xs.reverse).1
    rwa [length_reverse] at hsteps

theorem Between.finish : h₀.Extends b.finish.2 ∧ b.finish.1.1 < b.finish.2.length ∧
    b.finish.2.entryAt b.finish.1.1 = content := by
  obtain ⟨hext, -, hchain, hcontent⟩ := hb.minimizeTo_zero
  unfold SortedDawgBuilder.finish
  simp only
  generalize (b.minimizeTo 0).pending = stack at hchain hcontent
  cases hchain with
  | @root n _ hn hl =>
    have hext' : (b.minimizeTo 0).heap.Extends ((b.minimizeTo 0).heap ++ [n.node (b.minimizeTo 0).nextSnapshotId]) :=
      ⟨prefix_append _ _, hext.wf.alloc hn.sorted hn.target_lt hn.clean⟩
    refine ⟨hext.trans hext', by simp [alloc], ?_⟩
    show entryAt ((b.minimizeTo 0).heap ++ [n.node (b.minimizeTo 0).nextSnapshotId]) (b.minimizeTo 0).heap.length = content
    rw [entryAt_eq_pendingContent hext'.wf (by simp)
      ((node_alloc (b.minimizeTo 0).heap (n.node (b.minimizeTo 0).nextSnapshotId)).symm ▸ n.frozen_node _),
      pendingContent_extend hext.wf hn hext', ← hcontent]
    simp only [stackContent, hl]

end

end SortedDawgBuilder

section
variable [LinearOrder U]

/-- What inserting a list of terms one after the other leaves, the last value of a term winning. -/
def insertAll (content : Content U V) (entries : List (List U × Option V)) : Content U V :=
  entries.foldl (fun c e => update c e.1 (some e.2)) content

variable {h₀ : Heap U V}

theorem insert_entries : ∀ (entries : List (List U × Option V)) {b : SortedDawgBuilder U V}
    {content : Content U V}, SortedDawgBuilder.Between h₀ b content → (∀ e ∈ entries, b.previous ≤ e.1) →
    entries.Pairwise (fun a b => a.1 ≤ b.1) →
      ∃ b', entries.foldlM (fun (b : SortedDawgBuilder U V) e => b.insert e.1 e.2) b = some b' ∧
        SortedDawgBuilder.Between h₀ b' (insertAll content entries)
  | [], b, content, hb, _, _ => ⟨b, rfl, hb⟩
  | e :: entries, b, content, hb, hle, hsorted => by
    obtain ⟨hfirst, hsorted⟩ := pairwise_cons.1 hsorted
    obtain ⟨b₁, hinsert, hprev, hb₁⟩ := hb.insert (hle e (.head _)) e.2
    obtain ⟨b₂, hrest, hb₂⟩ := insert_entries entries hb₁ (fun e' he' => hprev ▸ hfirst e' he') hsorted
    refine ⟨b₂, ?_, hb₂⟩
    rw [foldlM_cons, hinsert]
    exact hrest

/-- **The minimal graph of a list of terms reads as that list**, in the order of the terms, the last value of a term
winning. -/
theorem buildMinimizedParts_spec (hwf : h₀.WellFormed) (entries : List (List U × Option V)) :
    ∃ q count h', buildMinimizedParts h₀ entries = some ((q, count), h') ∧ h₀.Extends h' ∧ q < h'.length ∧
      h'.entryAt q = insertAll (fun _ => none) (entries.insertionSort fun a b => a.1 ≤ b.1) := by
  have : Std.Total fun a b : List U × Option V => a.1 ≤ b.1 := ⟨fun a b => le_total a.1 b.1⟩
  have : IsTrans (List U × Option V) fun a b => a.1 ≤ b.1 := ⟨fun _ _ _ => le_trans⟩
  obtain ⟨b, hfold, hb⟩ := insert_entries (entries.insertionSort fun a b => a.1 ≤ b.1)
    (SortedDawgBuilder.between_new hwf) (fun e _ => not_lt.1 (not_lt_nil e.1)) (pairwise_insertionSort _ _)
  obtain ⟨hext, hlt, hentry⟩ := hb.finish
  refine ⟨b.finish.1.1, b.finish.1.2, b.finish.2, ?_, hext, hlt, hentry⟩
  unfold buildMinimizedParts
  simp only [hfold]
  rfl

theorem insertAll_eq_some_iff : ∀ (entries : List (List U × Option V)) (content : Content U V),
    entries.Pairwise (fun a b => a.1 < b.1) → ∀ k v,
      insertAll content entries k = some v ↔ (k, v) ∈ entries ∨ (∀ e ∈ entries, e.1 ≠ k) ∧ content k = some v
  | [], content, _, k, v => by simp [insertAll]
  | e :: entries, content, hsorted, k, v => by
    obtain ⟨hfirst, hsorted⟩ := pairwise_cons.1 hsorted
    have ih := insertAll_eq_some_iff entries (update content e.1 (some e.2)) hsorted k v
    show insertAll (update content e.1 (some e.2)) entries k = some v ↔ _
    rw [ih, mem_cons, forall_mem_cons]
    by_cases hk : e.1 = k
    · subst hk
      have hlater : ∀ e' ∈ entries, e'.1 ≠ e.1 := fun e' he' => (hfirst e' he').ne'
      have hnot : (e.1, v) ∉ entries := fun hmem => hlater _ hmem rfl
      rw [update_self]
      constructor
      · rintro (hmem | ⟨-, hv⟩)
        · exact absurd hmem hnot
        · cases hv
          exact .inl (.inl rfl)
      · rintro ((h | hmem) | ⟨⟨hne, -⟩, -⟩)
        · exact .inr ⟨hlater, by rw [← h]⟩
        · exact absurd hmem hnot
        · exact absurd rfl hne
    · have hne : (k, v) ≠ e := fun h => hk (by rw [← h])
      rw [update_of_ne (Ne.symm hk)]
      simp only [hne, false_or, ne_eq, hk, not_false_eq_true, true_and]

end

end Dictenstein.Dawg
