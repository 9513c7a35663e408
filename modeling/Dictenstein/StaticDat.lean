import Dictenstein.BreadthFirst
import Dictenstein.StaticTrie
import Dictenstein.StepLoop
/-!
# StaticDat — placing a trie in a double array

The second phase of `StaticDATBuilder`, `build`: the nodes are taken breadth first, and for the children of each a base is
searched from `next_check_pos` on such that all their cells are free.  The assertion that the bases are not exhausted is one
of the ways in which the build ends; no other assertion of it can fail.
-/
namespace Dictenstein.Dat

open Function List

open BreadthFirst (Queued)
open SortedEdges

/-- The panics of `build`. -/
inductive BuildError
  | labelTooLarge
  | exhausted
  | stateTooLarge
deriving DecidableEq

structure StaticDATComponents (U V : Type) where
  raw : DATCoreShared U V
  termCount : Nat

/-- What `build` works on: the nodes, the arrays, the taken cells, the queue, and where the next search starts. -/
structure Placing (U V : Type) where
  nodes : List (TrieNode U V)
  arrays : DATCoreShared U V
  occupied : List Bool
  queue : List (Nat × Nat)
  nextCheckPos : Nat

section
variable {U V : Type} [LinearOrder U] [DatUnit U] [DoubleArrayUnit U]

def resize {α : Type} (l : List α) (len : Nat) (x : α) : List α := l.take len ++ List.replicate (len - l.length) x

variable (occupied : List Bool)

def skipOccupied (pos : Nat) : Nat := pos + ((occupied.drop pos).takeWhile id).length

def freeSlot (slot : Nat) : Bool := occupied.length ≤ slot || !occupied.getD slot false

def searchRound (edges : List (U × Nat)) (firstCode maxBase : Nat) (nextCheckPos : Nat) :
    Except BuildError (Nat ⊕ (Nat × Nat)) :=
  let nextCheckPos := skipOccupied occupied (max nextCheckPos (firstCode + 1))
  let candidate := nextCheckPos - firstCode
  if maxBase < candidate then .error .exhausted
  else if edges.all fun e => freeSlot occupied (candidate + code e.1) then .ok (.inr (candidate, nextCheckPos))
  else .ok (.inl (nextCheckPos + 1))

namespace Placing

variable (s : Placing U V)

def node (state : Nat) : TrieNode U V := s.nodes.getD state .new

def ensureLen (len : Nat) : Placing U V :=
  if len ≤ s.arrays.base.length then s
  else
    { s with
      arrays := ⟨resize s.arrays.base len (-1), resize s.arrays.check len (-1), resize s.arrays.isFinal len false,
        resize s.arrays.edges len [], resize s.arrays.values len none⟩
      occupied := resize s.occupied len false }

def placeChild (datState candidateBase : Nat) (s : Placing U V) (e : U × Nat) : Placing U V :=
  let childDatState := candidateBase + code e.1
  let s := s.ensureLen (childDatState + 1)
  { s with
    occupied := s.occupied.set childDatState true
    arrays := { s.arrays with
      check := s.arrays.check.set childDatState datState
      edges := s.arrays.edges.modify datState (· ++ [e.1]) }
    queue := s.queue ++ [(e.2, childDatState)] }

def visit (trieState datState : Nat) : Placing U V :=
  { s with
    nodes := s.nodes.modify trieState fun n => { n with value := none }
    arrays := { s.arrays with
      isFinal := s.arrays.isFinal.set datState (s.node trieState).isFinal
      values := s.arrays.values.set datState (s.node trieState).value } }

def placeAt (datState : Nat) (edges : List (U × Nat)) (candidateBase nextCheckPos : Nat) :
    Except BuildError (Placing U V) :=
  if i32Max < datState then .error .stateTooLarge
  else
    .ok <| edges.foldl (placeChild datState candidateBase)
      { s with arrays := { s.arrays with base := s.arrays.base.set datState candidateBase }, nextCheckPos := nextCheckPos }

def placeNode (fuel : Nat) (s : Placing U V) (trieState datState : Nat) : Option (Except BuildError (Placing U V)) :=
  let edges := (s.node trieState).edges
  let s := s.visit trieState datState
  match edges.head?, edges.getLast? with
  | some first, some last =>
    if i32Max < code last.1 then some (.error .labelTooLarge)
    else match StepLoop.run (searchRound s.occupied edges (code first.1) (i32Max - code last.1)) fuel s.nextCheckPos with
      | none => none
      | some (.error e) => some (.error e)
      | some (.ok (candidateBase, nextCheckPos)) => some (s.placeAt datState edges candidateBase nextCheckPos)
  | _, _ => some (.ok s)

def placeAll : Nat → Placing U V → Option (Except BuildError (Placing U V))
  | 0, _ => none
  | fuel + 1, s => match s.queue with
    | [] => some (.ok s)
    | (trieState, datState) :: queue => match placeNode fuel { s with queue := queue } trieState datState with
      | none => none
      | some (.error e) => some (.error e)
      | some (.ok s') => placeAll fuel s'

end Placing

namespace StaticDATBuilder

/-- The arrays before the first round: the root and the cells below it are taken. -/
def start (b : StaticDATBuilder U V) (rootState : Nat) : Placing U V where
  nodes := b.nodes
  arrays := ⟨List.replicate (rootState + 1) (-1), List.replicate (rootState + 1) (-1), List.replicate (rootState + 1) false,
    List.replicate (rootState + 1) [], List.replicate (rootState + 1) none⟩
  occupied := List.replicate (rootState + 1) true
  queue := [(0, rootState)]
  nextCheckPos := rootState + 1

def build (fuel : Nat) (b : StaticDATBuilder U V) (rootState : Nat) : Option (Except BuildError (StaticDATComponents U V)) :=
  match Placing.placeAll fuel (b.start rootState) with
  | none => none
  | some (.error e) => some (.error e)
  | some (.ok s) => some (.ok ⟨s.arrays, b.termCount⟩)

end StaticDATBuilder

/-! ## The search for a base -/

theorem le_skipOccupied (pos : Nat) : pos ≤ skipOccupied occupied pos := Nat.le_add_right _ _

theorem skipOccupied_le (pos : Nat) : skipOccupied occupied pos ≤ max pos occupied.length := by
  have hle := (takeWhile_sublist (l := occupied.drop pos) id).length_le
  rw [length_drop] at hle
  rw [skipOccupied]
  omega

/-- **The search ends**, with a base whose cells are all free or because none is left. It does not go past the first cell
that it may try, or the first behind the taken ones. -/
theorem search_ends (maxBase : Nat) {edges : List (U × Nat)} {firstCode : Nat}
    (hfirst : ∀ e ∈ edges, firstCode ≤ code e.1) (pos far : Nat) (hpos : pos ≤ far) (hcode : firstCode + 1 ≤ far)
    (hlen : occupied.length ≤ far) :
    StepLoop.Ends (searchRound occupied edges firstCode maxBase) pos (.error .exhausted) ∧ maxBase + firstCode < far ∨
      ∃ candidate,
        StepLoop.Ends (searchRound occupied edges firstCode maxBase) pos (.ok (candidate, candidate + firstCode)) ∧
        candidate ≤ maxBase ∧ candidate + firstCode ≤ far ∧
          ∀ e ∈ edges, freeSlot occupied (candidate + code e.1) = true := by
  induction hn : occupied.length - pos using Nat.strongRecOn generalizing pos with
  | _ n ih =>
    let next := skipOccupied occupied (max pos (firstCode + 1))
    have hge : max pos (firstCode + 1) ≤ next := le_skipOccupied ..
    have hle : next ≤ max (max pos (firstCode + 1)) occupied.length := skipOccupied_le ..
    by_cases hmax : maxBase < next - firstCode
    · exact .inl ⟨.of_error (if_pos hmax), by omega⟩
    · by_cases hall : (edges.all fun e => freeSlot occupied (next - firstCode + code e.1)) = true
      · refine .inr ⟨next - firstCode, .of_return ?_, Nat.le_of_not_lt hmax, by omega, all_eq_true.1 hall⟩
        rw [searchRound, if_neg hmax, if_pos hall, Nat.sub_add_cancel (by omega)]
      · have hround : searchRound occupied edges firstCode maxBase pos = .ok (.inl (next + 1)) := by
          rw [searchRound, if_neg hmax, if_neg hall]
        -- a taken cell is not behind the end, and no cell of the edges is before the first one
        have hlt : next < occupied.length := by
          simp only [all_eq_true, not_forall] at hall
          obtain ⟨e, he, htaken⟩ := hall
          have hcode := hfirst e he
          simp only [freeSlot, Bool.or_eq_true, decide_eq_true_eq, not_or, Nat.not_le] at htaken
          omega
        have hreach := StepLoop.Reaches.of_step hround
        rcases ih (occupied.length - (next + 1)) (by omega) (next + 1) (by omega) rfl with
          ⟨herr, hfar⟩ | ⟨candidate, hends, hrest⟩
        · exact .inl ⟨hreach.ends herr, hfar⟩
        · exact .inr ⟨candidate, hreach.ends hends, hrest⟩

/-! ## The arrays as total ones -/

@[ext]
structure Layout (U V : Type) extends DoubleArray.Cells V where
  edges : Nat → List U
  occupied : Nat → Bool

namespace Layout

variable (l : Layout U V)

def place (datState : Nat) (node : TrieNode U V) (candidateBase : Nat) : Layout U V where
  base := if node.edges = [] then l.base else update l.base datState candidateBase
  check x := if x ∈ node.edges.map (candidateBase + code ·.1) then datState else l.check x
  isFinal := update l.isFinal datState node.isFinal
  value := update l.value datState node.value
  edges := update l.edges datState (node.edges.map Prod.fst)
  occupied x := x ∈ node.edges.map (candidateBase + code ·.1) || l.occupied x

def link (datState slot : Nat) (label : U) : Layout U V :=
  { l with
    check := update l.check slot datState
    edges := update l.edges datState (l.edges datState ++ [label])
    occupied := update l.occupied slot true }

variable (datState candidateBase : Nat)

def linkAll (edges : List (U × Nat)) : Layout U V :=
  edges.foldl (fun l e => l.link datState (candidateBase + code e.1) e.1) l

theorem linkAll_eq (edges : List (U × Nat)) : l.linkAll datState candidateBase edges = { l with
        check := fun x => if x ∈ edges.map (candidateBase + code ·.1) then (datState : Int) else l.check x
        edges := update l.edges datState (l.edges datState ++ edges.map Prod.fst)
        occupied := fun x => x ∈ edges.map (candidateBase + code ·.1) || l.occupied x } := by
  induction edges generalizing l with
  | nil => simp [linkAll]
  | cons e edges ih =>
    have hcons : l.linkAll datState candidateBase (e :: edges) =
        (l.link datState (candidateBase + code e.1) e.1).linkAll datState candidateBase edges := rfl
    rw [hcons, ih]
    refine Layout.ext rfl ?_ rfl rfl ?_ ?_
    · funext x
      simp only [link, update_apply, map_cons, mem_cons]
      by_cases hx : x = candidateBase + code e.1
      · simp [hx]
      · rw [if_neg hx]
        exact if_congr (or_iff_right hx).symm rfl rfl
    · simp [link]
    · funext x
      simp only [link, update_apply, map_cons, mem_cons, Bool.decide_or]
      by_cases hx : x = candidateBase + code e.1
      · simp [hx]
      · rw [if_neg hx, decide_eq_false hx, Bool.false_or]

end Layout

namespace Placing

def layout (s : Placing U V) : Layout U V :=
  ⟨s.arrays.cells, fun x => s.arrays.edges.getD x [], fun x => s.occupied.getD x false⟩

structure Aligned (s : Placing U V) : Prop where
  check : s.arrays.check.length = s.arrays.base.length
  isFinal : s.arrays.isFinal.length = s.arrays.base.length
  edges : s.arrays.edges.length = s.arrays.base.length
  values : s.arrays.values.length = s.arrays.base.length
  occupied : s.occupied.length = s.arrays.base.length
  length : s.arrays.base.length ≤ i32Max + 1

variable {s : Placing U V}
variable {datState candidateBase trieState len : Nat}

section
omit [LinearOrder U] [DatUnit U] [DoubleArrayUnit U]

theorem resize_of_le {α : Type} {l : List α} (h : l.length ≤ len) (x : α) :
    resize l len x = l ++ List.replicate (len - l.length) x := by
  rw [resize, take_of_length_le h]

theorem ensureLen_spec (ha : s.Aligned) (hlen : len ≤ i32Max + 1) :
    (s.ensureLen len).Aligned ∧ (s.ensureLen len).layout = s.layout ∧ len ≤ (s.ensureLen len).arrays.base.length ∧
      s.arrays.base.length ≤ (s.ensureLen len).arrays.base.length := by
  rw [ensureLen]
  split
  · rename_i hle
    exact ⟨ha, rfl, hle, Nat.le_refl _⟩
  · rename_i hgt
    have hle : s.arrays.base.length ≤ len := by omega
    simp only [resize_of_le hle, resize_of_le (ha.check.trans_le hle), resize_of_le (ha.isFinal.trans_le hle),
      resize_of_le (ha.edges.trans_le hle), resize_of_le (ha.values.trans_le hle), resize_of_le (ha.occupied.trans_le hle)]
    have hlength : ∀ {α : Type} (l : List α) (x : α), l.length = s.arrays.base.length →
        (l ++ List.replicate (len - l.length) x).length = len := by
      intro α l x hl
      simp
      omega
    refine ⟨⟨?_, ?_, ?_, ?_, ?_, ?_⟩, ?_, ?_, ?_⟩
    · simp only [hlength _ _ ha.check, hlength _ _ rfl]
    · simp only [hlength _ _ ha.isFinal, hlength _ _ rfl]
    · simp only [hlength _ _ ha.edges, hlength _ _ rfl]
    · simp only [hlength _ _ ha.values, hlength _ _ rfl]
    · simp only [hlength _ _ ha.occupied, hlength _ _ rfl]
    · simp only [hlength _ _ rfl, hlen]
    · simp only [layout, DATCoreShared.cells, getD_append_replicate]
    · exact (hlength _ _ rfl).ge
    · exact hle.trans (hlength _ _ rfl).ge

end

theorem placeChild_spec (ha : s.Aligned) {e : U × Nat} (hstate : datState < s.arrays.base.length)
    (hslot : candidateBase + code e.1 ≤ i32Max) :
    (placeChild datState candidateBase s e).Aligned ∧
      (placeChild datState candidateBase s e).layout = s.layout.link datState (candidateBase + code e.1) e.1 ∧
      s.arrays.base.length ≤ (placeChild datState candidateBase s e).arrays.base.length := by
  obtain ⟨ha', hlayout, hlen, hgrow⟩ := ensureLen_spec ha (show candidateBase + code e.1 + 1 ≤ i32Max + 1 by omega)
  rw [placeChild, ← hlayout]
  generalize s.ensureLen (candidateBase + code e.1 + 1) = s' at *
  have hcheck : candidateBase + code e.1 < s'.arrays.check.length := ha'.check ▸ hlen
  have hoccupied : candidateBase + code e.1 < s'.occupied.length := ha'.occupied ▸ hlen
  have hedges : datState < s'.arrays.edges.length := ha'.edges ▸ hstate.trans_le hgrow
  refine ⟨⟨?_, ha'.isFinal, ?_, ha'.values, ?_, ha'.length⟩, ?_, hgrow⟩
  · exact length_set.trans ha'.check
  · exact (length_modify ..).trans ha'.edges
  · exact length_set.trans ha'.occupied
  · refine Layout.ext rfl (update_getD _ hcheck _) rfl rfl ?_ (update_getD _ hoccupied _)
    funext x
    simp only [layout, Layout.link, getD_modify _ hedges, update_apply]

theorem placeChildren_spec (edges : List (U × Nat)) (ha : s.Aligned) (hstate : datState < s.arrays.base.length)
    (hslots : ∀ e ∈ edges, candidateBase + code e.1 ≤ i32Max) :
    (edges.foldl (placeChild datState candidateBase) s).Aligned ∧
      (edges.foldl (placeChild datState candidateBase) s).layout = s.layout.linkAll datState candidateBase edges ∧
      (edges.foldl (placeChild datState candidateBase) s).queue =
        s.queue ++ edges.map fun e => (e.2, candidateBase + code e.1) := by
  induction edges generalizing s with
  | nil => exact ⟨ha, rfl, (append_nil _).symm⟩
  | cons e edges ih =>
    obtain ⟨ha', hlayout, hgrow⟩ := placeChild_spec ha hstate (hslots e mem_cons_self)
    obtain ⟨haligned, hlink, hqueue⟩ := ih ha' (Nat.lt_of_lt_of_le hstate hgrow)
      fun e he => hslots e (mem_cons_of_mem _ he)
    have hpushed : (placeChild datState candidateBase s e).queue = s.queue ++ [(e.2, candidateBase + code e.1)] := by
      rw [placeChild, ensureLen]
      split <;> rfl
    refine ⟨haligned, hlink.trans (by rw [hlayout]; rfl), hqueue.trans ?_⟩
    rw [hpushed, append_assoc]
    rfl

theorem nodes_placeChildren (datState candidateBase : Nat) (edges : List (U × Nat)) (s : Placing U V) :
    (edges.foldl (placeChild datState candidateBase) s).nodes = s.nodes := by
  induction edges generalizing s with
  | nil => rfl
  | cons e edges ih =>
    rw [foldl_cons, ih, placeChild, ensureLen]
    split <;> rfl

theorem length_placeChild (s : Placing U V) (e : U × Nat) : (placeChild datState candidateBase s e).arrays.base.length =
    max s.arrays.base.length (candidateBase + code e.1 + 1) := by
  simp only [placeChild, ensureLen]
  split
  · omega
  · simp only [resize, length_append, length_take, length_replicate]
    omega

theorem length_placeChildren (edges : List (U × Nat)) (s : Placing U V) {n : Nat} :
    (edges.foldl (placeChild datState candidateBase) s).arrays.base.length ≤ n ↔
      s.arrays.base.length ≤ n ∧ ∀ e ∈ edges, candidateBase + code e.1 < n := by
  induction edges generalizing s with
  | nil => simp
  | cons e edges ih =>
    rw [foldl_cons, ih, length_placeChild, Nat.max_le, forall_mem_cons]
    exact and_assoc

theorem nextCheckPos_placeChildren (edges : List (U × Nat)) (s : Placing U V) :
    (edges.foldl (placeChild datState candidateBase) s).nextCheckPos = s.nextCheckPos := by
  induction edges generalizing s with
  | nil => rfl
  | cons e edges ih =>
    rw [foldl_cons, ih, placeChild, ensureLen]
    split <;> rfl

/-- The arrays have at most `bound` cells, and the next search starts in them or right behind. -/
structure Within (s : Placing U V) (bound : Nat) : Prop where
  pos : s.nextCheckPos ≤ s.arrays.base.length
  length : s.arrays.base.length ≤ bound

/-- What a round of the queue does: the node is placed at a base where the cells of its children were free. -/
structure Places (s s' : Placing U V) (trieState datState candidateBase : Nat) : Prop where
  aligned : s'.Aligned
  layout : s'.layout = s.layout.place datState (s.node trieState) candidateBase
  free : ∀ e ∈ (s.node trieState).edges, s.layout.occupied (candidateBase + code e.1) = false
  queue : s'.queue = s.queue ++ (s.node trieState).edges.map fun e => (e.2, candidateBase + code e.1)
  nodes : s'.nodes = s.nodes.modify trieState fun n => { n with value := none }

omit [LinearOrder U] [DatUnit U] [DoubleArrayUnit U] in
theorem Aligned.visit (ha : s.Aligned) (trieState datState : Nat) : (s.visit trieState datState).Aligned :=
  ⟨ha.check, length_set.trans ha.isFinal, ha.edges, length_set.trans ha.values, ha.occupied, ha.length⟩

theorem placeAt_spec (ha : s.Aligned) (hstate : datState < s.arrays.base.length) (hempty : s.layout.edges datState = [])
    (hedges : (s.node trieState).edges ≠ []) (hslots : ∀ e ∈ (s.node trieState).edges, candidateBase + code e.1 ≤ i32Max)
    (hfree : ∀ e ∈ (s.node trieState).edges, s.layout.occupied (candidateBase + code e.1) = false) (pos : Nat) :
    ∃ s', (s.visit trieState datState).placeAt datState (s.node trieState).edges candidateBase pos = .ok s' ∧
      Places s s' trieState datState candidateBase ∧ s'.nextCheckPos = pos ∧ ∀ n, s'.arrays.base.length ≤ n ↔
        s.arrays.base.length ≤ n ∧ ∀ e ∈ (s.node trieState).edges, candidateBase + code e.1 < n := by
  have hle : ¬i32Max < datState := by
    have := ha.length
    omega
  have ha' := ha.visit trieState datState
  have haligned : Aligned { s.visit trieState datState with arrays := { (s.visit trieState datState).arrays with
      base := (s.visit trieState datState).arrays.base.set datState candidateBase }, nextCheckPos := pos } := by
    refine ⟨?_, ?_, ?_, ?_, ?_, ?_⟩ <;> simp only [length_set]
    exacts [ha'.check, ha'.isFinal, ha'.edges, ha'.values, ha'.occupied, ha'.length]
  obtain ⟨hdone, hlayout, hqueue⟩ := placeChildren_spec (s.node trieState).edges haligned
    (by rw [length_set]; exact hstate) hslots
  refine ⟨_, if_neg hle, ⟨hdone, hlayout.trans ?_, hfree, hqueue, nodes_placeChildren ..⟩, nextCheckPos_placeChildren ..,
    fun n => ?_⟩
  · rw [Layout.linkAll_eq]
    refine Layout.ext ?_ rfl ?_ ?_ ?_ rfl
    · rw [Layout.place, if_neg hedges]
      exact update_getD _ hstate _
    · exact update_getD _ (ha.isFinal ▸ hstate) _
    · exact update_getD _ (ha.values ▸ hstate) _
    · show update s.layout.edges datState (s.layout.edges datState ++ _) = _
      rw [hempty, nil_append]
      rfl
  · rw [length_placeChildren, length_set]
    rfl

theorem places_leaf (ha : s.Aligned) (hstate : datState < s.arrays.base.length) (hempty : s.layout.edges datState = [])
    (hedges : (s.node trieState).edges = []) :
    Places s (s.visit trieState datState) trieState datState 0 where
  aligned := ha.visit trieState datState
  layout := by
    have hkept : update s.layout.edges datState [] = s.layout.edges := by
      rw [← hempty, update_eq_self]
    rw [Layout.place, hedges, if_pos rfl]
    exact Layout.ext rfl rfl (update_getD _ (ha.isFinal ▸ hstate) _) (update_getD _ (ha.values ▸ hstate) _) hkept.symm rfl
  free e he := by
    rw [hedges] at he
    cases he
  queue := by
    rw [hedges]
    exact (append_nil _).symm
  nodes := rfl

omit [LinearOrder U] [DatUnit U] [DoubleArrayUnit U] in
theorem occupied_of_freeSlot {slot : Nat} (h : freeSlot s.occupied slot = true) : s.layout.occupied slot = false := by
  rw [freeSlot, Bool.or_eq_true, decide_eq_true_eq, Bool.not_eq_true'] at h
  rcases h with h | h
  · exact getD_eq_default _ _ h
  · exact h

/-- **One node**: it is placed, and the arrays grow by not much more than its largest label, or they already reach about as
far as cells can be numbered. -/
theorem placeNode_spec (ha : s.Aligned) (hstate : datState < s.arrays.base.length) (hempty : s.layout.edges datState = [])
    (hsorted : Sorted (s.node trieState).edges) :
    ∃ r, (∃ k, ∀ fuel, k ≤ fuel → placeNode fuel s trieState datState = some r) ∧
      (r = .error .exhausted ∧ (∀ bound maxCode, s.Within bound → (∀ e ∈ (s.node trieState).edges, code e.1 ≤ maxCode) →
          i32Max < bound + maxCode + 1) ∨
        ∃ s' candidateBase, r = .ok s' ∧ Places s s' trieState datState candidateBase ∧
          ∀ bound maxCode, s.Within bound → (∀ e ∈ (s.node trieState).edges, code e.1 ≤ maxCode) →
            s'.Within (bound + (maxCode + 2))) := by
  cases hfirst : (s.node trieState).edges.head? with
  | none =>
    have hedges := head?_eq_none_iff.1 hfirst
    refine ⟨.ok (s.visit trieState datState), ⟨0, fun fuel _ => ?_⟩,
      .inr ⟨_, 0, rfl, places_leaf ha hstate hempty hedges, ?_⟩⟩
    · simp only [placeNode, hfirst]
    · exact fun bound maxCode h _ => ⟨h.pos, h.length.trans (Nat.le_add_right ..)⟩
  | some first =>
    have hedges : (s.node trieState).edges ≠ [] := ne_nil_of_mem (mem_of_head? hfirst)
    obtain ⟨last, hlast⟩ : ∃ last, (s.node trieState).edges.getLast? = some last :=
      ⟨_, getLast?_eq_some_getLast hedges⟩
    have hlow : ∀ e ∈ (s.node trieState).edges, code first.1 ≤ code e.1 := fun e he =>
      DoubleArrayUnit.strictMono.monotone (le_of_head? hsorted hfirst he)
    have hhigh : ∀ e ∈ (s.node trieState).edges, code e.1 ≤ code last.1 := fun e he =>
      DoubleArrayUnit.strictMono.monotone (le_of_getLast? hsorted hlast he)
    have hlabel := DoubleArrayUnit.le last.1
    have hlastMem : last ∈ (s.node trieState).edges := mem_of_getLast? hlast
    have hmono := hlow last hlastMem
    simp only [placeNode, hfirst, hlast, if_neg (Nat.not_lt.2 hlabel)]
    -- the search starts in the arrays or at the first cell that is not too small for the label
    have hoccupied : s.occupied.length = s.arrays.base.length := ha.occupied
    rcases search_ends (s.visit trieState datState).occupied (i32Max - code last.1) hlow
      (s.visit trieState datState).nextCheckPos (max (max s.nextCheckPos s.arrays.base.length) (code first.1 + 1))
      ((Nat.le_max_left ..).trans (Nat.le_max_left ..)) (Nat.le_max_right ..)
      (show s.occupied.length ≤ _ from hoccupied ▸ (Nat.le_max_right ..).trans (Nat.le_max_left ..)) with
      ⟨⟨k, hk⟩, hfar⟩ | ⟨candidate, ⟨k, hk⟩, hmax, hfar, hfree⟩
    · refine ⟨.error .exhausted, ⟨k, fun fuel hfuel => ?_⟩, .inl ⟨rfl, fun bound maxCode hwithin hcodes => ?_⟩⟩
      · obtain ⟨more, rfl⟩ := Nat.exists_eq_add_of_le' hfuel
        rw [hk more]
      · have := hwithin.pos
        have := hwithin.length
        have := hcodes last hlastMem
        omega
    · have hslots : ∀ e ∈ (s.node trieState).edges, candidate + code e.1 ≤ i32Max := by
        intro e he
        have := hhigh e he
        omega
      obtain ⟨s', hplace, hplaces, hpos, hlength⟩ := placeAt_spec ha hstate hempty hedges hslots
        (fun e he => occupied_of_freeSlot (hfree e he)) (candidate + code first.1)
      refine ⟨.ok s', ⟨k, fun fuel hfuel => ?_⟩, .inr ⟨s', candidate, rfl, hplaces, fun bound maxCode hwithin hcodes => ?_⟩⟩
      · obtain ⟨more, rfl⟩ := Nat.exists_eq_add_of_le' hfuel
        rw [hk more]
        exact congrArg some hplace
      · have hcell := ((hlength s'.arrays.base.length).1 le_rfl).2 first (mem_of_head? hfirst)
        refine ⟨by omega, (hlength _).2 ⟨?_, fun e he => ?_⟩⟩
        · exact hwithin.length.trans (Nat.le_add_right ..)
        · have := hwithin.pos
          have := hwithin.length
          have := hcodes e he
          have := hlow e he
          omega

end Placing
end
end Dictenstein.Dat
