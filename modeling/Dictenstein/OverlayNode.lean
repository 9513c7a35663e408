import Dictenstein.SortedEdges
import Dictenstein.Wire
/-! # OverlayNode — the immutable overlay trie and its path-copying builders

Nothing is updated in place: a writer copies the path from the root to the key and publishes the copy by one
compare-and-swap of the root.

The three builders of the durable write paths (membership insert, membership remove, valued write) differ only at the end of
the key, at a null edge and at a missing edge. They are one definition here, `pathCopy`, and one lemma, `entryAt_pathCopy`,
says what any of them does to the key-to-value map. -/

namespace Dictenstein.Overlay

open Option

inductive PersistentARTrieError where
  | internal (msg : String)
  | corrupted (msg : String)
  | invalidOperation (msg : String)
  | ioError (msg : String)
  -- "try_increment_cas_durable delta for byte term .. exceeds the i64 per-call WAL delta domain: .."
  | deltaOutOfDomain (key : List UInt8) (delta : Nat)
  -- "lock-free increment overflow for term ..: current .. + .. exceeds u64 counter domain"
  | incrementOverflow (key : List UInt8) (current : Int) (delta : Nat)
  deriving DecidableEq, Repr

/-! ## Nodes -/

structure SwizzledPtr where
  state : UInt64
  deriving DecidableEq, Repr

def SwizzledPtr.isNull (p : SwizzledPtr) : Bool := p.state == 0

mutual
inductive OverlayNode (U V : Type) where
  | mk (isFinal : Bool) (value : Option V) (store : List (U × Child U V))
inductive Child (U V : Type) where
  | inMem (node : OverlayNode U V)
  | onDisk (ptr : SwizzledPtr)
end

variable {U V C : Type} [DecidableEq U] [LT U] [DecidableLT U]

def findEdge (label : U) : List (U × C) → Option C
  | [] => none
  | (edge, child) :: es => if edge = label then some child else findEdge label es

/-- The edge store's `with_edge`: replace the edge, or insert it at its place in the order. -/
def withEdge (label : U) (child : C) : List (U × C) → List (U × C)
  | [] => [(label, child)]
  | (edge, old) :: es =>
    if edge = label then (label, child) :: es
    else if label < edge then (label, child) :: (edge, old) :: es
    else (edge, old) :: withEdge label child es

omit [LT U] [DecidableLT U] in
@[simp] theorem findEdge_nil (label : U) : findEdge label ([] : List (U × C)) = none := rfl

theorem findEdge_withEdge (label other : U) (child : C) (es : List (U × C)) :
    findEdge other (withEdge label child es) = if label = other then some child else findEdge other es := by
  induction es with
  | nil => simp [withEdge, findEdge]
  | cons e es ih =>
    obtain ⟨edge, old⟩ := e
    by_cases hedge : edge = label
    · subst hedge
      by_cases h : edge = other <;> simp [withEdge, findEdge, h]
    · by_cases hlt : label < edge
      · simp [withEdge, findEdge, hedge, hlt]
      · by_cases h : label = other
        · subst h
          simp [withEdge, findEdge, hedge, hlt, ih]
        · simp [withEdge, findEdge, hedge, hlt, ih, h]

omit [DecidableEq U] [LT U] [DecidableLT U] in
theorem findEdge_eq_lookup {L : Type} [LinearOrder L] (label : L) : ∀ es : List (L × C), findEdge label es = es.lookup label
  | [] => rfl
  | (edge, c) :: es => by
    rw [SortedEdges.lookup_cons, findEdge, findEdge_eq_lookup label es]
    by_cases h : edge = label
    · rw [if_pos h, if_pos h.symm]
    · rw [if_neg h, if_neg (Ne.symm h)]

namespace OverlayNode

def isFinal : OverlayNode U V → Bool
  | mk f _ _ => f

def value : OverlayNode U V → Option V
  | mk _ v _ => v

def store : OverlayNode U V → List (U × Child U V)
  | mk _ _ es => es

def new : OverlayNode U V := mk false none []

def findChild (n : OverlayNode U V) (u : U) : Option (Child U V) := findEdge u n.store

def withChild (n : OverlayNode U V) (u : U) (c : Child U V) : OverlayNode U V :=
  mk n.isFinal n.value (withEdge u c n.store)

def asFinal (n : OverlayNode U V) : OverlayNode U V := mk true n.value n.store

-- clears the value with the finality and keeps the children
def asNonFinal (n : OverlayNode U V) : OverlayNode U V := mk false none n.store

def withValue (n : OverlayNode U V) (v : V) : OverlayNode U V := mk n.isFinal (some v) n.store

/-- What a node says about the key it ends: absent, or present with an optional value. -/
def entry (n : OverlayNode U V) : Option (Option V) := if n.isFinal then some n.value else none

section
variable (n : OverlayNode U V)
include n

section
omit [DecidableEq U] [LT U] [DecidableLT U]

@[simp] theorem isFinal_asFinal : n.asFinal.isFinal = true := rfl

@[simp] theorem isFinal_asNonFinal : n.asNonFinal.isFinal = false := rfl

end

@[simp] theorem isFinal_withChild (u : U) (c : Child U V) : (n.withChild u c).isFinal = n.isFinal := rfl

@[simp] theorem value_withChild (u : U) (c : Child U V) : (n.withChild u c).value = n.value := rfl

@[simp] theorem entry_withChild (u : U) (c : Child U V) : (n.withChild u c).entry = n.entry := rfl

theorem findChild_withChild (u w : U) (c : Child U V) :
    (n.withChild u c).findChild w = if u = w then some c else n.findChild w :=
  findEdge_withEdge u w c n.store

end

section
omit [LT U] [DecidableLT U]

theorem findChild_congr {m n : OverlayNode U V} (h : m.store = n.store) (u : U) : m.findChild u = n.findChild u := by
  rw [findChild, findChild, h]

@[simp] theorem findChild_new (u : U) : (new : OverlayNode U V).findChild u = none := rfl

end

end OverlayNode

/-! ## Descending one edge -/

abbrev FaultIn (U V : Type) := SwizzledPtr → Except PersistentARTrieError (OverlayNode U V)

inductive FaultMode where
  | fault
  | noFaultIn
  deriving DecidableEq

inductive ChildResolution (U V : Type) where
  | inMem (node : OverlayNode U V)
  | faulted (node : OverlayNode U V)
  | faultFailed (error : PersistentARTrieError)
  | null
  | absent

def resolveOrFault (mode : FaultMode) (faultIn : FaultIn U V) (n : OverlayNode U V) (u : U) : ChildResolution U V :=
  match n.findChild u with
  | some (.inMem c) => .inMem c
  | some (.onDisk p) =>
    if p.isNull then .null
    else match mode with
      | .noFaultIn => .null
      | .fault => match faultIn p with
        | .ok c => .faulted c
        | .error e => .faultFailed e
  | none => .absent

/-- The node an edge leads to when on-disk children are loaded, if there is one. -/
def childAt (faultIn : FaultIn U V) (n : OverlayNode U V) (u : U) : Option (OverlayNode U V) :=
  match resolveOrFault .fault faultIn n u with
  | .inMem c => some c
  | .faulted c => some c
  | _ => none

section
variable (faultIn : FaultIn U V)
include faultIn

theorem childAt_withChild_same (n c : OverlayNode U V) (u : U) : childAt faultIn (n.withChild u (.inMem c)) u = some c := by
  simp [childAt, resolveOrFault, OverlayNode.findChild_withChild]

theorem childAt_withChild_ne (n : OverlayNode U V) (c : Child U V) {u w : U} (h : u ≠ w) :
    childAt faultIn (n.withChild u c) w = childAt faultIn n w := by
  have hfind : (n.withChild u c).findChild w = n.findChild w := by
    rw [OverlayNode.findChild_withChild, if_neg h]
  simp only [childAt, resolveOrFault, hfind]

section
omit [LT U] [DecidableLT U]

theorem childAt_congr {m n : OverlayNode U V} (h : m.store = n.store) (u : U) :
    childAt faultIn m u = childAt faultIn n u := by
  simp only [childAt, resolveOrFault, OverlayNode.findChild_congr h]

@[simp] theorem childAt_new (u : U) : childAt faultIn .new u = none := rfl

end

end

/-! ## Walking a key -/

/-- `find_leaf_iterative`: the final node of a key, through in-memory children only. -/
def findLeafIterative : OverlayNode U V → List U → Option (OverlayNode U V)
  | n, [] => if n.isFinal then some n else none
  | n, u :: key => match n.findChild u with
    | some (.inMem c) => findLeafIterative c key
    | some (.onDisk _) => none
    | none => none

/-- The node at the end of a path when on-disk children are loaded. -/
def nodeAt (faultIn : FaultIn U V) : OverlayNode U V → List U → Option (OverlayNode U V)
  | n, [] => some n
  | n, u :: key => match childAt faultIn n u with
    | some c => nodeAt faultIn c key
    | none => none

/-- The key-to-value map of a trie: absent, or present with an optional value. -/
def entryAt (faultIn : FaultIn U V) (n : OverlayNode U V) (key : List U) : Option (Option V) :=
  match nodeAt faultIn n key with
  | some m => m.entry
  | none => none

section
omit [LT U] [DecidableLT U]

@[simp] theorem entryAt_nil (faultIn : FaultIn U V) (n : OverlayNode U V) : entryAt faultIn n [] = n.entry := rfl

variable {u : U}

section
variable (faultIn : FaultIn U V)
include faultIn

theorem entryAt_cons_of_some {n c : OverlayNode U V} (h : childAt faultIn n u = some c) (key : List U) :
    entryAt faultIn n (u :: key) = entryAt faultIn c key := by
  simp only [entryAt, nodeAt, h]

theorem entryAt_cons_of_none {n : OverlayNode U V} (h : childAt faultIn n u = none) (key : List U) :
    entryAt faultIn n (u :: key) = none := by
  simp only [entryAt, nodeAt, h]

theorem entryAt_cons_congr {m n : OverlayNode U V} (h : childAt faultIn m u = childAt faultIn n u)
    (key : List U) : entryAt faultIn m (u :: key) = entryAt faultIn n (u :: key) := by
  simp only [entryAt, nodeAt, h]

@[simp] theorem entryAt_new (key : List U) : entryAt faultIn .new key = none := by
  cases key with
  | nil => rfl
  | cons u key => exact entryAt_cons_of_none faultIn (childAt_new faultIn u) key

end

end

/-! ## Properties of every reachable node -/

def Everywhere (faultIn : FaultIn U V) (P : OverlayNode U V → Prop) (n : OverlayNode U V) : Prop :=
  ∀ path m, nodeAt faultIn n path = some m → P m

section
omit [LT U] [DecidableLT U]

variable {faultIn : FaultIn U V} {P : OverlayNode U V → Prop} {n : OverlayNode U V}

theorem Everywhere.root (h : Everywhere faultIn P n) : P n := h [] n rfl

theorem Everywhere.child {c : OverlayNode U V} {u : U} (h : Everywhere faultIn P n) (hc : childAt faultIn n u = some c) :
    Everywhere faultIn P c := by
  intro path m hm
  apply h (u :: path) m
  rw [nodeAt, hc]
  exact hm

theorem everywhere_of_children (hroot : P n) (hchild : ∀ u c, childAt faultIn n u = some c → Everywhere faultIn P c) :
    Everywhere faultIn P n := by
  intro path m hm
  cases path with
  | nil =>
    rw [nodeAt, some.injEq] at hm
    exact hm ▸ hroot
  | cons u path =>
    rw [nodeAt] at hm
    cases hc : childAt faultIn n u with rw [hc] at hm
    | none =>
      cases hm
    | some c =>
      exact hchild u c hc path m hm

theorem everywhere_new (h : P .new) : Everywhere faultIn P .new :=
  everywhere_of_children h (fun u c hc => by simp at hc)

end

theorem everywhere_withChild {faultIn : FaultIn U V} {P : OverlayNode U V → Prop} {n c : OverlayNode U V} {u : U}
    (hroot : P (n.withChild u (.inMem c))) (hn : Everywhere faultIn P n) (hc : Everywhere faultIn P c) :
    Everywhere faultIn P (n.withChild u (.inMem c)) := by
  refine everywhere_of_children hroot (fun w d hd => ?_)
  by_cases h : u = w
  · subst h
    rw [childAt_withChild_same, some.injEq] at hd
    exact hd ▸ hc
  · rw [childAt_withChild_ne faultIn n _ h] at hd
    exact hn.child hd

/-! ## The builders -/

def createSpine (leaf : OverlayNode U V) : List U → OverlayNode U V
  | [] => leaf
  | u :: suffix => OverlayNode.new.withChild u (.inMem (createSpine leaf suffix))

/-- **The path copy behind the three builders.** Descend the key, loading on-disk children, and rebuild the way around what
`atLeaf` makes of its end. `onNull` answers a null edge and `onAbsent` builds the missing rest. -/
def pathCopy {ε : Type} (faultIn : FaultIn U V) (atLeaf : OverlayNode U V → Except ε (OverlayNode U V))
    (onFault : PersistentARTrieError → ε) (onNull : ε) (onAbsent : List U → Except ε (OverlayNode U V)) :
    OverlayNode U V → List U → Except ε (OverlayNode U V)
  | n, [] => atLeaf n
  | n, u :: key =>
    match resolveOrFault .fault faultIn n u with
    | .inMem c => (pathCopy faultIn atLeaf onFault onNull onAbsent c key).map fun c' => n.withChild u (.inMem c')
    | .faulted c => (pathCopy faultIn atLeaf onFault onNull onAbsent c key).map fun c' => n.withChild u (.inMem c')
    | .faultFailed e => .error (onFault e)
    | .null => .error onNull
    | .absent => (onAbsent key).map fun sub => n.withChild u (.inMem sub)

/-- `build_value_spine` in `FaultMode::Fault`, as `build_value_path_iterative` calls it. -/
def buildValuePathIterative (faultIn : FaultIn U V) (n : OverlayNode U V) (key : List U) (v : V) :
    Except PersistentARTrieError (OverlayNode U V) :=
  pathCopy faultIn (fun leaf => .ok (leaf.asFinal.withValue v)) id
    (.corrupted "valued overlay path-copy encountered a null child edge")
    (fun rest => .ok (createSpine (OverlayNode.new.asFinal.withValue v) rest)) n key

inductive DurableBuildError where
  | alreadyExists
  | failure (error : PersistentARTrieError)
  deriving DecidableEq, Repr

def buildFinalPathIterative (faultIn : FaultIn U V) (n : OverlayNode U V) (term : List U) :
    Except DurableBuildError (OverlayNode U V) :=
  pathCopy faultIn (fun leaf => if leaf.isFinal then .error .alreadyExists else .ok leaf.asFinal) .failure
    (.failure (.corrupted "byte overlay insert encountered a null child edge"))
    (fun rest => .ok (createSpine OverlayNode.new.asFinal rest)) n term

-- `AlreadyExists` is reused for a term that is already absent
def buildRemovePathIterative (faultIn : FaultIn U V) (n : OverlayNode U V) (term : List U) :
    Except DurableBuildError (OverlayNode U V) :=
  pathCopy faultIn (fun leaf => if leaf.isFinal then .ok leaf.asNonFinal else .error .alreadyExists) .failure
    .alreadyExists (fun _ => .error .alreadyExists) n term

end Dictenstein.Overlay
