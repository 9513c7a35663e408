import Dictenstein.DurableWrite
import Mathlib.Data.Set.Card
/-! # OverlaySpine — the builders with their explicit spine

The builders descend the key pushing a frame for every node they pass, change or make the node at the end, and unwind the
frames from the deepest to the root. `spineCopy` is this machine; it computes what the recursive `pathCopy` does
(`spineCopy_eq`).

An insert and a remove know from their descent that the term was absent or present. A valued write asks the walk that does
not load evicted children, so a term below an evicted edge is counted once more (`value_over_evicted_miscounts`). -/

namespace Dictenstein.Overlay

open OverlayNode Function List Option

variable {U V : Type} [DecidableEq U] [LT U] [DecidableLT U]

/-! ## The machine -/

structure OverlayPathFrame (U V : Type) where
  node : OverlayNode U V
  unit : U

abbrev OverlayPathSpine (U V : Type) := List (OverlayPathFrame U V)

def unwindSpine (spine : OverlayPathSpine U V) (child : OverlayNode U V) : OverlayNode U V :=
  spine.foldl (fun child frame => frame.node.withChild frame.unit (.inMem child)) child

/-- The loop of `create_spine`: a parent for every unit, from the last. -/
def createSpineLoop (leaf : OverlayNode U V) (suffix : List U) : OverlayNode U V :=
  suffix.reverse.foldl (fun current unit => OverlayNode.new.withChild unit (.inMem current)) leaf

def createSpinePair (suffix : List U) (leaf : OverlayNode U V) : OverlayNode U V × OverlayNode U V :=
  (createSpineLoop leaf suffix, leaf)

/-- The descent behind the three builders, with what they do at the end of the key, at a null edge and at a missing one. -/
def spineCopy {ε : Type} (mode : FaultMode) (loads : Loads U V) (atLeaf : OverlayNode U V → Except ε (OverlayNode U V))
    (onFault : PersistentARTrieError → ε) (onNull : ε) (onAbsent : List U → Except ε (OverlayNode U V)) :
    OverlayPathSpine U V → OverlayNode U V → List U → Except ε (OverlayNode U V)
  | spine, current, [] => (atLeaf current).map (unwindSpine spine)
  | spine, current, unit :: rest =>
    match resolveOrFault mode (loads rest.length) current unit with
    | .inMem next => spineCopy mode loads atLeaf onFault onNull onAbsent (⟨current, unit⟩ :: spine) next rest
    | .faulted next => spineCopy mode loads atLeaf onFault onNull onAbsent (⟨current, unit⟩ :: spine) next rest
    | .faultFailed e => .error (onFault e)
    | .null => .error onNull
    | .absent => (onAbsent rest).map fun sub => unwindSpine spine (current.withChild unit (.inMem sub))

def buildValueSpine (mode : FaultMode) (loads : Loads U V) (node : OverlayNode U V) (key : List U)
    (depth : Nat) (value : V) :
    Except PersistentARTrieError (OverlayNode U V) :=
  if key.length < depth then
    .error (.internal ("valued overlay path depth " ++ toString depth ++ " exceeds key length " ++ toString key.length))
  else
    spineCopy mode loads (fun leaf => .ok (leaf.asFinal.withValue value)) id
      (match mode with
        | .noFaultIn =>
          .internal "valued overlay path-copy encountered an evicted child while fault-in was disabled"
        | .fault => .corrupted "valued overlay path-copy encountered a null child edge")
      (fun rest => .ok (createSpineLoop (OverlayNode.new.asFinal.withValue value) rest)) [] node (key.drop depth)

def buildFinalSpine (loads : Loads U V) (node : OverlayNode U V) (term : List U) (depth : Nat) :
    Except DurableBuildError (OverlayNode U V) :=
  if term.length < depth then .error (.failure (.internal "byte overlay insert depth exceeds key length"))
  else
    spineCopy .fault loads (fun leaf => if leaf.isFinal then .error .alreadyExists else .ok leaf.asFinal) .failure
      (.failure (.corrupted "byte overlay insert encountered a null child edge"))
      (fun rest => .ok (createSpinePair rest OverlayNode.new.asFinal).1) [] node (term.drop depth)

def buildRemoveSpine (loads : Loads U V) (node : OverlayNode U V) (term : List U) (depth : Nat) :
    Except DurableBuildError (OverlayNode U V) :=
  if term.length < depth then .error (.failure (.internal "byte overlay remove depth exceeds key length"))
  else
    spineCopy .fault loads (fun leaf => if !leaf.isFinal then .error .alreadyExists else .ok leaf.asNonFinal) .failure
      .alreadyExists (fun _ => .error .alreadyExists) [] node (term.drop depth)

/-! ## The machine computes the path copy -/

theorem createSpineLoop_eq (leaf : OverlayNode U V) (suffix : List U) :
    createSpineLoop leaf suffix = createSpine leaf suffix := by
  induction suffix with
  | nil => rfl
  | cons u suffix ih =>
    rw [createSpineLoop, reverse_cons, foldl_append, createSpine, ← ih]
    rfl

section
variable {ε : Type} {mode : FaultMode} {faultIn : FaultIn U V} {atLeaf : OverlayNode U V → Except ε (OverlayNode U V)}
  {onFault : PersistentARTrieError → ε} {onNull : ε} {onAbsent : List U → Except ε (OverlayNode U V)}

theorem spineCopy_eq (spine : OverlayPathSpine U V) (current : OverlayNode U V) (key : List U) :
    spineCopy .fault (fun _ => faultIn) atLeaf onFault onNull onAbsent spine current key =
      (pathCopy faultIn atLeaf onFault onNull onAbsent current key).map (unwindSpine spine) := by
  induction key generalizing spine current with
  | nil => rfl
  | cons u key ih =>
    rw [spineCopy, pathCopy]
    cases resolveOrFault .fault faultIn current u with
    | inMem c | faulted c =>
      simp only [ih]
      cases pathCopy faultIn atLeaf onFault onNull onAbsent c key <;> rfl
    | absent => cases onAbsent key <;> rfl
    | faultFailed | null => rfl

def Loads.Of (loads : Loads U V) (disk : FaultIn U V) : Prop :=
  ∀ below p node, loads below p = .ok node → disk p = .ok node

theorem spineCopy_of_loads {loads : Loads U V} (hloads : loads.Of faultIn) {spine : OverlayPathSpine U V}
    {current n' : OverlayNode U V} {key : List U}
    (h : spineCopy mode loads atLeaf onFault onNull onAbsent spine current key = .ok n') :
    spineCopy .fault (fun _ => faultIn) atLeaf onFault onNull onAbsent spine current key = .ok n' := by
  induction key generalizing spine current with
  | nil => exact h
  | cons u key ih =>
    rw [spineCopy, resolveOrFault] at h ⊢
    cases hfind : current.findChild u with
    | none => simpa only [hfind] using h
    | some child =>
      cases child with simp only [hfind] at h ⊢
      | inMem c =>
        exact ih h
      | onDisk p =>
        by_cases hp : p.isNull = true
        · simp [hp] at h
        · simp only [hp, Bool.false_eq_true, if_false] at h ⊢
          cases mode with
          | noFaultIn => cases h
          | fault =>
            cases hload : loads key.length p with
            | error e => simp [hload] at h
            | ok c =>
              simp only [hload] at h
              simp only [hloads _ _ _ hload]
              exact ih h

end

/-! ## What the builders do to the map -/

section
variable {faultIn : FaultIn U V} {loads : Loads U V} {n n' : OverlayNode U V} {key : List U}
variable {ε : Type} {mode : FaultMode} {atLeaf : OverlayNode U V → Except ε (OverlayNode U V)}
  {onFault : PersistentARTrieError → ε} {onNull : ε} {onAbsent : List U → Except ε (OverlayNode U V)}

section
variable (hloads : loads.Of faultIn)
include hloads

theorem pathCopy_of_spineCopy
    (h : spineCopy mode loads atLeaf onFault onNull onAbsent [] n key = .ok n') :
    pathCopy faultIn atLeaf onFault onNull onAbsent n key = .ok n' := by
  have hcopy := spineCopy_of_loads hloads h
  rw [spineCopy_eq] at hcopy
  cases hpath : pathCopy faultIn atLeaf onFault onNull onAbsent n key with
  | error e => rw [hpath] at hcopy; cases hcopy
  | ok new => rw [hpath] at hcopy; exact hcopy

theorem entryAt_buildValueSpine {v : V} (h : buildValueSpine mode loads n key 0 v = .ok n') :
    entryAt faultIn n' = update (entryAt faultIn n) key (some (some v)) := by
  unfold buildValueSpine at h
  rw [if_neg (Nat.not_lt_zero _), drop_zero] at h
  refine entryAt_pathCopy (fun m m' _ hleaf => ?_) (fun rest s _ hs k => ?_) (pathCopy_of_spineCopy hloads h)
  · rw [← Except.ok.inj hleaf]
    exact ⟨rfl, rfl⟩
  · rw [← Except.ok.inj hs, createSpineLoop_eq, entryAt_createSpine rfl]
    rfl

theorem entryAt_buildFinalSpine (h : buildFinalSpine loads n key 0 = .ok n') : entryAt faultIn n key = none ∧
      entryAt faultIn n' = update (entryAt faultIn n) key (some ((nodeAt faultIn n key).bind OverlayNode.value)) := by
  rw [buildFinalSpine, if_neg (Nat.not_lt_zero _), drop_zero] at h
  have hcopy := pathCopy_of_spineCopy hloads h
  have habsent : entryAt faultIn n key = none := by
    rw [entryAt_eq_none]
    intro m hm
    obtain ⟨m', hleaf⟩ := leaf_of_pathCopy hm hcopy
    refine Bool.eq_false_iff.2 fun hfinal => ?_
    simp [hfinal] at hleaf
  refine ⟨habsent, entryAt_pathCopy (fun m m' hm hleaf => ?_) (fun rest s hm hs k => ?_) hcopy⟩
  · rw [hm]
    rw [if_neg (by rw [entryAt_eq_none.1 habsent m hm]; exact Bool.false_ne_true)] at hleaf
    rw [← Except.ok.inj hleaf]
    exact ⟨rfl, rfl⟩
  · rw [hm, ← Except.ok.inj hs]
    show entryAt faultIn (createSpineLoop _ _) k = _
    rw [createSpineLoop_eq, entryAt_createSpine rfl]
    rfl

theorem entryAt_buildRemoveSpine (h : buildRemoveSpine loads n key 0 = .ok n') :
    entryAt faultIn n key ≠ none ∧ entryAt faultIn n' = update (entryAt faultIn n) key none := by
  rw [buildRemoveSpine, if_neg (Nat.not_lt_zero _), drop_zero] at h
  have hcopy := pathCopy_of_spineCopy hloads h
  cases hm : nodeAt faultIn n key with
  | none =>
    obtain ⟨rest, s, hs⟩ := rest_of_pathCopy hm hcopy
    cases hs
  | some m =>
    obtain ⟨m', hleaf⟩ := leaf_of_pathCopy hm hcopy
    have hfinal : m.isFinal = true := by
      by_contra hf
      simp [eq_false_of_ne_true hf] at hleaf
    refine ⟨fun hnone => ?_, entryAt_pathCopy (fun k k' hk hok => ?_) (fun rest s hnone _ => ?_) hcopy⟩
    · rw [entryAt_eq_none] at hnone
      rw [hnone m hm] at hfinal
      cases hfinal
    · obtain rfl : m = k := some.inj (hm.symm.trans hk)
      rw [if_neg (by rw [hfinal]; exact Bool.false_ne_true)] at hok
      rw [← Except.ok.inj hok]
      exact ⟨rfl, rfl⟩
    · rw [hm] at hnone
      cases hnone

end

/-- **If every load succeeds, so does the copy** whose leaf or missing rest can be made. -/
theorem spineCopy_ok (hn : Everywhere faultIn (Resolved faultIn) n)
    (hleaf : ∀ m, nodeAt faultIn n key = some m → ∃ m', atLeaf m = .ok m')
    (hrest : nodeAt faultIn n key = none → ∀ rest, ∃ s, onAbsent rest = .ok s) :
    ∃ n', spineCopy .fault (fun _ => faultIn) atLeaf onFault onNull onAbsent [] n key = .ok n' := by
  rw [spineCopy_eq]
  have hcopy : ∃ n', pathCopy faultIn atLeaf onFault onNull onAbsent n key = .ok n' := by
    cases hm : nodeAt faultIn n key with
    | some m =>
      obtain ⟨m', hm'⟩ := hleaf m hm
      exact (pathCopy_of_nodeAt hm).1 m' hm'
    | none => exact (pathCopy_of_nodeAt_none hn hm).1 (hrest hm)
  obtain ⟨n', hn'⟩ := hcopy
  exact ⟨n', by rw [hn']; rfl⟩

end

/-! ## The term count -/

def terms (faultIn : FaultIn U V) (n : OverlayNode U V) : Set (List U) := {key | (entryAt faultIn n key).isSome = true}

structure CountsTerms (faultIn : FaultIn U V) (slot : RootRevision U V) : Prop where
  finite : (terms faultIn slot.node).Finite
  count : slot.termCount = (terms faultIn slot.node).ncard

def countDelta (old new : Option (Option V)) : Int := (if new.isSome then 1 else 0) - if old.isSome then 1 else 0

variable {faultIn : FaultIn U V} {key : List U}

omit [LT U] [DecidableLT U] in
theorem CountsTerms.publish {slot : RootRevision U V} (h : CountsTerms faultIn slot) {new : OverlayNode U V}
    {e : Option (Option V)} (hnew : entryAt faultIn new = update (entryAt faultIn slot.node) key e) {delta : Int}
    (hdelta : delta = countDelta (entryAt faultIn slot.node key) e) : CountsTerms faultIn (slot.publish new delta) := by
  have hmem : ∀ k, k ∈ terms faultIn new ↔ if k = key then e.isSome = true else k ∈ terms faultIn slot.node := by
    intro k
    show (entryAt faultIn new k).isSome = true ↔ _
    rw [hnew, update_apply]
    by_cases hk : k = key
    · rw [if_pos hk, if_pos hk]
    · rw [if_neg hk, if_neg hk]
      rfl
  have hold : key ∈ terms faultIn slot.node ↔ (entryAt faultIn slot.node key).isSome = true := Iff.rfl
  subst hdelta
  cases he : e.isSome with
  | true =>
    have hset : terms faultIn new = insert key (terms faultIn slot.node) := by
      ext k
      rw [hmem, he, Set.mem_insert_iff]
      by_cases hk : k = key <;> simp [hk]
    refine ⟨hset ▸ h.finite.insert key, ?_⟩
    show slot.termCount + _ = ((terms faultIn new).ncard : Int)
    rw [hset, h.count, countDelta, he]
    by_cases hkey : (entryAt faultIn slot.node key).isSome = true
    · rw [Set.insert_eq_of_mem (hold.2 hkey), hkey]
      simp
    · rw [Set.ncard_insert_of_notMem (fun hin => hkey (hold.1 hin)) h.finite, eq_false_of_ne_true hkey]
      simp
  | false =>
    have hset : terms faultIn new = terms faultIn slot.node \ {key} := by
      ext k
      rw [hmem, he, Set.mem_sdiff, Set.mem_singleton_iff]
      by_cases hk : k = key <;> simp [hk]
    refine ⟨hset ▸ h.finite.subset Set.sdiff_subset, ?_⟩
    show slot.termCount + _ = ((terms faultIn new).ncard : Int)
    rw [hset, h.count, countDelta, he]
    by_cases hkey : (entryAt faultIn slot.node key).isSome = true
    · have hcard := Set.ncard_sdiff_singleton_add_one (hold.2 hkey) h.finite
      rw [hkey]
      simp only [Bool.false_eq_true, if_false, if_true]
      omega
    · rw [Set.sdiff_singleton_eq_self fun hin => hkey (hold.1 hin), eq_false_of_ne_true hkey]
      simp

omit [LT U] [DecidableLT U] in
theorem CountsTerms.publish_iff {slot : RootRevision U V} (h : CountsTerms faultIn slot) {new : OverlayNode U V}
    {e : Option (Option V)} (hnew : entryAt faultIn new = update (entryAt faultIn slot.node) key e) {delta : Int} :
    CountsTerms faultIn (slot.publish new delta) ↔ delta = countDelta (entryAt faultIn slot.node key) e := by
  refine ⟨fun hcount => ?_, h.publish hnew⟩
  have hright : slot.termCount + countDelta (entryAt faultIn slot.node key) e = (terms faultIn new).ncard :=
    (h.publish hnew rfl).count
  have hdelta : slot.termCount + delta = (terms faultIn new).ncard := hcount.count
  omega

/-- The walk that does not load evicted children sees the key if it is there. -/
def Visible (faultIn : FaultIn U V) (n : OverlayNode U V) (key : List U) : Prop :=
  (entryAt faultIn n key).isSome = true → (findLeafIterative n key).isSome = true

instance (faultIn : FaultIn U V) (n : OverlayNode U V) (key : List U) : Decidable (Visible faultIn n key) :=
  inferInstanceAs (Decidable (_ → _))

theorem presenceDelta_iff {disk : FaultIn UInt8 V} {n : OverlayNode UInt8 V} {key : List UInt8} {v : V} :
    presenceDelta n key = countDelta (entryAt disk n key) (some (some v)) ↔ Visible disk n key := by
  rw [presenceDelta, countDelta, Visible]
  cases hleaf : findLeafIterative n key with
  | some m =>
    rw [entryAt_of_findLeafIterative hleaf]
    simp
  | none => cases entryAt disk n key <;> simp

/-! ## The three builders -/

/-- **The builders make the one change they are for.** Whatever loads succeed: a returned root has the key present (insert),
absent (remove) or present with the value (valued write), and every other key as before; published with its delta, the term
count is again the number of terms, for a valued write exactly if the key is not hidden. If every edge resolves, a change
that is due returns a root. -/
theorem builders_update (disk : FaultIn UInt8 V) (loads : Loads UInt8 V) (hloads : loads.Of disk)
    (slot : RootRevision UInt8 V) (key : List UInt8) (v : V) :
    (∀ new, buildFinalSpine loads slot.node key 0 = .ok new →
      (entryAt disk new key).isSome = true ∧ (∀ k, k ≠ key → entryAt disk new k = entryAt disk slot.node k) ∧
        (CountsTerms disk slot → CountsTerms disk (slot.publish new 1))) ∧
    (∀ new, buildRemoveSpine loads slot.node key 0 = .ok new →
      entryAt disk new key = none ∧ (∀ k, k ≠ key → entryAt disk new k = entryAt disk slot.node k) ∧
        (CountsTerms disk slot → CountsTerms disk (slot.publish new (-1)))) ∧
    (∀ mode new, buildValueSpine mode loads slot.node key 0 v = .ok new →
      entryAt disk new key = some (some v) ∧ (∀ k, k ≠ key → entryAt disk new k = entryAt disk slot.node k) ∧
        (CountsTerms disk slot →
          (CountsTerms disk (slot.publish new (presenceDelta slot.node key)) ↔ Visible disk slot.node key))) ∧
    (Everywhere disk (Resolved disk) slot.node → loads = (fun _ => disk) →
      (entryAt disk slot.node key = none → ∃ new, buildFinalSpine loads slot.node key 0 = .ok new) ∧
      (entryAt disk slot.node key ≠ none → ∃ new, buildRemoveSpine loads slot.node key 0 = .ok new) ∧
      ∃ new, buildValueSpine .fault loads slot.node key 0 v = .ok new) := by
  refine ⟨fun new h => ?_, fun new h => ?_, fun mode new h => ?_, fun hn hall => ?_⟩
  · obtain ⟨hold, hnew⟩ := entryAt_buildFinalSpine hloads h
    refine ⟨by rw [hnew, update_self]; rfl, fun k hk => by rw [hnew, update_of_ne hk], fun hcount => hcount.publish hnew ?_⟩
    rw [hold]
    rfl
  · obtain ⟨hold, hnew⟩ := entryAt_buildRemoveSpine hloads h
    refine ⟨by rw [hnew, update_self], fun k hk => by rw [hnew, update_of_ne hk], fun hcount => hcount.publish hnew ?_⟩
    obtain ⟨e, he⟩ := ne_none_iff_exists'.1 hold
    rw [he]
    rfl
  · have hnew := entryAt_buildValueSpine hloads h
    exact ⟨by rw [hnew, update_self], fun k hk => by rw [hnew, update_of_ne hk],
      fun hcount => (hcount.publish_iff hnew).trans presenceDelta_iff⟩
  · subst hall
    refine ⟨fun hnone => ?_, fun hsome => ?_, ?_⟩
    · refine spineCopy_ok hn (fun m hm => ?_) fun _ rest => ⟨_, rfl⟩
      rw [entryAt_eq_none.1 hnone m hm]
      exact ⟨_, rfl⟩
    · obtain ⟨m₀, hm₀, hfinal⟩ := final_of_entryAt hsome
      refine spineCopy_ok hn (fun m hm => ?_) fun hm => ?_
      · obtain rfl : m₀ = m := some.inj (hm₀.symm.trans hm)
        rw [hfinal]
        exact ⟨_, rfl⟩
      · cases hm₀.symm.trans hm
    · exact spineCopy_ok hn (fun m _ => ⟨_, rfl⟩) fun _ rest => ⟨_, rfl⟩

/-! ## One evicted term -/

def sevens : FaultIn UInt8 UInt64 := fun _ => .ok (.mk true (some 7) [])

def oneEvicted : RootRevision UInt8 UInt64 := ⟨.mk false none [(1, .onDisk ⟨1⟩)], 1, 0⟩

theorem terms_oneEvicted : terms sevens oneEvicted.node = {[1]} := by
  ext key
  rw [Set.mem_singleton_iff]
  show (entryAt sevens oneEvicted.node key).isSome = true ↔ _
  match key with
  | [] => decide
  | u :: key =>
    by_cases hu : u = 1
    · subst hu
      have hchild : childAt sevens oneEvicted.node 1 = some (.mk true (some 7) []) := rfl
      rw [entryAt_cons_of_some sevens hchild]
      cases key with
      | nil => decide
      | cons w key =>
        rw [entryAt_cons_of_none sevens rfl]
        simp
    · have hchild : childAt sevens oneEvicted.node u = none := by
        simp [childAt, resolveOrFault, oneEvicted, findChild, store, findEdge, Ne.symm hu]
      rw [entryAt_cons_of_none sevens hchild]
      simp [hu]

theorem countsTerms_oneEvicted : CountsTerms sevens oneEvicted where
  finite := terms_oneEvicted ▸ Set.finite_singleton _
  count := by rw [terms_oneEvicted, Set.ncard_singleton]; rfl

/-- **A valued write over an evicted term counts it again.** -/
theorem value_over_evicted_miscounts :
    CountsTerms sevens oneEvicted ∧ ∃ new, buildValueSpine .fault (fun _ => sevens) oneEvicted.node [1] 0 9 = .ok new ∧
      terms sevens new = {[1]} ∧ (oneEvicted.publish new (presenceDelta oneEvicted.node [1])).termCount = 2 := by
  obtain ⟨new, hbuild⟩ : ∃ new, buildValueSpine .fault (fun _ => sevens) oneEvicted.node [1] 0 9 = .ok new := ⟨_, rfl⟩
  have hnew : entryAt sevens new = update (entryAt sevens oneEvicted.node) [1] (some (some 9)) :=
    entryAt_buildValueSpine (fun _ _ _ h => h) hbuild
  refine ⟨countsTerms_oneEvicted, new, hbuild, ?_, rfl⟩
  rw [← terms_oneEvicted]
  ext key
  show (entryAt sevens new key).isSome = true ↔ (entryAt sevens oneEvicted.node key).isSome = true
  rw [hnew, update_apply]
  by_cases hkey : key = [1]
  · rw [if_pos hkey, hkey]
    decide
  · rw [if_neg hkey]

/-- Removing the evicted term loads it and leaves no term; a valued write of another term makes two. -/
theorem builders_update_evicted :
    (∃ new, buildRemoveSpine (fun _ => sevens) oneEvicted.node [1] 0 = .ok new ∧ entryAt sevens new [1] = none ∧
      CountsTerms sevens (oneEvicted.publish new (-1))) ∧
    ∃ new, buildValueSpine .fault (fun _ => sevens) oneEvicted.node [2] 0 9 = .ok new ∧
      entryAt sevens new [2] = some (some 9) ∧
      CountsTerms sevens (oneEvicted.publish new (presenceDelta oneEvicted.node [2])) := by
  obtain ⟨removed, hremove⟩ : ∃ new, buildRemoveSpine (fun _ => sevens) oneEvicted.node [1] 0 = .ok new := ⟨_, rfl⟩
  obtain ⟨written, hwrite⟩ : ∃ new, buildValueSpine .fault (fun _ => sevens) oneEvicted.node [2] 0 9 = .ok new := ⟨_, rfl⟩
  obtain ⟨hnone, -, hcount⟩ :=
    (builders_update sevens (fun _ => sevens) (fun _ _ _ h => h) oneEvicted [1] 9).2.1 removed hremove
  obtain ⟨hnine, -, hcount'⟩ :=
    (builders_update sevens (fun _ => sevens) (fun _ _ _ h => h) oneEvicted [2] 9).2.2.1 .fault written hwrite
  exact ⟨⟨removed, hremove, hnone, hcount countsTerms_oneEvicted⟩, written, hwrite, hnine,
    (hcount' countsTerms_oneEvicted).2 (by decide)⟩

end Dictenstein.Overlay
