import Dictenstein.OverlayMap
/-! # OverlayFault — the published root slot and reads that load evicted children

A read that meets an on-disk edge loads the child, rebuilds the path above it, publishes the rebuilt root with the same
term count and starts again, up to `max_faultin_retries + 1` times. If that does not reach the key, the walk is
finished privately below the last node that was loaded. With each load the key's path has one on-disk edge less
(`pathFaults`). -/

namespace Dictenstein.Overlay

open OverlayNode

variable {U V : Type} [DecidableEq U] [LT U] [DecidableLT U]

/-! ## The root slot

A revision is compared by identity. Each publication is given a new number here, so two revisions are the same exactly
when their numbers are. -/

structure RootRevision (U V : Type) where
  node : OverlayNode U V
  termCount : Int
  revision : Nat

/-- A successful `compare_exchange_revision_counted` against this revision. -/
def RootRevision.publish (r : RootRevision U V) (node : OverlayNode U V) (delta : Int) : RootRevision U V :=
  ⟨node, r.termCount + delta, r.revision + 1⟩

def RootRevision.initial : RootRevision U V := ⟨.new, 0, 0⟩

/-! ## One walk -/

inductive FaultWalk (U V : Type) where
  | absent
  | leaf (node : OverlayNode U V)
  -- the rebuilt root, the loaded child, and the part of the key below it
  | faulted (root loaded : OverlayNode U V) (suffix : List U)
  | failed (error : PersistentARTrieError)

/-- One top-down walk of `find_leaf_faulting`, up to the leaf or to the first on-disk edge. -/
def faultWalk (faultIn : FaultIn U V) : OverlayNode U V → List U → FaultWalk U V
  | n, [] => .leaf n
  | n, u :: key => match n.findChild u with
    | none => .absent
    | some (.inMem c) => match faultWalk faultIn c key with
      | .faulted c' loaded suffix => .faulted (n.withChild u (.inMem c')) loaded suffix
      | .absent => .absent
      | .leaf m => .leaf m
      | .failed e => .failed e
    | some (.onDisk p) =>
      if p.isNull then .absent
      else match faultIn p with
        | .ok loaded => .faulted (n.withChild u (.inMem loaded)) loaded key
        | .error e => .failed e

/-- A loader for every step of a descent, by the units of the key below the edge. -/
abbrev Loads (U V : Type) := Nat → FaultIn U V

def walkFaultingSnapshot (loads : Loads U V) :
    OverlayNode U V → List U → Except PersistentARTrieError (Option (OverlayNode U V))
  | n, [] => .ok (if n.isFinal then some n else none)
  | n, u :: suffix => match n.findChild u with
    | none => .ok none
    | some (.inMem c) => walkFaultingSnapshot loads c suffix
    | some (.onDisk p) =>
      if p.isNull then .ok none
      else match loads suffix.length p with
        | .ok c => walkFaultingSnapshot loads c suffix
        | .error e => .error e

/-- What a read returns: the leaf or an error, the slot it leaves and the number of the next walk. -/
structure Read (U V : Type) where
  result : Except PersistentARTrieError (Option (OverlayNode U V))
  slot : RootRevision U V
  walk : Nat

/-- The retry loop: `attempts` walks are left, `fallback` is the last node that was loaded. `loads walk` has the loaders of
one walk. -/
def findLeafFaultingFrom (loads : Nat → Loads U V) (key : List U) :
    Nat → Nat → RootRevision U V → Option (OverlayNode U V × List U) → Read U V
  | 0, walk, slot, fallback => match findLeafIterative slot.node key with
    | some m => ⟨.ok (some m), slot, walk⟩
    | none => match fallback with
      | some (decoded, suffix) => ⟨walkFaultingSnapshot (loads walk) decoded suffix, slot, walk + 1⟩
      | none => ⟨.ok none, slot, walk⟩
  | attempts + 1, walk, slot, _ => match faultWalk (loads walk 0) slot.node key with
    | .absent => ⟨.ok none, slot, walk + 1⟩
    | .leaf m => ⟨.ok (if m.isFinal then some m else none), slot, walk + 1⟩
    | .failed e => ⟨.error e, slot, walk + 1⟩
    | .faulted root loaded suffix =>
      findLeafFaultingFrom loads key attempts (walk + 1) (slot.publish root 0) (some (loaded, suffix))

def defaultMaxFaultinRetries : Nat := 16

/-- `find_leaf_faulting` where every load of a record has the same outcome. -/
def findLeafFaulting (faultIn : FaultIn U V) (slot : RootRevision U V) (key : List U) (maxFaultinRetries : Nat) :
    Except PersistentARTrieError (Option (OverlayNode U V)) × RootRevision U V :=
  let read := findLeafFaultingFrom (fun _ _ => faultIn) key (maxFaultinRetries + 1) 0 slot none
  (read.result, read.slot)

def pathFaults (faultIn : FaultIn U V) : OverlayNode U V → List U → Nat
  | _, [] => 0
  | n, u :: key => match n.findChild u with
    | none => 0
    | some (.inMem c) => pathFaults faultIn c key
    | some (.onDisk p) => if p.isNull then 0 else match faultIn p with
      | .ok c => pathFaults faultIn c key + 1
      | .error _ => 0

section
omit [LT U] [DecidableLT U]

theorem pathFaults_le (faultIn : FaultIn U V) (n : OverlayNode U V) (key : List U) :
    pathFaults faultIn n key ≤ key.length := by
  induction key generalizing n with
  | nil => exact Nat.le_refl 0
  | cons u key ih =>
    rw [pathFaults, List.length_cons]
    split
    · omega
    · rename_i c _
      have := ih c
      omega
    · split
      · omega
      · split
        · rename_i c _
          have := ih c
          omega
        · omega

end

/-! ## What one walk does -/

variable {faultIn : FaultIn U V}

structure FaultsIn (faultIn : FaultIn U V) (n root loaded : OverlayNode U V) (key suffix : List U) : Prop where
  entry : entryAt faultIn root = entryAt faultIn n
  resolved : Everywhere faultIn (Resolved faultIn) root
  fewer : pathFaults faultIn root key + 1 = pathFaults faultIn n key
  below : Everywhere faultIn (Resolved faultIn) loaded
  answer : entryAt faultIn loaded suffix = entryAt faultIn n key

variable {n : OverlayNode U V} {slot : RootRevision U V} {key suffix : List U}

theorem entryAt_withChild_of_eq {c c' : OverlayNode U V} {u : U} (hc : childAt faultIn n u = some c)
    (h : entryAt faultIn c' = entryAt faultIn c) : entryAt faultIn (n.withChild u (.inMem c')) = entryAt faultIn n := by
  funext key
  cases key with
  | nil => rfl
  | cons w key =>
    by_cases hw : u = w
    · subst hw
      rw [entryAt_cons_of_some faultIn (childAt_withChild_same faultIn n c' u), entryAt_cons_of_some faultIn hc, h]
    · exact entryAt_cons_congr faultIn (childAt_withChild_ne faultIn n _ hw) key

theorem pathFaults_withChild (n c : OverlayNode U V) (u : U) (key : List U) :
    pathFaults faultIn (n.withChild u (.inMem c)) (u :: key) = pathFaults faultIn c key := by
  rw [pathFaults, findChild_withChild, if_pos rfl]

/-- **One walk** over a resolved trie meets no on-disk edge on the key's path, and says what the map says, or loads the
first one. -/
theorem faultWalk_spec {load : FaultIn U V} (hload : ∀ p node, load p = .ok node → faultIn p = .ok node)
    (n : OverlayNode U V) (key : List U) : match faultWalk load n key with
    | .absent => pathFaults faultIn n key = 0 ∧ entryAt faultIn n key = none
    | .leaf m => pathFaults faultIn n key = 0 ∧ entryAt faultIn n key = m.entry
    | .faulted root loaded suffix => entryAt faultIn root = entryAt faultIn n ∧
        pathFaults faultIn root key + 1 = pathFaults faultIn n key ∧ entryAt faultIn loaded suffix = entryAt faultIn n key ∧
        (Everywhere faultIn (Resolved faultIn) n → Everywhere faultIn (Resolved faultIn) root ∧
          Everywhere faultIn (Resolved faultIn) loaded)
    | .failed _ => load = faultIn → ¬Everywhere faultIn (Resolved faultIn) n := by
  induction key generalizing n with
  | nil => exact ⟨rfl, rfl⟩
  | cons u key ih =>
    rw [faultWalk]
    cases hfind : n.findChild u with
    | none =>
        exact ⟨by simp [pathFaults, hfind], entryAt_cons_of_none faultIn (by simp [childAt, resolveOrFault, hfind]) key⟩
    | some child =>
      cases child with
      | inMem c =>
        have hchild := childAt_of_findChild faultIn hfind
        have hc := ih c
        have hfaults : pathFaults faultIn n (u :: key) = pathFaults faultIn c key := by rw [pathFaults, hfind]
        have hentry : entryAt faultIn n (u :: key) = entryAt faultIn c key := entryAt_cons_of_some faultIn hchild key
        simp only
        cases hw : faultWalk load c key with rw [hw] at hc
        | absent | leaf m => exact ⟨hfaults ▸ hc.1, hentry ▸ hc.2⟩
        | failed e => exact fun hsame hn => hc hsame (hn.child hchild)
        | faulted root loaded suffix =>
          obtain ⟨hmap, hfewer, hanswer, hresolved⟩ := hc
          refine ⟨entryAt_withChild_of_eq hchild hmap, ?_, hanswer.trans hentry.symm, fun hn => ?_⟩
          · rw [pathFaults_withChild, hfaults]
            exact hfewer
          · obtain ⟨hroot, hbelow⟩ := hresolved (hn.child hchild)
            exact ⟨everywhere_withChild (hn.root.withChild u root) hn hroot, hbelow⟩
      | onDisk p =>
        by_cases hnull : p.isNull = true
        · simp only [hnull, if_true]
          exact ⟨by simp [pathFaults, hfind, hnull],
            entryAt_cons_of_none faultIn (by simp [childAt, resolveOrFault, hfind, hnull]) key⟩
        · simp only [hnull, Bool.false_eq_true, if_false]
          cases hl : load p with
          | error e =>
            rintro rfl hn
            obtain ⟨-, c, hc⟩ := hn.root u p hfind
            rw [hl] at hc
            cases hc
          | ok c =>
            have hdisk := hload p c hl
            have hchild : childAt faultIn n u = some c := by simp [childAt, resolveOrFault, hfind, hnull, hdisk]
            refine ⟨entryAt_withChild_of_eq hchild rfl, ?_, (entryAt_cons_of_some faultIn hchild key).symm,
              fun hn => ⟨everywhere_withChild (hn.root.withChild u c) hn (hn.child hchild), hn.child hchild⟩⟩
            rw [pathFaults_withChild]
            simp [pathFaults, hfind, hnull, hdisk]

omit [LT U] [DecidableLT U] in
theorem walkFaultingSnapshot_spec (hn : Everywhere faultIn (Resolved faultIn) n) (key : List U) :
    ∃ found, walkFaultingSnapshot (fun _ => faultIn) n key = .ok found ∧ found.map value = entryAt faultIn n key := by
  induction key generalizing n with
  | nil =>
    refine ⟨_, rfl, ?_⟩
    cases hf : n.isFinal <;> simp [entry, hf]
  | cons u key ih =>
    rw [walkFaultingSnapshot]
    cases hfind : n.findChild u with
    | none => exact ⟨none, rfl, (entryAt_cons_of_none faultIn (by simp [childAt, resolveOrFault, hfind]) key).symm⟩
    | some child =>
      cases child with
      | inMem c =>
        have hchild := childAt_of_findChild faultIn hfind
        rw [entryAt_cons_of_some faultIn hchild]
        exact ih (hn.child hchild)
      | onDisk p =>
        obtain ⟨hnull, c, hload⟩ := hn.root u p hfind
        have hchild : childAt faultIn n u = some c := by simp [childAt, resolveOrFault, hfind, hnull, hload]
        rw [entryAt_cons_of_some faultIn hchild]
        simp only [hnull, hload, Bool.false_eq_true, if_false]
        exact ih (hn.child hchild)

/-! ## The whole read -/

/-- A faulting read leaves the same map and term count, and progress on the key's path whenever it published anything. -/
structure Faulted (faultIn : FaultIn U V) (slot slot' : RootRevision U V) (key : List U) : Prop where
  entry : entryAt faultIn slot'.node = entryAt faultIn slot.node
  resolved : Everywhere faultIn (Resolved faultIn) slot'.node
  termCount : slot'.termCount = slot.termCount
  progress : slot' = slot ∧ pathFaults faultIn slot.node key = 0 ∨
    slot.revision < slot'.revision ∧ pathFaults faultIn slot'.node key < pathFaults faultIn slot.node key

section
omit [LT U] [DecidableLT U]

theorem FaultsIn.faulted {root loaded : OverlayNode U V} (h : FaultsIn faultIn slot.node root loaded key suffix) :
    Faulted faultIn slot (slot.publish root 0) key where
  entry := h.entry
  resolved := h.resolved
  termCount := Int.add_zero _
  progress := .inr ⟨Nat.lt_succ_self _, by have := h.fewer; simp only [RootRevision.publish]; omega⟩

theorem Faulted.trans {a b c : RootRevision U V} (hab : Faulted faultIn a b key) (hbc : Faulted faultIn b c key) :
    Faulted faultIn a c key where
  entry := hbc.entry.trans hab.entry
  resolved := hbc.resolved
  termCount := hbc.termCount.trans hab.termCount
  progress := by
    rcases hbc.progress with ⟨rfl, -⟩ | ⟨hr, hp⟩
    · exact hab.progress
    · rcases hab.progress with ⟨rfl, -⟩ | ⟨hr', hp'⟩
      · exact .inr ⟨hr, hp⟩
      · exact .inr ⟨by omega, by omega⟩

theorem findLeafIterative_of_pathFaults (hn : Everywhere faultIn (Resolved faultIn) n) (h : pathFaults faultIn n key = 0) :
    (findLeafIterative n key).map value = entryAt faultIn n key := by
  induction key generalizing n with
  | nil => cases hf : n.isFinal <;> simp [findLeafIterative, entry, hf]
  | cons u key ih =>
    rw [pathFaults] at h
    rw [findLeafIterative]
    cases hfind : n.findChild u with
    | none => exact (entryAt_cons_of_none faultIn (by simp [childAt, resolveOrFault, hfind]) key).symm
    | some child =>
      cases child with
      | inMem c =>
        rw [hfind] at h
        rw [entryAt_cons_of_some faultIn (childAt_of_findChild faultIn hfind)]
        exact ih (hn.child (childAt_of_findChild faultIn hfind)) h
      | onDisk p =>
        obtain ⟨hnull, c, hload⟩ := hn.root u p hfind
        simp [hfind, hnull, hload] at h

theorem pathFaults_of_resident (hn : Everywhere faultIn Resident n) (key : List U) : pathFaults faultIn n key = 0 := by
  induction key generalizing n with
  | nil => rfl
  | cons u key ih =>
    rw [pathFaults]
    cases hfind : n.findChild u with
    | none => rfl
    | some child =>
      cases child with
      | inMem c => exact ih (hn.child (childAt_of_findChild faultIn hfind))
      | onDisk p => exact absurd hfind (hn.root u p)

end

theorem findLeafFaultingFrom_spec (attempts walk : Nat) (hn : Everywhere faultIn (Resolved faultIn) slot.node)
    (fallback : Option (OverlayNode U V × List U))
    (hfallback : ∀ d ∈ fallback, Everywhere faultIn (Resolved faultIn) d.1 ∧
      entryAt faultIn d.1 d.2 = entryAt faultIn slot.node key)
    (hattempts : attempts = 0 → fallback.isSome) :
    ∃ found slot' walk', findLeafFaultingFrom (fun _ _ => faultIn) key attempts walk slot fallback =
      ⟨.ok found, slot', walk'⟩ ∧
      found.map value = entryAt faultIn slot.node key ∧ (attempts = 0 ∧ slot' = slot ∨ Faulted faultIn slot slot' key) := by
  induction attempts generalizing walk slot fallback with
  | zero =>
    obtain ⟨⟨decoded, suffix⟩, rfl⟩ := Option.isSome_iff_exists.1 (hattempts rfl)
    obtain ⟨hbelow, hanswer⟩ := hfallback _ rfl
    rw [findLeafFaultingFrom]
    cases hleaf : findLeafIterative slot.node key with
    | some m => exact ⟨some m, slot, walk, rfl, (entryAt_of_findLeafIterative hleaf).symm, .inl ⟨rfl, rfl⟩⟩
    | none =>
      obtain ⟨found, hfound, hvalue⟩ := walkFaultingSnapshot_spec hbelow suffix
      exact ⟨found, slot, walk + 1, by simp only [hfound], hvalue.trans hanswer, .inl ⟨rfl, rfl⟩⟩
  | succ attempts ih =>
    rw [findLeafFaultingFrom]
    have hwalk := faultWalk_spec (fun _ _ => id : ∀ p node, faultIn p = .ok node → _) slot.node key
    cases hw : faultWalk faultIn slot.node key with rw [hw] at hwalk
    | absent =>
      exact ⟨none, slot, walk + 1, rfl, hwalk.2.symm, .inr ⟨rfl, hn, rfl, .inl ⟨rfl, hwalk.1⟩⟩⟩
    | leaf m =>
      refine ⟨_, slot, walk + 1, rfl, ?_, .inr ⟨rfl, hn, rfl, .inl ⟨rfl, hwalk.1⟩⟩⟩
      rw [hwalk.2]
      cases hf : m.isFinal <;> simp [entry, hf]
    | failed e =>
      exact absurd hn (hwalk rfl)
    | faulted root loaded suffix =>
      obtain ⟨hmap, hfewer, hanswer, hresolved⟩ := hwalk
      have hfaults : FaultsIn faultIn slot.node root loaded key suffix :=
        ⟨hmap, (hresolved hn).1, hfewer, (hresolved hn).2, hanswer⟩
      have hstep := hfaults.faulted
      obtain ⟨found, slot', walk', hrun, hvalue, hslot⟩ := ih (walk + 1)
        (show Everywhere faultIn (Resolved faultIn) (slot.publish root 0).node from hfaults.resolved) (some (loaded, suffix))
        (fun d hd => by cases hd; exact ⟨hfaults.below, hanswer.trans (congrFun hstep.entry key).symm⟩) (fun _ => rfl)
      refine ⟨found, slot', walk', hrun, by rw [hvalue, hstep.entry], .inr ?_⟩
      rcases hslot with ⟨-, rfl⟩ | hslot
      · exact hstep
      · exact hstep.trans hslot

/-- **A faulting read over a resolved trie answers from the map** and leaves it. Either nothing was on disk on the key's
path, or a newer root with fewer on-disk edges there is published. -/
theorem findLeafFaulting_spec (hn : Everywhere faultIn (Resolved faultIn) slot.node) (key : List U) (retries : Nat) :
    ∃ found slot', findLeafFaulting faultIn slot key retries = (.ok found, slot') ∧
      found.map value = entryAt faultIn slot.node key ∧ Faulted faultIn slot slot' key := by
  obtain ⟨found, slot', walk', hrun, hvalue, hslot⟩ := findLeafFaultingFrom_spec (retries + 1) 0 hn none nofun nofun
  exact ⟨found, slot', by rw [findLeafFaulting, hrun], hvalue, hslot.resolve_left (fun h => by cases h.1)⟩

theorem findLeafFaulting_of_resident (hn : Everywhere faultIn Resident slot.node) (key : List U) (retries : Nat) :
    ∃ found, findLeafFaulting faultIn slot key retries = (.ok found, slot) ∧
      found.map value = entryAt faultIn slot.node key := by
  have hres : Everywhere faultIn (Resolved faultIn) slot.node := fun path m hm => (hn path m hm).resolved faultIn
  obtain ⟨found, slot', hrun, hvalue, hslot⟩ := findLeafFaulting_spec hres key retries
  rcases hslot.progress with ⟨rfl, -⟩ | ⟨-, hlt⟩
  · exact ⟨found, hrun, hvalue⟩
  · rw [pathFaults_of_resident hn] at hlt
    omega

end Dictenstein.Overlay
