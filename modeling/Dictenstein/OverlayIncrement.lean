import Dictenstein.OverlaySpine
import Dictenstein.CheckpointCounts
/-! # OverlayIncrement — an increment whose loads may fail

`try_increment_cas_inner` reads the count by one walk and builds the new spine by a second one, and every load of an evicted
child may fail in either. When the read fails the code falls back to the walk that loads nothing, which finds no count below
an evicted edge; if the builder's load of the same record then succeeds, the count restarts at the delta
(`increment_resets_counter`).

`loads walk below` is the loader of one walk at one edge, by the number of the walk and the units of the key below the edge.
-/

namespace Dictenstein.Overlay

open OverlayNode List Option Except

/-! ## The increment -/

/-- The count an increment starts from: what the read found, or what is in memory below the snapshot if the read failed. -/
def currentCount (read : Read UInt8 UInt64) (snapshot : OverlayNode UInt8 UInt64) (key : List UInt8) : Option UInt64 :=
  match read.result with
  | .ok found => found.bind value
  | .error _ => valueRead snapshot key

def incrementWith (loads : Nat → Loads UInt8 UInt64) (key : List UInt8) (delta : UInt64) :
    Nat → Nat → PersistentARTrie UInt64 → Option (Except PersistentARTrieError (UInt64 × Nat) × PersistentARTrie UInt64)
  | 0, _, _ => none
  | fuel + 1, walk, t =>
    let revision := t.overlay.slot
    let t := t.claim
    let generation := t.commitSeq
    let read := findLeafFaultingFrom loads key (defaultMaxFaultinRetries + 1) walk revision none
    let t := t.withSlot read.slot
    match incrementValue key (currentCount read revision.node key) delta with
    | .error e => some (.error e, t)
    | .ok newVal => match buildValueSpine .fault (loads read.walk) revision.node key 0 newVal with
      | .error e => some (.error e, t)
      | .ok root =>
        if t.overlay.slot.revision = revision.revision then
          some (.ok (newVal, generation), t.publish root (presenceDelta revision.node key))
        else incrementWith loads key delta fuel (read.walk + 1) t

/-! ## What a read finds -/

section
variable {U V : Type} [DecidableEq U] [LT U] [DecidableLT U] {disk : FaultIn U V}
variable {key : List U} {load : FaultIn U V} {loads : Loads U V} {n : OverlayNode U V} {e : PersistentARTrieError}

omit [LT U] [DecidableLT U] in
theorem entryAt_of_walkFaultingSnapshot (hloads : loads.Of disk) {found : Option (OverlayNode U V)}
    (h : walkFaultingSnapshot loads n key = .ok found) : found.map value = entryAt disk n key := by
  induction key generalizing n with
  | nil =>
    rw [← ok.inj h]
    cases hf : n.isFinal <;> simp [entry, hf]
  | cons u key ih =>
    rw [walkFaultingSnapshot] at h
    cases hfind : n.findChild u with
    | none =>
      simp only [hfind] at h
      rw [← ok.inj h]
      exact (entryAt_cons_of_none disk (by simp [childAt, resolveOrFault, hfind]) key).symm
    | some child =>
      cases child with
      | inMem c =>
        simp only [hfind] at h
        rw [entryAt_cons_of_some disk (childAt_of_findChild disk hfind)]
        exact ih h
      | onDisk p =>
        by_cases hnull : p.isNull = true
        · simp only [hfind, hnull, if_true] at h
          rw [← ok.inj h]
          exact (entryAt_cons_of_none disk (by simp [childAt, resolveOrFault, hfind, hnull]) key).symm
        · simp only [hfind, hnull, Bool.false_eq_true, if_false] at h
          cases hl : loads key.length p with
          | error e => simp [hl] at h
          | ok c =>
            simp only [hl] at h
            have hdisk := hloads _ p c hl
            have hchild : childAt disk n u = some c := by simp [childAt, resolveOrFault, hfind, hnull, hdisk]
            rw [entryAt_cons_of_some disk hchild]
            exact ih h

/-- The same map and term count, fewer on-disk edges on the path if it published, and the map's answer if it gives one. -/
structure ReadOf (disk : FaultIn U V) (slot : RootRevision U V) (key : List U) (read : Read U V) : Prop where
  entry : entryAt disk read.slot.node = entryAt disk slot.node
  termCount : read.slot.termCount = slot.termCount
  answer : ∀ found, read.result = .ok found → found.map value = entryAt disk slot.node key
  progress : read.slot = slot ∨
    slot.revision < read.slot.revision ∧ pathFaults disk read.slot.node key < pathFaults disk slot.node key

theorem findLeafFaultingFrom_of {loads : Nat → Loads U V} (hloads : ∀ walk, (loads walk).Of disk) (key : List U)
    (attempts walk : Nat)
    (slot : RootRevision U V) (fallback : Option (OverlayNode U V × List U)) (hpos : fallback = none → attempts ≠ 0)
    (hfallback : ∀ decoded suffix, fallback = some (decoded, suffix) →
      entryAt disk decoded suffix = entryAt disk slot.node key) :
    ReadOf disk slot key (findLeafFaultingFrom loads key attempts walk slot fallback) := by
  induction attempts generalizing walk slot fallback with
  | zero =>
    unfold findLeafFaultingFrom
    cases hleaf : findLeafIterative slot.node key with
    | some m =>
      refine ⟨rfl, rfl, fun found hfound => ?_, .inl rfl⟩
      rw [← ok.inj hfound]
      exact (entryAt_of_findLeafIterative hleaf).symm
    | none =>
      cases hfb : fallback with
      | none => exact absurd rfl (hpos hfb)
      | some last =>
        exact ⟨rfl, rfl, fun found hfound =>
          (entryAt_of_walkFaultingSnapshot (hloads walk) hfound).trans (hfallback _ _ hfb), .inl rfl⟩
  | succ attempts ih =>
    rw [findLeafFaultingFrom]
    have hwalk := faultWalk_spec (fun p node => hloads walk 0 p node) slot.node key
    cases hw : faultWalk (loads walk 0) slot.node key with rw [hw] at hwalk
    | absent =>
      refine ⟨rfl, rfl, fun found hfound => ?_, .inl rfl⟩
      rw [← ok.inj hfound]
      exact hwalk.2.symm
    | leaf m =>
      refine ⟨rfl, rfl, fun found hfound => ?_, .inl rfl⟩
      rw [← ok.inj hfound, hwalk.2]
      cases hf : m.isFinal <;> simp [entry, hf]
    | failed e => exact ⟨rfl, rfl, by rintro _ ⟨⟩, .inl rfl⟩
    | faulted root loaded suffix =>
      obtain ⟨hmap, hfewer, hanswer, -⟩ := hwalk
      have hmap' : entryAt disk (slot.publish root 0).node = entryAt disk slot.node := hmap
      have hfewer' : pathFaults disk (slot.publish root 0).node key + 1 = pathFaults disk slot.node key := hfewer
      have hrest := ih (walk + 1) (slot.publish root 0) (some (loaded, suffix)) (by rintro ⟨⟩)
        fun decoded rest h => by
          obtain ⟨rfl, rfl⟩ := Prod.mk.inj (some.inj h)
          rw [hmap', hanswer]
      refine ⟨hrest.entry.trans hmap', hrest.termCount.trans (Int.add_zero _),
        fun found hfound => (hrest.answer found hfound).trans (by rw [hmap']), .inr ?_⟩
      show slot.revision <
        (findLeafFaultingFrom loads key attempts (walk + 1) (slot.publish root 0) (some (loaded, suffix))).slot.revision ∧
        pathFaults disk
          (findLeafFaultingFrom loads key attempts (walk + 1) (slot.publish root 0) (some (loaded, suffix))).slot.node key <
          pathFaults disk slot.node key
      rcases hrest.progress with hsame | ⟨hrevision, hpath⟩
      · rw [hsame]
        exact ⟨Nat.lt_succ_self _, by omega⟩
      · exact ⟨Nat.lt_of_succ_lt hrevision, by omega⟩

theorem findLeafFaultingFrom_failed {loads : Nat → Loads U V} (hloads : ∀ walk, (loads walk).Of disk) {attempts walk : Nat}
    {slot : RootRevision U V} {fallback : Option (OverlayNode U V × List U)}
    (h : (findLeafFaultingFrom loads key (attempts + 1) walk slot fallback).result = .error e)
    (hslot : (findLeafFaultingFrom loads key (attempts + 1) walk slot fallback).slot.revision = slot.revision) :
    faultWalk (loads walk 0) slot.node key = .failed e ∧
      (findLeafFaultingFrom loads key (attempts + 1) walk slot fallback).walk = walk + 1 := by
  have hwalk := faultWalk_spec (fun p node => hloads walk 0 p node) slot.node key
  rw [findLeafFaultingFrom] at h hslot ⊢
  cases hw : faultWalk (loads walk 0) slot.node key with
  | absent | leaf m => simp [hw] at h
  | failed e' =>
    simp only [hw, error.injEq] at h
    exact ⟨by rw [h], rfl⟩
  | faulted root loaded suffix =>
    rw [hw] at hwalk
    simp only [hw] at hslot
    have hrest := findLeafFaultingFrom_of hloads key attempts (walk + 1) (slot.publish root 0) (some (loaded, suffix))
      (fun hnone => by cases hnone) fun decoded rest hlast => by
        obtain ⟨rfl, rfl⟩ := Prod.mk.inj (some.inj hlast)
        exact hwalk.2.2.1.trans (congrFun hwalk.1.symm key)
    have hgrew : slot.revision < (slot.publish root 0).revision := Nat.lt_succ_self _
    rcases hrest.progress with hsame | ⟨hrevision, -⟩
    · rw [hsame] at hslot
      omega
    · omega

theorem findLeafIterative_of_failed (h : faultWalk load n key = .failed e) : findLeafIterative n key = none := by
  induction key generalizing n with
  | nil => cases h
  | cons u key ih =>
    rw [faultWalk] at h
    rw [findLeafIterative]
    cases hfind : n.findChild u with
    | none => rfl
    | some child =>
      cases child with
      | onDisk p => rfl
      | inMem c =>
        simp only [hfind] at h
        refine ih ?_
        cases hw : faultWalk load c key with
        | failed e' => simpa [hw] using h
        | absent | leaf m | faulted root loaded suffix => simp [hw] at h

theorem faultWalk_ne_failed (hload : ∀ p e, load p ≠ .error e) (n : OverlayNode U V) (key : List U) :
    faultWalk load n key ≠ .failed e := by
  fun_induction faultWalk load n key <;> simp_all

/-- A descent loads every record it meets on the key's path. -/
def loadsPath (loads : Loads U V) : OverlayNode U V → List U → Bool
  | _, [] => true
  | n, u :: key => match n.findChild u with
    | none => true
    | some (.inMem c) => loadsPath loads c key
    | some (.onDisk p) => !p.isNull && match loads key.length p with
      | .ok c => loadsPath loads c key
      | .error _ => false

theorem buildValueSpine_ok_iff {v : V} :
    (∃ root, buildValueSpine .fault loads n key 0 v = .ok root) ↔ loadsPath loads n key = true := by
  rw [buildValueSpine, if_neg (Nat.not_lt_zero _), drop_zero]
  generalize ([] : OverlayPathSpine U V) = spine
  induction key generalizing n spine with
  | nil => exact iff_of_true ⟨_, rfl⟩ rfl
  | cons u key ih =>
    rw [spineCopy, resolveOrFault, loadsPath]
    cases hfind : n.findChild u with
    | none => exact iff_of_true ⟨_, rfl⟩ rfl
    | some child =>
      cases child with
      | inMem c => exact ih _
      | onDisk p =>
        cases hnull : p.isNull with
        | true => simp [hnull]
        | false =>
          cases hl : loads key.length p with
          | error e => simp [hnull, hl]
          | ok c => simpa [hnull, hl] using ih _

end

/-! ## What an increment does -/

section
variable {disk : FaultIn UInt8 UInt64} {key : List UInt8} {delta : UInt64}
variable {newVal : UInt64}

theorem toNat_of_incrementValue {current : Option UInt64} (h : incrementValue key current delta = .ok newVal) :
    newVal.toNat = (current.getD 0).toNat + delta.toNat := by
  have hcurrent : counterOf current = some (((current.getD 0).toNat : Nat) : Int) := by
    cases current with
    | none => rfl
    | some v => exact counterValueToI128_uInt64 v
  have hsum := counterOf_increment h hcurrent
  rw [show counterOf (some newVal) = some ((newVal.toNat : Nat) : Int) from counterValueToI128_uInt64 newVal] at hsum
  exact_mod_cast some.inj hsum

theorem incrementValue_none : incrementValue key (none : Option UInt64) delta = .ok delta := by
  have hzero : counterOf (none : Option UInt64) = some 0 := rfl
  simp only [incrementValue, hzero, zero_add, i128ToCounterValue_uInt64, if_pos delta.toNat_lt, UInt64.ofNat_toNat]

def Increments (disk : FaultIn UInt8 UInt64) (t : PersistentARTrie UInt64) (key : List UInt8) (delta : UInt64)
    (t' : PersistentARTrie UInt64) : Except PersistentARTrieError (UInt64 × Nat) → Prop
  | .error _ => entryAt disk t'.root = entryAt disk t.root ∧ t'.overlay.slot.termCount = t.overlay.slot.termCount
  | .ok (newVal, _) => newVal.toNat = ((entryAt disk t.root key).join.getD 0).toNat + delta.toNat ∧
      entryAt disk t'.root = Function.update (entryAt disk t.root) key (some (some newVal))

def roundRead (loads : Nat → Loads UInt8 UInt64) (key : List UInt8) (walk : Nat) (t : PersistentARTrie UInt64) :
    Read UInt8 UInt64 :=
  findLeafFaultingFrom loads key (defaultMaxFaultinRetries + 1) walk t.overlay.slot none

theorem incrementWith_round (loads : Nat → Loads UInt8 UInt64) (key : List UInt8) (delta : UInt64) (walk : Nat)
    (t : PersistentARTrie UInt64) {read : Read UInt8 UInt64} (hread : roundRead loads key walk t = read) :
    (∃ e, (∀ fuel, incrementWith loads key delta (fuel + 1) walk t = some (.error e, t.claim.withSlot read.slot)) ∧
      ∀ newVal, incrementValue key (currentCount read t.root key) delta = .ok newVal →
        ¬loadsPath (loads read.walk) t.root key = true) ∨
    ∃ newVal root, incrementValue key (currentCount read t.root key) delta = .ok newVal ∧
      buildValueSpine .fault (loads read.walk) t.root key 0 newVal = .ok root ∧
      (read.slot.revision = t.overlay.slot.revision ∧
        (∀ fuel, incrementWith loads key delta (fuel + 1) walk t = some (.ok (newVal, t.claim.commitSeq),
          (t.claim.withSlot read.slot).publish root (presenceDelta t.root key))) ∨
      read.slot.revision ≠ t.overlay.slot.revision ∧
        ∀ fuel, incrementWith loads key delta (fuel + 1) walk t =
          incrementWith loads key delta fuel (read.walk + 1)
            (t.claim.withSlot read.slot)) := by
  have hround : ∀ fuel, incrementWith loads key delta (fuel + 1) walk t =
      match incrementValue key (currentCount read t.root key) delta with
      | .error e => some (.error e, t.claim.withSlot read.slot)
      | .ok newVal =>
        match buildValueSpine .fault (loads read.walk) t.root key 0 newVal with
        | .error e => some (.error e, t.claim.withSlot read.slot)
        | .ok root =>
          if read.slot.revision = t.overlay.slot.revision then
            some (.ok (newVal, t.claim.commitSeq),
              (t.claim.withSlot read.slot).publish root (presenceDelta t.root key))
          else incrementWith loads key delta fuel (read.walk + 1)
            (t.claim.withSlot read.slot) := by
    subst hread
    exact fun _ => rfl
  cases hvalue : incrementValue key (currentCount read t.root key) delta with
  | error e => exact .inl ⟨e, fun fuel => by rw [hround, hvalue], by simp⟩
  | ok newVal =>
    cases hbuild : buildValueSpine .fault (loads read.walk) t.root key 0 newVal with
    | error e =>
      refine .inl ⟨e, fun fuel => by simp only [hround, hvalue, hbuild], fun v _ hpath => ?_⟩
      obtain ⟨root, hroot⟩ := (buildValueSpine_ok_iff (v := newVal)).2 hpath
      rw [hbuild] at hroot
      cases hroot
    | ok root =>
      refine .inr ⟨newVal, root, rfl, hbuild, ?_⟩
      by_cases hsame : read.slot.revision = t.overlay.slot.revision
      · exact .inl ⟨hsame, fun fuel => by simp only [hround, hvalue, hbuild, if_pos hsame]⟩
      · exact .inr ⟨hsame, fun fuel => by simp only [hround, hvalue, hbuild, if_neg hsame]⟩

/-- The rounds of a call, by the number of their first walk and the state they begin in. A round leads to another one if its
read has replaced the root, the sum is a count and the builder gets through. -/
inductive Retries (loads : Nat → Loads UInt8 UInt64) (key : List UInt8) (delta : UInt64) :
    Nat → PersistentARTrie UInt64 → Nat → PersistentARTrie UInt64 → Prop
  | here (walk : Nat) (t : PersistentARTrie UInt64) : Retries loads key delta walk t walk t
  | next {walk walk' : Nat} {t t' : PersistentARTrie UInt64} {newVal : UInt64}
      (hslot : (roundRead loads key walk t).slot.revision ≠ t.overlay.slot.revision)
      (hvalue : incrementValue key (currentCount (roundRead loads key walk t) t.root key) delta = .ok newVal)
      (hpath : loadsPath (loads (roundRead loads key walk t).walk) t.root key = true)
      (h : Retries loads key delta ((roundRead loads key walk t).walk + 1)
        (t.claim.withSlot (roundRead loads key walk t).slot) walk' t') : Retries loads key delta walk t walk' t'

/-- The first walk of the read fails to load a record, the builder's descent loads it and every other one of the key's path,
and the count is not 0. -/
def Restarts (disk : FaultIn UInt8 UInt64) (loads : Nat → Loads UInt8 UInt64) (key : List UInt8) (walk : Nat)
    (t : PersistentARTrie UInt64) : Prop :=
  (∃ e, faultWalk (loads walk 0) t.root key = .failed e) ∧ loadsPath (loads (walk + 1)) t.root key = true ∧
    (entryAt disk t.root key).join.getD 0 ≠ 0

/-- A read whose first walk fails has no count, and leaves the root. -/
theorem roundRead_of_failed {loads : Nat → Loads UInt8 UInt64} {walk : Nat} {t : PersistentARTrie UInt64}
    {e : PersistentARTrieError} (h : faultWalk (loads walk 0) t.root key = .failed e) :
    roundRead loads key walk t = ⟨.error e, t.overlay.slot, walk + 1⟩ ∧
      currentCount (roundRead loads key walk t) t.root key = none := by
  have hread : roundRead loads key walk t = ⟨.error e, t.overlay.slot, walk + 1⟩ := by
    rw [roundRead, findLeafFaultingFrom, show t.overlay.slot.node = t.root from rfl, h]
  refine ⟨hread, ?_⟩
  rw [hread]
  show valueRead t.root key = none
  exact congrArg (Option.bind · value) (findLeafIterative_of_failed h)

/-- A round that publishes adds to the count of the map just if it does not restart the count. -/
theorem count_of_publish {loads : Nat → Loads UInt8 UInt64} (hloads : ∀ walk, (loads walk).Of disk) {walk : Nat}
    {t : PersistentARTrie UInt64} (hslot : (roundRead loads key walk t).slot.revision = t.overlay.slot.revision)
    (hpath : loadsPath (loads (roundRead loads key walk t).walk) t.root key = true)
    (hvalue : incrementValue key (currentCount (roundRead loads key walk t) t.root key) delta = .ok newVal)
    (hread : ReadOf disk t.overlay.slot key (roundRead loads key walk t)) :
    newVal.toNat = ((entryAt disk t.root key).join.getD 0).toNat + delta.toNat ↔ ¬Restarts disk loads key walk t := by
  have hsum := toNat_of_incrementValue hvalue
  cases hresult : (roundRead loads key walk t).result with
  | ok found =>
    have hcount : currentCount (roundRead loads key walk t) t.root key = (entryAt disk t.root key).join := by
      rw [currentCount, hresult, show entryAt disk t.root key = found.map value from (hread.answer _ hresult).symm]
      cases found <;> rfl
    rw [hcount] at hsum
    refine iff_of_true hsum fun hrestarts => ?_
    obtain ⟨e, hfailed⟩ := hrestarts.1
    rw [(roundRead_of_failed hfailed).1] at hresult
    cases hresult
  | error e =>
    obtain ⟨hfailed, hnext⟩ := findLeafFaultingFrom_failed hloads hresult hslot
    obtain ⟨hread', hcount⟩ := roundRead_of_failed hfailed
    rw [hcount] at hsum
    rw [hread'] at hpath
    have hzero : newVal.toNat = ((entryAt disk t.root key).join.getD 0).toNat + delta.toNat ↔
        (entryAt disk t.root key).join.getD 0 = 0 := by
      rw [hsum, ← UInt64.toNat_inj]
      simp
    rw [hzero, Restarts, not_and, not_and, not_ne_iff]
    exact ⟨fun h _ _ => h, fun h => h ⟨e, hfailed⟩ hpath⟩

/-- **An increment whose loads may fail.** Whatever loads succeed, the call ends. It is refused with the map as it was, or is
added to the count, just if none of its rounds restarts the count. -/
theorem increment_under_faults_iff (disk : FaultIn UInt8 UInt64) (loads : Nat → Loads UInt8 UInt64)
    (hloads : ∀ walk, (loads walk).Of disk) (key : List UInt8) (delta : UInt64) (t : PersistentARTrie UInt64) (walk : Nat) :
    ∃ r t', (∀ fuel, pathFaults disk t.root key < fuel → incrementWith loads key delta fuel walk t = some (r, t')) ∧
      (Increments disk t key delta t' r ↔
        ∀ walk' s, Retries loads key delta walk t walk' s → ¬Restarts disk loads key walk' s) := by
  induction hfaults : pathFaults disk t.root key using Nat.strong_induction_on generalizing t walk with
  | _ faults ih =>
    have hread : ReadOf disk t.overlay.slot key (roundRead loads key walk t) :=
      findLeafFaultingFrom_of hloads key (defaultMaxFaultinRetries + 1) walk t.overlay.slot none
        (fun _ => Nat.succ_ne_zero _) nofun
    have hmap : entryAt disk (t.claim.withSlot (roundRead loads key walk t).slot).root = entryAt disk t.root := hread.entry
    rcases incrementWith_round loads key delta walk t rfl with ⟨e, hrun, hstops⟩ | ⟨newVal, root, hvalue, hbuild, hround⟩
    · refine ⟨.error e, t.claim.withSlot (roundRead loads key walk t).slot, fun fuel hfuel => ?_, ?_⟩
      · obtain ⟨k, rfl⟩ := Nat.exists_eq_add_of_lt hfuel
        exact hrun _
      · refine iff_of_true ⟨hmap, hread.termCount⟩ fun walk' s hs hrestarts => ?_
        cases hs with
        | next hslot hvalue hpath h => exact hstops _ hvalue hpath
        | here =>
          obtain ⟨⟨e', hfailed⟩, hpath, -⟩ := hrestarts
          obtain ⟨hread', hcount⟩ := roundRead_of_failed hfailed
          exact hstops delta (hcount ▸ incrementValue_none) (by rw [hread']; exact hpath)
    · have hpath := buildValueSpine_ok_iff.1 ⟨root, hbuild⟩
      rcases hround with ⟨hslot, hrun⟩ | ⟨hslot, hrun⟩
      · refine ⟨.ok (newVal, t.claim.commitSeq), (t.claim.withSlot (roundRead loads key walk t).slot).publish root
          (presenceDelta t.root key), fun fuel hfuel => ?_, ?_⟩
        · obtain ⟨k, rfl⟩ := Nat.exists_eq_add_of_lt hfuel
          exact hrun _
        · have hcount := count_of_publish hloads hslot hpath hvalue hread
          constructor
          · rintro ⟨hsum, -⟩ walk' s hs
            cases hs with
            | here => exact hcount.1 hsum
            | next hslot' => exact absurd hslot hslot'
          · exact fun h => ⟨hcount.2 (h _ _ (.here _ _)), entryAt_buildValueSpine (hloads _) hbuild⟩
      · obtain ⟨-, hfewer⟩ := hread.progress.resolve_left fun hsame => hslot (by rw [hsame])
        have hless : pathFaults disk (t.claim.withSlot (roundRead loads key walk t).slot).root key < faults :=
          hfaults ▸ hfewer
        obtain ⟨r, t', hrest, hdone⟩ := ih _ hless _ ((roundRead loads key walk t).walk + 1) rfl
        refine ⟨r, t', fun fuel hfuel => ?_, ?_⟩
        · obtain ⟨k, rfl⟩ := Nat.exists_eq_add_of_lt hfuel
          rw [hrun]
          exact hrest _ (by omega)
        · have hrounds : (∀ walk' s, Retries loads key delta walk t walk' s → ¬Restarts disk loads key walk' s) ↔
              ∀ walk' s, Retries loads key delta ((roundRead loads key walk t).walk + 1)
                (t.claim.withSlot (roundRead loads key walk t).slot) walk' s → ¬Restarts disk loads key walk' s := by
            refine ⟨fun h walk' s hs => h _ _ (.next hslot hvalue hpath hs), fun h walk' s hs => ?_⟩
            cases hs with
            | next _ _ _ hs => exact h _ _ hs
            | here =>
              rintro ⟨⟨e, hfailed⟩, -⟩
              rw [(roundRead_of_failed hfailed).1] at hslot
              exact hslot rfl
          rw [hrounds, ← hdone]
          cases r with
          | error e =>
            show _ ∧ _ ↔ _ ∧ _
            rw [hmap, show (t.claim.withSlot (roundRead loads key walk t).slot).overlay.slot.termCount =
              t.overlay.slot.termCount from hread.termCount]
          | ok out =>
            obtain ⟨newVal, generation⟩ := out
            rw [Increments, Increments, hmap]

end

/-! ## Loads that never change -/

section
variable {U V : Type} [DecidableEq U] [LT U] [DecidableLT U] (faultIn : FaultIn U V)

/-- Where every load of a record has the same outcome, the number of the first walk does not matter. -/
theorem findLeafFaultingFrom_const (key : List U) (attempts walk walk' : Nat) (slot : RootRevision U V)
    (fallback : Option (OverlayNode U V × List U)) :
    ((findLeafFaultingFrom (fun _ _ => faultIn) key attempts walk slot fallback).result,
      (findLeafFaultingFrom (fun _ _ => faultIn) key attempts walk slot fallback).slot) =
    ((findLeafFaultingFrom (fun _ _ => faultIn) key attempts walk' slot fallback).result,
      (findLeafFaultingFrom (fun _ _ => faultIn) key attempts walk' slot fallback).slot) := by
  induction attempts generalizing walk walk' slot fallback with
  | zero =>
    unfold findLeafFaultingFrom
    cases findLeafIterative slot.node key with
    | some m => rfl
    | none => cases fallback <;> rfl
  | succ attempts ih =>
    rw [findLeafFaultingFrom, findLeafFaultingFrom]
    cases faultWalk faultIn slot.node key with
    | absent | leaf | failed => rfl
    | faulted root loaded suffix => exact ih _ _ _ _

theorem buildValueSpine_const (n : OverlayNode U V) (key : List U) (v : V) :
    buildValueSpine .fault (fun _ => faultIn) n key 0 v = buildValuePathIterative faultIn n key v := by
  unfold buildValueSpine
  rw [if_neg (Nat.not_lt_zero _), drop_zero, spineCopy_eq, buildValuePathIterative]
  simp only [createSpineLoop_eq]
  cases pathCopy faultIn _ _ _ _ n key <;> rfl

end

theorem incrementWith_const (faultIn : FaultIn UInt8 UInt64) (key : List UInt8) (delta : UInt64) (fuel walk : Nat)
    (t : PersistentARTrie UInt64) :
    incrementWith (fun _ _ => faultIn) key delta fuel walk t =
      PersistentARTrie.tryIncrementCasInner faultIn key delta fuel t := by
  induction fuel generalizing walk t with
  | zero => rfl
  | succ fuel ih =>
    have hread : _ = findLeafFaulting faultIn t.overlay.slot key defaultMaxFaultinRetries :=
      findLeafFaultingFrom_const faultIn key (defaultMaxFaultinRetries + 1) walk 0 t.overlay.slot none
    rw [incrementWith, PersistentARTrie.tryIncrementCasInner, ← hread]
    simp only [ih, currentCount, buildValueSpine_const, valuePublication]
    generalize findLeafFaultingFrom (fun _ _ => faultIn) key (defaultMaxFaultinRetries + 1) walk t.overlay.slot none = read
    cases read.result with
    | ok found =>
      cases incrementValue key (found.bind value) delta with
      | error e => rfl
      | ok newVal =>
        simp only
        cases buildValuePathIterative faultIn t.overlay.slot.node key newVal <;> rfl
    | error e =>
      cases incrementValue key (valueRead t.overlay.slot.node key) delta with
      | error e => rfl
      | ok newVal =>
        simp only
        cases buildValuePathIterative faultIn t.overlay.slot.node key newVal <;> rfl

/-! ## One evicted count -/

def sevenEvicted : PersistentARTrie UInt64 := (PersistentARTrie.create .immediate).withSlot oneEvicted

def firstLoadFails : Nat → Loads UInt8 UInt64
  | 0, _, _ => .error (.corrupted "read failed")
  | _ + 1, _, p => sevens p

/-- **An increment whose read fails restarts the count** at its delta, if the builder's load succeeds. -/
theorem increment_resets_counter :
    (∀ walk, (firstLoadFails walk).Of sevens) ∧ entryAt sevens sevenEvicted.root [1] = some (some 7) ∧
      ∃ t', incrementWith firstLoadFails [1] 5 2 0 sevenEvicted = some (.ok (5, 1), t') ∧
        entryAt sevens t'.root [1] = some (some 5) := by
  refine ⟨fun walk below p node h => ?_, rfl, _, rfl, rfl⟩
  cases walk with
  | zero => cases h
  | succ walk => exact h

/-- Loads that all succeed: the count 7 is loaded in the first round and becomes 12 in the second. -/
theorem increment_loads_counter : ∃ r t', incrementWith (fun _ _ => sevens) [1] 5 2 0 sevenEvicted = some (r, t') ∧
      Increments sevens sevenEvicted [1] 5 t' r ∧ r = .ok (12, 2) := by
  obtain ⟨r, t', hrun, hdone⟩ := increment_under_faults_iff sevens (fun _ _ => sevens) (fun _ _ _ _ h => h) [1] 5
    sevenEvicted 0
  have htwo := hrun 2 (by decide)
  refine ⟨r, t', htwo, hdone.2 ?_, ?_⟩
  · rintro walk s - ⟨⟨e, hfailed⟩, -⟩
    exact faultWalk_ne_failed (by simp [sevens]) _ _ hfailed
  · have hresult : (incrementWith (fun _ _ => sevens) [1] 5 2 0 sevenEvicted).map Prod.fst = some (.ok (12, 2)) := rfl
    rw [htwo] at hresult
    exact some.inj hresult

end Dictenstein.Overlay
