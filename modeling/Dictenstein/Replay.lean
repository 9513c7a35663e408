import Dictenstein.OverlayFault
import Dictenstein.Recovery
import Mathlib.Data.Finset.Basic
/-! # Replay — applying recovered operations to an overlay

Reopening installs an overlay (empty, or the checkpoint image) and publishes every reconciled operation into it, without
logging. Nobody else is writing then, so each publisher's compare-and-swap succeeds; a publisher here is one function from
overlay to overlay, and on the key-to-value map one update of its own key (`replayEntry`). -/

namespace Dictenstein.Overlay

open Wire Wal Recovery OverlayNode Function List Option

/-! ## Values

Values are stored as bincode images. All that is used of the encoding is that decoding an image gives the value back.
A counter type also has an 8-byte leaf image; `CounterLeaf` is the codec's dispatch on the value type, and answers
`none` throughout for a type that is no counter. -/

class DictionaryValue (V : Type) where
  serialize : V → Bytes
  deserialize : Bytes → Option V
  deserialize_serialize : ∀ v, deserialize (serialize v) = some v

class CounterLeaf (V : Type) where
  leafToI128 : Bytes → Option Int
  i128ToLeaf : Int → Option Bytes

open DictionaryValue CounterLeaf

section
variable {V : Type} [DictionaryValue V] [CounterLeaf V]

def counterValueToI128 (v : V) : Option Int := leafToI128 V (serialize v)

def i128ToCounterValue (n : Int) : Option V := (i128ToLeaf V n).bind deserialize

def counterOf : Option V → Option Int
  | some v => counterValueToI128 v
  | none => some 0

end

-- fixed-width little endian, with the trailing-bytes check
instance : DictionaryValue UInt64 where
  serialize := u64Bytes
  deserialize bs := if bs.length = 8 then some (UInt64.ofNat (leVal bs)) else none
  deserialize_serialize v := by
    have hlt : v.toNat < 256 ^ 8 := v.toNat_lt
    rw [u64Bytes, if_pos (length_leBytes 8 _), leVal_leBytes, Nat.mod_eq_of_lt hlt, UInt64.ofNat_toNat]

instance : CounterLeaf UInt64 where
  leafToI128 bs := if bs.length = 8 then some (leVal bs) else none
  i128ToLeaf n := if n < 0 ∨ (2 : Int) ^ 64 ≤ n then none else some (leBytes 8 n.toNat)

theorem counterValueToI128_uInt64 (v : UInt64) : counterValueToI128 v = some (v.toNat : Int) := by
  have hlt : v.toNat < 256 ^ 8 := v.toNat_lt
  show (if (leBytes 8 v.toNat).length = 8 then some (leVal (leBytes 8 v.toNat) : Int) else none) = _
  rw [if_pos (length_leBytes 8 _), leVal_leBytes, Nat.mod_eq_of_lt hlt]

theorem i128ToCounterValue_uInt64 (n : Nat) :
    (i128ToCounterValue (n : Int) : Option UInt64) = if n < 2 ^ 64 then some (UInt64.ofNat n) else none := by
  show (if (n : Int) < 0 ∨ (2 : Int) ^ 64 ≤ n then none else some (leBytes 8 (n : Int).toNat)).bind _ = _
  by_cases h : n < 2 ^ 64
  · have hlt : n < 256 ^ 8 := h
    rw [if_neg (by omega), if_pos h, Int.toNat_natCast, bind_some]
    show (if (leBytes 8 n).length = 8 then some (UInt64.ofNat (leVal (leBytes 8 n))) else none) = _
    rw [if_pos (length_leBytes 8 n), leVal_leBytes, Nat.mod_eq_of_lt hlt]
  · rw [if_pos (by omega), if_neg h, bind_none]

/-! ## Publishers -/

structure LiveOverlay (V : Type) where
  slot : RootRevision UInt8 V
  cache : Finset Bytes

variable {V : Type}

def LiveOverlay.fresh : LiveOverlay V := ⟨.initial, ∅⟩

def finalDelta (old new : OverlayNode UInt8 V) : Int :=
  match old.isFinal, new.isFinal with
  | false, true => 1
  | true, false => -1
  | _, _ => 0

namespace LiveOverlay

variable (o : LiveOverlay V)

def publishRootCas (transform : OverlayNode UInt8 V → OverlayNode UInt8 V) (needsPublish : OverlayNode UInt8 V → Bool) :
    LiveOverlay V × Bool :=
  if needsPublish o.slot.node then
    let new := transform o.slot.node
    (⟨o.slot.publish new (finalDelta o.slot.node new), o.cache⟩, true)
  else (o, false)

def overlayPublishRootMembership : LiveOverlay V × Bool := o.publishRootCas asFinal fun r => !r.isFinal

def overlayPublishRootValue (v : V) : LiveOverlay V := (o.publishRootCas (fun r => r.asFinal.withValue v) fun _ => true).1

section
variable (faultIn : FaultIn UInt8 V)

def insertCas (term : Bytes) : LiveOverlay V × Bool :=
  if term ∈ o.cache then (o, false)
  else if term = [] then
    let (o', inserted) := o.overlayPublishRootMembership
    (if inserted then ⟨o'.slot, insert [] o'.cache⟩ else o', inserted)
  else match buildFinalPathIterative faultIn o.slot.node term with
    | .ok root => (⟨o.slot.publish root 1, insert term o.cache⟩, true)
    | .error .alreadyExists => (⟨o.slot, insert term o.cache⟩, false)
    | .error (.failure _) => (o, false)

section
variable (units : Bytes)

def overlayPublishValue (v : V) : LiveOverlay V × Bool :=
  let delta : Int := if (findLeafIterative o.slot.node units).isNone then 1 else 0
  match buildValuePathIterative faultIn o.slot.node units v with
  | .ok root => (⟨o.slot.publish root delta, insert units o.cache⟩, true)
  | .error _ => (o, false)

def overlayRemoveNoWal (term : Bytes) : LiveOverlay V :=
  match buildRemovePathIterative faultIn o.slot.node term with
  | .ok root => ⟨o.slot.publish root (-1), o.cache.erase term⟩
  | .error .alreadyExists => ⟨o.slot, o.cache.erase term⟩
  | .error (.failure _) => o

def overlayRemove : LiveOverlay V :=
  if units = [] then (o.publishRootCas asNonFinal fun r => r.isFinal).1 else o.overlayRemoveNoWal faultIn units

def overlayValueGet : Option V × LiveOverlay V :=
  match findLeafFaulting faultIn o.slot units defaultMaxFaultinRetries with
  | (.ok found, slot) => (found.bind value, ⟨slot, o.cache⟩)
  | (.error _, slot) => (none, ⟨slot, o.cache⟩)

def overlayPublishMembershipAny : LiveOverlay V :=
  if units = [] then o.overlayPublishRootMembership.1 else (o.insertCas faultIn units).1

def overlayPublishValueAny (v : V) : LiveOverlay V × Bool :=
  if units = [] then (o.overlayPublishRootValue v, true) else o.overlayPublishValue faultIn units v

end

end

variable [DictionaryValue V] [CounterLeaf V]

/-- Publish a decoded value; an image that does not decode is logged and skipped. -/
def publishDecoded (faultIn : FaultIn UInt8 V) (units : Bytes) : Option V → LiveOverlay V × Bool
  | some v => o.overlayPublishValueAny faultIn units v
  | none => (o, false)

def accumulate (faultIn : FaultIn UInt8 V) (units : Bytes) (delta : Int64) : LiveOverlay V × Bool :=
  -- a delta of the empty key is dropped
  if units = [] then (o, true)
  else
    let (value, o) := o.overlayValueGet faultIn units
    match counterOf value with
    | none => (o, false)
    | some n => o.publishDecoded faultIn units (i128ToCounterValue (n + delta.toInt))

def applyRecoveredOperationOverlay (faultIn : FaultIn UInt8 V) (op : RecoveredOperation) : LiveOverlay V × Bool :=
  match op with
  | .insert _ term (some bytes) => o.publishDecoded faultIn term (deserialize bytes)
  | .insert _ term none => (o.overlayPublishMembershipAny faultIn term, true)
  | .remove _ term => (o.overlayRemove faultIn term, true)
  | .upsert _ term bytes => o.publishDecoded faultIn term (deserialize bytes)
  | .compareAndSwap _ term bytes success =>
    if success then o.publishDecoded faultIn term (deserialize bytes) else (o, false)
  | .increment _ term _ (some result) =>
    o.publishDecoded faultIn term ((leafToI128 V (i64Bytes result)).bind i128ToCounterValue)
  | .increment _ term delta none => o.accumulate faultIn term delta

/-- The apply loop of `drain_segments_into_overlay`: an operation that fails does not stop the ones after it. -/
def drainIntoOverlay (faultIn : FaultIn UInt8 V) (ops : List RecoveredOperation) : LiveOverlay V :=
  ops.foldl (fun o op => (o.applyRecoveredOperationOverlay faultIn op).1) o

end LiveOverlay

/-! ## The map a replay computes -/

section Map

variable [DictionaryValue V] [CounterLeaf V]

/-- A decoded value replaces the entry; one that does not decode leaves it. -/
def setEntry (e : Option (Option V)) : Option V → Option (Option V)
  | some v => some (some v)
  | none => e

/-- The entry after a counter delta: an absent key and a valueless one count from zero. -/
def accumulateEntry (e : Option (Option V)) (delta : Int) : Option (Option V) :=
  match counterOf (e.join) with
  | none => e
  | some n => setEntry e (i128ToCounterValue (n + delta))

/-- What a recovered operation does to the entry of its own key. -/
def replayEntry (op : RecoveredOperation) (e : Option (Option V)) : Option (Option V) :=
  match op with
  | .insert _ _ (some bytes) => setEntry e (deserialize bytes)
  | .insert _ _ none => e.or (some none)
  | .remove _ _ => none
  | .upsert _ _ bytes => setEntry e (deserialize bytes)
  | .compareAndSwap _ _ bytes success => if success then setEntry e (deserialize bytes) else e
  | .increment _ _ _ (some result) => setEntry e ((leafToI128 V (i64Bytes result)).bind i128ToCounterValue)
  | .increment _ term delta none => if term = [] then e else accumulateEntry e delta.toInt

/-- A key-to-value map: absent, or present with an optional value. -/
abbrev KeyMap (V : Type) := Bytes → Option (Option V)

def replayMap (m : KeyMap V) (op : RecoveredOperation) : KeyMap V :=
  update m op.term (replayEntry op (m op.term))

theorem foldl_replayMap_apply (ops : List RecoveredOperation) (m : KeyMap V) (key : Bytes) : ops.foldl replayMap m key =
      (ops.filter fun op => op.term = key).foldl (fun e op => replayEntry op e) (m key) := by
  induction ops generalizing m with
  | nil => rfl
  | cons op ops ih =>
    rw [foldl_cons, ih, replayMap, filter_cons]
    by_cases h : op.term = key
    · simp [h]
    · rw [if_neg (by simpa using h), update_of_ne (fun heq => h heq.symm)]

end Map

/-! ## Every publisher is an update -/

/-- An overlay during reopening: nothing is on disk, and the cache holds non-empty members only. -/
structure Reopened (faultIn : FaultIn UInt8 V) (o : LiveOverlay V) : Prop where
  wellFormed : WellFormed faultIn o.slot.node
  resident : Everywhere faultIn Resident o.slot.node
  cached : ∀ t ∈ o.cache, t ≠ [] ∧ entryAt faultIn o.slot.node t ≠ none

/-- One key's entry was set and the overlay is as good as before. -/
structure Applied (faultIn : FaultIn UInt8 V) (o o' : LiveOverlay V) (key : Bytes) (e : Option (Option V)) : Prop where
  reopened : Reopened faultIn o'
  entry : entryAt faultIn o'.slot.node = update (entryAt faultIn o.slot.node) key e

section Publishers

variable {faultIn : FaultIn UInt8 V} {o : LiveOverlay V}

open LiveOverlay

theorem reopened_fresh : Reopened faultIn (LiveOverlay.fresh : LiveOverlay V) where
  wellFormed := wellFormed_new
  resident := resident_new
  cached := fun t ht => by simp [fresh] at ht

section
variable (h : Reopened faultIn o)
include h

section
variable (key : Bytes)

theorem Reopened.applied_refl : Applied faultIn o o key (entryAt faultIn o.slot.node key) where
  reopened := h
  entry := (update_eq_self key _).symm

theorem Reopened.applied_of_updates {o' : LiveOverlay V} {key : Bytes} {e : Option (Option V)}
    (hu : Updates faultIn o.slot.node o'.slot.node key e)
    (hcache : ∀ t ∈ o'.cache, t = key ∧ key ≠ [] ∧ e ≠ none ∨ t ≠ key ∧ t ∈ o.cache) : Applied faultIn o o' key e where
  reopened := by
    refine ⟨hu.wellFormed, hu.resident h.resident, fun t ht => ?_⟩
    rw [hu.entry]
    rcases hcache t ht with ⟨rfl, hne, he⟩ | ⟨hne, hold⟩
    · rw [update_self]
      exact ⟨hne, he⟩
    · rw [update_of_ne hne]
      exact h.cached t hold
  entry := hu.entry

theorem Reopened.applied_of_cache {o' : LiveOverlay V} {key : Bytes}
    (hslot : o'.slot = o.slot) (hcache : ∀ t ∈ o'.cache, t = key ∧ key ≠ [] ∧ entryAt faultIn o.slot.node key ≠ none ∨
      t ∈ o.cache) : Applied faultIn o o' key (entryAt faultIn o.slot.node key) where
  reopened := by
    refine ⟨hslot ▸ h.wellFormed, hslot ▸ h.resident, fun t ht => ?_⟩
    rw [hslot]
    rcases hcache t ht with ⟨rfl, hne, he⟩ | hold
    · exact ⟨hne, he⟩
    · exact h.cached t hold
  entry := by rw [hslot, update_eq_self]

theorem Reopened.nil_not_cached {t : Bytes} (ht : t ∈ o.cache) : t ≠ [] := (h.cached t ht).1

theorem applied_overlayPublishValueAny (v : V) :
    Applied faultIn o (o.overlayPublishValueAny faultIn key v).1 key (some (some v)) := by
  obtain ⟨root, hroot, hu⟩ := buildValuePathIterative_spec h.wellFormed key v
  by_cases hkey : key = []
  · subst hkey
    -- at the empty key the builder's copy is the root publisher's transform
    obtain rfl : o.slot.node.asFinal.withValue v = root := Except.ok.inj hroot
    rw [overlayPublishValueAny, if_pos rfl]
    exact h.applied_of_updates hu (fun t ht => .inr ⟨h.nil_not_cached ht, ht⟩)
  · simp only [overlayPublishValueAny, hkey, if_false, overlayPublishValue, hroot]
    refine h.applied_of_updates hu (fun t ht => ?_)
    rcases Finset.mem_insert.1 ht with rfl | ht
    · exact .inl ⟨rfl, hkey, by simp⟩
    · by_cases htk : t = key
      · exact .inl ⟨htk, hkey, by simp⟩
      · exact .inr ⟨htk, ht⟩

theorem applied_overlayPublishMembershipAny : Applied faultIn o (o.overlayPublishMembershipAny faultIn key) key
      ((entryAt faultIn o.slot.node key).or (some none)) := by
  by_cases hkey : key = []
  · subst hkey
    rw [overlayPublishMembershipAny, if_pos rfl, overlayPublishRootMembership, publishRootCas]
    cases hf : o.slot.node.isFinal with
    | true =>
      have hentry : entryAt faultIn o.slot.node [] = some o.slot.node.value := by simp [entry, hf]
      have happ := h.applied_refl []
      rw [hentry] at happ ⊢
      exact happ
    | false =>
      have hnone : entryAt faultIn o.slot.node [] = none := by simp [entry, hf]
      obtain ⟨root, hroot, hu⟩ := buildFinalPathIterative_absent h.wellFormed hnone
      have hroot' : root = o.slot.node.asFinal := by
        simp only [buildFinalPathIterative, pathCopy, hf, Bool.false_eq_true, if_false, Except.ok.injEq] at hroot
        exact hroot.symm
      rw [hnone]
      exact h.applied_of_updates (hroot' ▸ hu) (fun t ht => .inr ⟨h.nil_not_cached ht, ht⟩)
  · rw [overlayPublishMembershipAny, if_neg hkey, insertCas]
    by_cases hc : key ∈ o.cache
    · obtain ⟨x, hx⟩ := ne_none_iff_exists'.1 (h.cached key hc).2
      have happ := h.applied_refl key
      rw [hx] at happ ⊢
      rw [if_pos hc]
      exact happ
    · rw [if_neg hc, if_neg hkey]
      cases hentry : entryAt faultIn o.slot.node key with
      | none =>
        obtain ⟨root, hroot, hu⟩ := buildFinalPathIterative_absent h.wellFormed hentry
        rw [hroot]
        refine h.applied_of_updates hu (fun t ht => ?_)
        rcases Finset.mem_insert.1 ht with rfl | ht
        · exact .inl ⟨rfl, hkey, by simp⟩
        · exact .inr ⟨fun heq => hc (heq ▸ ht), ht⟩
      | some x =>
        have hne : entryAt faultIn o.slot.node key ≠ none := by simp [hentry]
        rw [buildFinalPathIterative_present hne]
        have happ : Applied faultIn o ⟨o.slot, insert key o.cache⟩ key _ := h.applied_of_cache rfl (fun t ht => by
          rcases Finset.mem_insert.1 ht with rfl | ht
          · exact .inl ⟨rfl, hkey, hne⟩
          · exact .inr ht)
        rw [hentry] at happ
        exact happ

theorem applied_overlayRemove : Applied faultIn o (o.overlayRemove faultIn key) key none := by
  by_cases hkey : key = []
  · subst hkey
    rw [overlayRemove, if_pos rfl, publishRootCas]
    cases hf : o.slot.node.isFinal with
    | false =>
      have hentry : entryAt faultIn o.slot.node [] = none := by simp [entry, hf]
      have happ := h.applied_refl []
      rw [hentry] at happ
      exact happ
    | true =>
      have hne : entryAt faultIn o.slot.node [] ≠ none := by simp [entry, hf]
      obtain ⟨root, hroot, hu⟩ := buildRemovePathIterative_present h.wellFormed hne
      have hroot' : root = o.slot.node.asNonFinal := by
        simp only [buildRemovePathIterative, pathCopy, hf, if_true, Except.ok.injEq] at hroot
        exact hroot.symm
      exact h.applied_of_updates (hroot' ▸ hu) (fun t ht => .inr ⟨h.nil_not_cached ht, ht⟩)
  · rw [overlayRemove, if_neg hkey, overlayRemoveNoWal]
    have herase : ∀ t ∈ o.cache.erase key, t ≠ key ∧ t ∈ o.cache := fun t ht => Finset.mem_erase.1 ht
    by_cases hne : entryAt faultIn o.slot.node key = none
    · rw [buildRemovePathIterative_absent h.wellFormed hne]
      have happ : Applied faultIn o ⟨o.slot, o.cache.erase key⟩ key _ :=
        h.applied_of_cache rfl (fun t ht => .inr (herase t ht).2)
      rw [hne] at happ
      exact happ
    · obtain ⟨root, hroot, hu⟩ := buildRemovePathIterative_present h.wellFormed hne
      rw [hroot]
      exact h.applied_of_updates hu (fun t ht => .inr (herase t ht))

end

end

variable [DictionaryValue V] [CounterLeaf V]

section
variable (h : Reopened faultIn o)
include h

section
omit [DictionaryValue V] [CounterLeaf V]

theorem applied_publishDecoded (key : Bytes) (v : Option V) :
    Applied faultIn o (o.publishDecoded faultIn key v).1 key (setEntry (entryAt faultIn o.slot.node key) v) := by
  cases v with
  | none => exact h.applied_refl key
  | some v => exact applied_overlayPublishValueAny h key v

theorem overlayValueGet_of_reopened (key : Bytes) :
    o.overlayValueGet faultIn key = ((entryAt faultIn o.slot.node key).join, o) := by
  obtain ⟨found, hfound, hvalue⟩ := findLeafFaulting_of_resident h.resident key defaultMaxFaultinRetries
  rw [overlayValueGet, hfound, ← hvalue]
  cases found <;> rfl

end

theorem applied_accumulate {key : Bytes} (hkey : key ≠ []) (delta : Int64) :
    Applied faultIn o (o.accumulate faultIn key delta).1 key
      (accumulateEntry (entryAt faultIn o.slot.node key) delta.toInt) := by
  rw [accumulate, if_neg hkey, overlayValueGet_of_reopened h, accumulateEntry]
  dsimp only
  cases hcur : counterOf ((entryAt faultIn o.slot.node key).join) with
  | none => exact h.applied_refl key
  | some n => exact applied_publishDecoded h key _

/-- **A recovered operation updates the entry of its own key and nothing else.** -/
theorem entryAt_applyRecovered (op : RecoveredOperation) :
    Applied faultIn o (o.applyRecoveredOperationOverlay faultIn op).1 op.term
      (replayEntry op (entryAt faultIn o.slot.node op.term)) := by
  cases op with
  | insert lsn term value =>
    cases value with
    | none => exact applied_overlayPublishMembershipAny h term
    | some bytes => exact applied_publishDecoded h term _
  | remove lsn term => exact applied_overlayRemove h term
  | upsert lsn term bytes => exact applied_publishDecoded h term _
  | compareAndSwap lsn term bytes success =>
    cases success with
    | false => exact h.applied_refl term
    | true => exact applied_publishDecoded h term _
  | increment lsn term delta result =>
    cases result with
    | some r => exact applied_publishDecoded h term _
    | none =>
      by_cases hterm : term = []
      · subst hterm
        exact h.applied_refl []
      · have happ := applied_accumulate h hterm delta
        simp only [replayEntry, hterm, if_false]
        exact happ

/-- **A replay is the fold of the updates of its operations.** -/
theorem entryAt_drain (ops : List RecoveredOperation) :
    entryAt faultIn (o.drainIntoOverlay faultIn ops).slot.node = ops.foldl replayMap (entryAt faultIn o.slot.node) := by
  induction ops generalizing o with
  | nil => rfl
  | cons op ops ih =>
    have happ := entryAt_applyRecovered h op
    show entryAt faultIn (((o.applyRecoveredOperationOverlay faultIn op).1).drainIntoOverlay faultIn ops).slot.node = _
    rw [ih happ.reopened, happ.entry, foldl_cons, replayMap]

end

end Publishers

end Dictenstein.Overlay
