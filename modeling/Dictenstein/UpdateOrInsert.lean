import Dictenstein.DurableWrite
import Dictenstein.RootCell
/-! # UpdateOrInsert — reading a value, updating it and writing it back

On a trie of sequences and on a shared char trie the value is read once, and the new value is published by a root-CAS that
retries without reading again: an update that another call has published in between is lost.  On a byte trie the publication
compares the value with the one read. -/

namespace Dictenstein.UpdateOrInsert

open Overlay OverlayNode RootCell Runs Function DictionaryValue Wire Option

variable {V ι : Type}

structure UpdateCall (V : Type) where
  defaultValue : V
  updateFn : V → V

def UpdateCall.apply (c : UpdateCall V) : Option V → V
  | some value => c.updateFn value
  | none => c.defaultValue

/-! ## `update_or_insert_sequence` -/

abbrev U64Node (V : Type) := OverlayNode UInt64 V

def inMemChild (n : U64Node V) (label : UInt64) : Option (U64Node V) :=
  match n.findChild label with
  | some (.inMem c) => some c
  | _ => none

-- the source panics on a child that is on disk: these tries are resident
def findNode : U64Node V → List UInt64 → Option (U64Node V)
  | n, [] => some n
  | n, label :: rest => (inMemChild n label).bind (findNode · rest)

def getSequenceValue (root : U64Node V) (sequence : List UInt64) : Option V :=
  (findNode root sequence).bind fun n => if n.isFinal then n.value else none

def terminal (n : U64Node V) : Option V → U64Node V
  | some value => n.asFinal.withValue value
  | none => n.asFinal

def buildInsertPath (value : Option V) : U64Node V → List UInt64 → Option (U64Node V × Bool)
  | n, [] => if n.isFinal && value.isNone then none else some (terminal n value, !n.isFinal)
  | n, label :: rest => match inMemChild n label with
    | some c => (buildInsertPath value c rest).map fun (c', inserted) => (n.withChild label (.inMem c'), inserted)
    | none => some (n.withChild label (.inMem (createSpine (terminal .new value) rest)), true)

-- the record is appended before the root is loaded; without a WAL writer there is none, and the append cannot fail
def updateOrInsertSequence (sequence : List UInt64) (call : ι → UpdateCall V) (i : ι) : Call (U64Node V) (Option V) where
  observe root := getSequenceValue root sequence
  probe _ _ := true
  attempt value root := match buildInsertPath (some ((call i).apply value)) root sequence with
    | some (new, _) => .go new
    | none => .finish

theorem inMemChild_withChild (n c : U64Node V) (label : UInt64) :
    inMemChild (n.withChild label (.inMem c)) label = some c := by
  simp [inMemChild, findChild_withChild]

-- a missing child is built as a path into a new node is
theorem buildInsertPath_cons (value : V) (n : U64Node V) (label : UInt64) (rest : List UInt64) :
    buildInsertPath (some value) n (label :: rest) = (buildInsertPath (some value) ((inMemChild n label).getD .new) rest).map
      fun out => (n.withChild label (.inMem out.1), out.2) := by
  rw [buildInsertPath]
  cases inMemChild n label with
  | some c => rfl
  | none => cases rest <;> rfl

theorem buildInsertPath_value (value : V) (root : U64Node V) (sequence : List UInt64) :
    ∃ out, buildInsertPath (some value) root sequence = some out ∧ getSequenceValue out.1 sequence = some value := by
  induction sequence generalizing root with
  | nil => exact ⟨_, by rw [buildInsertPath, isNone_some, Bool.and_false]; rfl, rfl⟩
  | cons label rest ih =>
    obtain ⟨out, hout, hvalue⟩ := ih ((inMemChild root label).getD .new)
    refine ⟨_, by rw [buildInsertPath_cons, hout]; rfl, ?_⟩
    simpa [getSequenceValue, findNode, inMemChild_withChild] using hvalue

/-- **No update is lost when every call publishes on the value it has read** and no append fails: the value is that of the
returned calls, applied once each in the order of their swaps; a call that is over is among them. -/
theorem updateOrInsertSequence_folds [DecidableEq ι] [DecidableEq V] (sequence : List UInt64) (call : ι → UpdateCall V)
    (root : U64Node V) {es : List (ι × Bool)} {s : Cell ι (U64Node V) (Option V)}
    (hrun : run (step? (updateOrInsertSequence sequence call)) es (start root) = some s)
    (hfresh : Along (step? (updateOrInsertSequence sequence call)) (fun s e => Fresh (updateOrInsertSequence sequence call)
      (current (updateOrInsertSequence sequence call)) false s e = true) es (start root)) :
    getSequenceValue s.root sequence = s.log.foldl (fun value e => some ((call e.1).apply value))
      (getSequenceValue root sequence) ∧
      (s.log.map Prod.fst).Nodup ∧ (∀ i, (s.phase i).ended = true → i ∈ s.log.map Prod.fst) ∧
      ∀ i ∈ s.log.map Prod.fst, (s.phase i).effected = true := by
  have hmeets : Meets (updateOrInsertSequence sequence call) (fun _ => True) (getSequenceValue · sequence)
      (fun _ value => value) (fun i value => some ((call i).apply value))
        (current (updateOrInsertSequence sequence call)) := by
    refine meets_of_go (fun _ _ _ => rfl) fun i value root _ => ?_
    obtain ⟨out, hout, hnew⟩ := buildInsertPath_value ((call i).apply value) root sequence
    exact ⟨out.1, by simp only [updateOrInsertSequence, hout], trivial, fun hvalue => by rw [hnew, hvalue]⟩
  have h := explained hmeets trivial hrun hfresh
  exact ⟨h.log.eq_foldl, h.nodup, fun _ => h.ended, fun i => (h.effected i).2⟩

def increments : Bool → UpdateCall Nat := fun _ => ⟨1, (· + 1)⟩

def zero : U64Node Nat := mk false none [(7, .inMem (mk true (some 0) []))]

def inTurn : List (Bool × Bool) := List.replicate 6 (false, true) ++ List.replicate 6 (true, true)

def interleaved : List (Bool × Bool) :=
  [false, true, false, true, false, true, false, false, false, true, true, true].map (·, true)

/-- Both calls read zero, and one of the two increments is lost. -/
theorem updateOrInsertSequence_loses_update :
    (run (step? (updateOrInsertSequence [7] increments)) interleaved (start zero)).map
      (fun s => (getSequenceValue s.root [7], s.log.map Prod.fst)) = some (some 1, [false, true]) := by
  decide +kernel

theorem updateOrInsertSequence_in_turn :
    ∃ s, run (step? (updateOrInsertSequence [7] increments)) inTurn (start zero) = some s ∧
      getSequenceValue s.root [7] = some 2 ∧ s.log = [(false, some 0), (true, some 1)] := by
  obtain ⟨s, hrun, hlog⟩ : ∃ s, run (step? (updateOrInsertSequence [7] increments)) inTurn (start zero) = some s ∧
      s.log = [(false, some 0), (true, some 1)] := ⟨_, rfl, rfl⟩
  refine ⟨s, hrun, ?_, hlog⟩
  rw [(updateOrInsertSequence_folds [7] increments zero hrun (by decide +kernel)).1, hlog]
  rfl

/-! ## `update_or_insert` of a shared char trie -/

inductive CharCall (V : Type) where
  | updateOrInsert (term : List UInt32) (c : UpdateCall V)
  -- an upsert, as both writes of `update_or_insert` are
  | insertWithValue (term : List UInt32) (value : V)

namespace CharCall

def term : CharCall V → List UInt32
  | updateOrInsert term _ => term
  | insertWithValue term _ => term

def apply : CharCall V → Option V → V
  | updateOrInsert _ c, value => c.apply value
  | insertWithValue _ value, _ => value

variable (m : List UInt32 → Option (Option V))

def read : CharCall V → Option V
  | updateOrInsert term _ => (m term).join
  | insertWithValue _ _ => none

def exec (c : CharCall V) : List UInt32 → Option (Option V) :=
  update m c.term (some (some (c.apply (c.read m))))

end CharCall

-- `write()` of the handle takes no lock; the presence probe of an upsert decides its return value only
def sharedCharCall (faultIn : FaultIn UInt32 V) (call : ι → CharCall V) (i : ι) :
    Call (OverlayNode UInt32 V) (Option V) where
  observe root := (call i).read (entryAt faultIn root)
  probe _ _ := true
  attempt value root := match buildValuePathIterative faultIn root (call i).term ((call i).apply value) with
    | .ok new => .go new
    | .error _ => .fail

/-- **The calls on a shared char trie are executed one at a time when every call publishes on the value it has read** and no
append fails, in the order of their swaps. That order respects real time: a call that is over before another one takes effect
comes before it. -/
theorem sharedCharCalls_fold [DecidableEq ι] [DecidableEq V] {faultIn : FaultIn UInt32 V} (call : ι → CharCall V)
    {root : OverlayNode UInt32 V} (hroot : WellFormed faultIn root) {es : List (ι × Bool)}
    {s : Cell ι (OverlayNode UInt32 V) (Option V)}
    (hrun : run (step? (sharedCharCall faultIn call)) es (start root) = some s)
    (hfresh : Along (step? (sharedCharCall faultIn call)) (fun s e => Fresh (sharedCharCall faultIn call)
      (current (sharedCharCall faultIn call)) false s e = true) es (start root)) :
    entryAt faultIn s.root = s.log.foldl (fun m e => (call e.1).exec m) (entryAt faultIn root) ∧
      (s.log.map Prod.fst).Nodup ∧ (∀ i, (s.phase i).ended = true → i ∈ s.log.map Prod.fst) ∧
      (∀ i ∈ s.log.map Prod.fst, (s.phase i).effected = true) ∧
      ∀ es₁ es₂ s₁ i j, es = es₁ ++ es₂ → run (step? (sharedCharCall faultIn call)) es₁ (start root) = some s₁ →
        (s₁.phase i).ended = true → (s₁.phase j).effected = false → j ∈ s.log.map Prod.fst →
        ∃ l₁ l₂ l₃, s.log.map Prod.fst = l₁ ++ i :: l₂ ++ j :: l₃ := by
  have hmeets : Meets (sharedCharCall faultIn call) (WellFormed faultIn) (entryAt faultIn) (fun i m => (call i).read m)
      (fun i m => (call i).exec m) (current (sharedCharCall faultIn call)) := by
    refine meets_of_go (fun _ _ _ => rfl) fun i value root hroot => ?_
    obtain ⟨new, hnew, hupdates⟩ := buildValuePathIterative_spec hroot (call i).term ((call i).apply value)
    refine ⟨new, by simp only [sharedCharCall, hnew], hupdates.wellFormed, fun hvalue => ?_⟩
    rw [hupdates.entry, CharCall.exec, hvalue]
  have h := explained hmeets hroot hrun hfresh
  refine ⟨h.log.eq_foldl, h.nodup, fun _ => h.ended, fun i => (h.effected i).2, ?_⟩
  rintro es₁ es₂ s₁ i j rfl hrun₁ hi hj hmem
  have h₁ := explained hmeets hroot hrun₁ (along_append es₁ _ _ hrun₁ hfresh).1
  obtain ⟨m, hm, hrun₂⟩ := run_append.1 hrun
  obtain rfl : m = s₁ := some.inj (hm.symm.trans hrun₁)
  exact h₁.order_of_calls hrun₂ ((h₁.effected i).2 (h₁.ended hi)) hj hmem

def noLoads : FaultIn UInt32 Nat := fun _ => .error (.internal "evicted")

def charIncrements : Bool → CharCall Nat := fun i => .updateOrInsert [97] (increments i)

/-- Both calls find the term absent, and one of the two increments is lost. -/
theorem sharedCharCalls_lose_update : (run (step? (sharedCharCall noLoads charIncrements)) interleaved (start .new)).map
      (fun s => (entryAt noLoads s.root [97], s.log.map Prod.fst)) = some (some (some 1), [false, true]) := by
  decide +kernel

theorem sharedCharCalls_in_turn : ∃ s, run (step? (sharedCharCall noLoads charIncrements)) inTurn (start .new) = some s ∧
      entryAt noLoads s.root [97] = some (some 2) ∧ s.log = [(false, none), (true, some 1)] := by
  obtain ⟨s, hrun, hlog⟩ : ∃ s, run (step? (sharedCharCall noLoads charIncrements)) inTurn (start .new) = some s ∧
      s.log = [(false, none), (true, some 1)] := ⟨_, rfl, rfl⟩
  refine ⟨s, hrun, ?_, hlog⟩
  rw [(sharedCharCalls_fold charIncrements wellFormed_new hrun (by decide +kernel)).1, hlog]
  rfl

/-! ## `update_or_insert_bytes` -/

section Bytes
variable [DictionaryValue V]

def updateOrInsertBytes (faultIn : FaultIn UInt8 V) (call : ι → Bytes × UpdateCall V) (i : ι) :
    Call (OverlayNode UInt8 V) (Option V) where
  observe root := valueRead root (call i).1
  probe value root := (valueRead root (call i).1).map serialize == value.map serialize
  attempt value root := match valueAttempt faultIn root (call i).1 ((call i).2.apply value)
      (.compareAndSwap (value.map serialize)) with
    | .publish new _ => .go new
    | .refuse _ => .restart
    | .fail _ => .fail

/-- The flag that is returned with an update of `value`. -/
def inserted (value : Option V) : Bool := value.isNone

/-- Nothing on the path of these keys is on disk, and none of them is present without a value. -/
structure Valued (faultIn : FaultIn UInt8 V) (keys : Bytes → Prop) (root : OverlayNode UInt8 V) : Prop where
  wellFormed : WellFormed faultIn root
  resident : ∀ key, keys key → residentOn root key = true
  valued : ∀ key, keys key → entryAt faultIn root key ≠ some none

omit [DictionaryValue V] in
theorem valueRead_eq {faultIn : FaultIn UInt8 V} {root : OverlayNode UInt8 V} {key : Bytes}
    (h : residentOn root key = true) :
    valueRead root key = (entryAt faultIn root key).join := by
  rw [entryAt_of_residentOn h, valueRead]
  cases findLeafIterative root key <;> rfl

theorem buildValuePath_of_attempt {faultIn : FaultIn UInt8 V} {root new : OverlayNode UInt8 V} {key : Bytes} {v : V}
    {mode : ValueWriteMode} {delta : Int} (h : valueAttempt faultIn root key v mode = .publish new delta) :
    buildValuePathIterative faultIn root key v = .ok new := by
  unfold valueAttempt valuePublication at h
  cases hbuild : buildValuePathIterative faultIn root key v with
  | error e =>
    rw [hbuild] at h
    split at h <;> cases h
  | ok built =>
    rw [hbuild] at h
    split at h <;> cases h
    rfl

theorem serialize_injective : Injective (serialize : V → Bytes) := fun v w h =>
  some.inj (by rw [← deserialize_serialize v, h, deserialize_serialize])

/-- **No update of a byte trie is lost**: the calls that take effect are executed one at a time in the order of their swaps,
and each reports a new key exactly when there was none. These are the calls that return, and those whose error comes from
behind the swap. -/
theorem updateOrInsertBytes_explained [DecidableEq ι] {faultIn : FaultIn UInt8 V} (call : ι → Bytes × UpdateCall V)
    {root : OverlayNode UInt8 V} (hroot : Valued faultIn (fun key => ∃ i, (call i).1 = key) root) {es : List (ι × Bool)}
    {s : Cell ι (OverlayNode UInt8 V) (Option V)}
    (hrun : run (step? (updateOrInsertBytes faultIn call)) es (start root) = some s) :
    Explains (fun i m => inserted (m (call i).1)) (fun i m => update m (call i).1 (some ((call i).2.apply (m (call i).1))))
        (fun key => (entryAt faultIn root key).join) (s.log.map fun e => (e.1, inserted e.2))
        (fun key => (entryAt faultIn s.root key).join) ∧
      (∀ i, entryAt faultIn s.root (call i).1 ≠ some none) ∧ (s.log.map Prod.fst).Nodup ∧
      ∀ i, s.phase i = .swapped ∨ s.phase i = .returned ∨ s.phase i = .unranked ↔ i ∈ s.log.map Prod.fst := by
  have hmeets : Meets (updateOrInsertBytes faultIn call) (Valued faultIn fun key => ∃ i, (call i).1 = key)
      (fun root key => (entryAt faultIn root key).join)
      (fun i m => m (call i).1) (fun i m => update m (call i).1 (some ((call i).2.apply (m (call i).1))))
        (fun _ _ _ => true) := by
    refine ⟨fun {i value root new} hroot _ hnew => ?_, fun {i value root} _ _ hfinish => ?_,
      fun {i value root} hroot hfail => ?_⟩
    · simp only [updateOrInsertBytes] at hnew
      split at hnew <;> cases hnew
      rename_i delta hattempt
      obtain ⟨hrefuses, hbuild, hupdates⟩ := valueAttempt_publish hroot.wellFormed hattempt
      have hread : (entryAt faultIn root (call i).1).join = value := by
        rw [← valueRead_eq (hroot.resident _ ⟨i, rfl⟩)]
        exact map_injective serialize_injective (by simpa [ValueWriteMode.refuses] using hrefuses)
      refine ⟨⟨hupdates.wellFormed, fun key hkey => ?_, fun key hkey => ?_⟩, hread, funext fun key => ?_⟩
      · exact residentOn_buildValuePath (buildValuePath_of_attempt hattempt) (hroot.resident key hkey)
      · rw [hupdates.entry, update_apply]
        split
        · simp
        · exact hroot.valued key hkey
      · simp only [hupdates.entry, update_apply, hread]
        split <;> rfl
    · simp only [updateOrInsertBytes] at hfinish
      split at hfinish <;> cases hfinish
    · obtain ⟨new, hnew, -⟩ := valuePublication_spec hroot.wellFormed (call i).1 ((call i).2.apply value)
      simp only [updateOrInsertBytes, valueAttempt, hnew] at hfail
      split at hfail <;> grind
  have hfresh : Along (step? (updateOrInsertBytes faultIn call)) (fun s e => Fresh (updateOrInsertBytes faultIn call)
      (fun _ _ _ => true) true s e = true) es (start root) := along_of_forall es _ fun e _ s => by
    unfold Fresh
    grind
  have h := explained hmeets hroot hrun hfresh
  refine ⟨h.log.map inserted, fun i => h.inv.valued _ ⟨i, rfl⟩, h.nodup, fun i => ?_⟩
  rw [← h.effected]
  cases s.phase i <;> simp [Phase.effected]

end Bytes

def evicted : FaultIn UInt8 UInt64 := fun _ => .error (.internal "evicted")

def byteIncrements : Bool → Bytes × UpdateCall UInt64 := fun _ => ([1], ⟨1, (· + 1)⟩)

/-- A key that is present without a value is reported as new. -/
theorem updateOrInsertBytes_reports_present : let root := mk false none [(1, .inMem (mk true none []))]
    entryAt evicted root [1] = some none ∧
      (run (step? (updateOrInsertBytes evicted byteIncrements)) (List.replicate 6 (true, true)) (start root)).map
        (fun s => s.log.map fun e => (e.1, inserted e.2)) = some [(true, true)] := by
  decide +kernel

/-- The second call finds the value changed, and reads again. -/
theorem updateOrInsertBytes_rereads :
    ∃ s, run (step? (updateOrInsertBytes evicted byteIncrements)) (interleaved ++ List.replicate 4 (true, true))
      (start .new) =
      some s ∧ s.log = [(false, none), (true, some 1)] ∧ (entryAt evicted s.root [1]).join = some 2 := by
  obtain ⟨s, hrun, hlog⟩ := map_eq_some_iff.1 (show (run (step? (updateOrInsertBytes evicted byteIncrements))
    (interleaved ++ List.replicate 4 (true, true)) (start .new)).map (·.log) =
      some [(false, none), (true, some 1)] by decide +kernel)
  have h := (updateOrInsertBytes_explained byteIncrements ⟨wellFormed_new, fun key _ => residentOn_new key, by simp⟩ hrun).1
  rw [hlog] at h
  exact ⟨s, hrun, hlog, (congrFun h.eq_foldl [1]).trans rfl⟩

end Dictenstein.UpdateOrInsert
