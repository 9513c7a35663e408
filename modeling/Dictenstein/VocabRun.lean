import Dictenstein.VocabTrie
import Dictenstein.DurableWrite
import Dictenstein.Runs
/-!
# VocabRun — a persistent vocabulary, its calls, checkpoints and crashes

`PersistentVocabARTrie` gives every term an id.  `insert` takes the next id of a counter, `insert_with_index` the id it is
asked for.
-/
namespace Dictenstein.Vocab

open Function

open Overlay (OverlayNode markCommitted)
open Runs

variable {U ι : Type}

/-! ## Disk and memory -/

inductive VocabRecord (U : Type) where
  | insert (term : List U) (id : Nat)
  | commitRank (dataLsn : Nat) (term : List U) (generation : Nat)
  | checkpoint (checkpointLsn : Nat)

/-- `VocabTrieFileHeader` with the image that `root_ptr` leads to. -/
structure Header (U : Type) where
  image : VocabNode U
  entryCount : Nat
  checkpointLsn : Nat
  startIndex : Nat
  nextIndex : Nat

structure Disk (U : Type) where
  header : Header U
  wal : List (Nat × VocabRecord U)

/-- What `PersistentVocabARTrie` keeps in memory. `revision` counts the publications of the root and stands for the address
that is compared. -/
structure Memory (U : Type) where
  startIndex : Nat
  nextIndex : Nat
  root : VocabNode U
  termCount : Nat
  revision : Nat
  cache : List U → Option Nat
  reverse : Nat → Option (List U)
  entryCount : Nat
  dirty : Bool
  commitSeq : Nat
  watermark : Frontier
  nextLsn : Nat

section
variable [LinearOrder U]

def Memory.getIndexLockfree (m : Memory U) (term : List U) : Option Nat :=
  match m.cache term with
  | some id => some id
  | none => findInLockfreeTrie m.root term

/-! ## Opening -/

section
variable (d : Disk U)

def Disk.tail : List (Nat × VocabRecord U) := d.wal.filter (·.1 > d.header.checkpointLsn)

def Disk.pending : List (Nat × List U × Nat) :=
  d.tail.filterMap fun
    | (lsn, .insert term id) => some (lsn, term, id)
    | _ => none

def Disk.ranked : List Nat :=
  d.tail.filterMap fun
    | (_, .commitRank dataLsn _ _) => some dataLsn
    | _ => none

def Disk.maxGeneration : Nat :=
  d.tail.foldl (fun acc e => match e.2 with
    | .commitRank _ _ generation => max acc generation
    | _ => acc) 0

/-- The inserts that have a `CommitRank`; the others never committed. -/
def Disk.replayed : List (List U × Nat) :=
  (d.pending.filter (·.1 ∈ d.ranked)).map Prod.snd

/-- `reestablish_overlay_from_image`: the overlay and the reverse map of the image. -/
def reestablishReverse (image : VocabNode U) : Nat → Option (List U) :=
  let terms := enumerateOverlayTerms image
  let reverse : Nat → Option (List U) := terms.1.foldl (fun reverse e => match e.2 with
    | some id => update reverse id (some e.1)
    | none => reverse) fun _ => none
  match terms.2 with
  | some (some id) => update reverse id (some [])
  | _ => reverse

/-- `open_snapshot`.  `set_min_lsn` keeps the next LSN above the checkpoint's. -/
def openSnapshot : Memory U where
  startIndex := d.header.startIndex
  nextIndex := d.header.nextIndex
  root := reestablishRoot d.header.image
  termCount := overlayCountFinals (reestablishRoot d.header.image)
  revision := 0
  cache := fun _ => none
  reverse := reestablishReverse d.header.image
  entryCount := d.header.entryCount
  dirty := false
  commitSeq := 0
  watermark := ⟨0, ∅⟩
  nextLsn := d.wal.foldl (fun next e => max next (e.1 + 1)) (d.header.checkpointLsn + 1)

section
variable (m : Memory U)

/-- One ranked insert of the replay; a term that is there is left. -/
def replayInsert (e : List U × Nat) : Except (VocabPathInsertError U) (Memory U) :=
  match m.getIndexLockfree e.1 with
  | some _ => .ok m
  | none => match tryInsertLockfreePath e.2 0 m.root e.1 with
    | .ok root => .ok { m with
        root, termCount := m.termCount + 1, revision := m.revision + 1, cache := update m.cache e.1 (some e.2)
        reverse := update m.reverse e.2 (some e.1), entryCount := m.entryCount + 1 }
    -- `overlay_publish_value` takes a term that exists for published
    | .error (.alreadyExists _) => .ok { m with
        reverse := update m.reverse e.2 (some e.1), entryCount := m.entryCount + 1 }
    | .error e => .error e

/-- The floors that the end of the replay restores, and the flag that `open_with_recovery` sets after it. -/
def Memory.restoreFloors : Memory U :=
  let maxId := d.replayed.foldl (fun acc e => max acc e.2) 0
  { m with
    nextIndex := if maxId > 0 then max m.nextIndex ((maxId + 1) % 2 ^ 64) else m.nextIndex
    commitSeq := max m.commitSeq d.maxGeneration
    nextLsn := d.tail.foldl (fun next e => max next (e.1 + 1)) m.nextLsn
    dirty := m.dirty || !d.pending.isEmpty }

def replayWalIntoOverlayRankAware : Except (VocabPathInsertError U) (Memory U) :=
  (d.replayed.foldlM replayInsert m).map (Memory.restoreFloors d)

end

def openWithRecovery : Except (VocabPathInsertError U) (Memory U) :=
  replayWalIntoOverlayRankAware d (openSnapshot d)

end

end

/-! ## Calls -/

inductive VocabError (U : Type) where
  | belowStartIndex (index startIndex : Nat)
  | termHasOtherIndex (term : List U) (existing index : Nat)
  | indexTaken (index : Nat) (term : List U)
  | path (error : VocabPathInsertError U)
deriving DecidableEq

inductive Outcome (U : Type) where
  | inserted (term : List U) (id : Nat)
  | insertedWithIndex (term : List U) (index : Nat) (newly : Bool)
  | failed (error : VocabError U)
deriving DecidableEq

inductive Kind where
  | insert
  | insertWithIndex
deriving DecidableEq

structure Req (U : Type) where
  kind : Kind
  term : List U
  index : Nat

inductive Stage (U : Type) where
  | hoist
  | append
  | publish (lsn : Nat)
  -- the compare-and-swap has the revision it expects, and the root and the count that it publishes
  | swap (lsn generation revision : Nat) (root : VocabNode U) (termCount : Nat)
  | cache (lsn generation : Nat)
  | rank (lsn generation : Nat)
  | mark (lsn rankLsn : Nat)
  | burn (lsn : Nat)

inductive Phase (U : Type) where
  | idle
  | insert (term : List U)
  | allocate (term : List U)
  | insertWithIndex (term : List U) (index : Nat)
  | checkReverse (term : List U) (index : Nat)
  | durable (req : Req U) (stage : Stage U)
  | mirror (req : Req U)
  | raise (req : Req U)
  | relook (term : List U) (index : Nat)
  | returning (outcome : Outcome U)

structure VocabSystem (U ι : Type) where
  mem : Memory U
  disk : Disk U
  calls : ι → Phase U
  returned : List (Outcome U)

inductive VocabEvent (U ι : Type) where
  | insert (t : ι) (term : List U)
  | insertWithIndex (t : ι) (term : List U) (index : Nat)
  | advance (t : ι)
  | ret (t : ι)
  | checkpoint (t : ι)
  | crash

def Req.notNewly (req : Req U) : Phase U :=
  match req.kind with
  | .insert => .relook req.term req.index
  | .insertWithIndex => .returning (.insertedWithIndex req.term req.index false)

namespace VocabSystem

def create (startIndex : Nat) : VocabSystem U ι where
  mem := ⟨startIndex, startIndex, .new, 0, 0, fun _ => none, fun _ => none, 0, false, 0, ⟨0, ∅⟩, 1⟩
  disk := ⟨⟨.new, 0, 0, startIndex, startIndex⟩, []⟩
  calls := fun _ => .idle
  returned := []

variable [DecidableEq ι]

section
variable (s : VocabSystem U ι)

def goto (t : ι) (p : Phase U) : VocabSystem U ι := { s with calls := update s.calls t p }

def append (record : VocabRecord U) : VocabSystem U ι :=
  { s with
    mem := { s.mem with nextLsn := s.mem.nextLsn + 1 }
    disk := { s.disk with wal := s.disk.wal ++ [(s.mem.nextLsn, record)] } }

def mark (lsn : Nat) : VocabSystem U ι :=
  { s with mem := { s.mem with watermark := markCommitted lsn s.mem.watermark } }

end

variable [LinearOrder U]

section
variable (s : VocabSystem U ι)

def durableStep (t : ι) (req : Req U) : Stage U → VocabSystem U ι
  | .hoist =>
    if (findInLockfreeTrie s.mem.root req.term).isSome then s.goto t req.notNewly else s.goto t (.durable req .append)
  | .append => (s.append (.insert req.term req.index)).goto t (.durable req (.publish s.mem.nextLsn))
  -- loads the root, claims a generation, looks for the term and builds the new root
  | .publish lsn =>
    let generation := s.mem.commitSeq + 1
    let s := { s with mem := { s.mem with commitSeq := generation } }
    if (findInLockfreeTrie s.mem.root req.term).isSome then s.goto t (.durable req (.burn lsn))
    else match tryInsertLockfreePath req.index 0 s.mem.root req.term with
      | .ok root => s.goto t (.durable req (.swap lsn generation s.mem.revision root (s.mem.termCount + 1)))
      | .error (.alreadyExists _) => s.goto t (.durable req (.burn lsn))
      | .error e => s.goto t (.returning (.failed (.path e)))
  | .swap lsn generation revision root termCount =>
    if s.mem.revision = revision then
      { s with mem := { s.mem with root, termCount, revision := revision + 1 } }.goto t
        (.durable req (.cache lsn generation))
    else s.goto t (.durable req (.publish lsn))
  | .cache lsn generation =>
    { s with mem := { s.mem with cache := update s.mem.cache req.term (some req.index) } }.goto t
      (.durable req (.rank lsn generation))
  | .rank lsn generation =>
    (s.append (.commitRank lsn req.term generation)).goto t (.durable req (.mark lsn s.mem.nextLsn))
  | .mark lsn rankLsn => ((s.mark lsn).mark rankLsn).goto t (.mirror req)
  | .burn lsn => (s.mark lsn).goto t req.notNewly

def advance (t : ι) : Phase U → Option (VocabSystem U ι)
  | .insert term => match s.mem.getIndexLockfree term with
    | some id => some (s.goto t (.returning (.inserted term id)))
    | none => some (s.goto t (.allocate term))
  | .allocate term => some ({ s with mem := { s.mem with nextIndex := (s.mem.nextIndex + 1) % 2 ^ 64 } }.goto t
      (.durable ⟨.insert, term, s.mem.nextIndex⟩ .hoist))
  | .insertWithIndex term index =>
    if index < s.mem.startIndex then some (s.goto t (.returning (.failed (.belowStartIndex index s.mem.startIndex))))
    else match s.mem.getIndexLockfree term with
      | some existing =>
        if existing = index then some (s.goto t (.returning (.insertedWithIndex term index false)))
        else some (s.goto t (.returning (.failed (.termHasOtherIndex term existing index))))
      | none => some (s.goto t (.checkReverse term index))
  | .checkReverse term index => match s.mem.reverse index with
    | some other =>
      if other ≠ term then some (s.goto t (.returning (.failed (.indexTaken index other))))
      else some (s.goto t (.durable ⟨.insertWithIndex, term, index⟩ .hoist))
    | none => some (s.goto t (.durable ⟨.insertWithIndex, term, index⟩ .hoist))
  | .durable req stage => some (s.durableStep t req stage)
  | .mirror req =>
    let mem := { s.mem with
      reverse := update s.mem.reverse req.index (some req.term), entryCount := s.mem.entryCount + 1 }
    match req.kind with
    | .insert => some ({ s with mem := { mem with dirty := true } }.goto t (.returning (.inserted req.term req.index)))
    | .insertWithIndex => some ({ s with mem }.goto t (.raise req))
  | .raise req => some ({ s with mem := { s.mem with
      nextIndex := max s.mem.nextIndex ((req.index + 1) % 2 ^ 64), dirty := true } }.goto t
      (.returning (.insertedWithIndex req.term req.index true)))
  | .relook term index => some (s.goto t (.returning (.inserted term ((s.mem.getIndexLockfree term).getD index))))
  | .idle | .returning _ => none

/-- `checkpoint_overlay`: the watermark, the root and its count, the header, the `Checkpoint` record. -/
def checkpointOverlay : VocabSystem U ι :=
  if !s.mem.dirty ∧ s.mem.entryCount = 0 then s
  else
    let checkpointLsn := s.mem.watermark.cur
    let header : Header U := ⟨if s.mem.termCount > 0 then s.mem.root else .new, s.mem.termCount, checkpointLsn,
      s.mem.startIndex, s.mem.nextIndex⟩
    let s := ({ s with disk := { s.disk with header } }.append (.checkpoint checkpointLsn)).mark s.mem.nextLsn
    { s with mem := { s.mem with dirty := false } }

def step? : VocabEvent U ι → Option (VocabSystem U ι)
  | .insert t term => match s.calls t with
    | .idle => some (s.goto t (.insert term))
    | _ => none
  | .insertWithIndex t term index => match s.calls t with
    | .idle => some (s.goto t (.insertWithIndex term index))
    | _ => none
  | .advance t => s.advance t (s.calls t)
  | .ret t => match s.calls t with
    | .returning outcome => some { s.goto t .idle with returned := s.returned ++ [outcome] }
    | _ => none
  | .checkpoint t => match s.calls t with
    | .idle => some s.checkpointOverlay
    | _ => none
  -- a crash and `open_with_recovery`
  | .crash => match openWithRecovery s.disk with
    | .ok mem => some { s with mem, calls := fun _ => .idle }
    | .error _ => none

def getIndex (term : List U) : Option Nat := s.mem.getIndexLockfree term

end

end VocabSystem

def VocabSystem.getTerm (s : VocabSystem U ι) (index : Nat) : Option (List U) := s.mem.reverse index

def VocabSystem.len (s : VocabSystem U ι) : Nat := s.mem.termCount

/-! ## What a step does

One case for each way a call moves on, and one for each event.  The invariants split these cases and no step function. -/

namespace VocabSystem

variable [DecidableEq ι] [LinearOrder U] {s s' : VocabSystem U ι} {t : ι}

inductive Advances (s : VocabSystem U ι) (t : ι) : Phase U → VocabSystem U ι → Prop
  | found {term : List U} {id : Nat} (hget : s.mem.getIndexLockfree term = some id) :
    Advances s t (.insert term) (s.goto t (.returning (.inserted term id)))
  | absent {term : List U} (hget : s.mem.getIndexLockfree term = none) :
    Advances s t (.insert term) (s.goto t (.allocate term))
  | allocated {term : List U} : Advances s t (.allocate term)
    ({ s with mem := { s.mem with nextIndex := (s.mem.nextIndex + 1) % 2 ^ 64 } }.goto t
      (.durable ⟨.insert, term, s.mem.nextIndex⟩ .hoist))
  | below {term : List U} {index : Nat} (hlt : index < s.mem.startIndex) :
    Advances s t (.insertWithIndex term index) (s.goto t (.returning (.failed (.belowStartIndex index s.mem.startIndex))))
  | sameIndex {term : List U} {index : Nat} (hget : s.mem.getIndexLockfree term = some index) :
    Advances s t (.insertWithIndex term index) (s.goto t (.returning (.insertedWithIndex term index false)))
  | otherIndex {term : List U} {index existing : Nat} (hget : s.mem.getIndexLockfree term = some existing)
    (hne : existing ≠ index) :
    Advances s t (.insertWithIndex term index) (s.goto t (.returning (.failed (.termHasOtherIndex term existing index))))
  | noIndex {term : List U} {index : Nat} (hget : s.mem.getIndexLockfree term = none) :
    Advances s t (.insertWithIndex term index) (s.goto t (.checkReverse term index))
  | taken {term other : List U} {index : Nat} (hrev : s.mem.reverse index = some other) (hne : other ≠ term) :
    Advances s t (.checkReverse term index) (s.goto t (.returning (.failed (.indexTaken index other))))
  | free {term : List U} {index : Nat} (hrev : ∀ other, s.mem.reverse index = some other → other = term) :
    Advances s t (.checkReverse term index) (s.goto t (.durable ⟨.insertWithIndex, term, index⟩ .hoist))
  | durable {req : Req U} {stage : Stage U} : Advances s t (.durable req stage) (s.durableStep t req stage)
  | mirroredInsert {req : Req U} (hkind : req.kind = .insert) : Advances s t (.mirror req)
    ({ s with mem := { s.mem with
        reverse := update s.mem.reverse req.index (some req.term), entryCount := s.mem.entryCount + 1
        dirty := true } }.goto t (.returning (.inserted req.term req.index)))
  | mirrored {req : Req U} (hkind : req.kind = .insertWithIndex) : Advances s t (.mirror req)
    ({ s with mem := { s.mem with
        reverse := update s.mem.reverse req.index (some req.term)
        entryCount := s.mem.entryCount + 1 } }.goto t (.raise req))
  | raised {req : Req U} : Advances s t (.raise req)
    ({ s with mem := { s.mem with
        nextIndex := max s.mem.nextIndex ((req.index + 1) % 2 ^ 64), dirty := true } }.goto t
      (.returning (.insertedWithIndex req.term req.index true)))
  | relooked {term : List U} {index : Nat} : Advances s t (.relook term index)
    (s.goto t (.returning (.inserted term ((s.mem.getIndexLockfree term).getD index))))

theorem advances {p : Phase U} (hs : s.advance t p = some s') : Advances s t p s' := by
  cases p with
  | idle | returning => cases hs
  | insert term =>
    rw [advance] at hs
    split at hs
    · rename_i hget
      cases hs
      exact .found hget
    · rename_i hget
      cases hs
      exact .absent hget
  | allocate term =>
    cases hs
    exact .allocated
  | insertWithIndex term index =>
    rw [advance] at hs
    split at hs
    · rename_i hlt
      cases hs
      exact .below hlt
    · split at hs
      · rename_i existing hget
        split at hs
        · rename_i hsame
          cases hs
          exact .sameIndex (hsame ▸ hget)
        · rename_i hne
          cases hs
          exact .otherIndex hget hne
      · rename_i hget
        cases hs
        exact .noIndex hget
  | checkReverse term index =>
    rw [advance] at hs
    split at hs
    · rename_i other hrev
      split at hs
      · rename_i hne
        cases hs
        exact .taken hrev hne
      · rename_i hsame
        cases hs
        refine .free fun other' h => ?_
        rw [hrev] at h
        rw [← Option.some.inj h]
        exact not_not.1 hsame
    · rename_i hrev
      cases hs
      refine .free fun other h => ?_
      rw [hrev] at h
      cases h
  | durable req stage =>
    cases hs
    exact .durable
  | mirror req =>
    simp only [advance] at hs
    split at hs
    · rename_i hkind
      cases hs
      exact .mirroredInsert hkind
    · rename_i hkind
      cases hs
      exact .mirrored hkind
  | raise req =>
    cases hs
    exact .raised
  | relook term index =>
    cases hs
    exact .relooked

inductive Steps (s : VocabSystem U ι) : VocabEvent U ι → VocabSystem U ι → Prop
  | insert {t : ι} {term : List U} (ht : s.calls t = .idle) : Steps s (.insert t term) (s.goto t (.insert term))
  | insertWithIndex {t : ι} {term : List U} {index : Nat} (ht : s.calls t = .idle) :
    Steps s (.insertWithIndex t term index) (s.goto t (.insertWithIndex term index))
  | advance {t : ι} {s' : VocabSystem U ι} (hs : s.advance t (s.calls t) = some s') : Steps s (.advance t) s'
  | ret {t : ι} {outcome : Outcome U} (ht : s.calls t = .returning outcome) :
    Steps s (.ret t) { s.goto t .idle with returned := s.returned ++ [outcome] }
  | checkpoint {t : ι} (ht : s.calls t = .idle) : Steps s (.checkpoint t) s.checkpointOverlay
  | crash {m : Memory U} (hopen : openWithRecovery s.disk = .ok m) :
    Steps s .crash { s with mem := m, calls := fun _ => .idle }

theorem steps {e : VocabEvent U ι} (hs : s.step? e = some s') : Steps s e s' := by
  cases e with
  | advance t => exact .advance hs
  | insert t term =>
    simp only [step?] at hs
    split at hs
    · rename_i ht
      cases hs
      exact .insert ht
    · cases hs
  | insertWithIndex t term index =>
    simp only [step?] at hs
    split at hs
    · rename_i ht
      cases hs
      exact .insertWithIndex ht
    · cases hs
  | ret t =>
    simp only [step?] at hs
    split at hs
    · rename_i outcome ht
      cases hs
      exact .ret ht
    · cases hs
  | checkpoint t =>
    simp only [step?] at hs
    split at hs
    · rename_i ht
      cases hs
      exact .checkpoint ht
    · cases hs
  | crash =>
    simp only [step?] at hs
    split at hs
    · rename_i m hopen
      cases hs
      exact .crash hopen
    · cases hs

section
omit [DecidableEq ι] [LinearOrder U]

theorem checkpointOverlay_calls (s : VocabSystem U ι) : s.checkpointOverlay.calls = s.calls := by
  unfold checkpointOverlay
  split <;> rfl

theorem checkpointOverlay_returned (s : VocabSystem U ι) : s.checkpointOverlay.returned = s.returned := by
  unfold checkpointOverlay
  split <;> rfl

end

end VocabSystem

end Dictenstein.Vocab
