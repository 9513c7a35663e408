import Dictenstein.Frontier
import Dictenstein.Runs
import Dictenstein.WalFrame
/-!
# WalWriter — the log's writer, and the writer under concurrent calls

`core/wal/writer.rs`.  `WalWriter` holds the writer's atomics, the bytes of the active file after its 64-byte header and
the buffered handle on it.  The counters are natural numbers: nothing here depends on their wrapping at `2 ^ 64`.
-/
namespace Dictenstein.Wal

open Wire Option

structure WalHeader where
  magic : Bytes
  version : UInt32
  checkpointLsn : Nat
  commitSeqFloor : Nat
  rankRegime : UInt8
deriving DecidableEq

namespace WalHeader

def size : Nat := 64

/-- `PARTWAL\0`. -/
def stdMagic : Bytes := [80, 65, 82, 84, 87, 65, 76, 0]

def new : WalHeader := ⟨stdMagic, 2, 0, 0, 0⟩

end WalHeader

structure WalWriter where
  header : WalHeader
  /-- The bytes of the active file after the header. -/
  body : Bytes
  /-- Where the buffered handle will write next, counted from the end of the header, and what it has not yet written. -/
  cursor : Nat
  buffer : Bytes
  segmentNextOffset : Nat
  nextLsn : Nat
  syncedLsn : Nat
  /-- `segment_durable_lsn` with `segment_durable_pending`. -/
  segmentDurable : Frontier
  /-- `none` is `Lsn::MAX`: no positional write has failed. -/
  segmentFailedLsn : Option Nat

namespace WalWriter

def create : WalWriter where
  header := .new
  body := []
  cursor := 0
  buffer := []
  segmentNextOffset := WalHeader.size
  nextLsn := 1
  syncedLsn := 0
  segmentDurable := ⟨0, ∅⟩
  segmentFailedLsn := none

/-- The largest LSN the reader returns; the scan of `open` goes on past errors. -/
def lastLsn (body : Bytes) : Nat :=
  (records body).foldl (fun last result => match result with
    | .ok (lsn, _) => max last lsn.toNat
    | .error _ => last) 0

/-- `open`, on a file with a readable header; `maxSegmentLsn` is the largest LSN in the legacy segments. The file is not
cut: both handles are placed at its end. -/
def openFile (header : WalHeader) (body : Bytes) (maxSegmentLsn : Option Nat) : WalWriter :=
  let last := max (max (lastLsn body) (maxSegmentLsn.getD 0)) header.checkpointLsn
  { header, body
    cursor := body.length
    buffer := []
    segmentNextOffset := max (WalHeader.size + body.length) WalHeader.size
    nextLsn := last + 1
    syncedLsn := last
    segmentDurable := ⟨last, ∅⟩
    segmentFailedLsn := none }

variable (w : WalWriter)

def Opened : Prop := w = create ∨ ∃ header body maxSegmentLsn, w = openFile header body maxSegmentLsn

variable (lsn : Nat)

def frameAt (record : WalRecord UInt64) : Bytes := encodeRecordFrame (UInt64.ofNat lsn) record

/-- `append`: the next LSN, and the frame into the buffered handle. -/
def append (record : WalRecord UInt64) : WalWriter :=
  { w with nextLsn := w.nextLsn + 1, buffer := w.buffer ++ frameAt w.nextLsn record }

def flush : WalWriter :=
  { w with body := writeAt w.body w.cursor w.buffer, cursor := w.cursor + w.buffer.length, buffer := [] }

def sync : WalWriter :=
  let w := w.flush
  { w with syncedLsn := w.nextLsn - 1 }

def markSegmentDurable : WalWriter :=
  { w with segmentDurable := w.segmentDurable.mark lsn }

def markSegmentFailed : WalWriter :=
  { w with segmentFailedLsn := some (match w.segmentFailedLsn with
      | none => lsn
      | some f => min f lsn) }

def setMinLsn (minLsn : Nat) : WalWriter :=
  { w with nextLsn := max w.nextLsn minLsn }

/-- Raises the synced and the durable counters, and not what waits behind them. -/
def setMinSyncedLsn (minLsn : Nat) : WalWriter :=
  { w with
    syncedLsn := max w.syncedLsn minLsn
    segmentDurable := ⟨max w.segmentDurable.cur minLsn, w.segmentDurable.pending⟩ }

/-- The header goes to the front of the file and the buffered handle back to its end. -/
def writeCheckpointHeader (checkpointLsn : Nat) : WalWriter :=
  let w := w.flush
  { w with header := { w.header with checkpointLsn }, cursor := w.body.length }

def checkpoint (checkpointLsn : Nat) (timestamp : UInt64) : WalWriter :=
  ((w.append (.checkpoint (UInt64.ofNat checkpointLsn) timestamp)).sync).writeCheckpointHeader checkpointLsn

def truncate : WalWriter :=
  { w with
    header := { w.header with checkpointLsn := 0 }
    body := []
    cursor := 0
    buffer := []
    segmentNextOffset := WalHeader.size
    nextLsn := 1
    syncedLsn := 0
    segmentDurable := ⟨0, ∅⟩
    segmentFailedLsn := none }

/-- A fresh file, which carries the floor and the regime of the old header; the counters are stored back as they were
loaded before, and the frontier goes on. -/
def rotated (nextLsn syncedLsn : Nat) : WalWriter :=
  { w with
    header := { WalHeader.new with commitSeqFloor := w.header.commitSeqFloor, rankRegime := w.header.rankRegime }
    body := []
    cursor := 0
    buffer := []
    segmentNextOffset := WalHeader.size
    nextLsn
    syncedLsn }

def rotateToArchive : WalWriter :=
  let w := w.sync
  w.rotated w.nextLsn w.syncedLsn

/-- One turn of `wait_for_segment_durable_lsn`: `Ok`, an error, or around again. -/
def pollDurable : Option Bool :=
  if lsn ≤ w.segmentDurable.cur then some true
  else match w.segmentFailedLsn with
    | some failed => if failed ≤ lsn then some false else none
    | none => none

variable {w : WalWriter} {lsn : Nat}

theorem pollDurable_eq_true : w.pollDurable lsn = some true ↔ lsn ≤ w.segmentDurable.cur := by
  unfold pollDurable
  by_cases h : lsn ≤ w.segmentDurable.cur
  · simp [h]
  · simp only [h, if_false, iff_false]
    split
    · split <;> simp
    · simp

theorem failed_of_pollDurable (h : w.pollDurable lsn = some false) : w.segmentFailedLsn ≠ none := by
  unfold pollDurable at h
  split at h
  · cases h
  · split at h
    · rename_i hf
      simp [hf]
    · cases h

end WalWriter

/-! ## Calls in flight -/

structure Placed where
  lsn : Nat
  record : WalRecord UInt64
  offset : Nat
deriving DecidableEq

/-- Where a caller stands: between calls, in `append_record_segment`, in one of the two syncs, or in `rotate_to_archive`
behind its sync. -/
inductive Call where
  | idle
  | reserved (lsn : Nat) (record : WalRecord UInt64)
  | placed (p : Placed)
  | written (p : Placed)
  | fsynced (p : Placed)
  | waiting (p : Placed)
  | syncLoaded (currentLsn : Nat)
  | segmentsLoaded (durableLsn : Nat)
  | rotating (nextLsn syncedLsn : Nat)
deriving DecidableEq

structure WalState where
  writer : WalWriter
  calls : Nat → Call
  fileLock : Option Nat
  fsynced : List Placed
  acked : List Placed

inductive WalEvent where
  | reserve (t : Nat) (record : WalRecord UInt64)
  | place (t : Nat)
  | write (t : Nat)
  | fsync (t : Nat)
  | fail (t : Nat)
  | mark (t : Nat)
  | poll (t : Nat)
  | syncLoad (t : Nat)
  | syncStore (t : Nat)
  | segmentsLoad (t : Nat)
  | segmentsStore (t : Nat)
  | append (record : WalRecord UInt64)
  | setMinLsn (minLsn : Nat)
  | setMinSyncedLsn (minLsn : Nat)
  | checkpoint (checkpointLsn : Nat) (timestamp : UInt64)
  | truncate
  | rotateLoad (t : Nat)
  | rotateStore (t : Nat)

def WalEvent.caller : WalEvent → Option Nat
  | .reserve t _ | .place t | .write t | .fsync t | .fail t | .mark t | .poll t => some t
  | .syncLoad t | .syncStore t | .segmentsLoad t | .segmentsStore t | .rotateLoad t | .rotateStore t => some t
  | _ => none

namespace WalState

def start (writer : WalWriter) : WalState := ⟨writer, fun _ => .idle, none, [], []⟩

variable (s : WalState)

def setCall (t : Nat) (c : Call) : WalState := { s with calls := Function.update s.calls t c }

def setWriter (w : WalWriter) : WalState := { s with writer := w }

def locked (f : WalWriter → WalWriter) : Option WalState :=
  if s.fileLock = none then some (s.setWriter (f s.writer)) else none

def step? : WalEvent → Option WalState
  | .reserve t record => match s.calls t with
    | .idle => some ((s.setWriter { s.writer with nextLsn := s.writer.nextLsn + 1 }).setCall t
        (.reserved s.writer.nextLsn record))
    | _ => none
  | .place t => match s.calls t with
    | .reserved lsn record =>
      some ((s.setWriter { s.writer with
        segmentNextOffset := s.writer.segmentNextOffset + (WalWriter.frameAt lsn record).length }).setCall t
          (.placed ⟨lsn, record, s.writer.segmentNextOffset⟩))
    | _ => none
  | .write t => match s.calls t with
    | .placed p =>
      some ((s.setWriter { s.writer with
        body := writeAt s.writer.body (p.offset - WalHeader.size) (WalWriter.frameAt p.lsn p.record) }).setCall t
          (.written p))
    | _ => none
  | .fsync t => match s.calls t with
    | .written p => some { s.setCall t (.fsynced p) with fsynced := p :: s.fsynced }
    | _ => none
  | .fail t => match s.calls t with
    | .placed p | .written p => some ((s.setWriter (s.writer.markSegmentFailed p.lsn)).setCall t .idle)
    | _ => none
  | .mark t => match s.calls t with
    | .fsynced p => some ((s.setWriter (s.writer.markSegmentDurable p.lsn)).setCall t (.waiting p))
    | _ => none
  | .poll t => match s.calls t with
    | .waiting p => match s.writer.pollDurable p.lsn with
      | some true => some { s.setCall t .idle with acked := p :: s.acked }
      | some false => some (s.setCall t .idle)
      | none => some s
    | _ => none
  | .syncLoad t => match s.calls t with
    | .idle =>
      if s.fileLock = none then
        some ({ s with writer := s.writer.flush, fileLock := some t }.setCall t (.syncLoaded (s.writer.nextLsn - 1)))
      else none
    | _ => none
  | .syncStore t => match s.calls t with
    | .syncLoaded currentLsn =>
      some ({ s with writer := { s.writer with syncedLsn := currentLsn }, fileLock := none }.setCall t .idle)
    | _ => none
  | .segmentsLoad t => match s.calls t with
    | .idle => some (s.setCall t (.segmentsLoaded s.writer.segmentDurable.cur))
    | _ => none
  | .segmentsStore t => match s.calls t with
    | .segmentsLoaded durableLsn =>
      some ((s.setWriter { s.writer with syncedLsn := durableLsn }).setCall t .idle)
    | _ => none
  | .append record => s.locked (·.append record)
  | .setMinLsn minLsn => some (s.setWriter (s.writer.setMinLsn minLsn))
  | .setMinSyncedLsn minLsn => some (s.setWriter (s.writer.setMinSyncedLsn minLsn))
  | .checkpoint checkpointLsn timestamp => s.locked (·.checkpoint checkpointLsn timestamp)
  | .truncate => s.locked (·.truncate)
  | .rotateLoad t => match s.calls t with
    | .idle => some (s.setCall t (.rotating s.writer.nextLsn s.writer.syncedLsn))
    | _ => none
  | .rotateStore t => match s.calls t with
    | .rotating nextLsn syncedLsn =>
      if s.fileLock = none then some ((s.setWriter (s.writer.rotated nextLsn syncedLsn)).setCall t .idle) else none
    | _ => none

/-! ## What each step does

One equivalence for each event: when it is enabled and the state after it. -/

variable {s s' : WalState} {t : Nat}
variable {r : WalRecord UInt64}

theorem step_reserve : s.step? (.reserve t r) = some s' ↔
    s.calls t = .idle ∧ s' = (s.setWriter { s.writer with nextLsn := s.writer.nextLsn + 1 }).setCall t
      (.reserved s.writer.nextLsn r) := by
  cases h : s.calls t <;> simp [step?, h, eq_comm]

theorem step_place : s.step? (.place t) = some s' ↔ ∃ lsn r, s.calls t = .reserved lsn r ∧ s' = (s.setWriter { s.writer with
      segmentNextOffset := s.writer.segmentNextOffset + (WalWriter.frameAt lsn r).length }).setCall t
        (.placed ⟨lsn, r, s.writer.segmentNextOffset⟩) := by
  cases h : s.calls t <;> simp [step?, h, eq_comm]

theorem step_write : s.step? (.write t) = some s' ↔ ∃ p, s.calls t = .placed p ∧ s' = (s.setWriter { s.writer with
      body := writeAt s.writer.body (p.offset - WalHeader.size) (WalWriter.frameAt p.lsn p.record) }).setCall t
        (.written p) := by
  cases h : s.calls t <;> simp [step?, h, eq_comm]

theorem step_fsync : s.step? (.fsync t) = some s' ↔ ∃ p, s.calls t = .written p ∧
    s' = { s.setCall t (.fsynced p) with fsynced := p :: s.fsynced } := by
  cases h : s.calls t <;> simp [step?, h, eq_comm]

theorem step_fail : s.step? (.fail t) = some s' ↔ ∃ p, (s.calls t = .placed p ∨ s.calls t = .written p) ∧
    s' = (s.setWriter (s.writer.markSegmentFailed p.lsn)).setCall t .idle := by
  cases h : s.calls t <;> simp [step?, h, eq_comm]

theorem step_mark : s.step? (.mark t) = some s' ↔ ∃ p, s.calls t = .fsynced p ∧
    s' = (s.setWriter (s.writer.markSegmentDurable p.lsn)).setCall t (.waiting p) := by
  cases h : s.calls t <;> simp [step?, h, eq_comm]

theorem step_poll : s.step? (.poll t) = some s' ↔ ∃ p, s.calls t = .waiting p ∧
    (s.writer.pollDurable p.lsn = some true ∧ s' = { s.setCall t .idle with acked := p :: s.acked } ∨
      s.writer.pollDurable p.lsn = some false ∧ s' = s.setCall t .idle ∨
      s.writer.pollDurable p.lsn = none ∧ s' = s) := by
  cases h : s.calls t with
  | waiting p =>
    cases hp : s.writer.pollDurable p.lsn with
    | none => simp [step?, h, hp, eq_comm]
    | some b => cases b <;> simp [step?, h, hp, eq_comm]
  | _ => simp [step?, h]

theorem step_syncLoad : s.step? (.syncLoad t) = some s' ↔ s.calls t = .idle ∧ s.fileLock = none ∧
    s' = { s with writer := s.writer.flush, fileLock := some t }.setCall t
      (.syncLoaded (s.writer.nextLsn - 1)) := by
  cases h : s.calls t with
  | idle => by_cases hl : s.fileLock = none <;> simp [step?, h, hl, eq_comm]
  | _ => simp [step?, h]

theorem step_syncStore : s.step? (.syncStore t) = some s' ↔ ∃ v, s.calls t = .syncLoaded v ∧
    s' = { s with writer := { s.writer with syncedLsn := v }, fileLock := none }.setCall t .idle := by
  cases h : s.calls t <;> simp [step?, h, eq_comm]

theorem step_segmentsLoad : s.step? (.segmentsLoad t) = some s' ↔ s.calls t = .idle ∧
    s' = s.setCall t (.segmentsLoaded s.writer.segmentDurable.cur) := by
  cases h : s.calls t <;> simp [step?, h, eq_comm]

theorem step_segmentsStore : s.step? (.segmentsStore t) = some s' ↔ ∃ v, s.calls t = .segmentsLoaded v ∧
    s' = (s.setWriter { s.writer with syncedLsn := v }).setCall t .idle := by
  cases h : s.calls t <;> simp [step?, h, eq_comm]

theorem locked_eq_some {f : WalWriter → WalWriter} : s.locked f = some s' ↔ s.fileLock = none ∧
    s' = s.setWriter (f s.writer) := by
  by_cases h : s.fileLock = none <;> simp [locked, h, eq_comm]

theorem step_append : s.step? (.append r) = some s' ↔ s.fileLock = none ∧
    s' = s.setWriter (s.writer.append r) := locked_eq_some (f := (·.append r))

theorem step_checkpoint {c : Nat} {ts : UInt64} : s.step? (.checkpoint c ts) = some s' ↔ s.fileLock = none ∧
    s' = s.setWriter (s.writer.checkpoint c ts) := locked_eq_some (f := (·.checkpoint c ts))

theorem step_truncate : s.step? .truncate = some s' ↔ s.fileLock = none ∧ s' = s.setWriter s.writer.truncate :=
  locked_eq_some

theorem step_rotateLoad : s.step? (.rotateLoad t) = some s' ↔ s.calls t = .idle ∧
    s' = s.setCall t (.rotating s.writer.nextLsn s.writer.syncedLsn) := by
  cases h : s.calls t <;> simp [step?, h, eq_comm]

theorem step_rotateStore : s.step? (.rotateStore t) = some s' ↔ ∃ n m, s.calls t = .rotating n m ∧ s.fileLock = none ∧
    s' = (s.setWriter (s.writer.rotated n m)).setCall t .idle := by
  cases h : s.calls t with
  | rotating n m => by_cases hl : s.fileLock = none <;> simp [step?, h, hl, eq_comm]
  | _ => simp [step?, h]

theorem calls_of_caller_ne {e : WalEvent} (hstep : s.step? e = some s') (he : e.caller ≠ some t) :
    s'.calls t = s.calls t := by
  have hset : ∀ (s₁ : WalState) (u : Nat) (c : Call), s₁.calls = s.calls → some u ≠ some t →
      (s₁.setCall u c).calls t = s.calls t := by
    intro s₁ u c h hu
    have htu : t ≠ u := fun htu => hu (by rw [htu])
    simp only [setCall, Function.update_of_ne htu, h]
  cases e with
  | reserve u r => obtain ⟨-, rfl⟩ := step_reserve.1 hstep; exact hset _ u _ rfl he
  | place u => obtain ⟨_, _, -, rfl⟩ := step_place.1 hstep; exact hset _ u _ rfl he
  | write u => obtain ⟨_, -, rfl⟩ := step_write.1 hstep; exact hset _ u _ rfl he
  | fsync u => obtain ⟨_, -, rfl⟩ := step_fsync.1 hstep; exact hset s u _ rfl he
  | fail u => obtain ⟨_, -, rfl⟩ := step_fail.1 hstep; exact hset _ u _ rfl he
  | mark u => obtain ⟨_, -, rfl⟩ := step_mark.1 hstep; exact hset _ u _ rfl he
  | poll u =>
    obtain ⟨_, -, ⟨-, rfl⟩ | ⟨-, rfl⟩ | ⟨-, rfl⟩⟩ := step_poll.1 hstep
    · exact hset s u _ rfl he
    · exact hset s u _ rfl he
    · rfl
  | syncLoad u => obtain ⟨-, -, rfl⟩ := step_syncLoad.1 hstep; exact hset _ u _ rfl he
  | syncStore u => obtain ⟨_, -, rfl⟩ := step_syncStore.1 hstep; exact hset _ u _ rfl he
  | segmentsLoad u => obtain ⟨-, rfl⟩ := step_segmentsLoad.1 hstep; exact hset _ u _ rfl he
  | segmentsStore u => obtain ⟨_, -, rfl⟩ := step_segmentsStore.1 hstep; exact hset _ u _ rfl he
  | append _ => obtain ⟨-, rfl⟩ := step_append.1 hstep; rfl
  | setMinLsn | setMinSyncedLsn => obtain rfl := some.inj hstep; rfl
  | checkpoint _ _ => obtain ⟨-, rfl⟩ := step_checkpoint.1 hstep; rfl
  | truncate => obtain ⟨-, rfl⟩ := step_truncate.1 hstep; rfl
  | rotateLoad u => obtain ⟨-, rfl⟩ := step_rotateLoad.1 hstep; exact hset _ u _ rfl he
  | rotateStore u => obtain ⟨_, _, -, -, rfl⟩ := step_rotateStore.1 hstep; exact hset _ u _ rfl he

theorem run_calls_of_caller_ne {es : List WalEvent} (hrun : Runs.run step? es s = some s')
    (he : ∀ e ∈ es, e.caller ≠ some t) : s'.calls t = s.calls t :=
  Runs.invariant (C := fun _ e => e.caller ≠ some t) (I := fun m => m.calls t = s.calls t)
    (fun _ _ _ hm hok hi => (calls_of_caller_ne hm hok).trans hi) es s s' hrun
    (Runs.along_of_forall es s (fun e h _ => he e h)) rfl

end WalState

end Dictenstein.Wal
