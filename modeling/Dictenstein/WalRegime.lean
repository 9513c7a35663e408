import Dictenstein.Recovery
import Dictenstein.WalReopen
/-!
# WalRegime — the header on disk: magic, rank regime and commit-sequence floor

`core/wal/header.rs` and the operations of `core/wal/writer.rs` that write the header.  A log of the overlay regime has a
magic of its own, so that a reader that does not know the regime refuses the file.
-/
namespace Dictenstein.Wal

open Wire Recovery Runs List WalHeader

def regimeOfU8 : UInt8 → RankRegime
  | 1 => .overlay
  | _ => .owned

def regimeToU8 : RankRegime → UInt8
  | .owned => 0
  | .overlay => 1

namespace WalHeader

/-- `MAGIC_OVERLAY`, `PARTWALO`. -/
def overlayMagic : Bytes := [80, 65, 82, 84, 87, 65, 76, 79]

def currentVersion : Nat := 2

def minSupportedVersion : Nat := 1

def regime (h : WalHeader) : RankRegime := regimeOfU8 h.rankRegime

/-- The reserved bytes are zero in every header this code makes. -/
def toBytes (h : WalHeader) : Bytes :=
  h.magic ++ (leBytes 4 h.version.toNat ++ (leBytes 8 h.checkpointLsn ++ (leBytes 8 h.commitSeqFloor ++
    (h.rankRegime :: List.replicate 35 0))))

def fromBytes (buf : Bytes) : Except WalError WalHeader :=
  let magic := buf.take 8
  if magic ≠ stdMagic ∧ magic ≠ overlayMagic then .error (.corruptedRecord "Invalid WAL magic number")
  else
    let version := leVal ((buf.drop 8).take 4)
    if ¬ (minSupportedVersion ≤ version ∧ version ≤ currentVersion) then
      .error (.corruptedRecord
        s!"Unsupported WAL version: {version} (supported range {minSupportedVersion}..={currentVersion})")
    else .ok {
      magic
      version := UInt32.ofNat version
      checkpointLsn := leVal ((buf.drop 12).take 8)
      commitSeqFloor := leVal ((buf.drop 20).take 8)
      rankRegime := (buf.drop 28).headD 0 }

end WalHeader

inductive LogError where
  | wal (error : WalError)
  | alreadyExists
  | invalidRegimeStamp (message : String)
deriving DecidableEq, Repr

/-- The active log: the header bytes on disk and the writer on the file. -/
structure LogFile where
  headerBytes : Bytes
  writer : WalWriter

namespace LogFile

/-- A file whose header has just been written from the writer's. -/
def persisted (w : WalWriter) : LogFile := ⟨w.header.toBytes, w⟩

def create : LogFile := persisted .create

variable (f : LogFile)

/-- `open` by another process; `closed` says whether the last one flushed what it had buffered. -/
def openLog (closed : Bool) (maxSegmentLsn : Option Nat) : Except LogError LogFile :=
  match fromBytes f.headerBytes with
  | .error e => .error (.wal e)
  | .ok header =>
    let body := if closed then f.writer.flush.body else f.writer.body
    .ok ⟨f.headerBytes, .openFile header body maxSegmentLsn⟩

/-- The header is changed and written to the front of the file, and the buffered handle put back to the end. -/
def writeHeader (header : WalHeader) : LogFile :=
  let w := f.writer.flush
  persisted { w with header, cursor := w.body.length }

def setCommitSeqFloor (floor : UInt64) : LogFile :=
  let header := f.writer.header
  if floor.toNat ≤ header.commitSeqFloor then f
  else f.writeHeader { header with commitSeqFloor := floor.toNat }

def isEmptyAfterHeader : Bool := f.writer.nextLsn == 1

/-- `records_empty_on_disk`, which flushes the buffered handle first. -/
def recordsEmptyOnDisk : Bool × LogFile :=
  let f := { f with writer := f.writer.flush }
  (f.writer.body.isEmpty, f)

/-- The regime is set, with its magic, unless it is set already. -/
def stamp (magic : Bytes) (regime : RankRegime) : LogFile :=
  let header := f.writer.header
  if header.rankRegime = regimeToU8 regime then f
  else f.writeHeader { header with magic, rankRegime := regimeToU8 regime }

/-- The check on the LSN counter that `set_overlay_regime` and `set_owned_regime` make before they stamp. -/
def stampIfEmpty (message : String) (magic : Bytes) (regime : RankRegime) :
    Except LogError Unit × LogFile :=
  if f.isEmptyAfterHeader then (.ok (), f.stamp magic regime) else (.error (.invalidRegimeStamp message), f)

def setOverlayRegime : Except LogError Unit × LogFile :=
  f.stampIfEmpty ("set_overlay_regime on a non-empty WAL (records already appended); " ++
    "the non-empty Owned→Overlay transition requires a rotation") overlayMagic .overlay

def setOwnedRegime : Except LogError Unit × LogFile :=
  f.stampIfEmpty ("set_owned_regime on a non-empty WAL (records already appended); " ++
    "the non-empty Overlay→Owned transition requires a rotation") stdMagic .owned

def setOverlayRegimeRecordsEmpty : Except LogError Unit × LogFile :=
  let (empty, f) := f.recordsEmptyOnDisk
  if empty then (.ok (), f.stamp overlayMagic .overlay)
  else (.error (.invalidRegimeStamp ("set_overlay_regime_records_empty on a WAL that carries records on disk; " ++
    "the non-empty Owned→Overlay transition requires a rotation")), f)

def checkpoint (checkpointLsn : UInt64) (timestamp : UInt64) : LogFile :=
  persisted (f.writer.checkpoint checkpointLsn.toNat timestamp)

def truncate : LogFile := persisted f.writer.truncate

def rotateToArchive : LogFile := persisted f.writer.rotateToArchive

def rotateAndRestampOverlay : Except LogError Unit × LogFile :=
  let (empty, f) := f.rotateToArchive.recordsEmptyOnDisk
  if empty then
    let carriedFloor := f.writer.header.commitSeqFloor
    let f := f.writeHeader
      { f.writer.header with magic := overlayMagic, rankRegime := regimeToU8 .overlay }
    (.ok (), f.setCommitSeqFloor (UInt64.ofNat carriedFloor))
  else (.error (.invalidRegimeStamp ("rotate_and_restamp_overlay: fresh active is not records-empty after rotate " ++
    "(records appended concurrently?); refusing the Overlay stamp")), f)

end LogFile

/-- The operations of a writer, one after the other on one path. -/
inductive LogOp where
  | create
  | openLog (closed : Bool) (maxSegmentLsn : Option Nat)
  | append (record : WalRecord UInt64)
  | appendRecordSegment (record : WalRecord UInt64)
  | setOverlayRegime
  | setOverlayRegimeRecordsEmpty
  | setOwnedRegime
  | setCommitSeqFloor (floor : UInt64)
  | checkpoint (checkpointLsn timestamp : UInt64)
  | truncate
  | rotateToArchive
  | rotateAndRestampOverlay

/-- One operation on the file at the path, if there is one. An operation that returns an error leaves the file. -/
def logStep? : Option LogFile → LogOp → Option (Option LogFile)
  | none, .create => some (some .create)
  | none, _ => none
  | some f, .create => some (some f)
  | some f, .openLog closed m => match f.openLog closed m with
    | .ok f' => some (some f')
    | .error _ => some (some f)
  | some f, .append r => some (some { f with writer := f.writer.append r })
  | some f, .appendRecordSegment r => some (some { f with writer := f.writer.appendRecordSegment r })
  | some f, .setOverlayRegime => some (some f.setOverlayRegime.2)
  | some f, .setOverlayRegimeRecordsEmpty => some (some f.setOverlayRegimeRecordsEmpty.2)
  | some f, .setOwnedRegime => some (some f.setOwnedRegime.2)
  | some f, .setCommitSeqFloor floor => some (some (f.setCommitSeqFloor floor))
  | some f, .checkpoint c t => some (some (f.checkpoint c t))
  | some f, .truncate => some (some f.truncate)
  | some f, .rotateToArchive => some (some f.rotateToArchive)
  | some f, .rotateAndRestampOverlay => some (some f.rotateAndRestampOverlay.2)

/-! ## The header's bytes -/

namespace WalHeader

structure Valid (h : WalHeader) : Prop where
  magic_mem : h.magic = stdMagic ∨ h.magic = overlayMagic
  version_eq : h.version = 2
  checkpointLsn_lt : h.checkpointLsn < 2 ^ 64
  commitSeqFloor_lt : h.commitSeqFloor < 2 ^ 64

theorem stdMagic_ne_overlayMagic : stdMagic ≠ overlayMagic := by decide

theorem valid_new : new.Valid := ⟨.inl rfl, rfl, by decide, by decide⟩

/-- The magic is the overlay regime's exactly in the overlay regime. -/
def Agrees (h : WalHeader) : Prop := h.magic = overlayMagic ↔ h.regime = .overlay

theorem header_fields {a b c d rest l : Bytes} {r : UInt8} (hl : l = a ++ (b ++ (c ++ (d ++ r :: rest)))) (ha : a.length = 8)
    (hb : b.length = 4) (hc : c.length = 8) (hd : d.length = 8) :
    l.take 8 = a ∧ (l.drop 8).take 4 = b ∧ (l.drop 12).take 8 = c ∧ (l.drop 20).take 8 = d ∧ (l.drop 28).headD 0 = r := by
  have h8 : l.drop 8 = b ++ (c ++ (d ++ r :: rest)) := hl ▸ drop_left' ha
  have h12 : l.drop 12 = c ++ (d ++ r :: rest) := by
    rw [← drop_drop (i := 4) (j := 8), h8, drop_left' hb]
  have h20 : l.drop 20 = d ++ r :: rest := by
    rw [← drop_drop (i := 8) (j := 12), h12, drop_left' hc]
  have h28 : l.drop 28 = r :: rest := by
    rw [← drop_drop (i := 8) (j := 20), h20, drop_left' hd]
  rw [h8, h12, h20, h28]
  exact ⟨hl ▸ take_left' ha, take_left' hb, take_left' hc, take_left' hd, rfl⟩

theorem fromBytes_toBytes {h : WalHeader} (hv : h.Valid) : fromBytes h.toBytes = .ok h := by
  have hmagic : h.magic.length = 8 := by
    rcases hv.magic_mem with hm | hm <;> rw [hm] <;> rfl
  obtain ⟨h1, h2, h3, h4, h5⟩ := header_fields (l := h.toBytes) rfl hmagic (by simp) (by simp) (by simp)
  have hversion : leVal (leBytes 4 h.version.toNat) = 2 := by
    rw [hv.version_eq, leVal_leBytes]
    rfl
  have hlsn : leVal (leBytes 8 h.checkpointLsn) = h.checkpointLsn := by
    rw [leVal_leBytes]
    exact Nat.mod_eq_of_lt hv.checkpointLsn_lt
  have hfloor : leVal (leBytes 8 h.commitSeqFloor) = h.commitSeqFloor := by
    rw [leVal_leBytes]
    exact Nat.mod_eq_of_lt hv.commitSeqFloor_lt
  have hknown : ¬ (h.magic ≠ stdMagic ∧ h.magic ≠ overlayMagic) := by
    rcases hv.magic_mem with hm | hm <;> simp [hm]
  simp only [fromBytes, h1, h2, h3, h4, h5, hversion, hlsn, hfloor]
  rw [if_neg hknown, if_neg (by decide)]
  have heq : UInt32.ofNat 2 = h.version := hv.version_eq.symm
  rw [heq]

end WalHeader

/-! ## What an operation does to the header -/

inductive HeaderChange (h : WalHeader) : LogOp → WalHeader → Prop where
  | checkpoint (op : LogOp) (lsn : Nat) (hlsn : lsn < 2 ^ 64) : HeaderChange h op { h with checkpointLsn := lsn }
  | floor (op : LogOp) (n : Nat) (hle : h.commitSeqFloor ≤ n) (hlt : n < 2 ^ 64) :
      HeaderChange h op { h with commitSeqFloor := n }
  | overlay (op : LogOp) :
      HeaderChange h op { h with magic := overlayMagic, rankRegime := regimeToU8 .overlay }
  | owned (op : LogOp) : HeaderChange h op { h with magic := stdMagic, rankRegime := regimeToU8 .owned }
  | rotated : HeaderChange h .rotateToArchive
      { new with commitSeqFloor := h.commitSeqFloor, rankRegime := h.rankRegime }
  | restamped (op : LogOp) : HeaderChange h op
      { new with
        commitSeqFloor := h.commitSeqFloor, magic := overlayMagic, rankRegime := regimeToU8 .overlay }

namespace HeaderChange

variable {h h' : WalHeader} {op : LogOp}

theorem valid (hc : HeaderChange h op h') (hv : h.Valid) : h'.Valid := by
  obtain ⟨hmagic, hversion, hlsn, hfloor⟩ := hv
  cases hc with
  | checkpoint _ lsn hlt => exact ⟨hmagic, hversion, hlt, hfloor⟩
  | floor _ n _ hlt => exact ⟨hmagic, hversion, hlsn, hlt⟩
  | overlay => exact ⟨.inr rfl, hversion, hlsn, hfloor⟩
  | owned => exact ⟨.inl rfl, hversion, hlsn, hfloor⟩
  | rotated => exact ⟨.inl rfl, rfl, valid_new.checkpointLsn_lt, hfloor⟩
  | restamped => exact ⟨.inr rfl, rfl, valid_new.checkpointLsn_lt, hfloor⟩

theorem floor_le (hc : HeaderChange h op h') : h.commitSeqFloor ≤ h'.commitSeqFloor := by
  cases hc with
  | floor _ n hle _ => exact hle
  | _ => exact le_rfl

theorem agrees (hc : HeaderChange h op h') (hrot : op = .rotateToArchive → h.regime ≠ .overlay) (ha : h.Agrees) :
    h'.Agrees := by
  cases hc with
  | checkpoint | floor => exact ha
  | overlay | restamped => exact iff_of_true rfl rfl
  | owned => exact iff_of_false stdMagic_ne_overlayMagic RankRegime.noConfusion
  | rotated => exact iff_of_false stdMagic_ne_overlayMagic (hrot rfl)

end HeaderChange

namespace LogFile

def Synced (f : LogFile) : Prop := f.headerBytes = f.writer.header.toBytes

variable {f : LogFile} {op : LogOp}

/-- The header has changed as `op` may change it, and is on disk. -/
def Changes (f : LogFile) (op : LogOp) (f' : LogFile) : Prop :=
  f'.Synced ∧ HeaderChange f.writer.header op f'.writer.header

theorem changes_unchanged (op : LogOp) (hf : f.Synced) (hv : f.writer.header.Valid) (w : WalWriter)
    (hw : w.header = f.writer.header) : f.Changes op { f with writer := w } := by
  refine ⟨?_, ?_⟩
  · show f.headerBytes = w.header.toBytes
    rw [hw]
    exact hf
  · rw [hw]
    exact .checkpoint op f.writer.header.checkpointLsn hv.checkpointLsn_lt

theorem setCommitSeqFloor_of_le {floor : UInt64} (h : floor.toNat ≤ f.writer.header.commitSeqFloor) :
    f.setCommitSeqFloor floor = f := if_pos h

section
variable {magic : Bytes} {regime : RankRegime} (hf : f.Synced) (hv : f.writer.header.Valid)
  (hc : HeaderChange f.writer.header op { f.writer.header with magic, rankRegime := regimeToU8 regime })
include hf hv hc

theorem changes_stamp : f.Changes op (f.stamp magic regime) := by
  unfold stamp
  simp only
  split
  · exact changes_unchanged op hf hv f.writer rfl
  · exact ⟨rfl, hc⟩

theorem changes_stampIfEmpty (text : String) : f.Changes op (f.stampIfEmpty text magic regime).2 := by
  unfold stampIfEmpty
  split
  · exact changes_stamp hf hv hc
  · exact changes_unchanged _ hf hv f.writer rfl

end

theorem rotateAndRestampOverlay_header (f : LogFile) : f.rotateAndRestampOverlay.1 = .ok () ∧
    f.rotateAndRestampOverlay.2.Synced ∧
      f.rotateAndRestampOverlay.2.writer.header = { new with
          commitSeqFloor := f.writer.header.commitSeqFloor, magic := overlayMagic
          rankRegime := regimeToU8 .overlay } := by
  have hfloor : (UInt64.ofNat f.writer.header.commitSeqFloor).toNat ≤ f.writer.header.commitSeqFloor := by
    rw [UInt64.toNat_ofNat']
    exact Nat.mod_le _ _
  have heq : f.rotateAndRestampOverlay = (.ok (), (f.rotateToArchive.recordsEmptyOnDisk.2.writeHeader
      { f.rotateToArchive.writer.header with
        magic := overlayMagic, rankRegime := regimeToU8 .overlay }).setCommitSeqFloor
      (UInt64.ofNat f.writer.header.commitSeqFloor)) := rfl
  rw [heq, setCommitSeqFloor_of_le]
  · exact ⟨rfl, rfl, rfl⟩
  · exact hfloor

theorem changes_logStep {s' : Option LogFile} (hf : f.Synced) (hv : f.writer.header.Valid)
    (hstep : logStep? (some f) op = some s') : ∃ f', s' = some f' ∧ f.Changes op f' := by
  cases op with
  | create =>
    cases hstep
    exact ⟨f, rfl, changes_unchanged _ hf hv f.writer rfl⟩
  | openLog closed m =>
    have hread : fromBytes f.headerBytes = .ok f.writer.header := by
      rw [hf]
      exact fromBytes_toBytes hv
    simp only [logStep?, openLog, hread] at hstep
    cases hstep
    exact ⟨_, rfl, changes_unchanged _ hf hv _ rfl⟩
  | append | appendRecordSegment =>
    cases hstep
    exact ⟨_, rfl, changes_unchanged _ hf hv _ rfl⟩
  | setOverlayRegime =>
    cases hstep
    exact ⟨_, rfl, changes_stampIfEmpty hf hv (.overlay _) _⟩
  | setOverlayRegimeRecordsEmpty =>
    cases hstep
    refine ⟨_, rfl, ?_⟩
    unfold setOverlayRegimeRecordsEmpty recordsEmptyOnDisk
    simp only
    split
    · exact changes_stamp (f := { f with writer := f.writer.flush }) hf hv (.overlay _)
    · exact changes_unchanged _ hf hv f.writer.flush rfl
  | setOwnedRegime =>
    cases hstep
    exact ⟨_, rfl, changes_stampIfEmpty hf hv (.owned _) _⟩
  | setCommitSeqFloor floor =>
    cases hstep
    refine ⟨_, rfl, ?_⟩
    by_cases hle : floor.toNat ≤ f.writer.header.commitSeqFloor
    · rw [setCommitSeqFloor_of_le hle]
      exact changes_unchanged _ hf hv f.writer rfl
    · unfold setCommitSeqFloor
      rw [if_neg hle]
      exact ⟨rfl, .floor _ floor.toNat (by omega) floor.toNat_lt⟩
  | checkpoint c t =>
    cases hstep
    exact ⟨_, rfl, rfl, .checkpoint _ c.toNat c.toNat_lt⟩
  | truncate =>
    cases hstep
    exact ⟨_, rfl, rfl, .checkpoint _ 0 (by decide)⟩
  | rotateToArchive =>
    cases hstep
    exact ⟨_, rfl, rfl, .rotated⟩
  | rotateAndRestampOverlay =>
    cases hstep
    obtain ⟨-, hsynced, hheader⟩ := rotateAndRestampOverlay_header f
    refine ⟨_, rfl, hsynced, ?_⟩
    rw [hheader]
    exact .restamped _

end LogFile

/-! ## Sequences of operations -/

def LogSound : Option LogFile → Prop
  | none => True
  | some f => f.Synced ∧ f.writer.header.Valid

def LogAgrees : Option LogFile → Prop
  | none => True
  | some f => f.writer.header.Agrees

def floorOf : Option LogFile → Nat
  | none => 0
  | some f => f.writer.header.commitSeqFloor

/-- `rotate_to_archive` is not called on a log of the overlay regime. -/
def RotatesOwned : Option LogFile → LogOp → Prop
  | some f, .rotateToArchive => f.writer.header.regime ≠ .overlay
  | _, _ => True

instance : ∀ s op, Decidable (RotatesOwned s op)
  | none, _ => isTrue trivial
  | some f, op => by
    cases op
    case rotateToArchive => exact inferInstanceAs (Decidable (f.writer.header.regime ≠ .overlay))
    all_goals exact isTrue trivial

section
variable {s s' : Option LogFile} {op : LogOp}

theorem logStep_create (hstep : logStep? none op = some s') : s' = some .create := by
  cases op <;> cases hstep
  rfl

theorem logStep_sound (hstep : logStep? s op = some s') (hs : LogSound s) : LogSound s' ∧ floorOf s ≤ floorOf s' := by
  cases s with
  | none =>
    obtain rfl := logStep_create hstep
    exact ⟨⟨rfl, valid_new⟩, Nat.zero_le _⟩
  | some f =>
    obtain ⟨f', rfl, hsynced, hchange⟩ := LogFile.changes_logStep hs.1 hs.2 hstep
    exact ⟨⟨hsynced, hchange.valid hs.2⟩, hchange.floor_le⟩

theorem logStep_agrees (hstep : logStep? s op = some s') (hs : LogSound s) (hrot : RotatesOwned s op)
    (ha : LogAgrees s) : LogAgrees s' := by
  cases s with
  | none =>
    obtain rfl := logStep_create hstep
    exact iff_of_false stdMagic_ne_overlayMagic RankRegime.noConfusion
  | some f =>
    obtain ⟨f', rfl, -, hchange⟩ := LogFile.changes_logStep hs.1 hs.2 hstep
    refine hchange.agrees ?_ ha
    rintro rfl
    exact hrot

end

theorem run_floor_le {ops : List LogOp} {s s' : Option LogFile} (hrun : run logStep? ops s = some s')
    (hs : LogSound s) : LogSound s' ∧ floorOf s ≤ floorOf s' := by
  refine of_run (I := fun t => LogSound t ∧ floorOf s ≤ floorOf t) ?_ hrun ⟨hs, le_rfl⟩
  intro t op t' hstep ht
  obtain ⟨hsound, hle⟩ := logStep_sound hstep ht.1
  exact ⟨hsound, le_trans ht.2 hle⟩

/-- **The header on disk along a sequence of operations in which no log of the overlay regime is rotated plainly**: magic
and regime agree, and the floor never falls. -/
theorem header_on_disk (before after : List LogOp) (s s' : Option LogFile) (hbefore : run logStep? before none = some s)
    (hafter : run logStep? after s = some s') (hrot : Along logStep? RotatesOwned (before ++ after) none) :
    (∀ f', s' = some f' → ∃ h', fromBytes f'.headerBytes = .ok h' ∧ (h'.magic = overlayMagic ↔ h'.regime = .overlay)) ∧
    ∀ f f', s = some f → s' = some f' → ∃ h h', fromBytes f.headerBytes = .ok h ∧
      fromBytes f'.headerBytes = .ok h' ∧ h.commitSeqFloor ≤ h'.commitSeqFloor := by
  have hread : ∀ f : LogFile, LogSound (some f) → fromBytes f.headerBytes = .ok f.writer.header := by
    intro f hf
    rw [hf.1]
    exact fromBytes_toBytes hf.2
  obtain ⟨hs, -⟩ := run_floor_le hbefore (show LogSound none from trivial)
  obtain ⟨hs', hfloor⟩ := run_floor_le hafter hs
  constructor
  · rintro f' rfl
    have hrun : run logStep? (before ++ after) none = some (some f') := run_append.2 ⟨s, hbefore, hafter⟩
    have hagrees : LogSound (some f') ∧ LogAgrees (some f') := by
      refine invariant (C := RotatesOwned) (I := fun t => LogSound t ∧ LogAgrees t) ?_ _ _ _ hrun hrot
        ⟨trivial, trivial⟩
      intro t op t' hstep hok ht
      exact ⟨(logStep_sound hstep ht.1).1, logStep_agrees hstep ht.1 hok ht.2⟩
    exact ⟨f'.writer.header, hread f' hs', hagrees.2⟩
  · rintro f f' rfl rfl
    exact ⟨f.writer.header, f'.writer.header, hread f hs, hread f' hs', hfloor⟩

/-- A log is created, stamped for the overlay regime and rotated: the fresh file has the overlay regime and the standard
magic. -/
theorem rotate_keeps_regime_drops_magic :
    ∃ f h, run logStep? [.create, .setOverlayRegime, .rotateToArchive] none = some (some f) ∧
      fromBytes f.headerBytes = .ok h ∧ h.magic = stdMagic ∧ h.regime = .overlay := by
  refine ⟨_, _, rfl, fromBytes_toBytes ?_, rfl, rfl⟩
  exact ⟨.inl rfl, rfl, by decide, by decide⟩

/-- Stamped, checkpointed, raised to floor 5, rotated with a restamp: the overlay magic is still there and the floor is
not lost. -/
theorem header_on_disk_restamped :
    ∃ f', run logStep? [.rotateAndRestampOverlay] ((run logStep? [.create, .setOverlayRegime, .checkpoint 3 0,
        .setCommitSeqFloor 5] none).getD none) = some (some f') ∧
      ∃ h', fromBytes f'.headerBytes = .ok h' ∧ (h'.magic = overlayMagic ↔ h'.regime = .overlay) :=
  ⟨_, rfl, (header_on_disk [.create, .setOverlayRegime, .checkpoint 3 0, .setCommitSeqFloor 5] [.rotateAndRestampOverlay]
    _ _ rfl rfl (by decide)).1 _ rfl⟩

end Dictenstein.Wal
