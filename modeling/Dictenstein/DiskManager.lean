import Dictenstein.DiskHeader
import Dictenstein.Runs
/-!
# DiskManager — the blocks of a trie file and the header that describes them

`core/disk_manager.rs`, `MmapDiskManager`.  The file is a sequence of blocks; block 0 holds the header.
-/
namespace Dictenstein.Disk

open Wire Option FileHeader
open ByteStore

def blockSize : Nat := 256 * 1024
def maxBlockCount : Nat := 2 ^ 24

structure DiskManager where
  file : Store
  fileSize : Nat
  blockCount : Nat

structure Call (α : Type) where
  writes : List Write
  result : Except StorageError α
  fileSize : Nat
  blockCount : Nat

namespace DiskManager

def readHeader (file : Store) : FileHeader := fromBytes (file.read 0 headerSize)

def writeHeader (header : FileHeader) : Write := .write 0 header.toBytes

def after {α : Type} (dm : DiskManager) (c : Call α) : DiskManager :=
  { file := applyAll dm.file c.writes, fileSize := c.fileSize, blockCount := c.blockCount }

def call {α : Type} (dm : DiskManager) (writes : List Write) (result : Except StorageError α) : Call α :=
  { writes, result, fileSize := dm.fileSize, blockCount := dm.blockCount }

variable (dm : DiskManager)

def rootPtr : UInt64 := (readHeader dm.file).rootPtr
def entryCount : UInt64 := (readHeader dm.file).entryCount
def imageCheckpointLsn : UInt64 := (readHeader dm.file).imageCheckpointLsn

/-! ## Creating and opening -/

/-- `create` on a path that holds no file. -/
def create : DiskManager :=
  let file := ({ size := 0, byte := fun _ => 0 } : Store).setLen blockSize
  { file := (writeHeader new.updateChecksum).apply file, fileSize := blockSize, blockCount := blockSize / blockSize }

def openFile (file : Store) : Except StorageError DiskManager :=
  if file.size < blockSize then .error (.corruptedFile "File too small to contain header block")
  else
    let header := readHeader file
    match header.validate with
    | .error e => .error e
    | .ok () =>
      if !header.verifyChecksum then .error (.checksumMismatch 0 header.computeChecksum header.checksum)
      else .ok { file, fileSize := file.size, blockCount := file.size / blockSize % 2 ^ 32 }

/-! ## Blocks -/

variable (blockId : Nat)

def offset : Nat := blockId * blockSize

def readFreeBlockNext : Except StorageError UInt64 :=
  if dm.fileSize < offset blockId + 8 then .error (.invalidBlockId blockId "Block offset exceeds file size")
  else .ok (u64At (dm.file.read (offset blockId) 8) 0)

/-- `persist_header_block_count`: four bytes of the header, and no checksum. -/
def persistHeaderBlockCount (count : Nat) : Write := .write 24 (leBytes 4 count)

def allocateBlock : Call Nat :=
  let header := readHeader dm.file
  let freeHead := if header.magic = magicNumber then header.freeListHead else 0
  if freeHead ≠ 0 then
    let blockId := (freeHead >>> 40).toNat
    match dm.readFreeBlockNext blockId with
    | .error e => dm.call [] (.error e)
    | .ok next => dm.call [writeHeader { header with freeListHead := next }] (.ok blockId)
  else if maxBlockCount ≤ dm.blockCount then dm.call [] (.error (.outOfSpace dm.blockCount maxBlockCount))
  else
    let newCount := dm.blockCount + 1
    let newFileSize := newCount * blockSize
    let grow := if dm.file.size < newFileSize then [.setLen newFileSize] else []
    { writes := grow ++ [.write (offset dm.blockCount) (List.replicate 8 0), persistHeaderBlockCount newCount]
      result := .ok dm.blockCount
      fileSize := max dm.fileSize (max dm.file.size newFileSize)
      blockCount := newCount }

def freeBlock : Call Unit :=
  if blockId = 0 then dm.call [] (.error (.invalidBlockId blockId "Cannot free header block"))
  else if dm.blockCount ≤ blockId then
    dm.call [] (.error (.invalidBlockId blockId
      ("Block ID " ++ toString blockId ++ " >= block count " ++ toString dm.blockCount)))
  else
    let header := readHeader dm.file
    if header.magic ≠ magicNumber then dm.call [] (.ok ())
    else if dm.fileSize < offset blockId + 8 then
      dm.call [] (.error (.invalidBlockId blockId "Block offset exceeds file size"))
    else
      let next : Write := .write (offset blockId) (leBytes 8 header.freeListHead.toNat)
      -- the header is read again after the free block has been linked
      let updated := { readHeader (next.apply dm.file) with freeListHead := UInt64.ofNat blockId <<< 40 }
      dm.call [next, writeHeader updated.updateChecksum] (.ok ())

def setRootPtr (ptr : UInt64) : Call Unit :=
  dm.call [writeHeader { readHeader dm.file with rootPtr := ptr }.updateChecksum] (.ok ())

def setEntryCount (count : UInt64) : Call Unit :=
  dm.call [writeHeader { readHeader dm.file with entryCount := count }.updateChecksum] (.ok ())

def setImageCheckpointLsn (lsn : UInt64) : Call Unit :=
  dm.call [writeHeader { readHeader dm.file with imageCheckpointLsn := lsn, version := formatVersion }.updateChecksum]
    (.ok ())

def sync : Call Unit := dm.call [writeHeader (readHeader dm.file).updateChecksum] (.ok ())

end DiskManager

/-! ## Runs of operations, killed at any write -/

inductive Op where
  | allocateBlock
  | freeBlock (blockId : Nat)
  | setRootPtr (ptr : UInt64)
  | setEntryCount (count : UInt64)
  | setImageCheckpointLsn (lsn : UInt64)
  | sync
deriving DecidableEq, Repr

def Op.writes (dm : DiskManager) : Op → List Write
  | .allocateBlock => dm.allocateBlock.writes
  | .freeBlock blockId => (dm.freeBlock blockId).writes
  | .setRootPtr ptr => (dm.setRootPtr ptr).writes
  | .setEntryCount count => (dm.setEntryCount count).writes
  | .setImageCheckpointLsn lsn => (dm.setImageCheckpointLsn lsn).writes
  | .sync => dm.sync.writes

def Op.run (dm : DiskManager) : Op → DiskManager
  | .allocateBlock => dm.after dm.allocateBlock
  | .freeBlock blockId => dm.after (dm.freeBlock blockId)
  | .setRootPtr ptr => dm.after (dm.setRootPtr ptr)
  | .setEntryCount count => dm.after (dm.setEntryCount count)
  | .setImageCheckpointLsn lsn => dm.after (dm.setImageCheckpointLsn lsn)
  | .sync => dm.after dm.sync

structure Stored where
  rootPtr : UInt64
  entryCount : UInt64
  imageCheckpointLsn : UInt64
deriving DecidableEq, Repr

def Op.stores (st : Stored) : Op → Stored
  | .setRootPtr ptr => { st with rootPtr := ptr }
  | .setEntryCount count => { st with entryCount := count }
  | .setImageCheckpointLsn lsn => { st with imageCheckpointLsn := lsn }
  | _ => st

/-- Whether, after the operation, the last write to the header was one of `allocate_block`. -/
def Op.leavesStale (writes : List Write) (stale : Bool) : Op → Bool
  | .allocateBlock => stale || !writes.isEmpty
  | .freeBlock _ => stale && writes.isEmpty
  | _ => false

/-- A manager, what was last stored through it, and whether an allocation wrote the header since. -/
structure Session where
  dm : DiskManager
  stored : Stored
  stale : Bool

structure Killed where
  file : Store
  stored : Stored
  stale : Bool

/-- The process is killed when `k` writes of the operation have been made; the last of them is the header's. -/
def Session.killedAt (s : Session) (op : Op) (k : Nat) : Killed :=
  let ws := op.writes s.dm
  if ws.length ≤ k then
    { file := applyAll s.dm.file ws, stored := op.stores s.stored, stale := op.leavesStale ws s.stale }
  else { file := applyAll s.dm.file (ws.take k), stored := s.stored, stale := s.stale }

inductive Event where
  | call (op : Op)
  | kill (op : Op) (k : Nat)
deriving DecidableEq, Repr

/-- A call that returns, or a kill inside it and a new process that opens the file. -/
def Session.step? (s : Session) : Event → Option Session
  | .call op => some { dm := op.run s.dm, stored := op.stores s.stored, stale := op.leavesStale (op.writes s.dm) s.stale }
  | .kill op k => match DiskManager.openFile (s.killedAt op k).file with
    | .ok dm => some { dm, stored := (s.killedAt op k).stored, stale := false }
    | .error _ => none

def Session.init : Session := { dm := .create, stored := ⟨0, 0, 0⟩, stale := false }

/-! ## What each kind of write does to the header -/

namespace DiskManager

theorem readHeader_congr {f g : Store} (h : f.read 0 headerSize = g.read 0 headerSize) : readHeader f = readHeader g := by
  unfold readHeader
  rw [h]

variable (f : Store)

@[simp] theorem readHeader_writeHeader (h : FileHeader) : readHeader ((writeHeader h).apply f) = h := by
  have e : ((writeHeader h).apply f).read 0 headerSize = h.toBytes := by
    have := Store.read_write f 0 h.toBytes
    rwa [length_toBytes] at this
  unfold readHeader
  rw [e, fromBytes_toBytes]

variable {off : Nat}

theorem u64At_readHeader (h : off + 8 ≤ headerSize) :
    u64At (f.read 0 headerSize) off = UInt64.ofNat (leVal (f.read off 8)) := by
  unfold u64At
  rw [Store.read_within f h, Nat.zero_add]

theorem u32At_readHeader (h : off + 4 ≤ headerSize) :
    u32At (f.read 0 headerSize) off = UInt32.ofNat (leVal (f.read off 4)) := by
  unfold u32At
  rw [Store.read_within f h, Nat.zero_add]

theorem readHeader_persist (count : Nat) :
    ∃ n, readHeader ((persistHeaderBlockCount count).apply f) = { readHeader f with blockCount := n } := by
  have e8 : ∀ off, off + 8 ≤ 24 ∨ 28 ≤ off → off + 8 ≤ headerSize →
      FileHeader.u64At (((persistHeaderBlockCount count).apply f).read 0 headerSize) off
        = FileHeader.u64At (f.read 0 headerSize) off := by
    intro off ho hh
    rw [u64At_readHeader _ hh, u64At_readHeader _ hh]
    congr 2
    exact Store.read_write_frame (by simpa using ho)
  have e4 : ∀ off, off + 4 ≤ 24 ∨ 28 ≤ off → off + 4 ≤ headerSize →
      FileHeader.u32At (((persistHeaderBlockCount count).apply f).read 0 headerSize) off
        = FileHeader.u32At (f.read 0 headerSize) off := by
    intro off ho hh
    rw [u32At_readHeader _ hh, u32At_readHeader _ hh]
    congr 2
    exact Store.read_write_frame (by simpa using ho)
  refine ⟨(readHeader ((persistHeaderBlockCount count).apply f)).blockCount, ?_⟩
  simp only [readHeader, FileHeader.fromBytes, FileHeader.mk.injEq, true_and]
  refine ⟨e8 0 ?_ ?_, e4 8 ?_ ?_, e4 12 ?_ ?_, e8 16 ?_ ?_, e8 32 ?_ ?_, e8 40 ?_ ?_, e8 48 ?_ ?_, e8 56 ?_ ?_⟩
  all_goals decide

end DiskManager

open DiskManager

/-- The header of a file holds what was last stored, and its checksum is right unless an allocation wrote it since. -/
structure HeaderOk (h : FileHeader) (st : Stored) (stale : Bool) : Prop where
  magic : h.magic = magicNumber
  version : h.version = formatVersion
  rootPtr : h.rootPtr = st.rootPtr
  entryCount : h.entryCount = st.entryCount
  imageCheckpointLsn : h.imageCheckpointLsn = st.imageCheckpointLsn
  checksum : stale = false → h.checksum = h.computeChecksum

/-- The file is a positive number of blocks, at most the maximum, behind such a header. -/
structure FileOk (f : Store) (st : Stored) (stale : Bool) : Prop where
  blocks : ∃ n, f.size = n * blockSize ∧ 0 < n ∧ n ≤ maxBlockCount
  header : HeaderOk (readHeader f) st stale

variable {st : Stored} {s : Session} {f : Store} {stale : Bool} {header : FileHeader}

theorem HeaderOk.updateChecksum {h : FileHeader} {b : Bool} (hh : HeaderOk h st stale) : HeaderOk h.updateChecksum st b :=
  ⟨hh.magic, hh.version, hh.rootPtr, hh.entryCount, hh.imageCheckpointLsn, fun _ => rfl⟩

theorem FileOk.size_ge (h : FileOk f st stale) : blockSize ≤ f.size := by
  obtain ⟨n, hn, hp, _⟩ := h.blocks
  rw [hn]
  exact Nat.le_mul_of_pos_left _ hp

/-- A write that spares the header and keeps the file a number of blocks. -/
def Harmless : Write → Prop
  | .setLen m => ∃ n, m = n * blockSize ∧ 0 < n ∧ n ≤ maxBlockCount
  | .write off _ => headerSize ≤ off

theorem FileOk.harmless {w : Write} (h : FileOk f st stale) (hw : Harmless w) : FileOk (w.apply f) st stale := by
  have hsize : headerSize ≤ f.size := Nat.le_trans (by decide) h.size_ge
  have hread : (w.apply f).read 0 headerSize = f.read 0 headerSize := by
    cases w with
    | setLen m => exact Store.read_setLen (by omega)
    | write off bs => exact Store.read_write_frame (.inl (by simpa [Harmless] using hw))
  refine ⟨?_, by rw [readHeader_congr hread]; exact h.header⟩
  cases w with
  | setLen m => exact hw
  | write off bs => exact h.blocks

theorem FileOk.applyAll : ∀ {ws : List Write} {f : Store}, FileOk f st stale →
    (∀ w ∈ ws, Harmless w) → FileOk (applyAll f ws) st stale
  | [], _, h, _ => h
  | w :: ws, f, h, hw => (h.harmless (hw w (by simp))).applyAll fun w' hw' => hw w' (by simp [hw'])

theorem FileOk.writeHeader {st' : Stored} {stale' : Bool} (h : FileOk f st stale) (hh : HeaderOk header st' stale') :
    FileOk ((writeHeader header).apply f) st' stale' :=
  ⟨h.blocks, by rw [readHeader_writeHeader]; exact hh⟩

theorem FileOk.persist (h : FileOk f st stale) (count : Nat) : FileOk ((persistHeaderBlockCount count).apply f) st true := by
  obtain ⟨n, hn⟩ := readHeader_persist f count
  refine ⟨h.blocks, ?_⟩
  rw [hn]
  exact ⟨h.header.magic, h.header.version, h.header.rootPtr, h.header.entryCount, h.header.imageCheckpointLsn, by simp⟩

/-! ## The invariant of a session -/

/-- The manager counts the blocks of its file, and the file holds what was last stored. -/
structure SessionOk (s : Session) : Prop where
  size : s.dm.file.size = s.dm.blockCount * blockSize
  pos : 0 < s.dm.blockCount
  bounded : s.dm.blockCount ≤ maxBlockCount
  header : HeaderOk (readHeader s.dm.file) s.stored s.stale

theorem SessionOk.file (h : SessionOk s) : FileOk s.dm.file s.stored s.stale :=
  ⟨⟨s.dm.blockCount, h.size, h.pos, h.bounded⟩, h.header⟩

/-- What the writes of an operation are: none, or writes that spare the header and then one to the header. -/
inductive OpWrites (f : Store) (st st' : Stored) (stale stale' : Bool) : List Write → Prop
  | none : st' = st → stale' = stale → OpWrites f st st' stale stale' []
  | last (pre : List Write) (w : Write) : (∀ x ∈ pre, Harmless x) → FileOk (w.apply (applyAll f pre)) st' stale' →
      OpWrites f st st' stale stale' (pre ++ [w])

theorem offset_ge {blockId : Nat} (h : 0 < blockId) : headerSize ≤ offset blockId := by
  have : blockSize ≤ offset blockId := Nat.le_mul_of_pos_left _ h
  exact Nat.le_trans (by decide) this

theorem SessionOk.opWrites_extend (h : SessionOk s) (hmax : ¬maxBlockCount ≤ s.dm.blockCount) {grow : List Write}
    (hg : ∀ x ∈ grow, x = .setLen ((s.dm.blockCount + 1) * blockSize)) :
    OpWrites s.dm.file s.stored s.stored s.stale true
      (grow ++ [.write (offset s.dm.blockCount) (List.replicate 8 0), persistHeaderBlockCount (s.dm.blockCount + 1)]) := by
  have hall : ∀ x ∈ grow ++ [.write (offset s.dm.blockCount) (List.replicate 8 0)], Harmless x := by
    intro x hx
    rcases List.mem_append.1 hx with hx | hx
    · rw [hg x hx]
      exact ⟨_, rfl, by omega, by omega⟩
    · rw [List.mem_singleton.1 hx]
      exact offset_ge h.pos
  rw [show grow ++ [Write.write (offset s.dm.blockCount) (List.replicate 8 0), persistHeaderBlockCount (s.dm.blockCount + 1)]
      = (grow ++ [Write.write (offset s.dm.blockCount) (List.replicate 8 0)])
        ++ [persistHeaderBlockCount (s.dm.blockCount + 1)] by simp]
  exact .last _ _ hall ((h.file.applyAll hall).persist _)

theorem SessionOk.opWrites_header (h : SessionOk s) (hh : HeaderOk header st true) :
    OpWrites s.dm.file s.stored st s.stale false [writeHeader header.updateChecksum] :=
  .last [] _ (by simp) (h.file.writeHeader hh.updateChecksum)

/-- **The writes of every operation, from a session whose file holds what was stored.** -/
theorem SessionOk.opWrites (h : SessionOk s) (op : Op) :
    OpWrites s.dm.file s.stored (op.stores s.stored) s.stale (op.leavesStale (op.writes s.dm) s.stale)
      (op.writes s.dm) := by
  have hh := h.header
  cases op with
  | allocateBlock =>
    simp only [Op.writes, Op.stores, Op.leavesStale, allocateBlock]
    rw [if_pos hh.magic]
    split
    · -- the head of the free list is popped, under the checksum of the old head
      cases s.dm.readFreeBlockNext _ with
      | error e => exact .none rfl (by simp [call])
      | ok next =>
        refine .last [] _ (by simp) (h.file.writeHeader ?_)
        exact ⟨hh.magic, hh.version, hh.rootPtr, hh.entryCount, hh.imageCheckpointLsn, by simp [call]⟩
    · split
      · exact .none rfl (by simp [call])
      · rename_i hmax
        have he : ∀ (grow : List Write) (a b : Write), (s.stale || !(grow ++ [a, b]).isEmpty) = true := by
          intro grow a b
          cases grow <;> simp
        rw [he]
        exact h.opWrites_extend hmax (by intro x hx; split at hx <;> simp_all)
  | freeBlock blockId =>
    simp only [Op.writes, Op.stores, Op.leavesStale, freeBlock]
    split
    · exact .none rfl (by simp [call])
    · rename_i hpos
      split
      · exact .none rfl (by simp [call])
      · split
        · exact .none rfl (by simp [call])
        · split
          · exact .none rfl (by simp [call])
          · have hnext : Harmless (.write (offset blockId) (leBytes 8 (readHeader s.dm.file).freeListHead.toNat)) :=
              offset_ge (Nat.pos_of_ne_zero hpos)
            have hf := h.file.harmless hnext
            have hu := hf.header
            refine .last [_] _ (by simpa using hnext) (hf.writeHeader (HeaderOk.updateChecksum (?_ : HeaderOk _ _ true)))
            exact ⟨hu.magic, hu.version, hu.rootPtr, hu.entryCount, hu.imageCheckpointLsn, by simp⟩
  | setRootPtr ptr =>
    apply h.opWrites_header
    exact ⟨hh.magic, hh.version, rfl, hh.entryCount, hh.imageCheckpointLsn, by simp⟩
  | setEntryCount count =>
    apply h.opWrites_header
    exact ⟨hh.magic, hh.version, hh.rootPtr, rfl, hh.imageCheckpointLsn, by simp⟩
  | setImageCheckpointLsn lsn =>
    apply h.opWrites_header
    exact ⟨hh.magic, rfl, hh.rootPtr, hh.entryCount, rfl, by simp⟩
  | sync =>
    apply h.opWrites_header
    exact ⟨hh.magic, hh.version, hh.rootPtr, hh.entryCount, hh.imageCheckpointLsn, by simp⟩

theorem applyAll_append (f : Store) (ws ws' : List Write) : applyAll f (ws ++ ws') = applyAll (applyAll f ws) ws' := by
  simp [applyAll]

/-- **At every write of every operation the file holds what was stored by the writes made so far.** -/
theorem SessionOk.killed (h : SessionOk s) (op : Op) (k : Nat) :
    FileOk (s.killedAt op k).file (s.killedAt op k).stored (s.killedAt op k).stale := by
  have hw := h.opWrites op
  unfold Session.killedAt
  simp only
  generalize op.writes s.dm = ws at hw ⊢
  cases hw with
  | none hst hsl =>
    rw [if_pos (by simp), hst, hsl]
    exact h.file
  | last pre w hpre hlast =>
    split
    · rw [applyAll_append]
      exact hlast
    · rename_i hk
      have hle : k ≤ pre.length := by simp at hk; omega
      rw [List.take_append_of_le_length hle]
      exact h.file.applyAll fun x hx => hpre x (List.mem_of_mem_take hx)

/-! ## Opening what a killed process left -/

/-- **A file with a right checksum is opened, and the manager counts its blocks.** -/
theorem FileOk.openFile_eq (h : FileOk f st false) :
    DiskManager.openFile f = .ok { file := f, fileSize := f.size, blockCount := f.size / blockSize % 2 ^ 32 } := by
  have hv : (readHeader f).validate = .ok () := by
    unfold validate
    rw [if_neg (by simp [h.header.magic]), if_neg (by rw [h.header.version]; decide)]
  have hc : (readHeader f).verifyChecksum = true := by
    unfold verifyChecksum
    rw [h.header.checksum rfl]
    simp
  unfold DiskManager.openFile
  rw [if_neg (by have := h.size_ge; omega)]
  simp only [hv, hc, Bool.not_true, Bool.false_eq_true, if_false]

theorem openFile_checksum {dm : DiskManager} (h : DiskManager.openFile f = .ok dm) :
    (readHeader f).checksum = (readHeader f).computeChecksum := by
  unfold DiskManager.openFile at h
  split at h
  · cases h
  · dsimp only at h
    split at h
    · cases h
    · split at h
      · cases h
      · rename_i hc
        simpa [verifyChecksum] using hc

theorem FileOk.session (h : FileOk f st false) : SessionOk ⟨⟨f, f.size, f.size / blockSize % 2 ^ 32⟩, st, false⟩ := by
  obtain ⟨n, hn, hp, hm⟩ := h.blocks
  have hb : f.size / blockSize % 2 ^ 32 = n := by
    rw [hn, Nat.mul_div_cancel _ (by decide), Nat.mod_eq_of_lt (Nat.lt_of_le_of_lt hm (by decide))]
  refine ⟨?_, ?_, ?_, h.header⟩ <;> simp only [hb]
  · exact hn
  · exact hp
  · exact hm

theorem size_applyAll (f : Store) (ws : List (Nat × Bytes)) :
    (applyAll f (ws.map fun w => .write w.1 w.2)).size = f.size := by
  induction ws generalizing f with
  | nil => rfl
  | cons w ws ih => exact ih _

theorem SessionOk.run_counts (h : SessionOk s) (op : Op) : (op.run s.dm).file = applyAll s.dm.file (op.writes s.dm)
      ∧ (op.run s.dm).file.size = (op.run s.dm).blockCount * blockSize
      ∧ 0 < (op.run s.dm).blockCount ∧ (op.run s.dm).blockCount ≤ maxBlockCount := by
  refine ⟨by cases op <;> simp only [Op.run, Op.writes, after], ?_⟩
  -- every operation but an extension of the file leaves the counters and the size of the file alone
  have keep : ∀ {α : Type} {ws : List Write} {r : Except StorageError α}, (∀ f, (applyAll f ws).size = f.size) →
      (s.dm.after (s.dm.call ws r)).file.size = (s.dm.after (s.dm.call ws r)).blockCount * blockSize ∧
        0 < (s.dm.after (s.dm.call ws r)).blockCount ∧ (s.dm.after (s.dm.call ws r)).blockCount ≤ maxBlockCount :=
    fun hws => ⟨(hws _).trans h.size, h.pos, h.bounded⟩
  cases op with
  | allocateBlock =>
    simp only [Op.run, allocateBlock]
    rw [if_pos h.header.magic]
    split
    · cases s.dm.readFreeBlockNext _ with
      | error => exact keep fun _ => rfl
      | ok => exact keep fun f => size_applyAll f [(_, _)]
    · split
      · exact keep fun _ => rfl
      · rename_i hmax
        have hlt : s.dm.file.size < (s.dm.blockCount + 1) * blockSize := by
          rw [h.size, Nat.succ_mul]
          exact Nat.lt_add_of_pos_right (by decide)
        rw [if_pos hlt]
        simp only [after]
        exact ⟨rfl, Nat.succ_pos _, by omega⟩
  | freeBlock blockId =>
    simp only [Op.run, freeBlock]
    split
    · exact keep fun _ => rfl
    · split
      · exact keep fun _ => rfl
      · split
        · exact keep fun _ => rfl
        · split
          · exact keep fun _ => rfl
          · exact keep fun f => size_applyAll f [(_, _), (_, _)]
  | setRootPtr | setEntryCount | setImageCheckpointLsn | sync => exact keep fun f => size_applyAll f [(_, _)]

theorem SessionOk.step {s' : Session} {e : Event} (hs : s.step? e = some s') (h : SessionOk s) : SessionOk s' := by
  cases e with
  | call op =>
    simp only [Session.step?, some.injEq] at hs
    subst hs
    obtain ⟨hfile, hsize, hpos, hmax⟩ := h.run_counts op
    -- a call that returned is a kill after its last write
    have hk := h.killed op (op.writes s.dm).length
    simp only [Session.killedAt, if_pos (Nat.le_refl _)] at hk
    exact ⟨hsize, hpos, hmax, by rw [hfile]; exact hk.header⟩
  | kill op k =>
    have hk := h.killed op k
    simp only [Session.step?] at hs
    split at hs
    · rename_i dm ho
      simp only [some.injEq] at hs
      subst hs
      -- the checksum was right, so the file is one that nothing wrote behind its checksum
      have hc := openFile_checksum ho
      have hf : FileOk (s.killedAt op k).file (s.killedAt op k).stored false := by
        obtain ⟨hb, hh⟩ := hk
        exact ⟨hb, hh.magic, hh.version, hh.rootPtr, hh.entryCount, hh.imageCheckpointLsn, fun _ => hc⟩
      rw [hf.openFile_eq] at ho
      cases ho
      exact hf.session
    · cases hs

theorem sessionOk_init : SessionOk Session.init := by
  refine ⟨rfl, by decide, by decide, ?_⟩
  show HeaderOk (readHeader ((writeHeader new.updateChecksum).apply _)) _ _
  rw [readHeader_writeHeader]
  have h : HeaderOk new ⟨0, 0, 0⟩ true := ⟨rfl, rfl, rfl, rfl, rfl, by simp⟩
  exact h.updateChecksum

theorem sessionOk_run {es : List Event} (hr : Runs.run Session.step? es Session.init = some s) : SessionOk s :=
  Runs.of_run (fun _ _ _ hs h => h.step hs) hr sessionOk_init

/-- **Unless an allocation wrote the header last, the file a killed process leaves is opened**, and the manager reports
the root pointer, the entry count and the image coverage last stored. -/
theorem openFile_killed (es : List Event) (s : Session) (hr : Runs.run Session.step? es Session.init = some s) (op : Op)
    (k : Nat) (hfresh : (s.killedAt op k).stale = false) :
    ∃ dm, DiskManager.openFile (s.killedAt op k).file = .ok dm
      ∧ dm.rootPtr = (s.killedAt op k).stored.rootPtr
      ∧ dm.entryCount = (s.killedAt op k).stored.entryCount
      ∧ dm.imageCheckpointLsn = (s.killedAt op k).stored.imageCheckpointLsn := by
  have hk := (sessionOk_run hr).killed op k
  rw [hfresh] at hk
  exact ⟨_, hk.openFile_eq, hk.header.rootPtr, hk.header.entryCount, hk.header.imageCheckpointLsn⟩

/-- A run that allocates two blocks, frees one, allocates it again and stores a root pointer, killed after that. -/
theorem openFile_killed_after_setRootPtr :
    ∃ s dm, Runs.run Session.step? [.call .allocateBlock, .call .allocateBlock, .call (.freeBlock 1), .call .allocateBlock,
        .call (.setEntryCount 3)] Session.init = some s
      ∧ DiskManager.openFile (s.killedAt (.setRootPtr 7) 1).file = .ok dm
      ∧ dm.rootPtr = (s.killedAt (.setRootPtr 7) 1).stored.rootPtr := by
  obtain ⟨s, hr, hs⟩ := Runs.exists_run Session.step? [.call .allocateBlock, .call .allocateBlock, .call (.freeBlock 1),
    .call .allocateBlock, .call (.setEntryCount 3)] Session.init (fun s => !(s.killedAt (.setRootPtr 7) 1).stale)
    (by decide +kernel)
  obtain ⟨dm, ho, hp, _⟩ := openFile_killed _ s hr (.setRootPtr 7) 1 (by simpa using hs)
  exact ⟨s, dm, hr, ho, hp⟩

/-- **A file left behind an allocation is refused**: a new file, one block allocated, and the process killed. -/
theorem openFile_after_allocate : ∃ e, DiskManager.openFile (Session.init.killedAt .allocateBlock 3).file = .error e := by
  have h : (DiskManager.openFile (Session.init.killedAt .allocateBlock 3).file).toOption.isNone = true := by decide +kernel
  cases ho : DiskManager.openFile (Session.init.killedAt .allocateBlock 3).file with
  | error e => exact ⟨e, rfl⟩
  | ok dm => simp [ho, Except.toOption] at h

end Dictenstein.Disk
