import Dictenstein.DiskManager
/-!
# DiskBlocks — blocks, the free list and what the operations do to them

A block's bytes are a `Page`.  The free list runs from the header through the first bytes of the free blocks
(`FreeChain`).  Each operation of the disk manager has one lemma here that says what it does to the free list and which
blocks it leaves alone; block 0, which holds the header, is never among them.
-/
namespace Dictenstein.Disk

open Wire ByteStore DiskManager List Store FileHeader

/-- The bytes of a block; only the offsets below `blockSize` mean anything. -/
abbrev Page := Nat → UInt8

def Page.Agree (p q : Page) : Prop := ∀ i < blockSize, p i = q i

theorem Page.Agree.refl (p : Page) : Page.Agree p p := fun _ _ => rfl
variable {b b' i k n count : Nat} {f : Store} {free : List Nat} {dm : DiskManager} {buffer : Nat → UInt8} {p q : Page}
  {header : FileHeader} {head : UInt64}

theorem Page.Agree.symm (h : Page.Agree p q) : Page.Agree q p := fun i hi => (h i hi).symm
theorem Page.Agree.trans {r : Page} (h : Page.Agree p q) (h' : Page.Agree q r) : Page.Agree p r :=
  fun i hi => (h i hi).trans (h' i hi)

namespace DiskManager

def block (dm : DiskManager) (blockId : Nat) : Page := fun i => dm.file.byte (offset blockId + i)

def checkBlock (dm : DiskManager) (blockId : Nat) : Except StorageError Unit :=
  if dm.blockCount ≤ blockId then
    .error (.invalidBlockId blockId ("Block ID " ++ toString blockId ++ " >= block count " ++ toString dm.blockCount))
  else if dm.fileSize < offset blockId + blockSize then
    .error (.invalidBlockId blockId ("Block " ++ toString blockId ++ " not yet accessible (file_size="
      ++ toString dm.fileSize ++ ", need=" ++ toString (offset blockId + blockSize) ++ ")"))
  else .ok ()

def readBlock (dm : DiskManager) (blockId : Nat) : Except StorageError Page :=
  match dm.checkBlock blockId with
  | .error e => .error e
  | .ok () => .ok (dm.block blockId)

def writeBlock (dm : DiskManager) (blockId : Nat) (buffer : Page) : Except StorageError DiskManager :=
  match dm.checkBlock blockId with
  | .error e => .error e
  | .ok () => .ok { dm with file := dm.file.paste (offset blockId) blockSize buffer }

/-- The default `write_blocks_batch` and `write_blocks_batch_fixed`: one block after the other, up to an error. -/
def writeBlocksBatch (dm : DiskManager) : List (Nat × Page) → Except StorageError Unit × DiskManager
  | [] => (.ok (), dm)
  | (blockId, buffer) :: requests => match dm.writeBlock blockId buffer with
    | .error e => (.error e, dm)
    | .ok dm' => dm'.writeBlocksBatch requests

end DiskManager

/-! ## Blocks do not overlap -/

theorem offset_mono (h : b < b') : offset b + blockSize ≤ offset b' := by
  have hle : (b + 1) * blockSize ≤ b' * blockSize := Nat.mul_le_mul_right _ h
  have hs : (b + 1) * blockSize = b * blockSize + blockSize := Nat.succ_mul b blockSize
  unfold offset
  omega

theorem offset_add_lt (h : b < b') (hi : i < blockSize) : offset b + i < offset b' :=
  Nat.lt_of_lt_of_le (Nat.add_lt_add_left hi _) (offset_mono h)

/-! ## The free list -/

def swizzled (blockId : Nat) : UInt64 := UInt64.ofNat blockId <<< 40

theorem swizzled_shift (h : b < maxBlockCount) : (swizzled b >>> 40).toNat = b := by
  have hb : b < 2 ^ 24 := h
  have e : (swizzled b).toNat = b * 2 ^ 40 := by
    simp only [swizzled, UInt64.toNat_shiftLeft, UInt64.toNat_ofNat']
    have h1 : b % 2 ^ 64 = b := Nat.mod_eq_of_lt (by omega)
    rw [h1, Nat.shiftLeft_eq]
    have h2 : (40 : UInt64).toNat % 64 = 40 := by decide
    rw [h2]
    exact Nat.mod_eq_of_lt (by omega)
  rw [UInt64.toNat_shiftRight, e]
  have h2 : (40 : UInt64).toNat % 64 = 40 := by decide
  rw [h2, Nat.shiftRight_eq_div_pow]
  exact Nat.mul_div_cancel _ (by decide)

theorem swizzled_ne_zero (h : b < maxBlockCount) (hp : 0 < b) : swizzled b ≠ 0 := by
  intro h0
  have := swizzled_shift h
  rw [h0] at this
  simp at this
  omega

/-- The free list from a pointer on: the blocks it runs through, each linked to the next by its first eight bytes. -/
inductive FreeChain (file : Store) : UInt64 → List Nat → Prop
  | nil : FreeChain file 0 []
  | cons {next : UInt64} {b : Nat} {rest : List Nat} : 0 < b → b < maxBlockCount →
      u64At (file.read (offset b) 8) 0 = next → FreeChain file next rest → FreeChain file (swizzled b) (b :: rest)

theorem FreeChain.congr {g : Store} (h : FreeChain f head free)
    (hfg : ∀ b ∈ free, g.read (offset b) 8 = f.read (offset b) 8) :
    FreeChain g head free := by
  induction h with
  | nil => exact .nil
  | cons hp hm hn _ ih =>
    refine .cons hp hm ?_ (ih fun b hb => hfg b (by simp [hb]))
    rw [hfg _ (by simp)]
    exact hn

/-- The manager's counters describe its file, and the free list runs through `free`. -/
structure StorageOk (dm : DiskManager) (free : List Nat) : Prop where
  size : dm.file.size = dm.blockCount * blockSize
  fileSize : dm.fileSize = dm.file.size
  pos : 0 < dm.blockCount
  bounded : dm.blockCount ≤ maxBlockCount
  magic : (readHeader dm.file).magic = magicNumber
  chain : FreeChain dm.file (readHeader dm.file).freeListHead free
  nodup : free.Nodup
  inFile : ∀ b ∈ free, 0 < b ∧ b < dm.blockCount

namespace StorageOk

variable {dm : DiskManager} {free : List Nat} {b : Nat}

section
variable (h : StorageOk dm free)
include h

theorem block_end (hb : b < dm.blockCount) : offset b + blockSize ≤ dm.fileSize := by
  rw [h.fileSize, h.size]
  exact offset_mono hb

theorem checkBlock_ok (hb : b < dm.blockCount) : dm.checkBlock b = .ok () := by
  have hn : ¬dm.blockCount ≤ b := by omega
  have he : ¬dm.fileSize < offset b + blockSize := by
    have := h.block_end hb
    omega
  rw [checkBlock, if_neg hn, if_neg he]

theorem readBlock_ok (hb : b < dm.blockCount) : dm.readBlock b = .ok (dm.block b) := by
  rw [readBlock, h.checkBlock_ok hb]

theorem congr {file : Store} (hs : file.size = dm.file.size) (hm : (readHeader file).magic = (readHeader dm.file).magic)
    (hh : (readHeader file).freeListHead = (readHeader dm.file).freeListHead)
    (hl : ∀ b ∈ free, file.read (offset b) 8 = dm.file.read (offset b) 8) :
    StorageOk { dm with file } free where
  size := hs.trans h.size
  fileSize := h.fileSize.trans hs.symm
  pos := h.pos
  bounded := h.bounded
  magic := hm.trans h.magic
  chain := by
    rw [hh]
    exact h.chain.congr hl
  nodup := h.nodup
  inFile := h.inFile

end

end StorageOk

theorem agree_paste (h : b' ≠ b) (hk : k + n ≤ blockSize) :
    ∀ i < blockSize, (f.paste (offset b + k) n buffer).byte (offset b' + i) = f.byte (offset b' + i) := by
  intro i hi
  apply byte_paste_out
  rcases Nat.lt_or_gt_of_ne h with h | h
  · have := offset_add_lt h hi
    omega
  · have := offset_mono h
    omega

theorem read_link_paste (h : b' ≠ b) (hk : k + n ≤ blockSize) :
    (f.paste (offset b + k) n buffer).read (offset b') 8 = f.read (offset b') 8 := by
  apply read_congr
  intro i hi
  exact agree_paste h hk i (Nat.lt_trans hi (by decide))

theorem readHeader_paste (h : 0 < b) : readHeader (f.paste (offset b + k) n buffer) = readHeader f := by
  apply readHeader_congr
  apply read_congr
  intro i hi
  have := offset_ge h
  exact byte_paste_out (by omega)

/-- **A range of a block outside the free list, replaced, changes that block and nothing else.** -/
theorem StorageOk.paste (h : StorageOk dm free) (hp : 0 < b) (hf : b ∉ free) (hk : k + n ≤ blockSize) :
    StorageOk { dm with file := dm.file.paste (offset b + k) n buffer } free := by
  have hh : readHeader (dm.file.paste (offset b + k) n buffer) = readHeader dm.file := readHeader_paste hp
  refine h.congr (size_paste _ _ _ _) (congrArg FileHeader.magic hh) (congrArg FileHeader.freeListHead hh) ?_
  intro b' hb'
  exact read_link_paste (fun e => hf (e ▸ hb')) hk

theorem StorageOk.writeBlock_ok (h : StorageOk dm free) (hb : b < dm.blockCount) (hp : 0 < b) (hf : b ∉ free) :
    ∃ dm', dm.writeBlock b p = .ok dm' ∧ dm'.blockCount = dm.blockCount ∧ StorageOk dm' free ∧
      Page.Agree (dm'.block b) p ∧ ∀ b', b' ≠ b → Page.Agree (dm'.block b') (dm.block b') := by
  refine ⟨{ dm with file := dm.file.paste (offset b) blockSize p }, ?_, rfl, ?_, ?_, ?_⟩
  · rw [writeBlock, h.checkBlock_ok hb]
  · have hs : StorageOk { dm with file := dm.file.paste (offset b + 0) blockSize p } free := h.paste hp hf (by omega)
    rwa [Nat.add_zero] at hs
  · intro i hi
    exact byte_paste_in hi
  · intro b' hne
    have hs : ∀ i < blockSize, (dm.file.paste (offset b + 0) blockSize p).byte (offset b' + i)
        = dm.file.byte (offset b' + i) := agree_paste hne (by omega)
    rwa [Nat.add_zero] at hs

/-! ## Header writes, the free list's two ends, and growth -/

theorem byte_header_write {off : Nat} {bs : Bytes} (hb : 0 < b) (h : off + bs.length ≤ headerSize) :
    (f.write off bs).byte (offset b + i) = f.byte (offset b + i) := by
  have := offset_ge hb
  exact byte_paste_out (by omega)

theorem block_writeHeader (hb : 0 < b) : ((writeHeader header).apply f).byte (offset b + i) = f.byte (offset b + i) :=
  byte_header_write hb (by rw [length_toBytes]; omega)

theorem read_link_writeHeader (hb : 0 < b) : ((writeHeader header).apply f).read (offset b) 8 = f.read (offset b) 8 :=
  read_congr fun _ _ => block_writeHeader hb

theorem size_writeHeader (f : Store) (header : FileHeader) : ((writeHeader header).apply f).size = f.size := rfl

theorem StorageOk.writeHeader {free' : List Nat} (h : StorageOk dm free) (hm : header.magic = magicNumber)
    (hc : FreeChain dm.file header.freeListHead free') (hn : free'.Nodup) (hi : ∀ b ∈ free', 0 < b ∧ b < dm.blockCount) :
    StorageOk { dm with file := (writeHeader header).apply dm.file } free' where
  size := (size_writeHeader _ _).trans h.size
  fileSize := h.fileSize.trans (size_writeHeader _ _).symm
  pos := h.pos
  bounded := h.bounded
  magic := by
    rw [readHeader_writeHeader, hm]
  chain := by
    rw [readHeader_writeHeader]
    exact hc.congr fun b hb => read_link_writeHeader (hi b hb).1
  nodup := hn
  inFile := hi

@[simp] theorem magic_updateChecksum (h : FileHeader) : h.updateChecksum.magic = h.magic := rfl
@[simp] theorem freeListHead_updateChecksum (h : FileHeader) : h.updateChecksum.freeListHead = h.freeListHead := rfl

theorem DiskManager.after_writeHeader (dm : DiskManager) (header : FileHeader) (r : Except StorageError Unit) :
    dm.after (dm.call [writeHeader header] r)
      = { dm with file := (writeHeader header).apply dm.file } := rfl

theorem StorageOk.sync (h : StorageOk dm free) : StorageOk (dm.after dm.sync) free ∧
    (dm.after dm.sync).blockCount = dm.blockCount ∧
      ∀ b, 0 < b → Page.Agree ((dm.after dm.sync).block b) (dm.block b) := by
  rw [DiskManager.sync]
  have hm : (readHeader dm.file).updateChecksum.magic = magicNumber := by rw [magic_updateChecksum, h.magic]
  have hc : FreeChain dm.file (readHeader dm.file).updateChecksum.freeListHead free := by
    rw [freeListHead_updateChecksum]
    exact h.chain
  generalize (readHeader dm.file).updateChecksum = header at hm hc
  rw [after_writeHeader]
  exact ⟨h.writeHeader hm hc h.nodup h.inFile, rfl, fun _ hb _ _ => block_writeHeader hb⟩

/-- **A freed block becomes the head of the free list; every other block but the header's is kept.** -/
theorem StorageOk.freeBlock (h : StorageOk dm free) (hp : 0 < b) (hb : b < dm.blockCount) (hf : b ∉ free) :
    (dm.freeBlock b).result = .ok () ∧ StorageOk (dm.after (dm.freeBlock b)) (b :: free) ∧
      (dm.after (dm.freeBlock b)).blockCount = dm.blockCount ∧
      ∀ b', 0 < b' → b' ≠ b → Page.Agree ((dm.after (dm.freeBlock b)).block b') (dm.block b') := by
  have hn0 : ¬b = 0 := by omega
  have hnc : ¬dm.blockCount ≤ b := by omega
  have hsize : ¬dm.fileSize < offset b + 8 := by
    have := h.block_end hb
    have : 8 ≤ blockSize := by decide
    omega
  have hmagic : ¬(readHeader dm.file).magic ≠ magicNumber := not_not.2 h.magic
  obtain ⟨header, e, hm, hh⟩ : ∃ header : FileHeader,
      dm.freeBlock b = dm.call [.write (offset b) (leBytes 8 (readHeader dm.file).freeListHead.toNat),
        DiskManager.writeHeader header] (.ok ()) ∧
      header.magic
        = (readHeader (dm.file.write (offset b) (leBytes 8 (readHeader dm.file).freeListHead.toNat))).magic ∧
      header.freeListHead = swizzled b := by
    rw [DiskManager.freeBlock, if_neg hn0, if_neg hnc]
    simp only [if_neg hmagic, if_neg hsize]
    exact ⟨_, rfl, magic_updateChecksum _, freeListHead_updateChecksum _⟩
  generalize hlink : leBytes 8 (readHeader dm.file).freeListHead.toNat = link at e hm
  have hlen : link.length = 8 := by rw [← hlink, length_leBytes]
  have hpaste : dm.file.write (offset b) link = dm.file.paste (offset b + 0) 8 (fun i => link.getD i 0) := by
    rw [write, hlen, Nat.add_zero]
  have hfree : StorageOk { dm with file := dm.file.write (offset b) link } free := by
    rw [hpaste]
    exact h.paste hp hf (by decide)
  have hw : dm.after (dm.call [.write (offset b) link, DiskManager.writeHeader header] (.ok ()))
      = { dm with file := (DiskManager.writeHeader header).apply (dm.file.write (offset b) link) } := rfl
  rw [e, hw]
  refine ⟨rfl, ?_, rfl, ?_⟩
  · refine hfree.writeHeader (hm.trans hfree.magic) ?_ (nodup_cons.2 ⟨hf, h.nodup⟩) ?_
    · rw [hh]
      refine .cons hp (Nat.lt_of_lt_of_le hb h.bounded) ?_ (h.chain.congr ?_)
      · apply u64At_of_take
        have := read_write dm.file (offset b) link
        rw [hlen] at this
        rw [this, hlink, drop_zero, ← hlen, take_length]
      · intro b' hb'
        show (dm.file.write (offset b) link).read (offset b') 8 = _
        rw [hpaste]
        exact read_link_paste (fun e => hf (e ▸ hb')) (by decide)
    · intro b' hb'
      rcases mem_cons.1 hb' with rfl | hb'
      · exact ⟨hp, hb⟩
      · exact h.inFile b' hb'
  · intro b' hp' hne i hi
    have h1 : (dm.file.write (offset b) link).byte (offset b' + i) = dm.file.byte (offset b' + i) := by
      rw [hpaste]
      exact agree_paste hne (by decide) i hi
    show ((DiskManager.writeHeader header).apply (dm.file.write (offset b) link)).byte (offset b' + i) = _
    rw [block_writeHeader hp', h1]
    rfl

theorem FreeChain.head_eq_zero (h : FreeChain f head []) : head = 0 := by
  cases h
  rfl

/-- The file after a block has been appended: grown, its first bytes written, the count persisted. -/
def extended (f : Store) (count : Nat) : Store :=
  (persistHeaderBlockCount (count + 1)).apply
    ((f.setLen ((count + 1) * blockSize)).write (offset count) (List.replicate 8 0))

theorem byte_extended (hs : f.size = count * blockSize) (hp : 0 < b) (hb : b < count) (hi : i < blockSize) :
    (extended f count).byte (offset b + i) = f.byte (offset b + i) := by
  have hlt : offset b + i < f.size := by
    rw [hs]
    exact offset_add_lt hb hi
  have h8 : (replicate 8 (0 : UInt8)).length = 8 := rfl
  unfold extended persistHeaderBlockCount Write.apply
  rw [byte_header_write hp (by rw [length_leBytes]; decide)]
  have hlow : offset b + i < offset count := offset_add_lt hb hi
  rw [write, byte_paste_out (.inl hlow)]
  simp only [setLen, if_pos hlt]

theorem readHeader_extended (hs : f.size = count * blockSize) (hp : 0 < count) :
    ∃ n, readHeader (extended f count) = { readHeader f with blockCount := n } := by
  obtain ⟨n, hn⟩ := readHeader_persist
    ((f.setLen ((count + 1) * blockSize)).write (offset count) (replicate 8 0)) (count + 1)
  refine ⟨n, ?_⟩
  have e : readHeader ((f.setLen ((count + 1) * blockSize)).write (offset count) (replicate 8 0)) = readHeader f := by
    apply readHeader_congr
    rw [read_write_frame (.inl (by have := offset_ge hp; omega))]
    apply read_setLen
    have : offset count = f.size := hs.symm
    have := offset_ge hp
    omega
  rw [extended, hn, e]

theorem StorageOk.extend (h : StorageOk dm []) (hmax : dm.blockCount < maxBlockCount) :
    StorageOk ⟨extended dm.file dm.blockCount, (dm.blockCount + 1) * blockSize, dm.blockCount + 1⟩ [] := by
  obtain ⟨n, hn⟩ := readHeader_extended h.size h.pos
  have hhead := h.chain.head_eq_zero
  refine ⟨rfl, rfl, Nat.succ_pos _, hmax, ?_, ?_, nodup_nil, by simp⟩
  · rw [hn]
    exact h.magic
  · rw [hn]
    rw [hhead]
    exact .nil

/-- What `allocate_block` did: it refused, popped the free list, or appended a block. -/
inductive Allocated (dm : DiskManager) (free : List Nat) : Except StorageError Nat → DiskManager → List Nat → Prop
  | refused (e : StorageError) : free = [] → maxBlockCount ≤ dm.blockCount → Allocated dm free (.error e) dm free
  | popped {b : Nat} {rest : List Nat} {dm' : DiskManager} : free = b :: rest → dm'.blockCount = dm.blockCount →
      (∀ b', 0 < b' → Page.Agree (dm'.block b') (dm.block b')) → Allocated dm free (.ok b) dm' rest
  | appended {dm' : DiskManager} : free = [] → dm'.blockCount = dm.blockCount + 1 →
      (∀ b', 0 < b' → b' < dm.blockCount → Page.Agree (dm'.block b') (dm.block b')) →
      Allocated dm free (.ok dm.blockCount) dm' []

/-- **An allocated block comes from the free list or is new, and no other block changes.** -/
theorem StorageOk.allocateBlock (h : StorageOk dm free) : ∃ free', StorageOk (dm.after dm.allocateBlock) free' ∧
      Allocated dm free dm.allocateBlock.result (dm.after dm.allocateBlock) free' := by
  have hc := h.chain
  rw [DiskManager.allocateBlock]
  simp only [if_pos h.magic]
  cases free with
  | nil =>
    rw [if_neg (not_not.2 hc.head_eq_zero)]
    split
    · rename_i hmax
      exact ⟨[], h, .refused _ rfl hmax⟩
    · rename_i hmax
      have hgrow : dm.file.size < (dm.blockCount + 1) * blockSize := by
        rw [h.size, Nat.succ_mul]
        exact Nat.lt_add_of_pos_right (by decide)
      have hfs : max dm.fileSize (max dm.file.size ((dm.blockCount + 1) * blockSize)) = (dm.blockCount + 1) * blockSize := by
        rw [h.fileSize]
        omega
      rw [if_pos hgrow, hfs]
      refine ⟨[], h.extend (by omega), .appended rfl rfl ?_⟩
      intro b' hp' hb' i hi
      exact byte_extended h.size hp' hb' hi
  | cons b rest =>
    have hb := h.inFile b (by simp)
    generalize hhead : (readHeader dm.file).freeListHead = head at hc
    cases hc with
    | cons hp hm hn hrest =>
      rename_i next
      rw [if_pos (swizzled_ne_zero hm hp), swizzled_shift hm]
      have hnext : dm.readFreeBlockNext b = .ok next := by
        have hsize : ¬dm.fileSize < offset b + 8 := by
          have := h.block_end hb.2
          have : 8 ≤ blockSize := by decide
          omega
        rw [readFreeBlockNext, if_neg hsize, hn]
      rw [hnext]
      have hnodup := nodup_cons.1 h.nodup
      refine ⟨rest, ?_, .popped rfl rfl ?_⟩
      · exact h.writeHeader h.magic hrest hnodup.2 fun b' hb' => h.inFile b' (by simp [hb'])
      · intro b' hp' i hi
        exact block_writeHeader hp'

theorem storageOk_create : StorageOk .create [] := by
  have hh : ∃ f : Store, create.file = (writeHeader new.updateChecksum).apply f :=
    ⟨_, rfl⟩
  obtain ⟨f, hf⟩ := hh
  refine ⟨rfl, rfl, by decide, by decide, ?_, ?_, nodup_nil, by simp⟩
  · rw [hf, readHeader_writeHeader]
    rfl
  · rw [hf, readHeader_writeHeader, freeListHead_updateChecksum]
    exact .nil

end Dictenstein.Disk
