import Dictenstein.ArenaPage
import Dictenstein.WalFrame
/-!
# CharArena — an arena page with checksums, and a crash in the middle of writing its new slots

`char/arena.rs`, `CharNodeArena`, and `write_dirty_slots_for_arena` of `char/arena_manager.rs`.  The page is laid out as in
`ArenaPage`; its header has a checksum of itself and one of the records.
-/
namespace Dictenstein.CharArena

open Wire ByteStore List Store
open Disk (StorageError blockSize)
open Arena
open Wal (crc32)

def arenaMagic : Nat := 0x414E524152414843
def arenaMagicV2 : Nat := 0x0032564152414843
def arenaVersionV3 : Nat := 3

structure ArenaHeader where
  magic : Nat
  version : Nat
  flags : Nat
  nodeCount : Nat
  freeOffset : Nat
  directoryStart : Nat
  headerChecksum : Nat
  dataChecksum : Nat
  reserved : Bytes
deriving DecidableEq, Repr

namespace ArenaHeader

def new (version size : Nat) : ArenaHeader :=
  { magic := arenaMagic, version, flags := 0, nodeCount := 0, freeOffset := headerSize, directoryStart := size,
    headerChecksum := 0, dataChecksum := 0, reserved := List.replicate 24 0 }

variable (h : ArenaHeader)

-- the part that the header's checksum is of
def checkedBytes : Bytes :=
  leBytes 8 h.magic ++ leBytes 2 h.version ++ leBytes 2 h.flags ++ leBytes 4 h.nodeCount ++ leBytes 4 h.freeOffset
    ++ leBytes 4 h.directoryStart

def toBytes : Bytes :=
  h.checkedBytes ++ leBytes 4 h.headerChecksum ++ leBytes 4 h.dataChecksum ++ h.reserved ++ List.replicate 8 0

def fromBytes (data : Store) : Except StorageError ArenaHeader :=
  if data.size < headerSize then .error (.corruptedFile "Arena header too small")
  else
    let magic := leVal (data.read 0 8)
    if magic ≠ arenaMagic ∧ magic ≠ arenaMagicV2 then
      .error (.corruptedFile ("Invalid arena magic: expected " ++ hex arenaMagic ++ " or "
        ++ hex arenaMagicV2 ++ ", got " ++ hex magic))
    else
      let version := leVal (data.read 8 2)
      if version ≠ 1 ∧ version ≠ 2 ∧ version ≠ arenaVersionV3 then
        .error (.corruptedFile ("Unsupported arena version: " ++ toString version))
      else
        .ok { magic, version, flags := leVal (data.read 10 2), nodeCount := leVal (data.read 12 4),
              freeOffset := leVal (data.read 16 4), directoryStart := leVal (data.read 20 4),
              headerChecksum := leVal (data.read 24 4),
              dataChecksum := if arenaVersionV3 ≤ version then leVal (data.read 28 4) else 0
              reserved := data.read 32 24 }

def availableSpace : Nat := h.directoryStart - h.freeOffset

def computeHeaderChecksum : Nat := (crc32 h.checkedBytes).toNat

def computeDataChecksum (data : Store) : Nat :=
  if h.freeOffset ≤ headerSize ∨ data.size < h.freeOffset then 0
  else (crc32 (data.read headerSize (h.freeOffset - headerSize))).toNat

end ArenaHeader

structure CharNodeArena where
  data : Store
  header : ArenaHeader
  blockId : Option Nat
  dirty : Bool
  maxDataOffset : Nat

namespace CharNodeArena

def new (version size : Nat) : CharNodeArena :=
  let header := ArenaHeader.new version size
  { data := ({ size, byte := fun _ => 0 } : Store).write 0 header.toBytes, header, blockId := none, dirty := true
    maxDataOffset := headerSize }

/-- `from_bytes`.  The text of an error has the two checksums as hexadecimal numbers. -/
def fromBytes (data : Store) (blockId : Nat) : Except StorageError CharNodeArena :=
  if data.size < headerSize then .error (.corruptedFile "Arena data too small")
  else match ArenaHeader.fromBytes data with
    | .error e => .error e
    | .ok header =>
      if arenaVersionV3 ≤ header.version ∧ header.headerChecksum ≠ header.computeHeaderChecksum then
        .error (.corruptedFile ("Arena header checksum mismatch: stored=0x"
          ++ String.ofList (Nat.toDigits 16 header.headerChecksum) ++ ", computed=0x"
          ++ String.ofList (Nat.toDigits 16 header.computeHeaderChecksum)))
      else if arenaVersionV3 ≤ header.version ∧ header.dataChecksum ≠ header.computeDataChecksum data then
        .error (.corruptedFile ("Arena data checksum mismatch: stored=0x"
          ++ String.ofList (Nat.toDigits 16 header.dataChecksum) ++ ", computed=0x"
          ++ String.ofList (Nat.toDigits 16 (header.computeDataChecksum data))))
      else .ok { data, header, blockId := some blockId, dirty := false, maxDataOffset := header.freeOffset }

variable (a : CharNodeArena)

def canAllocate (size : Nat) : Bool :=
  decide (size + slotSize + minFreeSpace ≤ a.header.availableSpace)

/-- `allocate`; the arena is unchanged if there is no room. -/
def allocate (data : Bytes) : CharNodeArena :=
  if a.canAllocate data.length then
    let directoryStart := a.header.directoryStart - slotSize
    let slot : SlotEntry := { offset := a.header.freeOffset, len := data.length }
    let header := { a.header with freeOffset := a.header.freeOffset + data.length, directoryStart := directoryStart,
                                  nodeCount := a.header.nodeCount + 1 }
    let written := (a.data.write a.header.freeOffset data).write directoryStart slot.toBytes
    { a with data := written.write 0 header.toBytes, header, dirty := true,
             maxDataOffset := max a.maxDataOffset header.freeOffset }
  else a

variable (slotId : Nat)

def slotOffset : Nat := a.data.size - (slotId + 1) * slotSize

def slotEntry : SlotEntry := SlotEntry.fromBytes (a.data.read (a.slotOffset slotId) slotSize)

def invalidSlot : StorageError :=
  .corruptedFile ("Invalid slot ID " ++ toString slotId ++ " (arena has " ++ toString a.header.nodeCount ++ " nodes)")

def read : Except StorageError Bytes :=
  if a.header.nodeCount ≤ slotId then .error (a.invalidSlot slotId)
  else
    let slot := a.slotEntry slotId
    if a.data.size < slot.offset + slot.len then .error (outsideArena slotId slot)
    else .ok (a.data.read slot.offset slot.len)

def finalize : CharNodeArena := { a with data := a.data.write 0 a.header.toBytes }

def withChecksums (headerChecksum dataChecksum : Nat) : CharNodeArena :=
  let header := { a.header with headerChecksum, dataChecksum }
  { a with header, data := a.data.write 0 header.toBytes }

def finalizeChecksums : CharNodeArena :=
  if arenaVersionV3 ≤ a.finalize.header.version then
    let dataChecksum := a.finalize.header.computeDataChecksum a.finalize.data
    a.finalize.withChecksums (ArenaHeader.computeHeaderChecksum { a.finalize.header with dataChecksum }) dataChecksum
  else a.finalize

def slotRanges : Except StorageError (List (Nat × Nat)) :=
  if a.header.nodeCount ≤ slotId then .error (a.invalidSlot slotId)
  else .ok [((a.slotEntry slotId).offset, (a.slotEntry slotId).len), (a.slotOffset slotId, slotSize)]

/-- The ranges that `write_dirty_slots_for_arena` writes, in its order: the header, then a slot's data and its entry. -/
def dirtyRanges (dirtySlots : List Nat) : Except StorageError (List (Nat × Nat)) :=
  (dirtySlots.mapM a.slotRanges).map fun ranges => (0, headerSize) :: ranges.flatten

end CharNodeArena

/-! ## A crash -/

/-- What the writes of `ranges` that are kept leave of a block; they are parts of the arena's bytes. -/
def crashed (block source : Store) (ranges : List (Nat × Nat)) (keep : Nat → Bool) : Store :=
  applyAll block (((ranges.zipIdx.filter fun e => keep e.2).map Prod.fst).map fun r => .write r.1 (source.read r.1 r.2))

theorem size_write (f : Store) (off : Nat) (bs : Bytes) : (f.write off bs).size = f.size := size_paste _ _ _ _

theorem byte_copies (source : Store) (rs : List (Nat × Nat)) (i : Nat) : ∀ f : Store,
    (applyAll f (rs.map fun r => .write r.1 (source.read r.1 r.2))).byte i =
        (if ∃ r ∈ rs, r.1 ≤ i ∧ i < r.1 + r.2 then source.byte i else f.byte i) ∧
      (applyAll f (rs.map fun r => .write r.1 (source.read r.1 r.2))).size = f.size := by
  induction rs with
  | nil => exact fun f => ⟨by simp [applyAll], rfl⟩
  | cons r rs ih =>
    intro f
    obtain ⟨hbyte, hsize⟩ := ih (f.write r.1 (source.read r.1 r.2))
    refine ⟨?_, hsize⟩
    rw [map_cons, applyAll, foldl_cons]
    refine hbyte.trans ?_
    by_cases hrest : ∃ r ∈ rs, r.1 ≤ i ∧ i < r.1 + r.2
    · rw [if_pos hrest, if_pos (hrest.imp fun r hr => ⟨.tail _ hr.1, hr.2⟩)]
    · rw [if_neg hrest]
      by_cases hr : r.1 ≤ i ∧ i < r.1 + r.2
      · obtain ⟨j, rfl⟩ := Nat.exists_eq_add_of_le hr.1
        rw [if_pos ⟨r, .head _, hr⟩, write, byte_paste_in (by simpa using hr.2)]
        have hj : j < r.2 := by omega
        simp [getD, hj, Store.read]
      · have hnone : ¬ ∃ r' ∈ r :: rs, r'.1 ≤ i ∧ i < r'.1 + r'.2 := by
          rintro ⟨r', hr', hin⟩
          obtain rfl | hr' := mem_cons.1 hr'
          · exact hr hin
          · exact hrest ⟨r', hr', hin⟩
        rw [if_neg hnone, write, byte_paste_out (by simp only [length_read]; omega)]

/-! ## The pages of an arena -/

theorem ArenaHeader.length_toBytes {h : ArenaHeader} (hr : h.reserved.length = 24) : h.toBytes.length = 64 := by
  simp [toBytes, checkedBytes, hr]

/-- The page holds its header, and the records of the directory lie below the free space. -/
structure PageOk (version : Nat) (a : CharNodeArena) : Prop where
  size : a.data.size = blockSize
  header : a.data.read 0 64 = a.header.toBytes
  fixed : a.header = { ArenaHeader.new version blockSize with
    nodeCount := a.header.nodeCount, freeOffset := a.header.freeOffset, directoryStart := a.header.directoryStart,
    headerChecksum := a.header.headerChecksum, dataChecksum := a.header.dataChecksum }
  checksums : a.header.headerChecksum < 256 ^ 4 ∧ a.header.dataChecksum < 256 ^ 4 ∧ (version < 3 → a.header.dataChecksum = 0)
  directory : a.header.directoryStart + 8 * a.header.nodeCount = blockSize
  free : 64 ≤ a.header.freeOffset ∧ a.header.freeOffset ≤ a.header.directoryStart
  slots : ∀ k < a.header.nodeCount, 64 ≤ (a.slotEntry k).offset ∧
    (a.slotEntry k).offset + (a.slotEntry k).len ≤ a.header.freeOffset

/-- The arena `a'` has the records of `a`, and new ones behind them. -/
structure Grows (version : Nat) (a a' : CharNodeArena) : Prop where
  ok : PageOk version a'
  free : a.header.freeOffset ≤ a'.header.freeOffset
  directory : a'.header.directoryStart ≤ a.header.directoryStart
  count : a.header.nodeCount ≤ a'.header.nodeCount
  bytes : ∀ i, 64 ≤ i ∧ i < a.header.freeOffset ∨ a.header.directoryStart ≤ i → a'.data.byte i = a.data.byte i
  fresh : ∀ k, a.header.nodeCount ≤ k → k < a'.header.nodeCount → a.header.freeOffset ≤ (a'.slotEntry k).offset

section
variable {version : Nat} {a a' b : CharNodeArena} {k : Nat}

theorem PageOk.reserved (h : PageOk version a) : a.header.reserved.length = 24 := by rw [h.fixed]; rfl

theorem PageOk.slotOffset_bounds (h : PageOk version a) (hk : k < a.header.nodeCount) :
    a.header.directoryStart ≤ a.slotOffset k ∧ a.slotOffset k + 8 ≤ blockSize := by
  have := h.directory
  unfold CharNodeArena.slotOffset slotSize
  rw [h.size]
  omega

theorem PageOk.slotEntry_eq (h : PageOk version a) (hs : b.data.size = a.data.size)
    (hb : ∀ i, 64 ≤ i ∧ i < a.header.freeOffset ∨ a.header.directoryStart ≤ i → b.data.byte i = a.data.byte i)
    (hk : k < a.header.nodeCount) : b.slotEntry k = a.slotEntry k := by
  have ho : b.slotOffset k = a.slotOffset k := by rw [CharNodeArena.slotOffset, hs, CharNodeArena.slotOffset]
  rw [CharNodeArena.slotEntry, ho, CharNodeArena.slotEntry]
  exact congrArg _ (read_congr fun i _ => hb _ (.inr ((h.slotOffset_bounds hk).1.trans (Nat.le_add_right _ i))))

theorem Grows.refl (h : PageOk version a) : Grows version a a :=
  ⟨h, le_rfl, le_rfl, le_rfl, fun _ _ => rfl, fun _ hk hk' => absurd hk' (not_lt.2 hk)⟩

theorem Grows.trans (hab : Grows version a a') (hbc : Grows version a' b) : Grows version a b where
  ok := hbc.ok
  free := hab.free.trans hbc.free
  directory := hbc.directory.trans hab.directory
  count := hab.count.trans hbc.count
  bytes i hi := by
    have h₁ := hab.free
    have h₂ := hab.directory
    rw [hbc.bytes i (by omega), hab.bytes i hi]
  fresh k hk hk' := by
    by_cases hold : k < a'.header.nodeCount
    · rw [hab.ok.slotEntry_eq (hbc.ok.size.trans hab.ok.size.symm) hbc.bytes hold]
      exact hab.fresh k hk hold
    · exact hab.free.trans (hbc.fresh k (not_lt.1 hold) hk')

theorem PageOk.new (version : Nat) : PageOk version (.new version blockSize) := by
  have hlen : (ArenaHeader.new version blockSize).toBytes.length = 64 := ArenaHeader.length_toBytes rfl
  have hzero : 0 < 256 ^ 4 := by decide
  refine ⟨rfl, ?_, rfl, ⟨hzero, hzero, fun _ => rfl⟩, rfl, ⟨le_rfl, ?_⟩, fun k hk => absurd hk (Nat.not_lt_zero k)⟩
  · rw [← hlen]
    exact read_write _ 0 _
  · show headerSize ≤ blockSize
    decide

/-- An arena whose bytes below the free space and in the directory are those of `a`, with new slots in between. -/
theorem PageOk.grows (h : PageOk version a) (hsize : b.data.size = a.data.size)
    (hheader : b.data.read 0 64 = b.header.toBytes) (hfixed : b.header = { a.header with
      nodeCount := b.header.nodeCount, freeOffset := b.header.freeOffset, directoryStart := b.header.directoryStart,
      headerChecksum := b.header.headerChecksum, dataChecksum := b.header.dataChecksum })
    (hsums : b.header.headerChecksum < 256 ^ 4 ∧ b.header.dataChecksum < 256 ^ 4 ∧ (version < 3 → b.header.dataChecksum = 0))
    (hdirectory : b.header.directoryStart + 8 * b.header.nodeCount = blockSize ∧
      b.header.directoryStart ≤ a.header.directoryStart)
    (hfree : a.header.freeOffset ≤ b.header.freeOffset ∧ b.header.freeOffset ≤ b.header.directoryStart)
    (hbytes : ∀ i, 64 ≤ i ∧ i < a.header.freeOffset ∨ a.header.directoryStart ≤ i → b.data.byte i = a.data.byte i)
    (hnew : ∀ k, a.header.nodeCount ≤ k → k < b.header.nodeCount → a.header.freeOffset ≤ (b.slotEntry k).offset ∧
      (b.slotEntry k).offset + (b.slotEntry k).len ≤ b.header.freeOffset) : Grows version a b := by
  have hfree' := h.free
  have hdir := h.directory
  refine ⟨⟨hsize.trans h.size, hheader, ?_, hsums, hdirectory.1, by omega, fun k hk => ?_⟩, hfree.1,
    hdirectory.2, by omega, hbytes,
    fun k hk hk' => (hnew k hk hk').1⟩
  · rw [hfixed, h.fixed]
  · by_cases hold : k < a.header.nodeCount
    · have := h.slots k hold
      rw [h.slotEntry_eq hsize hbytes hold]
      omega
    · have := hnew k (not_lt.1 hold) hk
      omega

theorem PageOk.allocate (h : PageOk version a) (data : Bytes) : Grows version a (a.allocate data) := by
  unfold CharNodeArena.allocate
  split
  case isFalse => exact .refl h
  rename_i hcan
  have hspace : data.length + 8 + 64 ≤ a.header.directoryStart - a.header.freeOffset := of_decide_eq_true hcan
  have hfree := h.free
  have hdir := h.directory
  have hbs : blockSize < 256 ^ 4 := by decide
  let header : ArenaHeader := { a.header with freeOffset := a.header.freeOffset + data.length
                                              directoryStart := a.header.directoryStart - 8
                                              nodeCount := a.header.nodeCount + 1 }
  let slot : SlotEntry := ⟨a.header.freeOffset, data.length⟩
  -- the three writes: the record, its entry, the header
  let d := ((a.data.write a.header.freeOffset data).write (a.header.directoryStart - 8) slot.toBytes).write 0 header.toBytes
  have hlen : header.toBytes.length = 64 := ArenaHeader.length_toBytes h.reserved
  have hslen : slot.toBytes.length = 8 := by simp [SlotEntry.toBytes]
  have hentry : SlotEntry.fromBytes slot.toBytes = slot := SlotEntry.fromBytes_toBytes
    (show a.header.freeOffset < _ by omega) (show data.length < _ by omega)
  have hsize : d.size = a.data.size := by simp only [d, size_write]
  refine h.grows (b := ⟨d, header, a.blockId, true, _⟩) hsize ?_ rfl h.checksums
    ⟨show a.header.directoryStart - 8 + 8 * (a.header.nodeCount + 1) = _ by omega, Nat.sub_le _ _⟩
    ⟨Nat.le_add_right _ _, show a.header.freeOffset + data.length ≤ a.header.directoryStart - 8 by omega⟩
    (fun i hi => ?_) fun k hk hk' => ?_
  · rw [← hlen]
    exact read_write _ 0 _
  · show d.byte i = _
    simp only [d, write]
    rw [byte_paste_out (by omega), byte_paste_out (by omega), byte_paste_out (by omega)]
  · have hk : k = a.header.nodeCount := Nat.le_antisymm (Nat.le_of_lt_succ hk') hk
    have hoffset : d.size - (k + 1) * 8 = a.header.directoryStart - 8 := by
      rw [hsize, h.size]
      omega
    have hread : d.read (a.header.directoryStart - 8) 8 = slot.toBytes := by
      rw [read_write_frame (by omega), ← hslen]
      exact read_write _ _ _
    rw [CharNodeArena.slotEntry, CharNodeArena.slotOffset, slotSize, hoffset, hread, hentry]
    exact ⟨le_rfl, le_rfl⟩

theorem PageOk.allocateAll (records : List Bytes) : ∀ {a : CharNodeArena}, PageOk version a →
    Grows version a (records.foldl CharNodeArena.allocate a) := by
  induction records with
  | nil => exact fun h => .refl h
  | cons record records ih =>
    intro a h
    exact (h.allocate record).trans (ih (h.allocate record).ok)

theorem PageOk.withChecksums (h : PageOk version a) {hc dc : Nat} (hhc : hc < 256 ^ 4) (hdc : dc < 256 ^ 4)
    (hzero : version < 3 → dc = 0) : Grows version a (a.withChecksums hc dc) := by
  have hlen : ({ a.header with headerChecksum := hc, dataChecksum := dc } : ArenaHeader).toBytes.length = 64 :=
    ArenaHeader.length_toBytes h.reserved
  have hfree := h.free
  refine h.grows (b := a.withChecksums hc dc) (size_write ..) ?_ rfl ⟨hhc, hdc, hzero⟩
    ⟨h.directory, le_rfl⟩ ⟨le_rfl, hfree.2⟩
    (fun i hi => ?_) fun k hk hk' => absurd hk' (not_lt.2 hk)
  · rw [← hlen]
    exact read_write _ 0 _
  · show (a.data.write 0 _).byte i = _
    rw [write, byte_paste_out (by omega)]

theorem PageOk.version_eq (h : PageOk version a) : a.header.version = version := by rw [h.fixed]; rfl

theorem computeDataChecksum_congr {h h' : ArenaHeader} {f g : Store} (hfree : h'.freeOffset = h.freeOffset)
    (hsize : g.size = f.size) (hbytes : ∀ i, 64 ≤ i → i < h.freeOffset → g.byte i = f.byte i) :
    h'.computeDataChecksum g = h.computeDataChecksum f := by
  unfold ArenaHeader.computeDataChecksum
  rw [hfree, hsize]
  split
  · rfl
  · have h64 : headerSize = 64 := rfl
    have hread : g.read headerSize (h.freeOffset - headerSize) = f.read headerSize (h.freeOffset - headerSize) :=
      read_congr fun i hi => hbytes _ (Nat.le_add_right 64 i) (by omega)
    rw [hread]

theorem crc32_lt (bytes : Bytes) : (crc32 bytes).toNat < 256 ^ 4 := Nat.lt_of_lt_of_eq (UInt32.toNat_lt _) (by decide)

structure Sealed (version : Nat) (a b : CharNodeArena) : Prop where
  grows : Grows version a b
  count : b.header.nodeCount = a.header.nodeCount
  headerSum : 3 ≤ version → b.header.headerChecksum = b.header.computeHeaderChecksum
  dataSum : 3 ≤ version → b.header.dataChecksum = b.header.computeDataChecksum b.data

theorem PageOk.finalizeChecksums (h : PageOk version a) : Sealed version a a.finalizeChecksums := by
  obtain ⟨hhc, hdc, hzero⟩ := h.checksums
  have hfinal : Grows version a a.finalize := h.withChecksums hhc hdc hzero
  have hversion := hfinal.ok.version_eq
  have hcount : a.finalize.header.nodeCount = a.header.nodeCount := rfl
  unfold CharNodeArena.finalizeChecksums
  generalize a.finalize = f at hfinal hversion hcount ⊢
  rw [hversion]
  split
  · rename_i hv
    have hdata : f.header.computeDataChecksum f.data < 256 ^ 4 := by
      unfold ArenaHeader.computeDataChecksum
      split
      · decide
      · exact crc32_lt _
    let sealed := f.withChecksums f.header.computeHeaderChecksum (f.header.computeDataChecksum f.data)
    have hgrows : Grows version f sealed := hfinal.ok.withChecksums (crc32_lt _) hdata fun hlt => absurd hlt (not_lt.2 hv)
    have hdsum : sealed.header.computeDataChecksum sealed.data = f.header.computeDataChecksum f.data :=
      computeDataChecksum_congr rfl (hgrows.ok.size.trans hfinal.ok.size.symm) fun i h64 hi =>
        hgrows.bytes i (.inl ⟨h64, hi⟩)
    exact ⟨hfinal.trans hgrows, hcount, fun _ => rfl, fun _ => hdsum.symm⟩
  · rename_i hv
    exact ⟨hfinal, hcount, fun h3 => absurd h3 hv, fun h3 => absurd h3 hv⟩

/-! ## Reading a block -/

theorem PageOk.header_fromBytes (h : PageOk version a) (hv : 1 ≤ version ∧ version ≤ 3) {data : Store}
    (hs : data.size = blockSize) (hd : data.read 0 64 = a.header.toBytes) : ArenaHeader.fromBytes data = .ok a.header := by
  have hbs : headerSize ≤ blockSize ∧ blockSize < 256 ^ 4 := by decide
  obtain ⟨hhc, hdc, hzero⟩ := h.checksums
  have hdir := h.directory
  have hfree := h.free
  have hmagic : a.header.magic = arenaMagic := by rw [h.fixed]; rfl
  have hversion := h.version_eq
  have hflags : a.header.flags = 0 := by rw [h.fixed]; rfl
  have hfields : leVal (data.read 0 8) = a.header.magic ∧ leVal (data.read 8 2) = a.header.version ∧
      leVal (data.read 10 2) = a.header.flags ∧ leVal (data.read 12 4) = a.header.nodeCount ∧
      leVal (data.read 16 4) = a.header.freeOffset ∧ leVal (data.read 20 4) = a.header.directoryStart ∧
      leVal (data.read 24 4) = a.header.headerChecksum ∧ leVal (data.read 28 4) = a.header.dataChecksum := by
    refine ⟨?_, ?_, ?_, ?_, ?_, ?_, ?_, ?_⟩ <;> apply field hd
    all_goals first
      | omega
      | simp [ArenaHeader.toBytes, ArenaHeader.checkedBytes, drop_append, drop_eq_nil_of_le]; done
      | rw [hmagic]; decide
  obtain ⟨emagic, eversion, eflags, enode, efree, edir, ehc, edc⟩ := hfields
  have eres : data.read 32 24 = a.header.reserved := by
    have hin : ((data.read 0 64).drop 32).take 24 = data.read (0 + 32) 24 := read_within data (by omega)
    rw [zero_add] at hin
    rw [← hin, hd]
    simp [ArenaHeader.toBytes, ArenaHeader.checkedBytes, drop_append, drop_eq_nil_of_le, h.reserved]
  have edc' : (if arenaVersionV3 ≤ a.header.version then a.header.dataChecksum else 0) = a.header.dataChecksum := by
    split
    · rfl
    · rename_i hlt
      exact (hzero (by rw [← hversion]; exact Nat.lt_of_not_le hlt)).symm
  unfold ArenaHeader.fromBytes
  rw [if_neg (by omega)]
  simp only [emagic, eversion, eflags, enode, efree, edir, ehc, edc, eres, edc']
  rw [if_neg (by simp [hmagic]), if_neg (by rw [hversion, arenaVersionV3]; omega)]

/-- **A block with the header of a sealed arena** is accepted exactly if its records have the checksum. -/
theorem Sealed.fromBytes_iff (h : Sealed version b a) (hv : 1 ≤ version ∧ version ≤ 3) {data : Store}
    (hs : data.size = blockSize) (hd : data.read 0 64 = a.header.toBytes) (blockId : Nat) (x : CharNodeArena) :
    CharNodeArena.fromBytes data blockId = .ok x ↔
      (version = 3 → a.header.dataChecksum = a.header.computeDataChecksum data) ∧
        x = ⟨data, a.header, some blockId, false, a.header.freeOffset⟩ := by
  have h64 : headerSize ≤ blockSize := by decide
  have hversion := h.grows.ok.version_eq
  have hheader : ¬ (arenaVersionV3 ≤ a.header.version ∧ a.header.headerChecksum ≠ a.header.computeHeaderChecksum) :=
    fun hbad =>
    hbad.2 (h.headerSum (hversion ▸ hbad.1))
  have hthree : arenaVersionV3 ≤ a.header.version ↔ version = 3 := by rw [hversion, arenaVersionV3]; omega
  unfold CharNodeArena.fromBytes
  rw [if_neg (by omega), h.grows.ok.header_fromBytes hv hs hd]
  simp only
  rw [if_neg hheader]
  simp only [hthree]
  split
  · rename_i hbad
    exact iff_of_false nofun fun hgood => hbad.2 (hgood.1 hbad.1)
  · rename_i hgood
    rw [Except.ok.injEq, eq_comm, and_iff_right_iff_imp.2]
    · intro _ h3
      by_contra hne
      exact hgood ⟨h3, hne⟩

/-! ## What a crash leaves -/

theorem mapM_ok {α β ε : Type} {f : α → Except ε β} {g : α → β} {l : List α} (h : ∀ x ∈ l, f x = .ok (g x)) :
    l.mapM f = .ok (l.map g) := by
  induction l with
  | nil => rfl
  | cons x l ih =>
    rw [mapM_cons, h x (.head _), ih fun y hy => h y (.tail _ hy)]
    rfl

theorem Grows.dirtyRanges (hg : Grows version a a') (h : PageOk version a) : ∃ rest,
    a'.dirtyRanges (List.range' a.header.nodeCount (a'.header.nodeCount - a.header.nodeCount)) =
      .ok ((0, headerSize) :: rest) ∧
      ∀ r ∈ rest, ∀ i, r.1 ≤ i → i < r.1 + r.2 → a.header.freeOffset ≤ i ∧ i < a.header.directoryStart := by
  have hcount := hg.count
  have hslots : ∀ k ∈ range' a.header.nodeCount (a'.header.nodeCount - a.header.nodeCount), a'.slotRanges k =
      .ok [((a'.slotEntry k).offset, (a'.slotEntry k).len), (a'.slotOffset k, slotSize)] := by
    intro k hk
    rw [mem_range'_1] at hk
    exact if_neg (by omega)
  refine ⟨_, by rw [CharNodeArena.dirtyRanges, mapM_ok hslots]; rfl, fun r hr i hlo hhi => ?_⟩
  obtain ⟨ranges, hranges, hr⟩ := mem_flatten.1 hr
  obtain ⟨k, hk, rfl⟩ := mem_map.1 hranges
  rw [mem_range'_1] at hk
  have hk' : k < a'.header.nodeCount := by omega
  have hfresh := hg.fresh k hk.1 hk'
  have hslot := hg.ok.slots k hk'
  have hbounds := hg.ok.slotOffset_bounds hk'
  have hfree := hg.free
  have hfree' := hg.ok.free
  have hdir := hg.directory
  have hoffset : a'.slotOffset k + 8 * (k + 1) = blockSize := by
    have := hg.ok.directory
    unfold CharNodeArena.slotOffset slotSize
    rw [hg.ok.size]
    omega
  have hold := h.directory
  obtain rfl | hr := mem_cons.1 hr
  · simp only at hlo hhi
    omega
  · rw [mem_singleton.1 hr] at hlo hhi
    simp only [slotSize] at hlo hhi
    omega

/-- **What is on disk after the crash**: the old records are, and the header is the new one if it was written. -/
theorem crashed_spec (block source : Store) {rest : List (Nat × Nat)} {free directory : Nat} (keep : Nat → Bool)
    (hrest : ∀ r ∈ rest, ∀ i, r.1 ≤ i → i < r.1 + r.2 → free ≤ i ∧ i < directory) (hfree : 64 ≤ free)
    (hdirectory : 64 ≤ directory) :
    (crashed block source ((0, headerSize) :: rest) keep).size = block.size ∧
    (∀ i, 64 ≤ i ∧ i < free ∨ directory ≤ i → (crashed block source ((0, headerSize) :: rest) keep).byte i = block.byte i) ∧
    (crashed block source ((0, headerSize) :: rest) keep).read 0 64 = (if keep 0 then source else block).read 0 64 := by
  unfold crashed
  generalize hkept : ((((0, headerSize) :: rest).zipIdx.filter fun e => keep e.2).map Prod.fst) = kept
  have hmem : ∀ r ∈ kept, r = (0, headerSize) ∧ keep 0 = true ∨ r ∈ rest := by
    intro r hr
    rw [← hkept] at hr
    obtain ⟨e, he, rfl⟩ := mem_map.1 hr
    obtain ⟨he, hkeep⟩ := mem_filter.1 he
    rw [zipIdx_cons, mem_cons] at he
    obtain rfl | he := he
    · exact .inl ⟨rfl, hkeep⟩
    · exact .inr (fst_mem_of_mem_zipIdx he)
  have hhead : keep 0 = true → (0, headerSize) ∈ kept := by
    intro hkeep
    rw [← hkept]
    simp [hkeep]
  have h64 : headerSize = 64 := rfl
  have hbyte := fun i => (byte_copies source kept i block).1
  refine ⟨(byte_copies source kept 0 block).2, fun i hi => ?_, read_congr fun i hi => ?_⟩
  · rw [hbyte, if_neg]
    rintro ⟨r, hr, hlo, hhi⟩
    obtain ⟨rfl, -⟩ | hr := hmem r hr
    · simp only at hlo hhi
      omega
    · have := hrest r hr i hlo hhi
      omega
  · rw [hbyte]
    cases hkeep : keep 0 with
    | true => rw [if_pos ⟨_, hhead hkeep, by simp only; omega⟩, if_pos rfl]
    | false =>
      rw [if_neg, if_neg (by simp)]
      rintro ⟨r, hr, hlo, hhi⟩
      obtain ⟨-, htrue⟩ | hr := hmem r hr
      · rw [hkeep] at htrue
        cases htrue
      · have := hrest r hr _ hlo hhi
        omega

theorem PageOk.read_eq (h : PageOk version a) {x : CharNodeArena} (hsize : x.data.size = blockSize)
    (hcount : a.header.nodeCount ≤ x.header.nodeCount)
    (hbytes : ∀ i, 64 ≤ i ∧ i < a.header.freeOffset ∨ a.header.directoryStart ≤ i → x.data.byte i = a.data.byte i)
    (hk : k < a.header.nodeCount) : x.read k = a.read k := by
  have hentry := h.slotEntry_eq (hsize.trans h.size.symm) hbytes hk
  have hslot := h.slots k hk
  have hx : ¬ x.header.nodeCount ≤ k := by omega
  have ha : ¬ a.header.nodeCount ≤ k := by omega
  simp only [CharNodeArena.read, if_neg hx, if_neg ha, hentry, hsize, h.size]
  rw [read_congr fun i hi => hbytes _ (.inl ⟨by omega, by omega⟩)]

end

def durableArena (version : Nat) (records : List Bytes) : CharNodeArena :=
  (records.foldl CharNodeArena.allocate (.new version blockSize)).finalizeChecksums

/-- The arena when the records that came then are written slot by slot. -/
def grownArena (version : Nat) (records more : List Bytes) : CharNodeArena :=
  (more.foldl CharNodeArena.allocate (durableArena version records)).finalizeChecksums

/-- **A crash while the new slots are written** keeps the durable arena exactly if the header is not written, or its version
has no checksum of the records, or what is on disk has that checksum. -/
theorem partial_write_survives_iff (format : Fin 3) (records more : List Bytes) (blockId : Nat) (keep : Nat → Bool) :
    ∃ ranges, (grownArena (format + 1) records more).dirtyRanges
        (List.range' (durableArena (format + 1) records).header.nodeCount
          ((grownArena (format + 1) records more).header.nodeCount - (durableArena (format + 1) records).header.nodeCount)) =
        .ok ranges ∧
      ((∃ a, CharNodeArena.fromBytes
          (crashed (durableArena (format + 1) records).data (grownArena (format + 1) records more).data
            ranges keep) blockId = .ok a ∧
          ∀ k < (durableArena (format + 1) records).header.nodeCount,
            a.read k = (durableArena (format + 1) records).read k) ↔
        (keep 0 = true → format.val + 1 = 3 →
          (grownArena (format + 1) records more).header.computeDataChecksum (grownArena (format + 1) records more).data =
            (grownArena (format + 1) records more).header.computeDataChecksum
              (crashed (durableArena (format + 1) records).data (grownArena (format + 1) records more).data
                ranges keep))) := by
  have hv : 1 ≤ format.val + 1 ∧ format.val + 1 ≤ 3 := by omega
  generalize format.val + 1 = version at hv ⊢
  have hempty := (PageOk.new version).allocateAll records
  have hsealed : Sealed version _ (durableArena version records) := hempty.ok.finalizeChecksums
  have hmore := hsealed.grows.ok.allocateAll more
  have hsealed' : Sealed version _ (grownArena version records more) := hmore.ok.finalizeChecksums
  generalize durableArena version records = d at hsealed hmore hsealed' ⊢
  generalize grownArena version records more = g at hsealed' ⊢
  have hok := hsealed.grows.ok
  have hgrows := hmore.trans hsealed'.grows
  obtain ⟨rest, hranges, hrest⟩ := hgrows.dirtyRanges hok
  refine ⟨_, hranges, ?_⟩
  have hfree := hok.free
  obtain ⟨hsize, hbytes, hheader⟩ := crashed_spec d.data g.data keep hrest hfree.1 (hfree.1.trans hfree.2)
  generalize crashed d.data g.data ((0, headerSize) :: rest) keep = disk at hsize hbytes hheader ⊢
  have hsize' : disk.size = blockSize := hsize.trans hok.size
  cases hkeep : keep 0 with
  | false =>
    rw [hkeep, if_neg (by simp), hok.header] at hheader
    refine iff_of_true ⟨_, (hsealed.fromBytes_iff hv hsize' hheader blockId _).2 ⟨fun h3 => ?_, rfl⟩, fun k hk => ?_⟩ nofun
    · rw [hsealed.dataSum (by omega)]
      exact (computeDataChecksum_congr rfl (hsize'.trans hok.size.symm) fun i h64 hi => hbytes i (.inl ⟨h64, hi⟩)).symm
    · exact hok.read_eq hsize' le_rfl hbytes hk
  | true =>
    rw [hkeep, if_pos rfl, hsealed'.grows.ok.header] at hheader
    have hiff := fun x => hsealed'.fromBytes_iff hv hsize' hheader blockId x
    constructor
    · rintro ⟨x, hx, -⟩ - h3
      rw [← ((hiff x).1 hx).1 h3, hsealed'.dataSum (by omega)]
    · intro hsum
      refine ⟨_, (hiff _).2 ⟨fun h3 => ?_, rfl⟩, fun k hk => hok.read_eq hsize' hgrows.count hbytes hk⟩
      rw [hsealed'.dataSum (by omega), hsum rfl h3]

/-- Of the first record of an empty arena only the header is on disk: the block is rejected. -/
theorem header_alone_is_rejected :
    ((grownArena 3 [] [[1]]).dirtyRanges [0]).toOption = some [(0, 64), (64, 1), (262136, 8)] ∧
      (CharNodeArena.fromBytes (crashed (durableArena 3 []).data (grownArena 3 [] [[1]]).data [(0, 64), (64, 1), (262136, 8)]
        fun n => n == 0) 7).toOption.isNone = true := by
  decide +kernel

end Dictenstein.CharArena
