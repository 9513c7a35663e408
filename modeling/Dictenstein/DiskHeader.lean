import Dictenstein.ByteStore
/-!
# DiskHeader — the 64-byte header of a trie file and its checksum

`core/disk_manager.rs`, `FileHeader`.  The header is read from and written to the first 64 bytes of block 0 as a whole
(`toBytes`, `fromBytes`), and its checksum is FNV-1a over the fields; the image-coverage field is folded in for files of
version 2 and later only.  The field `_pad1`, written as zero and never read, is left out.
-/
namespace Dictenstein.Disk

open Wire List
open ByteStore (Store)

/-- The storage errors of `PersistentARTrieError` that the disk and buffer managers return. -/
inductive StorageError where
  | invalidMagic (expected found : UInt64)
  | unsupportedVersion (maxSupported found : UInt32)
  | checksumMismatch (blockId : Nat) (expected found : UInt64)
  | corruptedFile (reason : String)
  | invalidBlockId (blockId : Nat) (reason : String)
  | outOfSpace (currentBlocks maxBlocks : Nat)
  | bufferPoolExhausted (pinnedPages totalPages : Nat)
  | internalError (message : String)
deriving DecidableEq, Repr

def magicNumber : UInt64 := 0x5041525400010000
def formatVersion : UInt32 := 2
def headerSize : Nat := 64

structure FileHeader where
  magic : UInt64
  version : UInt32
  flags : UInt32
  rootPtr : UInt64
  blockCount : UInt32
  freeListHead : UInt64
  entryCount : UInt64
  checksum : UInt64
  imageCheckpointLsn : UInt64
deriving DecidableEq, Repr

namespace FileHeader

def new : FileHeader :=
  { magic := magicNumber, version := formatVersion, flags := 0, rootPtr := 0, blockCount := 1, freeListHead := 0,
    entryCount := 0, checksum := 0, imageCheckpointLsn := 0 }

variable (h : FileHeader)

def validate : Except StorageError Unit :=
  if h.magic ≠ magicNumber then .error (.invalidMagic magicNumber h.magic)
  else if formatVersion < h.version then .error (.unsupportedVersion formatVersion h.version)
  else .ok ()

def fnvByte (hash : UInt64) (byte : UInt8) : UInt64 := (hash ^^^ byte.toUInt64) * 0x100000001b3

def computeChecksum : UInt64 :=
  let hash := (leBytes 8 h.magic.toNat ++ leBytes 4 h.version.toNat ++ leBytes 4 h.flags.toNat
    ++ leBytes 8 h.rootPtr.toNat ++ leBytes 4 h.blockCount.toNat ++ leBytes 8 h.freeListHead.toNat
    ++ leBytes 8 h.entryCount.toNat).foldl fnvByte 0xcbf29ce484222325
  if 2 ≤ h.version then (leBytes 8 h.imageCheckpointLsn.toNat).foldl fnvByte hash else hash

def updateChecksum : FileHeader := { h with checksum := h.computeChecksum }

def verifyChecksum : Bool := h.checksum == h.computeChecksum

def toBytes : Bytes :=
  leBytes 8 h.magic.toNat ++ leBytes 4 h.version.toNat ++ leBytes 4 h.flags.toNat ++ leBytes 8 h.rootPtr.toNat
    ++ leBytes 4 h.blockCount.toNat ++ leBytes 4 0 ++ leBytes 8 h.freeListHead.toNat ++ leBytes 8 h.entryCount.toNat
    ++ leBytes 8 h.checksum.toNat ++ leBytes 8 h.imageCheckpointLsn.toNat

variable (bytes : Bytes)

def u64At (off : Nat) : UInt64 := UInt64.ofNat (leVal ((bytes.drop off).take 8))

def u32At (off : Nat) : UInt32 := UInt32.ofNat (leVal ((bytes.drop off).take 4))

def fromBytes : FileHeader :=
  { magic := u64At bytes 0, version := u32At bytes 8, flags := u32At bytes 12, rootPtr := u64At bytes 16,
    blockCount := u32At bytes 24, freeListHead := u64At bytes 32, entryCount := u64At bytes 40,
    checksum := u64At bytes 48, imageCheckpointLsn := u64At bytes 56 }

/-! ## Round trips -/

@[simp] theorem length_toBytes : h.toBytes.length = headerSize := by
  simp [toBytes, headerSize]

theorem u64At_of_take {bytes : Bytes} {off : Nat} (n : UInt64) (h : (bytes.drop off).take 8 = leBytes 8 n.toNat) :
    u64At bytes off = n := by
  unfold u64At
  rw [h, leVal_leBytes, Nat.mod_eq_of_lt (by have := n.toNat_lt; omega)]
  exact UInt64.ofNat_toNat

theorem u32At_of_take {bytes : Bytes} {off : Nat} (n : UInt32) (h : (bytes.drop off).take 4 = leBytes 4 n.toNat) :
    u32At bytes off = n := by
  unfold u32At
  rw [h, leVal_leBytes, Nat.mod_eq_of_lt (by have := n.toNat_lt; omega)]
  exact UInt32.ofNat_toNat

theorem fromBytes_toBytes : fromBytes h.toBytes = h := by
  obtain ⟨magic, version, flags, rootPtr, blockCount, freeListHead, entryCount, checksum, lsn⟩ := h
  simp only [fromBytes, mk.injEq]
  refine ⟨u64At_of_take _ ?_, u32At_of_take _ ?_, u32At_of_take _ ?_, u64At_of_take _ ?_, u32At_of_take _ ?_,
    u64At_of_take _ ?_, u64At_of_take _ ?_, u64At_of_take _ ?_, u64At_of_take _ ?_⟩
  -- every field is the bytes between two fixed offsets of the concatenation
  all_goals simp [toBytes, drop_append, drop_eq_nil_of_le, take_of_length_le]

end FileHeader
end Dictenstein.Disk
