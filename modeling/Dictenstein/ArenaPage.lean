import Dictenstein.DiskBlocks
/-!
# ArenaPage — slotted pages that pack the records of many nodes

Records are appended from the header upwards, and each has an entry of offset and length in a directory that grows downwards
from the end.
-/
namespace Dictenstein.Arena

open Wire ByteStore Disk List

def headerSize : Nat := 64
def slotSize : Nat := 8
def minFreeSpace : Nat := 64

def hex (n : Nat) : String :=
  let digits := String.ofList (Nat.toDigits 16 n)
  String.ofList (List.replicate (16 - digits.length) '0') ++ digits

structure SlotEntry where
  offset : Nat
  len : Nat
deriving DecidableEq, Repr

namespace SlotEntry

def toBytes (e : SlotEntry) : Bytes := leBytes 4 e.offset ++ leBytes 4 e.len
def fromBytes (bytes : Bytes) : SlotEntry := { offset := leVal (bytes.take 4), len := leVal ((bytes.drop 4).take 4) }

end SlotEntry

def outsideArena (slotId : Nat) (slot : SlotEntry) : StorageError :=
  .corruptedFile ("Slot " ++ toString slotId ++ " points outside arena: offset=" ++ toString slot.offset ++ ", len="
    ++ toString slot.len)

theorem field {data : Store} {bytes : Bytes} {m k n v : Nat} (hd : data.read 0 m = bytes) (hk : k + n ≤ m)
    (hf : (bytes.drop k).take n = leBytes n v) (hv : v < 256 ^ n) : leVal (data.read k n) = v := by
  have e : data.read k n = leBytes n v := by
    rw [← hf, ← hd, Store.read_within data hk, Nat.zero_add]
  rw [e, leVal_leBytes, Nat.mod_eq_of_lt hv]

theorem SlotEntry.fromBytes_toBytes {e : SlotEntry} (ho : e.offset < 256 ^ 4) (hl : e.len < 256 ^ 4) :
    SlotEntry.fromBytes e.toBytes = e := by
  obtain ⟨o, l⟩ := e
  simp only [SlotEntry.fromBytes, SlotEntry.toBytes, SlotEntry.mk.injEq]
  constructor
  · rw [take_left' (length_leBytes 4 o), leVal_leBytes, Nat.mod_eq_of_lt ho]
  · rw [drop_left' (length_leBytes 4 o), take_of_length_le (by simp), leVal_leBytes, Nat.mod_eq_of_lt hl]

end Dictenstein.Arena
