import Dictenstein.Wire
/-!
# ByteStore — byte-addressed storage: reads, writes and growth

A store is a size and a byte at every offset.  A protocol over a store is a list of `Write`s, and a process that is killed
leaves what a first part of the list makes of the store (`applyAll` of a `take`).
-/
namespace ByteStore

open List

open Wire (Bytes leBytes leVal length_leBytes)

structure Store where
  size : Nat
  byte : Nat → UInt8

namespace Store

variable (f : Store)

variable (off n : Nat)

def read : Bytes := (List.range n).map fun i => f.byte (off + i)

def paste (buffer : Nat → UInt8) : Store :=
  { f with byte := fun i => if off ≤ i ∧ i < off + n then buffer (i - off) else f.byte i }

def write (bs : Bytes) : Store := f.paste off bs.length fun i => bs.getD i 0

def setLen : Store := { size := n, byte := fun i => if i < f.size then f.byte i else 0 }

@[simp] theorem size_paste (buffer : Nat → UInt8) : (f.paste off n buffer).size = f.size := rfl
@[simp] theorem length_read : (f.read off n).length = n := by simp [read]

theorem getElem?_read (off n i : Nat) : (f.read off n)[i]? = if i < n then some (f.byte (off + i)) else none := by
  by_cases h : i < n
  · simp [read, h]
  · simp [read, h]

variable {off n i off' k m : Nat} {f : Store} {buffer : Nat → UInt8} {bs : Bytes}

theorem byte_paste_out (h : i < off ∨ off + n ≤ i) : (f.paste off n buffer).byte i = f.byte i := by
  have hn : ¬(off ≤ i ∧ i < off + n) := by omega
  simp only [paste, if_neg hn]

theorem byte_paste_in (h : i < n) : (f.paste off n buffer).byte (off + i) = buffer i := by
  have hi : off ≤ off + i ∧ off + i < off + n := by omega
  simp only [paste, if_pos hi, Nat.add_sub_cancel_left]

theorem read_congr {g : Store} (h : ∀ i < n, f.byte (off + i) = g.byte (off' + i)) : f.read off n = g.read off' n := by
  unfold read
  apply map_congr_left
  intro i hi
  exact h i (mem_range.1 hi)

theorem read_write_frame (h : off + n ≤ off' ∨ off' + bs.length ≤ off) : (f.write off' bs).read off n = f.read off n :=
  read_congr fun i hi => byte_paste_out (by omega)

theorem read_write_within (h : k + n ≤ bs.length) : (f.write off bs).read (off + k) n = (bs.drop k).take n := by
  apply ext_getElem?
  intro i
  rw [getElem?_read, getElem?_take, getElem?_drop]
  by_cases hi : i < n
  · have hk : k + i < bs.length := by omega
    rw [if_pos hi, if_pos hi, Nat.add_assoc, write, byte_paste_in hk, getElem?_eq_getElem hk]
    simp [List.getD, hk]
  · rw [if_neg hi, if_neg hi]

theorem read_write (f : Store) (off : Nat) (bs : Bytes) : (f.write off bs).read off bs.length = bs := by
  have h : (f.write off bs).read (off + 0) bs.length = (bs.drop 0).take bs.length := read_write_within (by omega)
  simpa using h

theorem read_within (f : Store) (h : k + n ≤ m) : ((f.read off m).drop k).take n = f.read (off + k) n := by
  apply ext_getElem?
  intro i
  rw [getElem?_take, getElem?_drop, getElem?_read, getElem?_read]
  by_cases hi : i < n
  · have hm : k + i < m := by omega
    rw [if_pos hi, if_pos hi, if_pos hm, Nat.add_assoc]
  · rw [if_neg hi, if_neg hi]

theorem read_setLen (h : off + n ≤ f.size) : (f.setLen m).read off n = f.read off n := by
  apply read_congr
  intro i hi
  have hs : off + i < f.size := by omega
  simp only [setLen, if_pos hs]

end Store

/-! ## Lists of writes -/

inductive Write where
  | setLen (n : Nat)
  | write (off : Nat) (bs : Bytes)
deriving DecidableEq, Repr

def Write.apply (f : Store) : Write → Store
  | .setLen n => f.setLen n
  | .write off bs => f.write off bs

def applyAll (f : Store) (ws : List Write) : Store := ws.foldl Write.apply f

end ByteStore
