import Mathlib.Data.Finset.Card
import Mathlib.Order.Bounds.Basic
/-!
# Frontier — the contiguous frontier of marked numbers

Numbers are marked in any order; the frontier is the largest number up to which all are marked.  It is kept as a counter
and the set of numbers marked ahead of it: a mark enters the set, and the counter then advances over every successor it
finds there (`drain`).
-/

structure Frontier where
  cur : Nat
  pending : Finset Nat
deriving DecidableEq

namespace Frontier

open Finset

/-- Advance over the waiting successors, at most `fuel` of them. -/
def drain : Nat → Frontier → Frontier
  | 0, f => f
  | fuel + 1, f =>
    if f.cur + 1 ∈ f.pending then drain fuel ⟨f.cur + 1, f.pending.erase (f.cur + 1)⟩ else f

variable (n : Nat)

variable (f : Frontier)

/-- Mark a number: it waits, and the counter advances as far as it can; every advance takes one number off the set. -/
def mark : Frontier :=
  drain (insert n f.pending).card ⟨f.cur, insert n f.pending⟩

def Covered (n : Nat) : Prop := n ≤ f.cur ∨ n ∈ f.pending

def Settled : Prop := f.cur + 1 ∉ f.pending

theorem covered_drain : ∀ (fuel : Nat) (f : Frontier) (n : Nat), (drain fuel f).Covered n ↔ f.Covered n
  | 0, _, _ => Iff.rfl
  | fuel + 1, f, n => by
    unfold drain
    split
    · rename_i hm
      rw [covered_drain fuel]
      simp only [Covered, mem_erase]
      constructor
      · rintro (h | ⟨-, h⟩)
        · rcases Nat.lt_or_ge f.cur n with hlt | hge
          · right
            rwa [show n = f.cur + 1 by omega]
          · exact Or.inl hge
        · exact Or.inr h
      · rintro (h | h)
        · exact Or.inl (by omega)
        · by_cases hn : n = f.cur + 1
          · exact Or.inl (by omega)
          · exact Or.inr ⟨hn, h⟩
    · exact Iff.rfl

theorem cur_le_drain : ∀ (fuel : Nat) (f : Frontier), f.cur ≤ (drain fuel f).cur
  | 0, _ => Nat.le_refl _
  | fuel + 1, f => by
    unfold drain
    split
    · have h := cur_le_drain fuel ⟨f.cur + 1, f.pending.erase (f.cur + 1)⟩
      simp only at h
      omega
    · exact le_rfl

theorem settled_drain : ∀ (fuel : Nat) (f : Frontier), f.pending.card ≤ fuel → (drain fuel f).Settled
  | 0, f, h => by
    have he : f.pending = ∅ := card_eq_zero.1 (by omega)
    simp [drain, Settled, he]
  | fuel + 1, f, h => by
    unfold drain
    split
    · rename_i hm
      apply settled_drain fuel _
      have hpos : 0 < f.pending.card := card_pos.2 ⟨_, hm⟩
      simp only [card_erase_of_mem hm]
      omega
    · assumption

theorem pending_drain_subset : ∀ (fuel : Nat) (f : Frontier), (drain fuel f).pending ⊆ f.pending
  | 0, _ => fun _ h => h
  | fuel + 1, f => by
    unfold drain
    split
    · exact fun n h => mem_of_mem_erase (pending_drain_subset fuel _ h)
    · exact fun _ h => h

theorem covered_mark (m : Nat) : (f.mark n).Covered m ↔ m = n ∨ f.Covered m := by
  unfold mark
  rw [covered_drain]
  simp only [Covered, mem_insert]
  tauto

theorem cur_le_mark : f.cur ≤ (f.mark n).cur :=
  cur_le_drain _ ⟨f.cur, insert n f.pending⟩

theorem settled_mark : (f.mark n).Settled := settled_drain _ _ le_rfl

theorem mem_pending_mark {n m : Nat} {f : Frontier} (h : m ∈ (f.mark n).pending) : m = n ∨ m ∈ f.pending :=
  mem_insert.1 (pending_drain_subset _ _ h)

def Ahead : Prop := ∀ n ∈ f.pending, f.cur < n

theorem ahead_drain : ∀ (fuel : Nat) {f : Frontier}, f.Ahead → (drain fuel f).Ahead
  | 0, _, h => h
  | fuel + 1, f, h => by
    unfold drain
    split
    · refine ahead_drain fuel fun n hn => ?_
      obtain ⟨hne, hn⟩ := mem_erase.1 hn
      have hlt := h n hn
      simp only at hne ⊢
      omega
    · exact h

theorem ahead_mark {n : Nat} {f : Frontier} (h : f.Ahead) (hn : f.cur < n) : (f.mark n).Ahead := by
  refine ahead_drain _ fun m hm => ?_
  obtain rfl | hm := mem_insert.1 hm
  · exact hn
  · exact h m hm

section
variable {f : Frontier} {b : Nat} {S : Nat → Prop}

/-- **The counter is the largest number up to which everything above the base is marked.** -/
theorem isGreatest_cur (hb : b ≤ f.cur) (hs : f.Settled) (hc : ∀ n, b < n → (f.Covered n ↔ S n)) :
    IsGreatest {l | b ≤ l ∧ ∀ n, b < n → n ≤ l → S n} f.cur := by
  refine ⟨⟨hb, fun n hn hle => (hc n hn).1 (.inl hle)⟩, fun l hl => ?_⟩
  by_contra hlt
  have hnext := (hc (f.cur + 1) (by omega)).2 (hl.2 (f.cur + 1) (by omega) (by omega))
  exact hnext.elim (fun h => absurd h (by omega)) hs

theorem mem_pending_iff (hb : b ≤ f.cur) (ha : f.Ahead) (hc : ∀ n, b < n → (f.Covered n ↔ S n)) {n : Nat} :
    n ∈ f.pending ↔ S n ∧ f.cur < n := by
  constructor
  · intro hn
    have hlt := ha n hn
    exact ⟨(hc n (by omega)).1 (.inr hn), hlt⟩
  · rintro ⟨hS, hlt⟩
    exact ((hc n (by omega)).2 hS).resolve_left (by omega)

end

end Frontier
