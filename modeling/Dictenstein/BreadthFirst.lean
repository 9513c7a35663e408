import Mathlib.Data.List.Basic
/-!
# BreadthFirst — searches with a queue

A search takes the first of its queue and appends the children of it.  The visited ones and the queue are then always the
root followed by the children of the visited ones, in order (`Queued`). -/
namespace BreadthFirst

open List

variable {α : Type} {kids kids' : α → List α} {root x : α} {visited queue all : List α}

def Queued (kids : α → List α) (root : α) (visited queue : List α) : Prop :=
  visited ++ queue = root :: visited.flatMap kids

namespace Queued

theorem start : Queued kids root [] [root] := rfl

theorem step (h : Queued kids root visited (x :: queue)) : Queued kids root (visited ++ [x]) (queue ++ kids x) := by
  rw [Queued] at *
  calc visited ++ [x] ++ (queue ++ kids x) = (visited ++ x :: queue) ++ kids x := by simp
    _ = root :: (visited ++ [x]).flatMap kids := by rw [h]; simp

section
variable (h : Queued kids root visited queue)
include h

theorem congr (hkids : ∀ y ∈ visited, kids' y = kids y) : Queued kids' root visited queue := by
  rw [Queued] at *
  rw [h, flatMap_congr hkids]

theorem mem_iff {y : α} : y ∈ visited ++ queue ↔ y = root ∨ ∃ z ∈ visited, y ∈ kids z := by
  rw [h, mem_cons, mem_flatMap]

theorem within (hall : Queued kids root all []) (hv : visited <+: all) : visited ++ queue <+: all := by
  obtain ⟨rest, rfl⟩ := hv
  refine ⟨rest.flatMap kids, ?_⟩
  rw [Queued, append_nil, flatMap_append] at hall
  rw [h, hall, cons_append]

end

section
variable {rank : α → Nat} (hrank : ∀ y, ∀ z ∈ kids y, rank y < rank z)
include hrank

theorem induct {P : α → Prop} (h : Queued kids root visited queue) (hroot : P root)
    (hkid : ∀ y ∈ visited, P y → ∀ z ∈ kids y, P z) : ∀ y ∈ visited ++ queue, P y := by
  intro y hy
  induction hn : rank y using Nat.strongRecOn generalizing y with
  | _ n ih =>
    rcases h.mem_iff.1 hy with rfl | ⟨z, hz, hyz⟩
    · exact hroot
    · exact hkid z hz (ih (rank z) (hn ▸ hrank z y hyz) z (mem_append_left _ hz) rfl) y hyz

theorem complete (h : Queued kids root visited []) (hall : Queued kids root all []) (hv : visited <+: all) :
    visited = all := by
  obtain ⟨rest, rfl⟩ := hv
  -- the rest consists of its own children, so it has no lowest rank
  have hrest : rest = rest.flatMap kids := by
    rw [Queued, append_nil] at h hall
    rw [flatMap_append, ← cons_append, ← h] at hall
    exact append_cancel_left hall
  suffices hnone : ∀ n, ∀ y ∈ rest, rank y ≠ n by
    cases rest with
    | nil => exact (append_nil visited).symm
    | cons y rest => exact absurd rfl (hnone (rank y) y mem_cons_self)
  intro n
  induction n using Nat.strongRecOn with
  | _ n ih =>
    intro y hy hn
    rw [hrest, mem_flatMap] at hy
    obtain ⟨z, hz, hyz⟩ := hy
    exact ih (rank z) (hn ▸ hrank z y hyz) z hz rfl

end
end Queued
end BreadthFirst
