import Dictenstein.BufferInvariant
/-!
# BufferGuards — what the steps of a page guard keep

A write through a guard, the dirty mark of its drop and the release of its lease happen outside the lifecycle lock.  Each
keeps the cache transparent, for the guards of a list (`guardsOn`).
-/
namespace Dictenstein.Buffer

open Disk Function List

/-! ## The guards on a frame -/

def guardsOn (guards : List Guard) (id : FrameId) : List Guard := guards.filter fun g => g.frame = id

theorem guardsOn_append (guards : List Guard) (g : Guard) :
    guardsOn (guards ++ [g]) = update (guardsOn guards) g.frame (guardsOn guards g.frame ++ [g]) := by
  funext id
  by_cases hid : id = g.frame
  · simp [guardsOn, hid]
  · simp [guardsOn, hid, Ne.symm hid]

theorem split_at {α : Type} {l : List α} {i : Nat} {x : α} (h : l[i]? = some x) :
    ∃ l₁ l₂, l = l₁ ++ x :: l₂ ∧ l.eraseIdx i = l₁ ++ l₂ ∧ ∀ y, l.set i y = l₁ ++ y :: l₂ := by
  obtain ⟨hi, rfl⟩ := List.getElem?_eq_some_iff.1 h
  refine ⟨l.take i, l.drop (i + 1), ?_, List.eraseIdx_eq_take_drop_succ l i, fun y => ?_⟩
  · rw [List.getElem_cons_drop, List.take_append_drop]
  · rw [List.set_eq_take_append_cons_drop, if_pos hi]

theorem guardsOn_replace (l₁ l₂ : List Guard) (g : Guard) (m : List Guard) (hm : ∀ x ∈ m, x.frame = g.frame) :
    guardsOn (l₁ ++ (m ++ l₂)) = update (guardsOn (l₁ ++ g :: l₂)) g.frame
      (guardsOn l₁ g.frame ++ (m ++ guardsOn l₂ g.frame)) := by
  funext id
  by_cases hid : id = g.frame
  · subst hid
    have : m.filter (fun x => decide (x.frame = g.frame)) = m := filter_eq_self.2 fun x hx => by simp [hm x hx]
    simp [guardsOn, this]
  · rw [update_of_ne hid]
    have : m.filter (fun x => decide (x.frame = id)) = [] := filter_eq_nil_iff.2 fun x hx => by
      simp [hm x hx, Ne.symm hid]
    simp [guardsOn, this, Ne.symm hid]

theorem guardsOn_self (l₁ l₂ : List Guard) (g : Guard) :
    guardsOn (l₁ ++ g :: l₂) g.frame = guardsOn l₁ g.frame ++ g :: guardsOn l₂ g.frame := by
  simp [guardsOn]

theorem Leases.alone {lease : Nat} {l₁ l₂ : List Guard} {g : Guard} (h : Leases lease (l₁ ++ g :: l₂))
    (hw : g.write = true) : lease = writeLease ∧ l₁ = [] ∧ l₂ = [] := by
  cases h with
  | shared hr _ _ =>
    rw [hr g (by simp)] at hw
    cases hw
  | exclusive g' he _ hl =>
    refine ⟨hl, ?_⟩
    cases l₁ with
    | nil => exact ⟨rfl, (List.cons.inj he).2⟩
    | cons a l₁ => simp at he

/-! ## Guard steps -/

namespace PoolOk

variable {fresh : Nat → Prop} {bm : BufferManager} {gs : FrameId → List Guard} {content : Nat → Page} {live : Nat → Bool}
variable {allocated free : List Nat}

theorem guard_block (h : PoolOk fresh bm gs content live allocated free) {id : FrameId} {g : Guard} (hg : g ∈ gs id) :
    (bm.frames id).blockId = some g.block ∧ (g.marked = true → (bm.frames id).dirty = true) ∧
      (fresh g.block ∨ (bm.frames id).dirty = true → Page.Agree (bm.frames id).data (content g.block)) := by
  cases h.frames id <;> grind

theorem writePage (h : PoolOk fresh bm gs content live allocated free) {id : FrameId} {b : Nat} (page : Page)
    (hb : (bm.frames id).blockId = some b) (hl : (bm.frames id).leaseState = writeLease) :
    PoolOk fresh (bm.setFrame id { bm.frames id with data := page }) gs (update content b page) live allocated free := by
  obtain ⟨-, hg, -⟩ := (h.frames id).of_some hb
  have hf : FrameOk fresh { bm.frames id with data := page } (gs id) bm.storage.block (update content b page) :=
    .holds b hb (fun _ => by rw [update_self]; exact .refl _) (h.frames id).leases hg fun _ hne => absurd hl hne
  rw [← update_eq_self id gs]
  exact h.setPage rfl hf fun b' hb' => agree_update content page fun e => hb' (e ▸ hb)

theorem markDirty (l₁ l₂ : List Guard) (g : Guard) (hw : g.write = true)
    (h : PoolOk fresh bm (guardsOn (l₁ ++ g :: l₂)) content live allocated free)
    (hdata : Page.Agree (bm.frames g.frame).data (content g.block)) :
    PoolOk fresh (bm.setFrame g.frame (bm.frames g.frame).markDirty)
      (guardsOn (l₁ ++ { g with marked := true } :: l₂)) content live
      allocated free := by
  have hgs := guardsOn_replace l₁ l₂ g [{ g with marked := true }] (by simp)
  rw [singleton_append, singleton_append] at hgs
  rw [hgs]
  refine h.setFrame rfl ?_
  cases h.frames g.frame with
  | free _ _ _ hn => simp [guardsOn] at hn
  | holds b hb _ hlease hg _ =>
    rw [guardsOn_self] at hlease hg
    obtain ⟨hl, hn₁, hn₂⟩ := hlease.alone hw
    obtain rfl : g.block = b := (hg g (by simp)).1
    rw [hn₁, hn₂]
    refine .holds g.block hb (fun _ => hdata) (.exclusive _ rfl hw hl) ?_ fun hd => absurd hd (by simp [Frame.markDirty])
    intro g' hg'
    obtain rfl : g' = { g with marked := true } := by simpa using hg'
    exact ⟨rfl, fun _ => ⟨hw, rfl⟩⟩

/-- **The drop of a guard releases its lease**; a write guard's frame is dirty by then. -/
theorem release (l₁ l₂ : List Guard) (g : Guard) (hm : g.write = true → g.marked = true)
    (h : PoolOk fresh bm (guardsOn (l₁ ++ g :: l₂)) content live allocated free) :
    PoolOk fresh (bm.setFrame g.frame (if g.write then (bm.frames g.frame).unpinWrite else (bm.frames g.frame).unpinRead))
      (guardsOn (l₁ ++ l₂)) content live allocated free := by
  have hgs := guardsOn_replace l₁ l₂ g [] (by simp)
  rw [nil_append, nil_append] at hgs
  have hmem : g ∈ guardsOn (l₁ ++ g :: l₂) g.frame := by simp [guardsOn]
  obtain ⟨hb, hdirty, _⟩ := h.guard_block hmem
  have hlease := (h.frames g.frame).leases
  have hsub : ∀ x ∈ guardsOn l₁ g.frame ++ guardsOn l₂ g.frame, x ∈ guardsOn (l₁ ++ g :: l₂) g.frame := by
    grind [guardsOn_self]
  rw [hgs]
  rw [guardsOn_self] at hlease
  cases hw : g.write with
  | true =>
    obtain ⟨hl, hn₁, hn₂⟩ := hlease.alone hw
    rw [if_pos rfl, Frame.unpinWrite, if_pos hl]
    refine h.setFrame rfl ((h.frames g.frame).relabel (by rw [hb]; simp) ?_ (fun x hx => Or.inl (hsub x hx))
      fun _ => Or.inr (hdirty (hm hw)))
    rw [hn₁, hn₂]
    exact .nil
  | false =>
    have hl : (bm.frames g.frame).leaseState < writeLease := (hlease.read_iff (by simp)).1 hw
    cases hlease with
    | exclusive _ _ _ he => omega
    | shared hr hlen _ =>
      rw [length_append, length_cons] at hlen
      rw [if_neg (by simp), Frame.unpinRead, Frame.hasWriteLease, if_neg (by simp only [decide_eq_true_eq]; omega)]
      refine h.setFrame rfl ((h.frames g.frame).relabel (by rw [hb]; simp) ?_ (fun x hx => Or.inl (hsub x hx))
        fun _ => Or.inl (Nat.ne_of_lt hl))
      exact .shared (by grind) (by rw [length_append]; omega) (by omega)

end PoolOk

end Dictenstein.Buffer
