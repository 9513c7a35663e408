import Dictenstein.BufferManager
/-!
# BufferInvariant — what a page cache keeps

`content` is the page last written to each block, and a block is live from the `new_page` that hands it out to the
`delete_page` that takes it back.

A block may also be written behind the cache, in storage; a clean frame that holds it is then out of date.  `fresh` are
the blocks for which that does not happen.
-/
namespace Dictenstein.Buffer

open Disk Function List Option BufferManager Bool Buffer.Frame

/-- A page guard: the frame it pins, the block it was given for, and how far the drop of a write guard has come. -/
structure Guard where
  frame : FrameId
  block : Nat
  write : Bool
  marked : Bool
deriving DecidableEq, Repr

inductive Leases (lease : Nat) (gs : List Guard) : Prop
  | shared : (∀ g ∈ gs, g.write = false) → lease = gs.length → lease < writeLease → Leases lease gs
  | exclusive (g : Guard) : gs = [g] → g.write = true → lease = writeLease → Leases lease gs

namespace Leases

variable {lease : Nat} {gs : List Guard}

theorem eq_nil (h : Leases 0 gs) : gs = [] := by
  cases h with
  | shared _ hl _ => exact length_eq_zero_iff.1 hl.symm
  | exclusive _ _ _ hl => exact absurd hl (by decide)

theorem nil : Leases 0 [] := .shared (by simp) rfl (by decide)

theorem read_iff (h : Leases lease gs) {g : Guard} (hg : g ∈ gs) : g.write = false ↔ lease < writeLease := by
  cases h with
  | shared hr _ hl => exact ⟨fun _ => hl, fun _ => hr g hg⟩
  | exclusive g' hgs hw hl =>
    subst hgs
    rw [mem_singleton.1 hg, hw, hl]
    simp

end Leases

/-- A frame, the guards on it, the disk and the content of the blocks: a dirty frame and that of a fresh block have the
content, and the disk has it behind a clean one. -/
inductive FrameOk (fresh : Nat → Prop) (fr : Frame) (gs : List Guard) (disk content : Nat → Page) : Prop
  | free : fr.blockId = none → fr.dirty = false → fr.leaseState = 0 → gs = [] → FrameOk fresh fr gs disk content
  | holds (b : Nat) : fr.blockId = some b → (fresh b ∨ fr.dirty = true → Page.Agree fr.data (content b)) →
      Leases fr.leaseState gs →
      (∀ g ∈ gs, g.block = b ∧ (g.marked = true → g.write = true ∧ fr.dirty = true)) →
      (fr.dirty = false → fr.leaseState ≠ writeLease → Page.Agree (disk b) (content b)) → FrameOk fresh fr gs disk content

namespace FrameOk

variable {fresh : Nat → Prop} {fr : Frame} {gs : List Guard} {disk content disk' content' : Nat → Page}

section
variable (h : FrameOk fresh fr gs disk content)
include h

theorem congr
    (hd : ∀ b, fr.blockId = some b → Page.Agree (disk' b) (disk b) ∨ Page.Agree (disk' b) (content b))
    (hc : ∀ b, fr.blockId = some b → Page.Agree (content' b) (content b)) : FrameOk fresh fr gs disk' content' := by
  cases h with
  | free hb hdirty hl hg => exact .free hb hdirty hl hg
  | holds b hb hdata hl hg hclean =>
    refine .holds b hb (fun hf => (hdata hf).trans (hc b hb).symm) hl hg ?_
    intro hdirty hne
    refine Page.Agree.trans ?_ (hc b hb).symm
    rcases hd b hb with hd | hd
    · exact hd.trans (hclean hdirty hne)
    · exact hd

theorem of_none (hb : fr.blockId = none) : fr.dirty = false ∧ fr.leaseState = 0 ∧ gs = [] := by
  cases h <;> grind

theorem of_some {b : Nat} (hb : fr.blockId = some b) : (fresh b ∨ fr.dirty = true → Page.Agree fr.data (content b)) ∧
      (∀ g ∈ gs, g.block = b ∧ (g.marked = true → g.write = true ∧ fr.dirty = true)) ∧
      (fr.dirty = false → fr.leaseState ≠ writeLease → Page.Agree (disk b) (content b)) := by
  cases h <;> grind

theorem leases : Leases fr.leaseState gs := by
  cases h with
  | free _ _ hl hg =>
    rw [hl, hg]
    exact Leases.nil
  | holds _ _ _ hl _ _ => exact hl

theorem unreferenced : FrameOk fresh { fr with referenceBit := false } gs disk content := by
  cases h with
  | free hn hd hl hg => exact .free hn hd hl hg
  | holds b hb hdata hl hg hclean => exact .holds b hb hdata hl hg hclean

theorem relabel {lease : Nat} {ref : Bool} {gs' : List Guard}
    (hb : fr.blockId ≠ none) (hl : Leases lease gs')
    (hsub : ∀ g ∈ gs', g ∈ gs ∨ (fr.blockId = some g.block ∧ g.marked = false))
    (hw : lease ≠ writeLease → fr.leaseState ≠ writeLease ∨ fr.dirty = true) :
    FrameOk fresh { fr with leaseState := lease, referenceBit := ref } gs' disk content := by
  cases h with
  | free hb' _ _ _ => exact absurd hb' hb
  | holds b hb' hdata _ hg hclean =>
    refine .holds b hb' hdata hl ?_ ?_
    · grind
    · grind

end

end FrameOk

theorem agree_update (content : Nat → Page) (page : Page) {b b' : Nat} (h : b' ≠ b) :
    Page.Agree (update content b page b') (content b') := by
  rw [update_of_ne h]
  exact .refl _

/-- **The cache is transparent**: the live blocks' content is in the frames that hold them, or on disk. -/
structure PoolOk (fresh : Nat → Prop) (bm : BufferManager) (gs : FrameId → List Guard) (content : Nat → Page)
    (live : Nat → Bool) (allocated free : List Nat) : Prop where
  storage : StorageOk bm.storage free
  owned : ∀ b, live b = true → 0 < b ∧ b < bm.storage.blockCount ∧ b ∉ free ∧ b ∉ allocated
  pending : allocated.Nodup ∧ ∀ b ∈ allocated, 0 < b ∧ b < bm.storage.blockCount ∧ b ∉ free
  active : 0 < bm.poolSize ∧ bm.activePoolSize ≤ bm.poolSize
  table : ∀ b id, bm.pageTable b = some id ↔ (bm.frames id).blockId = some b
  resident : ∀ id b, (bm.frames id).blockId = some b → id < bm.activePoolSize ∧ live b = true
  frames : ∀ id, FrameOk fresh (bm.frames id) (gs id) bm.storage.block content
  absent : ∀ b, live b = true → bm.pageTable b = none → Page.Agree (bm.storage.block b) (content b)

namespace PoolOk

variable {fresh : Nat → Prop} {bm : BufferManager} {gs : FrameId → List Guard} {content : Nat → Page} {live : Nat → Bool}
variable {allocated free : List Nat} (h : PoolOk fresh bm gs content live allocated free)

include h

theorem clockHand (n : Nat) : PoolOk fresh { bm with clockHand := n } gs content live allocated free :=
  ⟨h.storage, h.owned, h.pending, h.active, h.table, h.resident, h.frames, h.absent⟩

variable {id : FrameId} {b : Nat} {fr : Frame} {l : List Guard} {storage : DiskManager}

theorem mapped (hb : (bm.frames id).blockId = some b) : bm.pageTable b = some id :=
  (h.table b id).2 hb

theorem frame_unique {id' : FrameId} (hb : (bm.frames id).blockId = some b) (hb' : (bm.frames id').blockId = some b) :
    id' = id :=
  some.inj ((h.mapped hb').symm.trans (h.mapped hb))

/-- **A frame takes another page of its block**, which only that block's content may follow. -/
theorem setPage {content' : Nat → Page} (hb : fr.blockId = (bm.frames id).blockId)
    (hf : FrameOk fresh fr l bm.storage.block content')
    (hc : ∀ b, (bm.frames id).blockId ≠ some b → Page.Agree (content' b) (content b)) :
    PoolOk fresh (bm.setFrame id fr) (update gs id l) content' live allocated free := by
  have hblock : ∀ id', ((bm.setFrame id fr).frames id').blockId = (bm.frames id').blockId := by grind
  refine ⟨h.storage, h.owned, h.pending, h.active, ?_, ?_, ?_, ?_⟩
  · intro b id'
    rw [hblock]
    exact h.table b id'
  · intro id' b hb'
    rw [hblock] at hb'
    exact h.resident id' b hb'
  · intro id'
    by_cases hid : id' = id
    · simpa [hid] using hf
    · simpa [hid] using (h.frames id').congr (fun _ _ => .inl (.refl _)) fun b hb' => hc b fun hb =>
        hid (h.frame_unique hb hb')
  · exact fun b hl hn => (h.absent b hl hn).trans (hc b fun hb => by simp [h.mapped hb] at hn).symm

theorem setFrame (hb : fr.blockId = (bm.frames id).blockId) (hf : FrameOk fresh fr l bm.storage.block content) :
    PoolOk fresh (bm.setFrame id fr) (update gs id l) content live allocated free :=
  h.setPage hb hf fun _ _ => .refl _

theorem setStorage {allocated' free' : List Nat} (hs : StorageOk storage free')
    (howned : ∀ b, live b = true → 0 < b ∧ b < storage.blockCount ∧ b ∉ free' ∧ b ∉ allocated')
    (hpend : allocated'.Nodup ∧ ∀ b ∈ allocated', 0 < b ∧ b < storage.blockCount ∧ b ∉ free')
    (hd : ∀ b, live b = true → Page.Agree (storage.block b) (bm.storage.block b) ∨
      Page.Agree (storage.block b) (content b)) :
    PoolOk fresh { bm with storage } gs content live allocated' free' := by
  refine ⟨hs, howned, hpend, h.active, h.table, h.resident, ?_, ?_⟩
  · intro id
    exact (h.frames id).congr (fun b hb => hd b (h.resident id b hb).2) (fun _ _ => .refl _)
  · intro b hb hn
    rcases hd b hb with hd | hd
    · exact hd.trans (h.absent b hb hn)
    · exact hd

theorem disk (hs : StorageOk storage free) (hc : storage.blockCount = bm.storage.blockCount)
    (hd : ∀ b, live b = true → Page.Agree (storage.block b) (bm.storage.block b) ∨
      Page.Agree (storage.block b) (content b)) :
    PoolOk fresh { bm with storage } gs content live allocated free :=
  h.setStorage hs (by rw [hc]; exact h.owned) (by rw [hc]; exact h.pending) hd

theorem writeBlock {page : Page} (hl : live b = true) (hpage : Page.Agree page (content b)) :
    ∃ storage, bm.storage.writeBlock b page = .ok storage ∧ PoolOk fresh { bm with storage } gs content live allocated free ∧
      Page.Agree (storage.block b) (content b) ∧
      ∀ b', Page.Agree (bm.storage.block b') (content b') → Page.Agree (storage.block b') (content b') := by
  obtain ⟨hpos, hlt, hfree, _⟩ := h.owned b hl
  obtain ⟨storage, hw, hcount, hs, hin, hout⟩ := h.storage.writeBlock_ok (p := page) hlt hpos hfree
  have hkeep : ∀ b', Page.Agree (storage.block b') (bm.storage.block b') ∨ Page.Agree (storage.block b') (content b') := by
    intro b'
    by_cases hbb : b' = b
    · subst hbb
      exact .inr (hin.trans hpage)
    · exact .inl (hout b' hbb)
  exact ⟨storage, hw, h.disk hs hcount fun b' _ => hkeep b', hin.trans hpage, fun b' hb' => (hkeep b').elim (·.trans hb') id⟩

theorem setFrame_self (id : FrameId) (fr : Frame)
    (hb : fr.blockId = (bm.frames id).blockId) (hf : FrameOk fresh fr (gs id) bm.storage.block content) :
    PoolOk fresh (bm.setFrame id fr) gs content live allocated free := by
  have := h.setFrame hb hf
  rwa [update_eq_self] at this

theorem clearDirty (hb : (bm.frames id).blockId = some b) (hl : (bm.frames id).leaseState < writeLease)
    (hd : Page.Agree (bm.storage.block b) (content b)) :
    PoolOk fresh (bm.setFrame id (bm.frames id).clearDirty) gs content live allocated free := by
  refine h.setFrame_self id _ rfl ?_
  obtain ⟨hdata, hg, -⟩ := (h.frames id).of_some hb
  have hlease := (h.frames id).leases
  refine .holds b hb (fun hf => hdata (hf.imp_right fun hc => by cases hc)) hlease ?_ (fun _ _ => hd)
  -- a marked guard would be a write guard
  grind [hlease.read_iff]

theorem writeBack (hb : (bm.frames id).blockId = some b) (hl : (bm.frames id).leaseState < writeLease) :
    ∃ storage, bm.writeBack id b = (.ok (), { bm with storage }.setFrame id (bm.frames id).clearDirty) ∧
      PoolOk fresh ({ bm with storage }.setFrame id (bm.frames id).clearDirty) gs content live allocated free ∧
      Page.Agree (storage.block b) (content b) := by
  cases hdirty : (bm.frames id).dirty with
  | true =>
    obtain ⟨storage, hw, hok, hd, -⟩ := h.writeBlock (h.resident id b hb).2 (((h.frames id).of_some hb).1 (.inr hdirty))
    refine ⟨storage, ?_, hok.clearDirty hb hl hd, hd⟩
    simp only [BufferManager.writeBack, hdirty, if_true, hw]
  | false =>
    have hd := ((h.frames id).of_some hb).2.2 hdirty (Nat.ne_of_lt hl)
    refine ⟨bm.storage, ?_, h.clearDirty hb hl hd, hd⟩
    have hself : (bm.frames id).clearDirty = bm.frames id := by
      simp only [Frame.clearDirty, ← hdirty]
    simp only [BufferManager.writeBack, hdirty, false_eq_true, if_false, hself, BufferManager.setFrame, update_eq_self]

theorem unmap (id : FrameId) {live' : Nat → Bool} (hb : (bm.frames id).blockId = some b) (hg : gs id = [])
    (hfr : fr.blockId = none) (hdirty : fr.dirty = false) (hlease : fr.leaseState = 0)
    (hlive : ∀ b', b' ≠ b → live' b' = live b')
    (hb' : live' b = true → live b = true ∧ Page.Agree (bm.storage.block b) (content b)) :
    PoolOk fresh ((bm.setFrame id fr).unmapPage b) gs content live' allocated free := by
  have hsub : ∀ b', live' b' = true → live b' = true := by grind
  refine ⟨h.storage, fun b' hl => h.owned b' (hsub b' hl), h.pending, h.active, ?_, ?_, ?_, ?_⟩
  · grind [h.table, h.frame_unique hb]
  · grind [→ h.resident, h.frame_unique hb]
  · intro id'
    by_cases hid : id' = id
    · simpa [hid] using .free hfr hdirty hlease hg
    · simpa [hid] using h.frames id'
  · grind [h.absent]

/-- What a call that needs a frame leaves: fewer pages in the table, and the same pool. -/
structure Freed (bm bm' : BufferManager) : Prop where
  table : ∀ b, bm.pageTable b = none → bm'.pageTable b = none
  poolSize : bm'.poolSize = bm.poolSize
  active : bm'.activePoolSize = bm.activePoolSize

omit h in
theorem Freed.refl (bm : BufferManager) : Freed bm bm := ⟨fun _ h => h, rfl, rfl⟩

omit h in
theorem Freed.trans {bm bm' bm'' : BufferManager} (h : Freed bm bm') (h' : Freed bm' bm'') : Freed bm bm'' :=
  ⟨fun b hb => h'.table b (h.table b hb), h'.poolSize.trans h.poolSize, h'.active.trans h.active⟩

theorem evict (id : FrameId) (hp : (bm.frames id).isPinned = false) :
    ∃ bm', bm.evict id = (.ok (), bm') ∧ PoolOk fresh bm' gs content live allocated free ∧ Freed bm bm' ∧
      (bm'.frames id).blockId = none ∧ ∀ id', (bm.frames id').blockId = none → (bm'.frames id').blockId = none := by
  have hlease : (bm.frames id).leaseState = 0 := by simpa [isPinned] using hp
  cases hb : (bm.frames id).blockId with
  | none => exact ⟨bm, by simp [BufferManager.evict, hb], h, .refl bm, hb, fun _ h => h⟩
  | some b =>
    have hg : gs id = [] := Leases.eq_nil (hlease ▸ (h.frames id).leases)
    obtain ⟨storage, hw, hok, hd⟩ := h.writeBack hb (by rw [hlease]; decide)
    refine ⟨_, by simp only [BufferManager.evict, hb, hw]; rfl, ?_, ?_, ?_, ?_⟩
    · refine hok.unmap id ?_ hg rfl ?_ ?_ (fun _ _ => rfl) (fun hl => ⟨hl, hd⟩) <;> simp [Frame.clearDirty, hb, hlease]
    · exact ⟨by grind, rfl, rfl⟩
    · simp
    · grind

def FreeFrame (fresh : Nat → Prop) (gs : FrameId → List Guard) (content : Nat → Page) (live : Nat → Bool)
    (allocated free : List Nat) (bm : BufferManager) (r : BufferManager.Outcome FrameId) : Prop :=
  PoolOk fresh r.2 gs content live allocated free ∧ Freed bm r.2 ∧
    ∀ id, r.1 = .ok id → id < r.2.activePoolSize ∧ (r.2.frames id).blockId = none

omit h in
/-- **The clock, by induction on the attempts left**: a step forgets a reference bit or evicts. -/
theorem clockSweep : ∀ (attempts : Nat) {bm : BufferManager}, PoolOk fresh bm gs content live allocated free →
    (attempts ≠ 0 → 0 < bm.activePoolSize) → FreeFrame fresh gs content live allocated free bm (bm.clockSweep attempts)
  | 0, bm, h, _ => ⟨h, .refl bm, by simp [BufferManager.clockSweep]⟩
  | attempts + 1, bm, h, hpos => by
    have hactive : 0 < bm.activePoolSize := hpos (Nat.succ_ne_zero _)
    have hc := h.clockHand (bm.clockHand + 1)
    have hfreed : Freed bm { bm with clockHand := bm.clockHand + 1 } := ⟨fun _ hb => hb, rfl, rfl⟩
    rw [BufferManager.clockSweep]
    generalize hid : bm.clockHand % bm.activePoolSize = id
    have hlt : id < bm.activePoolSize := hid ▸ Nat.mod_lt _ hactive
    cases hp : (bm.frames id).isPinned with
    | true =>
      obtain ⟨hok, hf, hr⟩ := clockSweep attempts hc fun _ => hactive
      exact ⟨hok, hfreed.trans hf, hr⟩
    | false =>
      cases href : (bm.frames id).referenceBit with
      | true =>
        have hstep := hc.setFrame_self id { bm.frames id with referenceBit := false } rfl (h.frames id).unreferenced
        obtain ⟨hok, hf, hr⟩ := clockSweep attempts hstep fun _ => hactive
        exact ⟨hok, ⟨hf.table, hf.poolSize, hf.active⟩, hr⟩
      | false =>
        simp only [false_eq_true, if_false]
        obtain ⟨bm', he, hok, hf, hn, _⟩ := hc.evict id hp
        simp only [he]
        refine ⟨hok, hfreed.trans hf, ?_⟩
        intro id' hid'
        obtain rfl : id = id' := Except.ok.inj hid'
        exact ⟨by rw [hf.active]; exact hlt, hn⟩

theorem getFreeFrame : FreeFrame fresh gs content live allocated free bm bm.getFreeFrame := by
  unfold BufferManager.getFreeFrame
  cases hfind : (range bm.activePoolSize).find? fun id => (bm.frames id).isFree && !(bm.frames id).isPinned with
  | some id =>
    refine ⟨h, .refl bm, ?_⟩
    intro id' hid'
    obtain rfl : id = id' := Except.ok.inj hid'
    have hmem := mem_of_find?_eq_some hfind
    have hp := find?_some hfind
    rw [and_eq_true] at hp
    exact ⟨mem_range.1 hmem, isNone_iff_eq_none.1 hp.1⟩
  | none =>
    refine clockSweep _ h ?_
    intro hne
    omega

end PoolOk

/-! ## Leases taken -/

structure Pins (pin : Frame → Except StorageError Frame) (write : Bool) : Prop where
  ok : ∀ {fr fr' : Frame} {gs : List Guard} {g : Guard}, pin fr = .ok fr' → Leases fr.leaseState gs → g.write = write →
    ∃ lease, fr' = { fr with leaseState := lease, referenceBit := true } ∧ Leases lease (gs ++ [g]) ∧
      fr.leaseState < writeLease
  unleased : ∀ {fr : Frame}, fr.leaseState = 0 → ∃ fr', pin fr = .ok fr'

theorem pins_read : Pins pinRead false where
  ok := by
    intro fr fr' gs g hpin hl hg
    unfold pinRead hasWriteLease at hpin
    split at hpin
    · cases hpin
    · rename_i hw
      split at hpin
      · cases hpin
      · rename_i hmask
        have hlt : fr.leaseState < writeLease := by simpa using hw
        refine ⟨fr.leaseState + 1, (Except.ok.inj hpin).symm, ?_, hlt⟩
        cases hl with
        | shared hr hlen _ =>
          exact .shared (forall_mem_append.2 ⟨hr, forall_mem_singleton.2 hg⟩) (by simp [hlen])
            (by unfold readersMask at hmask; omega)
        | exclusive _ _ _ he => omega
  unleased := by
    intro fr h0
    simp [pinRead, hasWriteLease, h0, writeLease, readersMask]

theorem pins_write : Pins pinWrite true where
  ok := by
    intro fr fr' gs g hpin hl hg
    unfold pinWrite at hpin
    split at hpin
    · rename_i h0
      refine ⟨writeLease, (Except.ok.inj hpin).symm, ?_, by rw [h0]; decide⟩
      obtain rfl : gs = [] := Leases.eq_nil (h0 ▸ hl)
      exact .exclusive g rfl hg rfl
    · cases hpin
  unleased := by
    intro fr h0
    simp [pinWrite, h0]

namespace PoolOk

section
variable (fresh : Nat → Prop) (gs : FrameId → List Guard) (content : Nat → Page) (live : Nat →
  Bool) (allocated free : List Nat)

/-- What a fetch leaves: with an error the cache as it was, and else one with the new guard. -/
def Fetched (b : Nat) (write : Bool) : BufferManager.Outcome FrameId → Prop
  | (.error _, bm') => PoolOk fresh bm' gs content live allocated free
  | (.ok id, bm') => PoolOk fresh bm' (update gs id (gs id ++ [⟨id, b, write, false⟩])) content live allocated free

/-- What `new_page` leaves: with an error its block is free again, and else it is live, with a page of zeros. -/
def NewPage (b : Nat) : BufferManager.Outcome FrameId → Prop
  | (.error _, bm') => PoolOk fresh bm' gs content live allocated (b :: free)
  | (.ok id, bm') => PoolOk fresh bm' (update gs id (gs id ++ [⟨id, b, true, false⟩]))
      (update content b fun _ => 0) (update live b true) allocated free

/-- What `delete_page` leaves: with an error the cache as it was, and else one without the block. -/
def Deleted (b : Nat) : BufferManager.Outcome Unit → Prop
  | (.error _, bm') => ∃ free', PoolOk fresh bm' gs content live allocated free'
  | (.ok (), bm') => ∃ free', PoolOk fresh bm' gs content (update live b false) allocated free'

end

variable {fresh : Nat → Prop} {bm : BufferManager} {gs : FrameId → List Guard} {content : Nat → Page} {live : Nat → Bool}
variable {allocated free : List Nat} (h : PoolOk fresh bm gs content live allocated free)

include h

variable {b : Nat} {storage : DiskManager} {pin : Frame → Except StorageError Frame} {write : Bool} {free' : List Nat}

theorem mapPage (id : FrameId) {fr : Frame} {l : List Guard} {content' : Nat → Page} {live' : Nat → Bool}
    {allocated' : List Nat} (hid : id < bm.activePoolSize) (hn : (bm.frames id).blockId = none) (hb : fr.blockId = some b)
    (ht : bm.pageTable b = none)
    (hf : FrameOk fresh fr l bm.storage.block content') (hc : ∀ b', b' ≠ b → content' b' = content b')
    (hl : ∀ b', b' ≠ b → live' b' = live b') (hlb : live' b = true)
    (howned : ∀ b', live' b' = true → 0 < b' ∧ b' < bm.storage.blockCount ∧ b' ∉ free ∧ b' ∉ allocated')
    (hpend : allocated'.Nodup ∧ ∀ b' ∈ allocated', 0 < b' ∧ b' < bm.storage.blockCount ∧ b' ∉ free) :
    PoolOk fresh ((bm.setFrame id fr).mapPage b id) (update gs id l) content' live' allocated' free := by
  have hheld : ∀ id' b', (bm.frames id').blockId = some b' → b' ≠ b := by grind [→ h.mapped]
  refine ⟨h.storage, howned, hpend, h.active, ?_, ?_, ?_, ?_⟩
  · grind [h.table]
  · grind [→ h.resident]
  · intro id'
    by_cases hi : id' = id
    · simpa [hi] using hf
    · simp only [frames_mapPage, frames_setFrame, if_neg hi, update_of_ne hi]
      refine (h.frames id').congr (fun _ _ => .inl (.refl _)) fun b' hb' => ?_
      rw [hc b' (hheld id' b' hb')]
      exact .refl _
  · grind [h.absent]

theorem loadPageWith (hpin : Pins pin write) (hl : live b = true) (hb : bm.pageTable b = none) :
    Fetched fresh gs content live allocated free b write (loadPageWith pin bm b) := by
  obtain ⟨hok, hf, hid⟩ := h.getFreeFrame
  unfold BufferManager.loadPageWith
  generalize bm.getFreeFrame = r at hok hf hid
  obtain ⟨r, bm'⟩ := r
  cases r with
  | error e => exact hok
  | ok id =>
    obtain ⟨hactive, hn⟩ := hid id rfl
    obtain ⟨_, hlease, hg⟩ := (hok.frames id).of_none hn
    have hread := hok.storage.readBlock_ok (hok.owned b hl).2.1
    have hlease' : ({ bm'.frames id with data := bm'.storage.block b, blockId := some b } : Frame).leaseState = 0 := hlease
    have hnil : Leases ({ bm'.frames id with data := bm'.storage.block b, blockId := some b } : Frame).leaseState [] := by
      rw [hlease']
      exact .nil
    obtain ⟨fr', hfr'⟩ := hpin.unleased hlease'
    obtain ⟨lease, hfr, hleases, _⟩ := hpin.ok (g := ⟨id, b, write, false⟩) hfr' hnil rfl
    simp only [hread, hfr']
    show PoolOk fresh _ _ content live allocated free
    rw [hg]
    refine hok.mapPage id hactive hn (by rw [hfr]) (hf.table b hb) ?_ (fun _ _ => rfl) (fun _ _ => rfl) hl hok.owned
      hok.pending
    have hdisk := hok.absent b hl (hf.table b hb)
    rw [hfr]
    refine .holds b rfl (fun _ => hdisk) hleases ?_ (fun _ _ => hdisk)
    intro g hgm
    obtain rfl : g = ⟨id, b, write, false⟩ := by simpa using hgm
    exact ⟨rfl, nofun⟩

theorem fetchPageWith (hpin : Pins pin write) (hl : live b = true) :
    Fetched fresh gs content live allocated free b write (fetchPageWith pin bm b) := by
  unfold BufferManager.fetchPageWith
  cases hb : bm.pageTable b with
  | none => exact h.loadPageWith hpin hl hb
  | some id =>
    simp only
    cases hfr' : pin (bm.frames id) with
    | error e => exact h
    | ok fr' =>
      have hblock := (h.table b id).1 hb
      obtain ⟨lease, hfr, hleases, hlt⟩ := hpin.ok (g := ⟨id, b, write, false⟩) hfr' (h.frames id).leases rfl
      refine h.setFrame (by rw [hfr]) ?_
      rw [hfr]
      exact (h.frames id).relabel (by rw [hblock]; simp) hleases
        (forall_mem_append.2 ⟨fun _ => .inl, forall_mem_singleton.2 (.inr ⟨hblock, rfl⟩)⟩) (fun _ => .inl (Nat.ne_of_lt hlt))

/-! ## Blocks handed out and taken back -/

theorem addPending (hs : StorageOk storage free') (hcount : bm.storage.blockCount ≤ storage.blockCount)
    (hsub : ∀ x ∈ free', x ∈ free) (hb : 0 < b ∧ b < storage.blockCount ∧ b ∉ free') (hl : live b = false)
    (ha : b ∉ allocated) (hd : ∀ b', live b' = true → Page.Agree (storage.block b') (bm.storage.block b')) :
    PoolOk fresh { bm with storage } gs content live (allocated ++ [b]) free' := by
  refine h.setStorage hs ?_ ⟨?_, ?_⟩ fun b' hb' => .inl (hd b' hb')
  · grind [→ h.owned]
  · grind [nodup_append, h.pending]
  · grind [h.pending]

def pendingAfter (allocated : List Nat) : Except StorageError Nat → List Nat
  | .error _ => allocated
  | .ok b => allocated ++ [b]

theorem allocateBlock {r : Except StorageError Nat} (hs : StorageOk storage free')
    (ha : Allocated bm.storage free r storage free') :
    PoolOk fresh { bm with storage } gs content live (pendingAfter allocated r) free' := by
  have notLive : ∀ b, (∀ b', live b' = true → b' ≠ b) → live b = false := by grind
  cases ha with
  | refused e _ _ => exact h
  | @popped b _ _ hfree hcount hd =>
    subst hfree
    have hnodup := nodup_cons.1 h.storage.nodup
    have hin := h.storage.inFile b (by simp)
    refine h.addPending hs (Nat.le_of_eq hcount.symm) (fun x hx => by simp [hx]) ⟨hin.1, hcount ▸ hin.2, hnodup.1⟩ ?_ ?_
      fun b' hb' => hd b' (h.owned b' hb').1
    · refine notLive b fun b' hb' => ?_
      rintro rfl
      exact (h.owned b' hb').2.2.1 (by simp)
    · intro hm
      exact (h.pending.2 b hm).2.2 (by simp)
  | appended hfree hcount hd =>
    refine h.addPending hs (by omega) (by simp) ⟨h.storage.pos, by omega, by simp⟩ ?_ ?_
      fun b' hb' => hd b' (h.owned b' hb').1 (h.owned b' hb').2.1
    · refine notLive _ fun b' hb' => ?_
      exact Nat.ne_of_lt (h.owned b' hb').2.1
    · intro hm
      exact absurd (h.pending.2 _ hm).2.1 (Nat.lt_irrefl _)

theorem freeBlock (hpos : 0 < b) (hlt : b < bm.storage.blockCount) (hf : b ∉ free) (hl : live b = false)
    (ha : b ∉ allocated) :
    (bm.storage.freeBlock b).result = .ok () ∧
      PoolOk fresh { bm with storage := bm.storage.after (bm.storage.freeBlock b) } gs content live allocated
        (b :: free) := by
  obtain ⟨hr, hs, hcount, hd⟩ := h.storage.freeBlock hpos hlt hf
  have hne : ∀ b', live b' = true → b' ≠ b := by grind
  refine ⟨hr, h.setStorage hs ?_ ⟨h.pending.1, ?_⟩ fun b' hb' => .inl (hd b' (h.owned b' hb').1 (hne b' hb'))⟩
  · grind [→ h.owned]
  · intro b' hb'
    obtain ⟨hp, hc, hnf⟩ := h.pending.2 b' hb'
    rw [hcount]
    exact ⟨hp, hc, by grind⟩

omit h in
theorem newPageLocked {l₁ l₂ : List Nat} (h : PoolOk fresh bm gs content live (l₁ ++ b :: l₂) free) :
    NewPage fresh gs content live (l₁ ++ l₂) free b (bm.newPageLocked b) := by
  obtain ⟨hok, -, hid⟩ := h.getFreeFrame
  unfold BufferManager.newPageLocked
  generalize bm.getFreeFrame = r at hok hid
  obtain ⟨r, bm'⟩ := r
  -- the block is nobody else's
  obtain ⟨hpos, hlt, hfree⟩ := hok.pending.2 b (by simp)
  have hnodup := perm_middle.nodup_iff.1 hok.pending.1
  rw [nodup_cons] at hnodup
  have hsub : ∀ b', b' ∈ l₁ ++ l₂ → b' ∈ l₁ ++ b :: l₂ := by grind
  have hlive : live b = false := by grind [hok.owned b]
  have hrest : PoolOk fresh bm' gs content live (l₁ ++ l₂) free :=
    hok.setStorage hok.storage
      (fun b' hb' => ⟨(hok.owned b' hb').1, (hok.owned b' hb').2.1, (hok.owned b' hb').2.2.1,
        fun hm => (hok.owned b' hb').2.2.2 (hsub b' hm)⟩)
      ⟨hnodup.2, fun b' hb' => hok.pending.2 b' (hsub b' hb')⟩ (fun _ _ => .inl (.refl _))
  cases r with
  | error e => exact (hrest.freeBlock hpos hlt hfree hlive hnodup.1).2
  | ok id =>
    obtain ⟨hactive, hn⟩ := hid id rfl
    obtain ⟨_, hlease, hg⟩ := (hok.frames id).of_none hn
    have hpin : ({ bm'.frames id with blockId := some b } : Frame).pinWrite
        = .ok { bm'.frames id with blockId := some b, leaseState := writeLease, referenceBit := true } := by
      unfold pinWrite
      rw [if_pos hlease]
    have htable : bm'.pageTable b = none := by
      cases ht : bm'.pageTable b with
      | none => rfl
      | some id' => grind [hok.resident id' b ((hok.table b id').1 ht)]
    simp only [hpin, NewPage]
    rw [hg]
    refine hrest.mapPage id hactive hn rfl htable ?_ ?_ ?_ (by simp) ?_ hrest.pending
    · refine .holds b rfl (by simp [Page.Agree.refl]) (.exclusive _ rfl rfl rfl) ?_ (by simp)
      intro g hgm
      obtain rfl : g = ⟨id, b, true, false⟩ := by simpa using hgm
      exact ⟨rfl, nofun⟩
    · exact fun b' hb' => update_of_ne hb' _ _
    · exact fun b' hb' => update_of_ne hb' _ _
    · grind [→ hrest.owned]

theorem retire (hn : bm.pageTable b = none) : PoolOk fresh bm gs content (update live b false) allocated free := by
  have hsub : ∀ b', update live b false b' = true → live b' = true := by grind [update_apply]
  refine ⟨h.storage, fun b' hb' => h.owned b' (hsub b' hb'), h.pending, h.active, h.table, ?_, h.frames,
    fun b' hb' => h.absent b' (hsub b' hb')⟩
  grind [→ h.resident, → h.mapped, update_apply]

theorem deletePage (hl : live b = true) : Deleted fresh gs content live allocated b (bm.deletePage b) := by
  obtain ⟨hpos, hlt, hfree, hna⟩ := h.owned b hl
  unfold BufferManager.deletePage
  cases ht : bm.pageTable b with
  | none =>
    obtain ⟨hr, hok⟩ := (h.retire ht).freeBlock hpos hlt hfree (by simp) hna
    simp only [hr]
    exact ⟨_, hok⟩
  | some id =>
    have hb := (h.table b id).1 ht
    cases hp : (bm.frames id).isPinned with
    | true =>
      simp only [hp, if_true]
      exact ⟨free, h⟩
    | false =>
      have hlease : (bm.frames id).leaseState = 0 := by simpa [isPinned] using hp
      have hg : gs id = [] := Leases.eq_nil (hlease ▸ (h.frames id).leases)
      have hun : PoolOk fresh ((bm.setFrame id
          { bm.frames id with blockId := none, dirty := false, referenceBit := false }).unmapPage b) gs content
          (update live b false) allocated free :=
        h.unmap id hb hg rfl rfl hlease (fun b' hb' => update_of_ne hb' _ _) (by simp)
      obtain ⟨hr, hok⟩ := hun.freeBlock hpos hlt hfree (by simp) hna
      simp only [hp, false_eq_true, if_false]
      rw [hr]
      exact ⟨_, hok⟩

/-! ## Flushing and resizing -/

theorem flushPage (b : Nat) : PoolOk fresh (bm.flushPage b).2 gs content live allocated free := by
  unfold BufferManager.flushPage
  cases ht : bm.pageTable b with
  | none => exact h
  | some id =>
    have hb := (h.table b id).1 ht
    cases hd : (bm.frames id).dirty with
    | false => simpa [hd, BufferManager.writeBack] using h
    | true =>
      cases hw : (bm.frames id).hasWriteLease with
      | true => simpa [hd, hw] using h
      | false =>
        obtain ⟨storage, he, hok, _⟩ := h.writeBack hb (by simpa [hasWriteLease] using hw)
        simpa only [hd, hw, Bool.and_false, Bool.false_eq_true, if_false, he] using hok

omit h in
theorem mem_dirtyFrames {p : Nat × FrameId} (hp : p ∈ bm.dirtyFrames) :
    (bm.frames p.2).blockId = some p.1 ∧ (bm.frames p.2).dirty = true := by
  obtain ⟨id, _, hid⟩ := mem_filterMap.1 hp
  split at hid
  · rename_i hd
    obtain ⟨b, hb, rfl⟩ := map_eq_some_iff.1 hid
    exact ⟨hb, hd⟩
  · cases hid

omit h in
theorem writeBlocksBatch :
    ∀ (requests : List (Nat × Page)) {bm : BufferManager}, PoolOk fresh bm gs content live allocated free →
    (∀ q ∈ requests, live q.1 = true ∧ Page.Agree q.2 (content q.1)) →
    ∃ storage, bm.storage.writeBlocksBatch requests = (.ok (), storage) ∧
      PoolOk fresh { bm with storage } gs content live allocated free ∧
      (∀ q ∈ requests, Page.Agree (storage.block q.1) (content q.1)) ∧
      ∀ b, Page.Agree (bm.storage.block b) (content b) → Page.Agree (storage.block b) (content b)
  | [], bm, h, _ => ⟨bm.storage, rfl, h, by simp, fun _ hb => hb⟩
  | (b, page) :: requests, bm, h, hall => by
    obtain ⟨hl, hpage⟩ := hall (b, page) (by simp)
    obtain ⟨storage₁, hw, h₁, hin, hout⟩ := h.writeBlock hl hpage
    obtain ⟨storage, he, hok, hin', hout'⟩ := writeBlocksBatch requests h₁ fun q hq => hall q (by simp [hq])
    refine ⟨storage, by simp only [DiskManager.writeBlocksBatch, hw]; exact he, hok, ?_,
      fun b' hb' => hout' b' (hout b' hb')⟩
    intro q hq
    rcases mem_cons.1 hq with rfl | hq
    · exact hout' b hin
    · exact hin' q hq

omit h in
theorem clean : ∀ (dirty : List (Nat × FrameId)) {bm : BufferManager}, PoolOk fresh bm gs content live allocated free →
    (∀ p ∈ dirty, (bm.frames p.2).blockId = some p.1 ∧ (bm.frames p.2).leaseState < writeLease ∧
      Page.Agree (bm.storage.block p.1) (content p.1)) →
    PoolOk fresh (dirty.foldl (fun (bm : BufferManager) p => bm.setFrame p.2 (bm.frames p.2).clearDirty) bm) gs content live
      allocated free
  | [], _, h, _ => h
  | p :: dirty, bm, h, hall => by
    obtain ⟨hb, hl, hd⟩ := hall p (by simp)
    refine clean dirty (h.clearDirty hb hl hd) ?_
    intro q hq
    obtain ⟨hqb, hql, hqd⟩ := hall q (by simp [hq])
    exact ⟨by grind [Frame.clearDirty], by grind [Frame.clearDirty], hqd⟩

theorem flushAll : PoolOk fresh bm.flushAll.2 gs content live allocated free := by
  have hdata : ∀ p ∈ bm.dirtyFrames, live p.1 = true ∧ Page.Agree (bm.frames p.2).data (content p.1) := by
    intro p hp
    obtain ⟨hb, hdirty⟩ := mem_dirtyFrames hp
    exact ⟨(h.resident p.2 p.1 hb).2, ((h.frames p.2).of_some hb).1 (.inr hdirty)⟩
  unfold BufferManager.flushAll
  cases hany : bm.dirtyFrames.any fun p => (bm.frames p.2).hasWriteLease with
  | true => simpa [hany] using h
  | false =>
    obtain ⟨storage, he, hok, hin, _⟩ := h.writeBlocksBatch (bm.dirtyFrames.map fun p => (p.1, (bm.frames p.2).data)) (by
      intro q hq
      obtain ⟨p, hp, rfl⟩ := mem_map.1 hq
      exact hdata p hp)
    have hclean := hok.clean bm.dirtyFrames (by
      intro p hp
      have hl : (bm.frames p.2).hasWriteLease = false := by grind
      have hd := hin (p.1, (bm.frames p.2).data) (mem_map_of_mem hp)
      exact ⟨(mem_dirtyFrames hp).1, by simpa [hasWriteLease] using hl, hd⟩)
    simp only [hany, false_eq_true, if_false, he]
    obtain ⟨hs, hcount, hd⟩ := hclean.storage.sync
    exact hclean.disk hs hcount fun b hb => .inl (hd b (hclean.owned b hb).1)

theorem growPool (n : Nat) : PoolOk fresh (bm.growPool n).2 gs content live allocated free := by
  unfold BufferManager.growPool
  simp only
  split
  · exact h
  · rename_i hle
    refine ⟨h.storage, h.owned, h.pending, ⟨h.active.1, Nat.le_of_not_lt hle⟩, h.table, ?_, h.frames, h.absent⟩
    intro id b hb
    obtain ⟨hlt, hl⟩ := h.resident id b hb
    exact ⟨Nat.lt_of_lt_of_le hlt (Nat.le_add_right _ _), hl⟩

omit h in
theorem evictRange : ∀ (ids : List FrameId) {bm : BufferManager}, PoolOk fresh bm gs content live allocated free →
    PoolOk fresh (bm.evictRange ids).2 gs content live allocated free ∧ Freed bm (bm.evictRange ids).2 ∧
      (∀ id, (bm.frames id).blockId = none → ((bm.evictRange ids).2.frames id).blockId = none) ∧
      ((bm.evictRange ids).1 = .ok () → ∀ id ∈ ids, ((bm.evictRange ids).2.frames id).blockId = none)
  | [], bm, h => ⟨h, .refl bm, fun _ hn => hn, by simp⟩
  | id :: ids, bm, h => by
    rw [BufferManager.evictRange]
    cases hp : (bm.frames id).isPinned with
    | true =>
      exact ⟨h, .refl bm, fun _ hn => hn, by simp⟩
    | false =>
      obtain ⟨bm', he, hok, hf, hid, hkeep⟩ := h.evict id hp
      simp only [false_eq_true, if_false, he]
      obtain ⟨hok', hf', hkeep', hall⟩ := evictRange ids hok
      refine ⟨hok', hf.trans hf', fun id' hn => hkeep' id' (hkeep id' hn), ?_⟩
      intro hr id' hid'
      rcases mem_cons.1 hid' with rfl | hid'
      · exact hkeep' id' hid
      · exact hall hr id' hid'

theorem shrinkPool (n : Nat) : PoolOk fresh (bm.shrinkPool n).2 gs content live allocated free := by
  unfold BufferManager.shrinkPool
  simp only
  split
  · exact h
  · rename_i hne
    generalize hsize : max (bm.activePoolSize - n) 1 = newSize at hne
    obtain ⟨hok, hf, _, hall⟩ := evictRange (range' newSize (bm.activePoolSize - newSize)) h
    generalize bm.evictRange (range' newSize (bm.activePoolSize - newSize)) = r at hok hf hall
    obtain ⟨r, bm'⟩ := r
    cases r with
    | error e => exact hok
    | ok u =>
      have hle : newSize ≤ bm'.poolSize := by grind [hf.poolSize, h.active]
      refine ⟨hok.storage, hok.owned, hok.pending, ⟨hok.active.1, hle⟩, hok.table, ?_, hok.frames, hok.absent⟩
      intro id b hb
      obtain ⟨hlt, hl⟩ := hok.resident id b hb
      refine ⟨Nat.lt_of_not_le fun hge => ?_, hl⟩
      have hmem : id ∈ range' newSize (bm.activePoolSize - newSize) := by grind [hf.active]
      have hnone := hall rfl id hmem
      simp only at hnone hb
      rw [hnone] at hb
      cases hb

omit h in
theorem of_storage (hs : StorageOk storage free)
    (hlive : ∀ b, live b = true → 0 < b ∧ b < storage.blockCount ∧ b ∉ free) (initialSize : Nat) {maxPoolSize : Nat}
    (hmax : 0 < maxPoolSize) (fresh : Nat → Prop) :
    PoolOk fresh (.newWithMaxCapacity storage initialSize maxPoolSize) (fun _ => []) storage.block live [] free := by
  refine ⟨hs, ?_, ⟨nodup_nil, by simp⟩, ⟨hmax, Nat.min_le_right _ _⟩, ?_, ?_, ?_, ?_⟩
  · intro b hb
    obtain ⟨hp, hl, hf⟩ := hlive b hb
    exact ⟨hp, hl, hf, by simp⟩
  · intro b id
    simp [newWithMaxCapacity, new]
  · intro id b hb
    simp [newWithMaxCapacity, new] at hb
  · intro id
    exact .free rfl rfl rfl rfl
  · intro b _ _
    exact .refl _

end PoolOk
end Dictenstein.Buffer
