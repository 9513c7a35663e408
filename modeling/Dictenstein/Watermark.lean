import Dictenstein.OverlayInvariant
/-!
# Watermark — the committed watermark on 64-bit LSNs

`core/committed_watermark.rs`.  Writers commit out of LSN order; `mark_committed` buffers an LSN above the watermark and then
advances over every successor it finds in the buffer.
-/
namespace Dictenstein.Watermark

open Finset UInt64

structure CommittedWatermark where
  contiguous : UInt64
  pending : Finset UInt64
deriving DecidableEq

namespace CommittedWatermark

def new (base : UInt64) : CommittedWatermark := ⟨base, ∅⟩

/-- `while pending.remove(&(cur + 1)) { cur += 1; }`; every round takes one LSN off the buffer. -/
def drain : Nat → CommittedWatermark → CommittedWatermark
  | 0, w => w
  | fuel + 1, w =>
    if w.contiguous + 1 ∈ w.pending then drain fuel ⟨w.contiguous + 1, w.pending.erase (w.contiguous + 1)⟩ else w

def markCommitted (w : CommittedWatermark) (lsn : UInt64) : CommittedWatermark :=
  if lsn ≤ w.contiguous then w
  else drain (insert lsn w.pending).card ⟨w.contiguous, insert lsn w.pending⟩

/-! ## The frontier it stands for -/

def toFrontier (w : CommittedWatermark) : Frontier := ⟨w.contiguous.toNat, w.pending.image toNat⟩

variable {w : CommittedWatermark} {b : UInt64} {S : UInt64 → Prop}

theorem mem_toFrontier {l : UInt64} : l.toNat ∈ w.toFrontier.pending ↔ l ∈ w.pending := by
  simp only [toFrontier, mem_image]
  exact ⟨fun ⟨m, hm, heq⟩ => UInt64.toNat_inj.1 heq ▸ hm, fun h => ⟨l, h, rfl⟩⟩

theorem succ_mem_iff (h : w.toFrontier.Ahead) :
    w.contiguous + 1 ∈ w.pending ↔ w.contiguous.toNat + 1 ∈ w.toFrontier.pending := by
  have hlt := w.contiguous.toNat_lt
  rcases Nat.lt_or_ge (w.contiguous.toNat + 1) (2 ^ 64) with hnext | hnext
  · have heq : (w.contiguous + 1).toNat = w.contiguous.toNat + 1 := by
      rw [UInt64.toNat_add, UInt64.toNat_one, Nat.mod_eq_of_lt hnext]
    rw [← mem_toFrontier, heq]
  · have hzero : (w.contiguous + 1).toNat = 0 := by
      rw [UInt64.toNat_add, UInt64.toNat_one, show w.contiguous.toNat + 1 = 2 ^ 64 by omega, Nat.mod_self]
    refine iff_of_false (fun hm => ?_) fun hm => ?_
    · have hgt := h _ (mem_toFrontier.2 hm)
      rw [hzero] at hgt
      exact absurd hgt (Nat.not_lt_zero _)
    · obtain ⟨m, -, hm⟩ := mem_image.1 hm
      have := m.toNat_lt
      omega

theorem toFrontier_drain : ∀ (fuel : Nat) (w : CommittedWatermark), w.toFrontier.Ahead →
    (drain fuel w).toFrontier = w.toFrontier.drain fuel
  | 0, _, _ => rfl
  | fuel + 1, w, h => by
    unfold drain Frontier.drain
    by_cases hm : w.contiguous + 1 ∈ w.pending
    · have hm' := (succ_mem_iff h).1 hm
      have heq : (w.contiguous + 1).toNat = w.contiguous.toNat + 1 := by
        obtain ⟨m, -, hmn⟩ := mem_image.1 hm'
        have := m.toNat_lt
        rw [UInt64.toNat_add, UInt64.toNat_one, Nat.mod_eq_of_lt (by omega)]
      have hstep : (⟨w.contiguous + 1, w.pending.erase (w.contiguous + 1)⟩ : CommittedWatermark).toFrontier
          = ⟨w.toFrontier.cur + 1, w.toFrontier.pending.erase (w.toFrontier.cur + 1)⟩ := by
        simp only [toFrontier, heq, Frontier.mk.injEq, true_and]
        rw [← heq, image_erase (fun _ _ h => UInt64.toNat_inj.1 h)]
      have hahead : (⟨w.contiguous + 1, w.pending.erase (w.contiguous + 1)⟩ : CommittedWatermark).toFrontier.Ahead := by
        rw [hstep]
        intro n hn
        obtain ⟨hne, hn⟩ := mem_erase.1 hn
        have hlt := h n hn
        simp only at hne ⊢
        omega
      rw [if_pos hm, if_pos (show w.toFrontier.cur + 1 ∈ w.toFrontier.pending from hm'),
        toFrontier_drain fuel _ hahead, hstep]
    · have hm' : w.toFrontier.cur + 1 ∉ w.toFrontier.pending := fun h' => hm ((succ_mem_iff h).2 h')
      rw [if_neg hm, if_neg hm']

/-- **The code on 64-bit LSNs does what the frontier does.** -/
theorem toFrontier_markCommitted (h : w.toFrontier.Ahead) (lsn : UInt64) :
    (w.markCommitted lsn).toFrontier = Overlay.markCommitted lsn.toNat w.toFrontier := by
  unfold markCommitted Overlay.markCommitted
  by_cases hle : lsn ≤ w.contiguous
  · rw [if_pos hle, if_pos (show lsn.toNat ≤ w.toFrontier.cur from hle)]
  · have hlt : w.contiguous.toNat < lsn.toNat := Nat.lt_of_not_le hle
    have himage : (insert lsn w.pending).image toNat = insert lsn.toNat w.toFrontier.pending := image_insert ..
    have hcard : (insert lsn w.pending).card = (insert lsn.toNat w.toFrontier.pending).card := by
      rw [← himage, card_image_of_injective _ fun _ _ h => UInt64.toNat_inj.1 h]
    have hstep : (⟨w.contiguous, insert lsn w.pending⟩ : CommittedWatermark).toFrontier
        = ⟨w.toFrontier.cur, insert lsn.toNat w.toFrontier.pending⟩ := by
      simp only [toFrontier, image_insert]
    have hahead : (⟨w.contiguous, insert lsn w.pending⟩ : CommittedWatermark).toFrontier.Ahead := by
      rw [hstep]
      intro n hn
      obtain rfl | hn := mem_insert.1 hn
      · exact hlt
      · exact h n hn
    rw [if_neg hle, if_neg (show ¬lsn.toNat ≤ w.toFrontier.cur from Nat.not_le.2 hlt), toFrontier_drain _ _ hahead,
      hstep, hcard]
    rfl

/-! ## Runs -/

structure Marked (b : UInt64) (S : UInt64 → Prop) (w : CommittedWatermark) : Prop where
  base : b.toNat ≤ w.toFrontier.cur
  ahead : w.toFrontier.Ahead
  settled : w.toFrontier.Settled
  covered : ∀ n, b.toNat < n → (w.toFrontier.Covered n ↔ ∃ l : UInt64, S l ∧ l.toNat = n)

theorem marked_new (b : UInt64) : Marked b (fun _ => False) (new b) where
  base := Nat.le_refl _
  ahead n hn := by simp [toFrontier, new] at hn
  settled := by simp [Frontier.Settled, toFrontier, new]
  covered n hn := by
    refine iff_of_false (fun h => ?_) fun h => h.elim fun _ h => h.1
    obtain h | h := h
    · exact absurd h (Nat.not_le.2 hn)
    · simp [toFrontier, new] at h

theorem Marked.markCommitted {lsn : UInt64} (h : Marked b S w) :
    Marked b (fun l => l = lsn ∨ S l) (w.markCommitted lsn) := by
  have hsim := toFrontier_markCommitted h.ahead lsn
  refine ⟨?_, ?_, ?_, fun n hn => ?_⟩
  · rw [hsim]
    unfold Overlay.markCommitted
    split
    · exact h.base
    · exact Nat.le_trans h.base (Frontier.cur_le_mark _ _)
  · rw [hsim]
    unfold Overlay.markCommitted
    split
    · exact h.ahead
    · rename_i hlt
      exact Frontier.ahead_mark h.ahead (Nat.lt_of_not_le hlt)
  · rw [hsim]
    unfold Overlay.markCommitted
    split
    · exact h.settled
    · exact Frontier.settled_mark _ _
  · rw [hsim, Overlay.covered_markCommitted, h.covered n hn]
    constructor
    · rintro (rfl | ⟨l, hl, rfl⟩)
      · exact ⟨lsn, .inl rfl, rfl⟩
      · exact ⟨l, .inr hl, rfl⟩
    · rintro ⟨l, rfl | hl, rfl⟩
      · exact .inl rfl
      · exact .inr ⟨l, hl, rfl⟩

theorem Marked.run (lsns : List UInt64) : ∀ {S : UInt64 → Prop} {w : CommittedWatermark}, Marked b S w →
    Marked b (fun l => l ∈ lsns ∨ S l) (lsns.foldl CommittedWatermark.markCommitted w) := by
  induction lsns with
  | nil =>
    intro S w h
    simpa using h
  | cons lsn lsns ih =>
    intro S w h
    have hmarked : Marked b (fun l => l = lsn ∨ S l) (w.markCommitted lsn) := h.markCommitted
    have hrun := ih hmarked
    have heq : (fun l => l ∈ lsns ∨ (l = lsn ∨ S l)) = fun l => l ∈ lsn :: lsns ∨ S l := by
      funext l
      simp only [List.mem_cons, eq_iff_iff]
      tauto
    rwa [heq] at hrun

theorem Marked.unique {w' : CommittedWatermark} (h : Marked b S w) (h' : Marked b S w') : w = w' := by
  have hcur : w.toFrontier.cur = w'.toFrontier.cur :=
    (Frontier.isGreatest_cur h.base h.settled h.covered).unique (Frontier.isGreatest_cur h'.base h'.settled h'.covered)
  have hpending : w.pending = w'.pending := by
    ext l
    rw [← mem_toFrontier, ← mem_toFrontier, Frontier.mem_pending_iff h.base h.ahead h.covered,
      Frontier.mem_pending_iff h'.base h'.ahead h'.covered, hcur]
  have hcontiguous : w.contiguous = w'.contiguous := UInt64.toNat_inj.1 hcur
  obtain ⟨c, p⟩ := w
  obtain ⟨c', p'⟩ := w'
  obtain rfl : c = c' := hcontiguous
  obtain rfl : p = p' := hpending
  rfl

end CommittedWatermark

open CommittedWatermark in
/-- **The watermark after any marks**: the largest LSN up to which all above the base are marked; the marked LSNs above it
are the buffer; only the set of marks matters. -/
theorem watermark_of_marks (b : UInt64) (lsns : List UInt64) :
    IsGreatest {l | b ≤ l ∧ ∀ m, b < m → m ≤ l → m ∈ lsns} (lsns.foldl markCommitted (new b)).contiguous ∧
    (∀ l, l ∈ (lsns.foldl markCommitted (new b)).pending ↔ l ∈ lsns ∧ (lsns.foldl markCommitted (new b)).contiguous < l) ∧
    ∀ lsns' : List UInt64, (∀ l, l ∈ lsns ↔ l ∈ lsns') →
      lsns'.foldl markCommitted (new b) = lsns.foldl markCommitted (new b) := by
  have hrun : ∀ lsns : List UInt64, Marked b (· ∈ lsns) (lsns.foldl markCommitted (new b)) := fun lsns => by
    simpa using (marked_new b).run lsns
  have h := hrun lsns
  have hgreat := Frontier.isGreatest_cur h.base h.settled h.covered
  refine ⟨⟨⟨h.base, fun m hm hle => ?_⟩, fun l hl => ?_⟩, fun l => ?_, fun lsns' hset => ?_⟩
  · obtain ⟨l, hl, heq⟩ := hgreat.1.2 m.toNat hm hle
    exact UInt64.toNat_inj.1 heq ▸ hl
  · refine hgreat.2 ⟨hl.1, fun n hn hle => ?_⟩
    -- A number up to `l` is a 64-bit LSN.
    have hlt : n < 2 ^ 64 := Nat.lt_of_le_of_lt hle l.toNat_lt
    have hnat : (ofNat n).toNat = n := toNat_ofNat_of_lt' hlt
    refine ⟨ofNat n, hl.2 _ ?_ ?_, hnat⟩
    · exact lt_iff_toNat_lt.2 (hnat.symm ▸ hn)
    · exact le_iff_toNat_le.2 (hnat.symm ▸ hle)
  · rw [← mem_toFrontier, Frontier.mem_pending_iff h.base h.ahead h.covered]
    refine and_congr ⟨fun ⟨m, hm, heq⟩ => UInt64.toNat_inj.1 heq ▸ hm, fun hl => ⟨l, hl, rfl⟩⟩ Iff.rfl
  · have heq : (fun l => l ∈ lsns') = fun l => l ∈ lsns := by
      funext l
      exact propext (hset l).symm
    have h' := hrun lsns'
    rw [heq] at h'
    exact h'.unique h

end Dictenstein.Watermark
