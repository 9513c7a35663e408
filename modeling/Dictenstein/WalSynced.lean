import Dictenstein.WalWriter
/-!
# WalSynced — what `synced_lsn` may say while appends and syncs overlap

`sync` stores `next_lsn - 1`, `sync_record_segments` the durable frontier; both load first and store later, with plain
stores.  A value stored by the former covers LSNs that are handed out and not written yet, and a store can undo a later
one (`syncedLsn_unsound`).
-/
namespace Dictenstein.Wal

open Runs Function List WalState

def WalEvent.AppendOrSync : WalEvent → Prop
  | .append _ | .setMinLsn _ | .setMinSyncedLsn _ | .checkpoint .. | .truncate => False
  | .rotateLoad _ | .rotateStore _ => False
  | _ => True

def Call.loaded : Call → Option Nat
  | .syncLoaded v | .segmentsLoaded v => some v
  | _ => none

namespace WalState

/-- A sync loads when no other is between its load and its store; `sync` moreover when every LSN handed out is in the
durable frontier. -/
def QuietLoad (s : WalState) : WalEvent → Prop
  | .syncLoad _ => s.writer.segmentDurable.cur + 1 = s.writer.nextLsn ∧ ∀ u, (s.calls u).loaded = none
  | .segmentsLoad _ => ∀ u, (s.calls u).loaded = none
  | _ => True

end WalState

/-- `synced_lsn`, the frontier, the fsynced frames and the calls in flight, of a writer whose LSNs up to `base` were on disk
when it was opened. -/
structure SyncInv (base synced : Nat) (f : Frontier) (disk : List Placed) (calls : Nat → Call) : Prop where
  fsynced_mem : ∀ t p, calls t = .fsynced p → p ∈ disk
  covered : ∀ n, f.Covered n → n ≤ base ∨ ∃ p ∈ disk, p.lsn = n
  synced_le : synced ≤ f.cur
  loaded_le : ∀ t v, (calls t).loaded = some v → synced ≤ v ∧ v ≤ f.cur
  one_loaded : ∀ t u v v', (calls t).loaded = some v → (calls u).loaded = some v' → t = u

namespace SyncInv

variable {base synced : Nat} {f : Frontier} {disk : List Placed} {calls : Nat → Call}

theorem loaded_of_update {t u v : Nat} {c : Call} (hc : c.loaded = none)
    (h : (update calls t c u).loaded = some v) : u ≠ t ∧ (calls u).loaded = some v := by
  by_cases hut : u = t
  · subst hut
    rw [update_self, hc] at h
    cases h
  · rw [update_of_ne hut] at h
    exact ⟨hut, h⟩

section
variable (h : SyncInv base synced f disk calls)
include h

theorem move (t : Nat) {c : Call} (hc : ∀ p, c ≠ .fsynced p)
    (hl : c.loaded = none) : SyncInv base synced f disk (update calls t c) where
  fsynced_mem u p hu := h.fsynced_mem u p (of_update hu (hc p))
  covered := h.covered
  synced_le := h.synced_le
  loaded_le u v hu := h.loaded_le u v (loaded_of_update hl hu).2
  one_loaded u u' v v' hu hu' := h.one_loaded u u' v v' (loaded_of_update hl hu).2 (loaded_of_update hl hu').2

theorem fsync (t : Nat) (p : Placed) : SyncInv base synced f (p :: disk) (update calls t (.fsynced p)) := by
  constructor
  · intro u q hu
    by_cases hpq : p = q
    · subst hpq; exact mem_cons_self
    · exact mem_cons_of_mem _ (h.fsynced_mem u q (of_update hu (fun he => hpq (Call.fsynced.inj he))))
  · intro n hn
    rcases h.covered n hn with hb | ⟨q, hq, hqn⟩
    · exact .inl hb
    · exact .inr ⟨q, mem_cons_of_mem _ hq, hqn⟩
  · exact h.synced_le
  · exact fun u v hu => h.loaded_le u v (loaded_of_update rfl hu).2
  · exact fun u u' v v' hu hu' => h.one_loaded u u' v v' (loaded_of_update rfl hu).2 (loaded_of_update rfl hu').2

theorem mark {t : Nat} {p : Placed} (ht : calls t = .fsynced p) :
    SyncInv base synced (f.mark p.lsn) disk (update calls t (.waiting p)) := by
  have hcur := Frontier.cur_le_mark p.lsn f
  constructor
  · intro u q hu
    exact h.fsynced_mem u q (of_update hu (by simp))
  · intro n hn
    rcases (Frontier.covered_mark p.lsn f n).1 hn with rfl | hn
    · exact .inr ⟨p, h.fsynced_mem t p ht, rfl⟩
    · exact h.covered n hn
  · exact le_trans h.synced_le hcur
  · intro u v hu
    have := h.loaded_le u v (loaded_of_update rfl hu).2
    exact ⟨this.1, le_trans this.2 hcur⟩
  · exact fun u u' v v' hu hu' => h.one_loaded u u' v v' (loaded_of_update rfl hu).2 (loaded_of_update rfl hu').2

theorem load (t : Nat) {c : Call} (hc : ∀ p, c ≠ .fsynced p) (hl : c.loaded = some f.cur)
    (hquiet : ∀ u, (calls u).loaded = none) :
    SyncInv base synced f disk (update calls t c) := by
  have honly : ∀ u v, (update calls t c u).loaded = some v → u = t ∧ v = f.cur := by
    intro u v hu
    by_cases hut : u = t
    · subst hut
      rw [update_self, hl] at hu
      exact ⟨rfl, (Option.some.inj hu).symm⟩
    · rw [update_of_ne hut, hquiet u] at hu
      cases hu
  constructor
  · exact fun u p hu => h.fsynced_mem u p (of_update hu (hc p))
  · exact h.covered
  · exact h.synced_le
  · intro u v hu
    rw [(honly u v hu).2]
    exact ⟨h.synced_le, le_rfl⟩
  · intro u u' v v' hu hu'
    rw [(honly u v hu).1, (honly u' v' hu').1]

theorem store {t v : Nat} (ht : (calls t).loaded = some v) : SyncInv base v f disk (update calls t .idle) := by
  have hnone : ∀ u v', (update calls t .idle u).loaded ≠ some v' := by
    intro u v' hu
    obtain ⟨hut, hu⟩ := loaded_of_update rfl hu
    exact hut (h.one_loaded u t v' v hu ht)
  constructor
  · exact fun u p hu => h.fsynced_mem u p (of_update hu (by simp))
  · exact h.covered
  · exact (h.loaded_le t v ht).2
  · exact fun u v' hu => absurd hu (hnone u v')
  · exact fun u _ v' _ hu => absurd hu (hnone u v')

end

end SyncInv

/-! ## The writer's runs -/

namespace WalState

def SyncSound (base : Nat) (s : WalState) : Prop :=
  SyncInv base s.writer.syncedLsn s.writer.segmentDurable s.fsynced s.calls

theorem syncSound_step {base : Nat} {s s' : WalState} {e : WalEvent} (hstep : s.step? e = some s')
    (he : e.AppendOrSync) (hok : s.QuietLoad e) (h : s.SyncSound base) :
    s'.SyncSound base ∧ s.writer.syncedLsn ≤ s'.writer.syncedLsn := by
  cases e with
  | reserve t r =>
    obtain ⟨-, rfl⟩ := step_reserve.1 hstep
    exact ⟨h.move t (by simp) rfl, le_rfl⟩
  | place t =>
    obtain ⟨lsn, r, -, rfl⟩ := step_place.1 hstep
    exact ⟨h.move t (by simp) rfl, le_rfl⟩
  | write t =>
    obtain ⟨p, -, rfl⟩ := step_write.1 hstep
    exact ⟨h.move t (by simp) rfl, le_rfl⟩
  | fsync t =>
    obtain ⟨p, -, rfl⟩ := step_fsync.1 hstep
    exact ⟨h.fsync t p, le_rfl⟩
  | fail t =>
    obtain ⟨p, -, rfl⟩ := step_fail.1 hstep
    exact ⟨h.move t (by simp) rfl, le_rfl⟩
  | mark t =>
    obtain ⟨p, ht, rfl⟩ := step_mark.1 hstep
    exact ⟨h.mark ht, le_rfl⟩
  | poll t =>
    obtain ⟨p, -, ⟨-, rfl⟩ | ⟨-, rfl⟩ | ⟨-, rfl⟩⟩ := step_poll.1 hstep
    · exact ⟨h.move t (by simp) rfl, le_rfl⟩
    · exact ⟨h.move t (by simp) rfl, le_rfl⟩
    · exact ⟨h, le_rfl⟩
  | syncLoad t =>
    obtain ⟨-, -, rfl⟩ := step_syncLoad.1 hstep
    -- the frontier has caught up, so `next_lsn - 1` is its value
    have hcur : s.writer.nextLsn - 1 = s.writer.segmentDurable.cur := by have := hok.1; omega
    exact ⟨h.load t (by simp) (by rw [hcur]; rfl) hok.2, le_rfl⟩
  | syncStore t =>
    obtain ⟨v, ht, rfl⟩ := step_syncStore.1 hstep
    have hv : (s.calls t).loaded = some v := by rw [ht]; rfl
    exact ⟨h.store hv, (h.loaded_le t v hv).1⟩
  | segmentsLoad t =>
    obtain ⟨-, rfl⟩ := step_segmentsLoad.1 hstep
    exact ⟨h.load t (by simp) rfl hok, le_rfl⟩
  | segmentsStore t =>
    obtain ⟨v, ht, rfl⟩ := step_segmentsStore.1 hstep
    have hv : (s.calls t).loaded = some v := by rw [ht]; rfl
    exact ⟨h.store hv, (h.loaded_le t v hv).1⟩
  | _ => exact he.elim

end WalState

theorem syncSound_start {w : WalWriter} (hw : w.Opened) : (start w).SyncSound w.syncedLsn := by
  have hgen : ∀ n, SyncInv n n ⟨n, ∅⟩ [] (fun _ => .idle) := by
    intro n
    refine ⟨by rintro _ _ ⟨⟩, fun m hm => ?_, le_rfl, by rintro _ _ ⟨⟩, by rintro _ _ _ _ ⟨⟩⟩
    simp only [Frontier.Covered, Finset.notMem_empty, or_false] at hm
    exact .inl hm
  rcases hw with rfl | ⟨header, body, m, rfl⟩
  · exact hgen 0
  · exact hgen _

/-- **`synced_lsn` is sound and never decreases** in every run of appends and syncs whose loads are quiet: every LSN at or
below it was on disk at the start or has been written and fsynced since. -/
theorem syncedLsn_sound (w : WalWriter) (hw : w.Opened) (es es' : List WalEvent) (s s' : WalState)
    (hev : ∀ e ∈ es ++ es', e.AppendOrSync)
    (hok : Along step? WalState.QuietLoad (es ++ es') (start w))
    (hs : run step? es (start w) = some s) (hs' : run step? es' s = some s') :
    (∀ n ≤ s'.writer.syncedLsn, n ≤ w.syncedLsn ∨ ∃ p ∈ s'.fsynced, p.lsn = n) ∧
      s.writer.syncedLsn ≤ s'.writer.syncedLsn := by
  obtain ⟨hok₁, hok₂⟩ := along_append es _ s hs (along_and _ _ hev hok)
  have h : s.SyncSound w.syncedLsn :=
    invariant (I := WalState.SyncSound w.syncedLsn) (fun _ _ _ hm hok hi => (syncSound_step hm hok.1 hok.2 hi).1)
      es _ s hs hok₁ (syncSound_start hw)
  -- from `s` on, carry the bound along with the invariant
  obtain ⟨h', hle⟩ := invariant
    (I := fun m => m.SyncSound w.syncedLsn ∧ s.writer.syncedLsn ≤ m.writer.syncedLsn)
    (fun _ _ _ hm hok hi => by
      obtain ⟨hi', hle⟩ := syncSound_step hm hok.1 hok.2 hi.1
      exact ⟨hi', le_trans hi.2 hle⟩) es' s s' hs' hok₂ ⟨h, le_rfl⟩
  refine ⟨fun n hn => ?_, hle⟩
  exact h'.covered n (.inl (le_trans hn h'.synced_le))

/-- A `sync` between the reservation and the write of LSN 1 reports it synced; and a `sync_record_segments` stores an old
value over a newer one. -/
theorem syncedLsn_unsound : (∃ s, run step? [.reserve 0 (.beginTx 7), .syncLoad 1, .syncStore 1] (start .create) = some s ∧
      s.writer.syncedLsn = 1 ∧ s.fsynced = []) ∧
    ∃ s s', run step? [.segmentsLoad 1, .reserve 0 (.beginTx 7), .place 0, .write 0, .fsync 0, .mark 0,
        .segmentsLoad 2, .segmentsStore 2] (start .create) = some s ∧
      run step? [.segmentsStore 1] s = some s' ∧ s'.writer.syncedLsn < s.writer.syncedLsn :=
  ⟨⟨_, rfl, rfl, rfl⟩, _, _, rfl, rfl, by decide +kernel⟩

/-- Two appends in flight at once and both syncs, each load quiet. -/
theorem syncedLsn_sound_two : ∃ s s', run step? [.reserve 0 (.beginTx 7), .reserve 1 (.commitTx 7), .place 1,
      .place 0, .write 1, .fsync 1, .mark 1, .segmentsLoad 2] (start .create) = some s ∧
    run step? [.write 0, .fsync 0, .mark 0, .segmentsStore 2, .syncLoad 2, .syncStore 2] s = some s' ∧
    s'.writer.syncedLsn = 2 ∧ (∀ n ≤ s'.writer.syncedLsn, n ≤ 0 ∨ ∃ p ∈ s'.fsynced, p.lsn = n) := by
  refine ⟨_, _, rfl, rfl, by decide +kernel, ?_⟩
  refine (syncedLsn_sound .create (.inl rfl) [.reserve 0 (.beginTx 7), .reserve 1 (.commitTx 7), .place 1,
      .place 0, .write 1, .fsync 1, .mark 1, .segmentsLoad 2]
    [.write 0, .fsync 0, .mark 0, .segmentsStore 2, .syncLoad 2, .syncStore 2] _ _ ?_ ?_ rfl rfl).1
  · simp [WalEvent.AppendOrSync]
  · refine ⟨trivial, trivial, trivial, trivial, trivial, trivial, trivial, ?_, trivial, trivial, trivial, trivial,
      ⟨rfl, ?_⟩, trivial, trivial⟩
    · rintro (_ | _ | _ | u) <;> rfl
    · rintro (_ | _ | _ | u) <;> rfl

end Dictenstein.Wal
