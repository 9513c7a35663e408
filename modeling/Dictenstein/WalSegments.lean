import Dictenstein.WalSynced
/-!
# WalSegments — which acknowledged records a scan finds after a crash

A lock-free append reserves its LSN and its byte range by two separate atomics, and returns once all LSNs up to its own
are fsynced.  The reader goes through the file in byte order and stops at the first frame it cannot read, so a record is
found only if everything before it in the file is whole.
-/
namespace Dictenstein.Wal

open Wire Runs Function List Option WalHeader WalState WalWriter

def WalEvent.AppendStep : WalEvent → Prop
  | .reserve .. | .place _ | .write _ | .fsync _ | .fail _ | .mark _ | .poll _ => True
  | _ => False

theorem WalEvent.AppendStep.appendOrSync {e : WalEvent} (h : e.AppendStep) : e.AppendOrSync := by
  cases e <;> trivial

def Call.placed? : Call → Option Placed
  | .placed p | .written p | .fsynced p | .waiting p => some p
  | _ => none

variable (base : List (UInt64 × WalRecord UInt64))

/-- What a file may hold after a crash: the frames that were there when the writer was opened, and every frame that was
fsynced. Any other range is left open. -/
def CrashImage (s : WalState) (file : Bytes) : Prop :=
  file.take (frames base).length = frames base ∧ ∀ p ∈ s.fsynced, HoldsAt file (p.offset - size) (frameAt p.lsn p.record)

/-- A writer on a new file, or opened on a file of whole frames. -/
def WalWriter.OpenedOn (w : WalWriter) : Prop :=
  base = [] ∧ w = .create ∨ (∀ e ∈ base, e.2.Fits) ∧ ∃ header maxSegmentLsn, w = .openFile header (frames base) maxSegmentLsn

namespace WalState

/-- Frames are shorter than `2 ^ 32` bytes, and a byte range is reserved when no call with a smaller LSN has still to
reserve its own. -/
def InOrder (s : WalState) : WalEvent → Prop
  | .reserve _ record => record.Fits
  | .place t => ∀ lsn r, s.calls t = .reserved lsn r → ∀ u lsn' r', s.calls u = .reserved lsn' r' → lsn ≤ lsn'
  | _ => True

end WalState

def frameStart (first start : Nat) (log : List (WalRecord UInt64)) (i : Nat) : Nat :=
  start + (frames (numbered first (log.take i))).length

def InLog (first start : Nat) (log : List (WalRecord UInt64)) (k : Nat) (p : Placed) : Prop :=
  ∃ i < k, p.lsn = first + i ∧ log[i]? = some p.record ∧ p.offset = frameStart first start log i

/-- `log` are the records of the LSNs handed out from `first` on, and the first `k` of them have their byte ranges, one
behind the other from `start` on. -/
structure Layout (first start : Nat) (log : List (WalRecord UInt64)) (k : Nat) (s : WalState) : Prop where
  fits : ∀ r ∈ log, r.Fits
  next_eq : s.writer.nextLsn = first + log.length
  k_le : k ≤ log.length
  offset_eq : s.writer.segmentNextOffset = frameStart first start log k
  reserved_at : ∀ t lsn r, s.calls t = .reserved lsn r → ∃ i, k ≤ i ∧ lsn = first + i ∧ log[i]? = some r
  reserved_inj : ∀ t u lsn r r', s.calls t = .reserved lsn r → s.calls u = .reserved lsn r' → t = u
  unplaced : ∀ i, k ≤ i → i < log.length → ∃ t r, s.calls t = .reserved (first + i) r
  placed_at : ∀ t p, (s.calls t).placed? = some p → InLog first start log k p
  fsynced_at : ∀ p ∈ s.fsynced, InLog first start log k p
  acked_at : ∀ p ∈ s.acked, InLog first start log k p ∧ p.lsn ≤ s.writer.segmentDurable.cur

variable {first start : Nat} {log : List (WalRecord UInt64)} {k : Nat}
variable {base : List (UInt64 × WalRecord UInt64)} {i : Nat} {p : Placed} {w : WalWriter}

variable (log' : List (WalRecord UInt64))

theorem frameStart_append (hi : i ≤ log.length) : frameStart first start (log ++ log') i = frameStart first start log i := by
  unfold frameStart
  rw [take_append_of_le_length hi]

theorem frameStart_succ {r : WalRecord UInt64} (h : log[i]? = some r) : frameStart first start log (i + 1) =
      frameStart first start log i + (frameAt (first + i) r).length := by
  unfold frameStart
  rw [numbered_take_succ h, frames_append, length_append]
  simp only [frames, frame, frameAt, map_cons, map_nil, flatten_cons, flatten_nil, append_nil]
  omega

theorem InLog.mono {k' : Nat} (hk : k ≤ k') (h : InLog first start log k p) : InLog first start log k' p := by
  obtain ⟨i, hi, h⟩ := h
  exact ⟨i, by omega, h⟩

theorem InLog.append (hk : k ≤ log.length) (h : InLog first start log k p) : InLog first start (log ++ log') k p := by
  obtain ⟨i, hi, h1, h2, h3⟩ := h
  refine ⟨i, hi, h1, ?_, ?_⟩
  · rw [getElem?_append_left (by omega), h2]
  · rw [frameStart_append log' (by omega), h3]

/-! ## One step -/

namespace Layout

variable {s : WalState}
variable {t : Nat} {r : WalRecord UInt64}

section
variable (h : Layout first start log k s)
include h

theorem reserve (ht : s.calls t = .idle) (hr : r.Fits) :
    Layout first start (log ++ [r]) k ((s.setWriter { s.writer with nextLsn := s.writer.nextLsn + 1 }).setCall t
      (.reserved s.writer.nextLsn r)) := by
  constructor
  · exact forall_mem_append.2 ⟨h.fits, forall_mem_singleton.2 hr⟩
  · show s.writer.nextLsn + 1 = _
    rw [h.next_eq, length_append, length_singleton]
    omega
  · rw [length_append]
    have := h.k_le
    omega
  · rw [frameStart_append [r] h.k_le]
    exact h.offset_eq
  · intro u lsn r' hu
    by_cases hnew : Call.reserved s.writer.nextLsn r = .reserved lsn r'
    · obtain ⟨rfl, rfl⟩ := Call.reserved.inj hnew
      exact ⟨log.length, h.k_le, h.next_eq, by simp⟩
    · obtain ⟨i, hi, hl, hg⟩ := h.reserved_at u lsn r' (of_update hu hnew)
      have hlt : i < log.length := (List.getElem?_eq_some_iff.1 hg).1
      exact ⟨i, hi, hl, by rw [getElem?_append_left hlt, hg]⟩
  · -- no other call has the LSN that is handed out
    have hown : ∀ v r', update s.calls t (.reserved s.writer.nextLsn r) v = .reserved s.writer.nextLsn r' → v = t := by
      intro v r' hv
      by_contra hvt
      rw [update_of_ne hvt] at hv
      obtain ⟨i, -, hl, hg⟩ := h.reserved_at v _ r' hv
      have hi : i < log.length := (List.getElem?_eq_some_iff.1 hg).1
      have := h.next_eq
      omega
    intro v v' lsn' r₁ r₂ hv hv'
    by_cases hl : lsn' = s.writer.nextLsn
    · subst hl
      exact (hown v r₁ hv).trans (hown v' r₂ hv').symm
    · have hne : ∀ r', Call.reserved s.writer.nextLsn r ≠ .reserved lsn' r' :=
        fun r' heq => hl (Call.reserved.inj heq).1.symm
      exact h.reserved_inj v v' lsn' r₁ r₂ (of_update hv (hne r₁)) (of_update hv' (hne r₂))
  · intro i hk hi
    rw [length_append, length_singleton] at hi
    by_cases hil : i = log.length
    · refine ⟨t, r, ?_⟩
      rw [hil, ← h.next_eq]
      exact update_self ..
    · obtain ⟨u, r', hu⟩ := h.unplaced i hk (by omega)
      have hne : s.calls t ≠ .reserved (first + i) r' := by simp [ht]
      exact ⟨u, r', update_keep hu hne⟩
  · intro u p hu
    refine InLog.append [r] h.k_le (h.placed_at u p ?_)
    by_cases hut : u = t
    · subst hut
      simp [setCall, Call.placed?] at hu
    · simpa [setCall, setWriter, hut] using hu
  · exact fun p hp => InLog.append [r] h.k_le (h.fsynced_at p hp)
  · exact fun p hp => ⟨InLog.append [r] h.k_le (h.acked_at p hp).1, (h.acked_at p hp).2⟩

theorem move {s' : WalState} {c : Call} (hcalls : s'.calls = update s.calls t c)
    (hnext : s'.writer.nextLsn = s.writer.nextLsn) (hoff : s'.writer.segmentNextOffset = s.writer.segmentNextOffset)
    (hcur : s.writer.segmentDurable.cur ≤ s'.writer.segmentDurable.cur) (ht : (s.calls t).placed? = some p)
    (hc : ∀ lsn r, c ≠ .reserved lsn r) (hp : ∀ q, c.placed? = some q → q = p)
    (hfs : ∀ q ∈ s'.fsynced, q = p ∨ q ∈ s.fsynced)
    (hack : ∀ q ∈ s'.acked, q = p ∧ p.lsn ≤ s'.writer.segmentDurable.cur ∨ q ∈ s.acked) : Layout first start log k s' := by
  have hpl := h.placed_at t p ht
  have htr : ∀ lsn r, s.calls t ≠ .reserved lsn r := by
    intro lsn r hr
    rw [hr] at ht
    cases ht
  constructor
  · exact h.fits
  · rw [hnext, h.next_eq]
  · exact h.k_le
  · rw [hoff, h.offset_eq]
  · intro u lsn r hu
    rw [hcalls] at hu
    exact h.reserved_at u lsn r (of_update hu (hc lsn r))
  · intro u v lsn r r' hu hv
    rw [hcalls] at hu hv
    exact h.reserved_inj u v lsn r r' (of_update hu (hc lsn r)) (of_update hv (hc lsn r'))
  · intro i hk hi
    obtain ⟨u, r, hu⟩ := h.unplaced i hk hi
    refine ⟨u, r, ?_⟩
    rw [hcalls]
    exact update_keep hu (htr _ r)
  · intro u q hu
    rw [hcalls] at hu
    by_cases hut : u = t
    · subst hut
      rw [update_self] at hu
      rw [hp q hu]
      exact hpl
    · rw [update_of_ne hut] at hu
      exact h.placed_at u q hu
  · intro q hq
    obtain rfl | hq := hfs q hq
    · exact hpl
    · exact h.fsynced_at q hq
  · intro q hq
    obtain ⟨rfl, hle⟩ | hq := hack q hq
    · exact ⟨hpl, hle⟩
    · exact ⟨(h.acked_at q hq).1, le_trans (h.acked_at q hq).2 hcur⟩

theorem place {lsn : Nat} (ht : s.calls t = .reserved lsn r)
    (hmin : ∀ u lsn' r', s.calls u = .reserved lsn' r' → lsn ≤ lsn') :
    Layout first start log (k + 1) ((s.setWriter { s.writer with
      segmentNextOffset := s.writer.segmentNextOffset + (frameAt lsn r).length }).setCall t
        (.placed ⟨lsn, r, s.writer.segmentNextOffset⟩)) := by
  obtain ⟨i, hki, rfl, hg⟩ := h.reserved_at t lsn r ht
  have hi : i < log.length := (List.getElem?_eq_some_iff.1 hg).1
  -- the call that owns index `k` has still to place it, so `i` is `k`
  obtain ⟨u, r', hu⟩ := h.unplaced k (Nat.le_refl k) (by omega)
  have hle := hmin u _ r' hu
  obtain rfl : i = k := by omega
  constructor
  · exact h.fits
  · exact h.next_eq
  · omega
  · rw [frameStart_succ hg, ← h.offset_eq]
    rfl
  · intro v lsn' r'' hv
    have hv' := of_update hv (by simp)
    obtain ⟨j, hj, rfl, hgj⟩ := h.reserved_at v lsn' r'' hv'
    refine ⟨j, ?_, rfl, hgj⟩
    by_contra hne
    obtain rfl : j = i := by omega
    obtain rfl := h.reserved_inj v t _ _ _ hv' ht
    simp [setCall] at hv
  · intro v v' lsn' r₁ r₂ hv hv'
    exact h.reserved_inj v v' lsn' r₁ r₂ (of_update hv (by simp)) (of_update hv' (by simp))
  · intro j hj hjl
    obtain ⟨v, r'', hv⟩ := h.unplaced j (by omega) hjl
    have hne : s.calls t ≠ .reserved (first + j) r'' := by
      rw [ht]
      simp only [ne_eq, Call.reserved.injEq, not_and]
      omega
    exact ⟨v, r'', update_keep hv hne⟩
  · intro v q hv
    by_cases hvt : v = t
    · subst hvt
      simp only [setCall, update_self, Call.placed?, some.injEq] at hv
      subst hv
      exact ⟨i, by omega, rfl, hg, h.offset_eq⟩
    · refine (h.placed_at v q ?_).mono (Nat.le_succ i)
      simpa [setCall, setWriter, hvt] using hv
  · exact fun q hq => (h.fsynced_at q hq).mono (Nat.le_succ i)
  · exact fun q hq => ⟨(h.acked_at q hq).1.mono (Nat.le_succ i), (h.acked_at q hq).2⟩

end

end Layout

theorem layout_step {s s' : WalState} {e : WalEvent} (hstep : s.step? e = some s') (he : e.AppendStep)
    (hok : s.InOrder e) (h : ∃ log k, Layout first start log k s) : ∃ log k, Layout first start log k s' := by
  obtain ⟨log, k, h⟩ := h
  cases e with
  | reserve t r =>
    obtain ⟨ht, rfl⟩ := step_reserve.1 hstep
    exact ⟨log ++ [r], k, h.reserve ht hok⟩
  | place t =>
    obtain ⟨lsn, r, ht, rfl⟩ := step_place.1 hstep
    exact ⟨log, k + 1, h.place ht (hok lsn r ht)⟩
  | write t =>
    obtain ⟨p, ht, rfl⟩ := step_write.1 hstep
    exact ⟨log, k, h.move (c := .written p) rfl rfl rfl le_rfl (p := p) (by rw [ht]; rfl) (by simp)
      (fun q hq => (some.inj hq).symm) (fun _ => .inr) (fun _ => .inr)⟩
  | fsync t =>
    obtain ⟨p, ht, rfl⟩ := step_fsync.1 hstep
    exact ⟨log, k, h.move (c := .fsynced p) rfl rfl rfl le_rfl (p := p) (by rw [ht]; rfl) (by simp)
      (fun q hq => (some.inj hq).symm) (fun q hq => mem_cons.1 hq) (fun _ => .inr)⟩
  | fail t =>
    obtain ⟨p, ht, rfl⟩ := step_fail.1 hstep
    have hp : (s.calls t).placed? = some p := by rcases ht with ht | ht <;> rw [ht] <;> rfl
    exact ⟨log, k, h.move (c := .idle) rfl rfl rfl le_rfl hp (by simp) nofun
      (fun _ => .inr) (fun _ => .inr)⟩
  | mark t =>
    obtain ⟨p, ht, rfl⟩ := step_mark.1 hstep
    exact ⟨log, k, h.move (c := .waiting p) rfl rfl rfl (Frontier.cur_le_mark p.lsn _) (p := p) (by rw [ht]; rfl)
      (by simp) (fun q hq => (some.inj hq).symm) (fun _ => .inr) (fun _ => .inr)⟩
  | poll t =>
    obtain ⟨p, ht, hcase⟩ := step_poll.1 hstep
    have hp : (s.calls t).placed? = some p := by rw [ht]; rfl
    obtain ⟨hd, rfl⟩ | ⟨-, rfl⟩ | ⟨-, rfl⟩ := hcase
    · refine ⟨log, k, h.move (c := .idle) rfl rfl rfl le_rfl hp (by simp) nofun
        (fun _ => .inr) (fun q hq => ?_)⟩
      obtain rfl | hq := mem_cons.1 hq
      · exact .inl ⟨rfl, pollDurable_eq_true.1 hd⟩
      · exact .inr hq
    · exact ⟨log, k, h.move (c := .idle) rfl rfl rfl le_rfl hp (by simp) nofun
        (fun _ => .inr) (fun _ => .inr)⟩
    · exact ⟨log, k, h⟩
  | _ => exact he.elim

theorem layout_start (hw : w.OpenedOn base) : w.nextLsn = w.syncedLsn + 1 ∧
      ∃ log k, Layout w.nextLsn (size + (frames base).length) log k (WalState.start w) := by
  have hgen : ∀ w : WalWriter, w.segmentNextOffset = size + (frames base).length →
      ∃ log k, Layout w.nextLsn (size + (frames base).length) log k (start w) := by
    intro w hoff
    refine ⟨[], 0, nofun, rfl, le_rfl, ?_, nofun, nofun, fun i _ hi => absurd hi (Nat.not_lt_zero i), nofun, nofun, nofun⟩
    simp [frameStart, numbered, frames, start, hoff]
  obtain ⟨rfl, rfl⟩ | ⟨-, header, m, rfl⟩ := hw
  · exact ⟨rfl, hgen _ rfl⟩
  · exact ⟨rfl, hgen _ (Nat.max_eq_left (Nat.le_add_right _ _))⟩

/-! ## After a crash -/

/-- **A crash image begins with the frames of the first `j` LSNs if those are all fsynced.** -/
theorem crashImage_prefix {s : WalState} {file : Bytes} (hc : CrashImage base s file)
    (h : Layout first (size + (frames base).length) log k s) :
    ∀ j ≤ log.length, (∀ i < j, ∃ p ∈ s.fsynced, p.lsn = first + i) →
      file.take (frames (base ++ numbered first (log.take j))).length = frames (base ++ numbered first (log.take j))
  | 0, _, _ => by
    simp only [take_zero, numbered, append_nil]
    exact hc.1
  | j + 1, hj, hall => by
    have ih := crashImage_prefix hc h j (by omega) (fun i hi => hall i (by omega))
    obtain ⟨p, hp, hl⟩ := hall j (by omega)
    obtain ⟨i, -, hli, hg, hoff⟩ := h.fsynced_at p hp
    obtain rfl : i = j := by omega
    have hhold := hc.2 p hp
    -- the frame stands right behind those before it
    have hpos : p.offset - size = (frames (base ++ numbered first (log.take i))).length := by
      rw [hoff, frames_append, length_append]
      unfold frameStart
      omega
    rw [hpos] at hhold
    have hnext := take_of_holdsAt ih hhold
    rw [numbered_take_succ hg, ← append_assoc, frames_append (base ++ _)]
    simpa [frames, frame, frameAt, hli] using hnext

theorem WalWriter.OpenedOn.opened (hw : w.OpenedOn base) : w.Opened ∧ ∀ e ∈ base, e.2.Fits := by
  obtain ⟨rfl, rfl⟩ | ⟨hb, header, m, rfl⟩ := hw
  · exact ⟨.inl rfl, by simp⟩
  · exact ⟨.inr ⟨header, frames base, m, rfl⟩, hb⟩

/-- **Every acknowledged record is found**: when the byte ranges are reserved in the order of the LSNs, a scan of what any
crash leaves yields every record whose append returned `Ok`, under its LSN. -/
theorem acked_scanned (base : List (UInt64 × WalRecord UInt64)) (w : WalWriter) (hw : w.OpenedOn base)
    (es : List WalEvent) (s : WalState) (hev : ∀ e ∈ es, e.AppendStep)
    (hok : Along WalState.step? WalState.InOrder es (WalState.start w))
    (hs : run WalState.step? es (WalState.start w) = some s) (file : Bytes) (hc : CrashImage base s file) :
    ∀ p ∈ s.acked, (UInt64.ofNat p.lsn, p.record) ∈ scan file := by
  intro p hp
  obtain ⟨hopen, hbase⟩ := hw.opened
  obtain ⟨hfirst, hlay⟩ := layout_start hw
  obtain ⟨hsync, log, k, h⟩ := invariant
    (I := fun m => m.SyncSound w.syncedLsn ∧ ∃ log k, Layout w.nextLsn (size + (frames base).length) log k m)
    (fun m e m' hm hok hi => by
      have hquiet : m.QuietLoad e := by
        cases e <;> first | trivial | exact hok.1.elim
      exact ⟨(syncSound_step hm hok.1.appendOrSync hquiet hi.1).1, layout_step hm hok.1 hok.2 hi.2⟩)
    es _ s hs (along_and es _ hev hok) ⟨syncSound_start hopen, hlay⟩
  obtain ⟨⟨i, hik, hlsn, hg, -⟩, hcur⟩ := h.acked_at p hp
  have hi : i < log.length := (List.getElem?_eq_some_iff.1 hg).1
  -- all LSNs up to the acknowledged one are in the frontier, hence fsynced
  have hall : ∀ j < i + 1, ∃ q ∈ s.fsynced, q.lsn = w.nextLsn + j := by
    intro j hj
    obtain hle | hq := hsync.covered (w.nextLsn + j) (.inl (by omega))
    · omega
    · exact hq
  have hpre := crashImage_prefix hc h (i + 1) (by omega) hall
  rw [← take_append_drop (frames (base ++ numbered w.nextLsn (log.take (i + 1)))).length file, hpre, scan_frames_append]
  · refine mem_append_left _ (mem_append_right _ ?_)
    rw [numbered_take_succ hg, hlsn]
    simp
  · intro e he
    obtain he | he := mem_append.1 he
    · exact hbase e he
    · exact fits_of_mem_numbered (fun r hr => h.fits r (mem_of_mem_take hr)) e he

/-- LSN 1 is placed behind LSN 2 and acknowledged; a crash before LSN 2 is written leaves zeros in front of it, and the scan
ends there. -/
theorem acked_behind_gap :
    ∃ s, run step? [.reserve 0 (.beginTx 7), .reserve 1 (.commitTx 7), .place 1, .place 0, .write 0, .fsync 0,
        .mark 0, .poll 0] (WalState.start .create) = some s ∧
      CrashImage [] s (List.replicate 25 0 ++ frameAt 1 (.beginTx 7)) ∧ s.acked = [⟨1, .beginTx 7, 89⟩] ∧
      scan (List.replicate 25 0 ++ frameAt 1 (.beginTx 7)) = [] := by
  obtain ⟨s, hs, hp⟩ := exists_run step?
    [.reserve 0 (.beginTx 7), .reserve 1 (.commitTx 7), .place 1, .place 0, .write 0, .fsync 0, .mark 0, .poll 0]
    (start .create)
    (fun s => decide (s.fsynced = [⟨1, .beginTx 7, 89⟩] ∧ s.acked = [⟨1, .beginTx 7, 89⟩])) (by decide +kernel)
  obtain ⟨hf, ha⟩ := of_decide_eq_true hp
  refine ⟨s, hs, ⟨rfl, fun p hp => ?_⟩, ha, by decide +kernel⟩
  rw [hf, mem_singleton] at hp
  subst hp
  decide +kernel

/-- Two appends on a new file, placed in the order of their LSNs and written in the other; LSN 1 is acknowledged. -/
theorem acked_scanned_two :
    ∃ s, run step? [.reserve 0 (.beginTx 7), .reserve 1 (.commitTx 7), .place 0, .place 1, .write 1, .fsync 1,
        .write 0, .fsync 0, .mark 0, .poll 0] (WalState.start .create) = some s ∧ s.acked = [⟨1, .beginTx 7, 64⟩] ∧
      (1, .beginTx 7) ∈ scan (frameAt 1 (.beginTx 7) ++ frameAt 2 (.commitTx 7)) := by
  obtain ⟨s, hs, hp⟩ := exists_run step?
    [.reserve 0 (.beginTx 7), .reserve 1 (.commitTx 7), .place 0, .place 1, .write 1, .fsync 1, .write 0, .fsync 0,
      .mark 0, .poll 0] (start .create)
    (fun s => decide (s.fsynced = [⟨1, .beginTx 7, 64⟩, ⟨2, .commitTx 7, 89⟩] ∧ s.acked = [⟨1, .beginTx 7, 64⟩]))
    (by decide +kernel)
  obtain ⟨hf, ha⟩ := of_decide_eq_true hp
  refine ⟨s, hs, ha, ?_⟩
  refine acked_scanned [] .create (.inl ⟨rfl, rfl⟩) _ s ?_ ?_ hs _ ⟨rfl, fun p hp => ?_⟩ ⟨1, .beginTx 7, 64⟩
    (by rw [ha]; exact mem_singleton.2 rfl)
  · simp [WalEvent.AppendStep]
  · have hfit : ∀ r : WalRecord UInt64, r.payloadLen = 8 → r.Fits := by
      intro r hr
      unfold WalRecord.Fits recordHeaderSize
      omega
    refine ⟨hfit _ rfl, hfit _ rfl, ?_, ?_, trivial, trivial, trivial, trivial, trivial, trivial, trivial⟩
    · rintro lsn r hr (_ | _ | u) lsn' r' hu
      · cases hr; cases hu; decide
      · cases hr; cases hu; decide
      · cases hu
    · rintro lsn r hr (_ | _ | u) lsn' r' hu
      · cases hu
      · cases hr; cases hu; decide
      · cases hu
  · rw [hf] at hp
    simp only [mem_cons, not_mem_nil, or_false] at hp
    rcases hp with rfl | rfl <;> decide +kernel

end Dictenstein.Wal
