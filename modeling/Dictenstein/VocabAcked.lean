import Dictenstein.VocabRecovery
/-!
# VocabAcked — an id that `insert` has returned survives a crash

`insert` returns the id of a term that is there without looking whether its record is ranked.  The call that published the
term may still be on its way to the `CommitRank`; a crash then drops the record, and with it an id that another call has
returned (`seen_before_rank_lost`).
-/
namespace Dictenstein.Vocab

open Runs Function List Option VocabEvent VocabSystem

variable {U ι : Type} [LinearOrder U]

instance (d : Disk U) (term : List U) (id : Nat) : Decidable (Recovered d term id) :=
  inferInstanceAs (Decidable (_ ∨ _))

/-! ## Every run -/

def CheckpointAlone (s : VocabSystem U ι) : VocabEvent U ι → Prop
  | .checkpoint _ => ∀ a, s.calls a = .idle
  | _ => True

section
variable [DecidableEq ι] {s s' : VocabSystem U ι} {t : ι}

structure Moves (s s' : VocabSystem U ι) (t : ι) (p : Phase U) : Prop where
  calls : s'.calls = update s.calls t p
  header : s'.disk.header = s.disk.header
  wal : ∀ e ∈ s.disk.wal, e ∈ s'.disk.wal
  returned : s'.returned = s.returned
  -- where the result of an `insert` comes from
  inserted : ∀ term id, p = .returning (.inserted term id) → s.calls t = .insert term ∧ s.getIndex term = some id ∨
    (∃ req, s.calls t = .mirror req ∧ req.term = term ∧ req.index = id) ∨
    ∃ index, s.calls t = .relook term index ∧ (s.getIndex term).getD index = id

variable {e : VocabEvent U ι} {p : Phase U}

theorem moves_goto {m : Memory U} (hp : ∀ term id, p ≠ .returning (.inserted term id)) :
    Moves s ({ s with mem := m }.goto t p) t p :=
  ⟨rfl, rfl, fun _ h => h, rfl, fun term id h => absurd h (hp term id)⟩

omit [LinearOrder U] in
theorem notNewly_ne (req : Req U) (term : List U) (id : Nat) : req.notNewly ≠ .returning (.inserted term id) := by
  unfold Req.notNewly
  cases req.kind <;> nofun

theorem durableStep_moves (s : VocabSystem U ι) (t : ι) (req : Req U) (stage : Stage U) :
    ∃ p, Moves s (s.durableStep t req stage) t p := by
  cases stage with
  | hoist =>
    simp only [durableStep]
    split
    · exact ⟨_, moves_goto (m := s.mem) (notNewly_ne req)⟩
    · exact ⟨_, moves_goto (m := s.mem) (by rintro _ _ ⟨⟩)⟩
  | append => exact ⟨_, rfl, rfl, fun e => mem_append_left _, rfl, by rintro _ _ ⟨⟩⟩
  | publish lsn =>
    simp only [durableStep]
    split
    · exact ⟨_, moves_goto (by rintro _ _ ⟨⟩)⟩
    · split
      all_goals exact ⟨_, moves_goto (by rintro _ _ ⟨⟩)⟩
  | swap lsn generation revision root termCount =>
    simp only [durableStep]
    split
    · exact ⟨_, moves_goto (by rintro _ _ ⟨⟩)⟩
    · exact ⟨_, moves_goto (m := s.mem) (by rintro _ _ ⟨⟩)⟩
  | cache lsn generation => exact ⟨_, moves_goto (by rintro _ _ ⟨⟩)⟩
  | rank lsn generation => exact ⟨_, rfl, rfl, fun e => mem_append_left _, rfl, by rintro _ _ ⟨⟩⟩
  | mark lsn rankLsn => exact ⟨_, moves_goto (by rintro _ _ ⟨⟩)⟩
  | burn lsn => exact ⟨_, moves_goto (notNewly_ne req)⟩

theorem advance_moves (hs : s.advance t (s.calls t) = some s') : ∃ p, Moves s s' t p := by
  generalize ht : s.calls t = p at hs
  cases advances hs with
  | durable => exact durableStep_moves s t _ _
  | found hget =>
    refine ⟨_, rfl, rfl, fun _ h => h, rfl, fun term id h => ?_⟩
    cases h
    exact .inl ⟨ht, hget⟩
  | allocated => exact ⟨_, moves_goto nofun⟩
  | mirroredInsert =>
    refine ⟨_, rfl, rfl, fun _ h => h, rfl, fun term id h => ?_⟩
    cases h
    exact .inr (.inl ⟨_, ht, rfl, rfl⟩)
  | mirrored | raised => exact ⟨_, moves_goto nofun⟩
  | relooked =>
    refine ⟨_, rfl, rfl, fun _ h => h, rfl, fun term id h => ?_⟩
    cases h
    exact .inr (.inr ⟨_, ht, rfl⟩)
  | _ => exact ⟨_, moves_goto (m := s.mem) nofun⟩

theorem Base.step (hs : s.step? e = some s') (halone : CheckpointAlone s e) (hb : Base s) : Base s' := by
  cases steps hs with
  | insert ht | insertWithIndex ht => exact hb.goto ht rfl trivial
  | advance hs => exact hb.advance hs
  | ret ht =>
    have h := hb.goto (p := .idle) ht rfl trivial
    exact ⟨h.store, h.live_recovered, h.phase⟩
  | checkpoint => exact hb.checkpoint halone
  | crash hopen =>
    obtain ⟨m, hok, hm⟩ := hb.opened
    obtain rfl := Except.ok.inj (hopen.symm.trans hok)
    exact hb.reopen hm

omit [DecidableEq ι] in
theorem base_create (startIndex : Nat) : Base (create startIndex : VocabSystem U ι) where
  store := {
    vocab := IsVocab.new
    count := rfl
    cache_live := nofun
    image_vocab := IsVocab.new
    recovered_live := fun term id h => h.elim (fun h => h) fun h => absurd h not_mem_nil
    wal_sorted := List.Pairwise.nil
    wal_lt := nofun
    rank_lt := nofun
    rank_recovered := nofun
    covered_lt := fun n hn => Nat.lt_succ_of_le (hn.resolve_right (Finset.notMem_empty n))
    checkpoint_lt := Nat.zero_lt_one }
  live_recovered term id h := by
    have h : findInLockfreeTrie (.new : VocabNode U) term = some id := h
    rw [find_new] at h
    cases h
  phase _ := trivial

theorem Recovered.step (hs : s.step? e = some s') (hb : Base s) {term : List U} {id : Nat} (h : Recovered s.disk term id) :
    Recovered s'.disk term id := by
  cases steps hs with
  | advance hs =>
    obtain ⟨p, hp⟩ := advance_moves hs
    exact h.append hp.header hp.wal
  | checkpoint => exact hb.recovered_checkpoint h
  | _ => exact h

/-! ## Results that were returned -/

def SeenRanked (s : VocabSystem U ι) : VocabEvent U ι → Prop
  | .advance t => match s.calls t with
    | .insert term | .relook term _ => ∀ id ∈ s.getIndex term, Recovered s.disk term id
    | _ => True
  | _ => True

omit [DecidableEq ι] in
instance (s : VocabSystem U ι) : ∀ e, Decidable (SeenRanked s e)
  | .advance t => (fun p => by split <;> infer_instance : ∀ p : Phase U, Decidable (match p with
      | .insert term | .relook term _ => ∀ id ∈ s.getIndex term, Recovered s.disk term id
      | _ => True)) (s.calls t)
  | .insert .. | .insertWithIndex .. | .ret _ | .checkpoint _ | .crash => isTrue trivial

structure Acked (s : VocabSystem U ι) : Prop where
  returning : ∀ a term id, s.calls a = .returning (.inserted term id) → Recovered s.disk term id
  returned : ∀ term id, .inserted term id ∈ s.returned → Recovered s.disk term id

theorem Acked.keep (hs : s.step? e = some s') (hb : Base s)
    (hreturning : ∀ a term id, s'.calls a = .returning (.inserted term id) → Recovered s.disk term id)
    (hreturned : ∀ term id, .inserted term id ∈ s'.returned → Recovered s.disk term id) : Acked s' :=
  ⟨fun a term id h => (hreturning a term id h).step hs hb, fun term id h => (hreturned term id h).step hs hb⟩

theorem Acked.goto (ha : Acked s) (hp : ∀ term id, p = .returning (.inserted term id) → Recovered s.disk term id) (a : ι)
    (term : List U) (id : Nat) (h : update s.calls t p a = .returning (.inserted term id)) : Recovered s.disk term id := by
  by_cases hat : a = t
  · subst hat
    rw [update_self] at h
    exact hp term id h
  · rw [update_of_ne hat] at h
    exact ha.returning a term id h

theorem Acked.step (hs : s.step? e = some s') (hseen : SeenRanked s e) (hb : Base s) (ha : Acked s) : Acked s' := by
  have hkeep := Acked.keep hs hb
  cases steps hs with
  | insert | insertWithIndex => exact hkeep (ha.goto nofun) ha.returned
  | @advance t _ hs =>
    obtain ⟨p, hp⟩ := advance_moves hs
    refine hkeep ?_ ?_
    · rw [hp.calls]
      refine ha.goto fun term id hret => ?_
      have hphase := hb.phase t
      obtain ⟨ht, hget⟩ | ⟨req, ht, rfl, rfl⟩ | ⟨index, ht, hget⟩ := hp.inserted term id hret
      · simp only [SeenRanked, ht] at hseen
        exact hseen id hget
      · rw [ht] at hphase
        exact hphase
      · -- the term was there when the call found it, so it is there now
        simp only [SeenRanked, ht] at hseen
        rw [ht] at hphase
        obtain ⟨existing, hex⟩ := isSome_iff_exists.1 hphase
        rw [hb.getIndex_eq] at hseen hget
        rw [hex, getD_some] at hget
        exact hseen id (hget ▸ hex)
    · rw [hp.returned]
      exact ha.returned
  | @ret t outcome ht =>
    refine hkeep (ha.goto nofun) fun term id h => ?_
    obtain h | h := mem_append.1 h
    · exact ha.returned term id h
    · rw [mem_singleton] at h
      exact ha.returning t term id (ht.trans (congrArg Phase.returning h.symm))
  | checkpoint =>
    rw [s.checkpointOverlay_calls, s.checkpointOverlay_returned] at hkeep
    exact hkeep ha.returning ha.returned
  | crash => exact hkeep nofun ha.returned

end

def VocabEvent.isCheckpoint : VocabEvent U ι → Bool
  | .checkpoint _ => true
  | _ => false

/-- **An id that `insert` has returned is the id of its term after a crash**, whatever the interleaving, if every look-up
that finds its term finds it ranked. -/
theorem acked_inserts_recovered [DecidableEq ι] (startIndex : Nat) (es : List (VocabEvent U ι)) (s : VocabSystem U ι)
    (hes : ∀ e ∈ es, e.isCheckpoint = false) (hrun : run step? (es ++ [.crash]) (.create startIndex) = some s)
    (hseen : Along step? SeenRanked es (.create startIndex)) :
    ∀ term id, .inserted term id ∈ s.returned → s.getIndex term = some id := by
  obtain ⟨s₁, hrun₁, hcrash⟩ := run_append.1 hrun
  obtain ⟨s', hstep, hnil⟩ := run_cons.1 hcrash
  obtain rfl : s' = s := some.inj hnil
  have hcond := along_and (P := fun e : VocabEvent U ι => e.isCheckpoint = false) es _ hes hseen
  have halone : ∀ (m : VocabSystem U ι) e, e.isCheckpoint = false → CheckpointAlone m e := by
    intro m e he
    cases e with
    | checkpoint t => cases he
    | _ => trivial
  have hinv : Base s₁ ∧ Acked s₁ := Runs.invariant (I := fun m => Base m ∧ Acked m)
    (fun m e m' hs hc hi => ⟨hi.1.step hs (halone m e hc.1), hi.2.step hs hc.2 hi.1⟩) es _ s₁ hrun₁ hcond
    ⟨base_create startIndex, ⟨nofun, nofun⟩⟩
  have hb' := hinv.1.step hstep (halone s₁ .crash rfl)
  have ha' := hinv.2.step hstep trivial hinv.1
  intro term id h
  rw [hb'.getIndex_eq]
  exact hb'.store.recovered_live term id (ha'.returned term id h)

/-- The first call of a run has published its term; the second one looks it up before it is ranked. -/
def seenBeforeRank : List (VocabEvent Nat (Fin 2)) :=
  [insert 0 [1], advance 0, advance 0, advance 0, advance 0, advance 0, advance 0, insert 1 [1], advance 1, ret 1]

/-- **A returned id can be lost.** -/
theorem seen_before_rank_lost : ∃ s : VocabSystem Nat (Fin 2),
    run step? (seenBeforeRank ++ [.crash]) (.create 1) = some s ∧ .inserted [1] 1 ∈ s.returned ∧
      s.getIndex [1] = none ∧ ¬ Along step? SeenRanked seenBeforeRank (.create 1) := by
  obtain ⟨s, hs, hp⟩ := exists_run step? (seenBeforeRank ++ [crash]) (.create 1)
    (fun s => decide (Outcome.inserted [1] 1 ∈ s.returned ∧ s.getIndex [1] = none)) (by decide +kernel)
  obtain ⟨hret, hnone⟩ := of_decide_eq_true hp
  exact ⟨s, hs, hret, hnone, by decide +kernel⟩

/-- The second call looks the term up when it is ranked; the first one has not returned. -/
theorem acked_inserts_recovered_ranked : ∃ s : VocabSystem Nat (Fin 2),
    run step? ([VocabEvent.insert 0 [1], .advance 0, .advance 0, .advance 0, .advance 0, .advance 0, .advance 0, .advance 0,
      .advance 0, .insert 1 [1], .advance 1, .ret 1] ++ [.crash]) (.create 1) = some s ∧
    .inserted [1] 1 ∈ s.returned ∧ s.getIndex [1] = some 1 := by
  obtain ⟨s, hs, hp⟩ :=
    exists_run step? ([VocabEvent.insert 0 [1], .advance 0, .advance 0, .advance 0, .advance 0, .advance 0,
      .advance 0, .advance 0, .advance 0, .insert 1 [1], .advance 1, .ret 1] ++ [.crash])
        (create 1 : VocabSystem Nat (Fin 2))
    (fun s => decide (Outcome.inserted [1] 1 ∈ s.returned)) (by decide +kernel)
  have hret := of_decide_eq_true hp
  exact ⟨s, hs, hret, acked_inserts_recovered 1 _ s (by decide) hs (by decide +kernel) [1] 1 hret⟩

/-- **A crash between any two steps of concurrent calls**: the file opens, the reopened vocabulary gives no term another id
and none that it did not have, the terms it lacks are those whose call had not ranked them, and its count is exact. -/
theorem crash_keeps_ids [DecidableEq ι] (startIndex : Nat) (es : List (VocabEvent U ι)) (s : VocabSystem U ι)
    (hrun : run step? es (.create startIndex) = some s) (halone : Along step? CheckpointAlone es (.create startIndex)) :
    ∃ s', s.step? .crash = some s' ∧ (∀ term id, s'.getIndex term = some id → s.getIndex term = some id) ∧
      (∀ term id, s.getIndex term = some id → s'.getIndex term = some id ∨ ∃ a, (s.calls a).unranked = some (term, id)) ∧
      {term | (s'.getIndex term).isSome}.Finite ∧ s'.len = {term | (s'.getIndex term).isSome}.ncard := by
  have hb : Base s := Runs.invariant (fun _ _ _ hs hc hi => hi.step hs hc) es _ s hrun halone (base_create startIndex)
  obtain ⟨m, hopen, hm⟩ := hb.opened
  have hfind := (hb.reopen hm).getIndex_eq
  obtain ⟨hfin, hcard⟩ := ncard_terms hm.sound.vocab
  refine ⟨{ s with mem := m, calls := fun _ => .idle }, by simp only [step?, hopen], fun term id h => ?_,
    fun term id h => ?_, ?_, ?_⟩
  · rw [hfind, hm.find_iff] at h
    rw [hb.getIndex_eq]
    exact hb.store.recovered_live term id h
  · rw [hb.getIndex_eq] at h
    rw [hfind, hm.find_iff]
    exact hb.live_recovered term id h
  · simpa only [hfind] using hfin
  · simp only [hfind]
    exact hm.sound.count.trans hcard.symm

theorem crash_keeps_ids_unranked : ∃ s s' : VocabSystem Nat (Fin 2), run step? seenBeforeRank (.create 1) = some s ∧
    s.step? .crash = some s' ∧ s.getIndex [1] = some 1 ∧ s'.getIndex [1] = none ∧
      ∃ a, (s.calls a).unranked = some ([1], 1) := by
  obtain ⟨s, hs, hp⟩ := exists_run step? seenBeforeRank (.create 1) (fun s => decide (s.getIndex [1] = some 1 ∧
    (s.step? .crash).all fun s' => s'.getIndex [1] = none)) (by decide +kernel)
  obtain ⟨hget, hcrash⟩ := of_decide_eq_true hp
  obtain ⟨s', hs', -, hkept, -⟩ := crash_keeps_ids 1 seenBeforeRank s hs
    (along_of_forall _ _ (by simp [seenBeforeRank, CheckpointAlone]))
  rw [hs', Option.all_some, decide_eq_true_eq] at hcrash
  exact ⟨s, s', hs, hs', hget, hcrash, (hkept [1] 1 hget).resolve_left (by simp [hcrash])⟩

end Dictenstein.Vocab
