import Dictenstein.VocabUnique
/-!
# VocabSolo — one thread, with checkpoints and crashes

With one thread nothing changes between the look-up of a call and the publication of its term, so a call that draws an id
publishes it (`SoloOk`), and a result that was returned is that of a ranked record (`Solo`).
-/
namespace Dictenstein.Vocab

open Runs List Option VocabEvent VocabSystem

variable {U : Type} [LinearOrder U]

def Outcome.binding? : Outcome U → Option (List U × Nat)
  | .inserted term id | .insertedWithIndex term id _ => some (term, id)
  | .failed _ => none

def SoloOk (m : Memory U) : Phase U → Prop
  | .allocate term | .checkReverse term _ => findInLockfreeTrie m.root term = none
  | .durable req .hoist | .durable req .append | .durable req (.publish _) | .durable req (.swap ..) =>
    findInLockfreeTrie m.root req.term = none
  | .durable _ (.burn _) | .relook .. => False
  | .returning (.insertedWithIndex term id false) => findInLockfreeTrie m.root term = some id
  | _ => True

structure Solo (s : VocabSystem U Unit) : Prop where
  phase : SoloOk s.mem (s.calls ())
  returned : ∀ outcome ∈ s.returned, ∀ term id, outcome.binding? = some (term, id) → Recovered s.disk term id

section
variable {s s' : VocabSystem U Unit}

omit [LinearOrder U] in
theorem goto_unit (p : Phase U) : (s.goto () p).calls () = p := by
  show Function.update s.calls () p () = p
  rw [Function.update_self]

theorem soloOk_durableStep (hb : Base s) {req : Req U} {stage : Stage U} (h : SoloOk s.mem (.durable req stage)) :
    SoloOk (s.durableStep () req stage).mem ((s.durableStep () req stage).calls ()) := by
  cases stage with
  | hoist =>
    have h : findInLockfreeTrie s.mem.root req.term = none := h
    simp only [durableStep, h, isSome_none, Bool.false_eq_true, if_false, goto_unit]
    exact h
  | append =>
    exact h
  | publish lsn =>
    have h : findInLockfreeTrie s.mem.root req.term = none := h
    have hspec := tryInsertLockfreePath_spec req.index req.term 0 s.mem.root hb.store.vocab
    rw [h] at hspec
    obtain ⟨root, hok, -, -⟩ := hspec
    simp only [durableStep, h, isSome_none, Bool.false_eq_true, if_false, hok, goto_unit]
    exact h
  | swap lsn generation revision root termCount =>
    simp only [durableStep]
    split
    · rw [goto_unit]
      trivial
    · rw [goto_unit]
      exact h
  | burn lsn => exact h.elim
  | _ =>
    trivial

theorem soloOk_advance (hb : Base s) (hs : s.advance () (s.calls ()) = some s') (h : SoloOk s.mem (s.calls ())) :
    SoloOk s'.mem (s'.calls ()) := by
  have hget := hb.store.getIndex_eq
  generalize s.calls () = p at hs h
  cases advances hs with
  | durable => exact soloOk_durableStep hb h
  | absent hnone => rw [goto_unit]; exact (hget _).symm.trans hnone
  | allocated => rw [goto_unit]; exact h
  | sameIndex hsame => rw [goto_unit]; exact (hget _).symm.trans hsame
  | noIndex hnone => rw [goto_unit]; exact (hget _).symm.trans hnone
  | free => rw [goto_unit]; exact h
  | relooked => exact h.elim
  | _ => rw [goto_unit]; trivial

variable {e : VocabEvent U Unit} {term : List U} {id : Nat} {es : List (VocabEvent U Unit)}

theorem Solo.recovered_returning (h : Solo s) (hb : Base s) {outcome : Outcome U} (ht : s.calls () = .returning outcome)
    (hbind : outcome.binding? = some (term, id)) : Recovered s.disk term id := by
  have hphase := hb.phase ()
  have hsolo := h.phase
  rw [ht] at hphase hsolo
  have hlive : findInLockfreeTrie s.mem.root term = some id := by
    cases outcome with
    | inserted term' id' =>
      cases hbind
      exact hphase
    | insertedWithIndex term' id' newly =>
      cases hbind
      cases newly with
      | true => exact hphase
      | false => exact hsolo
    | failed error => cases hbind
  obtain hrec | ⟨a, ha⟩ := hb.live_recovered term id hlive
  · exact hrec
  · rw [ht] at ha
    cases ha

theorem checkpointAlone_unit (hs : s.step? e = some s') : CheckpointAlone s e := by
  cases steps hs with
  | checkpoint ht => exact fun _ => ht
  | _ => trivial

theorem Solo.step (hs : s.step? e = some s') (hb : Base s) (h : Solo s) : Solo s' := by
  have hret : ∀ outcome ∈ s.returned, ∀ term id, outcome.binding? = some (term, id) → Recovered s'.disk term id :=
    fun outcome ho term id hbind => (h.returned outcome ho term id hbind).step hs hb
  cases steps hs with
  | insert | insertWithIndex => exact ⟨by rw [goto_unit]; trivial, hret⟩
  | advance hs =>
    obtain ⟨p, hp⟩ := advance_moves hs
    refine ⟨soloOk_advance hb hs h.phase, ?_⟩
    rw [hp.returned]
    exact hret
  | ret ht =>
    refine ⟨?_, fun o ho term id hbind => ?_⟩
    · rw [goto_unit]
      trivial
    · obtain ho | ho := mem_append.1 ho
      · exact hret o ho term id hbind
      · rw [mem_singleton.1 ho] at hbind
        exact h.recovered_returning hb ht hbind
  | checkpoint ht =>
    refine ⟨?_, ?_⟩
    · rw [s.checkpointOverlay_calls, ht]
      trivial
    · rw [s.checkpointOverlay_returned]
      exact hret
  | crash => exact ⟨trivial, hret⟩

theorem solo_create (startIndex : Nat) : Solo (create startIndex : VocabSystem U Unit) :=
  ⟨trivial, nofun⟩

/-! ## Every run -/

structure SoloInv (s : VocabSystem U Unit) : Prop where
  base : Base s
  unique : Unique s
  solo : Solo s

theorem SoloInv.step (hs : s.step? e = some s') (hfree : TakesFree s e) (h : SoloInv s) : SoloInv s' :=
  ⟨h.base.step hs (checkpointAlone_unit hs), h.unique.step hs (checkpointAlone_unit hs) hfree h.base, h.solo.step hs h.base⟩

theorem SoloInv.of_run (h : SoloInv s) (hrun : run step? es s = some s') (hfree : Along step? TakesFree es s) : SoloInv s' :=
  Runs.invariant (I := SoloInv) (fun _ _ _ hs hf hi => hi.step hs hf) es s s' hrun hfree h

theorem SoloInv.getIndex_iff (h : SoloInv s) (hidle : s.calls () = .idle) (term : List U) (id : Nat) :
    s.getIndex term = some id ↔ Recovered s.disk term id := by
  rw [h.base.getIndex_eq]
  refine ⟨fun hlive => ?_, h.base.store.recovered_live term id⟩
  obtain hrec | ⟨a, ha⟩ := h.base.live_recovered term id hlive
  · exact hrec
  · rw [hidle] at ha
    cases ha

end

/-- **With one thread ids are unique, `get_term` is the inverse of `get_index`, `len` counts the terms, and ids that were
given stay given**, across checkpoints and crashes, for every start index, if ids are taken when they are free. -/
theorem vocab_across_crashes (startIndex : UInt64) (es es' : List (VocabEvent U Unit)) (s s' : VocabSystem U Unit)
    (hrun : run step? es (.create startIndex.toNat) = some s) (hrun' : run step? es' s = some s')
    (hfree : Along step? TakesFree (es ++ es') (.create startIndex.toNat))
    (hidle : s.calls () = .idle) (hidle' : s'.calls () = .idle) :
    (∀ t u i, s'.getIndex t = some i → s'.getIndex u = some i → t = u) ∧
      (∀ t i, s'.getTerm i = some t ↔ s'.getIndex t = some i) ∧
      ({t | (s'.getIndex t).isSome}.Finite ∧ s'.len = {t | (s'.getIndex t).isSome}.ncard) ∧
      (∀ outcome ∈ s'.returned, ∀ t i, outcome.binding? = some (t, i) → s'.getIndex t = some i) ∧
      ∀ t i, s.getIndex t = some i → s'.getIndex t = some i := by
  obtain ⟨hfree₁, hfree₂⟩ := along_append es _ s hrun hfree
  have hinv : SoloInv s :=
    SoloInv.of_run ⟨base_create _, Unique.create startIndex, solo_create _⟩ hrun hfree₁
  have hinv' : SoloInv s' := hinv.of_run hrun' hfree₂
  have hat := hinv'.unique.at_rest fun _ => hidle'
  refine ⟨?_, fun t i => ?_, ?_, fun outcome ho t i hbind => ?_, fun t i h => ?_⟩
  · simp only [hinv'.base.getIndex_eq]
    exact hinv'.unique.inj
  · rw [hinv'.base.getIndex_eq]
    exact (hat t i).1
  · simp only [hinv'.base.getIndex_eq]
    obtain ⟨hfin, hcard⟩ := ncard_terms hinv'.base.store.vocab
    exact ⟨hfin, hinv'.base.store.count.trans hcard.symm⟩
  · exact (hinv'.getIndex_iff hidle' t i).2 (hinv'.solo.returned outcome ho t i hbind)
  · have hrec := Runs.invariant (I := fun m => SoloInv m ∧ Recovered m.disk t i)
      (fun _ _ _ hs hf hi => ⟨hi.1.step hs hf, hi.2.step hs hi.1.base⟩) _ s s' hrun' hfree₂
      ⟨hinv, (hinv.getIndex_iff hidle t i).1 h⟩
    exact (hinv'.getIndex_iff hidle' t i).2 hrec.2

def insertCrashInsert : List (VocabEvent Nat Unit) :=
  [VocabEvent.insert () [1]] ++ List.replicate 10 (VocabEvent.advance ()) ++ [VocabEvent.ret (), VocabEvent.crash] ++
    [VocabEvent.insert () [2]] ++ List.replicate 10 (VocabEvent.advance ()) ++ [VocabEvent.ret ()]

/-- **The id 0 is given to two terms.** -/
theorem id_zero_given_twice : ∃ s : VocabSystem Nat Unit,
    run step? insertCrashInsert (.create 0) = some s ∧ s.returned = [.inserted [1] 0, .inserted [2] 0] ∧
      s.getIndex [1] = some 0 ∧ s.getIndex [2] = some 0 ∧
      ¬ Along step? TakesFree insertCrashInsert (.create 0) := by
  obtain ⟨s, hs, hp⟩ := exists_run step? insertCrashInsert (.create 0)
    (fun s => decide (s.returned = [Outcome.inserted [1] 0, Outcome.inserted [2] 0] ∧
      s.getIndex [1] = some 0 ∧ s.getIndex [2] = some 0)) (by decide +kernel)
  obtain ⟨hret, hone, htwo⟩ := of_decide_eq_true hp
  exact ⟨s, hs, hret, hone, htwo, by decide +kernel⟩

/-- From the start index 1 the same run keeps the ids apart; a checkpoint and an explicit id come before the crash. -/
theorem vocab_across_crashes_checkpoint : ∃ s s' : VocabSystem Nat Unit,
    run step? ([VocabEvent.insert () [1]] ++ List.replicate 10 (VocabEvent.advance ()) ++
      [ret (), checkpoint ()]) (.create 1) = some s ∧
    run step? ([insertWithIndex () [2] 5] ++ List.replicate 11 (advance ()) ++ [ret (), crash]) s = some s' ∧
    s'.getTerm 1 = some [1] ∧ s'.getTerm 5 = some [2] ∧ s'.getIndex [1] = some 1 := by
  obtain ⟨s, hs, hp⟩ :=
    exists_run step? ([VocabEvent.insert () [1]] ++ List.replicate 10 (advance ()) ++ [ret (), checkpoint ()])
    (create 1 : VocabSystem Nat Unit) (fun s => decide ((s.calls ()).isIdle = true ∧ s.getIndex [1] = some 1 ∧
      (run step? ([insertWithIndex () [2] 5] ++ List.replicate 11 (advance ()) ++ [ret (), crash]) s).map
        (fun s => decide ((s.calls ()).isIdle = true ∧ s.getIndex [1] = some 1 ∧ s.getIndex [2] = some 5)) = some true))
    (by decide +kernel)
  obtain ⟨hidle, hone, hmap⟩ := of_decide_eq_true hp
  obtain ⟨s', hs', hp'⟩ := exists_run _ _ s _ hmap
  obtain ⟨hidle', hone', htwo'⟩ := of_decide_eq_true hp'
  obtain ⟨-, hterm, -, -, hkeep⟩ := vocab_across_crashes 1 _ _ s s' hs hs' (by decide +kernel)
    (Phase.eq_idle hidle) (Phase.eq_idle hidle')
  exact ⟨s, s', hs, hs', (hterm [1] 1).2 hone', (hterm [2] 5).2 htwo', hkeep [1] 1 hone⟩

end Dictenstein.Vocab
