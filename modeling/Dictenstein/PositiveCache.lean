import Dictenstein.CrashReplay
/-! # PositiveCache — the cache of present terms under concurrent inserts and removes

A call updates the cache in a step of its own, after its compare-and-swap. An insert may win, lose the term to a remove that
invalidates the cache at once, and mark the term afterwards: the entry then stays. And an insert may probe the cache between
the compare-and-swap of a remove and its invalidation: it answers "already present" for an absent term.

`cacheSound` excludes both. Under it a cached term is present or about to be invalidated (`Coherent`). -/

namespace Dictenstein.Overlay

open Wire Wal Recovery OverlayNode DictionaryValue CounterLeaf PersistentARTrie Function List Option Runs DurableOp
  Overlay.System Event Phase

/-! ## Reading through the cache -/

section Read

variable {V : Type} (faultIn : FaultIn UInt8 V) (t : PersistentARTrie V)

def PersistentARTrie.containsLockfree (term : Bytes) : Bool × PersistentARTrie V :=
  if term ∈ t.overlay.cache then (true, t)
  else match findLeafFaulting faultIn t.overlay.slot term defaultMaxFaultinRetries with
    | (.ok found, slot) => (found.isSome, t.withSlot slot)
    -- on a failed load, whatever is in memory
    | (.error _, slot) => ((findLeafIterative slot.node term).isSome, t.withSlot slot)

variable {faultIn t}

theorem containsLockfree_of_resident (h : Everywhere faultIn Resident t.root) (term : Bytes) :
    (t.containsLockfree faultIn term).1 = true ↔ term ∈ t.overlay.cache ∨ entryAt faultIn t.root term ≠ none := by
  unfold PersistentARTrie.containsLockfree
  by_cases hc : term ∈ t.overlay.cache
  · simp [hc]
  · obtain ⟨found, hfound, hvalue⟩ := findLeafFaulting_of_resident h term defaultMaxFaultinRetries
    have hentry : entryAt faultIn t.root term = found.map OverlayNode.value := hvalue.symm
    rw [if_neg hc, hfound, hentry]
    cases found <;> simp [hc]

theorem entryAt_of_presentHoist {term : Bytes} (h : t.presentHoist term = true) : entryAt faultIn t.root term ≠ none := by
  unfold presentHoist at h
  split at h
  · rename_i hterm
    subst hterm
    simp [OverlayNode.entry, h]
  · obtain ⟨m, hm⟩ := isSome_iff_exists.1 h
    rw [entryAt_of_findLeafIterative hm]
    simp

end Read

/-! ## Steps on the cache -/

section Steps

variable {V : Type}

def Phase.marks? : Phase V → Option Bytes
  | .observed (.insert term) => some term
  | .refused p => match p.op with
    | .insert term => some term
    | _ => none
  | .published p _ => match p.op with
    | .insert term | .insertWithValue term _ | .upsert term _ | .compareAndSwap term _ _ => some term
    | .remove _ | .increment .. => none
  | _ => none

/-- The term of a remove that has won its compare-and-swap and is about to invalidate the cache. -/
def Phase.invalidates? : Phase V → Option Bytes
  | .published p _ => match p.op with
    | .remove term => some term
    | _ => none
  | _ => none

def InvalidationPending (s : System V) (term : Bytes) : Prop := ∃ u, (s.calls u).invalidates? = some term

/-- A term is marked only while it is in the root or a remove of it has still to invalidate the cache, and no insert probes
the cache for a term in the latter case. -/
def cacheSound (faultIn : FaultIn UInt8 V) (s : System V) : Event V → Prop
  | .step u =>
    (∀ term, (s.calls u).marks? = some term → entryAt faultIn s.trie.root term ≠ none ∨ InvalidationPending s term) ∧
      ∀ term, s.calls u = .started (.insert term) → ¬ InvalidationPending s term
  | _ => True

def Coherent (faultIn : FaultIn UInt8 V) (s : System V) : Prop :=
  ∀ term ∈ s.trie.overlay.cache, entryAt faultIn s.trie.root term ≠ none ∨ InvalidationPending s term

variable [DictionaryValue V] [CounterLeaf V] {faultIn : FaultIn UInt8 V} {s s' : System V}

omit [DictionaryValue V] [CounterLeaf V] in
theorem cache_touchRefused (t : PersistentARTrie V) (op : DurableOp V) :
    ∀ term ∈ (op.touchRefused t).overlay.cache, term ∈ t.overlay.cache ∨ op = .insert term := by
  intro term hterm
  cases op with
  | insert term' =>
    rcases Finset.mem_insert.1 hterm with rfl | hold
    · exact .inr rfl
    · exact .inl hold
  | remove term' => exact .inl (Finset.mem_of_mem_erase hterm)
  | _ => exact .inl hterm

variable {cs : List Commit}

theorem advance_cache {t t' : PersistentARTrie V} {ph ph' : Phase V} (h : ph.advance faultIn t = some (t', cs, ph')) :
    (∀ term ∈ t'.overlay.cache, term ∈ t.overlay.cache ∨ ph.marks? = some term) ∧
      ∀ term, ph.invalidates? = some term → term ∉ t'.overlay.cache := by
  have hsame : t'.overlay.cache = t.overlay.cache → ∀ term ∈ t'.overlay.cache, term ∈ t.overlay.cache ∨
    ph.marks? = some term :=
    fun heq term hterm => .inl (heq ▸ hterm)
  have hnever : ph.invalidates? = none → ∀ term, ph.invalidates? = some term → term ∉ t'.overlay.cache := by
    intro hnone term hi
    rw [hnone] at hi
    cases hi
  cases ph with
  | idle | done => cases h
  | observed op =>
    cases h
    refine ⟨fun term hterm => (cache_touchRefused t op term hterm).imp_right fun hop => ?_, hnever rfl⟩
    rw [hop]
    rfl
  | refused p =>
    cases h
    refine ⟨fun term hterm => (cache_touchRefused t p.op term hterm).imp_right fun hop => ?_, hnever rfl⟩
    simp only [marks?, hop]
  | published p g =>
    cases h
    cases hop : p.op with
    | remove term' =>
      refine ⟨fun term hterm => .inl (Finset.mem_of_mem_erase hterm), fun term hi => ?_⟩
      simp only [invalidates?, hop, some.injEq] at hi
      subst hi
      exact Finset.notMem_erase _ _
    | increment k delta =>
      exact ⟨fun term hterm => .inl hterm, fun term hi => by simp [invalidates?, hop] at hi⟩
    | insert term' | insertWithValue term' v | upsert term' v | compareAndSwap term' x v =>
      refine ⟨fun term hterm => ?_, fun term hi => by simp [invalidates?, hop] at hi⟩
      rcases Finset.mem_insert.1 hterm with rfl | hold
      · exact .inr (by simp only [marks?, hop])
      · exact .inl hold
  | removeMissed | loaded =>
    rw [advance, some.injEq] at h
    split at h <;> cases h <;> exact ⟨hsame rfl, hnever rfl⟩
  | claimed p revision generation =>
    rw [advance, some.injEq] at h
    split at h
    · exact ⟨hsame (swapped h).frame.2.2.1, hnever rfl⟩
    · cases h
      exact ⟨hsame rfl, hnever rfl⟩
  | counted p revision generation v =>
    rw [advance, some.injEq] at h
    exact ⟨hsame (swapped h).frame.2.2.1, hnever rfl⟩
  | _ => cases h; exact ⟨hsame rfl, hnever rfl⟩

def Membership (op : DurableOp V) : Prop := ∃ term, op = .insert term ∨ op = .remove term

theorem Coherent.advance (h : Coherent faultIn s) (hinv : Inv faultIn s) (hops : Ops Membership s) {u : Nat}
    {t' : PersistentARTrie V} {ph' : Phase V} (hsound : cacheSound faultIn s (.step u))
    (hadv : (s.calls u).advance faultIn s.trie = some (t', cs, ph')) : Coherent faultIn (s.after u t' cs ph') := by
  obtain ⟨hmarks, hinvalidates⟩ := advance_cache hadv
  intro term hterm
  -- the term was present or to be invalidated before the step, by another call if it still is cached
  have hbefore : entryAt faultIn s.trie.root term ≠ none ∨ ∃ v, v ≠ u ∧ (s.calls v).invalidates? = some term := by
    have hold : entryAt faultIn s.trie.root term ≠ none ∨ InvalidationPending s term :=
      (hmarks term hterm).elim (h term) (hsound.1 term)
    refine hold.imp_right fun ⟨v, hv⟩ => ⟨v, fun heq => ?_, hv⟩
    exact hinvalidates term (heq ▸ hv) hterm
  rcases hbefore with hpresent | ⟨v, hne, hv⟩
  · rcases hinv.advance_root hadv with ⟨-, hroot⟩ | ⟨p, g, -, rfl, hpub⟩
    · exact .inl (by rw [show (s.after u t' cs ph').trie.root = s.trie.root from hroot]; exact hpresent)
    · obtain ⟨e, hu, he⟩ := hpub.updates
      by_cases hkey : term = p.op.term
      · have hop : Membership p.op := hops.calls u p.op (by rw [← (advance_op hadv).1]; rfl)
        obtain ⟨term', hins | hrem⟩ := hop
        · left
          show entryAt faultIn t'.root term ≠ none
          rw [hu.entry, hkey, update_self, he (by simp [hins, isIncrement]) p.lsn, hins]
          cases entryAt faultIn s.trie.root (insert term' : DurableOp V).term <;>
            simp [recovered, replayEntry]
        · right
          refine ⟨u, ?_⟩
          simp only [System.after, update_self, invalidates?, hrem]
          rw [hkey, hrem]
          rfl
      · left
        show entryAt faultIn t'.root term ≠ none
        rw [hu.entry, update_of_ne hkey]
        exact hpresent
  · exact .inr ⟨v, by simp only [System.after, update_of_ne hne]; exact hv⟩

theorem Coherent.step (h : Coherent faultIn s) (hinv : Inv faultIn s) (hops : Ops Membership s) {e : Event V}
    (he : cacheSound faultIn s e) (hstep : s.step? faultIn e = some s') : Coherent faultIn s' := by
  have hkeep : ∀ (u : Nat) (ph : Phase V), (s.calls u).invalidates? = none →
      ∀ term, InvalidationPending s term → ∃ v, (update s.calls u ph v).invalidates? = some term := by
    rintro u ph hu term ⟨v, hv⟩
    have hne : v ≠ u := fun heq => by rw [heq, hu] at hv; cases hv
    exact ⟨v, by rw [update_of_ne hne]; exact hv⟩
  cases stepped hstep with
  | call u op hidle =>
    exact fun term hterm => (h term hterm).imp_right (hkeep u _ (by rw [hidle]; rfl) term)
  | step u t' cs ph' hadv =>
    exact h.advance hinv hops he hadv
  | ret u op reply hdone =>
    exact fun term hterm => (h term hterm).imp_right (hkeep u _ (by rw [hdone]; rfl) term)
  | capture e c he => exact h

end Steps

/-! ## Whole runs -/

section Runs

variable {V : Type} [DictionaryValue V] [CounterLeaf V] {faultIn : FaultIn UInt8 V} {s s' : System V}

structure CacheInv (faultIn : FaultIn UInt8 V) (s : System V) : Prop where
  inv : Inv faultIn s
  ops : Ops Membership s
  coherent : Coherent faultIn s

theorem cacheInv_create : CacheInv faultIn (create : System V) :=
  ⟨inv_create, ops_create _, fun term hterm => absurd hterm (Finset.notMem_empty term)⟩

def CacheStep (faultIn : FaultIn UInt8 V) (s : System V) (e : Event V) : Prop :=
  e.Calls Membership ∧ cacheSound faultIn s e

variable {term : Bytes} {u : Nat} {e : Event V} {cs : List Commit} {ph' : Phase V}

theorem CacheInv.step (h : CacheInv faultIn s) (he : CacheStep faultIn s e) (hstep : s.step? faultIn e = some s') :
    CacheInv faultIn s' :=
  ⟨h.inv.step hstep, h.ops.step he.1 hstep, h.coherent.step h.inv h.ops he.2 hstep⟩

/-- The call is on the way to answer that `term` was already there. -/
def Phase.AnswersPresent (faultIn : FaultIn UInt8 V) (term : Bytes) : Phase V → Prop
  | .idle | .started _ | .insertMissed _ | .removeMissed _ => False
  | .observed op => op = .insert term
  | .ready op reply | .done op reply => op = .insert term ∧ reply = .changed false
  | .appended p | .published p _ | .touched p _ | .ranked p _ | .marked p _ =>
    p.op = .insert term ∧ p.reply = .changed false
  | .loaded p revision | .claimed p revision _ =>
    p.op = .insert term ∧ (p.reply = .changed false ∨ entryAt faultIn revision.node term ≠ none)
  | .counted p .. | .refused p | .burning p => p.op = .insert term

omit [DictionaryValue V] [CounterLeaf V] in
theorem Phase.AnswersPresent.op? {ph : Phase V} (h : ph.AnswersPresent faultIn term) : ph.op? = some (.insert term) := by
  cases ph with
  | idle | started | insertMissed | removeMissed => exact h.elim
  | observed | counted | refused | burning => exact congrArg some h
  | _ => exact congrArg some h.1

omit [CounterLeaf V] [DictionaryValue V] in
theorem not_answersPresent_enter (t : PersistentARTrie V) (op : DurableOp V) (term : Bytes) :
    ¬ (enter t op).AnswersPresent faultIn term := by
  unfold enter
  split
  · rintro ⟨-, hreply⟩
    cases hreply
  · exact id

omit [CounterLeaf V] in
theorem answersPresent_casRoot {t t' : PersistentARTrie V} {p : Pending V} {revision : RootRevision UInt8 V} {g : Nat}
    (hn : WellFormed faultIn revision.node)
    (hstep : casRoot t p revision g (insertAttempt faultIn revision.node term) = (t', cs, ph'))
    (h : ph'.AnswersPresent faultIn term) : p.reply = .changed false ∨ entryAt faultIn revision.node term ≠ none := by
  cases hattempt : insertAttempt faultIn revision.node term with
  | publish new delta =>
    rw [hattempt, casRoot] at hstep
    split at hstep <;> cases hstep <;> exact .inl h.2
  | refuse claimed =>
    right
    intro habsent
    obtain ⟨new, hnew, -⟩ := insertAttempt_absent hn habsent
    rw [hattempt] at hnew
    cases hnew
  | fail e =>
    rw [hattempt] at hstep
    cases hstep
    cases h.2

theorem CacheInv.answers (h : CacheInv faultIn s) (hsound : cacheSound faultIn s (.step u)) {t' : PersistentARTrie V}
    (hadv : (s.calls u).advance faultIn s.trie = some (t', cs, ph')) (hph' : ph'.AnswersPresent faultIn term) :
    (s.calls u).AnswersPresent faultIn term ∨ entryAt faultIn s.trie.root term ≠ none := by
  have hop : (s.calls u).op? = some (.insert term) := (advance_op hadv).1 ▸ hph'.op?
  have hok := h.inv.calls u
  have hprobe := hsound.2 term
  generalize s.calls u = ph at hadv hop hok hprobe ⊢
  cases ph with
  | idle | done => cases hadv
  | started op =>
    cases hop
    cases hadv
    right
    rw [start] at hph'
    split at hph'
    · rename_i hcached
      exact (h.coherent term hcached).resolve_right (hprobe rfl)
    · exact hph'.elim
  | insertMissed term' =>
    cases hop
    cases hadv
    right
    split at hph'
    · rename_i hpresent
      exact entryAt_of_presentHoist hpresent
    · cases hph'.2
  | removeMissed term' => cases hop
  | ready op reply | published p g | touched p g | ranked p r | marked p r =>
    cases hadv
    exact .inl hph'
  | appended p =>
    cases hadv
    exact hph'.2.imp (fun hreply => ⟨hph'.1, hreply⟩) id
  | loaded p revision =>
    have hp : p.op = .insert term := some.inj hop
    rw [advance, hp, some.injEq] at hadv
    split at hadv
    · rename_i hrefuse
      refine .inl ⟨hp, .inr fun habsent => ?_⟩
      obtain ⟨new, hnew, -⟩ := insertAttempt_absent hok.2.wellFormed habsent
      rw [attempt, hnew] at hrefuse
      cases hrefuse
    · cases hadv
      exact .inl hph'
  | claimed p revision g =>
    have hp : p.op = .insert term := some.inj hop
    rw [advance, hp, some.injEq] at hadv
    exact .inl ⟨hp, answersPresent_casRoot hok.2.1.wellFormed hadv hph'⟩
  | _ => exact .inl (some.inj hop)

theorem CacheInv.answers_step (h : CacheInv faultIn s) (he : cacheSound faultIn s e) (hstep : s.step? faultIn e = some s')
    (hbefore : ¬ (s.calls u).AnswersPresent faultIn term) (hafter : (s'.calls u).AnswersPresent faultIn term) :
    entryAt faultIn s.trie.root term ≠ none := by
  -- only a step of the call itself can make it turn
  have hself : ∀ v (ph : Phase V), (update s.calls v ph u).AnswersPresent faultIn term →
      u = v ∧ ph.AnswersPresent faultIn term := by
    intro v ph hph
    by_cases huv : u = v
    · subst huv
      rw [update_self] at hph
      exact ⟨rfl, hph⟩
    · rw [update_of_ne huv] at hph
      exact absurd hph hbefore
  cases stepped hstep with
  | call v op hidle =>
    exact absurd (hself v _ hafter).2 (not_answersPresent_enter s.trie op term)
  | step v t' cs ph' hadv =>
    obtain ⟨rfl, hph'⟩ := hself v ph' hafter
    exact (h.answers he hadv hph').resolve_left hbefore
  | ret v op reply hdone =>
    exact (hself v _ hafter).2.elim
  | capture e c he => exact absurd hafter hbefore

/-- **Concurrent inserts and removes over the cache.** If terms are marked only while they are present or still to be
invalidated, and no insert probes the cache in the latter case, then at rest a read through the cache says exactly what the
root has; and an insert that answers `false` has its term in the root at some moment of the call. -/
theorem positive_cache (faultIn : FaultIn UInt8 V) (es : List (Event V)) (s : System V)
    (hrun : run (step? faultIn) es create = some s) (hcalls : ∀ e ∈ es, e.Calls Membership)
    (hok : Runs.Along (step? faultIn) (cacheSound faultIn) es create) :
    ((∀ u, s.calls u = .idle) → ∀ term,
      ((s.trie.containsLockfree faultIn term).1 = true ↔ entryAt faultIn s.trie.root term ≠ none)) ∧
    ∀ u term es₁ es₂, es = es₁ ++ .call u (.insert term) :: es₂ → s.calls u = .done (.insert term) (.changed false) →
      ∃ es₃ es₄ m, es₂ = es₃ ++ es₄ ∧ run (step? faultIn) (es₁ ++ .call u (.insert term) :: es₃) create = some m ∧
        entryAt faultIn m.trie.root term ≠ none := by
  have hstep : ∀ (s : System V) e s', s.step? faultIn e = some s' → CacheStep faultIn s e → CacheInv faultIn s →
      CacheInv faultIn s' := fun s e s' hstep he hi => hi.step he hstep
  have hboth := along_and es System.create hcalls hok
  constructor
  · intro hidle term
    have hcache : CacheInv faultIn s := invariant hstep es create s hrun hboth cacheInv_create
    rw [containsLockfree_of_resident hcache.inv.shared.resident]
    refine or_iff_right_of_imp fun hcached => (hcache.coherent term hcached).resolve_right ?_
    rintro ⟨u, hu⟩
    rw [hidle u] at hu
    cases hu
  · intro u term es₁ es₂ hes hdone
    subst hes
    obtain ⟨a, hrun₁, hrun₂⟩ := run_append.1 hrun
    obtain ⟨b, hcall, hrun₃⟩ := run_cons.1 hrun₂
    obtain ⟨hok₁, hok₂⟩ := along_append es₁ System.create a hrun₁ hboth
    have ha : CacheInv faultIn a := invariant hstep es₁ create a hrun₁ hok₁ cacheInv_create
    obtain ⟨hc, hok₃⟩ := along_cons hcall hok₂
    have hbefore : ¬ (b.calls u).AnswersPresent faultIn term := by
      have hb : b.calls u = enter a.trie (.insert term) := by
        rw [(step?_call.1 hcall).2]
        exact update_self ..
      rw [hb]
      exact not_answersPresent_enter a.trie (.insert term) term
    have hafter : (s.calls u).AnswersPresent faultIn term := by
      rw [hdone]
      exact ⟨rfl, rfl⟩
    -- the step in which the call turns to the answer
    obtain ⟨es₃, e, es₄, m, m', hsplit, hm, hi, he, hturn, hnot, hanswers⟩ := exists_turn hstep
      (P := fun s => (s.calls u).AnswersPresent faultIn term) hrun₃ hok₃ (ha.step hc hcall) hbefore hafter
    exact ⟨es₃, e :: es₄, m, hsplit, run_append.2 ⟨a, hrun₁, run_cons.2 ⟨b, hcall, hm⟩⟩,
      hi.answers_step he.2 hturn hnot hanswers⟩

end Runs

/-! ## Two schedules that break it -/

def Phase.answeredPresent {V : Type} (term : Bytes) : Phase V → Bool
  | .done (.insert term') (.changed false) => decide (term' = term)
  | _ => false

theorem Phase.eq_of_answeredPresent {V : Type} {ph : Phase V} {term : Bytes} (h : ph.answeredPresent term = true) :
    ph = .done (.insert term) (.changed false) := by
  unfold answeredPresent at h
  split at h
  · rw [of_decide_eq_true h]
  · cases h

/-- An insert wins its compare-and-swap; a remove of the term runs from call to return; the insert marks the term. -/
def markAfterRemove : List (Event UInt64) :=
  [call 0 (.insert [1])] ++ List.replicate 6 (step 0) ++ [call 1 (.remove [1])] ++
    List.replicate 9 (step 1) ++ [ret 1] ++ List.replicate 4 (step 0) ++ [ret 0]

/-- An insert returns, and a remove of the term wins its compare-and-swap. -/
def removeBeforeInvalidation : List (Event UInt64) :=
  [call 0 (.insert [1])] ++ List.replicate 10 (step 0) ++ [ret 0, .call 1 (.remove [1])] ++ List.replicate 5 (step 1)

/-- Before the remove invalidates the cache, a second insert is called and probes it. -/
def probeBeforeInvalidation : List (Event UInt64) := [call 2 (.insert [1]), .step 2]

/-- The first schedule leaves a removed term in the cache at rest. In the second an insert answers `false`, and the term is
absent all through the call. -/
theorem positive_cache_stale :
    (∀ e ∈ markAfterRemove ++ removeBeforeInvalidation ++ probeBeforeInvalidation, e.Calls Membership) ∧
      (∃ s : System UInt64, run (step? noLoader) markAfterRemove create = some s ∧
        (∀ u, s.calls u = .idle) ∧ (s.trie.containsLockfree noLoader [1]).1 = true ∧
        entryAt noLoader s.trie.root [1] = none) ∧
      ∃ s : System UInt64, run (step? noLoader) (removeBeforeInvalidation ++ probeBeforeInvalidation) create = some s ∧
        s.calls 2 = .done (.insert [1]) (.changed false) ∧
        ∀ es₃ es₄ m, probeBeforeInvalidation = es₃ ++ es₄ →
          run (step? noLoader) (removeBeforeInvalidation ++ es₃) create = some m →
          entryAt noLoader m.trie.root [1] = none := by
  refine ⟨?_, ?_, ?_⟩
  · simp [markAfterRemove, removeBeforeInvalidation, probeBeforeInvalidation, Event.Calls, Membership]
  · obtain ⟨s, hrun, hs⟩ := exists_run (step? noLoader) markAfterRemove create
      (fun s => decide (s.idleBelow 2 = true ∧ (s.trie.containsLockfree noLoader [1]).1 = true ∧
        entryAt noLoader s.trie.root [1] = none)) (by decide +kernel)
    obtain ⟨hidle, hcontains, habsent⟩ := of_decide_eq_true hs
    exact ⟨s, hrun, idle_of_run (n := 2) hrun (by simp [markAfterRemove, within]) hidle, hcontains, habsent⟩
  · obtain ⟨s, hrun, hs⟩ := exists_run (step? noLoader)
      (removeBeforeInvalidation ++ probeBeforeInvalidation) create (fun s => (s.calls 2).answeredPresent [1])
      (by decide +kernel)
    have hinits : ∀ es₃ ∈ probeBeforeInvalidation.inits, (run (step? noLoader) (removeBeforeInvalidation ++ es₃) create).all
          (fun m => decide (entryAt noLoader m.trie.root [1] = none)) = true := by decide +kernel
    refine ⟨s, hrun, eq_of_answeredPresent hs, fun es₃ es₄ m hsplit hm => ?_⟩
    have hall := hinits es₃ ((mem_inits _ _).2 ⟨es₄, hsplit.symm⟩)
    rw [hm] at hall
    exact of_decide_eq_true hall

def checkCache (n : Nat) (s : System UInt64) : Event UInt64 → Bool
  | .step u => ((s.calls u).marks?.all fun term => decide (entryAt noLoader s.trie.root term ≠ none)) &&
    match s.calls u with
    | .started (.insert term) => (List.range n).all fun v => decide ((s.calls v).invalidates? ≠ some term)
    | _ => true
  | _ => true

theorem cacheSound_of_check {n : Nat} {s : System UInt64} {e : Event UInt64} (hbelow : s.Below n)
    (h : checkCache n s e = true) : cacheSound noLoader s e := by
  cases e with
  | step u =>
    obtain ⟨hmarks, hprobe⟩ := Bool.and_eq_true_iff.1 h
    refine ⟨fun term hterm => .inl ?_, fun term hstarted => ?_⟩
    · rw [hterm] at hmarks
      exact of_decide_eq_true hmarks
    · rintro ⟨v, hv⟩
      rw [hstarted] at hprobe
      have hlt : v < n := hbelow.lt (fun hidle => by rw [hidle] at hv; cases hv)
      exact of_decide_eq_true (all_eq_true.1 hprobe v (mem_range.2 hlt)) hv
  | _ => trivial

/-- An insert, a remove and an insert return one after the other; a last insert answers that the term is there. -/
def insertRemoveInsert : List (Event UInt64) :=
  [call 0 (.insert [1])] ++ List.replicate 10 (step 0) ++ [ret 0, .call 1 (.remove [1])] ++
    List.replicate 9 (step 1) ++ [ret 1, .call 0 (.insert [1])] ++ List.replicate 10 (step 0) ++
    [ret 0]

theorem positive_cache_four_calls : (∃ s : System UInt64, run (step? noLoader) insertRemoveInsert create = some s ∧
      ∀ term, ((s.trie.containsLockfree noLoader term).1 = true ↔ entryAt noLoader s.trie.root term ≠ none)) ∧
    ∃ s : System UInt64, run (step? noLoader) (insertRemoveInsert ++ [call 1 (.insert [1]), .step 1])
        create = some s ∧ s.calls 1 = .done (.insert [1]) (.changed false) ∧
      ∃ es₃ es₄ m, [step 1] = es₃ ++ es₄ ∧
        run (step? noLoader) (insertRemoveInsert ++ .call 1 (.insert [1]) :: es₃) create = some m ∧
        entryAt noLoader m.trie.root [1] ≠ none := by
  have hcalls : ∀ e ∈ insertRemoveInsert ++ [call 1 (.insert [1]), .step 1], e.Calls Membership := by
    simp [insertRemoveInsert, Event.Calls, Membership]
  have hcheck : Runs.Along (step? noLoader) (fun s e => e.within 2 = true ∧ checkCache 2 s e = true)
      (insertRemoveInsert ++ [call 1 (.insert [1]), .step 1]) create := by decide +kernel
  have hok : Runs.Along (step? noLoader) (cacheSound noLoader)
      (insertRemoveInsert ++ [call 1 (.insert [1]), .step 1]) create :=
    along_imp (I := System.Below 2) (fun s e s' hstep he hi => hi.step he.1 hstep)
      (fun s e hi he => cacheSound_of_check hi he.2) _ create (fun u _ => rfl) hcheck
  obtain ⟨a, hrun, hidle⟩ := exists_run (step? noLoader) insertRemoveInsert create
    (idleBelow 2) (by decide +kernel)
  obtain ⟨b, hrun', hdone⟩ := exists_run (step? noLoader)
    (insertRemoveInsert ++ [call 1 (.insert [1]), .step 1]) create (fun s => (s.calls 1).answeredPresent [1])
    (by decide +kernel)
  refine ⟨⟨a, hrun, (positive_cache noLoader insertRemoveInsert a hrun
    (fun e he => hcalls e (mem_append_left _ he)) (along_append _ _ a hrun hok).1).1 ?_⟩,
    b, hrun', eq_of_answeredPresent hdone, (positive_cache noLoader _ b hrun' hcalls hok).2 1 [1]
      insertRemoveInsert [step 1] rfl (eq_of_answeredPresent hdone)⟩
  exact idle_of_run (n := 2) hrun (by simp [insertRemoveInsert, within]) hidle

end Dictenstein.Overlay
