import Dictenstein.OverlaySteps
/-! # CrashReplay — a crash among concurrent writers, without a checkpoint

The log replays to the ranked commits in generation order, and that is the order of the compare-and-swaps. So a key
whose calls have all returned gets back what the live trie had: all its commits are ranked.

For other keys the replay should give the effect of the ranked operation with the largest generation. An insert without a
value is published over an absent key, but replayed over a key that an unranked remove has failed to clear it keeps the
value there. It suffices that it wins its compare-and-swap only when no remove of its key awaits its rank. -/

namespace Dictenstein.Overlay

open Wire Wal Recovery OverlayNode DictionaryValue CounterLeaf PersistentARTrie List DurableOp Overlay.System Event

/-! ## One key's commits -/

section Keys

variable {V : Type} [DictionaryValue V] [CounterLeaf V]

def keyFold (key : Bytes) (commits : List Commit) (e : Option (Option V)) : Option (Option V) :=
  (commits.filter fun c => c.op.term = key).foldl (fun e c => replayEntry c.op e) e

theorem foldl_commits_apply (commits : List Commit) (m : KeyMap V) (key : Bytes) :
    (commits.map Commit.op).foldl replayMap m key = keyFold key commits (m key) := by
  rw [foldl_replayMap_apply, filter_map, foldl_map, keyFold]
  rfl

theorem committedMap_apply (commits : List Commit) (key : Bytes) :
    (committedMap commits : KeyMap V) key = keyFold key commits none := foldl_commits_apply commits _ key

theorem keyFold_append (key : Bytes) (as bs : List Commit) (e : Option (Option V)) :
    keyFold key (as ++ bs) e = keyFold key bs (keyFold key as e) := by
  rw [keyFold, filter_append, foldl_append]
  rfl

variable {key : Bytes} {commits : List Commit}

theorem keyFold_singleton {c : Commit} (h : c.op.term = key) (e : Option (Option V)) :
    keyFold key [c] e = replayEntry c.op e := by
  simp [keyFold, h]

theorem keyFold_of_ne (h : ∀ c ∈ commits, c.op.term ≠ key) (e : Option (Option V)) : keyFold key commits e = e := by
  rw [keyFold, filter_eq_nil_iff.2 (fun c hc => by simpa using h c hc)]
  rfl

theorem keyFold_filter_congr {keep keep' : Commit → Bool} (h : ∀ c ∈ commits, c.op.term = key → keep c = keep' c)
    (e : Option (Option V)) : keyFold key (commits.filter keep) e = keyFold key (commits.filter keep') e := by
  simp only [keyFold, filter_filter]
  congr 1
  apply filter_congr
  intro c hc
  by_cases hkey : c.op.term = key
  · rw [h c hc hkey]
  · simp [hkey]

theorem keyFold_filter {keep : Commit → Bool} (h : ∀ c ∈ commits, c.op.term = key → keep c = true) (e : Option (Option V)) :
    keyFold key (commits.filter keep) e = keyFold key commits e := by
  rw [keyFold_filter_congr h, filter_true]

theorem exists_last_commit (key : Bytes) (commits : List Commit) : (∀ c ∈ commits, c.op.term ≠ key) ∨
      ∃ as c bs, commits = as ++ c :: bs ∧ c.op.term = key ∧ ∀ d ∈ bs, d.op.term ≠ key := by
  induction commits using reverseRecOn with
  | nil => exact .inl nofun
  | append_singleton commits x ih =>
    by_cases hx : x.op.term = key
    · exact .inr ⟨commits, x, [], rfl, hx, nofun⟩
    · obtain hnone | ⟨as, c, bs, rfl, hc, hbs⟩ := ih
      · exact .inl (forall_mem_append.2 ⟨hnone, forall_mem_singleton.2 hx⟩)
      · exact .inr ⟨as, c, bs ++ [x], by simp, hc, forall_mem_append.2 ⟨hbs, forall_mem_singleton.2 hx⟩⟩

section Last

variable {key : Bytes} {as bs : List Commit} {c : Commit} (hc : c.op.term = key) (hbs : ∀ d ∈ bs, d.op.term ≠ key)

include hc hbs

theorem keyFold_last (e : Option (Option V)) : keyFold key (as ++ c :: bs) e = replayEntry c.op (keyFold key as e) := by
  rw [← singleton_append, keyFold_append, keyFold_append, keyFold_of_ne hbs, keyFold_singleton hc]

variable {keep : Commit → Bool}

theorem keyFold_filter_last (hkeep : keep c = true) (e : Option (Option V)) :
    keyFold key ((as ++ c :: bs).filter keep) e = replayEntry c.op (keyFold key (as.filter keep) e) := by
  rw [filter_append, filter_cons_of_pos hkeep]
  exact keyFold_last hc (fun d hd => hbs d (mem_filter.1 hd).1) e

omit hc in
theorem keyFold_filter_dropped (hkeep : ¬ keep c = true) (e : Option (Option V)) :
    keyFold key ((as ++ c :: bs).filter keep) e = keyFold key (as.filter keep) e := by
  rw [filter_append, filter_cons_of_neg hkeep, keyFold_append]
  exact keyFold_of_ne (fun d hd => hbs d (mem_filter.1 hd).1) _

end Last

end Keys

/-! ## Operations that overwrite -/

section Overwrite

variable {V : Type} [DictionaryValue V] [CounterLeaf V]
variable {op : DurableOp V}

theorem replayEntry_overwrites (hop : op.isIncrement = false) (hins : ∀ term, op ≠ .insert term) (lsn : Nat)
    (e e' : Option (Option V)) : replayEntry (op.recovered lsn) e = replayEntry (op.recovered lsn) e' := by
  cases op with
  | insert term => exact absurd rfl (hins term)
  | remove term => rfl
  | insertWithValue term v | upsert term v | compareAndSwap term x v =>
    simp [recovered, replayEntry, deserialize_serialize, setEntry]
  | increment term delta => cases hop

theorem eq_remove_of_replayEntry (hop : op.isIncrement = false) {lsn : Nat} {e : Option (Option V)}
    (h : replayEntry (op.recovered lsn) e = none) : op = .remove op.term := by
  cases op with
  | insert term => cases e <;> simp [recovered, replayEntry] at h
  | remove term => rfl
  | insertWithValue term v | upsert term v | compareAndSwap term x v =>
    simp [recovered, replayEntry, deserialize_serialize, setEntry] at h
  | increment term delta => cases hop

end Overwrite

/-! ## What a log replays to -/

section Replay

variable {V : Type} [DictionaryValue V] [CounterLeaf V] {faultIn : FaultIn UInt8 V} {s s' : System V}

def Quiescent (s : System V) (key : Bytes) : Prop := ∀ u op, (s.calls u).op? = some op → op.term ≠ key

omit [DictionaryValue V] [CounterLeaf V] in
theorem quiescent_of_idle (h : ∀ u, s.calls u = .idle) (key : Bytes) : Quiescent s key := by
  intro u op hop
  rw [h u] at hop
  cases hop

variable {key : Bytes} {c : Commit} {g : Nat} {op : RecoveredOperation}

theorem Inv.ranked_of_quiescent (h : Inv faultIn s) (hq : Quiescent s key) (hc : c ∈ s.commits) (hkey : c.op.term = key) :
    isRanked s.trie.log c.lsn = true := by
  by_contra hunranked
  obtain ⟨u, hu⟩ := h.unranked c hc (Bool.eq_false_iff.2 hunranked)
  have hq := hq u
  cases hph : s.calls u with
  | published p g | touched p g =>
    rw [hph] at hu hq
    apply hq p.op rfl
    rw [← hkey, show c = p.commit g from hu, Pending.commit, term_recovered]
  | _ =>
    rw [hph] at hu
    exact hu

/-- **A key whose calls have all returned is replayed to its live entry.** -/
theorem Inv.reopen_of_quiescent (h : Inv faultIn s) (hkey : key ≠ []) (hq : Quiescent s key) :
    entryAt faultIn (reopen faultIn s.trie.log : LiveOverlay V).slot.node key = entryAt faultIn s.trie.root key := by
  rw [entryAt_reopen h.shared.logged, h.shared.entry key hkey, foldl_commits_apply, committedMap_apply]
  exact keyFold_filter (fun c hc hterm => h.ranked_of_quiescent hq hc hterm) none

/-! ## The largest generation wins -/

/-- A surviving operation with the generation its record is ranked at. -/
def RankedOp (log : Log) (generation : Nat) (op : RecoveredOperation) : Prop :=
  ∃ lsn record, (lsn, record) ∈ log ∧ rankMap log lsn = some generation ∧ op ∈ recoveredOperationsFromRecord lsn record

theorem rankedOp_iff {log : Log} {commits : List Commit} (h : Logged log commits) :
    RankedOp log g op ↔ ∃ c ∈ commits, isRanked log c.lsn = true ∧ c.generation = g ∧ c.op = op := by
  constructor
  · rintro ⟨lsn, record, hmem, hrank, hop⟩
    obtain ⟨c, hc, rfl, hg, hops⟩ := h.commit_of_rank hmem hrank
    rw [hops] at hop
    exact ⟨c, hc, by rw [isRanked, hrank]; rfl, hg, (mem_singleton.1 hop).symm⟩
  · rintro ⟨c, hc, hranked, rfl, rfl⟩
    obtain ⟨g, hg⟩ := Option.isSome_iff_exists.1 hranked
    obtain ⟨record, hmem, hops⟩ := h.data c hc
    refine ⟨c.lsn, record, hmem, ?_, by rw [hops]; exact .head _⟩
    rw [hg, h.rankMap_eq hc hg]

/-- Whenever a valueless insert is about to win its compare-and-swap, no remove of its key awaits its rank. -/
def insertsAfterRanks (s : System V) : Event V → Prop
  | .step u => ∀ term, (s.calls u).Wins s.trie (.insert term) → ∀ v c, (s.calls v).Awaits c → c.op ≠ .remove c.lsn term
  | _ => True

/-- The removes before a valueless insert of the same key are ranked. -/
def RemovesRanked (s : System V) : Prop :=
  ∀ pre c post term, s.commits = pre ++ c :: post → c.op = .insert c.lsn term none →
    ∀ d ∈ pre, d.op = .remove d.lsn term → isRanked s.trie.log d.lsn = true

theorem isRanked_append {log more : Log} {lsn : Nat} (h : isRanked log lsn = true) : isRanked (log ++ more) lsn = true := by
  rw [isRanked, rankMap_append]
  cases rankMap more lsn with
  | none => exact h
  | some g => rfl

theorem RemovesRanked.step (h : RemovesRanked s) (hinv : Inv faultIn s) {e : Event V} (he : insertsAfterRanks s e)
    (hstep : s.step? faultIn e = some s') : RemovesRanked s' := by
  cases stepped hstep with
  | call u op hidle =>
    exact h
  | step u t' cs ph' hadv =>
    obtain ⟨-, hcs, more, hlog⟩ := advance_op hadv
    intro pre c post term heq hop d hd hremove
    show isRanked t'.log d.lsn = true
    rw [hlog]
    apply isRanked_append
    obtain rfl | ⟨p, g, rfl, -, hwins⟩ := hcs
    · exact h pre c post term ((append_nil _).symm.trans heq) hop d hd hremove
    · obtain ⟨rfl, rfl, -⟩ | ⟨post', hcommits, -⟩ := snoc_split heq
      · by_contra hunranked
        obtain ⟨v, hv⟩ := hinv.unranked d hd (Bool.eq_false_iff.2 hunranked)
        rw [eq_insert_of_recovered hop] at hwins
        exact he term hwins v d hv hremove
      · exact h pre c post' term hcommits hop d hd hremove
  | ret u op reply hdone =>
    exact h
  | capture e c he => exact h

/-- The operations the concurrent writers run: overwrites of non-empty keys. -/
def Overwrites (op : DurableOp V) : Prop := op.isIncrement = false ∧ op.term ≠ []

theorem keyFold_before_insert (hinv : Inv faultIn s) (hops : Ops Overwrites s) (hremoves : RemovesRanked s)
    {pre post : List Commit} (hcommits : s.commits = pre ++ c :: post) (hop : c.op = .insert c.lsn key none)
    (hkey : key ≠ []) :
    (keyFold key (pre.filter fun c => isRanked s.trie.log c.lsn) none : Option (Option V)) = none := by
  have hnone : (keyFold key pre none : Option (Option V)) = none := by
    rw [← committedMap_apply]
    exact hinv.shared.fresh pre c post key hcommits hop hkey
  obtain habsent | ⟨as, d, bs, rfl, hd, hbs⟩ := exists_last_commit key pre
  · exact keyFold_of_ne (fun d hd => habsent d (mem_filter.1 hd).1) none
  · -- the key was absent, so its last commit is a remove, and that one is ranked
    have hmem : d ∈ as ++ d :: bs := mem_append_right _ (.head _)
    obtain ⟨op, hover, hdop⟩ := hops.commits d (hcommits ▸ mem_append_left _ hmem)
    rw [keyFold_last hd hbs, hdop] at hnone
    have hremove : op = .remove op.term := eq_remove_of_replayEntry hover.1 hnone
    have hterm : op.term = key := by rw [← hd, hdop, term_recovered]
    have hdremove : d.op = .remove d.lsn key := by
      rw [hdop, hremove, hterm]
      rfl
    have hranked : isRanked s.trie.log d.lsn = true :=
      hremoves (as ++ d :: bs) c post key hcommits hop d hmem hdremove
    rw [keyFold_filter_last hd hbs hranked, hdremove]
    rfl

/-- **The ranked operation with the largest generation decides the key.** -/
theorem reopen_of_largest (hinv : Inv faultIn s) (hops : Ops Overwrites s) (hremoves : RemovesRanked s)
    (hop : RankedOp s.trie.log g op) (hkey : op.term = key)
    (hmax : ∀ g' op', RankedOp s.trie.log g' op' → op'.term = key → g' ≤ g) :
    entryAt faultIn (reopen faultIn s.trie.log : LiveOverlay V).slot.node key = replayEntry op none := by
  obtain ⟨c, hc, hranked, rfl, rfl⟩ := (rankedOp_iff hinv.shared.logged).1 hop
  obtain ⟨pre, post, hcommits⟩ := append_of_mem hc
  rw [entryAt_reopen hinv.shared.logged, foldl_commits_apply, hcommits, filter_append,
    filter_cons_of_pos (by exact hranked), keyFold_append, ← singleton_append, keyFold_append,
    keyFold_singleton hkey]
  -- later commits have larger generations, so no ranked one is on the key
  have hlater : ∀ d ∈ post.filter fun c => isRanked s.trie.log c.lsn, d.op.term ≠ key := by
    intro d hd hterm
    obtain ⟨hd, hdranked⟩ := mem_filter.1 hd
    have hmem : d ∈ s.commits := hcommits ▸ mem_append_right _ (.tail _ hd)
    have hle : d.generation ≤ c.generation :=
      hmax _ _ ((rankedOp_iff hinv.shared.logged).2 ⟨d, hmem, hdranked, rfl, rfl⟩) hterm
    have hgens := hinv.shared.logged.generations
    rw [hcommits, pairwise_append] at hgens
    exact Nat.not_lt.2 hle ((pairwise_cons.1 hgens.2.1).1 d hd)
  rw [keyFold_of_ne hlater]
  obtain ⟨dop, hover, hdop⟩ := hops.commits c hc
  have hterm : dop.term = key := by rw [← hkey, hdop, term_recovered]
  by_cases hins : dop = .insert key
  · have hop : c.op = .insert c.lsn key none := by
      rw [hdop, hins]
      rfl
    have hne : key ≠ [] := hterm ▸ hover.2
    rw [keyFold_before_insert hinv hops hremoves hcommits hop hne]
  · rw [hdop]
    refine replayEntry_overwrites hover.1 (fun term heq => hins ?_) _ _ _
    rw [← hterm, heq]
    rfl

end Replay

section Results

variable {V : Type} [DictionaryValue V] [CounterLeaf V]

/-- **A crash without a checkpoint, among concurrent overwrites of non-empty keys.** Generations ascend; a key whose calls
have all returned is replayed to its live entry; and if valueless inserts win only when no remove of their key awaits its
rank, then every key is replayed to the effect of its ranked operation with the largest generation. -/
theorem crash_replay (faultIn : FaultIn UInt8 V) (es : List (Event V)) (s : System V)
    (hrun : Runs.run (step? faultIn) es create = some s) (hcalls : ∀ e ∈ es, e.Calls Overwrites) :
    s.commits.Pairwise (·.generation < ·.generation) ∧ (∀ key, key ≠ [] → Quiescent s key →
        entryAt faultIn (reopen faultIn s.trie.log : LiveOverlay V).slot.node key = entryAt faultIn s.trie.root key) ∧
      (Runs.Along (step? faultIn) insertsAfterRanks es create → ∀ key, (∀ g op, RankedOp s.trie.log g op → op.term = key →
          (∀ g' op', RankedOp s.trie.log g' op' → op'.term = key → g' ≤ g) →
          entryAt faultIn (reopen faultIn s.trie.log : LiveOverlay V).slot.node key = replayEntry op none) ∧
        ((∀ g op, RankedOp s.trie.log g op → op.term ≠ key) →
          entryAt faultIn (reopen faultIn s.trie.log : LiveOverlay V).slot.node key = none)) := by
  have hinv : Inv faultIn s := inv_create.run hrun
  have hops : Ops Overwrites s := (ops_create Overwrites).run hcalls hrun
  refine ⟨hinv.shared.logged.generations, fun key hkey hq => hinv.reopen_of_quiescent hkey hq, fun hok key => ⟨?_, ?_⟩⟩
  · have hboth : Inv faultIn s ∧ RemovesRanked s :=
      Runs.invariant (C := insertsAfterRanks) (I := fun s => Inv faultIn s ∧ RemovesRanked s)
        (fun s e s' hstep he hi => ⟨hi.1.step hstep, hi.2.step hi.1 he hstep⟩) es create s hrun hok
        ⟨inv_create, fun pre c post term heq => by cases pre <;> cases heq⟩
    exact fun g op hop hkey hmax => reopen_of_largest hinv hops hboth.2 hop hkey hmax
  · intro hnone
    rw [entryAt_reopen hinv.shared.logged, foldl_commits_apply]
    refine keyFold_of_ne (fun c hc => ?_) none
    obtain ⟨hc, hranked⟩ := mem_filter.1 hc
    exact hnone c.generation c.op ((rankedOp_iff hinv.shared.logged).2 ⟨c, hc, hranked, rfl, rfl⟩)

end Results

/-- An upsert of 7 returns, a remove wins its compare-and-swap and updates the cache, a valueless insert returns. -/
def removeAwaitsRank : List (Event UInt64) :=
  [call 0 (.upsert [1] 7)] ++ List.replicate 9 (step 0) ++ [ret 0, .call 1 (.remove [1])] ++
    List.replicate 6 (step 1) ++ [call 2 (.insert [1])] ++ List.replicate 10 (step 2) ++ [ret 2]

/-- The insert has the largest ranked generation on the key, and its effect is a member without a value; the replay brings
back the removed value. -/
theorem replay_keeps_removed_value : (∀ e ∈ removeAwaitsRank, e.Calls Overwrites) ∧
      ∃ s : System UInt64, Runs.run (step? noLoader) removeAwaitsRank create = some s ∧
        RankedOp s.trie.log 3 (.insert 4 [1] none) ∧ (∀ g op, RankedOp s.trie.log g op → g ≤ 3) ∧
        entryAt noLoader (reopen noLoader s.trie.log : LiveOverlay UInt64).slot.node [1] = some (some 7) ∧
        (replayEntry (.insert 4 [1] none) none : Option (Option UInt64)) = some none := by
  refine ⟨by simp [removeAwaitsRank, Event.Calls, Overwrites, isIncrement, term], ?_⟩
  obtain ⟨s, hrun, hs⟩ := Runs.exists_run (step? noLoader) removeAwaitsRank create
    (fun s => decide ((4, WalRecord.insert [1] none) ∈ s.trie.log ∧ rankMap s.trie.log 4 = some 3 ∧
      (∀ e ∈ s.trie.log, ∀ g ∈ rankMap s.trie.log e.1, g ≤ 3) ∧
      entryAt noLoader (reopen noLoader s.trie.log : LiveOverlay UInt64).slot.node [1] = some (some 7)))
    (by decide +kernel)
  obtain ⟨hmem, hrank, hmax, hentry⟩ := of_decide_eq_true hs
  exact ⟨s, hrun, ⟨4, _, hmem, hrank, .head _⟩, fun g op ⟨lsn, record, hrec, hg, _⟩ => hmax _ hrec g hg, hentry, rfl⟩

/-- The condition on inserts as a check of the first `n` threads. -/
def checkInserts (n : Nat) (s : System UInt64) : Event UInt64 → Bool
  | .step u => match s.calls u with
    | .claimed p .. | .counted p .. => match p.op with
      | .insert term => (List.range n).all fun v => match s.calls v with
        | .published q _ | .touched q _ => decide (q.op ≠ .remove term)
        | _ => true
      | _ => true
    | _ => true
  | _ => true

theorem insertsAfterRanks_of_check {n : Nat} {s : System UInt64} {e : Event UInt64} (hbelow : s.Below n)
    (h : checkInserts n s e = true) : insertsAfterRanks s e := by
  cases e with
  | step u =>
    intro term hwins v c hawaits hremove
    have hv : v < n := hbelow.lt (fun hidle => by rw [hidle] at hawaits; exact hawaits)
    have hall : ∀ p : Pending UInt64, p.op = .insert term → (match p.op with
        | .insert term => (range n).all fun v => match s.calls v with
          | .published q _ | .touched q _ => decide (q.op ≠ .remove term)
          | _ => true
        | _ => true) = true → False := by
      intro p hp hcheck
      rw [hp] at hcheck
      have hcheck := all_eq_true.1 hcheck v (mem_range.2 hv)
      cases hph : s.calls v with
      | published q g | touched q g =>
        rw [hph] at hcheck hawaits
        have hop : q.op.recovered q.lsn = .remove c.lsn term := by
          rw [← hremove, show c = q.commit g from hawaits]
          rfl
        exact of_decide_eq_true hcheck (eq_remove_of_recovered hop)
      | _ =>
        rw [hph] at hawaits
        exact hawaits
    rw [checkInserts] at h
    cases hph : s.calls u with
    | claimed p revision g | counted p revision g v =>
      rw [hph] at hwins h
      exact hall p hwins.1 h
    | _ =>
      rw [hph] at hwins
      exact hwins
  | _ => trivial

/-- The value of an upsert is removed, and a valueless insert, called before the remove is ranked, wins after that; the
crash finds both calls in flight. -/
def insertBehindRemove : List (Event UInt64) :=
  [call 0 (.upsert [1] 7)] ++ List.replicate 9 (step 0) ++ [ret 0, .call 1 (.remove [1])] ++ List.replicate 6 (step 1) ++
    [call 2 (.insert [1])] ++ List.replicate 5 (step 2) ++ [step 1] ++ List.replicate 3 (step 2)

theorem crash_replay_insert_behind_remove :
    ∃ s : System UInt64, Runs.run (step? noLoader) insertBehindRemove create = some s ∧
      RankedOp s.trie.log 2 (.remove 3 [1]) ∧ RankedOp s.trie.log 3 (.insert 4 [1] none) ∧
      entryAt noLoader (reopen noLoader s.trie.log : LiveOverlay UInt64).slot.node [1] = replayEntry
        (.insert 4 [1] none) none := by
  obtain ⟨s, hrun, hs⟩ := Runs.exists_run (step? noLoader) insertBehindRemove create
    (fun s => decide (((3, WalRecord.remove [1]) ∈ s.trie.log ∧ rankMap s.trie.log 3 = some 2) ∧
      ((4, WalRecord.insert [1] none) ∈ s.trie.log ∧ rankMap s.trie.log 4 = some 3) ∧
      ∀ e ∈ s.trie.log, ∀ g ∈ rankMap s.trie.log e.1, g ≤ 3)) (by decide +kernel)
  obtain ⟨hremove, hinsert, hmax⟩ := of_decide_eq_true hs
  have hop : RankedOp s.trie.log 3 (.insert 4 [1] none) := ⟨4, _, hinsert.1, hinsert.2, .head _⟩
  have hcalls : ∀ e ∈ insertBehindRemove, e.Calls Overwrites := by
    simp [insertBehindRemove, Event.Calls, Overwrites, isIncrement, term]
  have hcheck : Runs.Along (step? noLoader) (fun s e => e.within 3 = true ∧ checkInserts 3 s e = true) insertBehindRemove
      create := by decide +kernel
  have hok : Runs.Along (step? noLoader) insertsAfterRanks insertBehindRemove create :=
    Runs.along_imp (I := System.Below 3) (fun s e s' hstep he hi => hi.step he.1 hstep)
      (fun s e hi he => insertsAfterRanks_of_check hi he.2) insertBehindRemove create (fun u _ => rfl) hcheck
  exact ⟨s, hrun, ⟨3, _, hremove.1, hremove.2, .head _⟩, hop,
    ((crash_replay noLoader insertBehindRemove s hrun hcalls).2.2 hok [1]).1 3 _ hop rfl
      (fun g' op' ⟨lsn, record, hrec, hg, _⟩ _ => hmax _ hrec g' hg)⟩

/-! ## Acknowledged calls -/

section Acked
variable {V : Type}

/-- The reply says that the call has published its operation.  An upsert is never refused, and its flag only tells whether
the key is new. -/
def DurableOp.acknowledges : DurableOp V → Reply V → Bool
  | .upsert .., .changed _ => true
  | _, .changed b => b
  | _, .count _ => true
  | _, .error _ => false

theorem acknowledges_error (op : DurableOp V) (e : PersistentARTrieError) : op.acknowledges (.error e) = false := by
  cases op <;> rfl

theorem acknowledges_refusedReply (op : DurableOp V) : op.acknowledges op.refusedReply = false := by
  cases op <;> rfl

/-- What is known in a phase of the commit of the call: who made it, and that its record is ranked. -/
def Phase.Keeps (made : Commit → Prop) (log : Log) [DictionaryValue V] : Phase V → Prop
  | .observed op => op.acknowledges (.changed false) = false
  | .published p g | .touched p g => made (p.commit g)
  | .ranked p _ | .marked p _ => ∃ g, made (p.commit g) ∧ isRanked log p.lsn = true
  | .done op reply => op.acknowledges reply = true → ∃ c, made c ∧ c.op = op.recovered c.lsn ∧ isRanked log c.lsn = true
  | _ => True

variable [DictionaryValue V] {t t' : PersistentARTrie V} {cs : List Commit} {ph ph' : Phase V} {made made' : Commit → Prop}

theorem Phase.Keeps.mono {log more : Log} (h : ph.Keeps made log) (hmade : ∀ c, made c → made' c) :
    ph.Keeps made' (log ++ more) := by
  cases ph with
  | published p g | touched p g => exact hmade _ h
  | ranked p r | marked p r =>
    obtain ⟨g, hm, hr⟩ := h
    exact ⟨g, hmade _ hm, isRanked_append hr⟩
  | done op reply =>
    intro hack
    obtain ⟨c, hm, hop, hr⟩ := h hack
    exact ⟨c, hmade c hm, hop, isRanked_append hr⟩
  | _ => exact h

theorem keeps_done_of_not {log : Log} {op : DurableOp V} {reply : Reply V} (h : op.acknowledges reply = false) :
    (Phase.done op reply).Keeps made log := fun hack => by rw [h] at hack; cases hack

theorem Swapped.keeps {p : Pending V} {revision : RootRevision UInt8 V} {g : Nat} {attempt : Attempt V} {log : Log}
    (h : Swapped t p revision g attempt t' cs ph') (hmade : ∀ c, cs = [c] → made c) : ph'.Keeps made log := by
  cases h with
  | won => exact hmade _ rfl
  | failed => exact keeps_done_of_not (acknowledges_error _ _)
  | lost | refused => trivial

theorem keeps_start (op : DurableOp V) : (op.start t).Keeps made t.log := by
  cases op with
  | insert term | insertWithValue term v | compareAndSwap term expected new =>
    rw [DurableOp.start]
    split
    · exact keeps_done_of_not rfl
    · trivial
  | remove term =>
    rw [DurableOp.start]
    split
    · trivial
    · split
      · exact rfl
      · trivial
  | upsert term v => trivial
  | increment term delta =>
    rw [DurableOp.start]
    split
    · exact keeps_done_of_not rfl
    · trivial

variable [CounterLeaf V] {faultIn : FaultIn UInt8 V} {s s' : System V}

theorem Phase.Keeps.advance (h : ph.Keeps made t.log) (hadv : ph.advance faultIn t = some (t', cs, ph'))
    (hmade : ∀ c, cs = [c] → made c) : ph'.Keeps made t'.log := by
  cases ph with
  | idle | done => cases hadv
  | started op =>
    cases hadv
    exact keeps_start op
  | insertMissed term =>
    cases hadv
    split
    · exact rfl
    · trivial
  | removeMissed term =>
    rw [Phase.advance, Option.some.injEq] at hadv
    split at hadv <;> cases hadv
    · split
      · trivial
      · exact rfl
    · exact keeps_done_of_not rfl
  | observed op =>
    cases hadv
    exact keeps_done_of_not h
  | loaded p revision =>
    rw [Phase.advance, Option.some.injEq] at hadv
    split at hadv <;> cases hadv <;> trivial
  | claimed p revision g =>
    rw [Phase.advance, Option.some.injEq] at hadv
    split at hadv
    · exact (swapped hadv).keeps hmade
    · cases hadv
      generalize (incrementValue _ _ _ : Except _ V) = count
      cases count with
      | error e => exact keeps_done_of_not (acknowledges_error _ _)
      | ok v => trivial
  | counted p revision g v =>
    rw [Phase.advance, Option.some.injEq] at hadv
    exact (swapped hadv).keeps hmade
  | published p g =>
    cases hadv
    exact h
  | touched p g =>
    cases hadv
    exact ⟨g, h, by simp [PersistentARTrie.append, isRanked, rankMap_append_rank]⟩
  | ranked p r =>
    cases hadv
    exact h
  | marked p r =>
    cases hadv
    obtain ⟨g, hm, hr⟩ := h
    exact fun _ => ⟨p.commit g, hm, rfl, hr⟩
  | burning p =>
    cases hadv
    exact keeps_done_of_not (acknowledges_refusedReply p.op)
  | ready op reply | appended p | refused p => cases hadv; trivial

/-- The commit is of the compare-and-swap that the thread made in the call it is in, or has last returned from. -/
def Made (faultIn : FaultIn UInt8 V) (es : List (Event V)) (u : Nat) (c : Commit) : Prop :=
  ∃ es₁ es₂ m m', es = es₁ ++ .step u :: es₂ ∧ Runs.run (step? faultIn) es₁ create = some m ∧
    m.step? faultIn (.step u) = some m' ∧ m'.commits = m.commits ++ [c] ∧ ∀ op, .call u op ∉ es₂

theorem Made.later {es : List (Event V)} {u : Nat} {c : Commit} {e : Event V} (h : Made faultIn es u c)
    (he : ∀ op, e ≠ .call u op) : Made faultIn (es ++ [e]) u c := by
  obtain ⟨es₁, es₂, m, m', rfl, hm, hstep, hc, hcall⟩ := h
  refine ⟨es₁, es₂ ++ [e], m, m', by simp, hm, hstep, hc, fun op hmem => ?_⟩
  obtain hmem | hmem := mem_append.1 hmem
  · exact hcall op hmem
  · exact he op (mem_singleton.1 hmem).symm

theorem commits_log_step {e : Event V} (hstep : s.step? faultIn e = some s') :
    (∃ cs, s'.commits = s.commits ++ cs) ∧ ∃ more, s'.trie.log = s.trie.log ++ more := by
  cases stepped hstep with
  | step u t' cs ph' hadv => exact ⟨⟨cs, rfl⟩, (advance_op hadv).2.2⟩
  | _ => exact ⟨⟨[], (append_nil _).symm⟩, [], (append_nil _).symm⟩

/-- What each thread's phase says of its own commit. -/
def KeepsOwn (faultIn : FaultIn UInt8 V) (es : List (Event V)) (s : System V) : Prop :=
  ∀ u, (s.calls u).Keeps (fun c => Made faultIn es u c ∧ c ∈ s.commits) s.trie.log

theorem KeepsOwn.step {es : List (Event V)} {e : Event V} (hrun : Runs.run (step? faultIn) es create = some s)
    (hstep : s.step? faultIn e = some s') (h : KeepsOwn faultIn es s) : KeepsOwn faultIn (es ++ [e]) s' := by
  intro u
  have hold (he : ∀ op, e ≠ .call u op) :
      (s.calls u).Keeps (fun c => Made faultIn (es ++ [e]) u c ∧ c ∈ s'.commits) s'.trie.log := by
    obtain ⟨⟨cs, hcs⟩, more, hmore⟩ := commits_log_step hstep
    rw [hmore, hcs]
    exact (h u).mono fun c hc => ⟨hc.1.later he, mem_append_left _ hc.2⟩
  cases stepped hstep with
  | call v op hidle =>
    show (Function.update s.calls v (enter s.trie op) u).Keeps _ _
    by_cases hu : u = v
    · subst hu
      rw [Function.update_self, enter]
      split
      · exact keeps_done_of_not (acknowledges_error _ _)
      · trivial
    · rw [Function.update_of_ne hu]
      exact hold fun op' heq => hu (by injection heq with hv; exact hv.symm)
  | step v t' cs ph' hadv =>
    show (Function.update s.calls v ph' u).Keeps _ _
    by_cases hu : u = v
    · subst hu
      rw [Function.update_self]
      have hph : (s.calls u).Keeps (fun c => Made faultIn (es ++ [.step u]) u c ∧ c ∈ s.commits ++ cs) (s.trie.log ++ []) :=
        (h u).mono fun c hc => ⟨hc.1.later (by simp), mem_append_left _ hc.2⟩
      rw [append_nil] at hph
      refine hph.advance hadv fun c hc => ?_
      subst hc
      exact ⟨⟨es, [], s, _, rfl, hrun, hstep, rfl, by simp⟩, mem_append_right _ (.head _)⟩
    · rw [Function.update_of_ne hu]
      exact hold (by simp)
  | ret v op reply hdone =>
    show (Function.update s.calls v .idle u).Keeps _ _
    by_cases hu : u = v
    · subst hu
      rw [Function.update_self]
      trivial
    · rw [Function.update_of_ne hu]
      exact hold (by simp)
  | capture e c he => exact hold (by rintro op rfl; simp at he)

/-- **What an acknowledged call did survives a crash**, in every run of the durable operations: the trie is what the commits
make in the order of their generations, a reopened one is what the ranked commits make, only calls in flight have unranked
ones, and the commit of a call that has returned that it published its operation is ranked from then on. -/
theorem acknowledged_calls_survive (faultIn : FaultIn UInt8 V) (es es' : List (Event V)) (m s : System V)
    (hm : Runs.run (step? faultIn) es create = some m) (hs : Runs.run (step? faultIn) es' m = some s) :
    s.commits.Pairwise (·.generation < ·.generation) ∧
    (∀ key, key ≠ [] → entryAt faultIn s.trie.root key = committedMap s.commits key) ∧
    (∀ c ∈ s.commits, isRanked s.trie.log c.lsn = false → ∃ u, (s.calls u).Awaits c) ∧
    entryAt faultIn (reopen faultIn s.trie.log : LiveOverlay V).slot.node =
      committedMap (s.commits.filter fun c => isRanked s.trie.log c.lsn) ∧
    ∀ u op reply, m.calls u = .done op reply → op.acknowledges reply = true →
      ∃ c, Made faultIn es u c ∧ c.op = op.recovered c.lsn ∧ c ∈ s.commits ∧ isRanked s.trie.log c.lsn = true := by
  have hinv : Inv faultIn s := (inv_create.run hm).run hs
  refine ⟨hinv.shared.logged.generations, hinv.shared.entry, hinv.unranked, entryAt_reopen hinv.shared.logged, ?_⟩
  intro u op reply hdone hack
  have hkeeps : KeepsOwn faultIn es m :=
    Runs.of_history hm (fun es s e s' hrun hstep h => h.step hrun hstep) (fun u => trivial)
  have hown := hkeeps u
  rw [hdone] at hown
  obtain ⟨c, ⟨hmade, hc⟩, hop, hranked⟩ := hown hack
  refine ⟨c, hmade, hop, Runs.of_run (I := fun s => c ∈ s.commits ∧ isRanked s.trie.log c.lsn = true) ?_ hs ⟨hc, hranked⟩⟩
  rintro s e s' hstep ⟨hc, hranked⟩
  obtain ⟨⟨cs, hcs⟩, more, hmore⟩ := commits_log_step hstep
  rw [hcs, hmore]
  exact ⟨mem_append_left _ hc, isRanked_append hranked⟩

/-- Two upserts of one key return, the second with the flag of a key that was there. -/
def upsertTwice : List (Event UInt64) :=
  [call 0 (.upsert [1] 7)] ++ List.replicate 9 (step 0) ++ [ret 0, .call 1 (.upsert [1] 8)] ++ List.replicate 9 (step 1)

/-- A remove of the key is called and wins its compare-and-swap after both have returned. -/
def removeAfter : List (Event UInt64) := [.call 2 (.remove [1])] ++ List.replicate 5 (step 2)

theorem acknowledged_upsert_survives : ∃ m s : System UInt64, Runs.run (step? noLoader) upsertTwice create = some m ∧
    Runs.run (step? noLoader) removeAfter m = some s ∧ m.calls 1 = .done (.upsert [1] 8) (.changed false) ∧
    s.commits.length = 3 ∧ ∃ c, Made noLoader upsertTwice 1 c ∧ c.op = .upsert c.lsn [1] (serialize (8 : UInt64)) ∧
      c ∈ s.commits ∧ isRanked s.trie.log c.lsn = true :=
  ⟨_, _, rfl, rfl, rfl, rfl,
    (acknowledged_calls_survive noLoader upsertTwice removeAfter _ _ rfl rfl).2.2.2.2 1 (.upsert [1] 8) _ rfl rfl⟩

end Acked

end Dictenstein.Overlay
