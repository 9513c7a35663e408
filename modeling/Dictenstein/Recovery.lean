import Dictenstein.WalCodec
import Mathlib.Data.List.Sort
/-! # Recovery — from the surviving WAL records to the operations to replay

A commit rank binds the LSN of a data record to the generation of its compare-and-swap. Reconciliation collects the ranks,
drops the data records without one (in the overlay regime), drops those the loaded image already covers, and orders the rest
by generation.

`reconcile_of_logged`: if the log holds the data record of every commit, and ranks of commits only, then the result is the
list of ranked, uncovered commits in commit order. -/

namespace Dictenstein.Recovery

open Wire Wal List Option

inductive RankRegime where
  | owned
  | overlay
  deriving DecidableEq, Repr

inductive RecoveredOperation where
  | insert (lsn : Nat) (term : Bytes) (value : Option Bytes)
  | remove (lsn : Nat) (term : Bytes)
  | increment (lsn : Nat) (term : Bytes) (delta : Int64) (result : Option Int64)
  | upsert (lsn : Nat) (term : Bytes) (value : Bytes)
  | compareAndSwap (lsn : Nat) (term : Bytes) (newValue : Bytes) (success : Bool)
  deriving DecidableEq, Repr

def RecoveredOperation.term : RecoveredOperation → Bytes
  | .insert _ term _ | .remove _ term | .increment _ term _ _ | .upsert _ term _ | .compareAndSwap _ term _ _ => term

/-- A log as recovery reads it: the records in file order, each with its LSN. -/
abbrev Log := List (Nat × WalRecord Nat)

def recoveredOperationsFromRecord (lsn : Nat) : WalRecord Nat → List RecoveredOperation
  | .insert term value => [.insert lsn term value]
  | .remove term => [.remove lsn term]
  -- a single increment record carries the count after it, a batch entry a delta
  | .increment term delta result => [.increment lsn term delta (some result)]
  | .upsert term value => [.upsert lsn term value]
  | .compareAndSwap term _ newValue success => if success then [.compareAndSwap lsn term newValue success] else []
  | .batchInsert entries => entries.map fun e => .insert lsn e.1 e.2
  | .batchIncrement entries => entries.map fun e => .increment lsn e.1 e.2 none
  | .beginTx .. | .commitTx .. | .abortTx .. | .checkpoint .. | .versionUpdate .. | .versionDurable ..
  | .versionGc .. | .commitRank .. => []

/-- Pass 1: the generation of each ranked data record, a later rank replacing an earlier one. -/
def rankStep (rank : Nat → Option Nat) (entry : Nat × WalRecord Nat) : Nat → Option Nat :=
  match entry.2 with
  | .commitRank dataLsn _ generation => Function.update rank dataLsn (some generation)
  | _ => rank

variable (log : Log)

def rankMap : Nat → Option Nat := log.foldl rankStep fun _ => none

def covered (loadedFromDisk : Bool) (checkpointLsn lsn : Nat) : Bool :=
  loadedFromDisk && decide (0 < checkpointLsn) && decide (lsn ≤ checkpointLsn)

/-- Pass 2 for one record: its operations stamped with generation and LSN, or nothing. -/
def stamp (rank : Nat → Option Nat) (loadedFromDisk : Bool) (checkpointLsn : Nat) (regimeOf : Nat → RankRegime)
    (entry : Nat × WalRecord Nat) : List (Nat × Nat × RecoveredOperation) :=
  if covered loadedFromDisk checkpointLsn entry.1 then []
  else
    let ops := recoveredOperationsFromRecord entry.1 entry.2
    match rank entry.1 with
    | some generation => ops.map fun op => (generation, entry.1, op)
    | none => match regimeOf entry.1 with
      | .owned => ops.map fun op => (entry.1, entry.1, op)
      | .overlay => []

def stampLe (a b : Nat × Nat × RecoveredOperation) : Prop := a.1 < b.1 ∨ a.1 = b.1 ∧ a.2.1 ≤ b.2.1

instance : DecidableRel stampLe := fun a b => inferInstanceAs (Decidable (a.1 < b.1 ∨ a.1 = b.1 ∧ a.2.1 ≤ b.2.1))

def reconcileLwwWithRegime (loadedFromDisk : Bool) (checkpointLsn : Nat)
    (regimeOf : Nat → RankRegime) : List RecoveredOperation :=
  ((log.flatMap (stamp (rankMap log) loadedFromDisk checkpointLsn regimeOf)).insertionSort stampLe).map (·.2.2)

/-! ## The rank map -/

theorem rankStep_or (rank : Nat → Option Nat) (entry : Nat × WalRecord Nat) (d : Nat) :
    rankStep rank entry d = (rankStep (fun _ => none) entry d).or (rank d) := by
  obtain ⟨l, r⟩ := entry
  cases r with
  | commitRank d' t g => by_cases h : d = d' <;> simp [rankStep, h]
  | _ => rfl

theorem foldl_rankStep (rank : Nat → Option Nat) (d : Nat) : log.foldl rankStep rank d = (rankMap log d).or (rank d) := by
  induction log generalizing rank with
  | nil => rfl
  | cons e log ih =>
    rw [rankMap, List.foldl_cons, List.foldl_cons, ih, ih (rankStep (fun _ => none) e), rankStep_or, Option.or_assoc]

theorem rankMap_append (log log' : Log) (d : Nat) : rankMap (log ++ log') d = (rankMap log' d).or (rankMap log d) := by
  rw [rankMap, foldl_append]
  exact foldl_rankStep log' _ d

theorem rankMap_cons (e : Nat × WalRecord Nat) (d : Nat) :
    rankMap (e :: log) d = (rankMap log d).or (rankStep (fun _ => none) e d) :=
  foldl_rankStep log _ d

theorem mem_of_rankMap {log : Log} {d g : Nat} (h : rankMap log d = some g) :
    ∃ l t, (l, WalRecord.commitRank d t g) ∈ log := by
  induction log with
  | nil => cases h
  | cons e log ih =>
    rw [rankMap_cons, or_eq_some_iff] at h
    obtain h | ⟨-, h⟩ := h
    · obtain ⟨l, t, hmem⟩ := ih h
      exact ⟨l, t, .tail _ hmem⟩
    · obtain ⟨l, r⟩ := e
      cases r with
      | commitRank d' t g' =>
        simp only [rankStep, Function.update_apply, ite_none_right_eq_some, some.injEq] at h
        exact ⟨l, t, by rw [h.1, h.2]; exact .head _⟩
      | _ => cases h

theorem rankMap_append_data {lsn : Nat} {r : WalRecord Nat} (h : ∀ d t g, r ≠ .commitRank d t g) :
    rankMap (log ++ [(lsn, r)]) = rankMap log := by
  funext d
  rw [rankMap_append, rankMap_cons]
  cases r with
  | commitRank d' t g => exact absurd rfl (h d' t g)
  | _ => rfl

theorem rankMap_append_rank (lsn d : Nat) (t : Bytes) (g : Nat) :
    rankMap (log ++ [(lsn, .commitRank d t g)]) = Function.update (rankMap log) d (some g) := by
  rw [rankMap, foldl_append]
  rfl

/-! ## Logs of commits -/

/-- One visible write: the generation of its compare-and-swap, the LSN of its data record and what it replays as. -/
structure Commit where
  generation : Nat
  lsn : Nat
  op : RecoveredOperation
  deriving DecidableEq, Repr

/-- A log that holds the data record of every commit, and commit ranks of these commits only. -/
structure Logged (commits : List Commit) : Prop where
  lsns : (log.map Prod.fst).Nodup
  generations : commits.Pairwise (·.generation < ·.generation)
  distinct : (commits.map Commit.lsn).Nodup
  data : ∀ c ∈ commits, ∃ r, (c.lsn, r) ∈ log ∧ recoveredOperationsFromRecord c.lsn r = [c.op]
  ranks : ∀ l d t g, (l, WalRecord.commitRank d t g) ∈ log → ∃ c ∈ commits, c.lsn = d ∧ c.generation = g

def isRanked (lsn : Nat) : Bool := (rankMap log lsn).isSome

section
variable {log : Log} {commits : List Commit}
variable {l g : Nat} {r : WalRecord Nat} {c : Commit}

section
variable (h : Logged log commits)
include h

theorem Logged.rankMap_eq (hc : c ∈ commits) (hg : rankMap log c.lsn = some g) : g = c.generation := by
  obtain ⟨l, t, hmem⟩ := mem_of_rankMap hg
  obtain ⟨c', hc', hlsn, hgen⟩ := h.ranks l _ t g hmem
  have heq : c' = c := inj_on_of_nodup_map h.distinct hc' hc hlsn
  rw [← hgen, heq]

theorem Logged.commit_of_rank (hr : (l, r) ∈ log) (hg : rankMap log l = some g) :
    ∃ c ∈ commits, c.lsn = l ∧ c.generation = g ∧ recoveredOperationsFromRecord l r = [c.op] := by
  obtain ⟨l', t, hmem⟩ := mem_of_rankMap hg
  obtain ⟨c, hc, rfl, hgen⟩ := h.ranks l' _ t g hmem
  obtain ⟨r', hr', hops⟩ := h.data c hc
  have hrr : r' = r := (Prod.mk.inj (inj_on_of_nodup_map h.lsns hr' hr rfl)).2
  exact ⟨c, hc, rfl, hgen, hrr ▸ hops⟩

variable (loaded : Bool)

theorem Logged.mem_stamped (ckpt : Nat) (x : Nat × Nat × RecoveredOperation) :
    x ∈ log.flatMap (stamp (rankMap log) loaded ckpt fun _ => .overlay) ↔
      x ∈ (commits.filter fun c => isRanked log c.lsn && !covered loaded ckpt c.lsn).map
        fun c => (c.generation, c.lsn, c.op) := by
  simp only [List.mem_flatMap, List.mem_map, List.mem_filter, Bool.and_eq_true, Bool.not_eq_true']
  constructor
  · rintro ⟨⟨l, r⟩, hmem, hx⟩
    rw [stamp] at hx
    cases hcov : covered loaded ckpt l with
    | true => simp [hcov] at hx
    | false =>
      cases hrank : rankMap log l with
      | none => simp [hcov, hrank] at hx
      | some g =>
        obtain ⟨c, hc, rfl, rfl, hops⟩ := h.commit_of_rank hmem hrank
        simp only [hcov, hrank, hops, map_cons, map_nil, mem_singleton, Bool.false_eq_true, if_false] at hx
        exact ⟨c, ⟨hc, by rw [isRanked, hrank]; rfl, hcov⟩, hx.symm⟩
  · rintro ⟨c, ⟨hc, hrank, hcov⟩, rfl⟩
    obtain ⟨r, hr, hops⟩ := h.data c hc
    rw [isRanked, isSome_iff_exists] at hrank
    obtain ⟨g, hg⟩ := hrank
    refine ⟨(c.lsn, r), hr, ?_⟩
    rw [stamp, if_neg (by simp [hcov])]
    simp [hg, hops, h.rankMap_eq hc hg]

theorem Logged.stamped_sublist (ckpt : Nat) :
    ((log.flatMap (stamp (rankMap log) loaded ckpt fun _ => .overlay)).map fun x => x.2.1).Sublist
      (log.map Prod.fst) := by
  have hone : ∀ e ∈ log, (stamp (rankMap log) loaded ckpt (fun _ => .overlay) e).map (fun x => x.2.1) = [] ∨
      (stamp (rankMap log) loaded ckpt (fun _ => .overlay) e).map (fun x => x.2.1) = [e.1] := by
    rintro ⟨l, r⟩ hmem
    rw [stamp]
    cases hcov : covered loaded ckpt l with
    | true => exact .inl (by simp)
    | false =>
      cases hrank : rankMap log l with
      | none => exact .inl (by simp)
      | some g =>
        obtain ⟨c, -, -, -, hops⟩ := h.commit_of_rank hmem hrank
        exact .inr (by simp [hops])
  generalize stamp (rankMap log) loaded ckpt (fun _ => .overlay) = f at hone ⊢
  clear h
  induction log with
  | nil => simp
  | cons e log ih =>
    rw [flatMap_cons, map_append, map_cons]
    have hlog := ih (fun e' he' => hone e' (.tail _ he'))
    obtain hnil | hcons := hone e mem_cons_self
    · rw [hnil, nil_append]
      exact hlog.cons _
    · rw [hcons, singleton_append]
      exact hlog.cons_cons _

/-- **Reconciling a log of commits gives its ranked, uncovered commits in commit order.** -/
theorem reconcile_of_logged (ckpt : Nat) : reconcileLwwWithRegime log loaded ckpt (fun _ => .overlay) =
      (commits.filter fun c => isRanked log c.lsn && !covered loaded ckpt c.lsn).map Commit.op := by
  set stamped := log.flatMap (stamp (rankMap log) loaded ckpt fun _ => .overlay) with hstamped
  set wanted := (commits.filter fun c => isRanked log c.lsn && !covered loaded ckpt c.lsn).map
    fun c => (c.generation, c.lsn, c.op) with hwanted
  have hstrict : wanted.Pairwise fun a b => a.1 < b.1 := by
    rw [hwanted, pairwise_map]
    exact h.generations.filter _
  have hperm : stamped.Perm wanted := by
    refine (perm_ext_iff_of_nodup ?_ ?_).2 (h.mem_stamped loaded ckpt)
    · exact List.Nodup.of_map _ ((h.stamped_sublist loaded ckpt).nodup h.lsns)
    · exact hstrict.imp (fun hab heq => by rw [heq] at hab; exact lt_irrefl _ hab)
  -- generations are distinct, so the sorted list ascends strictly and is the only such arrangement
  have hsorted : (stamped.insertionSort stampLe).Pairwise fun a b => a.1 < b.1 := by
    have hne : (stamped.insertionSort stampLe).Pairwise fun a b => a.1 ≠ b.1 := by
      have hgens : ((stamped.insertionSort stampLe).map Prod.fst).Nodup :=
        (((perm_insertionSort stampLe stamped).trans hperm).map Prod.fst).nodup_iff.2
          (pairwise_map.2 (hstrict.imp ne_of_lt))
      exact pairwise_map.1 hgens
    have hle : (stamped.insertionSort stampLe).Pairwise stampLe := by
      have : Std.Total stampLe := ⟨fun a b => by unfold stampLe; omega⟩
      have : IsTrans _ stampLe := ⟨fun a b c => by unfold stampLe; omega⟩
      exact pairwise_insertionSort stampLe stamped
    exact hle.imp₂ (fun _ _ hab hne => hab.resolve_right (fun heq => hne heq.1)) hne
  have heq : stamped.insertionSort stampLe = wanted := by
    refine ((perm_insertionSort stampLe stamped).trans hperm).eq_of_pairwise (fun a b _ _ hab hba => ?_)
      hsorted hstrict
    exact absurd hab (Nat.lt_asymm hba)
  rw [reconcileLwwWithRegime, ← hstamped, heq, hwanted, List.map_map]
  rfl

end

/-! ## Growing a log of commits -/

theorem Logged.nil : Logged [] [] where
  lsns := nodup_nil
  generations := List.Pairwise.nil
  distinct := nodup_nil
  data := nofun
  ranks := nofun

theorem nodup_append_fresh (h : (log.map Prod.fst).Nodup) (hl : l ∉ log.map Prod.fst) :
    ((log ++ [(l, r)]).map Prod.fst).Nodup := by
  rw [map_append, nodup_append]
  refine ⟨h, nodup_singleton l, fun a ha b hb => ?_⟩
  have hbl : b = l := by simpa using hb
  rintro rfl
  exact hl (hbl ▸ ha)

theorem Logged.append (h : Logged log commits) (hl : l ∉ log.map Prod.fst)
    (hr : ∀ d t g, r = .commitRank d t g → ∃ c ∈ commits, c.lsn = d ∧ c.generation = g) :
    Logged (log ++ [(l, r)]) commits where
  lsns := nodup_append_fresh h.lsns hl
  generations := h.generations
  distinct := h.distinct
  data := fun c hc => by
    obtain ⟨r', hr', hops⟩ := h.data c hc
    exact ⟨r', mem_append_left _ hr', hops⟩
  ranks := fun l' d t g hmem => by
    obtain hmem | hmem := mem_append.1 hmem
    · exact h.ranks l' d t g hmem
    · exact hr d t g (Prod.mk.inj (mem_singleton.1 hmem)).2.symm

theorem Logged.append_data (h : Logged log commits) (hl : l ∉ log.map Prod.fst) (hr : ∀ d t g, r ≠ .commitRank d t g) :
    Logged (log ++ [(l, r)]) commits := h.append hl fun d t g heq => absurd heq (hr d t g)

theorem Logged.append_rank (h : Logged log commits) {t : Bytes} (hl : l ∉ log.map Prod.fst) (hc : c ∈ commits) :
    Logged (log ++ [(l, .commitRank c.lsn t c.generation)]) commits := h.append hl fun d t g heq => by
  cases heq
  exact ⟨c, hc, rfl, rfl⟩

theorem Logged.commit (h : Logged log commits) (hr : (c.lsn, r) ∈ log)
    (hops : recoveredOperationsFromRecord c.lsn r = [c.op])
    (hgen : ∀ c' ∈ commits, c'.generation < c.generation) (hlsn : c.lsn ∉ commits.map Commit.lsn) :
    Logged log (commits ++ [c]) where
  lsns := h.lsns
  generations := by
    rw [pairwise_append]
    exact ⟨h.generations, pairwise_singleton _ _, fun a ha b hb => by
      rw [mem_singleton] at hb
      exact hb ▸ hgen a ha⟩
  distinct := by
    rw [map_append, nodup_append]
    refine ⟨h.distinct, nodup_singleton _, fun a ha b hb => ?_⟩
    rw [map_singleton, mem_singleton] at hb
    rintro rfl
    exact hlsn (hb ▸ ha)
  data := fun c' hc' => by
    obtain hc' | hc' := mem_append.1 hc'
    · exact h.data c' hc'
    · rw [mem_singleton] at hc'
      exact ⟨r, hc' ▸ hr, hc' ▸ hops⟩
  ranks := fun l d t g hmem => by
    obtain ⟨c', hc', heq⟩ := h.ranks l d t g hmem
    exact ⟨c', mem_append_left _ hc', heq⟩

end

end Dictenstein.Recovery
