import Dictenstein.Recovery
import Dictenstein.StableSort
/-!
# ReconcileOrder — reconciliation does not depend on the order of the records

`reconcile_lww_with_regime` stamps the operations of every surviving record with a generation and an LSN and sorts them
stably. Operations of one record carry one stamp, so the sort is a sort of the records (`reconcile_eq_flatMap`): it neither
splits a batch nor reorders it. -/
namespace Dictenstein.Recovery

open Wire Wal List Option

def RecoveredOperation.lsn : RecoveredOperation → Nat
  | .insert lsn _ _ | .remove lsn _ | .increment lsn _ _ _ | .upsert lsn _ _ | .compareAndSwap lsn _ _ _ => lsn

/-- The single-regime entry point: every record came from one file. -/
def reconcileLww (log : Log) (loadedFromDisk : Bool) (checkpointLsn : Nat) (rankRegime : RankRegime) :
    List RecoveredOperation :=
  reconcileLwwWithRegime log loadedFromDisk checkpointLsn fun _ => rankRegime

/-- The data LSNs that the commit ranks of a log name, in log order. -/
def rankedLsns (log : Log) : List Nat :=
  log.filterMap fun e => match e.2 with
    | .commitRank dataLsn _ _ => some dataLsn
    | _ => none

variable (rank : Nat → Option Nat)

def survives (loadedFromDisk : Bool) (checkpointLsn : Nat) (regimeOf : Nat → RankRegime)
    (lsn : Nat) : Bool :=
  !covered loadedFromDisk checkpointLsn lsn && ((rank lsn).isSome || regimeOf lsn == .owned)

def replayed (loadedFromDisk : Bool) (checkpointLsn : Nat) (regimeOf : Nat → RankRegime)
    (entry : Nat × WalRecord Nat) : List RecoveredOperation :=
  if survives rank loadedFromDisk checkpointLsn regimeOf entry.1 then recoveredOperationsFromRecord entry.1 entry.2 else []

/-- The order of the records: by generation, unranked records at their own LSN, then by LSN. -/
def keyLe (a b : Nat × WalRecord Nat) : Prop :=
  (rank a.1).getD a.1 < (rank b.1).getD b.1 ∨ (rank a.1).getD a.1 = (rank b.1).getD b.1 ∧ a.1 ≤ b.1

instance (rank : Nat → Option Nat) : DecidableRel (keyLe rank) := fun a b => inferInstanceAs (Decidable
  ((rank a.1).getD a.1 < (rank b.1).getD b.1 ∨ (rank a.1).getD a.1 = (rank b.1).getD b.1 ∧ a.1 ≤ b.1))

instance (rank : Nat → Option Nat) : Std.Total (keyLe rank) := ⟨fun a b => by unfold keyLe; omega⟩

instance (rank : Nat → Option Nat) : IsTrans _ (keyLe rank) := ⟨fun a b c => by unfold keyLe; omega⟩

variable {log log' : Log} {op : RecoveredOperation}

theorem lsn_of_mem {lsn : Nat} {r : WalRecord Nat} (h : op ∈ recoveredOperationsFromRecord lsn r) : op.lsn = lsn := by
  cases r with
  | insert | remove | increment | upsert => rw [mem_singleton.1 h]; rfl
  | compareAndSwap term _ newValue success =>
    rw [recoveredOperationsFromRecord] at h
    split at h
    · rw [mem_singleton.1 h]; rfl
    · cases h
  | batchInsert | batchIncrement =>
    obtain ⟨e, -, rfl⟩ := mem_map.1 h
    rfl
  | _ => cases h

section
variable (rank : Nat → Option Nat) (loaded : Bool) (ckpt : Nat) (regimeOf : Nat → RankRegime)

theorem stamp_eq (e : Nat × WalRecord Nat) : stamp rank loaded ckpt regimeOf e =
    (replayed rank loaded ckpt regimeOf e).map fun op => ((rank e.1).getD e.1, e.1, op) := by
  unfold stamp replayed survives
  cases covered loaded ckpt e.1 <;> cases rank e.1 <;> cases regimeOf e.1 <;> rfl

theorem stampLe_iff {a b : Nat × WalRecord Nat} {x y : Nat × Nat × RecoveredOperation}
    (hx : x ∈ stamp rank loaded ckpt regimeOf a) (hy : y ∈ stamp rank loaded ckpt regimeOf b) :
    stampLe x y ↔ keyLe rank a b := by
  rw [stamp_eq, List.mem_map] at hx hy
  obtain ⟨op, -, rfl⟩ := hx
  obtain ⟨op', -, rfl⟩ := hy
  rfl

variable {e : Nat × WalRecord Nat}

theorem lsn_of_mem_replayed (h : op ∈ replayed rank loaded ckpt regimeOf e) : op.lsn = e.1 := by
  rw [replayed] at h
  split at h
  · exact lsn_of_mem h
  · cases h

theorem filter_replayed (lsn : Nat) (e : Nat × WalRecord Nat) : (replayed rank loaded ckpt regimeOf e).filter (·.lsn = lsn) =
      if e.1 = lsn then replayed rank loaded ckpt regimeOf e else [] := by
  split
  next h =>
    exact filter_eq_self.2 fun op hop => decide_eq_true ((lsn_of_mem_replayed rank loaded ckpt regimeOf hop).trans h)
  next h =>
    refine filter_eq_nil_iff.2 fun op hop hdec => h ?_
    rw [← lsn_of_mem_replayed rank loaded ckpt regimeOf hop]
    exact of_decide_eq_true hdec

theorem filter_flatMap_replayed : ∀ {l : Log}, (l.map Prod.fst).Nodup → e ∈ l →
    (l.flatMap (replayed rank loaded ckpt regimeOf)).filter (·.lsn = e.1) = replayed rank loaded ckpt regimeOf e := by
  intro l hl he
  obtain ⟨l₁, l₂, rfl⟩ := append_of_mem he
  rw [map_append, map_cons, nodup_append, nodup_cons] at hl
  obtain ⟨-, ⟨h₂, -⟩, h₁⟩ := hl
  have hnil : ∀ l' : Log, (∀ e' ∈ l', e'.1 ≠ e.1) →
      (l'.flatMap (replayed rank loaded ckpt regimeOf)).filter (·.lsn = e.1) = [] := fun l' h' => by
    rw [filter_flatMap, flatMap_eq_nil_iff]
    intro e' he'
    rw [filter_replayed, if_neg (h' e' he')]
  rw [flatMap_append, flatMap_cons, filter_append, filter_append, filter_replayed, if_pos rfl,
    hnil l₁ fun e' he' => h₁ _ (mem_map_of_mem he') _ mem_cons_self,
    hnil l₂ fun e' he' heq => h₂ (heq ▸ mem_map_of_mem he'), nil_append, append_nil]

end

theorem reconcile_eq_flatMap (log : Log) (loaded : Bool) (ckpt : Nat) (regimeOf : Nat → RankRegime) :
    reconcileLwwWithRegime log loaded ckpt regimeOf =
      (log.insertionSort (keyLe (rankMap log))).flatMap (replayed (rankMap log) loaded ckpt regimeOf) := by
  rw [reconcileLwwWithRegime, StableSort.insertionSort_flatMap (s := keyLe (rankMap log))
    fun a b x y hx hy => stampLe_iff (rankMap log) loaded ckpt regimeOf hx hy, map_flatMap]
  refine flatMap_congr fun e _ => ?_
  rw [stamp_eq, List.map_map]
  exact map_id _

theorem mem_of_reconcile {loaded : Bool} {ckpt : Nat} {regimeOf : Nat → RankRegime}
    (h : op ∈ reconcileLwwWithRegime log loaded ckpt regimeOf) : ∃ r, (op.lsn, r) ∈ log := by
  rw [reconcile_eq_flatMap, mem_flatMap] at h
  obtain ⟨⟨lsn, r⟩, he, hop⟩ := h
  have hlog : (lsn, r) ∈ log := (perm_insertionSort _ log).mem_iff.1 he
  rw [lsn_of_mem_replayed _ _ _ _ hop]
  exact ⟨r, hlog⟩

/-! ## The rank map of a set of records -/

theorem mem_rankedLsns {l d g : Nat} {t : Bytes} (h : (l, WalRecord.commitRank d t g) ∈ log) : d ∈ rankedLsns log :=
  mem_filterMap.2 ⟨_, h, rfl⟩

theorem rankMap_eq_some_iff (h : (rankedLsns log).Nodup) {d g : Nat} :
    rankMap log d = some g ↔ ∃ l t, (l, WalRecord.commitRank d t g) ∈ log := by
  refine ⟨mem_of_rankMap, ?_⟩
  rintro ⟨l, t, hmem⟩
  obtain ⟨l₁, l₂, rfl⟩ := append_of_mem hmem
  -- no later record ranks the same LSN, so the entry stands
  have hlater : rankMap l₂ d = none := by
    rw [eq_none_iff_forall_ne_some]
    intro g' hg'
    obtain ⟨l', t', hmem'⟩ := mem_of_rankMap hg'
    rw [rankedLsns, filterMap_append, nodup_append] at h
    exact (nodup_cons.1 h.2.1).1 (mem_rankedLsns hmem')
  rw [rankMap_append, rankMap_cons, hlater]
  simp [rankStep]

theorem rankMap_perm (h : (rankedLsns log).Nodup) (hp : log'.Perm log) : rankMap log' = rankMap log := by
  have h' : (rankedLsns log').Nodup := (hp.filterMap _).nodup_iff.2 h
  funext d
  refine ext fun g => ?_
  rw [rankMap_eq_some_iff h', rankMap_eq_some_iff h]
  exact exists_congr fun l => exists_congr fun t => hp.mem_iff

theorem rankMap_of_rankedLsns_nil (h : rankedLsns log = []) : rankMap log = fun _ => none := by
  funext d
  rw [eq_none_iff_forall_ne_some]
  intro g hg
  obtain ⟨l, t, hmem⟩ := mem_of_rankMap hg
  have hd := mem_rankedLsns hmem
  rw [h] at hd
  cases hd

theorem reconcileLww_of_no_ranks (loaded : Bool) (ckpt : Nat) (h : rankedLsns log = []) :
    reconcileLww log loaded ckpt .owned =
      ((log.insertionSort (·.1 ≤ ·.1)).filter fun e => !covered loaded ckpt e.1).flatMap
        fun e => recoveredOperationsFromRecord e.1 e.2 := by
  have hkey : ∀ a b : Nat × WalRecord Nat, a.1 ≤ b.1 ↔ keyLe (fun _ => none) a b := fun a b => by
    unfold keyLe
    simp only [getD_none]
    omega
  have hsort := map_insertionSort (r := (·.1 ≤ ·.1)) (s := keyLe fun _ => none) id log fun a _ b _ => hkey a b
  rw [List.map_id, List.map_id] at hsort
  rw [reconcileLww, reconcile_eq_flatMap, rankMap_of_rankedLsns_nil h, hsort]
  generalize log.insertionSort (keyLe fun _ => none) = l
  induction l with
  | nil => rfl
  | cons e l ih =>
    rw [flatMap_cons, ih, filter_cons, replayed, survives]
    cases covered loaded ckpt e.1 <;> rfl

theorem insertionSort_keyLe_perm (h : (log.map Prod.fst).Nodup) (hp : log'.Perm log) :
    log'.insertionSort (keyLe rank) = log.insertionSort (keyLe rank) := by
  have hperm : (log'.insertionSort (keyLe rank)).Perm (log.insertionSort (keyLe rank)) :=
    (perm_insertionSort _ _).trans (hp.trans (perm_insertionSort _ _).symm)
  refine hperm.eq_of_pairwise (fun a b ha hb hab hba => ?_) (pairwise_insertionSort _ _)
    (pairwise_insertionSort _ _)
  have ha' : a ∈ log := hp.mem_iff.1 ((perm_insertionSort _ _).mem_iff.1 ha)
  have hb' : b ∈ log := (perm_insertionSort _ _).mem_iff.1 hb
  refine inj_on_of_nodup_map h ha' hb' ?_
  unfold keyLe at hab hba
  omega

/-- **Reconciliation of records with distinct LSNs, at most one commit rank per data LSN.** Every permutation of the records
gives the same list; the operations under a record's LSN are all of its operations in their order, if it survives, and none
otherwise. Without ranks, in the owned regime, it is the replay of the uncovered records in LSN order. -/
theorem reconcile_of_distinct (log : Log) (hlsns : (log.map Prod.fst).Nodup) (hranks : (rankedLsns log).Nodup)
    (loaded : Bool) (ckpt : Nat) (regimeOf : Nat → RankRegime) :
    (∀ log' : Log, log'.Perm log →
      reconcileLwwWithRegime log' loaded ckpt regimeOf = reconcileLwwWithRegime log loaded ckpt regimeOf) ∧
    (∀ lsn r, (lsn, r) ∈ log → (reconcileLwwWithRegime log loaded ckpt regimeOf).filter (·.lsn = lsn) =
      if survives (rankMap log) loaded ckpt regimeOf lsn then recoveredOperationsFromRecord lsn r else []) ∧
    (∀ op ∈ reconcileLwwWithRegime log loaded ckpt regimeOf, ∃ r, (op.lsn, r) ∈ log) ∧
    (rankedLsns log = [] → reconcileLww log loaded ckpt .owned =
      ((log.insertionSort (·.1 ≤ ·.1)).filter fun e => !covered loaded ckpt e.1).flatMap
        fun e => recoveredOperationsFromRecord e.1 e.2) := by
  refine ⟨fun log' hp => ?_, fun lsn r hmem => ?_, fun op hop => mem_of_reconcile hop, reconcileLww_of_no_ranks loaded ckpt⟩
  · rw [reconcile_eq_flatMap, reconcile_eq_flatMap, rankMap_perm hranks hp, insertionSort_keyLe_perm _ hlsns hp]
  · have hperm := perm_insertionSort (keyLe (rankMap log)) log
    rw [reconcile_eq_flatMap]
    exact filter_flatMap_replayed (rankMap log) loaded ckpt regimeOf ((hperm.map _).nodup_iff.2 hlsns)
      (hperm.mem_iff.2 hmem)

/-- A batch and its rank, the rank first in the file, behind a covered record and an orphan. -/
theorem reconcile_of_distinct_batch :
    let log : Log :=
      [(5, .commitRank 7 [] 3), (2, .insert [9] none), (7, .batchInsert [([1], none), ([2], none), ([1], none)]),
      (6, .remove [1]), (8, .insert [4] none), (9, .commitRank 8 [] 1)]
    reconcileLwwWithRegime log true 2 (fun _ => .overlay) =
        [.insert 8 [4] none, .insert 7 [1] none, .insert 7 [2] none, .insert 7 [1] none] ∧
      reconcileLwwWithRegime log.reverse true 2 (fun _ => .overlay) = reconcileLwwWithRegime log true 2
        (fun _ => .overlay) :=
  ⟨by decide +kernel, (reconcile_of_distinct _ (by decide +kernel) (by decide +kernel) true 2 fun _ => .overlay).1 _
    (reverse_perm _)⟩

end Dictenstein.Recovery
