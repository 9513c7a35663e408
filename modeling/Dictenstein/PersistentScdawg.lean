import Dictenstein.Runs
import Dictenstein.SortedEdges
import Mathlib.Data.List.Sort
/-! # PersistentScdawg — the log of the persistent SCDAWG over crashes

One thread calls an index on disk, and its calls return `Ok`: no write fails and no compare-and-swap. A mutation writes a
prepare segment, publishes the changed graph and writes a commit segment; a checkpoint stores the active records and prunes
the segments; opening replays what was committed after it. The core that answers queries is made of the active records.

A segment is written at any length, and opening refuses one of more than 64 MiB. A reopened index has `needs_compaction`
always false: a snapshot stores false, and the replay of a removal does not set it. -/
namespace Dictenstein.PersistentScdawg

open List SortedEdges

variable {V : Type}

structure TermRecord (V : Type) where
  term : String
  value : Option V
  active : Bool

abbrev Records (V : Type) := List (TermRecord V)

structure Graph (V : Type) where
  records : Records V
  needsCompaction : Bool

def activeRecords (rs : Records V) : Records V := rs.filter (·.active)

def contains (term : String) (rs : Records V) : Bool := rs.any fun r => r.active && r.term == term

/-- `find(|record| record.active && record.term == term)`: the record found is changed; if none is, `absent` is pushed. -/
def modify (term : String) (f : TermRecord V → TermRecord V) (absent : Records V) : Records V → Records V
  | [] => absent
  | r :: rs => if r.active && r.term == term then f r :: rs else r :: modify term f absent rs

def insertRecord (term : String) (value : Option V) : Records V → Records V :=
  modify term (fun r => { r with value := value.or r.value }) [⟨term, value, true⟩]

def removeRecord (term : String) : Records V → Records V := modify term ({ · with active := false }) []

def setValue (term : String) (value : V) : Records V → Records V :=
  modify term ({ · with value := some value }) [⟨term, some value, true⟩]

def updateOrInsert (term : String) (default : V) (update : V → V) : Records V → Records V :=
  modify term (fun r => { r with value := some (update (r.value.getD default)) }) [⟨term, some default, true⟩]

inductive WalOp (V : Type)
  | insert (term : String) (value : Option V)
  | remove (term : String)
  | setValue (term : String) (value : V)
  | clear
  | compact

def applyOp (g : Graph V) : WalOp V → Graph V
  | .insert term value => { g with records := insertRecord term value g.records }
  | .remove term => ⟨removeRecord term g.records, g.needsCompaction || contains term g.records⟩
  | .setValue term value => { g with records := setValue term value g.records }
  | .clear => ⟨[], false⟩
  | .compact => ⟨activeRecords g.records, false⟩

def applyWalOp (rs : Records V) : WalOp V → Records V
  | .insert term value => insertRecord term value rs
  | .remove term => removeRecord term rs
  | .setValue term value => setValue term value rs
  | .clear => []
  | .compact => activeRecords rs

/-! ## The index -/

/-- The live graph and the counters; then the snapshot and the prepare and commit segments. -/
structure Index (V : Type) where
  graph : Graph V
  nextOpId : Nat
  committedOpId : Nat
  snapshot : Graph V
  checkpointOpId : Nat
  prepared : List (Nat × WalOp V)
  committed : List Nat

variable (s : Index V)

def replayWal : Records V :=
  let committedOps :=
    (s.committed.filter (s.checkpointOpId < ·)).filterMap fun opId => (s.prepared.lookup opId).map (opId, ·)
  (committedOps.insertionSort (·.1 ≤ ·.1)).foldl (fun rs p => applyWalOp rs p.2) s.snapshot.records

/-- The two segments of an operation, with the graph published between them. -/
def publish (op : WalOp V) (next : Graph V) : Index V :=
  { s with
    graph := next
    nextOpId := s.nextOpId + 1
    committedOpId := max s.committedOpId s.nextOpId
    prepared := s.prepared ++ [(s.nextOpId, op)]
    committed := s.committed ++ [s.nextOpId] }

def checkpoint : Index V :=
  { s with
    snapshot := ⟨activeRecords s.graph.records, false⟩
    checkpointOpId := s.committedOpId
    prepared := s.prepared.filter (s.committedOpId < ·.1)
    committed := s.committed.filter (s.committedOpId < ·) }

def maxWalRecordBytes : Nat := 64 * 1024 * 1024

/-- What serde writes of an operation: a tag of four bytes, then the fields, a text behind its length in eight bytes and an
optional value behind one byte. -/
def WalOp.size (valueLen : V → Nat) : WalOp V → Nat
  | .insert term value => 4 + (8 + term.utf8ByteSize) + (1 + value.elim 0 valueLen)
  | .remove term => 4 + (8 + term.utf8ByteSize)
  | .setValue term value => 4 + (8 + term.utf8ByteSize) + valueLen value
  | .clear | .compact => 4

/-- The payload of a prepare segment: the tag, the id and the operation. -/
def prepareLen (valueLen : V → Nat) (op : WalOp V) : Nat := 4 + 8 + op.size valueLen

/-- A crash, and `open`. The segments are read in the order of their ids; one of a commit has twelve bytes. -/
def reopen (valueLen : V → Nat) : Except String (Index V) :=
  match s.prepared.find? (maxWalRecordBytes < prepareLen valueLen ·.2) with
  | some (_, op) => .error s!"native SCDAWG WAL segment is too large: {prepareLen valueLen op} bytes"
  | none =>
    let maxOpId := (s.prepared.map Prod.fst ++ s.committed).foldr max s.checkpointOpId
    .ok { s with graph := ⟨replayWal s, s.snapshot.needsCompaction⟩, nextOpId := maxOpId + 1, committedOpId := maxOpId }

/-- `insert`, `insert_with_value`, `remove`, `clear` and `compact` are operations of the log. -/
inductive Event (V : Type)
  | mutate (op : WalOp V)
  | updateOrInsert (term : String) (default : V) (update : V → V)
  | checkpoint
  | reopen

/-- What the source expects `update_or_insert` to have installed. -/
def installed (term : String) (rs : Records V) : Option V := (rs.find? fun r => r.active && r.term == term).bind (·.value)

/-- A run ends where an `open` fails. -/
def step (valueLen : V → Nat) : Event V → Option (Index V)
  | .mutate op => some (publish s op (applyOp s.graph op))
  | .updateOrInsert term default update =>
    let rs := updateOrInsert term default update s.graph.records
    some (publish s (.setValue term ((installed term rs).getD default)) { s.graph with records := rs })
  | .checkpoint => some (checkpoint s)
  | .reopen => match reopen s valueLen with
    | .ok opened => some opened
    | .error _ => none

def run (valueLen : V → Nat) (events : List (Event V)) : Option (Index V) :=
  Runs.run (step · valueLen) events ⟨⟨[], false⟩, 1, 0, ⟨[], false⟩, 0, [], []⟩

/-! ## Live and replayed operations -/

variable {s} {rs rs' : Records V}

theorem activeRecords_modify (term : String) (f : TermRecord V → TermRecord V) (absent rs : Records V) :
    activeRecords (modify term f absent (activeRecords rs)) = activeRecords (modify term f absent rs) := by
  induction rs with
  | nil => rfl
  | cons r rs ih =>
    cases ha : r.active with
    | false => simpa [activeRecords, modify, ha] using ih
    | true => by_cases ht : r.term = term <;> simp_all [activeRecords, modify, filter_cons]

theorem activeRecords_applyWalOp (op : WalOp V) (h : activeRecords rs = activeRecords rs') :
    activeRecords (applyWalOp rs op) = activeRecords (applyWalOp rs' op) := by
  have hmodify term f absent : activeRecords (modify term f absent rs) = activeRecords (modify term f absent rs') := by
    rw [← activeRecords_modify, h, activeRecords_modify]
  cases op with
  | insert | remove | setValue => exact hmodify ..
  | clear => rfl
  | compact => rw [applyWalOp, applyWalOp, h]

theorem updateOrInsert_eq (term : String) (default : V) (update : V → V) (rs : Records V) :
    ∃ v, installed term (updateOrInsert term default update rs) = some v ∧
      updateOrInsert term default update rs = setValue term v rs := by
  simp only [updateOrInsert, setValue]
  induction rs with
  | nil => exact ⟨default, by simp [modify, installed], rfl⟩
  | cons r rs ih =>
    simp only [modify]
    by_cases hr : (r.active && r.term == term) = true
    · exact ⟨update (r.value.getD default), by simp_all [installed]⟩
    · obtain ⟨v, hv, heq⟩ := ih
      rw [if_neg hr]
      refine ⟨v, ?_, ?_⟩
      · rw [installed, find?_cons_of_neg (by exact hr)]
        exact hv
      · rw [if_neg hr, heq]

/-! ## Runs -/

/-- The log has the operations since the checkpoint, prepared and committed in their order. -/
structure Inv (s : Index V) : Prop where
  flag : s.snapshot.needsCompaction = false
  next : s.nextOpId = s.committedOpId + 1
  committed : s.committed = s.prepared.map Prod.fst
  sorted : Sorted s.prepared
  range : ∀ p ∈ s.prepared, s.checkpointOpId < p.1 ∧ p.1 ≤ s.committedOpId
  checkpoint : s.checkpointOpId ≤ s.committedOpId
  same : activeRecords s.graph.records =
    activeRecords (s.prepared.foldl (fun rs p => applyWalOp rs p.2) s.snapshot.records)

theorem Inv.replayWal_eq (h : Inv s) :
    replayWal s = s.prepared.foldl (fun rs p => applyWalOp rs p.2) s.snapshot.records := by
  have hops : (s.committed.filter (s.checkpointOpId < ·)).filterMap (fun opId => (s.prepared.lookup opId).map (opId, ·)) =
      s.prepared := by
    rw [h.committed, filter_map, filter_eq_self.2 fun p hp => by simpa using (h.range p hp).1, filterMap_map]
    refine (filterMap_congr fun p hp => ?_).trans filterMap_some
    simp [lookup_of_mem h.sorted hp]
  simp only [replayWal, hops, (h.sorted.imp Nat.le_of_lt).insertionSort_eq]

theorem Inv.publish (h : Inv s) {op : WalOp V} {next : Graph V} (hnext : next.records = applyWalOp s.graph.records op) :
    Inv (publish s op next) := by
  have hmax : max s.committedOpId s.nextOpId = s.nextOpId := by rw [h.next]; exact Nat.max_eq_right (Nat.le_succ _)
  have hlt : ∀ p ∈ s.prepared, p.1 < s.nextOpId := fun p hp => by rw [h.next]; exact Nat.lt_succ_of_le (h.range p hp).2
  have hck : s.checkpointOpId < s.nextOpId := by rw [h.next]; exact Nat.lt_succ_of_le h.checkpoint
  refine ⟨h.flag, ?_, ?_, ?_, ?_, ?_, ?_⟩ <;> simp only [PersistentScdawg.publish, hmax]
  · simp [h.committed]
  · exact pairwise_append.2 ⟨h.sorted, pairwise_singleton _ _, by simpa using fun i op hp => hlt (i, op) hp⟩
  · exact forall_mem_append.2 ⟨fun p hp => ⟨(h.range p hp).1, (hlt p hp).le⟩, forall_mem_singleton.2 ⟨hck, le_rfl⟩⟩
  · exact hck.le
  · rw [hnext, foldl_append]
    exact activeRecords_applyWalOp op h.same

theorem reopen_eq_ok {valueLen : V → Nat} {s' : Index V} : reopen s valueLen = .ok s' ↔
    (∀ p ∈ s.prepared, prepareLen valueLen p.2 ≤ maxWalRecordBytes) ∧
      s' = let maxOpId := (s.prepared.map Prod.fst ++ s.committed).foldr max s.checkpointOpId
        { s with graph := ⟨replayWal s, s.snapshot.needsCompaction⟩,
                 nextOpId := maxOpId + 1, committedOpId := maxOpId } := by
  unfold reopen
  cases hfind : s.prepared.find? (maxWalRecordBytes < prepareLen valueLen ·.2) with
  | some p =>
    obtain ⟨i, op⟩ := p
    refine ⟨by simp, fun h => ?_⟩
    exact absurd (h.1 _ (mem_of_find?_eq_some hfind)) (Nat.not_le.2 (by simpa using find?_some hfind))
  | none =>
    have hle : ∀ p ∈ s.prepared, prepareLen valueLen p.2 ≤ maxWalRecordBytes := fun p hp => by
      simpa using find?_eq_none.1 hfind p hp
    exact ⟨fun h => ⟨hle, (Except.ok.inj h).symm⟩, fun h => congrArg _ h.2.symm⟩

theorem step_reopen {valueLen : V → Nat} {s' : Index V} :
    step s valueLen .reopen = some s' ↔ reopen s valueLen = .ok s' := by
  rw [step]
  cases reopen s valueLen <;> simp

theorem Inv.step {valueLen : V → Nat} {s' : Index V} {e : Event V} (hs : step s valueLen e = some s') (h : Inv s) :
    Inv s' := by
  cases e with
  | mutate op =>
    cases hs
    exact h.publish (by cases op <;> rfl)
  | updateOrInsert term default update =>
    cases hs
    obtain ⟨v, hv, hrs⟩ := updateOrInsert_eq term default update s.graph.records
    exact h.publish (by rw [hv]; exact hrs)
  | checkpoint =>
    cases hs
    -- every segment is pruned
    have hp : s.prepared.filter (s.committedOpId < ·.1) = [] :=
      filter_eq_nil_iff.2 fun p hp => by simpa using (h.range p hp).2
    have hc : s.committed.filter (s.committedOpId < ·) = [] := by
      rw [h.committed, filter_map, map_eq_nil_iff]
      exact hp
    refine ⟨rfl, h.next, ?_, ?_, ?_, le_rfl, ?_⟩ <;> simp [PersistentScdawg.checkpoint, hp, hc, Sorted, activeRecords]
  | reopen =>
    obtain ⟨-, rfl⟩ := reopen_eq_ok.1 (step_reopen.1 hs)
    have hmax : ∀ ids : List Nat, s.checkpointOpId ≤ ids.foldr max s.checkpointOpId ∧
        ∀ i ∈ ids, i ≤ ids.foldr max s.checkpointOpId := by
      intro ids
      induction ids <;> grind
    exact { h with
      next := rfl
      range := fun p hp => ⟨(h.range p hp).1, (hmax _).2 _ (mem_append_left _ (mem_map_of_mem hp))⟩
      checkpoint := (hmax _).1
      same := congrArg activeRecords h.replayWal_eq }

theorem inv_run {valueLen : V → Nat} {events : List (Event V)} (h : run valueLen events = some s) : Inv s :=
  Runs.of_run (fun _ _ _ => Inv.step) h ⟨rfl, rfl, rfl, .nil, nofun, le_rfl, rfl⟩

/-! ## The terms after a sequence of calls -/

/-- If the term is there behind the call, where `there` says if it was before it. -/
def Event.leaves (term : String) (there : Bool) : Event V → Bool
  | .mutate (.insert t _) | .mutate (.setValue t _) | .updateOrInsert t _ _ => there || t == term
  | .mutate (.remove t) => there && t != term
  | .mutate .clear => false
  | .mutate .compact | .checkpoint | .reopen => there

/-- The term is put in by a call, and no later one takes it out. -/
def present (term : String) (events : List (Event V)) : Bool := events.foldl (Event.leaves term) false

/-- The calls that leave no inactive record in the list, and the one that forgets that there is one. -/
def Event.settles : Event V → Bool
  | .mutate .clear | .mutate .compact | .reopen => true
  | _ => false

/-- A term that was there is removed, and no later call clears, compacts or reopens the index. -/
def RemovalPending (events : List (Event V)) : Prop :=
  ∃ before term later, events = before ++ .mutate (.remove term) :: later ∧ present term before = true ∧
    ∀ e ∈ later, e.settles = false

theorem removalPending_concat {events : List (Event V)} {e : Event V} : RemovalPending (events ++ [e]) ↔
    (∃ term, e = .mutate (.remove term) ∧ present term events = true) ∨ (RemovalPending events ∧ e.settles = false) := by
  constructor
  · rintro ⟨before, term, later, heq, hthere, hlater⟩
    obtain rfl | ⟨later, e', rfl⟩ := eq_nil_or_concat' later
    · obtain ⟨rfl, he⟩ := append_inj' heq rfl
      exact .inl ⟨term, (cons.inj he).1, hthere⟩
    · rw [← cons_append, ← append_assoc] at heq
      obtain ⟨rfl, he⟩ := append_inj' heq rfl
      obtain rfl := (cons.inj he).1
      rw [forall_mem_append, forall_mem_singleton] at hlater
      exact .inr ⟨⟨before, term, later, rfl, hthere, hlater.1⟩, hlater.2⟩
  · rintro (⟨term, rfl, hthere⟩ | ⟨⟨before, term, later, rfl, hthere, hlater⟩, he⟩)
    · exact ⟨events, term, [], rfl, hthere, by simp⟩
    · exact ⟨before, term, later ++ [e], by simp, hthere, forall_mem_append.2 ⟨hlater, forall_mem_singleton.2 he⟩⟩

def activeTerms (rs : Records V) : List String := (activeRecords rs).map (·.term)

theorem contains_iff {term : String} : contains term rs = true ↔ term ∈ activeTerms rs := by
  simp [contains, activeTerms, activeRecords]
  grind

/-- A record found is changed in its value only. -/
theorem activeTerms_modify (term : String) {f : TermRecord V → TermRecord V} {absent : TermRecord V}
    (hf : ∀ r, (f r).term = r.term ∧ (f r).active = r.active) (ht : absent.term = term) (ha : absent.active = true) :
    activeTerms (modify term f [absent] rs) =
      if term ∈ activeTerms rs then activeTerms rs else activeTerms rs ++ [term] := by
  simp only [activeTerms, activeRecords]
  induction rs with
  | nil => simp [modify, ht, ha]
  | cons r rs ih => grind [modify]

theorem activeTerms_removeRecord (term : String) : activeTerms (removeRecord term rs) = (activeTerms rs).erase term := by
  simp only [activeTerms, activeRecords, removeRecord]
  induction rs with
  | nil => rfl
  | cons r rs ih => grind [modify]

/-- **What the calls so far say of the live graph**: its active terms, none of them twice, and if it needs compaction. -/
structure Follows (events : List (Event V)) (s : Index V) : Prop where
  nodup : (activeTerms s.graph.records).Nodup
  terms : ∀ term, term ∈ activeTerms s.graph.records ↔ present term events = true
  pending : s.graph.needsCompaction = true ↔ RemovalPending events

theorem present_concat (term : String) (events : List (Event V)) (e : Event V) :
    present term (events ++ [e]) = e.leaves term (present term events) := by
  rw [present, foldl_append]
  rfl

section Steps

variable {events : List (Event V)} {e : Event V} {s' : Index V}

/-- A call that puts a term in. -/
theorem Follows.put (h : Follows events s) {term : String}
    (hleaves : ∀ t there, e.leaves t there = (there || term == t)) (hsettles : e.settles = false)
    (hne : ∀ t, e ≠ .mutate (.remove t))
    (hterms : activeTerms s'.graph.records =
      if term ∈ activeTerms s.graph.records then activeTerms s.graph.records else activeTerms s.graph.records ++ [term])
    (hneeds : s'.graph.needsCompaction = s.graph.needsCompaction) : Follows (events ++ [e]) s' := by
  refine ⟨?_, fun t => ?_, ?_⟩
  · rw [hterms]
    have hnodup := h.nodup
    split <;> grind
  · rw [hterms, present_concat, hleaves, Bool.or_eq_true, ← h.terms, beq_iff_eq]
    split <;> grind
  · rw [hneeds, removalPending_concat, h.pending]
    simp [hne, hsettles]

theorem Follows.same (h : Follows events s) (hleaves : ∀ t there, e.leaves t there = there)
    (hne : ∀ t, e ≠ .mutate (.remove t)) (hterms : activeTerms s'.graph.records = activeTerms s.graph.records)
    (hneeds : s'.graph.needsCompaction = (s.graph.needsCompaction && !e.settles)) : Follows (events ++ [e]) s' := by
  refine ⟨hterms ▸ h.nodup, fun t => ?_, ?_⟩
  · rw [hterms, present_concat, hleaves, h.terms]
  · rw [hneeds, removalPending_concat, Bool.and_eq_true, h.pending]
    simp [hne]

theorem Follows.step {valueLen : V → Nat} (hinv : Inv s) (h : Follows events s) (hs : step s valueLen e = some s') :
    Follows (events ++ [e]) s' := by
  cases e with
  | mutate op =>
    cases hs
    cases op with
    | insert term value | setValue term value =>
      exact h.put (fun _ _ => rfl) rfl (by simp) (activeTerms_modify term (by simp) rfl rfl) rfl
    | remove term =>
      have hterms : activeTerms (removeRecord term s.graph.records) = _ := activeTerms_removeRecord term
      refine ⟨?_, fun t => ?_, ?_⟩
      · exact hterms ▸ h.nodup.erase term
      · refine Iff.trans (iff_of_eq (congrArg (t ∈ ·) hterms)) ?_
        rw [h.nodup.mem_erase_iff, h.terms, present_concat]
        grind [Event.leaves]
      · refine (Bool.or_eq_true ..).to_iff.trans ?_
        rw [h.pending, contains_iff, h.terms, removalPending_concat]
        simp [Event.settles, or_comm]
    | clear =>
      refine ⟨nodup_nil, fun t => ?_, ?_⟩
      · simp [publish, applyOp, activeTerms, activeRecords, present_concat, Event.leaves]
      · simp [publish, applyOp, removalPending_concat, Event.settles]
    | compact =>
      refine h.same (fun _ _ => rfl) (by simp) ?_ (by simp [publish, applyOp, Event.settles])
      simp [publish, applyOp, activeTerms, activeRecords]
  | updateOrInsert term default update =>
    cases hs
    exact h.put (fun _ _ => rfl) rfl (by simp) (activeTerms_modify term (by simp) rfl rfl) rfl
  | checkpoint =>
    cases hs
    exact h.same (fun _ _ => rfl) (by simp) rfl (Bool.and_true _).symm
  | reopen =>
    obtain ⟨-, rfl⟩ := reopen_eq_ok.1 (step_reopen.1 hs)
    refine h.same (fun _ _ => rfl) (by simp) ?_ ?_
    · exact congrArg (map _) ((congrArg activeRecords hinv.replayWal_eq).trans hinv.same.symm)
    · simp [hinv.flag, Event.settles]

end Steps

theorem follows_run {valueLen : V → Nat} {events : List (Event V)} (h : run valueLen events = some s) :
    Follows events s := by
  refine Runs.of_history h (fun es m e m' hm hs hf => hf.step (inv_run hm) hs) ⟨nodup_nil, ?_, ?_⟩
  · simp [activeTerms, activeRecords, present]
  · simp [RemovalPending]

/-- **A reopened index.** Where `open` succeeds, the active terms are those of the live index in their order, with their
values. It succeeds and agrees on `needs_compaction` too just if no segment of the log has more than 64 MiB and no removal
since the last clear, compaction or reopening took a term out. -/
theorem reopened_index {valueLen : V → Nat} {events : List (Event V)} {s : Index V} (h : run valueLen events = some s) :
    (∀ s', reopen s valueLen = .ok s' → activeRecords s'.graph.records = activeRecords s.graph.records) ∧
      ((∃ s', reopen s valueLen = .ok s' ∧ activeRecords s'.graph.records = activeRecords s.graph.records ∧
          s'.graph.needsCompaction = s.graph.needsCompaction) ↔
        (∀ p ∈ s.prepared, prepareLen valueLen p.2 ≤ maxWalRecordBytes) ∧ ¬RemovalPending events) := by
  have hinv := inv_run h
  have hsame : activeRecords (replayWal s) = activeRecords s.graph.records :=
    (congrArg activeRecords hinv.replayWal_eq).trans hinv.same.symm
  refine ⟨fun s' hs' => ?_, ?_⟩
  · obtain ⟨-, rfl⟩ := reopen_eq_ok.1 hs'
    exact hsame
  · rw [← (follows_run h).pending, Bool.not_eq_true]
    constructor
    · rintro ⟨s', hs', -, hneeds⟩
      obtain ⟨hlen, rfl⟩ := reopen_eq_ok.1 hs'
      exact ⟨hlen, hneeds.symm.trans hinv.flag⟩
    · rintro ⟨hlen, hneeds⟩
      exact ⟨_, reopen_eq_ok.2 ⟨hlen, rfl⟩, hsame, hinv.flag.trans hneeds.symm⟩

/-- Two terms are inserted, one is removed, and the index is compacted behind a checkpoint. -/
def compacted : List (Event Nat) :=
  [.mutate (.insert "ab" (some 1)), .mutate (.insert "b" none), .checkpoint, .mutate (.remove "ab"), .mutate .compact]

theorem compacted_reopened : ∃ s, run (fun _ => 8) compacted = some s ∧ activeTerms s.graph.records = ["b"] ∧
    ∃ s', reopen s (fun _ => 8) = .ok s' ∧ activeRecords s'.graph.records = activeRecords s.graph.records ∧
      s'.graph.needsCompaction = s.graph.needsCompaction := by
  obtain ⟨s, hs⟩ : ∃ s, run (fun _ => 8) compacted = some s := ⟨_, rfl⟩
  have hpending := (follows_run hs).pending
  refine ⟨s, hs, ?_, (reopened_index hs).2.2 ⟨?_, ?_⟩⟩
  · cases hs
    rfl
  · cases hs
    decide
  · rw [← hpending]
    cases hs
    decide

/-- A term is inserted and removed: the index needs compaction, and after a crash it does not. -/
theorem reopened_needs_no_compaction : ∃ s s' : Index Nat,
    run (fun _ => 8) [.mutate (.insert "ab" (some 1)), .mutate (.remove "ab")] = some s ∧ reopen s (fun _ => 8) = .ok s' ∧
    s.graph.needsCompaction = true ∧ s'.graph.needsCompaction = false :=
  ⟨_, _, rfl, rfl, rfl, rfl⟩

def Event.isCall : Event V → Bool
  | .checkpoint | .reopen => false
  | _ => true

/-- **Checkpoints and crashes are not seen**: after any history in which every `open` succeeds, the index has the active
records, in their order, that the calls of the history alone give it. -/
theorem crashes_unseen {valueLen : V → Nat} {events : List (Event V)} {s : Index V} (h : run valueLen events = some s) :
    ∃ s₀, run valueLen (events.filter Event.isCall) = some s₀ ∧
      activeRecords s.graph.records = activeRecords s₀.graph.records := by
  refine Runs.of_history (I := fun events s => ∃ s₀, run valueLen (events.filter Event.isCall) = some s₀ ∧
    activeRecords s.graph.records = activeRecords s₀.graph.records) h ?_ ⟨_, rfl, rfl⟩
  rintro es m e m' hm hs ⟨m₀, hm₀, hsame⟩
  have hcall (hcall : e.isCall = true) {next : Index V} (hnext : step m₀ valueLen e = some next) :
      run valueLen ((es ++ [e]).filter Event.isCall) = some next := by
    rw [filter_append, filter_singleton, hcall]
    exact Runs.run_append.2 ⟨m₀, hm₀, Runs.run_cons.2 ⟨next, hnext, rfl⟩⟩
  have hother (hcall : e.isCall = false) : run valueLen ((es ++ [e]).filter Event.isCall) = some m₀ := by
    rw [filter_append, filter_singleton, hcall]
    simpa using hm₀
  cases e with
  | mutate op =>
    cases hs
    have happly (g : Graph V) : (applyOp g op).records = applyWalOp g.records op := by cases op <;> rfl
    refine ⟨_, hcall rfl rfl, ?_⟩
    exact (congrArg _ (happly _)).trans ((activeRecords_applyWalOp op hsame).trans (congrArg _ (happly _).symm))
  | updateOrInsert =>
    cases hs
    refine ⟨_, hcall rfl rfl, (activeRecords_modify ..).symm.trans (Eq.trans ?_ (activeRecords_modify ..))⟩
    exact congrArg (fun rs => activeRecords (modify _ _ _ rs)) hsame
  | checkpoint =>
    cases hs
    exact ⟨m₀, hother rfl, hsame⟩
  | reopen =>
    obtain ⟨-, rfl⟩ := reopen_eq_ok.1 (step_reopen.1 hs)
    have hinv := inv_run hm
    exact ⟨m₀, hother rfl, (congrArg activeRecords hinv.replayWal_eq).trans (hinv.same.symm.trans hsame)⟩

/-- A removal behind a checkpoint and a crash, and an update behind another crash. -/
def crashed : List (Event Nat) := [.mutate (.insert "ab" (some 1)), .mutate (.insert "b" none), .checkpoint,
  .mutate (.remove "ab"), .reopen, .updateOrInsert "b" 4 (· + 1), .reopen]

theorem crashed_unseen : ∃ s s₀, run (fun _ => 8) crashed = some s ∧
    run (fun _ => 8) (crashed.filter Event.isCall) = some s₀ ∧ activeTerms s₀.graph.records = ["b"] ∧
    activeRecords s.graph.records = activeRecords s₀.graph.records := by
  obtain ⟨s, hs⟩ : ∃ s, run (fun _ => 8) crashed = some s := ⟨_, rfl⟩
  obtain ⟨s₀, hs₀, hsame⟩ := crashes_unseen hs
  refine ⟨s, s₀, hs, hs₀, ?_, hsame⟩
  cases hs₀
  rfl

end Dictenstein.PersistentScdawg
