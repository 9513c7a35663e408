import Dictenstein.OverlayRun
/-! # OverlayInvariant — what holds in every state of a run

* **Revisions.** A loaded revision that still has the slot's number is the slot's content. So a compare-and-swap that
  succeeds was built on the current root, and its generation, claimed after the load, is above that of every commit.
* **Ownership of LSNs.** The LSNs a call has still to mark are its own and not covered by the watermark. So what the
  watermark covers has been published or burned.
* **Ranks.** A commit that is not ranked belongs to a call between its compare-and-swap and its rank.

`Shared` holds what concerns the trie and the log alone, `Phase.Ok` what a call at some point of its way knows. -/

namespace Dictenstein.Overlay

open Wire Wal Recovery OverlayNode DictionaryValue CounterLeaf PersistentARTrie Function List

section Operations

variable {V : Type} [DictionaryValue V]

namespace DurableOp

theorem recoveredOperations_record (lsn : Nat) (op : DurableOp V) :
    recoveredOperationsFromRecord lsn op.record = [op.recovered lsn] := by
  cases op <;> rfl

theorem record_ne_commitRank (op : DurableOp V) (d : Nat) (k : Bytes) (g : Nat) : op.record ≠ .commitRank d k g := by
  cases op <;> exact nofun

@[simp] theorem term_recovered (lsn : Nat) (op : DurableOp V) : (op.recovered lsn).term = op.term := by
  cases op <;> rfl

variable {op : DurableOp V} {lsn l : Nat} {term : Bytes}

theorem eq_insert_of_recovered (h : op.recovered lsn = .insert l term none) : op = .insert term := by
  cases op with
  | insert term' =>
    obtain ⟨-, hterm, -⟩ := RecoveredOperation.insert.inj h
    rw [hterm]
  | insertWithValue term' v =>
    obtain ⟨-, -, hvalue⟩ := RecoveredOperation.insert.inj h
    cases hvalue
  | _ => cases h

theorem eq_remove_of_recovered (h : op.recovered lsn = .remove l term) : op = .remove term := by
  cases op with
  | remove term' =>
    obtain ⟨-, hterm⟩ := RecoveredOperation.remove.inj h
    rw [hterm]
  | _ => cases h

def Bounded : DurableOp V → Prop
  | .increment key delta => boundIncrementDelta key delta = .ok (Int64.ofNat delta.toNat)
  | _ => True

end DurableOp

variable [CounterLeaf V] {faultIn : FaultIn UInt8 V} {root new : OverlayNode UInt8 V}

/-- `new` is `root` with the operation's key set to what its record replays to; replay drops deltas of the empty key. -/
structure Publishes (faultIn : FaultIn UInt8 V) (root new : OverlayNode UInt8 V) (op : DurableOp V) : Prop where
  updates : ∃ e, Updates faultIn root new op.term e ∧ ((op.isIncrement = true → op.term ≠ []) →
    ∀ lsn, e = replayEntry (op.recovered lsn) (entryAt faultIn root op.term))
  absent : ∀ term, op = .insert term → entryAt faultIn root term = none

variable {delta : Int}

section
variable (hn : WellFormed faultIn root)
include hn

theorem publishes_of_value (op : DurableOp V) {v : V} {mode : ValueWriteMode}
    (h : valueAttempt faultIn root op.term v mode = .publish new delta) (hop : ∀ term, op ≠ .insert term)
    (hreplay : (op.isIncrement = true → op.term ≠ []) → ∀ lsn, some (some v) =
      replayEntry (op.recovered lsn) (entryAt faultIn root op.term)) :
    Publishes faultIn root new op where
  updates := ⟨_, (valueAttempt_publish hn h).2.2, hreplay⟩
  absent := fun term heq => absurd heq (hop term)

/-- **A published attempt sets its key to what its record replays to.** -/
theorem publishes_of_attempt {op : DurableOp V}
    (h : op.attempt faultIn root = .inl (.publish new delta)) : Publishes faultIn root new op := by
  have hset : ∀ (v : V) (e : Option (Option V)), some (some v) = setEntry e (deserialize (serialize v)) :=
    fun v e => by rw [deserialize_serialize]; rfl
  cases op with
  | insert term =>
    obtain ⟨habsent, -, hu⟩ := insertAttempt_publish hn (Sum.inl.inj h)
    refine ⟨⟨_, hu, fun _ lsn => ?_⟩, fun term' heq => ?_⟩
    · show some none = (entryAt faultIn root term).or (some none)
      rw [habsent]
      rfl
    · cases heq
      exact habsent
  | remove term =>
    obtain ⟨-, -, hu⟩ := removeAttempt_publish hn (Sum.inl.inj h)
    exact ⟨⟨_, hu, fun _ lsn => rfl⟩, nofun⟩
  | insertWithValue term v | upsert term v | compareAndSwap term expected v =>
    exact publishes_of_value hn _ (Sum.inl.inj h) nofun (fun _ lsn => hset v _)
  | increment key n => cases h

theorem publishes_of_count {key : Bytes} {delta : UInt64} {v : V} {n : Int}
    (hbound : (DurableOp.increment key delta : DurableOp V).Bounded)
    (hcount : incrementValue key (entryAt faultIn root key).join delta = .ok v)
    (h : valueAttempt faultIn root key v .upsert = .publish new n) :
    Publishes faultIn root new (.increment key delta) :=
  publishes_of_value hn (.increment key delta) h nofun
    (fun hkey lsn => (replayEntry_increment lsn (hkey rfl) hbound hcount).symm)

end

end Operations

/-! ## What the trie and its log satisfy -/

section Shared

variable {V : Type} [DictionaryValue V] [CounterLeaf V]

def committedMap (commits : List Commit) : KeyMap V := (commits.map Commit.op).foldl replayMap fun _ => none

theorem committedMap_append (commits : List Commit) (c : Commit) :
    (committedMap (commits ++ [c]) : KeyMap V) = replayMap (committedMap commits) c.op := by
  rw [committedMap, map_append, foldl_append]
  rfl

structure Shared (faultIn : FaultIn UInt8 V) (t : PersistentARTrie V) (commits : List Commit) : Prop where
  wellFormed : WellFormed faultIn t.root
  resident : Everywhere faultIn Resident t.root
  logged : Logged t.log commits
  lsns : ∀ e ∈ t.log, 0 < e.1 ∧ e.1 < t.nextLsn
  next : 0 < t.nextLsn
  generations : ∀ c ∈ commits, c.generation ≤ t.commitSeq
  covered : ∀ l, t.watermark.Covered l → l < t.nextLsn
  entry : ∀ key, key ≠ [] → entryAt faultIn t.root key = committedMap commits key
  -- a valueless insert was published over an absent key
  fresh : ∀ pre c post term, commits = pre ++ c :: post → c.op = .insert c.lsn term none → term ≠ [] →
    (committedMap pre : KeyMap V) term = none

variable {faultIn : FaultIn UInt8 V} {t t' : PersistentARTrie V} {commits : List Commit}

theorem covered_markCommitted (lsn : Nat) (w : Frontier) (l : Nat) : (markCommitted lsn w).Covered l ↔ l = lsn ∨
    w.Covered l := by
  unfold markCommitted
  split
  · rename_i hle
    exact ⟨.inr, fun h => h.elim (fun heq => .inl (heq ▸ hle)) id⟩
  · exact w.covered_mark lsn l

theorem Shared.create (policy : DurabilityPolicy) : Shared faultIn (.create policy) [] where
  wellFormed := wellFormed_new
  resident := resident_new
  logged := Logged.nil
  lsns := nofun
  next := Nat.zero_lt_one
  generations := nofun
  covered := fun l hl => by
    obtain hl | hl := hl
    · exact Nat.lt_succ_of_le hl
    · cases hl
  entry := fun key _ => entryAt_new faultIn key
  fresh := fun pre c post term heq => by cases pre <;> cases heq

section
variable (h : Shared faultIn t commits)
include h

theorem Shared.congr (hslot : t'.overlay.slot = t.overlay.slot) (hlog : t'.log = t.log)
    (hlsn : t'.nextLsn = t.nextLsn) (hmark : t'.watermark = t.watermark) (hseq : t.commitSeq ≤ t'.commitSeq) :
    Shared faultIn t' commits := by
  have hroot : t'.root = t.root := congrArg RootRevision.node hslot
  exact {
    wellFormed := hroot ▸ h.wellFormed
    resident := hroot ▸ h.resident
    logged := hlog ▸ h.logged
    lsns := by rw [hlog, hlsn]; exact h.lsns
    next := hlsn ▸ h.next
    generations := fun c hc => (h.generations c hc).trans hseq
    covered := by rw [hmark, hlsn]; exact h.covered
    entry := hroot ▸ h.entry
    fresh := h.fresh }

theorem Shared.fresh_lsn : t.nextLsn ∉ t.log.map Prod.fst := by
  intro hmem
  obtain ⟨e, he, heq⟩ := mem_map.1 hmem
  exact lt_irrefl _ (heq ▸ (h.lsns e he).2)

theorem Shared.lsn_lt {c : Commit} (hc : c ∈ commits) : 0 < c.lsn ∧ c.lsn < t.nextLsn := by
  obtain ⟨r, hr, -⟩ := h.logged.data c hc
  exact h.lsns _ hr

theorem Shared.append {record : WalRecord Nat}
    (hlogged : Logged (t.log ++ [(t.nextLsn, record)]) commits) : Shared faultIn (t.append record) commits where
  wellFormed := h.wellFormed
  resident := h.resident
  logged := hlogged
  lsns := forall_mem_append.2 ⟨fun e he => ⟨(h.lsns e he).1, Nat.lt_succ_of_lt (h.lsns e he).2⟩,
    forall_mem_singleton.2 ⟨h.next, Nat.lt_succ_self _⟩⟩
  next := Nat.succ_pos _
  generations := h.generations
  covered := fun l hl => Nat.lt_succ_of_lt (h.covered l hl)
  entry := h.entry
  fresh := h.fresh

theorem Shared.mark {lsn : Nat} (hlsn : lsn < t.nextLsn) : Shared faultIn (t.mark lsn) commits where
  wellFormed := h.wellFormed
  resident := h.resident
  logged := h.logged
  lsns := h.lsns
  next := h.next
  generations := h.generations
  covered := fun l hl => by
    obtain rfl | hl := (covered_markCommitted lsn t.watermark l).1 hl
    · exact hlsn
    · exact h.covered l hl
  entry := h.entry
  fresh := h.fresh

end

theorem snoc_split {α : Type} {l pre post : List α} {x c : α} (h : l ++ [x] = pre ++ c :: post) :
    l = pre ∧ x = c ∧ post = [] ∨ ∃ post', l = pre ++ c :: post' ∧ post = post' ++ [x] := by
  obtain rfl | ⟨post', y, rfl⟩ := eq_nil_or_concat post
  · obtain ⟨hl, hx⟩ := append_inj' h rfl
    exact .inl ⟨hl, (cons.inj hx).1, rfl⟩
  · rw [concat_eq_append, ← cons_append, ← append_assoc] at h
    obtain ⟨hl, hx⟩ := append_inj' h rfl
    exact .inr ⟨post', hl, by rw [concat_eq_append, (cons.inj hx).1]⟩

/-- **A successful compare-and-swap**, at a generation above that of every commit. -/
theorem Shared.commit (h : Shared faultIn t commits) {op : DurableOp V} {lsn generation : Nat}
    {new : OverlayNode UInt8 V} (delta : Int) (hmem : (lsn, op.record) ∈ t.log) (hnew : lsn ∉ commits.map Commit.lsn)
    (hgen : ∀ c ∈ commits, c.generation < generation) (hseq : generation ≤ t.commitSeq)
    (hp : Publishes faultIn t.root new op) :
    Shared faultIn (t.publish new delta) (commits ++ [⟨generation, lsn, op.recovered lsn⟩]) := by
  obtain ⟨e, hu, he⟩ := hp.updates
  exact {
    wellFormed := hu.wellFormed
    resident := hu.resident h.resident
    logged := h.logged.commit (c := ⟨generation, lsn, op.recovered lsn⟩) hmem
      (DurableOp.recoveredOperations_record lsn op) hgen hnew
    lsns := h.lsns
    next := h.next
    generations := forall_mem_append.2 ⟨h.generations, forall_mem_singleton.2 hseq⟩
    covered := h.covered
    entry := fun key hkey => by
      show entryAt faultIn new key = _
      rw [hu.entry, committedMap_append, replayMap, DurableOp.term_recovered]
      by_cases hk : key = op.term
      · subst hk
        rw [update_self, update_self, he (fun _ => hkey) lsn, h.entry _ hkey]
      · rw [update_of_ne hk, update_of_ne hk, h.entry key hkey]
    fresh := fun pre c post term heq hop hterm => by
      obtain ⟨rfl, rfl, -⟩ | ⟨post', hcommits, -⟩ := snoc_split heq
      · rw [← h.entry term hterm]
        exact hp.absent term (DurableOp.eq_insert_of_recovered hop)
      · exact h.fresh pre c post' term hcommits hop hterm }

end Shared

/-! ## What a call knows -/

section Calls

variable {V : Type} [DictionaryValue V] [CounterLeaf V]

def Owned (t : PersistentARTrie V) (l : Nat) : Prop := l < t.nextLsn ∧ ¬ t.watermark.Covered l

/-- A loaded revision: it is older than the slot's, or the slot's own. -/
structure Snapshot (faultIn : FaultIn UInt8 V) (t : PersistentARTrie V) (revision : RootRevision UInt8 V) : Prop where
  wellFormed : WellFormed faultIn revision.node
  resident : Everywhere faultIn Resident revision.node
  le : revision.revision ≤ t.overlay.slot.revision
  current : revision.revision = t.overlay.slot.revision → revision = t.overlay.slot

structure Pending.Unpublished (t : PersistentARTrie V) (commits : List Commit) (p : Pending V) : Prop where
  record : (p.lsn, p.op.record) ∈ t.log
  new : p.lsn ∉ commits.map Commit.lsn
  owned : Owned t p.lsn
  bounded : p.op.Bounded

structure Claimed (t : PersistentARTrie V) (commits : List Commit) (revision : RootRevision UInt8 V)
    (generation : Nat) : Prop where
  le : generation ≤ t.commitSeq
  above : revision.revision = t.overlay.slot.revision → ∀ c ∈ commits, c.generation < generation

def Counted (faultIn : FaultIn UInt8 V) (t : PersistentARTrie V) (p : Pending V) (revision : RootRevision UInt8 V)
    (v : V) : Prop :=
  ∃ key delta, p.op = .increment key delta ∧ (revision.revision = t.overlay.slot.revision →
    incrementValue key (entryAt faultIn revision.node key).join delta = .ok v)

def Pending.commit (p : Pending V) (generation : Nat) : Commit := ⟨generation, p.lsn, p.op.recovered p.lsn⟩

def Phase.Ok (faultIn : FaultIn UInt8 V) (t : PersistentARTrie V) (commits : List Commit) : Phase V → Prop
  | .ready op _ => op.Bounded
  | .appended p | .refused p | .burning p => p.Unpublished t commits
  | .loaded p revision => p.Unpublished t commits ∧ Snapshot faultIn t revision
  | .claimed p revision generation =>
    p.Unpublished t commits ∧ Snapshot faultIn t revision ∧ Claimed t commits revision generation
  | .counted p revision generation v =>
    p.Unpublished t commits ∧ Snapshot faultIn t revision ∧ Claimed t commits revision generation ∧
      Counted faultIn t p revision v
  | .published p generation | .touched p generation => p.commit generation ∈ commits ∧ Owned t p.lsn
  | .ranked p rankLsn => Owned t p.lsn ∧ Owned t rankLsn ∧ p.lsn ≠ rankLsn
  | .marked _ rankLsn => Owned t rankLsn
  | .idle | .started _ | .insertMissed _ | .removeMissed _ | .observed _ | .done .. => True

def Phase.held : Phase V → List Nat
  | .appended p | .loaded p _ | .claimed p .. | .counted p .. | .published p _ | .touched p _ | .refused p
  | .burning p => [p.lsn]
  | .ranked p rankLsn => [p.lsn, rankLsn]
  | .marked _ rankLsn => [rankLsn]
  | .idle | .started _ | .insertMissed _ | .removeMissed _ | .observed _ | .ready .. | .done .. => []

def Phase.Awaits (c : Commit) : Phase V → Prop
  | .published p generation | .touched p generation => c = p.commit generation
  | _ => False

variable {faultIn : FaultIn UInt8 V} {t t' : PersistentARTrie V} {commits commits' : List Commit} {spent : List Nat}
variable {revision : RootRevision UInt8 V} {ph : Phase V} {l : Nat}

theorem Phase.Ok.owned (h : ph.Ok faultIn t commits) (hl : l ∈ ph.held) : Owned t l := by
  cases ph with
  | appended p | refused p | burning p => exact mem_singleton.1 hl ▸ Pending.Unpublished.owned h
  | loaded p revision | claimed p revision g | counted p revision g v => exact mem_singleton.1 hl ▸ h.1.owned
  | published p g | touched p g => exact mem_singleton.1 hl ▸ h.2
  | ranked p r =>
    obtain rfl | hl := mem_cons.1 hl
    · exact h.1
    · exact mem_singleton.1 hl ▸ h.2.1
  | marked p r => exact mem_singleton.1 hl ▸ h
  | _ => cases hl

/-- What a step of one call may do to the others' view: it publishes or marks only LSNs it owns (`spent`). -/
structure Grows (t : PersistentARTrie V) (commits : List Commit) (t' : PersistentARTrie V) (commits' : List Commit)
    (spent : List Nat) : Prop where
  revision : t.overlay.slot.revision ≤ t'.overlay.slot.revision
  same : t.overlay.slot.revision = t'.overlay.slot.revision → t'.overlay.slot = t.overlay.slot ∧ commits' = commits
  kept : ∀ c ∈ commits, c ∈ commits'
  added : ∀ c ∈ commits', c ∈ commits ∨ c.lsn ∈ spent
  log : ∀ e ∈ t.log, e ∈ t'.log
  nextLsn : t.nextLsn ≤ t'.nextLsn
  covered : ∀ l, t'.watermark.Covered l → t.watermark.Covered l ∨ l ∈ spent
  commitSeq : t.commitSeq ≤ t'.commitSeq

section
variable (g : Grows t commits t' commits' spent)
include g

omit [DictionaryValue V] [CounterLeaf V] in
theorem Grows.owned (h : Owned t l) (hl : l ∉ spent) : Owned t' l :=
  ⟨h.1.trans_le g.nextLsn, fun hc => (g.covered l hc).elim h.2 hl⟩

omit [CounterLeaf V] in
theorem Grows.unpublished {p : Pending V} (h : p.Unpublished t commits) (hl : p.lsn ∉ spent) :
    p.Unpublished t' commits' where
  record := g.log _ h.record
  new := fun hmem => by
    obtain ⟨c, hc, heq⟩ := mem_map.1 hmem
    obtain hold | hspent := g.added c hc
    · exact h.new (mem_map.2 ⟨c, hold, heq⟩)
    · exact hl (heq ▸ hspent)
  owned := g.owned h.owned hl
  bounded := h.bounded

section
omit [DictionaryValue V] [CounterLeaf V]

theorem Grows.current (h : Snapshot faultIn t revision) (heq : revision.revision = t'.overlay.slot.revision) :
    revision.revision = t.overlay.slot.revision ∧ t'.overlay.slot = t.overlay.slot ∧ commits' = commits := by
  have hle := h.le
  have hrev := g.revision
  have hsame : t.overlay.slot.revision = t'.overlay.slot.revision := by omega
  exact ⟨heq.trans hsame.symm, g.same hsame⟩

theorem Grows.snapshot (h : Snapshot faultIn t revision) : Snapshot faultIn t' revision where
  wellFormed := h.wellFormed
  resident := h.resident
  le := h.le.trans g.revision
  current := fun heq => by
    obtain ⟨hrev, hslot, -⟩ := g.current h heq
    rw [hslot]
    exact h.current hrev

theorem Grows.claimed {generation : Nat} (hs : Snapshot faultIn t revision) (h : Claimed t commits revision generation) :
    Claimed t' commits' revision generation where
  le := h.le.trans g.commitSeq
  above := fun heq => by
    obtain ⟨hrev, -, hcommits⟩ := g.current hs heq
    rw [hcommits]
    exact h.above hrev

end

/-- **What a call knows stays true** under the steps of others that leave its LSNs alone. -/
theorem Grows.ok (h : ph.Ok faultIn t commits) (hl : ∀ l ∈ ph.held, l ∉ spent) : ph.Ok faultIn t' commits' := by
  cases ph with
  | appended p | refused p | burning p => exact g.unpublished h (hl _ (.head _))
  | loaded p revision => exact ⟨g.unpublished h.1 (hl _ (.head _)), g.snapshot h.2⟩
  | claimed p revision generation =>
    exact ⟨g.unpublished h.1 (hl _ (.head _)), g.snapshot h.2.1, g.claimed h.2.1 h.2.2⟩
  | counted p revision generation v =>
    obtain ⟨hp, hs, hc, key, delta, hop, hcount⟩ := h
    exact ⟨g.unpublished hp (hl _ (.head _)), g.snapshot hs, g.claimed hs hc, key, delta, hop,
      fun heq => hcount (g.current hs heq).1⟩
  | published p generation | touched p generation =>
    exact ⟨g.kept _ h.1, g.owned h.2 (hl _ (.head _))⟩
  | ranked p rankLsn =>
    exact ⟨g.owned h.1 (hl _ (.head _)), g.owned h.2.1 (hl _ (.tail _ (.head _))), h.2.2⟩
  | marked p rankLsn => exact g.owned h (hl _ (.head _))
  | ready op reply => exact h
  | _ => trivial

end

end Calls

end Dictenstein.Overlay
