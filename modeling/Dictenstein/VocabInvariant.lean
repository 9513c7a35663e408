import Dictenstein.VocabRun
/-!
# VocabInvariant — what is live, what is on disk and where the calls stand

Whatever the calls do, a term whose record is ranked or that is in the image is live with that id, and a live term is
recovered by opening the file unless its call stands between the compare-and-swap and the `CommitRank` (`Base`).  The steps
of the calls keep this, as does a checkpoint while no call is in flight. -/
namespace Dictenstein.Vocab

open Function List Option

open Overlay (OverlayNode markCommitted)
open Runs

variable {U ι : Type} [LinearOrder U]

/-! ## What opening recovers -/

section
variable {d d' : Disk U} {term : List U} {id : Nat}

/-- The term has this id in the image or in a ranked record past the checkpoint. -/
def Recovered (d : Disk U) (term : List U) (id : Nat) : Prop :=
  findInLockfreeTrie d.header.image term = some id ∨ (term, id) ∈ d.replayed

omit [LinearOrder U] in
theorem mem_replayed : (term, id) ∈ d.replayed ↔ ∃ lsn, d.header.checkpointLsn < lsn ∧ (lsn, .insert term id) ∈ d.wal ∧
      ∃ rankLsn t g, d.header.checkpointLsn < rankLsn ∧ (rankLsn, .commitRank lsn t g) ∈ d.wal := by
  have htail : ∀ e, e ∈ d.tail ↔ e ∈ d.wal ∧ d.header.checkpointLsn < e.1 := fun e => by
    rw [Disk.tail, mem_filter, decide_eq_true_iff]
  have hpending : ∀ lsn, (lsn, term, id) ∈ d.pending ↔ (lsn, .insert term id) ∈ d.tail := by
    intro lsn
    rw [Disk.pending, mem_filterMap]
    constructor
    · rintro ⟨⟨l, record⟩, hmem, heq⟩
      cases record <;> simp at heq
      obtain ⟨rfl, rfl, rfl⟩ := heq
      exact hmem
    · intro hmem
      exact ⟨_, hmem, rfl⟩
  have hranked : ∀ lsn, lsn ∈ d.ranked ↔ ∃ l t g, (l, .commitRank lsn t g) ∈ d.tail := by
    intro lsn
    rw [Disk.ranked, mem_filterMap]
    constructor
    · rintro ⟨⟨l, record⟩, hmem, heq⟩
      cases record <;> simp at heq
      obtain rfl := heq
      exact ⟨l, _, _, hmem⟩
    · rintro ⟨l, t, g, hmem⟩
      exact ⟨_, hmem, rfl⟩
  simp only [Disk.replayed, List.mem_map, List.mem_filter, decide_eq_true_iff, Prod.exists, Prod.mk.injEq, hranked]
  constructor
  · rintro ⟨lsn, t, i, ⟨hmem, l, t', g, hrank⟩, rfl, rfl⟩
    rw [hpending, htail] at hmem
    rw [htail] at hrank
    exact ⟨lsn, hmem.2, hmem.1, l, t', g, hrank.2, hrank.1⟩
  · rintro ⟨lsn, hlsn, hmem, l, t, g, hl, hrank⟩
    exact ⟨lsn, term, id, ⟨(hpending lsn).2 ((htail _).2 ⟨hmem, hlsn⟩), l, t, g, (htail _).2 ⟨hrank, hl⟩⟩, rfl, rfl⟩

theorem Recovered.append (h : Recovered d term id) (hheader : d'.header = d.header) (hwal : ∀ e ∈ d.wal, e ∈ d'.wal) :
    Recovered d' term id := by
  obtain h | h := h
  · exact .inl (by rwa [hheader])
  · obtain ⟨lsn, hlsn, hmem, l, t, g, hl, hrank⟩ := mem_replayed.1 h
    refine .inr (mem_replayed.2 ⟨lsn, ?_, hwal _ hmem, l, t, g, ?_, hwal _ hrank⟩)
    · rwa [hheader]
    · rwa [hheader]

end

/-! ## Memory and disk -/

/-- What holds of the memory and the disk, wherever the calls stand. -/
structure Store (m : Memory U) (d : Disk U) : Prop where
  vocab : IsVocab m.root
  count : m.termCount = overlayCountFinals m.root
  cache_live : ∀ term id, m.cache term = some id → findInLockfreeTrie m.root term = some id
  image_vocab : IsVocab d.header.image
  recovered_live : ∀ term id, Recovered d term id → findInLockfreeTrie m.root term = some id
  wal_sorted : d.wal.Pairwise (·.1 < ·.1)
  wal_lt : ∀ e ∈ d.wal, e.1 < m.nextLsn
  rank_lt : ∀ l lsn t g, (l, .commitRank lsn t g) ∈ d.wal → lsn < l
  rank_recovered : ∀ l lsn t g term id, (l, .commitRank lsn t g) ∈ d.wal → (lsn, .insert term id) ∈ d.wal →
    Recovered d term id
  covered_lt : ∀ n, m.watermark.Covered n → n < m.nextLsn
  checkpoint_lt : d.header.checkpointLsn < m.nextLsn

namespace Store

variable {m : Memory U} {d : Disk U} {term : List U} {id : Nat}

theorem getIndex_eq (h : Store m d) (term : List U) : m.getIndexLockfree term = findInLockfreeTrie m.root term := by
  unfold Memory.getIndexLockfree
  split
  · rename_i id hc
    exact (h.cache_live term id hc).symm
  · rfl

theorem wal_unique (h : Store m d) {a b : Nat × VocabRecord U} (ha : a ∈ d.wal) (hb : b ∈ d.wal) (heq : a.1 = b.1) :
    a = b := by
  have hnodup : (d.wal.map Prod.fst).Nodup := pairwise_map.2 (h.wal_sorted.imp fun hlt => hlt.ne)
  exact inj_on_of_nodup_map hnodup ha hb heq

theorem append (h : Store m d) (record : VocabRecord U)
    (hrank : ∀ lsn t g, record = .commitRank lsn t g → lsn < m.nextLsn ∧ d.header.checkpointLsn < lsn ∧
      ∀ term id, (lsn, .insert term id) ∈ d.wal → findInLockfreeTrie m.root term = some id) :
    Store { m with nextLsn := m.nextLsn + 1 } { d with wal := d.wal ++ [(m.nextLsn, record)] } := by
  have hmem : ∀ e, e ∈ d.wal ++ [(m.nextLsn, record)] ↔ e ∈ d.wal ∨ e = (m.nextLsn, record) := fun e => by
    rw [mem_append, mem_singleton]
  -- a ranked record was ranked before, or it is the one that the new record ranks
  have hsplit : ∀ l lsn t g term id, (l, VocabRecord.commitRank lsn t g) ∈ d.wal ++ [(m.nextLsn, record)] →
      (lsn, VocabRecord.insert term id) ∈ d.wal ++ [(m.nextLsn, record)] → (lsn, VocabRecord.insert term id) ∈ d.wal ∧
        ((l, VocabRecord.commitRank lsn t g) ∈ d.wal ∨ record = .commitRank lsn t g ∧ l = m.nextLsn) := by
    intro l lsn t g term id hr hi
    obtain hold | heq := (hmem _).1 hr
    · obtain hi | heq := (hmem _).1 hi
      · exact ⟨hi, .inl hold⟩
      · cases heq
        exact absurd (h.wal_lt _ hold) (h.rank_lt l _ t g hold).not_gt
    · cases heq
      obtain hi | heq := (hmem _).1 hi
      · exact ⟨hi, .inr ⟨rfl, rfl⟩⟩
      · cases heq
  refine { h with recovered_live := ?_, wal_sorted := ?_, wal_lt := ?_, rank_lt := ?_, rank_recovered := ?_,
                  covered_lt := ?_, checkpoint_lt := ?_ }
  · rintro term id (himage | hreplayed)
    · exact h.recovered_live term id (.inl himage)
    · obtain ⟨lsn, hlsn, hi, l, t, g, hl, hr⟩ := mem_replayed.1 hreplayed
      obtain ⟨hi, hr | ⟨hr, -⟩⟩ := hsplit l lsn t g term id hr hi
      · exact h.recovered_live term id (h.rank_recovered l lsn t g term id hr hi)
      · exact (hrank lsn t g hr).2.2 term id hi
  · rw [pairwise_append]
    refine ⟨h.wal_sorted, pairwise_singleton _ _, fun a ha b hb => ?_⟩
    rw [mem_singleton.1 hb]
    exact h.wal_lt a ha
  · intro e he
    obtain he | rfl := (hmem e).1 he
    · exact Nat.lt_succ_of_lt (h.wal_lt e he)
    · exact Nat.lt_succ_self _
  · intro l lsn t g he
    obtain he | heq := (hmem _).1 he
    · exact h.rank_lt l lsn t g he
    · cases heq
      exact (hrank lsn t g rfl).1
  · intro l lsn t g term id hr hi
    obtain ⟨hi', hr' | ⟨hr', rfl⟩⟩ := hsplit l lsn t g term id hr hi
    · exact (h.rank_recovered l lsn t g term id hr' hi').append rfl fun e he => (hmem e).2 (.inl he)
    · exact .inr (mem_replayed.2 ⟨lsn, (hrank lsn t g hr').2.1, hi, m.nextLsn, t, g, h.checkpoint_lt, hr⟩)
  · exact fun n hn => Nat.lt_succ_of_lt (h.covered_lt n hn)
  · exact Nat.lt_succ_of_lt h.checkpoint_lt

variable {lsn : Nat}

theorem covered_markCommitted (h : Store m d) (hlsn : lsn < m.nextLsn) (n : Nat)
    (hn : (markCommitted lsn m.watermark).Covered n) :
    n < m.nextLsn := by
  unfold markCommitted at hn
  split at hn
  · exact h.covered_lt n hn
  · obtain rfl | hn := (Frontier.covered_mark lsn m.watermark n).1 hn
    · exact hlsn
    · exact h.covered_lt n hn

theorem mark (h : Store m d) (hlsn : lsn < m.nextLsn) : Store { m with watermark := markCommitted lsn m.watermark } d :=
  { h with covered_lt := h.covered_markCommitted hlsn }

theorem live_published {old root : VocabNode U} (hnone : findInLockfreeTrie old term = none)
    (hfind : findInLockfreeTrie root = update (findInLockfreeTrie old) term (some id)) {t : List U} {i : Nat}
    (ht : findInLockfreeTrie old t = some i) : findInLockfreeTrie root t = some i := by
  have hne : t ≠ term := by
    rintro rfl
    rw [hnone] at ht
    cases ht
  rw [hfind, update_of_ne hne, ht]

theorem publish (h : Store m d) {root : VocabNode U} {revision : Nat} (hroot : IsVocab root)
    (hnone : findInLockfreeTrie m.root term = none)
    (hfind : findInLockfreeTrie root = update (findInLockfreeTrie m.root) term (some id)) :
    Store { m with root, termCount := m.termCount + 1, revision } d :=
  { h with vocab := hroot
           count := by rw [h.count, overlayCountFinals_update h.vocab hroot hnone hfind]
           cache_live := fun t i ht => live_published hnone hfind (h.cache_live t i ht)
           recovered_live := fun t i ht => live_published hnone hfind (h.recovered_live t i ht) }

theorem cacheInsert (h : Store m d) (hlive : findInLockfreeTrie m.root term = some id) :
    Store { m with cache := update m.cache term (some id) } d := by
  refine { h with cache_live := fun t i ht => ?_ }
  have ht : update m.cache term (some id) t = some i := ht
  rw [update_apply] at ht
  split at ht
  · rename_i heq
    rw [heq, ← some.inj ht]
    exact hlive
  · exact h.cache_live t i ht

end Store

/-! ## The calls -/

def Phase.unranked : Phase U → Option (List U × Nat)
  | .durable req (.cache ..) | .durable req (.rank ..) => some (req.term, req.index)
  | _ => none

/-- The data record of the call is in the log, past the checkpoint. -/
def DataRecord (d : Disk U) (req : Req U) (lsn : Nat) : Prop :=
  (lsn, .insert req.term req.index) ∈ d.wal ∧ d.header.checkpointLsn < lsn

def PhaseOk (m : Memory U) (d : Disk U) : Phase U → Prop
  | .durable req (.publish lsn) => DataRecord d req lsn
  | .durable req (.swap lsn _ revision root termCount) => DataRecord d req lsn ∧ revision ≤ m.revision ∧
      (revision = m.revision → termCount = m.termCount + 1 ∧ IsVocab root ∧ findInLockfreeTrie m.root req.term = none ∧
        findInLockfreeTrie root = update (findInLockfreeTrie m.root) req.term (some req.index))
  | .durable req (.cache lsn _) | .durable req (.rank lsn _) =>
      DataRecord d req lsn ∧ findInLockfreeTrie m.root req.term = some req.index
  | .durable req (.mark lsn rankLsn) => lsn < m.nextLsn ∧ rankLsn < m.nextLsn ∧ Recovered d req.term req.index
  | .durable req (.burn lsn) => DataRecord d req lsn ∧ (findInLockfreeTrie m.root req.term).isSome
  | .mirror req | .raise req => Recovered d req.term req.index
  | .relook term _ => (findInLockfreeTrie m.root term).isSome
  | .returning (.inserted term id) | .returning (.insertedWithIndex term id true) =>
      findInLockfreeTrie m.root term = some id
  | _ => True

/-- Terms stay, records are appended, and a root is published over the last one only. -/
structure Later (m m' : Memory U) (d d' : Disk U) : Prop where
  live : ∀ term id, findInLockfreeTrie m.root term = some id → findInLockfreeTrie m'.root term = some id
  slot : m'.revision = m.revision ∧ m'.root = m.root ∧ m'.termCount = m.termCount ∨ m.revision < m'.revision
  lsn : m.nextLsn ≤ m'.nextLsn
  header : d'.header = d.header
  wal : ∀ e ∈ d.wal, e ∈ d'.wal

section
variable {m m' : Memory U} {d d' : Disk U}

theorem Later.same (hroot : m'.root = m.root) (hslot : m'.revision = m.revision ∧ m'.termCount = m.termCount)
    (hlsn : m'.nextLsn = m.nextLsn) : Later m m' d d :=
  ⟨fun _ _ h => by rwa [hroot], .inl ⟨hslot.1, hroot, hslot.2⟩, hlsn.ge, rfl, fun _ h => h⟩

theorem DataRecord.later {req : Req U} {lsn : Nat} (hl : Later m m' d d') (h : DataRecord d req lsn) :
    DataRecord d' req lsn := by
  refine ⟨hl.wal _ h.1, ?_⟩
  rw [hl.header]
  exact h.2

theorem Later.isSome (hl : Later m m' d d') {term : List U} (h : (findInLockfreeTrie m.root term).isSome) :
    (findInLockfreeTrie m'.root term).isSome := by
  obtain ⟨id, hid⟩ := isSome_iff_exists.1 h
  rw [hl.live term id hid]
  rfl

theorem PhaseOk.later (hl : Later m m' d d') {p : Phase U} (h : PhaseOk m d p) : PhaseOk m' d' p := by
  cases p with
  | durable req stage =>
    cases stage with
    | hoist | append => trivial
    | publish lsn => exact DataRecord.later hl h
    | swap lsn generation revision root termCount =>
      obtain ⟨hdata, hle, heq⟩ := h
      obtain ⟨hrev, hroot, hcount⟩ | hlt := hl.slot
      · refine ⟨hdata.later hl, by rwa [hrev], fun h => ?_⟩
        rw [hroot, hcount]
        exact heq (h.trans hrev)
      · exact ⟨hdata.later hl, hle.trans hlt.le, fun h => absurd (h ▸ hlt) (not_lt.2 hle)⟩
    | cache | rank => exact ⟨h.1.later hl, hl.live _ _ h.2⟩
    | mark lsn rankLsn =>
      exact ⟨lt_of_lt_of_le h.1 hl.lsn, lt_of_lt_of_le h.2.1 hl.lsn, h.2.2.append hl.header hl.wal⟩
    | burn lsn => exact ⟨h.1.later hl, hl.isSome h.2⟩
  | mirror | raise => exact Recovered.append h hl.header hl.wal
  | relook term index => exact hl.isSome h
  | returning outcome =>
    match outcome with
    | .inserted term id => exact hl.live term id h
    | .insertedWithIndex term id true => exact hl.live term id h
    | .insertedWithIndex _ _ false => trivial
    | .failed _ => trivial
  | _ => trivial

end

/-- **What holds in every state.**  A live term is recovered by opening the file, or its call has yet to rank its record. -/
structure Base (s : VocabSystem U ι) : Prop where
  store : Store s.mem s.disk
  live_recovered : ∀ term id, findInLockfreeTrie s.mem.root term = some id →
    Recovered s.disk term id ∨ ∃ a, (s.calls a).unranked = some (term, id)
  phase : ∀ a, PhaseOk s.mem s.disk (s.calls a)

namespace Base

variable {s s' : VocabSystem U ι} {t : ι}

theorem getIndex_eq (hb : Base s) (term : List U) : s.getIndex term = findInLockfreeTrie s.mem.root term :=
  hb.store.getIndex_eq term

theorem setMem (hb : Base s) {m : Memory U} (hroot : m.root = s.mem.root)
    (hslot : m.revision = s.mem.revision ∧ m.termCount = s.mem.termCount) (hlsn : m.nextLsn = s.mem.nextLsn)
    (hstore : Store m s.disk) : Base { s with mem := m } where
  store := hstore
  live_recovered term id h := by
    have h : findInLockfreeTrie m.root term = some id := h
    rw [hroot] at h
    exact hb.live_recovered term id h
  phase a := (hb.phase a).later (.same hroot hslot hlsn)

theorem setIds (hb : Base s) (nextIndex : Nat) (reverse : Nat → Option (List U)) (entryCount : Nat) (dirty : Bool) :
    Base { s with mem := { s.mem with nextIndex, reverse, entryCount, dirty } } :=
  hb.setMem rfl ⟨rfl, rfl⟩ rfl { hb.store with }

variable [DecidableEq ι]
variable {p : Phase U} {req : Req U} {lsn generation : Nat}

theorem move (hb : Base s) (hl : Later s.mem s'.mem s.disk s'.disk) (hstore : Store s'.mem s'.disk)
    (hcalls : s'.calls = update s.calls t p) (hp : PhaseOk s'.mem s'.disk p)
    (hnew : ∀ term id, findInLockfreeTrie s'.mem.root term = some id →
      findInLockfreeTrie s.mem.root term = some id ∨ p.unranked = some (term, id))
    (hdone : ∀ term id, (s.calls t).unranked = some (term, id) → p.unranked = some (term, id) ∨ Recovered s'.disk term id) :
    Base s' where
  store := hstore
  live_recovered term id h := by
    have hmine : p.unranked = some (term, id) → ∃ a, (s'.calls a).unranked = some (term, id) := fun hp =>
      ⟨t, by rw [hcalls, update_self, hp]⟩
    obtain hold | hp := hnew term id h
    · obtain hr | ⟨a, ha⟩ := hb.live_recovered term id hold
      · exact .inl (hr.append hl.header hl.wal)
      · by_cases hat : a = t
        · subst hat
          exact (hdone term id ha).symm.imp_right hmine
        · exact .inr ⟨a, by rw [hcalls, update_of_ne hat, ha]⟩
    · exact .inr (hmine hp)
  phase := by
    rw [hcalls]
    exact (forall_update_iff _ fun _ q => PhaseOk s'.mem s'.disk q).2 ⟨hp, fun a _ => (hb.phase a).later hl⟩

theorem goto (hb : Base s) {q : Phase U} (ht : s.calls t = q) (hun : q.unranked = none) (hp : PhaseOk s.mem s.disk p) :
    Base (s.goto t p) :=
  hb.move (.same rfl ⟨rfl, rfl⟩ rfl) hb.store rfl hp (fun _ _ h => .inl h) fun _ _ h => by rw [ht, hun] at h; cases h

theorem append (hb : Base s) {record : VocabRecord U} {q : Phase U} (ht : s.calls t = q) (hun : q.unranked = none)
    (hrecord : ∀ lsn term g, record ≠ .commitRank lsn term g) (hp : PhaseOk (s.append record).mem (s.append record).disk p) :
    Base ((s.append record).goto t p) := by
  refine hb.move ⟨fun _ _ h => h, .inl ⟨rfl, rfl, rfl⟩, Nat.le_succ _, rfl, fun e => mem_append_left _⟩
    (hb.store.append record fun lsn term g h => absurd h (hrecord lsn term g)) rfl hp (fun _ _ h => .inl h) fun _ _ h => ?_
  rw [ht, hun] at h
  cases h

theorem phaseOk_notNewly {m : Memory U} {d : Disk U} (req : Req U) (h : (findInLockfreeTrie m.root req.term).isSome) :
    PhaseOk m d req.notNewly := by
  unfold Req.notNewly
  cases req.kind with
  | insert => exact h
  | insertWithIndex => trivial

omit [DecidableEq ι] in
theorem find_published {old root : VocabNode U} {term : List U} {index : Nat}
    (hfind : findInLockfreeTrie root = update (findInLockfreeTrie old) term (some index)) {u : List U} {i : Nat}
    (h : findInLockfreeTrie root u = some i) : u = term ∧ i = index ∨ findInLockfreeTrie old u = some i := by
  rw [hfind, update_apply] at h
  split at h
  · rename_i hterm
    exact .inl ⟨hterm, (some.inj h).symm⟩
  · exact .inr h

theorem swap (hb : Base s) {revision : Nat} {root : VocabNode U} {termCount : Nat}
    (ht : s.calls t = .durable req (.swap lsn generation revision root termCount)) (hrev : s.mem.revision = revision) :
    Base ({ s with mem := { s.mem with root, termCount, revision := revision + 1 } }.goto t
      (.durable req (.cache lsn generation))) := by
  have hphase := hb.phase t
  rw [ht] at hphase
  obtain ⟨hdata, -, heq⟩ := hphase
  obtain ⟨rfl, hroot, hnone, hfind⟩ := heq hrev.symm
  have hself : findInLockfreeTrie root req.term = some req.index := by rw [hfind, update_self]
  refine hb.move ⟨fun _ _ => Store.live_published hnone hfind, .inr ?_, le_rfl, rfl, fun _ h => h⟩
    (hb.store.publish hroot hnone hfind)
    rfl ⟨hdata, hself⟩ (fun term id h => ?_) fun term id h => ?_
  · rw [hrev]
    exact Nat.lt_succ_self _
  · obtain ⟨rfl, rfl⟩ | hold := find_published hfind h
    · exact .inr rfl
    · exact .inl hold
  · rw [ht] at h
    cases h

theorem rank (hb : Base s) (ht : s.calls t = .durable req (.rank lsn generation)) :
    Base ((s.append (.commitRank lsn req.term generation)).goto t (.durable req (.mark lsn s.mem.nextLsn))) := by
  have hphase := hb.phase t
  rw [ht] at hphase
  obtain ⟨⟨hmem, hcp⟩, hlive⟩ := hphase
  have hlt : lsn < s.mem.nextLsn := hb.store.wal_lt _ hmem
  have hstore := hb.store.append (.commitRank lsn req.term generation) fun l u g heq => by
    cases heq
    refine ⟨hlt, hcp, fun term id h => ?_⟩
    -- the record that is ranked is the call's own
    have hsame := hb.store.wal_unique h hmem rfl
    cases hsame
    exact hlive
  have hrec : Recovered (s.append (.commitRank lsn req.term generation)).disk req.term req.index := by
    refine .inr (mem_replayed.2 ⟨lsn, hcp, mem_append_left _ hmem, s.mem.nextLsn, req.term, generation, ?_, ?_⟩)
    · exact hb.store.checkpoint_lt
    · exact mem_append_right _ (mem_singleton_self _)
  refine hb.move ⟨fun _ _ h => h, .inl ⟨rfl, rfl, rfl⟩, Nat.le_succ _, rfl, fun e => mem_append_left _⟩ hstore rfl
    ⟨Nat.lt_succ_of_lt hlt, Nat.lt_succ_self _, hrec⟩ (fun _ _ h => .inl h) fun term id h => ?_
  rw [ht] at h
  cases h
  exact .inr hrec

theorem durableStep (hb : Base s) {stage : Stage U} (ht : s.calls t = .durable req stage) :
    Base (s.durableStep t req stage) := by
  have hphase := hb.phase t
  rw [ht] at hphase
  cases stage with
  | hoist =>
    simp only [VocabSystem.durableStep]
    split
    · rename_i hsome
      exact hb.goto ht rfl (phaseOk_notNewly req hsome)
    · exact hb.goto ht rfl trivial
  | append =>
    exact hb.append ht rfl nofun ⟨mem_append_right _ (mem_singleton_self _), hb.store.checkpoint_lt⟩
  | publish lsn =>
    have hb' : Base { s with mem := { s.mem with commitSeq := s.mem.commitSeq + 1 } } :=
      hb.setMem rfl ⟨rfl, rfl⟩ rfl { hb.store with }
    have hspec := tryInsertLockfreePath_spec req.index req.term 0 s.mem.root hb.store.vocab
    simp only [VocabSystem.durableStep]
    cases hfind : findInLockfreeTrie s.mem.root req.term with
    | some existing => exact hb'.goto ht rfl ⟨hphase, by rw [hfind]; rfl⟩
    | none =>
      rw [hfind] at hspec
      obtain ⟨root, hok, hroot, hupdate⟩ := hspec
      simp only [isSome_none, Bool.false_eq_true, if_false, hok]
      exact hb'.goto ht rfl ⟨hphase, le_rfl, fun _ => ⟨rfl, hroot, hfind, hupdate⟩⟩
  | swap lsn generation revision root termCount =>
    simp only [VocabSystem.durableStep]
    split
    · rename_i hrev
      exact hb.swap ht hrev
    · exact hb.goto ht rfl hphase.1
  | cache lsn generation =>
    refine hb.move (.same rfl ⟨rfl, rfl⟩ rfl) (hb.store.cacheInsert hphase.2) rfl hphase
      (fun _ _ h => .inl h) fun term id h => ?_
    rw [ht] at h
    exact .inl h
  | rank lsn generation => exact hb.rank ht
  | mark lsn rankLsn =>
    have hrankLsn : rankLsn < s.mem.nextLsn := hphase.2.1
    have hstore := (hb.store.mark hphase.1).mark hrankLsn
    have hb' : Base ((s.mark lsn).mark rankLsn) := hb.setMem rfl ⟨rfl, rfl⟩ rfl hstore
    exact hb'.goto ht rfl hphase.2.2
  | burn lsn =>
    have hb' : Base (s.mark lsn) := hb.setMem rfl ⟨rfl, rfl⟩ rfl (hb.store.mark (hb.store.wal_lt _ hphase.1.1))
    exact hb'.goto ht rfl (phaseOk_notNewly req hphase.2)

theorem advance (hb : Base s) (hs : s.advance t (s.calls t) = some s') : Base s' := by
  have hphase := hb.phase t
  generalize ht : s.calls t = p at hs hphase
  cases VocabSystem.advances hs with
  | durable => exact hb.durableStep ht
  | found hget =>
    rw [hb.store.getIndex_eq] at hget
    exact hb.goto ht rfl hget
  | allocated => exact (hb.setIds _ _ _ _).goto ht rfl trivial
  | mirroredInsert => exact (hb.setIds _ _ _ _).goto ht rfl (hb.store.recovered_live _ _ hphase)
  | mirrored => exact (hb.setIds _ _ _ _).goto ht rfl hphase
  | raised => exact (hb.setIds _ _ _ _).goto ht rfl (hb.store.recovered_live _ _ hphase)
  | relooked =>
    obtain ⟨id, hid⟩ := isSome_iff_exists.1 hphase
    rw [hb.store.getIndex_eq, hid]
    exact hb.goto ht rfl hid
  | _ => exact hb.goto ht rfl trivial

end Base

end Dictenstein.Vocab
