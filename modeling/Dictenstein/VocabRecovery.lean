import Dictenstein.VocabInvariant
/-!
# VocabRecovery — what opening a vocabulary gives back

Opening builds the overlay and the reverse map from the image and replays the ranked records past the checkpoint.  As long as
these agree on every term, opening succeeds and the overlay has exactly the recovered terms (`openWithRecovery_spec`); if no
two of them share an id, the reverse map is the inverse.
-/
namespace Dictenstein.Vocab

open Function List

open Overlay (OverlayNode)
open Runs

variable {U ι : Type} [LinearOrder U]

/-! ## The reverse map of the image -/

section
omit [LinearOrder U]

theorem foldl_reverse {terms : List (List U × Option Nat)} (hsome : ∀ e ∈ terms, e.2.isSome)
    (hinj : ∀ t u i, (t, some i) ∈ terms → (u, some i) ∈ terms → t = u) (reverse : Nat → Option (List U)) (i : Nat)
    (t : List U) :
    terms.foldl (fun reverse e => match e.2 with
      | some id => update reverse id (some e.1)
      | none => reverse) reverse i = some t ↔
    (t, some i) ∈ terms ∨ reverse i = some t ∧ ∀ u, (u, some i) ∉ terms := by
  induction terms generalizing reverse with
  | nil => simp
  | cons e terms ih =>
    obtain ⟨term, value⟩ := e
    obtain ⟨id, rfl⟩ := Option.isSome_iff_exists.1 (hsome _ (.head _))
    rw [foldl_cons, ih (fun e he => hsome e (.tail _ he))
      fun t u i ht hu => hinj t u i (.tail _ ht) (.tail _ hu)]
    simp only [update_apply, mem_cons, Prod.mk.injEq, Option.some.injEq, not_or, forall_and]
    by_cases hi : i = id
    · subst hi
      simp only [if_true, and_true]
      constructor
      · rintro (h | ⟨h, hno⟩)
        · exact .inl (.inr h)
        · exact .inl (.inl (Option.some.inj h).symm)
      · rintro ((rfl | h) | ⟨-, h, -⟩)
        · by_cases hmem : ∃ u, (u, some i) ∈ terms
          · obtain ⟨u, hu⟩ := hmem
            rw [hinj t u i (.head _) (.tail _ hu)]
            exact .inl hu
          · exact .inr ⟨rfl, fun u hu => hmem ⟨u, hu⟩⟩
        · exact .inl h
        · exact absurd rfl (h term)
    · simp [hi]

end

theorem reestablishReverse_spec {image : VocabNode U} (hn : IsVocab image)
    (hinj : ∀ t u i, findInLockfreeTrie image t = some i → findInLockfreeTrie image u = some i → t = u) (i : Nat)
    (t : List U) : reestablishReverse image i = some t ↔ findInLockfreeTrie image t = some i := by
  have hmem : ∀ u j, (u, some j) ∈ overlayTerms image ↔ findInLockfreeTrie image u = some j := fun u j => by
    rw [mem_overlayTerms hn]
    simp
  have hfilter : ∀ u j, (u, some j) ∈ (overlayTerms image).filter (·.1 ≠ []) ↔
      findInLockfreeTrie image u = some j ∧ u ≠ [] := fun u j => by
    rw [mem_filter, hmem, decide_eq_true_iff]
  have hsome : ∀ e ∈ (overlayTerms image).filter (·.1 ≠ []), e.2.isSome := fun e he =>
    ((mem_overlayTerms hn e.1 e.2).1 (mem_filter.1 he).1).1
  have hfold := foldl_reverse hsome
    (fun t u i ht hu => hinj t u i ((hfilter t i).1 ht).1 ((hfilter u i).1 hu).1) (fun _ => none) i t
  simp only [reduceCtorEq, false_and, or_false, hfilter] at hfold
  simp only [reestablishReverse, enumerateOverlayTerms]
  -- the empty term is entered last
  rw [lookup_overlayTerms hn]
  cases hempty : findInLockfreeTrie image [] with
  | none =>
    refine hfold.trans ⟨And.left, fun h => ⟨h, ?_⟩⟩
    rintro rfl
    rw [hempty] at h
    cases h
  | some id =>
    simp only [Option.map_some, update_apply]
    by_cases hi : i = id
    · subst hi
      rw [if_pos rfl, Option.some.injEq]
      exact ⟨fun h => h ▸ hempty, fun h => hinj [] t i hempty h⟩
    · rw [if_neg hi]
      refine hfold.trans ⟨And.left, fun h => ⟨h, ?_⟩⟩
      rintro rfl
      rw [hempty] at h
      exact hi (Option.some.inj h).symm

/-! ## Replaying -/

structure Sound (m : Memory U) : Prop where
  vocab : IsVocab m.root
  count : m.termCount = overlayCountFinals m.root
  cache_live : ∀ term id, m.cache term = some id → findInLockfreeTrie m.root term = some id

/-- The memory `m'` after the entries of a list have been replayed into `m`. -/
structure Replays (m m' : Memory U) (entries : List (List U × Nat)) : Prop where
  sound : Sound m'
  find_iff : ∀ t i, findInLockfreeTrie m'.root t = some i ↔ findInLockfreeTrie m.root t = some i ∨ (t, i) ∈ entries
  nextIndex : m'.nextIndex = m.nextIndex
  nextLsn : m'.nextLsn = m.nextLsn
  watermark : m'.watermark = m.watermark

def Inverse (m : Memory U) : Prop := ∀ i t, m.reverse i = some t ↔ findInLockfreeTrie m.root t = some i

section
variable {P : List U → Nat → Prop} (hfun : ∀ t i j, P t i → P t j → i = j)
include hfun

theorem replayInsert_spec {m : Memory U} (hm : Sound m) (hP : ∀ t i, findInLockfreeTrie m.root t = some i → P t i)
    {e : List U × Nat} (he : P e.1 e.2) :
    ∃ m', replayInsert m e = .ok m' ∧ Replays m m' [e] ∧ ((∀ t u i, P t i → P u i → t = u) → Inverse m → Inverse m') := by
  obtain ⟨term, id⟩ := e
  have hget : m.getIndexLockfree term = findInLockfreeTrie m.root term := by
    unfold Memory.getIndexLockfree
    split
    · rename_i i hc
      exact (hm.cache_live term i hc).symm
    · rfl
  unfold replayInsert
  simp only [hget]
  cases hfind : findInLockfreeTrie m.root term with
  | some existing =>
    obtain rfl : existing = id := hfun term _ _ (hP term existing hfind) he
    refine ⟨m, rfl, ⟨hm, fun t i => ?_, rfl, rfl, rfl⟩, fun _ h => h⟩
    rw [mem_singleton, Prod.mk.injEq]
    refine ⟨.inl, ?_⟩
    rintro (h | ⟨rfl, rfl⟩)
    · exact h
    · exact hfind
  | none =>
    have hspec := tryInsertLockfreePath_spec id term 0 m.root hm.vocab
    rw [hfind] at hspec
    obtain ⟨root, hok, hroot, hupdate⟩ := hspec
    simp only [hok]
    have hiff : ∀ t i, findInLockfreeTrie root t = some i ↔ findInLockfreeTrie m.root t = some i ∨ t = term ∧ i = id := by
      intro t i
      rw [hupdate, update_apply]
      by_cases ht : t = term
      · subst ht
        simp [hfind, eq_comm]
      · simp [ht]
    refine ⟨_, rfl, ⟨⟨hroot, ?_, fun t i h => ?_⟩, fun t i => ?_, rfl, rfl, rfl⟩, fun hinj hinv i t => ?_⟩
    · show m.termCount + 1 = overlayCountFinals root
      rw [hm.count, overlayCountFinals_update hm.vocab hroot hfind hupdate]
    · have h : update m.cache term (some id) t = some i := h
      rw [update_apply] at h
      split at h
      · rename_i ht
        exact (hiff t i).2 (.inr ⟨ht, (Option.some.inj h).symm⟩)
      · exact (hiff t i).2 (.inl (hm.cache_live t i h))
    · rw [mem_singleton, Prod.mk.injEq]
      exact hiff t i
    · show update m.reverse id (some term) i = some t ↔ findInLockfreeTrie root t = some i
      rw [hiff, update_apply]
      by_cases hi : i = id
      · subst hi
        rw [if_pos rfl, Option.some.injEq]
        refine ⟨fun h => .inr ⟨h.symm, rfl⟩, ?_⟩
        rintro (h | ⟨rfl, -⟩)
        · exact hinj term t i he (hP t i h)
        · rfl
      · rw [if_neg hi, hinv]
        refine ⟨.inl, ?_⟩
        rintro (h | ⟨-, h⟩)
        · exact h
        · exact absurd h hi

theorem foldlM_replayInsert {entries : List (List U × Nat)} : ∀ {m : Memory U}, Sound m →
    (∀ t i, findInLockfreeTrie m.root t = some i → P t i) → (∀ t i, (t, i) ∈ entries → P t i) →
    ∃ m', entries.foldlM replayInsert m = .ok m' ∧ Replays m m' entries ∧
      ((∀ t u i, P t i → P u i → t = u) → Inverse m → Inverse m') := by
  induction entries with
  | nil =>
    intro m hm _ _
    exact ⟨m, rfl, ⟨hm, fun t i => by simp, rfl, rfl, rfl⟩, fun _ h => h⟩
  | cons e entries ih =>
    intro m hm hP hentries
    obtain ⟨m₁, hok, hrep, hinv⟩ := replayInsert_spec hfun hm hP (hentries e.1 e.2 (.head _))
    have hP₁ : ∀ t i, findInLockfreeTrie m₁.root t = some i → P t i := by
      intro t i h
      obtain h | h := (hrep.find_iff t i).1 h
      · exact hP t i h
      · rw [mem_singleton] at h
        subst h
        exact hentries t i (.head _)
    obtain ⟨m₂, hok₂, hrep₂, hinv₂⟩ := ih hrep.sound hP₁ fun t i h => hentries t i (.tail _ h)
    refine ⟨m₂, ?_, ⟨hrep₂.sound, fun t i => ?_, ?_, ?_, ?_⟩, fun hinj h => hinv₂ hinj (hinv hinj h)⟩
    · rw [foldlM_cons, hok]
      exact hok₂
    · rw [hrep₂.find_iff, hrep.find_iff, mem_singleton, mem_cons, or_assoc]
    · rw [hrep₂.nextIndex, hrep.nextIndex]
    · rw [hrep₂.nextLsn, hrep.nextLsn]
    · rw [hrep₂.watermark, hrep.watermark]

end

/-! ## Opening -/

section
variable {α : Type} (f : α → Nat)

theorem le_foldl_max : ∀ (l : List α) (a : Nat),
    a ≤ l.foldl (fun acc e => max acc (f e)) a ∧ ∀ e ∈ l, f e ≤ l.foldl (fun acc e => max acc (f e)) a
  | [], a => ⟨le_rfl, nofun⟩
  | x :: l, a => by
    obtain ⟨ha, hl⟩ := le_foldl_max l (max a (f x))
    exact ⟨(le_max_left _ _).trans ha, forall_mem_cons.2 ⟨(le_max_right _ _).trans ha, hl⟩⟩

theorem foldl_max_le {b : Nat} : ∀ {l : List α} {a : Nat}, a ≤ b → (∀ e ∈ l, f e ≤ b) →
    l.foldl (fun acc e => max acc (f e)) a ≤ b
  | [], _, ha, _ => ha
  | x :: l, a, ha, hl => by
    rw [foldl_cons]
    exact foldl_max_le (max_le ha (hl x mem_cons_self)) fun e he => hl e (mem_cons_of_mem _ he)

end

/-- The counter after the replay.  It is raised above the replayed ids if the largest of them is positive. -/
def recoveredNextIndex (d : Disk U) : Nat :=
  let maxId := d.replayed.foldl (fun acc e => max acc e.2) 0
  if maxId > 0 then max d.header.nextIndex ((maxId + 1) % 2 ^ 64) else d.header.nextIndex

structure Opened (d : Disk U) (m : Memory U) : Prop where
  sound : Sound m
  find_iff : ∀ t i, findInLockfreeTrie m.root t = some i ↔ Recovered d t i
  inverse : (∀ t u i, Recovered d t i → Recovered d u i → t = u) → Inverse m
  nextIndex : m.nextIndex = recoveredNextIndex d
  wal_lt : ∀ e ∈ d.wal, e.1 < m.nextLsn
  checkpoint_lt : d.header.checkpointLsn < m.nextLsn
  watermark : m.watermark = ⟨0, ∅⟩

/-- **Opening succeeds and gives the recovered terms**, if the image and the replayed records agree on every term. -/
theorem openWithRecovery_spec {d : Disk U} (himage : IsVocab d.header.image)
    (hfun : ∀ t i j, Recovered d t i → Recovered d t j → i = j) : ∃ m, openWithRecovery d = .ok m ∧ Opened d m := by
  obtain ⟨hvocab, hfind⟩ := reestablish_spec himage
  have hsnap : ∀ t i, findInLockfreeTrie (openSnapshot d).root t = some i ↔ findInLockfreeTrie d.header.image t = some i :=
    fun t i => by
      show findInLockfreeTrie (reestablishRoot d.header.image) t = some i ↔ _
      rw [hfind]
  obtain ⟨m, hok, hrep, hinv⟩ := foldlM_replayInsert hfun (m := openSnapshot d) ⟨hvocab, rfl, nofun⟩
    (fun t i h => .inl ((hsnap t i).1 h)) fun t i (h : (t, i) ∈ d.replayed) => .inr h
  have hiff : ∀ t i, findInLockfreeTrie m.root t = some i ↔ Recovered d t i := fun t i => by
    rw [hrep.find_iff, hsnap, Recovered]
  have hlsn : ∀ e ∈ d.wal, e.1 < (openSnapshot d).nextLsn := fun e he =>
    (le_foldl_max (fun e : Nat × VocabRecord U => e.1 + 1) d.wal _).2 e he
  have hcp : d.header.checkpointLsn < (openSnapshot d).nextLsn :=
    (le_foldl_max (fun e : Nat × VocabRecord U => e.1 + 1) d.wal _).1
  have hnext : m.nextLsn ≤ d.tail.foldl (fun next e => max next (e.1 + 1)) m.nextLsn :=
    (le_foldl_max (fun e : Nat × VocabRecord U => e.1 + 1) d.tail _).1
  rw [hrep.nextLsn] at hnext
  refine ⟨m.restoreFloors d, by rw [openWithRecovery, replayWalIntoOverlayRankAware, hok]; rfl,
    ⟨hrep.sound.vocab, hrep.sound.count, hrep.sound.cache_live⟩, hiff, fun hinj => ?_, ?_, fun e he => ?_, ?_,
    hrep.watermark⟩
  · refine hinv hinj fun i t => ?_
    rw [hsnap]
    exact reestablishReverse_spec himage (fun t u i ht hu => hinj t u i (.inl ht) (.inl hu)) i t
  · rw [Memory.restoreFloors, hrep.nextIndex]
    rfl
  · rw [Memory.restoreFloors, hrep.nextLsn]
    exact lt_of_lt_of_le (hlsn e he) hnext
  · rw [Memory.restoreFloors, hrep.nextLsn]
    exact lt_of_lt_of_le hcp hnext

/-! ## Crashes and checkpoints -/

namespace Base

variable {s s' : VocabSystem U ι} {t : ι}

theorem opened (hb : Base s) : ∃ m, openWithRecovery s.disk = .ok m ∧ Opened s.disk m :=
  openWithRecovery_spec hb.store.image_vocab fun t i j hi hj =>
    Option.some.inj ((hb.store.recovered_live t i hi).symm.trans (hb.store.recovered_live t j hj))

theorem reopen (hb : Base s) {m : Memory U} (hm : Opened s.disk m) :
    Base ({ s with mem := m, calls := fun _ => .idle } : VocabSystem U ι) where
  store := { hb.store with
    vocab := hm.sound.vocab
    count := hm.sound.count
    cache_live := hm.sound.cache_live
    recovered_live := fun t i => (hm.find_iff t i).2
    wal_lt := hm.wal_lt
    covered_lt := fun n hn => by
      rw [hm.watermark] at hn
      have hzero : n ≤ 0 := hn.resolve_right (Finset.notMem_empty n)
      exact lt_of_le_of_lt (hzero.trans (Nat.zero_le _)) hm.checkpoint_lt
    checkpoint_lt := hm.checkpoint_lt }
  live_recovered t i h := .inl ((hm.find_iff t i).1 h)
  phase _ := trivial

theorem find_checkpoint_image (hb : Base s) (term : List U) :
    findInLockfreeTrie (if s.mem.termCount > 0 then s.mem.root else .new) term = findInLockfreeTrie s.mem.root term := by
  split
  · rfl
  · rename_i hzero
    have hcard : {term | (findInLockfreeTrie s.mem.root term).isSome}.ncard = 0 := by
      rw [(ncard_terms hb.store.vocab).2, ← hb.store.count]
      omega
    rw [find_new]
    rw [Set.ncard_eq_zero (ncard_terms hb.store.vocab).1] at hcard
    have hterm : term ∉ {term | (findInLockfreeTrie s.mem.root term).isSome} := by
      rw [hcard]
      exact Set.notMem_empty term
    exact (Option.not_isSome_iff_eq_none.1 hterm).symm

theorem checkpoint (hb : Base s) (hidle : ∀ a, s.calls a = .idle) : Base s.checkpointOverlay := by
  unfold VocabSystem.checkpointOverlay
  split
  · exact hb
  · have hlive : ∀ term id, Recovered { s.disk with header := ⟨if s.mem.termCount > 0 then s.mem.root else .new,
        s.mem.termCount, s.mem.watermark.cur, s.mem.startIndex, s.mem.nextIndex⟩ } term id ↔
        findInLockfreeTrie s.mem.root term = some id := by
      intro term id
      constructor
      · rintro (h | h)
        · rwa [← hb.find_checkpoint_image]
        · obtain ⟨lsn, -, hi, l, t, g, -, hr⟩ := mem_replayed.1 h
          exact hb.store.recovered_live term id (hb.store.rank_recovered l lsn t g term id hr hi)
      · intro h
        exact .inl (by rwa [← hb.find_checkpoint_image] at h)
    have hcur : s.mem.watermark.cur < s.mem.nextLsn := hb.store.covered_lt _ (.inl le_rfl)
    have hstore : Store s.mem { s.disk with header := ⟨if s.mem.termCount > 0 then s.mem.root else .new,
        s.mem.termCount, s.mem.watermark.cur, s.mem.startIndex, s.mem.nextIndex⟩ } :=
      { hb.store with
        image_vocab := by
          split
          · exact hb.store.vocab
          · exact IsVocab.new
        recovered_live := fun t i => (hlive t i).1
        rank_recovered := fun l lsn t g term id hr hi =>
          (hlive term id).2 (hb.store.recovered_live term id (hb.store.rank_recovered l lsn t g term id hr hi))
        checkpoint_lt := hcur }
    have happend := hstore.append (.checkpoint s.mem.watermark.cur) nofun
    have hmark := happend.mark (Nat.lt_succ_self s.mem.nextLsn)
    refine ⟨{ hmark with }, fun term id h => .inl ?_, fun a => ?_⟩
    · exact ((hlive term id).2 h).append rfl fun e => mem_append_left _
    · show PhaseOk _ _ (s.calls a)
      rw [hidle a]
      trivial

theorem recovered_checkpoint (hb : Base s) {term : List U} {id : Nat} (h : Recovered s.disk term id) :
    Recovered s.checkpointOverlay.disk term id := by
  unfold VocabSystem.checkpointOverlay
  split
  · exact h
  · have hlive := hb.store.recovered_live term id h
    rw [← hb.find_checkpoint_image] at hlive
    exact .inl hlive

end Base

end Dictenstein.Vocab
