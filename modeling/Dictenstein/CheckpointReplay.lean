import Dictenstein.CrashReplay
/-! # CheckpointReplay — a crash behind a published checkpoint

The checkpoint reads the watermark `w` and then loads the root. What the watermark covers has been published or burned, so
every commit behind the load has an LSN above `w`. The image therefore holds a prefix of the commits, and recovery replays
over it all commits above `w`: those behind the load, and those of the prefix whose LSN is above `w`.

Replaying the latter a second time does no harm to a key if they are its last ones in the image. If a commit above `w` came
before one at or below `w`, the replay puts the older value on top. `Ordered` excludes that. -/

namespace Dictenstein.Overlay

open Wire Wal Recovery OverlayNode DictionaryValue CounterLeaf PersistentARTrie List Option DurableOp Overlay.System Event

section Capture

variable {V : Type}

def Capture.publishedAt : Capture V → Option Nat
  | .published w _ => some w
  | _ => none

theorem Capture.exists_of_publishedAt {c : Capture V} {w : Nat} (h : c.publishedAt = some w) :
    ∃ revision, c = .published w revision := by
  cases c with
  | published w' revision => exact ⟨revision, by rw [some.inj h]⟩
  | _ => cases h

/-- The call's compare-and-swap, with this data LSN, is still to come. -/
def Phase.Publishable (l : Nat) : Phase V → Prop
  | .appended p | .loaded p _ | .claimed p .. | .counted p .. => p.lsn = l
  | _ => False

theorem Phase.Publishable.held {ph : Phase V} {l : Nat} (h : ph.Publishable l) : l ∈ ph.held := by
  cases ph with
  | appended p | loaded p r | claimed p r g | counted p r g v => exact mem_singleton.2 h.symm
  | _ => cases h

structure Above (w : Nat) (s : System V) : Prop where
  next : w < s.trie.nextLsn
  calls : ∀ u l, (s.calls u).Publishable l → w < l

variable [DictionaryValue V] [CounterLeaf V] {faultIn : FaultIn UInt8 V} {s s' : System V}

theorem Inv.above_watermark (h : Inv faultIn s) : Above s.trie.watermark.cur s where
  next := h.shared.covered _ (.inl le_rfl)
  calls := fun u l hl => by
    by_contra hle
    exact ((h.calls u).owned hl.held).2 (.inl (Nat.not_lt.1 hle))

variable {t t' : PersistentARTrie V} {cs : List Commit}

omit [CounterLeaf V] in
theorem Swapped.publishable {p : Pending V} {revision : RootRevision UInt8 V} {g : Nat} {attempt : Attempt V} {ph' : Phase V}
    (h : Swapped t p revision g attempt t' cs ph') : (∀ l, ph'.Publishable l → l = p.lsn) ∧ ∀ c ∈ cs, c.lsn = p.lsn := by
  cases h with
  | won new n hcurrent => exact ⟨fun l hl => hl.elim, fun c hc => by rw [mem_singleton.1 hc]; rfl⟩
  | lost => exact ⟨fun l hl => hl.symm, nofun⟩
  | refused | failed => exact ⟨fun l hl => hl.elim, nofun⟩

theorem advance_publishable {ph ph' : Phase V} (h : ph.advance faultIn t = some (t', cs, ph')) :
    (∀ l, ph'.Publishable l → ph.Publishable l ∨ l = t.nextLsn) ∧ (∀ c ∈ cs, ph.Publishable c.lsn) ∧
      t.nextLsn ≤ t'.nextLsn := by
  have hno : ∀ c ∈ ([] : List Commit), ph.Publishable c.lsn := nofun
  cases ph with
  | idle | done => cases h
  | started op =>
    cases h
    refine ⟨fun l hl => ?_, hno, le_rfl⟩
    have hmem := hl.held
    rw [(start_ok faultIn t [] op).1] at hmem
    cases hmem
  | insertMissed term =>
    cases h
    refine ⟨fun l hl => ?_, hno, le_rfl⟩
    split at hl <;> cases hl
  | removeMissed term =>
    rw [Phase.advance, some.injEq] at h
    split at h <;> cases h
    · refine ⟨fun l hl => ?_, hno, le_rfl⟩
      split at hl <;> cases hl
    · exact ⟨fun l hl => hl.elim, hno, le_rfl⟩
  | observed op =>
    cases h
    exact ⟨fun l hl => hl.elim, hno, (slot_touchRefused t op).2.2.1.ge⟩
  | ready op reply =>
    cases h
    exact ⟨fun l hl => .inr hl.symm, hno, Nat.le_succ _⟩
  | appended p =>
    cases h
    exact ⟨fun l hl => .inl hl, hno, le_rfl⟩
  | loaded p revision =>
    rw [Phase.advance, some.injEq] at h
    split at h <;> cases h
    · exact ⟨fun l hl => hl.elim, hno, le_rfl⟩
    · exact ⟨fun l hl => .inl hl, hno, le_rfl⟩
  | claimed p revision generation =>
    rw [Phase.advance, some.injEq] at h
    split at h
    · obtain ⟨hph, hcs⟩ := (swapped h).publishable
      exact ⟨fun l hl => .inl (hph l hl).symm, fun c hc => (hcs c hc).symm, (swapped h).frame.2.1.ge⟩
    · cases h
      refine ⟨fun l hl => .inl ?_, hno, le_rfl⟩
      split at hl
      · cases hl
      · exact hl
  | counted p revision generation v =>
    rw [Phase.advance, some.injEq] at h
    obtain ⟨hph, hcs⟩ := (swapped h).publishable
    exact ⟨fun l hl => .inl (hph l hl).symm, fun c hc => (hcs c hc).symm, (swapped h).frame.2.1.ge⟩
  | published p generation =>
    cases h
    exact ⟨fun l hl => hl.elim, hno, (slot_touch t p.op).2.2.1.ge⟩
  | touched p generation =>
    cases h
    exact ⟨fun l hl => hl.elim, hno, Nat.le_succ _⟩
  | refused p =>
    cases h
    exact ⟨fun l hl => hl.elim, hno, (slot_touchRefused t p.op).2.2.1.ge⟩
  | ranked | marked | burning =>
    cases h
    exact ⟨fun l hl => hl.elim, hno, le_rfl⟩

/-- **Behind the watermark read, only commits above the watermark are made.** -/
theorem Above.step {w : Nat} (h : Above w s) {e : Event V} (hstep : s.step? faultIn e = some s') :
    Above w s' ∧ ∃ cs, s'.commits = s.commits ++ cs ∧ ∀ c ∈ cs, w < c.lsn := by
  have hnone : ∃ cs, s.commits = s.commits ++ cs ∧ ∀ c ∈ cs, w < c.lsn :=
    ⟨[], (append_nil _).symm, nofun⟩
  have hcalls : ∀ (u : Nat) (ph : Phase V), (∀ l, ph.Publishable l → w < l) →
      ∀ v l, (Function.update s.calls u ph v).Publishable l → w < l := fun u ph hph =>
    (Function.forall_update_iff s.calls fun _ (ph : Phase V) => ∀ l, ph.Publishable l → w < l).2 ⟨hph, fun v _ => h.calls v⟩
  cases stepped hstep with
  | call u op hidle =>
    refine ⟨⟨h.next, hcalls u _ (fun l hl => ?_)⟩, hnone⟩
    unfold enter at hl
    split at hl <;> cases hl
  | step u t' cs ph' hadv =>
    obtain ⟨hph, hcs, hnext⟩ := advance_publishable hadv
    refine ⟨⟨h.next.trans_le hnext, hcalls u ph' (fun l hl => ?_)⟩, cs, rfl, fun c hc => h.calls u _ (hcs c hc)⟩
    rcases hph l hl with hold | rfl
    · exact h.calls u l hold
    · exact h.next
  | ret u op reply hdone =>
    exact ⟨⟨h.next, hcalls u .idle (fun l hl => hl.elim)⟩, hnone⟩
  | capture e c he => exact ⟨⟨h.next, h.calls⟩, hnone⟩

end Capture

/-! ## The image -/

section Image

variable {V : Type} [DictionaryValue V] [CounterLeaf V] {faultIn : FaultIn UInt8 V} {s s' : System V}

structure Image (faultIn : FaultIn UInt8 V) (revision : RootRevision UInt8 V) (pre : List Commit) : Prop where
  wellFormed : WellFormed faultIn revision.node
  resident : Everywhere faultIn Resident revision.node
  entry : ∀ key, key ≠ [] → entryAt faultIn revision.node key = committedMap pre key

/-- The commits are those of the image, which have the property `Q`, and later ones above the watermark. -/
structure Split (faultIn : FaultIn UInt8 V) (Q : Nat → List Commit → Prop) (w : Nat) (revision : RootRevision UInt8 V)
    (commits : List Commit) : Prop where
  split : ∃ pre rest, commits = pre ++ rest ∧ Image faultIn revision pre ∧ Q w pre ∧ ∀ c ∈ rest, w < c.lsn

def Captured (faultIn : FaultIn UInt8 V) (Q : Nat → List Commit → Prop) (s : System V) : Prop :=
  match s.capture with
  | .idle => True
  | .watermarkRead w => Above w s
  | .rootLoaded w revision | .published w revision => Above w s ∧ Split faultIn Q w revision s.commits

/-- The commits published when the checkpoint loads the root have the property `Q` of its watermark. -/
def LoadsWhen (Q : Nat → List Commit → Prop) (s : System V) : Event V → Prop
  | .loadRoot => match s.capture with
    | .watermarkRead w => Q w s.commits
    | _ => True
  | _ => True

instance (Q : Nat → List Commit → Prop) [∀ w commits, Decidable (Q w commits)] (s : System V) (e : Event V) :
    Decidable (LoadsWhen Q s e) := by
  unfold LoadsWhen
  split
  · split <;> infer_instance
  · infer_instance

variable {Q : Nat → List Commit → Prop} {w : Nat} {revision : RootRevision UInt8 V} {e : Event V}

theorem Split.append {commits cs : List Commit} (h : Split faultIn Q w revision commits) (hcs : ∀ c ∈ cs, w < c.lsn) :
    Split faultIn Q w revision (commits ++ cs) := by
  obtain ⟨pre, rest, rfl, himage, hq, hrest⟩ := h
  refine ⟨pre, rest ++ cs, append_assoc .., himage, hq, fun c hc => ?_⟩
  rcases mem_append.1 hc with hold | hnew
  · exact hrest c hold
  · exact hcs c hnew

theorem Captured.keep (h : Captured faultIn Q s) (hcapture : s'.capture = s.capture) (hstep : s.step? faultIn e = some s') :
    Captured faultIn Q s' := by
  unfold Captured at h ⊢
  rw [hcapture]
  cases hc : s.capture with rw [hc] at h
  | idle => trivial
  | watermarkRead w =>
    exact (Above.step h hstep).1
  | rootLoaded w revision | published w revision =>
    obtain ⟨habove, cs, hcommits, hcs⟩ := h.1.step hstep
    exact ⟨habove, hcommits ▸ h.2.append hcs⟩

theorem Captured.step (h : Captured faultIn Q s) (hinv : Inv faultIn s) (he : LoadsWhen Q s e)
    (hstep : s.step? faultIn e = some s') : Captured faultIn Q s' := by
  cases e with
  | call u op =>
    obtain ⟨-, rfl⟩ := step?_call.1 hstep
    exact h.keep rfl hstep
  | step u =>
    obtain ⟨t', cs, ph', -, rfl⟩ := step?_step.1 hstep
    exact h.keep rfl hstep
  | ret u =>
    obtain ⟨op, reply, -, rfl⟩ := step?_ret.1 hstep
    exact h.keep rfl hstep
  | readWatermark =>
    obtain ⟨-, rfl⟩ := step?_readWatermark.1 hstep
    exact ⟨hinv.above_watermark.next, hinv.above_watermark.calls⟩
  | loadRoot =>
    obtain ⟨w, hc, rfl⟩ := step?_loadRoot.1 hstep
    unfold Captured at h
    rw [LoadsWhen] at he
    rw [hc] at h he
    have habove : Above w s := h
    exact ⟨⟨habove.next, habove.calls⟩, s.commits, [], (append_nil _).symm,
      ⟨hinv.shared.wellFormed, hinv.shared.resident, hinv.shared.entry⟩, he, nofun⟩
  | publishImage =>
    obtain ⟨w, revision, hc, rfl⟩ := step?_publishImage.1 hstep
    unfold Captured at h
    rw [hc] at h
    exact ⟨⟨h.1.next, h.1.calls⟩, h.2⟩

theorem captured_of_run {es : List (Event V)} (hrun : Runs.run (step? faultIn) es create = some s)
    (hok : Runs.Along (step? faultIn) (LoadsWhen Q) es create) : Captured faultIn Q s :=
  (Runs.invariant (C := LoadsWhen Q) (I := fun s => Inv faultIn s ∧ Captured faultIn Q s)
    (fun _ _ _ hstep he hi => ⟨hi.1.step hstep, hi.2.step hi.1 he hstep⟩) es create s hrun hok
    ⟨inv_create, trivial⟩).2

/-- **Recovery replays over the image** the ranked commits above the watermark. -/
theorem entryAt_recover (hinv : Inv faultIn s) (hcapture : s.capture = .published w revision) {pre : List Commit}
    (himage : Image faultIn revision pre) {key : Bytes} (hkey : key ≠ []) :
    entryAt faultIn (s.recover faultIn).slot.node key =
      keyFold key (s.commits.filter fun c => isRanked s.trie.log c.lsn && decide (w < c.lsn)) (committedMap pre key) := by
  have hreopened : Reopened faultIn (⟨⟨revision.node, revision.termCount, 0⟩, ∅⟩ : LiveOverlay V) :=
    ⟨himage.wellFormed, himage.resident, nofun⟩
  have hkept : ∀ c ∈ s.commits, (isRanked s.trie.log c.lsn && !covered true w c.lsn) =
      (isRanked s.trie.log c.lsn && decide (w < c.lsn)) := by
    intro c hc
    have hpos := (hinv.shared.lsn_lt hc).1
    simp only [covered]
    grind
  rw [recover, hcapture]
  simp only
  rw [entryAt_drain hreopened, reconcile_of_logged hinv.shared.logged, foldl_commits_apply, ← himage.entry key hkey,
    filter_congr hkept]

/-- **Recovery from the image** gives a key its live entry if replaying the image's own commits above the watermark over
the image does not change it. -/
theorem recover_of_split (hinv : Inv faultIn s) (hcapture : s.capture = .published w revision)
    (hsplit : Split faultIn Q w revision s.commits) {key : Bytes} (hkey : key ≠ []) (hq : Quiescent s key)
    (hsame : ∀ pre rest, s.commits = pre ++ rest → Q w pre →
      (keyFold key (pre.filter fun c => decide (w < c.lsn)) (keyFold key pre none) : Option (Option V)) =
        keyFold key pre none) :
    entryAt faultIn (s.recover faultIn).slot.node key = entryAt faultIn s.trie.root key := by
  obtain ⟨pre, rest, hcommits, himage, hqpre, hrest⟩ := hsplit
  have hkept : ∀ c ∈ s.commits, c.op.term = key →
    (isRanked s.trie.log c.lsn && decide (w < c.lsn)) = decide (w < c.lsn) := by
    intro c hc hterm
    rw [hinv.ranked_of_quiescent hq hc hterm, Bool.true_and]
  have hrestall : rest.filter (fun c => decide (w < c.lsn)) = rest :=
    filter_eq_self.2 (fun c hc => decide_eq_true (hrest c hc))
  rw [entryAt_recover hinv hcapture himage hkey, hinv.shared.entry key hkey, committedMap_apply, committedMap_apply,
    keyFold_filter_congr hkept, hcommits, filter_append, hrestall, keyFold_append, keyFold_append,
    hsame pre rest hcommits hqpre]

end Image

/-! ## Overwrites -/

section Overwrites

variable {V : Type} [DictionaryValue V] [CounterLeaf V] {faultIn : FaultIn UInt8 V} {s : System V}

def Ordered (w : Nat) (commits : List Commit) : Prop :=
  commits.Pairwise fun b a => b.op.term = a.op.term → w < b.lsn → w < a.lsn

instance (w : Nat) (commits : List Commit) : Decidable (Ordered w commits) :=
  inferInstanceAs (Decidable (commits.Pairwise fun b a => b.op.term = a.op.term → w < b.lsn → w < a.lsn))

variable {w : Nat} {as bs rest : List Commit} {key : Bytes}

theorem Ordered.not_before {c : Commit} (h : Ordered w (as ++ c :: bs)) (hc : c.op.term = key) (hle : ¬ w < c.lsn) :
    ∀ d ∈ as.filter fun c => decide (w < c.lsn), d.op.term ≠ key := by
  intro d hd hterm
  obtain ⟨hd, hlt⟩ := mem_filter.1 hd
  have hpair := (pairwise_append.1 h).2.2 d hd c mem_cons_self
  exact hle (hpair (hterm.trans hc.symm) (of_decide_eq_true hlt))

theorem Ordered.left (h : Ordered w (as ++ bs)) : Ordered w as :=
  (pairwise_append.1 h).1

theorem keyFold_above_absent (hops : Ops Overwrites s) (hcommits : s.commits = as ++ rest) (hord : Ordered w as)
    (hnone : (keyFold key as none : Option (Option V)) = none) :
    (keyFold key (as.filter fun c => decide (w < c.lsn)) (some none) : Option (Option V)) = some none ∨
      (keyFold key (as.filter fun c => decide (w < c.lsn)) (some none) : Option (Option V)) = none := by
  rcases exists_last_commit key as with habsent | ⟨as', d, bs, rfl, hd, hbs⟩
  · exact .inl (keyFold_of_ne (fun c hc => habsent c (mem_filter.1 hc).1) _)
  by_cases hlt : w < d.lsn
  · right
    obtain ⟨op, hover, hdop⟩ := hops.commits d (by rw [hcommits]; simp)
    rw [keyFold_last hd hbs, hdop] at hnone
    have hremove : op = .remove op.term := eq_remove_of_replayEntry hover.1 hnone
    rw [keyFold_filter_last hd hbs (decide_eq_true hlt), hdop, hremove]
    rfl
  · left
    rw [keyFold_filter_dropped hbs (by simpa using hlt)]
    exact keyFold_of_ne (hord.not_before hd hlt) _

/-- **Replaying a second time the last commits of a key changes nothing.** -/
theorem keyFold_twice (hinv : Inv faultIn s) (hops : Ops Overwrites s) {pre : List Commit}
    (hcommits : s.commits = pre ++ rest) (hord : Ordered w pre) (hkey : key ≠ []) :
    (keyFold key (pre.filter fun c => decide (w < c.lsn)) (keyFold key pre none) : Option (Option V)) =
      keyFold key pre none := by
  rcases exists_last_commit key pre with habsent | ⟨as, c, bs, rfl, hc, hbs⟩
  · exact keyFold_of_ne (fun c hc => habsent c (mem_filter.1 hc).1) _
  by_cases hlt : w < c.lsn
  · rw [keyFold_filter_last hc hbs (decide_eq_true hlt)]
    obtain ⟨op, hover, hcop⟩ := hops.commits c (by rw [hcommits]; simp)
    by_cases hins : op = .insert key
    · have hinsert : c.op = .insert c.lsn key none := by rw [hcop, hins]; rfl
      have hcommits' : s.commits = as ++ c :: (bs ++ rest) := by rw [hcommits]; simp
      have hnone : (keyFold key as none : Option (Option V)) = none := by
        rw [← committedMap_apply]
        exact hinv.shared.fresh as c (bs ++ rest) key hcommits' hinsert hkey
      have hmember : (keyFold key (as ++ c :: bs) none : Option (Option V)) = some none := by
        rw [keyFold_last hc hbs, hnone, hinsert]
        rfl
      rw [hmember, hinsert]
      rcases keyFold_above_absent hops hcommits' hord.left hnone with hx | hx <;> rw [hx] <;> rfl
    · rw [keyFold_last hc hbs, hcop]
      have hterm : op.term = key := by rw [← hc, hcop, term_recovered]
      exact replayEntry_overwrites hover.1 (fun term heq => hins (by rw [← hterm, heq]; rfl)) _ _ _
  · rw [keyFold_filter_dropped hbs (by simpa using hlt)]
    exact keyFold_of_ne (hord.not_before hc hlt) _

/-- **A crash behind a published checkpoint, among concurrent overwrites of non-empty keys.** If the commits above the
watermark come last on each key when the root is loaded, then recovery gives every key whose calls have all returned the
entry its last compare-and-swap left. -/
theorem checkpoint_replay (faultIn : FaultIn UInt8 V) (es : List (Event V)) (s : System V)
    (hrun : Runs.run (step? faultIn) es create = some s) (hcalls : ∀ e ∈ es, e.Calls Overwrites)
    (hok : Runs.Along (step? faultIn) (LoadsWhen Ordered) es create) (w : Nat)
    (revision : RootRevision UInt8 V) (hcapture : s.capture = .published w revision) (key : Bytes) (hkey : key ≠ [])
    (hq : Quiescent s key) :
    entryAt faultIn (s.recover faultIn).slot.node key = entryAt faultIn s.trie.root key := by
  have hinv : Inv faultIn s := inv_create.run hrun
  have hops : Ops Overwrites s := (ops_create Overwrites).run hcalls hrun
  have hcaptured := captured_of_run hrun hok
  unfold Captured at hcaptured
  rw [hcapture] at hcaptured
  exact recover_of_split hinv hcapture hcaptured.2 hkey hq
    (fun pre rest hcommits hord => keyFold_twice hinv hops hcommits hord hkey)

end Overwrites

/-- Thread 0 appends at LSN 1 and thread 1 at LSN 2, thread 1 swaps first and thread 0 overwrites it and returns; the
checkpoint takes watermark 1 and the root of thread 0; thread 1 returns. -/
def laterLsnFirst : List (Event UInt64) :=
  [call 0 (.upsert [1] 1), .call 1 (.upsert [1] 2)] ++ List.replicate 2 (step 0) ++
    List.replicate 5 (step 1) ++ List.replicate 7 (step 0) ++
    [ret 0, .readWatermark, .loadRoot, .publishImage] ++ List.replicate 4 (step 1) ++ [ret 1]

theorem checkpoint_replays_loser : (∀ e ∈ laterLsnFirst, e.Calls Overwrites) ∧
      ∃ s : System UInt64, Runs.run (step? noLoader) laterLsnFirst create = some s ∧
        (∃ revision, s.capture = .published 1 revision) ∧ (∀ u, s.calls u = .idle) ∧
        entryAt noLoader s.trie.root [1] = some (some 1) ∧
        entryAt noLoader (s.recover noLoader).slot.node [1] = some (some 2) := by
  refine ⟨by simp [laterLsnFirst, Event.Calls, Overwrites, isIncrement, term], ?_⟩
  obtain ⟨s, hrun, hs⟩ := Runs.exists_run (step? noLoader) laterLsnFirst create
    (fun s => decide (s.capture.publishedAt = some 1 ∧ s.idleBelow 2 = true ∧
      entryAt noLoader s.trie.root [1] = some (some 1) ∧
      entryAt noLoader (s.recover noLoader).slot.node [1] = some (some 2)))
    (by decide +kernel)
  obtain ⟨hcapture, hidle, hlive, hrecovered⟩ := of_decide_eq_true hs
  exact ⟨s, hrun, Capture.exists_of_publishedAt hcapture,
    idle_of_run (n := 2) hrun (by simp [laterLsnFirst, within]) hidle, hlive, hrecovered⟩

def upsertAcrossCheckpoint : List (Event UInt64) :=
  [call 0 (.upsert [1] 1)] ++ List.replicate 9 (step 0) ++
    [ret 0, .readWatermark, .loadRoot, .publishImage, .call 0 (.upsert [1] 2)] ++
    List.replicate 9 (step 0) ++ [ret 0]

theorem checkpoint_replay_two : ∃ s : System UInt64, Runs.run (step? noLoader) upsertAcrossCheckpoint create = some s ∧
      (∃ revision, s.capture = .published 2 revision) ∧ Quiescent s [1] ∧
      entryAt noLoader (s.recover noLoader).slot.node [1] = entryAt noLoader s.trie.root [1] := by
  obtain ⟨s, hrun, hs⟩ := Runs.exists_run (step? noLoader) upsertAcrossCheckpoint create
    (fun s => decide (s.capture.publishedAt = some 2 ∧ s.idleBelow 1 = true)) (by decide +kernel)
  obtain ⟨hcapture, hidle⟩ := of_decide_eq_true hs
  obtain ⟨revision, hcapture⟩ := Capture.exists_of_publishedAt hcapture
  have hq : Quiescent s [1] := quiescent_of_idle
    (idle_of_run (n := 1) hrun (by simp [upsertAcrossCheckpoint, within]) hidle) [1]
  have hok : Runs.Along (step? noLoader) (LoadsWhen Ordered) upsertAcrossCheckpoint create := by
    decide +kernel
  exact ⟨s, hrun, ⟨revision, hcapture⟩, hq, checkpoint_replay noLoader upsertAcrossCheckpoint s hrun
    (by simp [upsertAcrossCheckpoint, Event.Calls, Overwrites, isIncrement, term]) hok 2 revision
    hcapture [1] (by simp) hq⟩

/-- **A checkpoint loses no commit**, in every run of the durable operations: its image holds the first commits, those
behind it have LSNs above its watermark, and recovery replays over the image the ranked commits above the watermark. -/
theorem checkpoint_keeps_commits {V : Type} [DictionaryValue V] [CounterLeaf V] (faultIn : FaultIn UInt8 V)
    (es : List (Event V)) (s : System V) (hrun : Runs.run (step? faultIn) es create = some s) (w : Nat)
    (revision : RootRevision UInt8 V) (hcapture : s.capture = .published w revision) :
    ∃ pre rest, s.commits = pre ++ rest ∧ (∀ c ∈ rest, w < c.lsn) ∧ ∀ key, key ≠ [] →
      entryAt faultIn revision.node key = committedMap pre key ∧
      entryAt faultIn (s.recover faultIn).slot.node key =
        keyFold key (s.commits.filter fun c => isRanked s.trie.log c.lsn && decide (w < c.lsn)) (committedMap pre key) := by
  have hcaptured : Captured faultIn (fun _ _ => True) s :=
    captured_of_run hrun
      (Runs.along_of_forall es _ fun e _ m => by cases e <;> cases hm : m.capture <;> simp [LoadsWhen, hm])
  rw [Captured, hcapture] at hcaptured
  obtain ⟨pre, rest, hcommits, himage, -, hrest⟩ := hcaptured.2
  exact ⟨pre, rest, hcommits, hrest, fun key hkey => ⟨himage.entry key hkey,
    entryAt_recover (inv_create.run hrun) hcapture himage hkey⟩⟩

theorem checkpoint_keeps_two : ∃ (s : System UInt64) (w : Nat) (revision : RootRevision UInt8 UInt64),
    Runs.run (step? noLoader) upsertAcrossCheckpoint create = some s ∧ s.capture = .published w revision ∧
      ∃ pre rest, s.commits = pre ++ rest ∧ ∀ c ∈ rest, w < c.lsn := by
  obtain ⟨s, hrun, hs⟩ := Runs.exists_run (step? noLoader) upsertAcrossCheckpoint create
    (fun s => decide (s.capture.publishedAt = some 2)) (by decide +kernel)
  obtain ⟨revision, hcapture⟩ := Capture.exists_of_publishedAt (of_decide_eq_true hs)
  obtain ⟨pre, rest, hcommits, hrest, -⟩ := checkpoint_keeps_commits noLoader _ s hrun 2 revision hcapture
  exact ⟨s, 2, revision, hrun, hcapture, pre, rest, hcommits, hrest⟩

end Dictenstein.Overlay
