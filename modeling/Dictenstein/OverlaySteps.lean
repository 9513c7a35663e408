import Dictenstein.OverlayInvariant
/-! # OverlaySteps — every step of a run keeps the invariant

A step of a call leaves slot, log, LSN counter and watermark alone, marks an LSN the call holds, appends a record, or
commits. Each kind has one lemma (`Inv.quiet`, `Inv.mark`, `Inv.append`, `Inv.commit`), and `Inv.advance` sorts the phases
into the kinds. -/

namespace Dictenstein.Overlay

open Wire Wal Recovery OverlayNode DictionaryValue CounterLeaf PersistentARTrie Function List Option Runs DurableOp
  Overlay.System Phase

/-! ## The compare-and-swap -/

section Swap

variable {V : Type} [DictionaryValue V]

def Phase.op? : Phase V → Option (DurableOp V)
  | .idle => none
  | .started op | .observed op | .ready op _ | .done op _ => some op
  | .insertMissed term => some (.insert term)
  | .removeMissed term => some (.remove term)
  | .appended p | .loaded p _ | .claimed p .. | .counted p .. | .published p _ | .touched p _ | .ranked p _
  | .marked p _ | .refused p | .burning p => some p.op

inductive Swapped (t : PersistentARTrie V) (p : Pending V) (revision : RootRevision UInt8 V) (generation : Nat) :
    Attempt V → PersistentARTrie V → List Commit → Phase V → Prop
  | won (new : OverlayNode UInt8 V) (delta : Int) (hcurrent : revision.revision = t.overlay.slot.revision) :
    Swapped t p revision generation (.publish new delta) (t.publish new delta) [p.commit generation]
      (.published p generation)
  | lost {new : OverlayNode UInt8 V} {delta : Int} :
    Swapped t p revision generation (.publish new delta) t [] (.appended p)
  | refused {claimed : Bool} : Swapped t p revision generation (.refuse claimed) t [] (.refused p)
  | failed {e : PersistentARTrieError} : Swapped t p revision generation (.fail e) t [] (.done p.op (.error e))

variable {t t' : PersistentARTrie V} {p : Pending V} {revision : RootRevision UInt8 V} {generation : Nat}
    {attempt : Attempt V}
  {cs : List Commit} {ph' : Phase V}

theorem swapped (h : casRoot t p revision generation attempt = (t', cs, ph')) :
    Swapped t p revision generation attempt t' cs ph' := by
  cases attempt with
  | publish new delta =>
    rw [casRoot] at h
    split at h <;> cases h
    · exact .won new delta (Eq.symm ‹_›)
    · exact .lost
  | refuse claimed => cases h; exact .refused
  | fail e => cases h; exact .failed

theorem Swapped.frame (h : Swapped t p revision generation attempt t' cs ph') :
    t'.log = t.log ∧ t'.nextLsn = t.nextLsn ∧ t'.overlay.cache = t.overlay.cache ∧ ph'.op? = some p.op ∧
      (cs = [] ∨ cs = [p.commit generation] ∧ ph' = .published p generation ∧
        revision.revision = t.overlay.slot.revision) := by
  cases h with
  | won new n hcurrent => exact ⟨rfl, rfl, rfl, rfl, .inr ⟨rfl, rfl, hcurrent⟩⟩
  | lost | refused | failed => exact ⟨rfl, rfl, rfl, rfl, .inl rfl⟩

end Swap

/-! ## Every step keeps it -/

section Steps

variable {V : Type} [DictionaryValue V] [CounterLeaf V]

structure Inv (faultIn : FaultIn UInt8 V) (s : System V) : Prop where
  shared : Shared faultIn s.trie s.commits
  calls : ∀ u, (s.calls u).Ok faultIn s.trie s.commits
  disjoint : ∀ u v l, l ∈ (s.calls u).held → l ∈ (s.calls v).held → u = v
  unranked : ∀ c ∈ s.commits, isRanked s.trie.log c.lsn = false → ∃ u, (s.calls u).Awaits c

variable {faultIn : FaultIn UInt8 V} {s : System V} {u : Nat} {t' : PersistentARTrie V} {cs : List Commit} {ph' : Phase V}

def System.after (s : System V) (u : Nat) (t' : PersistentARTrie V) (cs : List Commit) (ph' : Phase V) : System V :=
  { s with trie := t', commits := s.commits ++ cs, calls := update s.calls u ph' }

section
variable (h : Inv faultIn s)
include h

/-- **A step keeps the invariant** if it keeps the shared part, spends LSNs its call holds, takes new ones only, and leaves
no commit unranked but the one it awaits. -/
theorem Inv.move (spent : List Nat) {commits : List Commit} (hcs : s.commits ++ cs = commits)
    (hshared : Shared faultIn t' commits)
    (hgrows : Grows s.trie s.commits t' commits spent) (hspent : ∀ l ∈ spent, l ∈ (s.calls u).held)
    (hheld : ∀ l ∈ ph'.held, l ∈ (s.calls u).held ∨ s.trie.nextLsn ≤ l) (hok : ph'.Ok faultIn t' commits)
    (hranked : ∀ c ∈ commits, isRanked t'.log c.lsn = false →
      ph'.Awaits c ∨ c ∈ s.commits ∧ isRanked s.trie.log c.lsn = false ∧ ¬ (s.calls u).Awaits c) :
    Inv faultIn (s.after u t' cs ph') := by
  subst hcs
  -- an LSN the moving call holds now is not held by another one
  have hother : ∀ v, v ≠ u → ∀ l ∈ ph'.held, l ∉ (s.calls v).held := by
    intro v hv l hl hlv
    obtain hold | hnew := hheld l hl
    · exact hv (h.disjoint v u l hlv hold)
    · exact Nat.not_lt.2 hnew ((h.calls v).owned hlv).1
  refine ⟨hshared, fun v => ?_, fun v w l hv hw => ?_, fun c hc hc' => ?_⟩
  · show (update s.calls u ph' v).Ok faultIn t' (s.commits ++ cs)
    by_cases hv : v = u
    · subst hv
      rwa [update_self]
    · grind [hgrows.ok, h.calls, h.disjoint]
  · simp only [System.after, update_apply] at hv hw
    split at hv <;> split at hw
    · rename_i hvu hwu
      rw [hvu, hwu]
    · rename_i hvu hwu
      exact absurd hw (hother w hwu l hv)
    · rename_i hvu hwu
      exact absurd hv (hother v hvu l hw)
    · exact h.disjoint v w l hv hw
  · obtain hawaits | ⟨hold, hunranked, hnot⟩ := hranked c hc hc'
    · exact ⟨u, by simpa only [System.after, update_self] using hawaits⟩
    · obtain ⟨v, hv⟩ := h.unranked c hold hunranked
      have hne : v ≠ u := fun heq => hnot (heq ▸ hv)
      exact ⟨v, by simpa only [System.after, update_of_ne hne] using hv⟩

theorem Inv.quiet {ph : Phase V} (hph : s.calls u = ph) (hslot : t'.overlay.slot = s.trie.overlay.slot)
    (hlog : t'.log = s.trie.log) (hlsn : t'.nextLsn = s.trie.nextLsn) (hmark : t'.watermark = s.trie.watermark)
    (hseq : s.trie.commitSeq ≤ t'.commitSeq) (hheld : ∀ l ∈ ph'.held, l ∈ ph.held)
    (hawaits : ∀ c, ph.Awaits c → ph'.Awaits c)
    (hok : Grows s.trie s.commits t' s.commits [] → ph'.Ok faultIn t' s.commits) :
    Inv faultIn (s.after u t' [] ph') := by
  subst hph
  have hgrows : Grows s.trie s.commits t' s.commits [] :=
    ⟨hslot ▸ le_rfl, fun _ => ⟨hslot, rfl⟩, fun c hc => hc, fun c hc => .inl hc, fun e he => hlog ▸ he,
      hlsn ▸ le_rfl, fun l hl => .inl (hmark ▸ hl), hseq⟩
  refine h.move [] (append_nil _) (h.shared.congr hslot hlog hlsn hmark hseq) hgrows nofun (fun l hl => .inl (hheld l hl))
    (hok hgrows) ?_
  grind

theorem Inv.mark {lsn : Nat} {ph : Phase V} (hph : s.calls u = ph) (hmem : lsn ∈ ph.held)
    (hheld : ∀ l ∈ ph'.held, l ∈ ph.held) (hawaits : ∀ c, ¬ ph.Awaits c)
    (hok : Grows s.trie s.commits (s.trie.mark lsn) s.commits [lsn] → ph'.Ok faultIn (s.trie.mark lsn) s.commits) :
    Inv faultIn (s.after u (s.trie.mark lsn) [] ph') := by
  subst hph
  have hgrows : Grows s.trie s.commits (s.trie.mark lsn) s.commits [lsn] :=
    ⟨le_rfl, fun _ => ⟨rfl, rfl⟩, fun c hc => hc, fun c hc => .inl hc, fun e he => he, le_rfl,
      fun l hl => ((covered_markCommitted lsn _ l).1 hl).elim (fun heq => .inr (heq ▸ (.head _))) .inl,
      le_rfl⟩
  exact h.move [lsn] (append_nil _) (h.shared.mark ((h.calls u).owned hmem).1) hgrows (fun l hl => mem_singleton.1 hl ▸ hmem)
    (fun l hl => .inl (hheld l hl)) (hok hgrows) (fun c hc hunranked => .inr ⟨hc, hunranked, hawaits c⟩)

theorem Inv.append {record : WalRecord Nat} {ph : Phase V} (hph : s.calls u = ph)
    (hlogged : Logged (s.trie.log ++ [(s.trie.nextLsn, record)]) s.commits)
    (hheld : ∀ l ∈ ph'.held, l ∈ ph.held ∨ s.trie.nextLsn ≤ l)
    (hok : Grows s.trie s.commits (s.trie.append record) s.commits [] → ph'.Ok faultIn (s.trie.append record) s.commits)
    (hranked : ∀ c ∈ s.commits, isRanked (s.trie.append record).log c.lsn = false →
      isRanked s.trie.log c.lsn = false ∧ ¬ ph.Awaits c) :
    Inv faultIn (s.after u (s.trie.append record) [] ph') := by
  subst hph
  have hgrows : Grows s.trie s.commits (s.trie.append record) s.commits [] :=
    ⟨le_rfl, fun _ => ⟨rfl, rfl⟩, fun c hc => hc, fun c hc => .inl hc, fun e he => mem_append_left _ he,
      Nat.le_succ _, fun l hl => .inl hl, le_rfl⟩
  exact h.move [] (append_nil _) (h.shared.append hlogged) hgrows nofun hheld (hok hgrows)
    (fun c hc hunranked => .inr ⟨hc, hranked c hc hunranked⟩)

end

variable {p : Pending V} {generation : Nat} {revision : RootRevision UInt8 V} {op : DurableOp V} {reply : Reply V}

theorem Inv.commit (h : Inv faultIn s) {new : OverlayNode UInt8 V} (delta : Int) (hp : p.Unpublished s.trie s.commits)
    (hheld : (s.calls u).held = [p.lsn]) (hawaits : ∀ c, ¬ (s.calls u).Awaits c)
    (hgen : ∀ c ∈ s.commits, c.generation < generation) (hseq : generation ≤ s.trie.commitSeq)
    (hpub : Publishes faultIn s.trie.root new p.op) :
    Inv faultIn (s.after u (s.trie.publish new delta) [p.commit generation] (.published p generation)) := by
  refine h.move [p.lsn] rfl (h.shared.commit delta hp.record hp.new hgen hseq hpub) ?_
    (fun l hl => hheld ▸ hl) (fun l hl => .inl (hheld ▸ hl))
    ⟨mem_append_right _ (mem_singleton.2 rfl), hp.owned⟩ (fun c hc hunranked => ?_)
  · refine ⟨Nat.le_succ _, fun heq => absurd heq (Nat.ne_of_lt (Nat.lt_succ_self _)),
      fun c hc => mem_append_left _ hc, fun c hc => ?_, fun e he => he, le_rfl, fun l hl => .inl hl,
      le_rfl⟩
    obtain hc | hc := mem_append.1 hc
    · exact .inl hc
    · exact .inr (by rw [mem_singleton.1 hc]; exact .head _)
  · obtain hc | hc := mem_append.1 hc
    · exact .inr ⟨hc, hunranked, hawaits c⟩
    · exact .inl (mem_singleton.1 hc)

theorem Inv.casRoot (h : Inv faultIn s) {p' : Pending V} {attempt : Attempt V} {ph : Phase V} (hph : s.calls u = ph)
    (hp : p.Unpublished s.trie s.commits)
    (hop : p'.op = p.op) (hlsn : p'.lsn = p.lsn) (hs : Snapshot faultIn s.trie revision)
    (hc : Claimed s.trie s.commits revision generation) (hheld : ph.held = [p.lsn])
    (hawaits : ∀ c, ¬ ph.Awaits c)
    (hpub : ∀ new delta, attempt = .publish new delta → revision.revision = s.trie.overlay.slot.revision →
      Publishes faultIn revision.node new p.op)
    (hstep : casRoot s.trie p' revision generation attempt = (t', cs, ph')) : Inv faultIn (s.after u t' cs ph') := by
  subst hph
  have hp' : p'.Unpublished s.trie s.commits := ⟨by rw [hop, hlsn]; exact hp.record, hlsn ▸ hp.new, hlsn ▸ hp.owned,
    hop ▸ hp.bounded⟩
  have hstay : ∀ ph : Phase V, ph.held ⊆ [p.lsn] → ph.Ok faultIn s.trie s.commits → Inv faultIn (s.after u s.trie [] ph) :=
    fun ph hsub hok => h.quiet rfl rfl rfl rfl rfl le_rfl (fun l hl => hheld ▸ hsub hl)
      (fun c hold => absurd hold (hawaits c)) (fun _ => hok)
  have hsub : [p'.lsn] ⊆ [p.lsn] := by rw [hlsn]; exact List.Subset.refl _
  cases swapped hstep with
  | won new n hcurrent =>
    apply h.commit _ hp' (by rw [hheld, hlsn]) hawaits (hc.above hcurrent) hc.le
    have hroot : s.trie.root = revision.node := by rw [hs.current hcurrent]; rfl
    rw [hroot, hop]
    exact hpub _ _ rfl hcurrent
  | lost | refused => exact hstay _ hsub hp'
  | failed => exact hstay _ (nil_subset _) trivial

theorem Inv.faultingRead (h : Inv faultIn s) (key : Bytes) :
    ∃ found, findLeafFaulting faultIn s.trie.overlay.slot key defaultMaxFaultinRetries =
      (.ok found, s.trie.overlay.slot) ∧ found.map OverlayNode.value = entryAt faultIn s.trie.root key :=
  findLeafFaulting_of_resident h.shared.resident key _

section
omit [DictionaryValue V] [CounterLeaf V]

theorem slot_touch (t : PersistentARTrie V) (op : DurableOp V) :
    (op.touch t).overlay.slot = t.overlay.slot ∧ (op.touch t).log = t.log ∧ (op.touch t).nextLsn = t.nextLsn ∧
      (op.touch t).watermark = t.watermark ∧ (op.touch t).commitSeq = t.commitSeq := by
  cases op <;> exact ⟨rfl, rfl, rfl, rfl, rfl⟩

theorem slot_touchRefused (t : PersistentARTrie V) (op : DurableOp V) :
    (op.touchRefused t).overlay.slot = t.overlay.slot ∧ (op.touchRefused t).log = t.log ∧
      (op.touchRefused t).nextLsn = t.nextLsn ∧ (op.touchRefused t).watermark = t.watermark ∧
      (op.touchRefused t).commitSeq = t.commitSeq := by
  cases op <;> exact ⟨rfl, rfl, rfl, rfl, rfl⟩

end

theorem start_ok (faultIn : FaultIn UInt8 V) (t : PersistentARTrie V) (commits : List Commit) (op : DurableOp V) :
    (op.start t).held = [] ∧ (op.start t).op? = some op ∧ (op.start t).Ok faultIn t commits := by
  cases op with
  | remove term =>
    simp only [start]
    split
    · exact ⟨rfl, rfl, trivial⟩
    · split <;> exact ⟨rfl, rfl, trivial⟩
  | upsert term v => exact ⟨rfl, rfl, trivial⟩
  | increment term delta =>
    simp only [start, boundIncrementDelta]
    by_cases hlt : delta.toNat < 2 ^ 63
    · simp only [hlt, if_true]
      exact ⟨rfl, rfl, if_pos hlt⟩
    · simp only [hlt, if_false]
      exact ⟨rfl, rfl, trivial⟩
  | _ =>
    simp only [start]
    split <;> exact ⟨rfl, rfl, trivial⟩

section
variable (h : Inv faultIn s)
include h

theorem Inv.early {old ph : Phase V} (hold : s.calls u = old) (hawaits : ∀ c, ¬ old.Awaits c) (hheld : ph.held = [])
    (hph : ph.Ok faultIn s.trie s.commits) : Inv faultIn (s.after u s.trie [] ph) :=
  h.quiet hold rfl rfl rfl rfl le_rfl (fun l hl => by rw [hheld] at hl; cases hl)
    (fun c hold => absurd hold (hawaits c)) (fun _ => hph)

theorem Inv.ready (hph : s.calls u = .ready op reply)
    (hstep : (ready op reply).advance faultIn s.trie = some (t', cs, ph')) : Inv faultIn (s.after u t' cs ph') := by
  have hok := h.calls u
  rw [hph] at hok
  cases hstep
  have hrank : ∀ l, isRanked (s.trie.append op.record).log l = isRanked s.trie.log l := fun l => by
    rw [isRanked, PersistentARTrie.append, rankMap_append_data _ op.record_ne_commitRank]
    rfl
  refine h.append hph (h.shared.logged.append_data h.shared.fresh_lsn op.record_ne_commitRank)
    (fun l hl => .inr (mem_singleton.1 hl).ge) (fun _ => ?_)
    (fun c hc hunranked => ⟨by rwa [hrank] at hunranked, fun hold => hold⟩)
  refine ⟨mem_append_right _ (mem_singleton.2 rfl), fun hmem => ?_, ⟨Nat.lt_succ_self _, fun hcov => ?_⟩, hok⟩
  · obtain ⟨c, hc, heq⟩ := mem_map.1 hmem
    exact Nat.ne_of_lt (h.shared.lsn_lt hc).2 heq
  · exact lt_irrefl _ (h.shared.covered _ hcov)

theorem Inv.loaded (hph : s.calls u = .loaded p revision)
    (hstep : (loaded p revision).advance faultIn s.trie = some (t', cs, ph')) : Inv faultIn (s.after u t' cs ph') := by
  have hok := h.calls u
  rw [hph] at hok
  obtain ⟨hp, hs⟩ := hok
  rw [advance] at hstep
  split at hstep
  · cases hstep
    exact h.quiet hph rfl rfl rfl rfl le_rfl (fun l hl => hl)
      nofun (fun _ => hp)
  · cases hstep
    exact h.quiet hph rfl rfl rfl rfl (Nat.le_succ _) (fun l hl => hl)
      nofun
      (fun g => ⟨g.unpublished hp (not_mem_nil), g.snapshot hs, le_rfl,
        fun _ c hc => Nat.lt_succ_of_le (h.shared.generations c hc)⟩)

theorem Inv.claimed (hph : s.calls u = .claimed p revision generation)
    (hstep : (claimed p revision generation).advance faultIn s.trie = some (t', cs, ph')) :
    Inv faultIn (s.after u t' cs ph') := by
  have hok := h.calls u
  rw [hph] at hok
  obtain ⟨hp, hs, hc⟩ := hok
  rw [advance, some.injEq] at hstep
  cases hattempt : p.op.attempt faultIn revision.node with
  | inl attempt =>
    simp only [hattempt] at hstep
    exact h.casRoot hph hp rfl rfl hs hc rfl (fun c hold => hold)
      (fun new delta heq _ => publishes_of_attempt hs.wellFormed (by rw [hattempt, heq])) hstep
  | inr arg =>
    obtain ⟨key, delta⟩ := arg
    obtain ⟨found, hfound, hvalue⟩ := h.faultingRead key
    have hop : p.op = .increment key delta := by
      cases hop : p.op <;> simp [hop, attempt] at hattempt
      rw [hattempt.1, hattempt.2]
    have hcurrent : found.bind OverlayNode.value = (entryAt faultIn s.trie.root key).join := by
      rw [← hvalue]
      cases found <;> rfl
    simp only [hattempt, hfound, hcurrent] at hstep
    cases hcount : incrementValue key (entryAt faultIn s.trie.root key).join delta with rw [hcount] at hstep
    | error e =>
      cases hstep
      exact h.early hph (fun c hold => hold) rfl trivial
    | ok v =>
      cases hstep
      refine h.quiet hph rfl rfl rfl rfl le_rfl (fun l hl => hl) (by rintro _ ⟨⟩)
        (fun g => ⟨g.unpublished hp (not_mem_nil), g.snapshot hs, g.claimed hs hc, key, delta, hop, fun heq => ?_⟩)
      rw [hs.current heq]
      exact hcount

theorem Inv.touched (hph : s.calls u = .touched p generation)
    (hstep : (touched p generation).advance faultIn s.trie = some (t', cs, ph')) : Inv faultIn (s.after u t' cs ph') := by
  have hok := h.calls u
  rw [hph] at hok
  cases hstep
  obtain ⟨hmem, howned⟩ := hok
  refine h.append hph (h.shared.logged.append_rank h.shared.fresh_lsn hmem) (fun l hl => ?_) (fun g => ?_)
    (fun c hc hunranked => ?_)
  · obtain rfl | hl := mem_cons.1 hl
    · exact .inl (.head _)
    · exact .inr (mem_singleton.1 hl).ge
  · exact ⟨g.owned howned (not_mem_nil),
      ⟨Nat.lt_succ_self _, fun hcov => lt_irrefl _ (h.shared.covered _ hcov)⟩, Nat.ne_of_lt howned.1⟩
  · -- the commit ranked here is the one this call awaits
    rw [isRanked, PersistentARTrie.append, rankMap_append_rank, update_apply] at hunranked
    split at hunranked
    · cases hunranked
    · rename_i hne
      refine ⟨hunranked, fun hold => hne ?_⟩
      exact congrArg Commit.lsn hold

theorem Inv.advance (hstep : (s.calls u).advance faultIn s.trie = some (t', cs, ph')) :
    Inv faultIn (s.after u t' cs ph') := by
  have hok := h.calls u
  cases hph : s.calls u with rw [hph] at hstep hok
  | idle | done => cases hstep
  | started op =>
    cases hstep
    obtain ⟨hheld, -, hstart⟩ := start_ok faultIn s.trie s.commits op
    exact h.early hph (fun c hold => hold) hheld hstart
  | insertMissed term =>
    cases hstep
    refine h.early hph (fun c hold => hold) ?_ ?_ <;> split <;> first | rfl | trivial
  | removeMissed term =>
    obtain ⟨found, hfound, -⟩ := h.faultingRead term
    rw [Phase.advance, hfound] at hstep
    cases hstep
    refine h.early hph (fun c hold => hold) ?_ ?_ <;> split <;> first | rfl | trivial
  | observed op =>
    cases hstep
    obtain ⟨hslot, hlog, hlsn, hmark, hseq⟩ := slot_touchRefused s.trie op
    exact h.quiet hph hslot hlog hlsn hmark hseq.ge nofun
      nofun (fun _ => trivial)
  | ready op reply =>
    exact h.ready hph hstep
  | appended p =>
    cases hstep
    exact h.quiet hph rfl rfl rfl rfl le_rfl (fun l hl => hl)
      nofun
      (fun _ => ⟨hok, h.shared.wellFormed, h.shared.resident, le_rfl, fun _ => rfl⟩)
  | loaded p revision =>
    exact h.loaded hph hstep
  | claimed p revision generation =>
    exact h.claimed hph hstep
  | counted p revision generation v =>
    obtain ⟨hp, hs, hc, key, delta, hop, hcount⟩ := hok
    rw [Phase.advance, some.injEq] at hstep
    have hop' : ({ p with reply := .count v } : Pending V).op = p.op := rfl
    refine h.casRoot hph hp hop' rfl hs hc rfl (fun c hold => hold)
      (fun new n heq hcurrent => ?_) hstep
    have hbound := hp.bounded
    rw [hop] at hbound heq ⊢
    exact publishes_of_count hs.wellFormed hbound (hcount hcurrent) heq
  | published p generation =>
    cases hstep
    obtain ⟨hslot, hlog, hlsn, hmark, hseq⟩ := slot_touch s.trie p.op
    exact h.quiet hph hslot hlog hlsn hmark hseq.ge (fun l hl => hl)
      (fun c hold => hold)
      (fun g => ⟨hok.1, g.owned hok.2 (not_mem_nil)⟩)
  | touched p generation =>
    exact h.touched hph hstep
  | ranked p rankLsn =>
    cases hstep
    refine h.mark hph (.head _)
      (fun l hl => .tail _ hl) (fun c hold => hold)
      (fun g => g.owned hok.2.1 (fun hmem => hok.2.2 (mem_singleton.1 hmem).symm))
  | marked | burning =>
    cases hstep
    exact h.mark hph (.head _) nofun (fun _ => id) (fun _ => trivial)
  | refused p =>
    cases hstep
    obtain ⟨hslot, hlog, hlsn, hmark, hseq⟩ := slot_touchRefused s.trie p.op
    exact h.quiet hph hslot hlog hlsn hmark hseq.ge (fun l hl => hl)
      nofun (fun g => g.unpublished hok (not_mem_nil))

theorem Inv.call (hidle : s.calls u = .idle) (op : DurableOp V) :
    Inv faultIn { s with calls := update s.calls u (enter s.trie op) } := by
  have henter : (enter s.trie op).held = [] ∧ (enter s.trie op).Ok faultIn s.trie s.commits := by
    unfold enter
    split <;> exact ⟨rfl, trivial⟩
  simpa only [System.after, append_nil] using h.early hidle (fun _ => id) henter.1 henter.2

theorem Inv.ret (hdone : s.calls u = .done op reply) : Inv faultIn { s with calls := update s.calls u .idle } := by
  have hearly : Inv faultIn (s.after u s.trie [] .idle) := h.early hdone (fun _ => id) rfl trivial
  simpa only [System.after, append_nil] using hearly

theorem Inv.withCapture (capture : Capture V) : Inv faultIn { s with capture := capture } :=
  ⟨h.shared, h.calls, h.disjoint, h.unranked⟩

end

theorem inv_create : Inv faultIn (create : System V) where
  shared := Shared.create .immediate
  calls := fun _ => trivial
  disjoint := nofun
  unranked := nofun

end Steps

/-! ## Events and runs -/

section Runs

variable {V : Type} [DictionaryValue V] [CounterLeaf V] {faultIn : FaultIn UInt8 V} {s s' : System V}
variable {u : Nat} {e : Event V}

theorem step?_call {op : DurableOp V} : s.step? faultIn (.call u op) = some s' ↔
    s.calls u = .idle ∧ s' = { s with calls := update s.calls u (enter s.trie op) } := by
  rw [step?]
  cases s.calls u <;> simp [eq_comm]

theorem step?_step : s.step? faultIn (.step u) = some s' ↔
    ∃ t' cs ph', (s.calls u).advance faultIn s.trie = some (t', cs, ph') ∧ s' = s.after u t' cs ph' := by
  rw [step?, map_eq_some_iff]
  constructor
  · rintro ⟨⟨t', cs, ph'⟩, hadv, rfl⟩
    exact ⟨t', cs, ph', hadv, rfl⟩
  · rintro ⟨t', cs, ph', hadv, rfl⟩
    exact ⟨(t', cs, ph'), hadv, rfl⟩

theorem step?_ret : s.step? faultIn (.ret u) = some s' ↔
    ∃ op reply, s.calls u = .done op reply ∧ s' = { s with calls := update s.calls u .idle } := by
  rw [step?]
  cases s.calls u <;> simp [eq_comm]

theorem step?_readWatermark : s.step? faultIn .readWatermark = some s' ↔
    s.capture = .idle ∧ s' = { s with capture := .watermarkRead s.trie.watermark.cur } := by
  rw [step?]
  cases s.capture <;> simp [eq_comm]

theorem step?_loadRoot : s.step? faultIn .loadRoot = some s' ↔
    ∃ w, s.capture = .watermarkRead w ∧ s' = { s with capture := .rootLoaded w s.trie.overlay.slot } := by
  rw [step?]
  cases s.capture <;> simp [eq_comm]

theorem step?_publishImage : s.step? faultIn .publishImage = some s' ↔
    ∃ w revision, s.capture = .rootLoaded w revision ∧ s' = { s with capture := .published w revision } := by
  rw [step?]
  cases s.capture <;> simp [eq_comm]

/-- What an event comes to: a call starts, moves or returns, or the checkpoint moves and nothing else does. -/
inductive Stepped (faultIn : FaultIn UInt8 V) (s : System V) : Event V → System V → Prop
  | call (u : Nat) (op : DurableOp V) (hidle : s.calls u = .idle) :
    Stepped faultIn s (.call u op) { s with calls := update s.calls u (enter s.trie op) }
  | step (u : Nat) (t' : PersistentARTrie V) (cs : List Commit) (ph' : Phase V)
    (hadv : (s.calls u).advance faultIn s.trie = some (t', cs, ph')) : Stepped faultIn s (.step u) (s.after u t' cs ph')
  | ret (u : Nat) (op : DurableOp V) (reply : Reply V) (hdone : s.calls u = .done op reply) :
    Stepped faultIn s (.ret u) { s with calls := update s.calls u .idle }
  | capture (e : Event V) (capture : Capture V) (he : e = .readWatermark ∨ e = .loadRoot ∨ e = .publishImage) :
    Stepped faultIn s e { s with capture := capture }

theorem stepped (h : s.step? faultIn e = some s') : Stepped faultIn s e s' := by
  cases e with
  | call u op =>
    obtain ⟨hidle, rfl⟩ := step?_call.1 h
    exact .call u op hidle
  | step u =>
    obtain ⟨t', cs, ph', hadv, rfl⟩ := step?_step.1 h
    exact .step u t' cs ph' hadv
  | ret u =>
    obtain ⟨op, reply, hdone, rfl⟩ := step?_ret.1 h
    exact .ret u op reply hdone
  | readWatermark =>
    obtain ⟨-, rfl⟩ := step?_readWatermark.1 h
    exact .capture _ _ (.inl rfl)
  | loadRoot =>
    obtain ⟨w, -, rfl⟩ := step?_loadRoot.1 h
    exact .capture _ _ (.inr (.inl rfl))
  | publishImage =>
    obtain ⟨w, revision, -, rfl⟩ := step?_publishImage.1 h
    exact .capture _ _ (.inr (.inr rfl))

theorem Inv.step (h : Inv faultIn s) (hstep : s.step? faultIn e = some s') : Inv faultIn s' := by
  cases stepped hstep with
  | call u op hidle =>
    exact h.call hidle op
  | step u t' cs ph' hadv =>
    exact h.advance hadv
  | ret u op reply hdone =>
    exact h.ret hdone
  | capture e c he => exact h.withCapture _

end Runs

/-! ## Which operations run -/

section Ops

variable {V : Type}

/-- Every call in flight is on an operation with the property, and so was every commit's. -/
structure Ops [DictionaryValue V] (P : DurableOp V → Prop) (s : System V) : Prop where
  calls : ∀ u op, (s.calls u).op? = some op → P op
  commits : ∀ c ∈ s.commits, ∃ op, P op ∧ c.op = op.recovered c.lsn

def Event.Calls (P : DurableOp V → Prop) : Event V → Prop
  | .call _ op => P op
  | _ => True

variable [DictionaryValue V] [CounterLeaf V] {faultIn : FaultIn UInt8 V}
variable {cs : List Commit}

/-- The call's compare-and-swap is next, and it will succeed if it is tried. -/
def Phase.Wins (t : PersistentARTrie V) (op : DurableOp V) : Phase V → Prop
  | .claimed p revision _ | .counted p revision _ _ => p.op = op ∧ revision.revision = t.overlay.slot.revision
  | _ => False

variable {ph' ph : Phase V}

/-- **A call stays on its operation**, what it commits is that operation's record, and the log grows. -/
theorem advance_op {t t' : PersistentARTrie V} (h : ph.advance faultIn t = some (t', cs, ph')) :
    ph'.op? = ph.op? ∧ (cs = [] ∨ ∃ p g, cs = [p.commit g] ∧ ph' = .published p g ∧ ph.Wins t p.op) ∧
      ∃ more, t'.log = t.log ++ more := by
  have hsame (heq : t'.log = t.log) : ∃ more, t'.log = t.log ++ more := ⟨[], by rw [heq, append_nil]⟩
  cases ph with
  | idle | done => cases h
  | started op => cases h; exact ⟨(start_ok faultIn t [] op).2.1, .inl rfl, hsame rfl⟩
  | insertMissed term =>
    cases h
    exact ⟨by split <;> rfl, .inl rfl, hsame rfl⟩
  | removeMissed term =>
    rw [advance, some.injEq] at h
    split at h <;> cases h
    · exact ⟨by split <;> rfl, .inl rfl, hsame rfl⟩
    · exact ⟨rfl, .inl rfl, hsame rfl⟩
  | observed op => cases h; exact ⟨rfl, .inl rfl, hsame (slot_touchRefused t op).2.1⟩
  | refused p => cases h; exact ⟨rfl, .inl rfl, hsame (slot_touchRefused t p.op).2.1⟩
  | published p g => cases h; exact ⟨rfl, .inl rfl, hsame (slot_touch t p.op).2.1⟩
  | ready | touched => cases h; exact ⟨rfl, .inl rfl, _, rfl⟩
  | loaded p revision =>
    rw [advance, some.injEq] at h
    split at h <;> cases h <;> exact ⟨rfl, .inl rfl, hsame rfl⟩
  | claimed p revision generation =>
    rw [advance, some.injEq] at h
    split at h
    · obtain ⟨hlog, -, -, hop, hcs⟩ := (swapped h).frame
      exact ⟨hop, hcs.imp_right fun ⟨hcs, hph', hrev⟩ => ⟨p, generation, hcs, hph', rfl, hrev⟩, hsame hlog⟩
    · cases h
      exact ⟨by split <;> rfl, .inl rfl, hsame rfl⟩
  | counted p revision generation v =>
    rw [advance, some.injEq] at h
    obtain ⟨hlog, -, -, hop, hcs⟩ := (swapped h).frame
    exact ⟨hop, hcs.imp_right fun ⟨hcs, hph', hrev⟩ => ⟨_, generation, hcs, hph', rfl, hrev⟩, hsame hlog⟩
  | _ => cases h; exact ⟨rfl, .inl rfl, hsame rfl⟩

/-- **A step changes the root only by a commit**, and then to what the commit's operation makes of it. -/
theorem Inv.advance_root {s : System V} (hinv : Inv faultIn s) {u : Nat} {t' : PersistentARTrie V}
    (h : (s.calls u).advance faultIn s.trie = some (t', cs, ph')) :
    cs = [] ∧ t'.root = s.trie.root ∨
      ∃ p g, cs = [p.commit g] ∧ ph' = .published p g ∧ Publishes faultIn s.trie.root t'.root p.op := by
  have hok := hinv.calls u
  have hcas : ∀ {p : Pending V} {revision : RootRevision UInt8 V} {g : Nat} {attempt : Attempt V},
      Snapshot faultIn s.trie revision → (∀ new delta, attempt = .publish new delta →
        revision.revision = s.trie.overlay.slot.revision → Publishes faultIn revision.node new p.op) →
      Overlay.casRoot s.trie p revision g attempt = (t', cs, ph') → cs = [] ∧ t'.root = s.trie.root ∨
        ∃ p g, cs = [p.commit g] ∧ ph' = .published p g ∧ Publishes faultIn s.trie.root t'.root p.op := by
    intro p revision g attempt hs hpub hcas
    cases swapped hcas with
    | won new n hcurrent =>
      have hp := hpub _ _ rfl hcurrent
      rw [hs.current hcurrent] at hp
      exact .inr ⟨p, g, rfl, rfl, hp⟩
    | lost | refused | failed => exact .inl ⟨rfl, rfl⟩
  cases hph : s.calls u with rw [hph] at h hok
  | idle | done => cases h
  | removeMissed term =>
    obtain ⟨found, hfound, -⟩ := hinv.faultingRead term
    rw [Phase.advance, hfound] at h
    cases h
    exact .inl ⟨rfl, rfl⟩
  | observed op =>
    cases h
    exact .inl ⟨rfl, congrArg RootRevision.node (slot_touchRefused s.trie op).1⟩
  | refused p =>
    cases h
    exact .inl ⟨rfl, congrArg RootRevision.node (slot_touchRefused s.trie p.op).1⟩
  | published p g =>
    cases h
    exact .inl ⟨rfl, congrArg RootRevision.node (slot_touch s.trie p.op).1⟩
  | loaded p revision =>
    rw [Phase.advance, some.injEq] at h
    split at h <;> cases h <;> exact .inl ⟨rfl, rfl⟩
  | claimed p revision generation =>
    rw [Phase.advance, some.injEq] at h
    cases hattempt : p.op.attempt faultIn revision.node with
    | inl attempt =>
      simp only [hattempt] at h
      exact hcas hok.2.1 (fun new delta heq _ => publishes_of_attempt hok.2.1.wellFormed (by rw [hattempt, heq])) h
    | inr arg =>
      obtain ⟨key, delta⟩ := arg
      obtain ⟨found, hfound, -⟩ := hinv.faultingRead key
      simp only [hattempt, hfound, Prod.mk.injEq] at h
      exact .inl ⟨h.2.1.symm, by rw [← h.1]; rfl⟩
  | counted p revision generation v =>
    obtain ⟨hp, hs, -, key, delta, hop, hcount⟩ := hok
    rw [Phase.advance, some.injEq] at h
    refine hcas hs (fun new n heq hcurrent => ?_) h
    have hbound := hp.bounded
    rw [hop] at hbound heq ⊢
    exact publishes_of_count hs.wellFormed hbound (hcount hcurrent) heq
  | _ =>
    cases h
    exact .inl ⟨rfl, rfl⟩

theorem Ops.step {P : DurableOp V → Prop} {s s' : System V} (h : Ops P s) {e : Event V} (he : e.Calls P)
    (hstep : s.step? faultIn e = some s') : Ops P s' := by
  have hcalls : ∀ (u : Nat) (ph' : Phase V), (∀ op, ph'.op? = some op → P op) →
      ∀ v op, (update s.calls u ph' v).op? = some op → P op := fun u ph' hph =>
    (forall_update_iff s.calls fun _ (ph : Phase V) => ∀ op, ph.op? = some op → P op).2 ⟨hph, fun v _ => h.calls v⟩
  cases stepped hstep with
  | call u op hidle =>
    refine ⟨hcalls u _ (fun op' hop' => ?_), h.commits⟩
    unfold enter at hop'
    split at hop' <;> exact some.inj hop' ▸ he
  | step u t' cs ph' hadv =>
    obtain ⟨hop, hcs, -⟩ := advance_op hadv
    refine ⟨hcalls u ph' (fun op hph => h.calls u op (hop ▸ hph)), fun c hc => ?_⟩
    obtain hold | hnew := mem_append.1 hc
    · exact h.commits c hold
    · obtain rfl | ⟨p, g, rfl, rfl, -⟩ := hcs
      · cases hnew
      · rw [mem_singleton.1 hnew]
        exact ⟨p.op, h.calls u p.op hop.symm, rfl⟩
  | ret u op reply hdone =>
    exact ⟨hcalls u .idle nofun, h.commits⟩
  | capture e c he => exact ⟨h.calls, h.commits⟩

omit [CounterLeaf V] in
theorem ops_create (P : DurableOp V → Prop) : Ops P (create : System V) where
  calls := nofun
  commits := nofun

/-! ## Whole runs -/

variable {s s' : System V} {es : List (Event V)}

theorem Inv.run (h : Inv faultIn s) (hrun : run (step? faultIn) es s = some s') : Inv faultIn s' :=
  of_run (fun _ _ _ hstep hi => hi.step hstep) hrun h

theorem Ops.run {P : DurableOp V → Prop} (h : Ops P s) (hcalls : ∀ e ∈ es, e.Calls P)
    (hrun : run (step? faultIn) es s = some s') : Ops P s' :=
  invariant (C := fun _ e => e.Calls P) (fun _ _ _ hstep he hi => hi.step he hstep) es s s' hrun
    (along_of_forall es s (fun e he _ => hcalls e he)) h

/-- The event is one of the first `n` threads, or of the checkpoint. -/
def Event.within (n : Nat) : Event V → Bool
  | .call u _ | .step u | .ret u => decide (u < n)
  | _ => true

/-- Only the first `n` threads have a call in flight, so a condition on all of them can be checked. -/
def System.Below (n : Nat) (s : System V) : Prop := ∀ u, n ≤ u → s.calls u = .idle

omit [DictionaryValue V] [CounterLeaf V] in
theorem System.Below.lt {n u : Nat} (h : s.Below n) (hu : s.calls u ≠ .idle) : u < n := by
  by_contra hge
  exact hu (h u (Nat.not_lt.1 hge))

theorem System.Below.step {n : Nat} (h : s.Below n) {e : Event V} (he : e.within n = true)
    (hstep : s.step? faultIn e = some s') : s'.Below n := by
  have hupdate : ∀ (u : Nat) (ph : Phase V), u < n → ∀ v, n ≤ v → update s.calls u ph v = .idle :=
    fun u ph hu v hv => by rw [update_of_ne (by omega), h v hv]
  cases stepped hstep with
  | call u | step u | ret u =>
    exact hupdate u _ (of_decide_eq_true he)
  | capture e c he => exact h

def System.idleBelow (n : Nat) (s : System V) : Bool :=
  (List.range n).all fun u => match s.calls u with
    | .idle => true
    | _ => false

theorem System.idle_of_run {n : Nat} (hrun : run (step? faultIn) es create = some s)
    (hwithin : ∀ e ∈ es, e.within n = true) (hidle : s.idleBelow n = true) (u : Nat) : s.calls u = .idle := by
  have hbelow : s.Below n :=
    invariant (C := fun _ e => e.within n = true) (fun _ _ _ hstep he hi => hi.step he hstep) es create s
      hrun (along_of_forall es _ (fun e he _ => hwithin e he)) (fun u _ => rfl)
  by_cases hu : u < n
  · have hcheck := all_eq_true.1 hidle u (mem_range.2 hu)
    cases hph : s.calls u with
    | idle => rfl
    | _ => simp [hph] at hcheck
  · exact hbelow u (Nat.not_lt.1 hu)

end Ops

end Dictenstein.Overlay
