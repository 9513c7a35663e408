import Dictenstein.CheckpointReplay
import Mathlib.Algebra.BigOperators.Group.Finset.Basic
/-! # CheckpointCounts — counters across a crash and a checkpoint

A delta that is in the image and is replayed counts twice. The image may hold increments above the watermark, since an
increment is visible from its compare-and-swap on and is marked only behind its rank. If there is none on a key when the
checkpoint loads the root, the image and the replay split the key's increments between them.

That the live counter is the sum of the acknowledged deltas (`ackedSum`) is a tally: what a call owes between its
compare-and-swap and its return (`owed`) and what has been acknowledged add up to the count. -/

namespace Dictenstein.Overlay

open Wire Wal Recovery OverlayNode DictionaryValue CounterLeaf PersistentARTrie Function List Option DurableOp Overlay.System
  Finset Event

/-! ## The tally -/

section Tally

variable {V : Type}

def DurableOp.deltaOn (key : Bytes) : DurableOp V → Nat
  | .increment k delta => if k = key then delta.toNat else 0
  | _ => 0

/-- The delta on `key` that the call has published and not yet acknowledged. -/
def Phase.owed (key : Bytes) : Phase V → Nat
  | .published p _ | .touched p _ | .ranked p _ | .marked p _ => p.op.deltaOn key
  | .done op (.count _) => op.deltaOn key
  | _ => 0

def acked (key : Bytes) (s : System V) : Event V → Nat
  | .ret u => (s.calls u).owed key
  | _ => 0

/-- The deltas on `key` that the increments returned in a run were acknowledged for. -/
def ackedSum [DictionaryValue V] [CounterLeaf V] (faultIn : FaultIn UInt8 V) (key : Bytes) :
    List (Event V) → System V → Nat
  | [], _ => 0
  | e :: es, s => acked key s e + match s.step? faultIn e with
    | none => 0
    | some s' => ackedSum faultIn key es s'

def Phase.RepliesCount : Phase V → Prop
  | .published p _ | .touched p _ | .ranked p _ | .marked p _ => p.op.isIncrement = true → ∃ v, p.reply = .count v
  | _ => True

variable [DictionaryValue V]

theorem owed_start (t : PersistentARTrie V) (op : DurableOp V) (key : Bytes) :
    (op.start t).owed key = 0 ∧ (op.start t).RepliesCount := by
  cases op with
  | remove term =>
    simp only [start]
    split
    · exact ⟨rfl, trivial⟩
    · split <;> exact ⟨rfl, trivial⟩
  | upsert term v => exact ⟨rfl, trivial⟩
  | increment term delta =>
    simp only [start]
    split <;> exact ⟨rfl, trivial⟩
  | _ => simp only [start]; split <;> exact ⟨rfl, trivial⟩

end Tally

section Counts

variable {faultIn : FaultIn UInt8 UInt64} {s s' : System UInt64} {key : Bytes}

theorem counterOf_increment {k : Bytes} {current : Option UInt64} {delta v : UInt64} {m : Nat}
    (h : incrementValue k current delta = .ok v) (hm : counterOf current = some (m : Int)) :
    counterOf (some v) = some ((m + delta.toNat : Nat) : Int) := by
  have hsum : (m : Int) + delta.toNat = ((m + delta.toNat : Nat) : Int) := by push_cast; rfl
  simp only [incrementValue, hm, hsum, i128ToCounterValue_uInt64] at h
  by_cases hlt : m + delta.toNat < 2 ^ 64
  · simp only [hlt, if_true, Except.ok.injEq] at h
    show counterValueToI128 v = _
    rw [counterValueToI128_uInt64, ← h, UInt64.toNat_ofNat_of_lt' hlt]
  · rw [if_neg hlt] at h
    cases h

variable {a n : Nat} {es : List (Event UInt64)}

theorem tally_same {t t' : PersistentARTrie UInt64} {b : Nat} (hroot : t'.root = t.root) (howed : b = a) (x : Nat)
    (hx : counterOf (entryAt faultIn t.root key).join = some ((x + a : Nat) : Int)) :
    counterOf (entryAt faultIn t'.root key).join = some ((x + b : Nat) : Int) := by
  rw [hroot, howed]
  exact hx

/-- **One step of an increment keeps the tally**: the count moves by what the call comes to owe. -/
theorem advance_tally (key : Bytes) {ph ph' : Phase UInt64} {t' : PersistentARTrie UInt64} {cs : List Commit}
    (hinv : Inv faultIn s) (hok : ph.Ok faultIn s.trie s.commits) (hinc : ∀ op, ph.op? = some op → op.isIncrement = true)
    (hreplies : ph.RepliesCount) (hadv : ph.advance faultIn s.trie = some (t', cs, ph')) :
    ph'.RepliesCount ∧ ∀ x : Nat, counterOf (entryAt faultIn s.trie.root key).join = some ((x + ph.owed key : Nat) : Int) →
        counterOf (entryAt faultIn t'.root key).join = some ((x + ph'.owed key : Nat) : Int) := by
  cases ph with
  | idle | done => cases hadv
  | started op =>
    cases hadv
    obtain ⟨howed, hstart⟩ := owed_start s.trie op key
    exact ⟨hstart, tally_same rfl howed⟩
  | insertMissed term | removeMissed term => cases hinc _ rfl
  | observed op =>
    cases hadv
    exact ⟨trivial, tally_same (congrArg RootRevision.node (slot_touchRefused s.trie op).1) rfl⟩
  | ready | appended =>
    cases hadv
    exact ⟨trivial, tally_same rfl rfl⟩
  | loaded p revision =>
    rw [Phase.advance, some.injEq] at hadv
    split at hadv <;> cases hadv <;> exact ⟨trivial, tally_same rfl rfl⟩
  | claimed p revision generation =>
    rw [Phase.advance, some.injEq] at hadv
    cases hattempt : p.op.attempt faultIn revision.node with
    | inl attempt =>
      have hop := hinc p.op rfl
      cases hp : p.op with
      | increment k delta => rw [hp] at hattempt; cases hattempt
      | _ => rw [hp] at hop; cases hop
    | inr arg =>
      obtain ⟨k, delta⟩ := arg
      obtain ⟨found, hfound, -⟩ := hinv.faultingRead k
      simp only [hattempt, hfound, Prod.mk.injEq] at hadv
      obtain ⟨rfl, -, rfl⟩ := hadv
      split <;> exact ⟨trivial, tally_same rfl rfl⟩
  | counted p revision generation v =>
    obtain ⟨-, hs, -, k, delta, hop, hcount⟩ := hok
    rw [Phase.advance, some.injEq, hop] at hadv
    generalize hattempt : valueAttempt faultIn revision.node (increment k delta).term v .upsert = attempt at hadv
    cases swapped hadv with
    | won new n hcurrent =>
      have hvalue := hcount hcurrent
      have hu := (valueAttempt_publish hs.wellFormed hattempt).2.2
      rw [hs.current hcurrent] at hvalue hu
      refine ⟨fun _ => ⟨v, rfl⟩, fun x hx => ?_⟩
      show counterOf (entryAt faultIn new key).join = some ((x + if k = key then delta.toNat else 0 : Nat) : Int)
      rw [hu.entry]
      by_cases hk : key = k
      · subst hk
        rw [term, update_self, if_pos rfl]
        exact counterOf_increment hvalue hx
      · rw [term, update_of_ne hk, if_neg (fun h => hk h.symm)]
        exact hx
    | lost | refused | failed => exact ⟨trivial, tally_same rfl rfl⟩
  | published p generation =>
    cases hadv
    exact ⟨hreplies, tally_same (congrArg RootRevision.node (slot_touch s.trie p.op).1) rfl⟩
  | touched | ranked =>
    cases hadv
    exact ⟨hreplies, tally_same rfl rfl⟩
  | marked p r =>
    cases hadv
    obtain ⟨v, hv⟩ := hreplies (hinc p.op rfl)
    exact ⟨trivial, tally_same rfl (by rw [hv]; rfl)⟩
  | refused p =>
    cases hadv
    exact ⟨trivial, tally_same (congrArg RootRevision.node (slot_touchRefused s.trie p.op).1) rfl⟩
  | burning p =>
    cases hadv
    refine ⟨trivial, tally_same rfl ?_⟩
    cases p.op <;> rfl

/-- What was acknowledged and what the calls owe add up to the live count. -/
structure Tally (faultIn : FaultIn UInt8 UInt64) (n : Nat) (key : Bytes) (a : Nat) (s : System UInt64) : Prop where
  below : s.Below n
  replies : ∀ u, (s.calls u).RepliesCount
  count : counterOf (entryAt faultIn s.trie.root key).join = some ((a + ∑ u ∈ range n, (s.calls u).owed key : Nat) : Int)

theorem sum_owed_update (key : Bytes) {u : Nat} (hu : u < n) (calls : Nat → Phase UInt64) (ph : Phase UInt64) :
    ∃ x, ∑ v ∈ range n, (calls v).owed key = x + (calls u).owed key ∧
      ∑ v ∈ range n, (update calls u ph v).owed key = x + ph.owed key := by
  have hmem : u ∈ Finset.range n := Finset.mem_range.2 hu
  refine ⟨∑ v ∈ (Finset.range n).erase u, (calls v).owed key, (Finset.sum_erase_add _ _ hmem).symm, ?_⟩
  rw [← sum_erase_add _ _ hmem, update_self]
  congr 1
  exact sum_congr rfl (fun v hv => by rw [update_of_ne (ne_of_mem_erase hv)])

theorem Tally.replies_update (h : Tally faultIn n key a s) {ph : Phase UInt64} (hph : ph.RepliesCount)
    (u : Nat) : ∀ v, (update s.calls u ph v).RepliesCount :=
  (forall_update_iff s.calls fun _ (ph : Phase UInt64) => ph.RepliesCount).2 ⟨hph, fun v _ => h.replies v⟩

theorem Tally.step (h : Tally faultIn n key a s) (hinv : Inv faultIn s)
    (hops : Ops (·.isIncrement = true) s) {e : Event UInt64} (he : e.within n = true)
    (hstep : s.step? faultIn e = some s') : Tally faultIn n key (a + acked key s e) s' := by
  have hbelow := h.below.step he hstep
  cases stepped hstep with
  | call u op hidle =>
    have henter : (enter s.trie op).RepliesCount ∧ (enter s.trie op).owed key = 0 := by
      unfold enter
      split <;> exact ⟨trivial, rfl⟩
    obtain ⟨x, hold, hnew⟩ := sum_owed_update key (of_decide_eq_true he) s.calls (enter s.trie op)
    refine ⟨hbelow, h.replies_update henter.1 u, ?_⟩
    rw [hnew, henter.2, h.count, hold, hidle]
    rfl
  | step u t' cs ph' hadv =>
    obtain ⟨hreplies, hcount⟩ := advance_tally key hinv (hinv.calls u) (hops.calls u) (h.replies u) hadv
    obtain ⟨x, hold, hnew⟩ := sum_owed_update key (of_decide_eq_true he) s.calls ph'
    refine ⟨hbelow, h.replies_update hreplies u, ?_⟩
    show counterOf (entryAt faultIn t'.root key).join =
      some ((a + 0 + ∑ v ∈ range n, (update s.calls u ph' v).owed key : Nat) : Int)
    rw [hnew, add_zero, ← add_assoc]
    apply hcount (a + x)
    rw [h.count, hold, add_assoc]
  | ret u op reply hdone =>
    obtain ⟨x, hold, hnew⟩ := sum_owed_update key (of_decide_eq_true he) s.calls .idle
    refine ⟨hbelow, h.replies_update (show (Phase.idle : Phase UInt64).RepliesCount from trivial) u, ?_⟩
    rw [hnew, h.count, hold]
    show some ((a + (x + (s.calls u).owed key) : Nat) : Int) = some ((a + (s.calls u).owed key + (x + 0) : Nat) : Int)
    congr 2
    omega
  | capture e c he =>
    rcases he with rfl | rfl | rfl <;> exact ⟨hbelow, h.replies, h.count⟩

theorem Tally.run (hwithin : ∀ e ∈ es, e.within n = true)
    (hcalls : ∀ e ∈ es, e.Calls (·.isIncrement = true)) (h : Tally faultIn n key a s) (hinv : Inv faultIn s)
    (hops : Ops (·.isIncrement = true) s) (hrun : Runs.run (step? faultIn) es s = some s') :
    Tally faultIn n key (a + ackedSum faultIn key es s) s' := by
  induction es generalizing s a with
  | nil => exact some.inj hrun ▸ h
  | cons e es ih =>
    obtain ⟨m, hm, hrun'⟩ := Runs.run_cons.1 hrun
    have hstep := h.step hinv hops (hwithin e (.head _)) hm
    have hrest := ih (fun e' he' => hwithin e' (.tail _ he'))
      (fun e' he' => hcalls e' (.tail _ he')) hstep (hinv.step hm)
      (hops.step (hcalls e (.head _)) hm) hrun'
    rw [ackedSum, hm, ← add_assoc]
    exact hrest

theorem exists_within (es : List (Event UInt64)) : ∃ n, ∀ e ∈ es, e.within n = true := by
  induction es with
  | nil => exact ⟨0, nofun⟩
  | cons e es ih =>
    obtain ⟨n, hn⟩ := ih
    have hmono : ∀ m, n ≤ m → ∀ e' ∈ es, e'.within m = true := by
      intro m hle e' he'
      have hn := hn e' he'
      cases e' with
      | call u op | step u | ret u =>
        exact decide_eq_true ((of_decide_eq_true hn).trans_le hle)
      | _ => rfl
    have hself : ∃ m, n ≤ m ∧ e.within m = true := by
      cases e with
      | call u op | step u | ret u => exact ⟨max n (u + 1), le_max_left _ _, decide_eq_true (by omega)⟩
      | _ => exact ⟨n, Nat.le_refl n, rfl⟩
    obtain ⟨m, hle, hm⟩ := hself
    exact ⟨m, fun e' he' => (mem_cons.1 he').elim (fun heq => heq ▸ hm) (hmono m hle e')⟩

/-- **The live counter is the sum of the acknowledged deltas** when the key's calls have all returned. -/
theorem live_count (hcalls : ∀ e ∈ es, e.Calls (·.isIncrement = true))
    (hrun : Runs.run (step? faultIn) es create = some s) (hq : Quiescent s key) :
    counterOf (entryAt faultIn s.trie.root key).join = some (ackedSum faultIn key es create : Int) := by
  obtain ⟨n, hn⟩ := exists_within es
  have hstart : Tally faultIn n key 0 (System.create : System UInt64) := by
    refine ⟨fun u _ => rfl, fun u => trivial, ?_⟩
    show counterOf (entryAt faultIn .new key).join = _
    rw [entryAt_new]
    simp [System.create, Phase.owed, counterOf]
  have htally := hstart.run hn hcalls inv_create (ops_create _) hrun
  have hnone : ∀ u ∈ Finset.range n, (s.calls u).owed key = 0 := by
    intro u _
    have hq := hq u
    have hdelta : ∀ op : DurableOp UInt64, op.term ≠ key → op.deltaOn key = 0 := by
      intro op hop
      cases op with
      | increment k delta => exact if_neg hop
      | _ => rfl
    cases hph : s.calls u with rw [hph] at hq
    | published p g | touched p g | ranked p r | marked p r =>
      exact hdelta p.op (hq p.op rfl)
    | done op reply =>
      cases reply with
      | count v => exact hdelta op (hq op rfl)
      | _ => rfl
    | _ => rfl
  rw [htally.count, Finset.sum_eq_zero hnone, Nat.zero_add, Nat.add_zero]

end Counts

/-! ## Recovered counters -/

def CoversKey (key : Bytes) (w : Nat) (commits : List Commit) : Prop := ∀ c ∈ commits, c.op.term = key → c.lsn ≤ w

instance (key : Bytes) (w : Nat) (commits : List Commit) : Decidable (CoversKey key w commits) :=
  inferInstanceAs (Decidable (∀ c ∈ commits, c.op.term = key → c.lsn ≤ w))

/-- **Counters across a checkpoint and a crash.** If every increment of a non-empty key published when a checkpoint loads the
root that it then publishes is at or below the watermark, then the key is recovered with its live entry, and its count is the
sum of the acknowledged deltas. -/
theorem checkpoint_counts (faultIn : FaultIn UInt8 UInt64) (es : List (Event UInt64)) (s : System UInt64)
    (hrun : Runs.run (step? faultIn) es create = some s)
    (hcalls : ∀ e ∈ es, e.Calls (·.isIncrement = true)) (key : Bytes) (hkey : key ≠ [])
    (hok : ∀ w revision, s.capture = .published w revision →
      Runs.Along (step? faultIn) (LoadsWhen (CoversKey key)) es create)
    (hq : Quiescent s key) :
    entryAt faultIn (s.recover faultIn).slot.node key = entryAt faultIn s.trie.root key ∧
      counterOf (entryAt faultIn (s.recover faultIn).slot.node key).join = some (ackedSum faultIn key es create : Int) := by
  have hinv : Inv faultIn s := inv_create.run hrun
  have hentry : entryAt faultIn (s.recover faultIn).slot.node key = entryAt faultIn s.trie.root key := by
    cases hcapture : s.capture with
    | published w revision =>
      have hcaptured := captured_of_run hrun (hok w revision hcapture)
      unfold Captured at hcaptured
      rw [hcapture] at hcaptured
      refine recover_of_split hinv hcapture hcaptured.2 hkey hq (fun pre rest _ hcovers => ?_)
      refine keyFold_of_ne (fun c hc hterm => ?_) _
      obtain ⟨hc, hlt⟩ := mem_filter.1 hc
      exact not_lt.2 (hcovers c hc hterm) (of_decide_eq_true hlt)
    | _ =>
      have hreopen := hinv.reopen_of_quiescent hkey hq
      unfold recover
      rw [hcapture]
      exact hreopen
  exact ⟨hentry, by rw [hentry]; exact live_count hcalls hrun hq⟩

/-- The checkpoint comes between the compare-and-swap of an increment and its rank. -/
def imageAheadOfWatermark : List (Event UInt64) :=
  [call 0 (.increment [1] 5)] ++ List.replicate 6 (step 0) ++
    [readWatermark, .loadRoot, .publishImage] ++ List.replicate 4 (step 0) ++ [ret 0]

theorem checkpoint_counts_twice : (∀ e ∈ imageAheadOfWatermark, e.Calls (·.isIncrement = true)) ∧
      ackedSum noLoader [1] imageAheadOfWatermark create = 5 ∧
      ∃ s : System UInt64, Runs.run (step? noLoader) imageAheadOfWatermark create = some s ∧
        (∀ u, s.calls u = .idle) ∧ entryAt noLoader s.trie.root [1] = some (some 5) ∧
        entryAt noLoader (s.recover noLoader).slot.node [1] = some (some 10) := by
  refine ⟨by simp [imageAheadOfWatermark, Event.Calls, isIncrement], by decide +kernel, ?_⟩
  obtain ⟨s, hrun, hs⟩ := Runs.exists_run (step? noLoader) imageAheadOfWatermark create
    (fun s => decide (s.idleBelow 1 = true ∧ entryAt noLoader s.trie.root [1] = some (some 5) ∧
      entryAt noLoader (s.recover noLoader).slot.node [1] = some (some 10))) (by decide +kernel)
  obtain ⟨hidle, hlive, hrecovered⟩ := of_decide_eq_true hs
  exact ⟨s, hrun, idle_of_run (n := 1) hrun (by simp [imageAheadOfWatermark, within]) hidle, hlive, hrecovered⟩

def incrementAcrossCheckpoint : List (Event UInt64) :=
  [call 0 (.increment [1] 5)] ++ List.replicate 10 (step 0) ++
    [ret 0, .readWatermark, .loadRoot, .publishImage, .call 0 (.increment [1] 3)] ++
    List.replicate 10 (step 0) ++ [ret 0]

theorem checkpoint_counts_two : ∃ s : System UInt64, Runs.run (step? noLoader) incrementAcrossCheckpoint create = some s ∧
      Quiescent s [1] ∧ counterOf (entryAt noLoader (s.recover noLoader).slot.node [1]).join = some (8 : Int) := by
  obtain ⟨s, hrun, hs⟩ := Runs.exists_run (step? noLoader) incrementAcrossCheckpoint create
    (idleBelow 1) (by decide +kernel)
  have hq : Quiescent s [1] := quiescent_of_idle
    (idle_of_run (n := 1) hrun (by simp [incrementAcrossCheckpoint, within]) hs) [1]
  have hok : Runs.Along (step? noLoader) (LoadsWhen (CoversKey [1])) incrementAcrossCheckpoint create := by
    decide +kernel
  have hsum : ackedSum noLoader [1] incrementAcrossCheckpoint create = 8 := by decide +kernel
  have hcount := (checkpoint_counts noLoader incrementAcrossCheckpoint s hrun
    (by simp [incrementAcrossCheckpoint, Event.Calls, isIncrement]) [1] (by simp) (fun _ _ _ => hok) hq).2
  rw [hsum] at hcount
  exact ⟨s, hrun, hq, hcount⟩

end Dictenstein.Overlay
