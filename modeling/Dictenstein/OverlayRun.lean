import Dictenstein.DurableReplay
import Dictenstein.Runs
/-! # OverlayRun — concurrent durable writers and a checkpoint

Any number of threads run durable operations on one trie, and one checkpoint captures it. A thread's position in its
call is a `Phase`, and each step of it is one atomic access: a cache probe, a root load, a generation claim, the root
compare-and-swap, a cache update, an append, a mark. A crash is the end of a run.

The compare-and-swap succeeds when the root slot still has the revision the attempt loaded. `commits` lists the
successful ones in order; no step of the program reads it. -/

namespace Dictenstein.Overlay

open Wire Wal Recovery OverlayNode DictionaryValue CounterLeaf PersistentARTrie

/-! ## What an operation logs, attempts and touches -/

inductive Reply (V : Type) where
  | changed (b : Bool)
  | count (v : V)
  | error (e : PersistentARTrieError)

namespace DurableOp

variable {V : Type} [DictionaryValue V]

def method : DurableOp V → String
  | .insert _ => "insert_cas_durable"
  | .remove _ => "remove_cas_durable"
  | .insertWithValue .. => "insert_cas_with_value_durable"
  | .upsert .. => "upsert_cas_durable"
  | .compareAndSwap .. => "compare_and_swap"
  | .increment .. => "try_increment_cas_durable"

def noun : DurableOp V → String
  | .remove _ => "remove"
  | .increment .. => "increment"
  | _ => "write"

def record : DurableOp V → WalRecord Nat
  | .insert term => .insert term none
  | .remove term => .remove term
  | .insertWithValue term v => .insert term (some (serialize v))
  | .upsert term v => .upsert term (serialize v)
  | .compareAndSwap term _ new => .upsert term (serialize new)
  | .increment term delta => .batchIncrement [(term, Int64.ofNat delta.toNat)]

def recovered (lsn : Nat) : DurableOp V → RecoveredOperation
  | .insert term => .insert lsn term none
  | .remove term => .remove lsn term
  | .insertWithValue term v => .insert lsn term (some (serialize v))
  | .upsert term v => .upsert lsn term (serialize v)
  | .compareAndSwap term _ new => .upsert lsn term (serialize new)
  | .increment term delta => .increment lsn term (Int64.ofNat delta.toNat) none

/-- The attempt against a loaded root, or the key and delta of an increment, which has to read the count first. -/
def attempt (faultIn : FaultIn UInt8 V) (root : OverlayNode UInt8 V) : DurableOp V → Attempt V ⊕ (Bytes × UInt64)
  | .insert term => .inl (insertAttempt faultIn root term)
  | .remove term => .inl (removeAttempt faultIn root term)
  | .insertWithValue term v => .inl (valueAttempt faultIn root term v .insertOnce)
  | .upsert term v => .inl (valueAttempt faultIn root term v .upsert)
  | .compareAndSwap term expected new =>
    .inl (valueAttempt faultIn root term new (.compareAndSwap (expected.map serialize)))
  | .increment key delta => .inr (key, delta)

def touch (t : PersistentARTrie V) : DurableOp V → PersistentARTrie V
  | .remove term => t.cacheRemove term
  | .increment .. => t
  | .insert term | .insertWithValue term _ | .upsert term _ | .compareAndSwap term _ _ => t.cacheInsert term

def touchRefused (t : PersistentARTrie V) : DurableOp V → PersistentARTrie V
  | .insert term => t.cacheInsert term
  | .remove term => t.cacheRemove term
  | _ => t

def refusedReply : DurableOp V → Reply V
  | .upsert .. => .error (.internal ("upsert_cas_durable: value publish unexpectedly refused (NotApplied); the " ++
      "Upsert record is durable and replays on reopen"))
  | _ => .changed false

end DurableOp

/-! ## Phases of a call -/

/-- A call whose data record is durable: `PendingDurableMutation`, with the reply it is to give. -/
structure Pending (V : Type) where
  op : DurableOp V
  reply : Reply V
  lsn : Nat

inductive Phase (V : Type) where
  | idle
  | started (op : DurableOp V)
  | insertMissed (term : Bytes)
  | removeMissed (term : Bytes)
  -- the probes found nothing to change: update the cache and reply
  | observed (op : DurableOp V)
  | ready (op : DurableOp V) (reply : Reply V)
  | appended (p : Pending V)
  | loaded (p : Pending V) (revision : RootRevision UInt8 V)
  | claimed (p : Pending V) (revision : RootRevision UInt8 V) (generation : Nat)
  | counted (p : Pending V) (revision : RootRevision UInt8 V) (generation : Nat) (v : V)
  | published (p : Pending V) (generation : Nat)
  | touched (p : Pending V) (generation : Nat)
  | ranked (p : Pending V) (rankLsn : Nat)
  | marked (p : Pending V) (rankLsn : Nat)
  | refused (p : Pending V)
  | burning (p : Pending V)
  | done (op : DurableOp V) (reply : Reply V)

section Steps

variable {V : Type} [DictionaryValue V] [CounterLeaf V] (faultIn : FaultIn UInt8 V) (t : PersistentARTrie V)

def DurableOp.start (op : DurableOp V) : Phase V :=
  match op with
  | .insert term => if term ∈ t.overlay.cache then .done op (.changed false) else .insertMissed term
  | .remove term =>
    if t.presentHoist term then .ready op (.changed true)
    else if term = [] then .observed op else .removeMissed term
  | .insertWithValue term _ => if t.valuePresentFaulting term then .done op (.changed false) else .ready op (.changed true)
  | .upsert term _ => .ready op (.changed !t.valuePresentFaulting term)
  | .compareAndSwap term expected _ =>
    if (t.valueReadFaulting term).map serialize != expected.map serialize then .done op (.changed false)
    else .ready op (.changed true)
  | .increment term delta => match boundIncrementDelta term delta with
    | .error e => .done op (.error e)
    | .ok _ => .ready op (.changed true)

/-- The root compare-and-swap of an attempt built on the revision `revision`. -/
def casRoot (p : Pending V) (revision : RootRevision UInt8 V) (generation : Nat) :
    Attempt V → PersistentARTrie V × List Commit × Phase V
  | .publish root delta =>
    if t.overlay.slot.revision = revision.revision then
      (t.publish root delta, [⟨generation, p.lsn, p.op.recovered p.lsn⟩], .published p generation)
    else (t, [], .appended p)
  | .refuse _ => (t, [], .refused p)
  | .fail e => (t, [], .done p.op (.error e))

/-- One step of a call: the trie after it, the commit it made and the phase it reached. -/
def Phase.advance : Phase V → Option (PersistentARTrie V × List Commit × Phase V)
  | .idle | .done .. => none
  | .started op => some (t, [], op.start t)
  | .insertMissed term =>
    some (t, [], if t.presentHoist term then .observed (.insert term) else .ready (.insert term) (.changed true))
  | .removeMissed term => some <| match findLeafFaulting faultIn t.overlay.slot term defaultMaxFaultinRetries with
    | (.ok found, slot) =>
      (t.withSlot slot, [], if found.isSome then .ready (.remove term) (.changed true) else .observed (.remove term))
    | (.error e, slot) => (t.withSlot slot, [], .done (.remove term) (.error e))
  | .observed op => some (op.touchRefused t, [], .done op (.changed false))
  | .ready op reply => some (t.append op.record, [], .appended ⟨op, reply, t.nextLsn⟩)
  | .appended p => some (t, [], .loaded p t.overlay.slot)
  | .loaded p revision => some <| match p.op.attempt faultIn revision.node with
    | .inl (.refuse false) => (t, [], .refused p)
    | _ => (t.claim, [], .claimed p revision (t.commitSeq + 1))
  | .claimed p revision generation => some <| match p.op.attempt faultIn revision.node with
    | .inl attempt => casRoot t p revision generation attempt
    | .inr (key, delta) =>
      -- the count is read from the root of this moment, not from the revision loaded
      let (read, slot) := findLeafFaulting faultIn t.overlay.slot key defaultMaxFaultinRetries
      let current := match read with
        | .ok found => found.bind OverlayNode.value
        | .error _ => valueRead revision.node key
      (t.withSlot slot, [], match incrementValue key current delta with
        | .error e => .done p.op (.error e)
        | .ok v => .counted p revision generation v)
  | .counted p revision generation v =>
    some (casRoot t { p with reply := .count v } revision generation
      (valueAttempt faultIn revision.node p.op.term v .upsert))
  | .published p generation => some (p.op.touch t, [], .touched p generation)
  | .touched p generation =>
    some (t.append (.commitRank p.lsn p.op.term generation), [], .ranked p t.nextLsn)
  | .ranked p rankLsn => some (t.mark p.lsn, [], .marked p rankLsn)
  | .marked p rankLsn => some (t.mark rankLsn, [], .done p.op p.reply)
  | .refused p => some (p.op.touchRefused t, [], .burning p)
  | .burning p => some (t.mark p.lsn, [], .done p.op p.op.refusedReply)

end Steps

/-! ## The system -/

/-- The checkpoint: `capture_overlay_snapshot` and the publication of its image. -/
inductive Capture (V : Type) where
  | idle
  | watermarkRead (watermark : Nat)
  | rootLoaded (watermark : Nat) (revision : RootRevision UInt8 V)
  | published (watermark : Nat) (revision : RootRevision UInt8 V)

structure System (V : Type) where
  trie : PersistentARTrie V
  commits : List Commit
  calls : Nat → Phase V
  capture : Capture V

inductive Event (V : Type) where
  | call (u : Nat) (op : DurableOp V)
  | step (u : Nat)
  | ret (u : Nat)
  | readWatermark
  | loadRoot
  | publishImage

namespace System

variable {V : Type} [DictionaryValue V] [CounterLeaf V] (faultIn : FaultIn UInt8 V)

def create : System V := ⟨.create .immediate, [], fun _ => .idle, .idle⟩

def enter (t : PersistentARTrie V) (op : DurableOp V) : Phase V :=
  match t.durablePolicyGate op.method op.noun with
  | .error e => .done op (.error e)
  | .ok _ => .started op

def step? (s : System V) : Event V → Option (System V)
  | .call u op => match s.calls u with
    | .idle => some { s with calls := Function.update s.calls u (enter s.trie op) }
    | _ => none
  | .step u => ((s.calls u).advance faultIn s.trie).map fun (t, cs, ph) =>
    { s with trie := t, commits := s.commits ++ cs, calls := Function.update s.calls u ph }
  | .ret u => match s.calls u with
    | .done .. => some { s with calls := Function.update s.calls u .idle }
    | _ => none
  | .readWatermark => match s.capture with
    | .idle => some { s with capture := .watermarkRead s.trie.watermark.cur }
    | _ => none
  | .loadRoot => match s.capture with
    | .watermarkRead w => some { s with capture := .rootLoaded w s.trie.overlay.slot }
    | _ => none
  | .publishImage => match s.capture with
    | .rootLoaded w revision => some { s with capture := .published w revision }
    | _ => none

/-- The overlay after a crash and a reopening: from the published image, if there is one, and the log. -/
def recover (s : System V) : LiveOverlay V :=
  match s.capture with
  | .published w revision =>
    (⟨⟨revision.node, revision.termCount, 0⟩, ∅⟩ : LiveOverlay V).drainIntoOverlay faultIn
      (reconcileLwwWithRegime s.trie.log true w fun _ => .overlay)
  | _ => reopen faultIn s.trie.log

end System

end Dictenstein.Overlay
