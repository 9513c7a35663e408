import Mathlib.Algebra.Order.BigOperators.Group.List
import Dictenstein.Wire
/-!
# WalCodec — the records of the write-ahead log and their payload bytes

`core/wal/codec.rs`.  `WalRecord` is the log's record type; `serializePayload` and `deserialize` are its byte format,
with the source's bounds checks and error texts.
-/
namespace Dictenstein.Wal

open Wire Function List

inductive WalError where
  | corruptedRecord (msg : String)
  | unexpectedEof
  | invalidRecordType (value : UInt8)
deriving DecidableEq, Repr

inductive WalRecordType where
  | insert | remove | checkpoint | beginTx | commitTx | abortTx | increment | upsert | compareAndSwap
  | batchInsert | batchIncrement | versionUpdate | versionDurable | versionGc | commitRank
deriving DecidableEq, Repr

def WalRecordType.toU8 : WalRecordType → UInt8
  | .insert => 1 | .remove => 2 | .checkpoint => 3 | .beginTx => 4 | .commitTx => 5 | .abortTx => 6
  | .increment => 7 | .upsert => 8 | .compareAndSwap => 9 | .batchInsert => 10 | .batchIncrement => 11
  | .versionUpdate => 12 | .versionDurable => 13 | .versionGc => 14 | .commitRank => 15

def WalRecordType.tryFrom (value : UInt8) : Except WalError WalRecordType :=
  match value with
  | 1 => .ok .insert | 2 => .ok .remove | 3 => .ok .checkpoint | 4 => .ok .beginTx | 5 => .ok .commitTx
  | 6 => .ok .abortTx | 7 => .ok .increment | 8 => .ok .upsert | 9 => .ok .compareAndSwap | 10 => .ok .batchInsert
  | 11 => .ok .batchIncrement | 12 => .ok .versionUpdate | 13 => .ok .versionDurable | 14 => .ok .versionGc
  | 15 => .ok .commitRank
  | value => .error (.invalidRecordType value)

theorem tryFrom_toU8 (ty : WalRecordType) : WalRecordType.tryFrom ty.toU8 = .ok ty := by
  cases ty <;> rfl

inductive WalRecord (U64 : Type) where
  | insert (term : Bytes) (value : Option Bytes)
  | remove (term : Bytes)
  | checkpoint (checkpointLsn timestamp : U64)
  | beginTx (txId : U64)
  | commitTx (txId : U64)
  | abortTx (txId : U64)
  | increment (term : Bytes) (delta result : Int64)
  | upsert (term : Bytes) (value : Bytes)
  | compareAndSwap (term : Bytes) (expected : Option Bytes) (newValue : Bytes) (success : Bool)
  | batchInsert (entries : List (Bytes × Option Bytes))
  | batchIncrement (entries : List (Bytes × Int64))
  | versionUpdate (versionId rootPtr nodeCount timestamp : U64)
  | versionDurable (versionId : U64) (checksum : UInt32)
  | versionGc (versionIds : List U64)
  | commitRank (dataLsn : U64) (term : Bytes) (generation : U64)
deriving DecidableEq, Repr

def WalRecord.recordType {U64 : Type} : WalRecord U64 → WalRecordType
  | .insert .. => .insert | .remove .. => .remove | .checkpoint .. => .checkpoint | .beginTx .. => .beginTx
  | .commitTx .. => .commitTx | .abortTx .. => .abortTx | .increment .. => .increment | .upsert .. => .upsert
  | .compareAndSwap .. => .compareAndSwap | .batchInsert .. => .batchInsert
  | .batchIncrement .. => .batchIncrement | .versionUpdate .. => .versionUpdate
  | .versionDurable .. => .versionDurable | .versionGc .. => .versionGc | .commitRank .. => .commitRank

/-! ## Writing -/

def u64Bytes (n : UInt64) : Bytes := leBytes 8 n.toNat

def i64Bytes (n : Int64) : Bytes := leBytes 8 n.toUInt64.toNat

def lenPrefixed (b : Bytes) : Bytes := leBytes 4 b.length ++ b

def optBytes : Option Bytes → Bytes
  | some v => 1 :: lenPrefixed v
  | none => [0]

def WalRecord.serializePayload : WalRecord UInt64 → Bytes
  | .insert term value => lenPrefixed term ++ optBytes value
  | .remove term => lenPrefixed term
  | .checkpoint checkpointLsn timestamp => u64Bytes checkpointLsn ++ u64Bytes timestamp
  | .beginTx txId | .commitTx txId | .abortTx txId => u64Bytes txId
  | .increment term delta result => lenPrefixed term ++ (i64Bytes delta ++ i64Bytes result)
  | .upsert term value => lenPrefixed term ++ lenPrefixed value
  | .compareAndSwap term expected newValue success =>
    lenPrefixed term ++ (optBytes expected ++ (lenPrefixed newValue ++ [if success then 1 else 0]))
  | .batchInsert entries =>
    leBytes 4 entries.length ++ (entries.map (fun e => lenPrefixed e.1 ++ optBytes e.2)).flatten
  | .batchIncrement entries =>
    leBytes 4 entries.length ++ (entries.map (fun e => lenPrefixed e.1 ++ i64Bytes e.2)).flatten
  | .versionUpdate versionId rootPtr nodeCount timestamp =>
    u64Bytes versionId ++ (u64Bytes rootPtr ++ (u64Bytes nodeCount ++ u64Bytes timestamp))
  | .versionDurable versionId checksum => u64Bytes versionId ++ leBytes 4 checksum.toNat
  | .versionGc versionIds => leBytes 4 versionIds.length ++ (versionIds.map u64Bytes).flatten
  | .commitRank dataLsn term generation => u64Bytes dataLsn ++ (lenPrefixed term ++ u64Bytes generation)

/-- The length of an optional byte string with its presence byte. -/
def optLen : Option Bytes → Nat
  | some v => 1 + (4 + v.length)
  | none => 1

def WalRecord.payloadLen {U64 : Type} : WalRecord U64 → Nat
  | .insert term value => 4 + term.length + optLen value
  | .remove term => 4 + term.length
  | .checkpoint .. => 16
  | .beginTx .. | .commitTx .. | .abortTx .. => 8
  | .increment term .. => 4 + term.length + 8 + 8
  | .upsert term value => 4 + term.length + 4 + value.length
  | .compareAndSwap term expected newValue _ => 4 + term.length + optLen expected + 4 + newValue.length + 1
  | .batchInsert entries => 4 + (entries.map (fun e => 4 + e.1.length + optLen e.2)).sum
  | .batchIncrement entries => 4 + (entries.map (fun e => 4 + e.1.length + 8)).sum
  | .versionUpdate .. => 32
  | .versionDurable .. => 12
  | .versionGc versionIds => 4 + versionIds.length * 8
  | .commitRank _ term _ => 8 + 4 + term.length + 8

@[simp] theorem length_u64Bytes (n : UInt64) : (u64Bytes n).length = 8 := length_leBytes _ _

@[simp] theorem length_i64Bytes (n : Int64) : (i64Bytes n).length = 8 := length_leBytes _ _

@[simp] theorem length_lenPrefixed (b : Bytes) : (lenPrefixed b).length = 4 + b.length := by
  simp [lenPrefixed]

@[simp] theorem length_optBytes (v : Option Bytes) : (optBytes v).length = optLen v := by
  cases v <;> simp [optBytes, optLen]; omega

variable (r : WalRecord UInt64)

open WalRecord

/-- **`payload_len` is the length of the serialized payload**, the source's debug assertion. -/
theorem length_serializePayload : r.serializePayload.length = r.payloadLen := by
  cases r with
  | batchInsert | batchIncrement | versionGc => simp [serializePayload, payloadLen, length_flatten, comp_def]
  | _ => simp [serializePayload, payloadLen]; try omega

/-! ## Reading -/

def corrupted (msg : String) : WalError := .corruptedRecord msg

def u64 : Parser WalError UInt64 := do
  let n ← number 8
  return UInt64.ofNat n

def i64 : Parser WalError Int64 := do
  let n ← number 8
  return (UInt64.ofNat n).toInt64

/-- An optional byte string: a presence byte already read, then, if it was not zero, a length and that many bytes. -/
def optional (flag : UInt8) (lenTruncated truncated : String) : Parser WalError (Option Bytes) :=
  if flag ≠ 0 then do
    need 4 (corrupted lenTruncated)
    let len ← number 4
    need len (corrupted truncated)
    let v ← take len
    return some v
  else return none

def batchInsertEntry (i : Nat) : Parser WalError (Bytes × Option Bytes) := do
  need 4 (corrupted s!"BatchInsert entry {i} term_len truncated")
  let termLen ← number 4
  need (termLen + 1) (corrupted s!"BatchInsert entry {i} term truncated")
  let term ← take termLen
  let hasValue ← byte
  let value ← optional hasValue s!"BatchInsert entry {i} value_len truncated"
    s!"BatchInsert entry {i} value truncated"
  return (term, value)

def batchIncrementEntry (i : Nat) : Parser WalError (Bytes × Int64) := do
  need 4 (corrupted s!"BatchIncrement entry {i} term_len truncated")
  let termLen ← number 4
  need (termLen + 8) (corrupted s!"BatchIncrement entry {i} term or delta truncated")
  let term ← take termLen
  let delta ← i64
  return (term, delta)

def payloadParser : WalRecordType → Parser WalError (WalRecord UInt64)
  | .insert => do
    need 5 (corrupted "Insert payload too short")
    let termLen ← number 4
    need (termLen + 1) (corrupted "Insert term truncated")
    let term ← take termLen
    let hasValue ← byte
    let value ← optional hasValue "Insert value length truncated" "Insert value truncated"
    return .insert term value
  | .remove => do
    need 4 (corrupted "Remove payload too short")
    let termLen ← number 4
    need termLen (corrupted "Remove term truncated")
    let term ← take termLen
    return .remove term
  | .checkpoint => do
    need 16 (corrupted "Checkpoint payload too short")
    let checkpointLsn ← u64
    let timestamp ← u64
    return .checkpoint checkpointLsn timestamp
  | .beginTx => do
    need 8 (corrupted "BeginTx payload too short")
    let txId ← u64
    return .beginTx txId
  | .commitTx => do
    need 8 (corrupted "CommitTx payload too short")
    let txId ← u64
    return .commitTx txId
  | .abortTx => do
    need 8 (corrupted "AbortTx payload too short")
    let txId ← u64
    return .abortTx txId
  | .increment => do
    need 4 (corrupted "Increment payload too short")
    let termLen ← number 4
    need (termLen + 16) (corrupted "Increment payload truncated")
    let term ← take termLen
    let delta ← i64
    let result ← i64
    return .increment term delta result
  | .upsert => do
    need 4 (corrupted "Upsert payload too short")
    let termLen ← number 4
    need (termLen + 4) (corrupted "Upsert term truncated")
    let term ← take termLen
    let valueLen ← number 4
    need valueLen (corrupted "Upsert value truncated")
    let value ← take valueLen
    return .upsert term value
  | .compareAndSwap => do
    need 4 (corrupted "CAS payload too short")
    let termLen ← number 4
    need (termLen + 1) (corrupted "CAS term truncated")
    let term ← take termLen
    let hasExpected ← byte
    let expected ← optional hasExpected "CAS expected length truncated" "CAS expected truncated"
    need 4 (corrupted "CAS new_value length truncated")
    let newValueLen ← number 4
    need (newValueLen + 1) (corrupted "CAS new_value truncated")
    let newValue ← take newValueLen
    let success ← byte
    return .compareAndSwap term expected newValue (success != 0)
  | .batchInsert => do
    need 4 (corrupted "BatchInsert payload too short")
    let count ← number 4
    let entries ← many batchInsertEntry count 0
    return .batchInsert entries
  | .batchIncrement => do
    need 4 (corrupted "BatchIncrement payload too short")
    let count ← number 4
    let entries ← many batchIncrementEntry count 0
    return .batchIncrement entries
  | .versionUpdate => do
    need 32 (corrupted "VersionUpdate payload too short")
    let versionId ← u64
    let rootPtr ← u64
    let nodeCount ← u64
    let timestamp ← u64
    return .versionUpdate versionId rootPtr nodeCount timestamp
  | .versionDurable => do
    need 12 (corrupted "VersionDurable payload too short")
    let versionId ← u64
    let checksum ← number 4
    return .versionDurable versionId (UInt32.ofNat checksum)
  | .versionGc => do
    need 4 (corrupted "VersionGc payload too short")
    let count ← number 4
    need (count * 8) (corrupted "VersionGc version_ids truncated")
    let versionIds ← many (fun _ => u64) count 0
    return .versionGc versionIds
  | .commitRank => do
    need 12 (corrupted "CommitRank payload too short")
    let dataLsn ← u64
    let termLen ← number 4
    need (termLen + 8) (corrupted "CommitRank term or generation truncated")
    let term ← take termLen
    let generation ← u64
    return .commitRank dataLsn term generation

def WalRecord.deserialize (recordType : WalRecordType) (payload : Bytes) : Except WalError (WalRecord UInt64) :=
  (payloadParser recordType payload).map Prod.fst

/-! ## The round trip -/

theorem parses_u64 (n : UInt64) (s : Bytes) : Parses u64 (u64Bytes n ++ s) n s :=
  (parses_number (ε := WalError) (k := 8) (n := n.toNat) n.toNat_lt s).bind (by
    rw [UInt64.ofNat_toNat]
    exact parses_pure n s)

theorem parses_i64 (n : Int64) (s : Bytes) : Parses i64 (i64Bytes n ++ s) n s :=
  (parses_number (ε := WalError) (k := 8) (n := n.toUInt64.toNat) n.toUInt64.toNat_lt s).bind (by
    have h : (UInt64.ofNat n.toUInt64.toNat).toInt64 = n := by
      rw [UInt64.ofNat_toNat]; rfl
    rw [h]
    exact parses_pure n s)

variable {β : Type} {s u : Bytes} {b : β}

theorem parses_term {t : Bytes} {k : Nat} {e : WalError} {f : Bytes → Parser WalError β}
    (ht : t.length < 2 ^ 32) (hk : k ≤ s.length) (hf : Parses (f t) s b u) :
    Parses (number 4 >>= fun n => need (n + k) e >>= fun _ => take n >>= f) (lenPrefixed t ++ s) b u := by
  unfold lenPrefixed
  rw [append_assoc]
  refine (parses_number (by omega) _).bind ((parses_need ?_).bind ((parses_take t s).bind hf))
  rw [length_append]
  omega

theorem parses_optional {v : Option Bytes} {lt tr : String} {f : Option Bytes → Parser WalError β} (hv : optLen v < 2 ^ 32)
    (hf : Parses (f v) s b u) :
    Parses (byte >>= fun flag => optional flag lt tr >>= f) (optBytes v ++ s) b u := by
  cases v with
  | none =>
    apply (parses_byte 0 s).bind
    unfold optional
    exact (parses_pure none s).bind hf
  | some v =>
    apply (parses_byte 1 (lenPrefixed v ++ s)).bind
    unfold optional
    rw [if_pos (by decide)]
    simp only [optLen] at hv
    refine Parses.bind ((parses_need (by simp; omega)).bind ?_) hf
    exact parses_term (k := 0) (by omega) (by omega) (parses_pure (some v) s)

theorem parses_batchInsertEntry (e : Bytes × Option Bytes) (he : 4 + e.1.length + optLen e.2 < 2 ^ 32) (i : Nat)
    (s : Bytes) : Parses (batchInsertEntry i) (lenPrefixed e.1 ++ optBytes e.2 ++ s) e s := by
  rw [append_assoc]
  refine (parses_need (by simp; omega)).bind (parses_term (by omega) ?_ ?_)
  · cases e.2 <;> simp [optLen]; omega
  · exact parses_optional (by omega) (parses_pure e s)

theorem parses_batchIncrementEntry (e : Bytes × Int64) (he : e.1.length < 2 ^ 32) (i : Nat) (s : Bytes) :
    Parses (batchIncrementEntry i) (lenPrefixed e.1 ++ i64Bytes e.2 ++ s) e s := by
  rw [append_assoc]
  refine (parses_need (by simp; omega)).bind (parses_term he (by simp) ?_)
  exact (parses_i64 e.2 s).bind (parses_pure e s)

/-- A count and that many entries, each of at least one byte: the count of a batch that fits is below `2 ^ 32`. -/
theorem parses_batch {α : Type} {p : Nat → Parser WalError α} {enc : α → Bytes} {f : List α → Parser WalError β}
    (as : List α) (size : α → Nat) (hpos : ∀ a, 1 ≤ size a) (hsum : (as.map size).sum < 2 ^ 32)
    (hp : ∀ a i t, size a < 2 ^ 32 → Parses (p i) (enc a ++ t) a t) (hf : Parses (f as) s b u) :
    Parses (number 4 >>= fun n => many p n 0 >>= f) (leBytes 4 as.length ++ ((as.map enc).flatten ++ s)) b u := by
  have hlen : as.length ≤ (as.map size).sum := by
    have h := length_le_sum_of_one_le (as.map size) (fun i hi => by
      obtain ⟨a, _, rfl⟩ := mem_map.1 hi
      exact hpos a)
    rwa [length_map] at h
  refine (parses_number (by omega) _).bind (Parses.bind ?_ hf)
  refine parses_many as 0 s (fun a ha i t => hp a i t ?_)
  have : size a ≤ (as.map size).sum := le_sum_of_mem (mem_map_of_mem ha)
  omega

/-- **A payload shorter than `2 ^ 32` bytes is read back as the record it was written from**, whatever follows it. -/
theorem parses_serializePayload (h : r.payloadLen < 2 ^ 32) (s : Bytes) :
    Parses (payloadParser r.recordType) (r.serializePayload ++ s) r s := by
  cases r with simp only [payloadLen, serializePayload, recordType, payloadParser,
    append_assoc] at h ⊢
  | insert term value =>
    have hv : 1 ≤ optLen value := by cases value <;> simp [optLen]
    refine (parses_need (by simp; omega)).bind (parses_term (by omega) (by simp; omega) ?_)
    exact parses_optional (by omega) (parses_pure _ s)
  | remove term =>
    exact (parses_need (by simp; omega)).bind (parses_term (k := 0) (by omega) (by omega) (parses_pure _ s))
  | checkpoint c t =>
    exact (parses_need (by simp; omega)).bind ((parses_u64 c _).bind ((parses_u64 t s).bind (parses_pure _ s)))
  | beginTx t | commitTx t | abortTx t => exact (parses_need (by simp)).bind ((parses_u64 t s).bind (parses_pure _ s))
  | increment term d res =>
    refine (parses_need (by simp; omega)).bind (parses_term (by omega) (by simp; omega) ?_)
    exact (parses_i64 d _).bind ((parses_i64 res s).bind (parses_pure _ s))
  | upsert term value =>
    refine (parses_need (by simp; omega)).bind (parses_term (by omega) (by simp; omega) ?_)
    exact parses_term (k := 0) (by omega) (by omega) (parses_pure _ s)
  | compareAndSwap term expected newValue success =>
    have hv : 1 ≤ optLen expected := by cases expected <;> simp [optLen]
    refine (parses_need (by simp; omega)).bind (parses_term (by omega) (by simp; omega) ?_)
    refine parses_optional (by omega) ((parses_need (by simp; omega)).bind (parses_term (by omega) (by simp) ?_))
    apply (parses_byte _ s).bind
    cases success <;> exact parses_pure _ s
  | batchInsert entries =>
    refine (parses_need (by simp)).bind (parses_batch entries (fun e => 4 + e.1.length + optLen e.2) (fun e => by omega)
      (by omega) (fun e i t he => ?_) (parses_pure _ s))
    exact parses_batchInsertEntry e he i t
  | batchIncrement entries =>
    refine (parses_need (by simp)).bind (parses_batch entries (fun e => 4 + e.1.length + 8) (fun e => by omega)
      (by omega) (fun e i t he => ?_) (parses_pure _ s))
    exact parses_batchIncrementEntry e (by omega) i t
  | versionUpdate a b c d =>
    refine (parses_need (by simp; omega)).bind ((parses_u64 a _).bind ((parses_u64 b _).bind ?_))
    exact (parses_u64 c _).bind ((parses_u64 d s).bind (parses_pure _ s))
  | versionDurable v c =>
    refine (parses_need (by simp; omega)).bind ((parses_u64 v _).bind ((parses_number c.toNat_lt s).bind ?_))
    rw [UInt32.ofNat_toNat]
    exact parses_pure _ s
  | versionGc ids =>
    refine (parses_need (by simp)).bind ((parses_number (by omega) _).bind ((parses_need ?_).bind ?_))
    · simp [length_flatten, comp_def]
    · exact (parses_many ids 0 s (fun v _ _ t => parses_u64 v t)).bind (parses_pure _ s)
  | commitRank l term g =>
    refine (parses_need (by simp; omega)).bind ((parses_u64 l _).bind (parses_term (by omega) (by simp) ?_))
    exact (parses_u64 g s).bind (parses_pure _ s)

theorem deserialize_serializePayload (h : r.payloadLen < 2 ^ 32) :
    WalRecord.deserialize r.recordType r.serializePayload = .ok r := by
  have hp := parses_serializePayload r h []
  rw [append_nil] at hp
  unfold deserialize
  rw [hp]
  rfl

end Dictenstein.Wal
