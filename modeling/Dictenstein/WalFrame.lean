import Dictenstein.WalCodec
/-!
# WalFrame — frames, checksums and the log's reader

A record is framed as `crc32 ‖ total length ‖ LSN ‖ type ‖ payload` (`encode_record_frame` of `core/wal/writer.rs`) and
read by `next_record` of `core/wal/reader.rs`.  A frame shorter than `2 ^ 32` bytes is read back, whatever follows it
(`nextRecord_encode`); a frame cut off anywhere yields no record (`nextRecord_torn`).
-/
namespace Dictenstein.Wal

open Wire List Option

def crcRound (crc : UInt32) : UInt32 :=
  if crc &&& 1 ≠ 0 then (crc >>> 1) ^^^ 0xEDB88320 else crc >>> 1

def crcByte (crc : UInt32) (b : UInt8) : UInt32 := crcRound^[8] (crc ^^^ b.toUInt32)

def crc32 (data : Bytes) : UInt32 := ~~~(data.foldl crcByte 0xFFFFFFFF)

def recordHeaderSize : Nat := 17

variable (lsn : UInt64)

variable (record : WalRecord UInt64)

def frameTail : Bytes :=
  leBytes 4 (recordHeaderSize + record.serializePayload.length) ++
    (u64Bytes lsn ++ (record.recordType.toU8 :: record.serializePayload))

def encodeRecordFrame : Bytes :=
  leBytes 4 (crc32 (frameTail lsn record)).toNat ++ frameTail lsn record

/-- The frame's length is below `2 ^ 32`, so that the `u32` cast of it is the length itself. -/
def WalRecord.Fits : Prop := recordHeaderSize + record.payloadLen < 2 ^ 32

instance (record : WalRecord UInt64) : Decidable record.Fits := inferInstanceAs (Decidable (_ < _))

def hex (n : Nat) : String := "0x" ++ String.ofList (Nat.toDigits 16 n)

/-- `next_record`, with the bytes left to read. A payload that the file ends inside of is consumed whole. -/
def nextRecord (s : Bytes) : Option (Except WalError (UInt64 × WalRecord UInt64) × Bytes) :=
  if s.length < recordHeaderSize then none
  else
    let header := s.take recordHeaderSize
    let rest := s.drop recordHeaderSize
    let storedCrc := leVal (header.take 4)
    let length := leVal ((header.drop 4).take 4)
    let lsn := UInt64.ofNat (leVal ((header.drop 8).take 8))
    let recordTypeByte := (header.drop 16).headD 0
    if length < recordHeaderSize then some (.error (corrupted "Record length too small"), rest)
    else
      let payloadLen := length - recordHeaderSize
      if rest.length < payloadLen then some (.error .unexpectedEof, [])
      else
        let payload := rest.take payloadLen
        let computedCrc := (crc32 (header.drop 4 ++ payload)).toNat
        let result : Except WalError (UInt64 × WalRecord UInt64) :=
          if storedCrc ≠ computedCrc then
            .error (corrupted s!"CRC mismatch: stored={hex storedCrc}, computed={hex computedCrc}")
          else do
            let recordType ← WalRecordType.tryFrom recordTypeByte
            let record ← WalRecord.deserialize recordType payload
            return (lsn, record)
        some (result, rest.drop payloadLen)

/-- Everything the reader returns before the end of the body, errors included. -/
def records (body : Bytes) : List (Except WalError (UInt64 × WalRecord UInt64)) := readAll nextRecord body

def okPrefix {ε α : Type} : List (Except ε α) → List α
  | .ok a :: l => a :: okPrefix l
  | _ => []

/-- The scan of a body that stops at its first error or at its end. -/
def scan (body : Bytes) : List (UInt64 × WalRecord UInt64) := okPrefix (records body)

/-! ## One frame -/

variable (r : WalRecord UInt64)

@[simp] theorem length_frameTail : (frameTail lsn r).length = 13 + r.payloadLen := by
  simp [frameTail, length_serializePayload]; omega

@[simp] theorem length_encodeRecordFrame : (encodeRecordFrame lsn r).length = recordHeaderSize + r.payloadLen := by
  simp [encodeRecordFrame, recordHeaderSize]; omega

theorem frame_header (s : Bytes) : (encodeRecordFrame lsn r ++ s).take recordHeaderSize =
        leBytes 4 (crc32 (frameTail lsn r)).toNat ++ (leBytes 4 (recordHeaderSize + r.payloadLen) ++
          (u64Bytes lsn ++ [r.recordType.toU8])) ∧
      (encodeRecordFrame lsn r ++ s).drop recordHeaderSize = r.serializePayload ++ s := by
  have hsplit : encodeRecordFrame lsn r ++ s =
      (leBytes 4 (crc32 (frameTail lsn r)).toNat ++ (leBytes 4 (recordHeaderSize + r.payloadLen) ++
        (u64Bytes lsn ++ [r.recordType.toU8]))) ++ (r.serializePayload ++ s) := by
    simp [encodeRecordFrame, frameTail, length_serializePayload]
  rw [hsplit]
  exact ⟨take_left' (by simp [recordHeaderSize]), drop_left' (by simp [recordHeaderSize])⟩

theorem frameTail_eq :
    frameTail lsn r = leBytes 4 (recordHeaderSize + r.payloadLen) ++ (u64Bytes lsn ++ [r.recordType.toU8]) ++
      r.serializePayload := by
  simp [frameTail, length_serializePayload]

theorem header_cuts {a b c l : Bytes} {d : UInt8} (hl : l = a ++ (b ++ (c ++ [d]))) (ha : a.length = 4) (hb : b.length = 4)
    (hc : c.length = 8) :
    l.take 4 = a ∧ l.drop 4 = b ++ (c ++ [d]) ∧ (b ++ (c ++ [d])).take 4 = b ∧ (l.drop 8).take 8 = c ∧
      (l.drop 16).headD 0 = d := by
  have h8 : l.drop 8 = c ++ [d] := by
    rw [hl, ← append_assoc]; exact drop_left' (by simp [ha, hb])
  have h16 : l.drop 16 = [d] := by
    rw [hl, ← append_assoc, ← append_assoc]; exact drop_left' (by simp [ha, hb, hc])
  refine ⟨hl ▸ take_left' ha, hl ▸ drop_left' ha, take_left' hb, ?_, ?_⟩
  · rw [h8]; exact take_left' hc
  · rw [h16]; rfl

/-- **A frame shorter than `2 ^ 32` bytes is read back as the record and LSN it was made of**, whatever follows it. -/
theorem nextRecord_encode (hr : r.Fits) (s : Bytes) :
    nextRecord (encodeRecordFrame lsn r ++ s) = some (.ok (lsn, r), s) := by
  unfold WalRecord.Fits recordHeaderSize at hr
  obtain ⟨hh, hd⟩ := frame_header lsn r s
  obtain ⟨c1, c2, c3, c4, c5⟩ := header_cuts hh (by simp) (by simp) (by simp)
  have hcrc : leVal (leBytes 4 (crc32 (frameTail lsn r)).toNat) = (crc32 (frameTail lsn r)).toNat := by
    rw [leVal_leBytes]; exact Nat.mod_eq_of_lt (crc32 (frameTail lsn r)).toNat_lt
  have hlen : leVal (leBytes 4 (recordHeaderSize + r.payloadLen)) = recordHeaderSize + r.payloadLen := by
    rw [leVal_leBytes]; exact Nat.mod_eq_of_lt (by unfold recordHeaderSize; omega)
  have hlsn : UInt64.ofNat (leVal (u64Bytes lsn)) = lsn := by
    have hlt : lsn.toNat < 256 ^ 8 := lsn.toNat_lt
    unfold u64Bytes
    rw [leVal_leBytes, Nat.mod_eq_of_lt hlt, UInt64.ofNat_toNat]
  have htake : (r.serializePayload ++ s).take r.payloadLen = r.serializePayload :=
    take_left' (length_serializePayload r)
  have hdrop : (r.serializePayload ++ s).drop r.payloadLen = s := drop_left' (length_serializePayload r)
  unfold nextRecord
  rw [if_neg (by simp; omega)]
  simp only [hd, c1, c2, c3, c4, c5, hcrc, hlen, hlsn, Nat.add_sub_cancel_left, htake, hdrop]
  rw [if_neg (by omega), if_neg (by simp [length_serializePayload]), ← frameTail_eq, if_neg (by simp), tryFrom_toU8]
  simp only [bind, Except.bind]
  rw [deserialize_serializePayload r (by omega)]
  rfl

/-- **A frame cut off before its end yields no record**, and nothing is left to read after that. -/
theorem nextRecord_torn (hr : r.Fits) (n : Nat) (hn : n < (encodeRecordFrame lsn r).length) :
    nextRecord ((encodeRecordFrame lsn r).take n) = none ∨
      nextRecord ((encodeRecordFrame lsn r).take n) = some (.error .unexpectedEof, []) := by
  rw [length_encodeRecordFrame] at hn
  unfold WalRecord.Fits at hr
  by_cases hlt : n < recordHeaderSize
  · left
    unfold nextRecord
    rw [if_pos (by simp; omega)]
  · right
    obtain ⟨hh, -⟩ := frame_header lsn r []
    rw [append_nil] at hh
    obtain ⟨-, c2, c3, -, -⟩ := header_cuts hh (by simp) (by simp) (by simp)
    have hlen : leVal (leBytes 4 (recordHeaderSize + r.payloadLen)) = recordHeaderSize + r.payloadLen := by
      rw [leVal_leBytes]; exact Nat.mod_eq_of_lt hr
    have htt : ((encodeRecordFrame lsn r).take n).take recordHeaderSize
        = (encodeRecordFrame lsn r).take recordHeaderSize := by
      rw [take_take, Nat.min_eq_left (by omega)]
    unfold nextRecord
    rw [if_neg (by simp; omega)]
    simp only [htt, c2, c3, hlen]
    rw [if_neg (by omega), if_pos (by simp; omega)]

theorem consumes_nextRecord : Consumes nextRecord := by
  intro s b t h
  unfold nextRecord at h
  split at h
  · cases h
  · rename_i hlen
    unfold recordHeaderSize at hlen
    dsimp only at h
    split at h
    · simp only [some.injEq, Prod.mk.injEq] at h
      obtain ⟨-, rfl⟩ := h
      simp [recordHeaderSize]; omega
    · split at h
      · simp only [some.injEq, Prod.mk.injEq] at h
        obtain ⟨-, rfl⟩ := h
        simp; omega
      · simp only [some.injEq, Prod.mk.injEq] at h
        obtain ⟨-, rfl⟩ := h
        simp [recordHeaderSize]; omega

/-! ## Whole bodies -/

variable (e : UInt64 × WalRecord UInt64)

def frame : Bytes := encodeRecordFrame e.1 e.2

variable (es : List (UInt64 × WalRecord UInt64))

def frames : Bytes := (es.map frame).flatten

theorem frames_cons : frames (e :: es) = frame e ++ frames es := rfl

theorem frames_append (es es' : List (UInt64 × WalRecord UInt64)) : frames (es ++ es') = frames es ++ frames es' := by
  simp [frames]

def numbered : Nat → List (WalRecord UInt64) → List (UInt64 × WalRecord UInt64)
  | _, [] => []
  | n, r :: rs => (UInt64.ofNat n, r) :: numbered (n + 1) rs

theorem numbered_append : ∀ (n : Nat) (rs rs' : List (WalRecord UInt64)),
    numbered n (rs ++ rs') = numbered n rs ++ numbered (n + rs.length) rs'
  | n, [], rs' => by simp [numbered]
  | n, r :: rs, rs' => by
    simp only [cons_append, numbered, length_cons]
    rw [numbered_append (n + 1) rs rs', show n + 1 + rs.length = n + (rs.length + 1) by omega]

theorem numbered_map_snd : ∀ (n : Nat) (rs : List (WalRecord UInt64)), (numbered n rs).map Prod.snd = rs
  | _, [] => rfl
  | n, r :: rs => by rw [numbered, map_cons, numbered_map_snd (n + 1) rs]

theorem fits_of_mem_numbered {n : Nat} {rs : List (WalRecord UInt64)} (h : ∀ r ∈ rs, r.Fits) :
    ∀ e ∈ numbered n rs, e.2.Fits := by
  intro e he
  apply h e.2
  have := mem_map_of_mem (f := Prod.snd) he
  rwa [numbered_map_snd] at this

theorem numbered_take_succ {n i : Nat} {log : List (WalRecord UInt64)} {r : WalRecord UInt64} (h : log[i]? = some r) :
    numbered n (log.take (i + 1)) = numbered n (log.take i) ++ [(UInt64.ofNat (n + i), r)] := by
  have hi : i < log.length := (List.getElem?_eq_some_iff.1 h).1
  rw [take_add_one, h, numbered_append, length_take, Nat.min_eq_left (by omega)]
  rfl

theorem records_frame (he : e.2.Fits) (s : Bytes) : records (frame e ++ s) = .ok e :: records s := by
  unfold records frame
  rw [readAll_eq consumes_nextRecord, nextRecord_encode e.1 e.2 he s]

theorem records_frames : ∀ (es : List (UInt64 × WalRecord UInt64)) (s : Bytes), (∀ e ∈ es, e.2.Fits) →
    records (frames es ++ s) = es.map .ok ++ records s
  | [], _, _ => rfl
  | e :: es, s, h => by
    rw [frames_cons, append_assoc, records_frame e (h e (by simp)), records_frames es s (fun x hx => h x (by simp [hx]))]
    rfl

theorem okPrefix_map_ok_append {ε α : Type} (l' : List (Except ε α)) :
    ∀ (l : List α), okPrefix (l.map .ok ++ l') = l ++ okPrefix l'
  | [] => rfl
  | a :: l => by rw [map_cons, cons_append, okPrefix, okPrefix_map_ok_append l' l, cons_append]

theorem scan_frames_append (s : Bytes) (h : ∀ e ∈ es, e.2.Fits) : scan (frames es ++ s) = es ++ scan s := by
  unfold scan
  rw [records_frames es s h, okPrefix_map_ok_append]

theorem scan_nil : scan [] = [] := rfl

theorem scan_frames (h : ∀ e ∈ es, e.2.Fits) : scan (frames es) = es := by
  have := scan_frames_append es [] h
  rwa [scan_nil, append_nil, append_nil] at this

end Dictenstein.Wal
