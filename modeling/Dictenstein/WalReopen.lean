import Dictenstein.WalWriter
/-!
# WalReopen — appending to a log that a crash has torn

`open` looks for the largest LSN and then appends at the end of the file, whatever that end is.  If a crash has cut the
file inside a frame the torn bytes stay, and the frames appended behind them are read from inside the torn frame's
length: none of them is found (`reopen_after_torn_frame`).
-/
namespace Dictenstein.Wal

open Wire List WalHeader WalWriter

def wholeRecords : Nat → List (UInt64 × WalRecord UInt64) → List (UInt64 × WalRecord UInt64)
  | _, [] => []
  | n, e :: es => if (frame e).length ≤ n then e :: wholeRecords (n - (frame e).length) es else []

/-- What is left of a frame that the cut after `n` bytes falls inside of. -/
def tornBytes : Nat → List (UInt64 × WalRecord UInt64) → Bytes
  | _, [] => []
  | n, e :: es => if (frame e).length ≤ n then tornBytes (n - (frame e).length) es else (frame e).take n

namespace WalWriter

def appendRecordSegment (w : WalWriter) (record : WalRecord UInt64) : WalWriter :=
  let lsn := w.nextLsn
  let w := { w with nextLsn := w.nextLsn + 1 }
  let offset := w.segmentNextOffset
  let w := { w with segmentNextOffset := offset + (frameAt lsn record).length }
  let w := { w with body := writeAt w.body (offset - size) (frameAt lsn record) }
  w.markSegmentDurable lsn

inductive AppendPath where
  | buffered
  | recordSegment
deriving DecidableEq

def appendVia : AppendPath → WalWriter → WalRecord UInt64 → WalWriter
  | .buffered => append
  | .recordSegment => appendRecordSegment

/-- The file's bytes after the header, once the records are appended and synced. -/
def appendAll (path : AppendPath) (w : WalWriter) (records : List (WalRecord UInt64)) : Bytes :=
  (records.foldl (appendVia path) w).sync.body

end WalWriter

/-! ## The cut -/

theorem take_frames : ∀ (n : Nat) (es : List (UInt64 × WalRecord UInt64)),
    (frames es).take n = frames (wholeRecords n es) ++ tornBytes n es
  | n, [] => by simp [frames, wholeRecords, tornBytes]
  | n, e :: es => by
    unfold wholeRecords tornBytes
    rw [frames_cons]
    by_cases h : (frame e).length ≤ n
    · rw [if_pos h, if_pos h, frames_cons, append_assoc, ← take_frames, take_append, take_of_length_le h]
    · rw [if_neg h, if_neg h, take_append_of_le_length (by omega)]
      rfl

theorem wholeRecords_subset : ∀ (n : Nat) (es : List (UInt64 × WalRecord UInt64)), ∀ e ∈ wholeRecords n es, e ∈ es
  | _, [], _, h => h
  | n, e :: es, x, h => by
    unfold wholeRecords at h
    split at h
    · rcases mem_cons.1 h with rfl | h
      · exact mem_cons_self
      · exact mem_cons_of_mem _ (wholeRecords_subset _ es x h)
    · cases h

theorem records_tornBytes : ∀ (n : Nat) (es : List (UInt64 × WalRecord UInt64)), (∀ e ∈ es, e.2.Fits) →
    records (tornBytes n es) = [] ∨ records (tornBytes n es) = [.error .unexpectedEof]
  | _, [], _ => Or.inl rfl
  | n, e :: es, h => by
    unfold tornBytes
    split
    · exact records_tornBytes _ es (fun x hx => h x (mem_cons_of_mem _ hx))
    · rename_i hlt
      unfold records
      rw [readAll_eq consumes_nextRecord]
      rcases nextRecord_torn e.1 e.2 (h e mem_cons_self) n (by simpa [frame] using hlt) with hnone | heof
      · left
        rw [frame, hnone]
      · right
        rw [frame, heof]
        rfl

theorem scan_tornBytes (n : Nat) (es : List (UInt64 × WalRecord UInt64)) (h : ∀ e ∈ es, e.2.Fits) :
    scan (tornBytes n es) = [] := by
  unfold scan
  rcases records_tornBytes n es h with hr | hr
  · rw [hr]; rfl
  · rw [hr]; rfl

theorem scan_take_frames (n : Nat) (es : List (UInt64 × WalRecord UInt64)) (h : ∀ e ∈ es, e.2.Fits) :
    scan ((frames es).take n) = wholeRecords n es := by
  rw [take_frames, scan_frames_append _ _ (fun e he => h e (wholeRecords_subset n es e he)),
    scan_tornBytes n es h, append_nil]

theorem wholeRecords_isPrefix : ∀ (n : Nat) (es : List (UInt64 × WalRecord UInt64)), wholeRecords n es <+: es
  | _, [] => prefix_rfl
  | n, e :: es => by
    unfold wholeRecords
    split
    · exact cons_prefix_cons.2 ⟨rfl, wholeRecords_isPrefix _ es⟩
    · exact nil_prefix

/-- What `WalReader` returns from a file until it says that the file has ended.  It skips the header unread. -/
def readFile (file : Bytes) : List (Except WalError (UInt64 × WalRecord UInt64)) := records (file.drop size)

/-- **A log reads back as it was written, and cut anywhere as what is whole of it.** Behind a cut the reader ends at once,
or says once that a frame is cut off and then ends. -/
theorem readFile_frames (header : Bytes) (hheader : header.length = size)
    (es : List (UInt64 × WalRecord UInt64)) (hes : ∀ e ∈ es, (encodeRecordFrame e.1 e.2).length < 2 ^ 32) :
    readFile (header ++ frames es) = es.map .ok ∧ (∀ r : WalRecord UInt64, r.payloadLen = r.serializePayload.length) ∧
      ∀ cut, size ≤ cut → wholeRecords (cut - size) es <+: es ∧
          (readFile ((header ++ frames es).take cut) = (wholeRecords (cut - size) es).map .ok ∨
            readFile ((header ++ frames es).take cut) = (wholeRecords (cut - size) es).map .ok ++
              [.error .unexpectedEof]) := by
  have hfits : ∀ e ∈ es, e.2.Fits := fun e he => by simpa [WalRecord.Fits] using hes e he
  refine ⟨?_, fun r => (length_serializePayload r).symm, fun cut hcut => ⟨wholeRecords_isPrefix _ es, ?_⟩⟩
  · have hwhole := records_frames es [] hfits
    rw [append_nil] at hwhole
    rw [readFile, ← hheader, drop_left, hwhole]
    exact append_nil _
  · have hbody : ((header ++ frames es).take cut).drop size =
        frames (wholeRecords (cut - size) es) ++ tornBytes (cut - size) es := by
      rw [drop_take, ← hheader, drop_left, take_frames]
    rw [readFile, hbody, records_frames _ _ (fun e he => hfits e (wholeRecords_subset _ es e he))]
    rcases records_tornBytes (cut - size) es hfits with h | h
    · left
      rw [h, append_nil]
    · right
      rw [h]

/-- Two records behind a header of zeroes, and the file cut five bytes into the second frame. -/
theorem readFile_frames_cut : readFile (List.replicate 64 0 ++ frames [(1, .beginTx 7), (2, .commitTx 7)]) =
        [.ok (1, .beginTx 7), .ok (2, .commitTx 7)] ∧
      wholeRecords 30 [(1, .beginTx 7), (2, .commitTx 7)] = [(1, .beginTx 7)] := by
  have h := readFile_frames (List.replicate 64 0) rfl [(1, .beginTx 7), (2, .commitTx 7)] (by decide +kernel)
  exact ⟨h.1, by decide +kernel⟩

/-! ## Appending -/

theorem foldl_append : ∀ (rs : List (WalRecord UInt64)) (w : WalWriter),
    (rs.foldl append w).body = w.body ∧ (rs.foldl append w).cursor = w.cursor ∧
      (rs.foldl append w).buffer = w.buffer ++ frames (numbered w.nextLsn rs)
  | [], w => by simp [frames, numbered]
  | r :: rs, w => by
    obtain ⟨h1, h2, h3⟩ := foldl_append rs (w.append r)
    rw [foldl_cons]
    refine ⟨h1, h2, ?_⟩
    rw [h3, numbered, frames_cons]
    simp [append, frameAt, frame]

theorem foldl_appendRecordSegment :
    ∀ (rs : List (WalRecord UInt64)) (w : WalWriter), w.segmentNextOffset = size + w.body.length →
    (rs.foldl appendRecordSegment w).body = w.body ++ frames (numbered w.nextLsn rs) ∧
      (rs.foldl appendRecordSegment w).cursor = w.cursor ∧
      (rs.foldl appendRecordSegment w).buffer = w.buffer
  | [], w, _ => by simp [frames, numbered]
  | r :: rs, w, hoff => by
    have hbody : (w.appendRecordSegment r).body = w.body ++ frameAt w.nextLsn r := by
      show writeAt w.body (w.segmentNextOffset - size) _ = _
      rw [hoff, Nat.add_sub_cancel_left, writeAt_length]
    have hoff' : (w.appendRecordSegment r).segmentNextOffset = size + (w.appendRecordSegment r).body.length := by
      rw [hbody, length_append]
      show w.segmentNextOffset + _ = _
      omega
    obtain ⟨h1, h2, h3⟩ := foldl_appendRecordSegment rs (w.appendRecordSegment r) hoff'
    rw [foldl_cons]
    refine ⟨?_, h2, h3⟩
    rw [h1, hbody, numbered, frames_cons, append_assoc]
    rfl

/-- **What a reopened writer appends stands at the end of the file it found**, under the LSNs after the largest it
read. -/
theorem appendAll_openFile (path : WalWriter.AppendPath) (header : WalHeader) (body : Bytes) (m : Option Nat)
    (rs : List (WalRecord UInt64)) :
    (openFile header body m).appendAll path rs = body ++ frames (numbered (openFile header body m).nextLsn rs) := by
  cases path with
  | buffered =>
    obtain ⟨h1, h2, h3⟩ := foldl_append rs (openFile header body m)
    show writeAt (rs.foldl append _).body (rs.foldl append _).cursor
      (rs.foldl append _).buffer = _
    rw [h1, h2, h3]
    exact writeAt_length body _
  | recordSegment =>
    obtain ⟨h1, h2, h3⟩ := foldl_appendRecordSegment rs (openFile header body m)
      (Nat.max_eq_left (Nat.le_add_right _ _))
    show writeAt (rs.foldl appendRecordSegment _).body (rs.foldl appendRecordSegment _).cursor
      (rs.foldl appendRecordSegment _).buffer = _
    rw [h2, h3, h1]
    exact writeAt_nil (by simp [openFile])

/-- **Reopening a log that was cut between two frames, or appending nothing to it**: the scan yields the records that were
whole before the crash and then all the records appended. -/
theorem scan_reopened (path : WalWriter.AppendPath) (header : WalHeader) (es : List (UInt64 × WalRecord UInt64)) (n : Nat)
    (m : Option Nat) (more : List (WalRecord UInt64)) (hes : ∀ e ∈ es, e.2.Fits) (hmore : ∀ r ∈ more, r.Fits)
    (hcut : tornBytes n es = [] ∨ more = []) :
    (scan ((openFile header ((frames es).take n) m).appendAll path more)).map Prod.snd =
      (wholeRecords n es).map Prod.snd ++ more := by
  rw [appendAll_openFile]
  generalize (openFile header ((frames es).take n) m).nextLsn = next
  rcases hcut with hcut | rfl
  · rw [take_frames, hcut, append_nil, ← frames_append, scan_frames, map_append, numbered_map_snd]
    intro e he
    rcases mem_append.1 he with he | he
    · exact hes e (wholeRecords_subset n es e he)
    · exact fits_of_mem_numbered hmore e he
  · rw [numbered, show frames [] = [] from rfl, append_nil, append_nil, scan_take_frames n es hes]

/-- A log of two records is cut five bytes into the second, and one record appended: the scan finds only the first. -/
theorem reopen_after_torn_frame : wholeRecords 30 [(1, .beginTx 7), (2, .commitTx 7)] = [(1, .beginTx 7)] ∧
    (scan ((openFile .new ((frames [(1, .beginTx 7), (2, .commitTx 7)]).take 30) none).appendAll
      .recordSegment [.abortTx 9])).map Prod.snd = [.beginTx 7] := by
  decide +kernel

theorem scan_reopened_whole_frames :
    (scan ((openFile .new ((frames [(1, .beginTx 7), (2, .commitTx 7)]).take 25) none).appendAll
      .recordSegment [.abortTx 9])).map Prod.snd = [.beginTx 7, .abortTx 9] :=
  scan_reopened .recordSegment .new [(1, .beginTx 7), (2, .commitTx 7)] 25 none [.abortTx 9] (by decide) (by decide)
    (Or.inl (by decide +kernel))

end Dictenstein.Wal
