import Mathlib.Data.List.Sort
import Dictenstein.WalReopen
/-!
# WalPrune — which archived segments are deleted

`prune_segments_if_needed` of `core/wal/writer.rs` goes through the archived segments in the order of their first LSNs
and deletes from the oldest on while there are too many of them or they are too large.
-/
namespace Dictenstein.Wal

open Wire List

structure WalConfig where
  maxSegments : Nat
  maxArchiveBytes : Nat
deriving DecidableEq, Repr

structure ArchiveFile where
  name : Bytes
  content : Bytes
deriving DecidableEq, Repr

structure ArchiveDir where
  files : List ArchiveFile
  names_nodup : (files.map ArchiveFile.name).Nodup

def segmentExtension : Bytes := [46, 115, 101, 103, 109, 101, 110, 116]

def recordsOf (file : Bytes) : List (UInt64 × WalRecord UInt64) := (readFile file).filterMap Except.toOption

namespace ArchiveFile

variable (f : ArchiveFile)

/-- The file's extension is "segment": a file called just ".segment" has none. -/
def isSegment : Bool :=
  segmentExtension.isSuffixOf f.name && decide (segmentExtension.length < f.name.length)

def size : Nat := f.content.length

def segmentFirstLsn : Option UInt64 :=
  match nextRecord (f.content.drop WalHeader.size) with
  | some (.ok (lsn, _), _) => some lsn
  | _ => none

/-- The order of `sort_segments_by_first_lsn_tagged`: a segment whose first LSN cannot be read comes last. -/
def before (a b : ArchiveFile) : Bool :=
  match a.segmentFirstLsn, b.segmentFirstLsn with
  | some lsnA, some lsnB => lsnA < lsnB ∨ lsnA = lsnB ∧ a.name ≤ b.name
  | some _, none => true
  | none, some _ => false
  | none, none => a.name ≤ b.name

def walRecords : List (UInt64 × WalRecord UInt64) := recordsOf f.content

end ArchiveFile

def totalSize (segments : List ArchiveFile) : Nat := (segments.map ArchiveFile.size).sum

/-- The pruning test: the first LSN can be read and is not above the checkpoint. -/
def subsumed (checkpointLsn : UInt64) (f : ArchiveFile) : Bool :=
  match f.segmentFirstLsn with
  | some firstLsn => decide (firstLsn ≤ checkpointLsn) && decide (0 < checkpointLsn)
  | none => false

/-- The loop of `prune_segments_if_needed` over the sorted segments. -/
def toRemove (config : WalConfig) (checkpointLsn : UInt64) : Nat → List ArchiveFile → List ArchiveFile
  | _, [] => []
  | currentSize, segment :: rest =>
    let remainingCount := rest.length + 1
    if remainingCount ≤ 1 then []
    else if !subsumed checkpointLsn segment then []
    else if remainingCount > config.maxSegments ∨ currentSize > config.maxArchiveBytes then
      segment :: toRemove config checkpointLsn (currentSize - segment.size) rest
    else []

namespace ArchiveDir

variable (dir : ArchiveDir)

def sortedSegments : List ArchiveFile :=
  (dir.files.filter ArchiveFile.isSegment).insertionSort (ArchiveFile.before · ·)

def pruned (config : WalConfig) (checkpointLsn : UInt64) : List ArchiveFile :=
  toRemove config checkpointLsn (totalSize dir.sortedSegments) dir.sortedSegments

/-- `prune_segments_if_needed` on a directory that exists; every deletion succeeds. -/
def pruneSegmentsIfNeeded (config : WalConfig) (checkpointLsn : UInt64) : ArchiveDir where
  files := dir.files.filter fun f => !((dir.pruned config checkpointLsn).map ArchiveFile.name).contains f.name
  names_nodup := dir.names_nodup.sublist (filter_sublist.map _)

def walRecords : List (UInt64 × WalRecord UInt64) :=
  (dir.files.filter ArchiveFile.isSegment).flatMap ArchiveFile.walRecords

end ArchiveDir

/-! ## What is deleted -/

/-- The segment is not the last one, its first record is covered, and from it on there are too many segments or too many
bytes. -/
def Prunable (config : WalConfig) (checkpointLsn : UInt64) (segment : ArchiveFile) (rest : List ArchiveFile) : Prop :=
  rest ≠ [] ∧ subsumed checkpointLsn segment = true ∧
    (config.maxSegments < rest.length + 1 ∨ config.maxArchiveBytes < totalSize (segment :: rest))

instance (config : WalConfig) (checkpointLsn : UInt64) (segment : ArchiveFile) (rest : List ArchiveFile) :
    Decidable (Prunable config checkpointLsn segment rest) := inferInstanceAs (Decidable (_ ∧ _))

namespace ArchiveFile

instance : IsTrans ArchiveFile (before · ·) := ⟨fun a b c hab hbc => by
  simp only [before] at *
  have hname : a.name ≤ b.name → b.name ≤ c.name → a.name ≤ c.name := List.le_trans
  grind⟩

instance : Std.Total (before · ·) := ⟨fun a b => by
  simp only [before]
  have hname := List.le_total a.name b.name
  grind⟩

theorem subsumed_of_before {checkpointLsn : UInt64} {a b : ArchiveFile} (h : a.before b)
    (hb : subsumed checkpointLsn b = true) : subsumed checkpointLsn a = true := by
  unfold before at h
  unfold Wal.subsumed at *
  grind

end ArchiveFile

theorem totalSize_cons (f : ArchiveFile) (l : List ArchiveFile) : totalSize (f :: l) = f.size + totalSize l := rfl

variable {config : WalConfig} {checkpointLsn : UInt64}

theorem Prunable.of_append {a f : ArchiveFile}
    {before rest : List ArchiveFile} (hle : a.before f) (h : Prunable config checkpointLsn f rest) :
    Prunable config checkpointLsn a (before ++ f :: rest) := by
  obtain ⟨-, hsub, hover⟩ := h
  refine ⟨by simp, ArchiveFile.subsumed_of_before hle hsub, ?_⟩
  simp only [totalSize, map_cons, map_append, sum_cons, sum_append, length_append, length_cons] at hover ⊢
  omega

theorem toRemove_cons (config : WalConfig) (checkpointLsn : UInt64) (f : ArchiveFile) (rest : List ArchiveFile) :
    toRemove config checkpointLsn (totalSize (f :: rest)) (f :: rest) =
      if Prunable config checkpointLsn f rest then f :: toRemove config checkpointLsn (totalSize rest) rest else [] := by
  have hsize : totalSize (f :: rest) - f.size = totalSize rest := by
    rw [totalSize_cons, Nat.add_sub_cancel_left]
  rw [toRemove, hsize]
  unfold Prunable
  obtain _ | ⟨g, rest⟩ := rest
  · simp
  · by_cases hs : subsumed checkpointLsn f = true <;> simp [hs]

/-- **The loop deletes exactly the segments that are prunable where they stand**: the segments before a prunable one are
prunable too. -/
theorem mem_toRemove_iff {f : ArchiveFile} : ∀ {l : List ArchiveFile}, l.Pairwise (ArchiveFile.before · ·) →
      (f ∈ toRemove config checkpointLsn (totalSize l) l ↔
        ∃ before rest, l = before ++ f :: rest ∧ Prunable config checkpointLsn f rest)
  | [], _ => by simp [toRemove]
  | a :: l, hl => by
    obtain ⟨ha, hl⟩ := pairwise_cons.1 hl
    rw [toRemove_cons]
    constructor
    · intro hf
      split at hf
      · rename_i hprune
        obtain rfl | hf := mem_cons.1 hf
        · exact ⟨[], l, rfl, hprune⟩
        · obtain ⟨before, rest, rfl, h⟩ := (mem_toRemove_iff hl).1 hf
          exact ⟨a :: before, rest, rfl, h⟩
      · cases hf
    · rintro ⟨before, rest, heq, h⟩
      obtain ⟨rfl, heq⟩ | ⟨before', rfl, rfl⟩ := cons_eq_append_iff.1 heq
      · obtain ⟨rfl, rfl⟩ := cons.inj heq
        rw [if_pos h]
        exact .head _
      · rw [if_pos (h.of_append (ha f (by simp)))]
        exact .tail _ ((mem_toRemove_iff hl).2 ⟨before', rest, rfl, h⟩)

/-! ## What is lost -/

namespace ArchiveDir

variable {dir : ArchiveDir} {config : WalConfig} {checkpointLsn : UInt64} {f : ArchiveFile}

theorem mem_pruned_iff : f ∈ dir.pruned config checkpointLsn ↔
    ∃ before rest, dir.sortedSegments = before ++ f :: rest ∧ Prunable config checkpointLsn f rest :=
  mem_toRemove_iff (pairwise_insertionSort (ArchiveFile.before · ·) _)

theorem mem_sortedSegments : f ∈ dir.sortedSegments ↔ f ∈ dir.files ∧ f.isSegment = true := by
  unfold sortedSegments
  rw [mem_insertionSort, mem_filter]

theorem mem_files_of_pruned (h : f ∈ dir.pruned config checkpointLsn) : f ∈ dir.files ∧ f.isSegment = true := by
  obtain ⟨before, rest, hsplit, -⟩ := mem_pruned_iff.1 h
  rw [← mem_sortedSegments, hsplit]
  simp

theorem mem_pruneSegmentsIfNeeded : f ∈ (dir.pruneSegmentsIfNeeded config checkpointLsn).files ↔
    f ∈ dir.files ∧ f ∉ dir.pruned config checkpointLsn := by
  unfold pruneSegmentsIfNeeded
  rw [mem_filter]
  refine and_congr_right fun hf => ?_
  rw [Bool.not_eq_true', contains_eq_mem, decide_eq_false_iff_not, mem_map, not_iff_not]
  constructor
  · rintro ⟨g, hg, hname⟩
    have hgf : g = f := inj_on_of_nodup_map dir.names_nodup (mem_files_of_pruned hg).1 hf hname
    rwa [← hgf]
  · exact fun h => ⟨f, h, rfl⟩

theorem mem_walRecords {e : UInt64 × WalRecord UInt64} :
    e ∈ dir.walRecords ↔ ∃ f ∈ dir.files, f.isSegment = true ∧ e ∈ f.walRecords := by
  unfold walRecords
  simp only [mem_flatMap, mem_filter, and_assoc]

end ArchiveDir

/-- **When pruning loses nothing**: it deletes no segment with a record above the checkpoint, and what is left has all such
records, exactly if every segment that is prunable where it stands lies below the checkpoint with all its records. -/
theorem prune_safe_iff (dir : ArchiveDir) (config : WalConfig) (checkpointLsn : UInt64) (active : Bytes) :
    ((∀ f ∈ dir.files, f ∉ (dir.pruneSegmentsIfNeeded config checkpointLsn).files →
      ∀ e ∈ f.walRecords, ¬ checkpointLsn < e.1) ∧
        ∀ e, checkpointLsn < e.1 → e ∈ dir.walRecords ++ recordsOf active →
          e ∈ (dir.pruneSegmentsIfNeeded config checkpointLsn).walRecords ++ recordsOf active) ↔
      ∀ before f rest, dir.sortedSegments = before ++ f :: rest → Prunable config checkpointLsn f rest →
        ∀ e ∈ f.walRecords, ¬ checkpointLsn < e.1 := by
  constructor
  · rintro ⟨hdeleted, -⟩ before f rest hsplit hprunable
    have hf : f ∈ dir.pruned config checkpointLsn := ArchiveDir.mem_pruned_iff.2 ⟨before, rest, hsplit, hprunable⟩
    exact hdeleted f (ArchiveDir.mem_files_of_pruned hf).1 fun h => (ArchiveDir.mem_pruneSegmentsIfNeeded.1 h).2 hf
  · intro hsafe
    have hpruned : ∀ f ∈ dir.pruned config checkpointLsn, ∀ e ∈ f.walRecords, ¬ checkpointLsn < e.1 := by
      intro f hf
      obtain ⟨before, rest, hsplit, hprunable⟩ := ArchiveDir.mem_pruned_iff.1 hf
      exact hsafe before f rest hsplit hprunable
    constructor
    · intro f hf hgone
      apply hpruned f
      by_contra hkept
      exact hgone (ArchiveDir.mem_pruneSegmentsIfNeeded.2 ⟨hf, hkept⟩)
    · intro e he hmem
      obtain hmem | hmem := mem_append.1 hmem
      · obtain ⟨f, hf, hseg, hef⟩ := ArchiveDir.mem_walRecords.1 hmem
        have hkept : f ∉ dir.pruned config checkpointLsn := fun h => hpruned f h e hef he
        apply mem_append_left
        exact ArchiveDir.mem_walRecords.2 ⟨f, ArchiveDir.mem_pruneSegmentsIfNeeded.2 ⟨hf, hkept⟩, hseg, hef⟩
      · exact mem_append_right _ hmem

def twoSegments : ArchiveDir where
  files :=
    [⟨97 :: segmentExtension, List.replicate 64 0 ++ frames [(1, .beginTx 7), (2, .commitTx 7)]⟩,
      ⟨98 :: segmentExtension, List.replicate 64 0 ++ frames [(3, .beginTx 8)]⟩]
  names_nodup := by decide

/-- With the checkpoint at 1 and one segment allowed, the first segment is deleted, and the record 2 with it. -/
theorem prune_deletes_past_checkpoint : (2, .commitTx 7) ∈ twoSegments.walRecords ∧
      ((twoSegments.pruneSegmentsIfNeeded ⟨1, 1048576⟩ 1).walRecords ++ recordsOf []) = [(3, .beginTx 8)] := by
  decide +kernel

/-- With the checkpoint at 2 the same segment is deleted, and nothing above the checkpoint is lost. -/
theorem prune_safe_covered : (twoSegments.pruneSegmentsIfNeeded ⟨1, 1048576⟩ 2).files.length = 1 ∧
      ∀ e, 2 < e.1 → e ∈ twoSegments.walRecords ++ recordsOf [] →
        e ∈ (twoSegments.pruneSegmentsIfNeeded ⟨1, 1048576⟩ 2).walRecords ++ recordsOf [] := by
  refine ⟨by decide +kernel, ((prune_safe_iff twoSegments ⟨1, 1048576⟩ 2 []).2 ?_).2⟩
  intro before f rest hsplit hprunable
  have hsorted : twoSegments.sortedSegments = twoSegments.files := by decide +kernel
  rw [hsorted, twoSegments] at hsplit
  obtain _ | ⟨x, _ | ⟨y, before⟩⟩ := before
  · obtain ⟨rfl, -⟩ := cons.inj hsplit
    decide +kernel
  · obtain ⟨-, hsplit⟩ := cons.inj hsplit
    exact absurd (cons.inj hsplit).2.symm hprunable.1
  · simp at hsplit

end Dictenstein.Wal
