import Dictenstein.RecoverBatches
import Dictenstein.ReconcileOrder
import Dictenstein.WalRegime
/-!
# SegmentRebuild — replaying a set of WAL segments

Two paths replay a set of log segments that no image covers.  `drain_segments_into_overlay` (`core/overlay/flip.rs`) stops
each segment at its first unreadable record and goes on with the next one; `rebuild_from_wal_segments_regime_aware`
(`core/recovery.rs`) stops altogether there.
-/
namespace Dictenstein.Recovery

open Wire Wal List Option WalHeader

/-- The bytes of a segment's file; `none` if it cannot be opened. -/
abbrev Segment := Option Bytes

def readHeader : Segment → Option WalHeader
  | none => none
  | some file =>
    if file.length < size then none
    else match fromBytes (file.take size) with
      | .ok header => some header
      | .error _ => none

def readSegment (file : Bytes) : List (Except WalError (Nat × WalRecord Nat)) := readLog (file.drop size)

section
variable {σ : Type}

end

def segmentRegime (segment : Segment) : RankRegime := ((readHeader segment).map regime).getD .owned

structure Collected where
  allRecords : Log
  regimeByLsn : Nat → Option RankRegime

namespace Collected

def empty : Collected := ⟨[], fun _ => none⟩

def push (regime : RankRegime) (c : Collected) (entry : Nat × WalRecord Nat) : Collected :=
  ⟨c.allRecords ++ [entry], Function.update c.regimeByLsn entry.1 (some regime)⟩

end Collected

/-! ## Draining into the overlay -/

section
variable {σ : Type}

end

/-! ## The records the two paths read -/

def readable : Segment → Log
  | none => []
  | some file => okPrefix (readSegment file)

def intact : Segment → Bool
  | none => true
  | some file => (readSegment file).all Except.isOk

/-- The records before the first unreadable one of all segments. -/
def durablePrefix : List Segment → Log
  | [] => []
  | segment :: segments => readable segment ++ if intact segment then durablePrefix segments else []

/-- The readable records of the segments behind the one with the first unreadable record. -/
def beyond : List Segment → Log
  | [] => []
  | segment :: segments => if intact segment then beyond segments else segments.flatMap readable

/-- Every segment that opens has a header of the overlay regime. -/
def OverlayRegime (segments : List Segment) : Prop :=
  ∀ segment ∈ segments, segment.isSome = true → segmentRegime segment = .overlay

instance (segments : List Segment) : Decidable (OverlayRegime segments) :=
  inferInstanceAs (Decidable (∀ segment ∈ segments, segment.isSome = true → segmentRegime segment = .overlay))

variable {segments : List Segment} {σ : Type}

theorem OverlayRegime.tail {segment : Segment} (h : OverlayRegime (segment :: segments)) : OverlayRegime segments :=
  fun later hlater => h later (mem_cons_of_mem _ hlater)

theorem OverlayRegime.closed (h : OverlayRegime segments)
    (hany : (segments.any fun segment => (readHeader segment).any fun header => header.regime = .overlay) = false) :
    ∀ file, some file ∉ segments := by
  intro file hfile
  have hnot := any_eq_false.1 hany (some file) hfile
  have hover := h (some file) hfile rfl
  rw [segmentRegime] at hover
  cases hheader : readHeader (some file) with
  | none => rw [hheader] at hover; cases hover
  | some header =>
    rw [hheader] at hover hnot
    exact hnot (decide_eq_true hover)

/-- The log ranks the record, and the record has operations. -/
def applies (log : Log) (e : Nat × WalRecord Nat) : Bool :=
  (rankMap log e.1).isSome && !(recoveredOperationsFromRecord e.1 e.2).isEmpty

/-- Every record that `log` applies is one that its prefix `front` applies, and the ranks of `log` leave these records in the
order that the ranks of `front` give them. -/
def Unmoved (front log : Log) : Prop :=
  (∀ e ∈ log, applies log e = true → e ∈ front ∧ applies front e = true) ∧
    ∀ a ∈ front, ∀ b ∈ front, applies front a = true → applies front b = true →
      (keyLe (rankMap front) a b ↔ keyLe (rankMap log) a b)

instance decidableUnmoved (front log : Log) : Decidable (Unmoved front log) :=
  inferInstanceAs (Decidable ((∀ e ∈ log, applies log e = true → e ∈ front ∧ applies front e = true) ∧
    ∀ a ∈ front, ∀ b ∈ front, applies front a = true → applies front b = true →
      (keyLe (rankMap front) a b ↔ keyLe (rankMap log) a b)))

/-- The readable records are sorted by LSN, and so is the first unreadable one among them, which has the LSN `unreadable`. -/
def SortedAround (unreadable : Nat) (segments : List Segment) : Prop :=
  ((durablePrefix segments).map Prod.fst ++ unreadable :: (beyond segments).map Prod.fst).Pairwise (· < ·)

instance decidableSortedAround (unreadable : Nat) (segments : List Segment) : Decidable (SortedAround unreadable segments) :=
  inferInstanceAs (Decidable
    (((durablePrefix segments).map Prod.fst ++ unreadable :: (beyond segments).map Prod.fst).Pairwise (· < ·)))

end Dictenstein.Recovery
