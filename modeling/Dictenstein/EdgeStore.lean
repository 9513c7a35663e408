import Dictenstein.SortedEdges
import Mathlib.Data.Set.Card
/-!
# EdgeStore — the adaptive edge store of an overlay node

`core/adaptive_edge_store.rs`, as it is built without `part_legacy_edge_store`.
-/
namespace Dictenstein

/-! ## Labels -/

namespace AdaptiveLabel

scoped instance linearOrderUInt8 : LinearOrder UInt8 where
  le_refl := UInt8.le_refl
  le_trans _ _ _ := UInt8.le_trans
  le_antisymm _ _ := UInt8.le_antisymm
  le_total := UInt8.le_total
  lt_iff_le_not_ge a b := by rw [UInt8.lt_iff_toNat_lt, UInt8.le_iff_toNat_le, UInt8.le_iff_toNat_le]; omega
  toDecidableLE := inferInstance
  toDecidableLT := inferInstance
  toDecidableEq := inferInstance

scoped instance linearOrderUInt32 : LinearOrder UInt32 where
  le_refl := UInt32.le_refl
  le_trans _ _ _ := UInt32.le_trans
  le_antisymm _ _ := UInt32.le_antisymm
  le_total := UInt32.le_total
  lt_iff_le_not_ge a b := by rw [UInt32.lt_iff_toNat_lt, UInt32.le_iff_toNat_le, UInt32.le_iff_toNat_le]; omega
  toDecidableLE := inferInstance
  toDecidableLT := inferInstance
  toDecidableEq := inferInstance

scoped instance linearOrderUInt64 : LinearOrder UInt64 where
  le_refl := UInt64.le_refl
  le_trans _ _ _ := UInt64.le_trans
  le_antisymm _ _ := UInt64.le_antisymm
  le_total := UInt64.le_total
  lt_iff_le_not_ge a b := by rw [UInt64.lt_iff_toNat_lt, UInt64.le_iff_toNat_le, UInt64.le_iff_toNat_le]; omega
  toDecidableLE := inferInstance
  toDecidableLT := inferInstance
  toDecidableEq := inferInstance

end AdaptiveLabel

open AdaptiveLabel Function

/-- The label types of the store.  Either every label is a byte or none is. -/
class AdaptiveLabel (L : Type) [LinearOrder L] where
  asByte : L → Option UInt8
  adaptiveSortedLimit : Nat
  isByte : Bool
  asByte_isSome : ∀ label, (asByte label).isSome = isByte
  asByte_inj : ∀ {label label' : L} {byte : UInt8}, asByte label = some byte → asByte label' = some byte → label = label'

instance : AdaptiveLabel UInt8 where
  asByte := some
  adaptiveSortedLimit := 64
  isByte := true
  asByte_isSome _ := rfl
  asByte_inj h h' := Option.some.inj (h.trans h'.symm)

instance : AdaptiveLabel UInt32 where
  asByte _ := none
  adaptiveSortedLimit := 64
  isByte := false
  asByte_isSome _ := rfl
  asByte_inj h _ := nomatch h

instance : AdaptiveLabel UInt64 where
  asByte _ := none
  adaptiveSortedLimit := 128
  isByte := false
  asByte_isSome _ := rfl
  asByte_inj h _ := nomatch h

open SortedEdges

/-! ## The store -/

def tinyLimit : Nat := 4

def smallLimit : Nat := 16

def byteIndexedLimit : Nat := 48

def byteIndex48Sentinel : UInt8 := 255

def byteDenseSentinel : UInt16 := 65535

/-- The arrays of 256 positions are functions of the byte, the hash map one of the label. -/
inductive AdaptiveEdgeStore (L C : Type) where
  | tiny (entries : List (L × C))
  | small (entries : List (L × C))
  | sorted (entries : List (L × C))
  | sparseIndexed (positions : L → Option Nat) (entries : List (L × C))
  | byteIndexed48 (index : UInt8 → UInt8) (entries : List (L × C))
  | byteDense256 (index : UInt8 → UInt16) (entries : List (L × C))

inductive ReplacementAllocationSite where
  | entries
  | sparseIndex
deriving DecidableEq, Repr

inductive ExistingReplacementError where
  | empty
  | notStrictlyAscending
  | edgeAbsent
  | tierInvariant
  | allocation (site : ReplacementAllocationSite)
deriving DecidableEq, Repr

inductive Tier where
  | tiny | small | sorted | sparseIndexed | byteIndexed48 | byteDense256
deriving DecidableEq, Repr

namespace AdaptiveEdgeStore

variable {L C : Type}

def tier : AdaptiveEdgeStore L C → Tier
  | tiny _ => .tiny
  | small _ => .small
  | sorted _ => .sorted
  | sparseIndexed _ _ => .sparseIndexed
  | byteIndexed48 _ _ => .byteIndexed48
  | byteDense256 _ _ => .byteDense256

def entries : AdaptiveEdgeStore L C → List (L × C)
  | tiny es | small es | sorted es | sparseIndexed _ es | byteIndexed48 _ es | byteDense256 _ es => es

def len (s : AdaptiveEdgeStore L C) : Nat := s.entries.length

def new : AdaptiveEdgeStore L C := tiny []

variable [LinearOrder L]

def findLinear (label : L) : List (L × C) → Option C
  | [] => none
  | (edge, child) :: es => if edge = label then some child else if label < edge then none else findLinear label es

def findBinary (label : L) (es : List (L × C)) : Option C :=
  match binarySearchByKey label es with
  | .ok pos => es[pos]?.map Prod.snd
  | .error _ => none

def buildSparseIndex (es : List (L × C)) : L → Option Nat :=
  indexFrom (fun positions label idx => update positions label (some idx)) 0 es fun _ => none

variable [AdaptiveLabel L]

def putByte {T : Type} (cast : Nat → T) (index : UInt8 → T) (label : L) (idx : Nat) : UInt8 → T :=
  match asByte label with
  | some byte => update index byte (cast idx)
  | none => index

variable (es : List (L × C))

def buildByteIndex48 : UInt8 → UInt8 := indexFrom (putByte UInt8.ofNat) 0 es fun _ => byteIndex48Sentinel

def buildByteDenseIndex : UInt8 → UInt16 := indexFrom (putByte UInt16.ofNat) 0 es fun _ => byteDenseSentinel

variable (s : AdaptiveEdgeStore L C)

def find (label : L) : Option C :=
  match s with
  | tiny es => findLinear label es
  | small es | sorted es => findBinary label es
  | sparseIndexed positions es => (positions label).bind fun idx => es[idx]?.map Prod.snd
  | byteIndexed48 index es => (asByte label).bind fun byte =>
    if index byte = byteIndex48Sentinel then none else es[(index byte).toNat]?.map Prod.snd
  | byteDense256 index es => (asByte label).bind fun byte =>
    if index byte = byteDenseSentinel then none else es[(index byte).toNat]?.map Prod.snd

def fromSortedEntries : AdaptiveEdgeStore L C :=
  if es.length ≤ tinyLimit then tiny es
  else if es.length ≤ smallLimit then small es
  else if (es.head?.bind fun e => asByte e.1).isSome then
    if es.length ≤ byteIndexedLimit then byteIndexed48 (buildByteIndex48 es) es
    else byteDense256 (buildByteDenseIndex es) es
  else if es.length ≤ adaptiveSortedLimit L then sorted es
  else sparseIndexed (buildSparseIndex es) es

def withEdge (label : L) (child : C) : AdaptiveEdgeStore L C :=
  fromSortedEntries (SortedEdges.withEdge label child s.entries)

def withoutEdge (label : L) : Option (AdaptiveEdgeStore L C) :=
  (SortedEdges.withoutEdge label s.entries).map fromSortedEntries

def mergeExistingReplacements : List (L × C) → List (L × C) → Except ExistingReplacementError (List (L × C))
  | [], [] => .ok []
  | [], _ :: _ => .error .edgeAbsent
  | e :: source, [] => (mergeExistingReplacements source []).map (e :: ·)
  | (label, child) :: source, (label', child') :: replacements =>
    if label' < label then .error .edgeAbsent
    else if label' = label then (mergeExistingReplacements source replacements).map ((label, child') :: ·)
    else (mergeExistingReplacements source ((label', child') :: replacements)).map ((label, child) :: ·)

def ascending : List (L × C) → Bool
  | e :: e' :: es => e.1 < e'.1 && ascending (e' :: es)
  | _ => true

variable (allocates : ReplacementAllocationSite → Bool)

/-- A buffer is reserved, or its site is reported; `allocates` says which reservations succeed. -/
def reserve (site : ReplacementAllocationSite) :
    Except ExistingReplacementError Unit :=
  if allocates site then .ok () else .error (.allocation site)

/-- The inline layouts are within their capacity exactly as long as they have not spilled to the heap. -/
def tryWithExistingReplacements (s : AdaptiveEdgeStore L C)
    (replacements : List (L × C)) : Except ExistingReplacementError (AdaptiveEdgeStore L C) :=
  if replacements.isEmpty then .error .empty
  else if !ascending replacements then .error .notStrictlyAscending
  else match s with
    | tiny source => do
      if source.length > tinyLimit then throw .tierInvariant
      let es ← mergeExistingReplacements source replacements
      return tiny es
    | small source => do
      if source.length > smallLimit then throw .tierInvariant
      let es ← mergeExistingReplacements source replacements
      return small es
    | sorted source => do
      reserve allocates .entries
      let es ← mergeExistingReplacements source replacements
      return sorted es
    | sparseIndexed _ source => do
      reserve allocates .entries
      let es ← mergeExistingReplacements source replacements
      reserve allocates .sparseIndex
      return sparseIndexed (buildSparseIndex es) es
    | byteIndexed48 index source => do
      reserve allocates .entries
      let es ← mergeExistingReplacements source replacements
      return byteIndexed48 index es
    | byteDense256 index source => do
      reserve allocates .entries
      let es ← mergeExistingReplacements source replacements
      return byteDense256 index es

/-! ## Searching -/

omit [AdaptiveLabel L] in
theorem findLinear_eq_lookup (label : L) : ∀ {es : List (L × C)}, Sorted es → findLinear label es = es.lookup label
  | [], _ => rfl
  | (edge, c) :: es, hs => by
    obtain ⟨hedge, hes⟩ := List.pairwise_cons.1 hs
    rw [findLinear, lookup_cons, findLinear_eq_lookup label hes]
    by_cases heq : edge = label
    · rw [if_pos heq, if_pos heq.symm]
    · rw [if_neg heq, if_neg (Ne.symm heq)]
      split
      next hlt => exact (lookup_eq_none_of_forall_lt fun e he => lt_trans hlt (hedge e he)).symm
      next => rfl

def getByte {T : Type} [DecidableEq T] (sentinel : T) (toNat : T → Nat) (index : UInt8 → T) (label : L) : Option Nat :=
  (asByte label).bind fun byte => if index byte = sentinel then none else some (toNat (index byte))

variable {es : List (L × C)} {T : Type} {b : Bool} {limit len : Nat}

theorem getByte_putByte [DecidableEq T] {sentinel : T} {cast : Nat → T} {toNat : T → Nat} {bound : Nat}
    (hbyte : isByte L = true) (hcast : ∀ n < bound, cast n ≠ sentinel ∧ toNat (cast n) = n)
    (index : UInt8 → T) (label other : L) (n : Nat) (hn : n < bound) :
    getByte sentinel toNat (putByte cast index label n) other =
      if other = label then some n else getByte sentinel toNat index other := by
  obtain ⟨byte, hlabel⟩ := Option.isSome_iff_exists.1 ((asByte_isSome label).trans hbyte)
  obtain ⟨byte', hother⟩ := Option.isSome_iff_exists.1 ((asByte_isSome other).trans hbyte)
  simp only [getByte, putByte, hlabel, hother, Option.bind_some]
  by_cases h : other = label
  · have hb : byte' = byte := Option.some.inj (hother.symm.trans (h ▸ hlabel))
    rw [if_pos h, hb, update_self, if_neg (hcast n hn).1, (hcast n hn).2]
  · have hb : byte' ≠ byte := fun hb => h (asByte_inj hother (hb ▸ hlabel))
    rw [if_neg h, update_of_ne hb]

theorem byte_of_lt (n : Nat) (hn : n < 255) : UInt8.ofNat n ≠ byteIndex48Sentinel ∧ (UInt8.ofNat n).toNat = n := by
  have htoNat : (UInt8.ofNat n).toNat = n := UInt8.toNat_ofNat_of_lt' (lt_trans hn (by decide))
  refine ⟨fun h => ?_, htoNat⟩
  rw [h] at htoNat
  exact Nat.ne_of_gt hn htoNat

theorem dense_of_lt (n : Nat) (hn : n < 256) : UInt16.ofNat n ≠ byteDenseSentinel ∧ (UInt16.ofNat n).toNat = n := by
  have htoNat : (UInt16.ofNat n).toNat = n := UInt16.toNat_ofNat_of_lt' (lt_trans hn (by decide))
  refine ⟨fun h => ?_, htoNat⟩
  rw [h] at htoNat
  have hsentinel : byteDenseSentinel.toNat = 65535 := rfl
  omega

theorem empty_getByte [DecidableEq T] (sentinel : T) (toNat : T → Nat) (label : L) :
    getByte sentinel toNat (fun _ => sentinel) label = none := by
  unfold getByte
  cases asByte label with
  | none => rfl
  | some byte => simp

theorem length_le_of_isByte (hbyte : isByte L = true) (hs : Sorted es) : es.length ≤ 256 := by
  set toFin : L → Fin 256 := fun label => ((asByte label).getD 0).toFin with htoFin
  have hinj : Function.Injective toFin := by
    intro label label' h
    obtain ⟨byte, hlabel⟩ := Option.isSome_iff_exists.1 ((asByte_isSome label).trans hbyte)
    obtain ⟨byte', hlabel'⟩ := Option.isSome_iff_exists.1 ((asByte_isSome label').trans hbyte)
    have hb : byte = byte' := by
      have : byte.toFin = byte'.toFin := by simpa [htoFin, hlabel, hlabel'] using h
      exact UInt8.toFin_inj.1 this
    exact asByte_inj hlabel (hb ▸ hlabel')
  have hnodup := ((nodup_of_sorted hs).map hinj).length_le_card
  simpa using hnodup

/-! ## The layout of a number of edges -/

def tierFor (isByte : Bool) (sortedLimit len : Nat) : Tier :=
  if len ≤ tinyLimit then .tiny
  else if len ≤ smallLimit then .small
  else if isByte then if len ≤ byteIndexedLimit then .byteIndexed48 else .byteDense256
  else if len ≤ sortedLimit then .sorted else .sparseIndexed

def ofTier (es : List (L × C)) : Tier → AdaptiveEdgeStore L C
  | .tiny => tiny es
  | .small => small es
  | .sorted => sorted es
  | .sparseIndexed => sparseIndexed (buildSparseIndex es) es
  | .byteIndexed48 => byteIndexed48 (buildByteIndex48 es) es
  | .byteDense256 => byteDense256 (buildByteDenseIndex es) es

theorem head_asByte (h : ¬es.length ≤ tinyLimit) : (es.head?.bind fun e => asByte e.1).isSome = isByte L := by
  cases es with
  | nil => exact absurd (Nat.zero_le _) h
  | cons e es => exact asByte_isSome e.1

theorem fromSortedEntries_eq (es : List (L × C)) :
    fromSortedEntries es = ofTier es (tierFor (isByte L) (adaptiveSortedLimit L) es.length) := by
  unfold fromSortedEntries tierFor
  by_cases htiny : es.length ≤ tinyLimit
  · simp only [htiny, if_true]
    rfl
  · rw [head_asByte htiny]
    repeat' split
    all_goals rfl

theorem tierFor_byteIndexed48 (h : tierFor b limit len = .byteIndexed48) : b = true ∧ len ≤ byteIndexedLimit := by
  unfold tierFor at h
  split_ifs at h with _ _ hb hlen
  exact ⟨hb, hlen⟩

theorem tierFor_byteDense256 (h : tierFor b limit len = .byteDense256) : b = true := by
  unfold tierFor at h
  split_ifs at h with _ _ hb
  exact hb

@[simp] theorem entries_ofTier (es : List (L × C)) (t : Tier) : (ofTier es t).entries = es := by cases t <;> rfl

@[simp] theorem tier_ofTier (es : List (L × C)) (t : Tier) : (ofTier es t).tier = t := by cases t <;> rfl

@[simp] theorem entries_fromSortedEntries (es : List (L × C)) : (fromSortedEntries es).entries = es := by
  rw [fromSortedEntries_eq, entries_ofTier]

omit [AdaptiveLabel L] in
theorem lookup_of_index (put : T → L → Nat → T) (get : T → L → Option Nat) (bound : Nat) {t : T}
    (hput : ∀ t label other n, n < bound → get (put t label n) other = if other = label then some n else get t other)
    (hstart : ∀ label, get t label = none) (hs : Sorted es) (hlen : es.length ≤ bound) (label : L) :
    ((get (indexFrom put 0 es t) label).bind fun idx => es[idx]?.map Prod.snd) = es.lookup label := by
  rw [get_indexFrom hput label 0 t hs (by omega), hstart, Option.or_none, ← position_bind]
  simp

theorem bind_getByte [DecidableEq T] (sentinel : T) (toNat : T → Nat) (index : UInt8 → T) (label : L) (es : List (L × C)) :
    ((getByte sentinel toNat index label).bind fun idx => es[idx]?.map Prod.snd) = (asByte label).bind fun byte =>
        if index byte = sentinel then none else es[toNat (index byte)]?.map Prod.snd := by
  unfold getByte
  cases asByte label with
  | none => rfl
  | some byte =>
    simp only [Option.bind_some]
    split <;> rfl

theorem find_fromSortedEntries (hs : Sorted es) (label : L) : (fromSortedEntries es).find label = es.lookup label := by
  rw [fromSortedEntries_eq]
  cases htier : tierFor (isByte L) (adaptiveSortedLimit L) es.length with
  | tiny => exact findLinear_eq_lookup label hs
  | small | sorted => exact binarySearch_eq_lookup label hs
  | sparseIndexed =>
    refine lookup_of_index _ (fun (positions : L → Option Nat) label => positions label) es.length
      (fun t label other n _ => ?_)
      (fun _ => rfl) hs le_rfl label
    rw [update_apply]
  | byteIndexed48 =>
    obtain ⟨hbyte, hlen⟩ := tierFor_byteIndexed48 htier
    have hindex := lookup_of_index (putByte UInt8.ofNat) (getByte byteIndex48Sentinel UInt8.toNat) 255
      (getByte_putByte hbyte byte_of_lt) (empty_getByte _ _) hs (hlen.trans (by decide)) label
    rw [bind_getByte] at hindex
    exact hindex
  | byteDense256 =>
    have hbyte := tierFor_byteDense256 htier
    have hindex := lookup_of_index (putByte UInt16.ofNat) (getByte byteDenseSentinel UInt16.toNat) 256
      (getByte_putByte hbyte dense_of_lt) (empty_getByte _ _) hs (length_le_of_isByte hbyte hs) label
    rw [bind_getByte] at hindex
    exact hindex

/-! ## Replacing existing edges -/

omit [AdaptiveLabel L] in
theorem ascending_iff : ∀ es : List (L × C), ascending es = true ↔ Sorted es
  | [] => iff_of_true rfl List.Pairwise.nil
  | [_] => iff_of_true rfl (List.pairwise_singleton _ _)
  | e :: e' :: es => by
    rw [ascending, Bool.and_eq_true, decide_eq_true_eq, ascending_iff (e' :: es)]
    refine ⟨fun ⟨hlt, hs⟩ => List.pairwise_cons.2 ⟨fun x hx => ?_, hs⟩, fun h => ?_⟩
    · rcases List.mem_cons.1 hx with rfl | hx
      · exact hlt
      · exact lt_trans hlt ((List.pairwise_cons.1 hs).1 x hx)
    · exact ⟨(List.pairwise_cons.1 h).1 e' List.mem_cons_self, (List.pairwise_cons.1 h).2⟩

def Merged (source replacements : List (L × C)) : Except ExistingReplacementError (List (L × C)) → Prop
  | .ok es => es.map Prod.fst = source.map Prod.fst ∧
      ∀ label, es.lookup label = (replacements.lookup label).or (source.lookup label)
  | .error _ => ∃ e ∈ replacements, source.lookup e.1 = none

section
omit [AdaptiveLabel L]

/-- **The merge of ascending lists** replaces the targets at the labels of the replacements, or one of them has no edge. -/
theorem merged : ∀ {source replacements : List (L × C)}, Sorted source → Sorted replacements →
    Merged source replacements (mergeExistingReplacements source replacements)
  | [], [], _, _ => ⟨rfl, fun _ => rfl⟩
  | [], r :: _, _, _ => ⟨r, List.mem_cons_self, rfl⟩
  | (label, child) :: source, [], hs, _ => by
    have ih : Merged source [] (mergeExistingReplacements source []) :=
      merged (List.pairwise_cons.1 hs).2 List.Pairwise.nil
    rw [mergeExistingReplacements]
    cases hmerge : mergeExistingReplacements source [] with rw [hmerge] at ih
    | error e =>
      obtain ⟨r, hr, -⟩ := ih
      cases hr
    | ok es =>
      refine ⟨congrArg (label :: ·) ih.1, fun other => ?_⟩
      rw [lookup_cons, lookup_cons, ih.2 other]
      rfl
  | (label, child) :: source, (label', child') :: replacements, hs, hr => by
    obtain ⟨hedge, hsource⟩ := List.pairwise_cons.1 hs
    obtain ⟨hnext, hreplacements⟩ := List.pairwise_cons.1 hr
    rw [mergeExistingReplacements]
    by_cases hlt : label' < label
    · rw [if_pos hlt]
      refine ⟨(label', child'), .head _, lookup_eq_none_of_forall_lt fun e he => ?_⟩
      obtain rfl | he := List.mem_cons.1 he
      · exact hlt
      · exact lt_trans hlt (hedge e he)
    rw [if_neg hlt]
    by_cases heq : label' = label
    · subst heq
      rw [if_pos rfl]
      have ih := merged hsource hreplacements
      cases hmerge : mergeExistingReplacements source replacements with rw [hmerge] at ih
      | error e =>
        obtain ⟨r, hmem, hnone⟩ := ih
        refine ⟨r, .tail _ hmem, ?_⟩
        rw [lookup_cons, if_neg (hnext r hmem).ne', hnone]
      | ok es =>
        refine ⟨congrArg (label' :: ·) ih.1, fun other => ?_⟩
        rw [lookup_cons, lookup_cons, lookup_cons, ih.2 other]
        by_cases h : other = label' <;> simp [h]
    · have hgt : label < label' := lt_of_le_of_ne (not_lt.1 hlt) (Ne.symm heq)
      have hbehind : ∀ e ∈ (label', child') :: replacements, label < e.1 := fun e he => by
        obtain rfl | he := List.mem_cons.1 he
        · exact hgt
        · exact lt_trans hgt (hnext e he)
      rw [if_neg heq]
      have ih := merged hsource hr
      cases hmerge : mergeExistingReplacements source ((label', child') :: replacements) with rw [hmerge] at ih
      | error e =>
        obtain ⟨r, hmem, hnone⟩ := ih
        refine ⟨r, hmem, ?_⟩
        rw [lookup_cons, if_neg (hbehind r hmem).ne', hnone]
      | ok es =>
        refine ⟨congrArg (label :: ·) ih.1, fun other => ?_⟩
        rw [lookup_cons other label child es, lookup_cons other label child source, ih.2 other]
        by_cases h : other = label
        · rw [if_pos h, if_pos h, h, lookup_eq_none_of_forall_lt hbehind]
          rfl
        · rw [if_neg h, if_neg h]

end

/-- The layout of a store with other targets at the same labels. -/
def withEntries (es : List (L × C)) : AdaptiveEdgeStore L C → AdaptiveEdgeStore L C
  | tiny _ => tiny es
  | small _ => small es
  | sorted _ => sorted es
  | sparseIndexed _ _ => sparseIndexed (buildSparseIndex es) es
  | byteIndexed48 index _ => byteIndexed48 index es
  | byteDense256 index _ => byteDense256 index es

theorem fromSortedEntries_of_labels {es' : List (L × C)} (h : es.map Prod.fst = es'.map Prod.fst) :
    fromSortedEntries es = (fromSortedEntries es').withEntries es := by
  have hlen : es.length = es'.length := by simpa using congrArg List.length h
  rw [fromSortedEntries_eq, fromSortedEntries_eq, hlen]
  cases tierFor (isByte L) (adaptiveSortedLimit L) es'.length with
  | byteIndexed48 => exact congrArg (byteIndexed48 · es) (indexFrom_congr _ 0 es es' _ h)
  | byteDense256 => exact congrArg (byteDense256 · es) (indexFrom_congr _ 0 es es' _ h)
  | _ => rfl

variable {s s' : AdaptiveEdgeStore L C} {allocates : ReplacementAllocationSite → Bool} {replacements : List (L × C)}

omit [AdaptiveLabel L] in
theorem of_tryWithExistingReplacements (h : s.tryWithExistingReplacements allocates replacements = .ok s') :
    Sorted replacements ∧ ∃ es, mergeExistingReplacements s.entries replacements = .ok es ∧ s' = s.withEntries es := by
  unfold tryWithExistingReplacements at h
  split_ifs at h with hempty hascending
  have hsorted : Sorted replacements := (ascending_iff _).1 (by simpa using hascending)
  refine ⟨hsorted, ?_⟩
  cases s with
  | tiny source | small source | sorted source | sparseIndexed _ source | byteIndexed48 _ source | byteDense256 _ source =>
    show ∃ es, mergeExistingReplacements source replacements = .ok es ∧ _
    cases hmerge : mergeExistingReplacements source replacements with
    | error e =>
      simp only [reserve, hmerge, bind, Except.bind, throw, throwThe, MonadExceptOf.throw] at h
      split_ifs at h
    | ok es =>
      simp only [reserve, hmerge, bind, Except.bind, throw, throwThe, MonadExceptOf.throw, pure, Except.pure] at h
      split_ifs at h
      cases h
      exact ⟨es, rfl, rfl⟩

def Inline : AdaptiveEdgeStore L C → Prop
  | tiny es => es.length ≤ tinyLimit
  | small es => es.length ≤ smallLimit
  | _ => True

theorem inline_fromSortedEntries (es : List (L × C)) : (fromSortedEntries es).Inline := by
  unfold fromSortedEntries
  split
  · assumption
  · split
    · assumption
    · repeat' split
      all_goals exact trivial

variable {es : List (L × C)} {m : L → Option C}

omit [AdaptiveLabel L] in
theorem tryWithExistingReplacements_ok (hinline : s.Inline) (halloc : ∀ site, allocates site = true)
    (hne : replacements ≠ []) (hr : Sorted replacements)
    (hmerge : mergeExistingReplacements s.entries replacements = .ok es) :
    s.tryWithExistingReplacements allocates replacements = .ok (s.withEntries es) := by
  unfold tryWithExistingReplacements
  rw [if_neg (by simpa using hne), if_neg (by simpa using (ascending_iff _).2 hr)]
  cases s with
  | tiny source | small source =>
    have hlen : ¬_ < source.length := Nat.not_lt.2 hinline
    simp only [entries] at hmerge
    simp only [gt_iff_lt, hlen, if_false, hmerge]
    rfl
  | sorted source | sparseIndexed _ source | byteIndexed48 _ source | byteDense256 _ source =>
    simp only [entries] at hmerge
    simp only [reserve, halloc, if_true, hmerge]
    rfl

/-! ## Every sequence of operations -/

/-- A store whose edges ascend, in the layout that is made for them. -/
structure Canonical (s : AdaptiveEdgeStore L C) : Prop where
  sorted : Sorted s.entries
  layout : s = fromSortedEntries s.entries

theorem canonical_fromSortedEntries (hs : Sorted es) : (fromSortedEntries es).Canonical where
  sorted := by rwa [entries_fromSortedEntries]
  layout := by rw [entries_fromSortedEntries]

section
variable (h : s.Canonical)
include h

theorem Canonical.find (label : L) : s.find label = s.entries.lookup label := by
  rw [h.layout, entries_fromSortedEntries]
  exact find_fromSortedEntries h.sorted label

theorem Canonical.withEdge (label : L) (child : C) : (s.withEdge label child).Canonical :=
  canonical_fromSortedEntries (sorted_withEdge label child h.sorted)

theorem Canonical.foldl_withEdge (rs : List (L × C)) : rs.foldl (fun s e => s.withEdge e.1 e.2) s =
    fromSortedEntries (rs.foldl (fun es e => SortedEdges.withEdge e.1 e.2 es) s.entries) := by
  induction rs generalizing s with
  | nil => exact h.layout
  | cons r rs ih =>
    rw [List.foldl_cons, List.foldl_cons, ih (h.withEdge r.1 r.2), AdaptiveEdgeStore.withEdge, entries_fromSortedEntries]

/-- **Replacing existing edges is adding them one after the other**, or an error. -/
theorem Canonical.replaced (hok : s.tryWithExistingReplacements allocates replacements = .ok s') :
    s' = replacements.foldl (fun s e => s.withEdge e.1 e.2) s := by
  obtain ⟨hr, es, hmerge, rfl⟩ := of_tryWithExistingReplacements hok
  have hmerged := merged h.sorted hr
  rw [hmerge] at hmerged
  have hes : es = replacements.foldl (fun es e => SortedEdges.withEdge e.1 e.2 es) s.entries := by
    refine eq_of_lookup ?_ (foldl_withEdge_sorted replacements h.sorted) fun label => ?_
    · rw [sorted_iff_map, hmerged.1, ← sorted_iff_map]
      exact h.sorted
    · rw [hmerged.2, lookup_foldl_withEdge label s.entries hr]
  rw [h.foldl_withEdge, ← hes, fromSortedEntries_of_labels hmerged.1, ← h.layout]

theorem Canonical.replaces (halloc : ∀ site, allocates site = true) (hne : replacements ≠ [])
    (hr : Sorted replacements) (hfound : ∀ e ∈ replacements, (s.entries.lookup e.1).isSome = true) :
    ∃ s', s.tryWithExistingReplacements allocates replacements = .ok s' := by
  have hmerged := merged h.sorted hr
  cases hmerge : mergeExistingReplacements s.entries replacements with
  | error e =>
    rw [hmerge] at hmerged
    obtain ⟨r, hmem, hnone⟩ := hmerged
    have hsome := hfound r hmem
    rw [hnone] at hsome
    cases hsome
  | ok es =>
    have hinline : s.Inline := by
      rw [h.layout]
      exact inline_fromSortedEntries _
    exact ⟨_, tryWithExistingReplacements_ok hinline halloc hne hr hmerge⟩

end

inductive EdgeOp (L C : Type) where
  | withEdge (label : L) (child : C)
  | withoutEdge (label : L)

/-- The store after an operation; a label that has no edge is not taken out. -/
def apply (s : AdaptiveEdgeStore L C) : EdgeOp L C → AdaptiveEdgeStore L C
  | .withEdge label child => s.withEdge label child
  | .withoutEdge label => (s.withoutEdge label).getD s

def update (m : L → Option C) : EdgeOp L C → L → Option C
  | .withEdge label child => Function.update m label (some child)
  | .withoutEdge label => Function.update m label none

structure Agrees (s : AdaptiveEdgeStore L C) (m : L → Option C) : Prop where
  find : ∀ label, s.find label = m label
  ascending : Sorted s.entries
  iter : ∀ label child, (label, child) ∈ s.entries ↔ m label = some child
  len : s.len = {label | (m label).isSome = true}.ncard
  tier : s.tier = tierFor (isByte L) (adaptiveSortedLimit L) s.len

theorem Canonical.agrees (h : s.Canonical) (hm : ∀ label, s.entries.lookup label = m label) : s.Agrees m where
  find label := (h.find label).trans (hm label)
  ascending := h.sorted
  iter label child := by rw [mem_iff_lookup h.sorted, hm]
  len := by
    have hdomain : {label | (m label).isSome = true} = ((s.entries.map Prod.fst).toFinset : Set L) := by
      ext label
      rw [Set.mem_ofPred_eq, ← hm, List.coe_toFinset, Set.mem_ofPred_eq, List.mem_map]
      constructor
      · intro hsome
        obtain ⟨child, hchild⟩ := Option.isSome_iff_exists.1 hsome
        exact ⟨(label, child), mem_of_lookup hchild, rfl⟩
      · rintro ⟨⟨label, child⟩, hmem, rfl⟩
        rw [lookup_of_mem h.sorted hmem]
        rfl
    rw [hdomain, Set.ncard_coe_finset, List.toFinset_card_of_nodup (nodup_of_sorted h.sorted), List.length_map, len]
  tier := by
    rw [h.layout, fromSortedEntries_eq, tier_ofTier, len, entries_ofTier]

theorem Canonical.apply (h : s.Canonical) (hm : ∀ label, s.entries.lookup label = m label)
    (op : EdgeOp L C) : (s.apply op).Canonical ∧ ∀ label, (s.apply op).entries.lookup label = update m op label := by
  cases op with
  | withEdge label child =>
    refine ⟨h.withEdge label child, fun other => ?_⟩
    show (fromSortedEntries _).entries.lookup other = Function.update m label (some child) other
    rw [entries_fromSortedEntries, lookup_withEdge, update_apply, hm]
  | withoutEdge label =>
    have hspec := withoutEdge_spec label h.sorted
    simp only [AdaptiveEdgeStore.apply, AdaptiveEdgeStore.withoutEdge, update]
    cases hout : SortedEdges.withoutEdge label s.entries with rw [hout] at hspec
    | none =>
      refine ⟨h, fun other => ?_⟩
      show s.entries.lookup other = _
      rw [update_apply, hm]
      split
      next heq => rw [heq, ← hm, hspec]
      next => rfl
    | some es =>
      obtain ⟨-, hsub, hlookup⟩ := hspec
      refine ⟨canonical_fromSortedEntries (h.sorted.sublist hsub), fun other => ?_⟩
      show (fromSortedEntries es).entries.lookup other = _
      rw [entries_fromSortedEntries, hlookup, update_apply, hm]

theorem canonical_run : ∀ (ops : List (EdgeOp L C)) {s : AdaptiveEdgeStore L C} {m : L → Option C}, s.Canonical →
    (∀ label, s.entries.lookup label = m label) → (ops.foldl AdaptiveEdgeStore.apply s).Canonical ∧
      ∀ label, (ops.foldl AdaptiveEdgeStore.apply s).entries.lookup label = ops.foldl update m label
  | [], _, _, h, hm => ⟨h, hm⟩
  | op :: ops, _, _, h, hm => canonical_run ops (h.apply hm op).1 (h.apply hm op).2

/-- **After every sequence of operations the store is the finite map of the operations**, in the layout for its number of
edges; taking an edge out succeeds where there is one, and replacing existing edges is adding them, or an error. -/
theorem run_agrees (ops : List (EdgeOp L C)) : let s := ops.foldl AdaptiveEdgeStore.apply new
    let m := ops.foldl update fun _ => none
    s.Agrees m ∧
    (∀ label, (s.withoutEdge label).isSome = (m label).isSome) ∧
    (∀ allocates replacements s', s.tryWithExistingReplacements allocates replacements = .ok s' →
      s' = replacements.foldl (fun s e => s.withEdge e.1 e.2) s) ∧
    ∀ allocates replacements, (∀ site, allocates site = true) → replacements ≠ [] → Sorted replacements →
      (∀ e ∈ replacements, (m e.1).isSome = true) →
      ∃ s', s.tryWithExistingReplacements allocates replacements = .ok s' := by
  intro s m
  obtain ⟨hs, hm⟩ : s.Canonical ∧ ∀ label, s.entries.lookup label = m label :=
    canonical_run ops ⟨List.Pairwise.nil, rfl⟩ fun _ => rfl
  refine ⟨hs.agrees hm, fun label => ?_, fun allocates replacements s' => hs.replaced,
    fun allocates replacements halloc hne hr hfound => hs.replaces halloc hne hr fun e he => by rw [hm]; exact hfound e he⟩
  have hspec := withoutEdge_spec label hs.sorted
  rw [AdaptiveEdgeStore.withoutEdge, Option.isSome_map, ← hm]
  cases hout : SortedEdges.withoutEdge label s.entries with
  | none => rw [hout] at hspec; rw [hspec]; rfl
  | some es => rw [hout] at hspec; exact hspec.1.symm

end AdaptiveEdgeStore

end Dictenstein
