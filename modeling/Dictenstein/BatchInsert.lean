import Dictenstein.OverlayMap
import Dictenstein.StableSort
import Mathlib.Data.Finset.Card
import Mathlib.Data.Prod.Lex
import Mathlib.Data.String.Basic
/-! # BatchInsert — batches of entries, in their order, sorted and grouped

An entry changes its own key only.  So the order of the entries matters for each key alone, and a stable sort keeps it, as
long as different keys of the list are different keys of the trie.  The lossy conversion of bytes to text breaks this.  On a
byte trie the reply to a valued entry looks at what is in memory, so there the count depends on which entry loads an evicted
term. -/

namespace Dictenstein.BatchInsert

open Overlay OverlayNode Function Wire List StableSort

/-! ## Entering a list of keys -/

section Entries
variable {K V σ : Type}

def insertEntries (insertEntry : σ → K × Option V → Bool × σ) : List (K × Option V) → σ → Nat × σ
  | [], s => (0, s)
  | e :: entries, s =>
    let (new, s) := insertEntry s e
    let (inserted, s) := insertEntries insertEntry entries s
    (inserted + new.toNat, s)

/-- How many entries of a batch are hidden at their turn. -/
def hiddenTurns (insertEntry : σ → K × Option V → Bool × σ) (hidden : σ → K × Option V → Bool) :
    List (K × Option V) → σ → Nat
  | [], _ => 0
  | e :: entries, s => hiddenTurns insertEntry hidden entries (insertEntry s e).2 + (hidden s e).toNat

variable [DecidableEq K]

/-- What an entry makes of a map: an entry without a value keeps the one there is. -/
def enter (m : K → Option (Option V)) (e : K × Option V) : K → Option (Option V) :=
  update m e.1 (some (e.2.or (m e.1).join))

/-- The value of the last entry of the key that has one. -/
def lastValue (key : K) (l : List (K × Option V)) : Option V := (l.filter (·.1 = key)).foldl (fun v e => e.2.or v) none

/-- The states in `I` hold the map `view`, and report whether a key is new to it or hidden. -/
def Enters (insertEntry : σ → K × Option V → Bool × σ) (I : σ → Prop) (view : σ → K → Option (Option V))
    (hidden : σ → K × Option V → Bool) : Prop :=
  ∀ s e, I s → I (insertEntry s e).2 ∧ view (insertEntry s e).2 = enter (view s) e ∧
    (insertEntry s e).1.toNat = (view s e.1).isNone.toNat + (hidden s e).toNat

variable {insertEntry : σ → K × Option V → Bool × σ} {I : σ → Prop} {view : σ → K → Option (Option V)}
  {hidden : σ → K × Option V → Bool} {l l' : List (K × Option V)} {s : σ} {key : K}

omit [DecidableEq K] in
theorem foldl_or (l : List (K × Option V)) (v : Option V) :
    l.foldl (fun v e => e.2.or v) v = (l.foldl (fun v e => e.2.or v) none).or v := by
  induction l generalizing v with
  | nil => rfl
  | cons e l ih => rw [foldl_cons, ih, foldl_cons, ih (e.2.or none), Option.or_none, Option.or_assoc]

theorem foldl_enter (m : K → Option (Option V)) (l : List (K × Option V)) (key : K) :
    l.foldl enter m key = if key ∈ l.map Prod.fst then some ((lastValue key l).or (m key).join) else m key := by
  induction l generalizing m with
  | nil => rfl
  | cons e l ih =>
    rw [foldl_cons, ih, lastValue, lastValue]
    by_cases hkey : e.1 = key
    · subst hkey
      simp only [enter, update_self, map_cons, mem_cons, true_or, if_true, filter_cons, decide_true, foldl_cons]
      rw [foldl_or _ (e.2.or none), Option.or_none, Option.or_assoc]
      split
      · rfl
      next hnotin =>
        have hnil : l.filter (·.1 = e.1) = [] := filter_eq_nil_iff.2 fun e' he' h =>
          hnotin (mem_map.2 ⟨e', he', of_decide_eq_true h⟩)
        rw [hnil]
        rfl
    · have hmem : key ∈ (e :: l).map Prod.fst ↔ key ∈ l.map Prod.fst := by simp [Ne.symm hkey]
      rw [enter, update_of_ne (Ne.symm hkey), filter_cons_of_neg (by simpa using hkey)]
      simp only [hmem]

theorem lastValue_eq_none : lastValue key l = none ↔ ∀ e ∈ l, e.1 = key → e.2 = none := by
  have hfold : ∀ l : List (K × Option V), l.foldl (fun v e => e.2.or v) none = none ↔ ∀ e ∈ l, e.2 = none := fun l => by
    induction l with
    | nil => simp
    | cons e l ih => rw [foldl_cons, foldl_or, Option.or_none, Option.or_eq_none_iff, ih, forall_mem_cons, and_comm]
  rw [lastValue, hfold]
  simp

theorem lastValue_map {L : Type} [DecidableEq L] {f : K → L} (hf : Injective f) (key : K) (l : List (K × Option V)) :
    lastValue (f key) (l.map (Prod.map f id)) = lastValue key l := by
  rw [lastValue, lastValue, filter_map, foldl_map]
  simp only [comp_def, Prod.map_fst, Prod.map_snd, id_eq, hf.eq_iff]

-- the keys outside the image have no entry in either list
theorem lastValue_map_iff {L : Type} [DecidableEq L] {f : K → L} (hf : Injective f) :
    (∀ key, lastValue key (l'.map (Prod.map f id)) = lastValue key (l.map (Prod.map f id))) ↔
      ∀ key, lastValue key l' = lastValue key l := by
  refine ⟨fun h key => ?_, fun h key => ?_⟩
  · rw [← lastValue_map hf, h, lastValue_map hf]
  · by_cases hkey : ∃ k, f k = key
    · obtain ⟨k, rfl⟩ := hkey
      rw [lastValue_map hf, lastValue_map hf, h]
    · have hnone (l : List (K × Option V)) : lastValue key (l.map (Prod.map f id)) = none :=
        lastValue_eq_none.2 <| by
          rintro _ he rfl
          obtain ⟨e, -, rfl⟩ := mem_map.1 he
          exact absurd ⟨e.1, rfl⟩ hkey
      rw [hnone, hnone]

theorem insertEntries_spec (h : Enters insertEntry I view hidden) (hs : I s) :
    view (insertEntries insertEntry l s).2 = l.foldl enter (view s) ∧
      (insertEntries insertEntry l s).1 =
        ((l.map Prod.fst).toFinset.filter (view s · = none)).card + hiddenTurns insertEntry hidden l s := by
  induction l generalizing s with
  | nil => exact ⟨rfl, rfl⟩
  | cons e l ih =>
    obtain ⟨hinv, hview, hnew⟩ := h s e hs
    obtain ⟨hmap, hcount⟩ := ih hinv
    refine ⟨by rw [insertEntries, foldl_cons, ← hview]; exact hmap, ?_⟩
    -- the keys that are new behind the entry are those that were new, without the entry's own
    have hrest : (l.map Prod.fst).toFinset.filter (enter (view s) e · = none) =
        ((l.map Prod.fst).toFinset.filter (view s · = none)).erase e.1 := by
      ext key
      by_cases hkey : key = e.1 <;> simp [enter, update_apply, hkey]
    have hcard : (((l.map Prod.fst).toFinset.filter (view s · = none)).erase e.1).card + (view s e.1).isNone.toNat =
        (((e :: l).map Prod.fst).toFinset.filter (view s · = none)).card := by
      rw [map_cons, toFinset_cons, Finset.filter_insert]
      cases hkey : view s e.1 with
      | none => simp [Finset.card_insert_eq_ite, Finset.card_erase_eq_ite]; grind
      | some x => simp [hkey]
    show (insertEntries insertEntry l (insertEntry s e).2).1 + _ = _
    rw [hcount, hview, hrest, hnew, hiddenTurns, ← hcard]
    omega

/-- **Two orders of a batch agree**, in the map and in the count, just if they have the same last value for each key, and as
many entries are hidden at their turn. -/
theorem insertEntries_agree_iff (h : Enters insertEntry I view hidden) (hs : I s) (hperm : l'.Perm l) :
    ((insertEntries insertEntry l' s).1 = (insertEntries insertEntry l s).1 ∧
      view (insertEntries insertEntry l' s).2 = view (insertEntries insertEntry l s).2) ↔
    hiddenTurns insertEntry hidden l' s = hiddenTurns insertEntry hidden l s ∧
      ∀ key, lastValue key l' = lastValue key l := by
  obtain ⟨hmap, hcount⟩ := insertEntries_spec (l := l) h hs
  obtain ⟨hmap', hcount'⟩ := insertEntries_spec (l := l') h hs
  have hkeys (key : K) : key ∈ l'.map Prod.fst ↔ key ∈ l.map Prod.fst := (hperm.map _).mem_iff
  have hset : (l'.map Prod.fst).toFinset = (l.map Prod.fst).toFinset := by
    ext key
    simpa using hkeys key
  rw [hcount, hcount', hset, Nat.add_left_cancel_iff, hmap, hmap', funext_iff]
  refine and_congr_right fun _ => forall_congr' fun key => ?_
  have hnone : lastValue key l' = none ↔ lastValue key l = none := by
    simp only [lastValue_eq_none, hperm.mem_iff]
  rw [foldl_enter, foldl_enter]
  by_cases hkey : key ∈ l.map Prod.fst
  · rw [if_pos hkey, if_pos ((hkeys key).2 hkey)]
    cases hlast : lastValue key l <;> cases hlast' : lastValue key l' <;> simp_all
  · rw [if_neg hkey, if_neg (mt (hkeys key).1 hkey)]
    refine iff_of_true rfl ?_
    have hlast : lastValue key l = none := lastValue_eq_none.2 fun e he heq => absurd (mem_map.2 ⟨e, he, heq⟩) hkey
    rw [hlast, hnone.2 hlast]

end Entries

/-! ## The tries -/

variable {V : Type}

section Model
variable {U : Type} [DecidableEq U] [LT U] [DecidableLT U] (faultIn : FaultIn U V)

/-- `insert_cas_durable` without a value and `upsert_cas_durable_default` with one, on the root. The look of the second
before the append, `present`, decides the reply only. -/
def insertEntry (present : OverlayNode U V → List U → Bool) (root : OverlayNode U V) :
    List U × Option V → Bool × OverlayNode U V
  | (key, none) => match buildFinalPathIterative faultIn root key with
    | .ok new => (true, new)
    | .error _ => (false, root)
  | (key, some v) => match buildValuePathIterative faultIn root key v with
    | .ok new => (!present root key, new)
    | .error _ => (false, root)

end Model

section
variable {T R : Type} [LinearOrder R]

def sortEntries (rank : T → R) (entries : List (T × Option V)) : List (T × Option V) :=
  entries.insertionSort fun a b => rank a.1 ≤ rank b.1

/-- First by the first unit, then by the whole key. -/
def firstThen [LinearOrder T] (first : T) (key : List T) : T ×ₗ List T := toLex (key.headD first, key)

end

def nats (key : Bytes) : List Nat := key.map UInt8.toNat

/-- The walk behind `value_present_faulting` of a byte trie, which loads nothing. -/
def inMemory (root : OverlayNode UInt8 V) (key : Bytes) : Bool := (findLeafIterative root key).isSome

def utf8 (entries : List (String × Option V)) : List (Bytes × Option V) :=
  entries.map (Prod.map (·.toByteArray.data.toList) id)

namespace ByteTrie
variable (faultIn : FaultIn UInt8 V)

def insertBatchBytes : List (Bytes × Option V) → OverlayNode UInt8 V → Nat × OverlayNode UInt8 V :=
  insertEntries (insertEntry faultIn inMemory)

def insertBatch (entries : List (String × Option V)) : OverlayNode UInt8 V → Nat × OverlayNode UInt8 V :=
  insertBatchBytes faultIn (utf8 entries)

def insertBatchSorted (entries : List (String × Option V)) := insertBatch faultIn (sortEntries String.toList entries)

def insertBatchGrouped (entries : List (String × Option V)) :=
  insertBatch faultIn (sortEntries (fun s => firstThen '\x00' s.toList) entries)

def insertBatchBytesSorted (entries : List (Bytes × Option V)) := insertBatchBytes faultIn (sortEntries nats entries)

def insertBatchArenaGrouped (entries : List (Bytes × Option V)) :=
  insertBatchBytes faultIn (sortEntries (firstThen 0 ∘ nats) entries)

end ByteTrie

/-! ## Text from bytes -/

/-- How many bytes a character with this first byte has, none for a byte no character starts with. -/
def utf8CharWidth (b : UInt8) : Nat :=
  if b < 0x80 then 1 else if b < 0xC2 then 0 else if b < 0xE0 then 2 else if b < 0xF0 then 3 else if b < 0xF5 then 4 else 0

def continuation (b : UInt8) : Bool := b &&& 0xC0 = 0x80

def secondByte (first b : UInt8) : Bool :=
  if first = 0xE0 then 0xA0 ≤ b && b ≤ 0xBF
  else if first = 0xED then 0x80 ≤ b && b ≤ 0x9F
  else if first = 0xF0 then 0x90 ≤ b && b ≤ 0xBF
  else if first = 0xF4 then 0x80 ≤ b && b ≤ 0x8F
  else continuation b

/-- The bytes behind the first one that a character can go on with, `need` at most. -/
def accepted (first : UInt8) (need : Nat) : Bytes → Bytes
  | [] => []
  | b :: rest => if need ≠ 0 ∧ secondByte first b then b :: (rest.take (need - 1)).takeWhile continuation else []

def decodeChar (first : UInt8) (rest : Bytes) : Char :=
  Char.ofNat
    (rest.foldl (fun c b => c * 64 + b.toNat % 64) (first.toNat % (if rest = [] then 128 else 2 ^ (6 - rest.length))))

/-- The loop of `from_utf8_lossy`: what cannot be read becomes one replacement character, up to where it went wrong. -/
def lossyChars : Nat → Bytes → List Char
  | 0, _ | _, [] => []
  | fuel + 1, b :: bytes =>
    let rest := accepted b (utf8CharWidth b - 1) bytes
    (if rest.length + 1 = utf8CharWidth b then decodeChar b rest else '\uFFFD') :: lossyChars fuel (bytes.drop rest.length)

def fromUtf8Lossy (bytes : Bytes) : String := .ofList (lossyChars bytes.length bytes)

def texts (entries : List (Bytes × Option V)) : List (String × Option V) := entries.map (Prod.map fromUtf8Lossy id)

/-- The look of a char trie loads what is on disk. -/
def inTrie (faultIn : FaultIn UInt32 V) (root : OverlayNode UInt32 V) (key : List UInt32) : Bool :=
  (entryAt faultIn root key).isSome

namespace CharTrie
variable (faultIn : FaultIn UInt32 V)

def insertBatch (entries : List (String × Option V)) : OverlayNode UInt32 V → Nat × OverlayNode UInt32 V :=
  insertEntries (insertEntry faultIn (inTrie faultIn)) (entries.map (Prod.map (·.toList.map Char.val) id))

def insertBatchChars (entries : List (List Char × Option V)) := insertBatch faultIn (entries.map (Prod.map String.ofList id))

def insertBatchBytes (entries : List (Bytes × Option V)) := insertBatch faultIn (texts entries)

def insertBatchSorted (entries : List (String × Option V)) := insertBatch faultIn (sortEntries String.toList entries)

def insertBatchGrouped (entries : List (String × Option V)) :=
  insertBatch faultIn (sortEntries (fun s => firstThen '\x00' s.toList) entries)

def insertBatchCharsSorted (entries : List (List Char × Option V)) := insertBatchChars faultIn (sortEntries id entries)

def insertBatchCharsGrouped (entries : List (List Char × Option V)) :=
  insertBatchChars faultIn (sortEntries (firstThen '\x00') entries)

def insertBatchBytesSorted (entries : List (Bytes × Option V)) := insertBatchBytes faultIn (sortEntries nats entries)

-- and `insert_batch_arena_grouped`, its alias
def insertBatchBytesGrouped (entries : List (Bytes × Option V)) :=
  insertBatchBytes faultIn (sortEntries (firstThen 0 ∘ nats) entries)

end CharTrie

/-! ## The forms agree -/

section Agree
variable {U : Type} [DecidableEq U] [LT U] [DecidableLT U] {faultIn : FaultIn U V}

/-- A valued entry whose term is there, where the look does not see it. -/
def hidden (faultIn : FaultIn U V) (present : OverlayNode U V → List U → Bool) (root : OverlayNode U V)
    (e : List U × Option V) : Bool :=
  e.2.isSome && (entryAt faultIn root e.1).isSome && !present root e.1

theorem insertEntry_enters {present : OverlayNode U V → List U → Bool}
    (hpresent : ∀ n key, present n key = true → (entryAt faultIn n key).isSome) :
    Enters (insertEntry faultIn present) (WellFormed faultIn) (entryAt faultIn) (hidden faultIn present) := by
  rintro n ⟨key, v⟩ hn
  cases v with
  | none =>
    cases hkey : entryAt faultIn n key with
    | none =>
      obtain ⟨n', hn', hu⟩ := buildFinalPathIterative_absent hn hkey
      simp only [insertEntry, hn']
      exact ⟨hu.wellFormed, by rw [hu.entry]; simp [enter, hkey], rfl⟩
    | some x =>
      have hpresent : entryAt faultIn n key ≠ none := by simp [hkey]
      simp only [insertEntry, buildFinalPathIterative_present hpresent]
      exact ⟨hn, by simp [enter, hkey], rfl⟩
  | some v =>
    obtain ⟨n', hn', hu⟩ := buildValuePathIterative_spec hn key v
    simp only [insertEntry, hn']
    refine ⟨hu.wellFormed, by rw [hu.entry]; simp [enter], ?_⟩
    have hseen := hpresent n key
    cases hp : present n key <;> cases hkey : entryAt faultIn n key <;> simp_all [hidden]

variable {T R : Type} [LinearOrder R]

/-- The form does what the plain batch does. -/
def Agrees (faultIn : FaultIn U V) (form plain : List (T × Option V) → OverlayNode U V → Nat × OverlayNode U V)
    (l : List (T × Option V)) (root : OverlayNode U V) : Prop :=
  (form l root).1 = (plain l root).1 ∧ entryAt faultIn (form l root).2 = entryAt faultIn (plain l root).2

omit [LT U] [DecidableLT U] in
theorem agrees_sort_iff {e : OverlayNode U V → List U × Option V → Bool × OverlayNode U V}
    {hidden : OverlayNode U V → List U × Option V → Bool} (he : Enters e (WellFormed faultIn) (entryAt faultIn) hidden)
    (rank : T → R) (g : T × Option V → List U × Option V)
    {plain : List (T × Option V) → OverlayNode U V → Nat × OverlayNode U V}
    (hplain : ∀ l, plain l = insertEntries e (l.map g)) {l : List (T × Option V)} {root : OverlayNode U V}
    (hroot : WellFormed faultIn root) :
    Agrees faultIn (fun l => plain (sortEntries rank l)) plain l root ↔
      hiddenTurns e hidden ((sortEntries rank l).map g) root = hiddenTurns e hidden (l.map g) root ∧
        ∀ key, lastValue key ((sortEntries rank l).map g) = lastValue key (l.map g) := by
  simp only [Agrees, hplain]
  exact insertEntries_agree_iff he hroot ((perm_insertionSort _ l).map g)

omit [LT U] [DecidableLT U] in
-- equal keys have equal ranks, so a stable sort keeps the entries of each key of the trie in their order
theorem lastValue_sort (rank : T → R) (g : T × Option V → List U × Option V) {l : List (T × Option V)}
    (hg : ∀ a ∈ l, ∀ b ∈ l, (g a).1 = (g b).1 → a.1 = b.1) (key : List U) :
    lastValue key ((sortEntries rank l).map g) = lastValue key (l.map g) := by
  rw [lastValue, lastValue, filter_map, filter_map, sortEntries, filter_insertionSort]
  intro a ha hkey b hb hkey'
  have hkeys : (g a).1 = (g b).1 := by simp_all
  rw [hg a ha b hb hkeys]

end Agree

/-! ## The evicted terms of a byte trie -/

section Evicted
variable (faultIn : FaultIn UInt8 V) (root : OverlayNode UInt8 V)

/-- The entry publishes a path copy that goes through all that is on disk on the way of the key. -/
def opens (key : Bytes) (e : Bytes × Option V) : Bool :=
  (e.2.isSome || (entryAt faultIn root e.1).isNone) && decide (key.take (evictedDepth faultIn root key) <+: e.1)

/-- The term of a valued entry is in the trie and evicted, and no earlier entry loads it. -/
def stillEvicted (earlier : List (Bytes × Option V)) (e : Bytes × Option V) : Bool :=
  e.2.isSome && (entryAt faultIn root e.1).isSome && evictedDepth faultIn root e.1 != 0 &&
    !earlier.any (opens faultIn root e.1)

/-- The entries whose term is evicted at their turn, by the trie before the batch. -/
def evictedTurns : List (Bytes × Option V) → List (Bytes × Option V) → Nat
  | _, [] => 0
  | earlier, e :: entries => evictedTurns (e :: earlier) entries + (stillEvicted faultIn root earlier e).toNat

variable {faultIn root}

theorem evictedTurns_of_resident {earlier l : List (Bytes × Option V)}
    (h : ∀ e ∈ l, e.2.isSome = true → residentOn root e.1 = true) : evictedTurns faultIn root earlier l = 0 := by
  induction l generalizing earlier with
  | nil => rfl
  | cons e l ih =>
    obtain ⟨he, hl⟩ := forall_mem_cons.1 h
    have hseen : stillEvicted faultIn root earlier e = false := by
      cases hv : e.2.isSome with
      | false => simp [stillEvicted, hv]
      | true => simp [stillEvicted, evictedDepth_eq_zero.2 (he hv)]
    rw [evictedTurns, ih hl, hseen]
    rfl

/-- What the entries put in so far have made of the terms and of what is in memory. -/
structure Loaded (faultIn : FaultIn UInt8 V) (root : OverlayNode UInt8 V) (earlier : List (Bytes × Option V))
    (n : OverlayNode UInt8 V) : Prop where
  wellFormed : WellFormed faultIn n
  terms : ∀ key, entryAt faultIn n key = none ↔ entryAt faultIn root key = none ∧ key ∉ earlier.map Prod.fst
  depth : ∀ key, evictedDepth faultIn n key =
    if earlier.any (opens faultIn root key) = true then 0 else evictedDepth faultIn root key

theorem inMemory_enters :
    Enters (insertEntry faultIn inMemory) (WellFormed faultIn) (entryAt faultIn) (hidden faultIn inMemory) :=
  insertEntry_enters fun n key h => by
    obtain ⟨m, hm⟩ := Option.isSome_iff_exists.1 h
    rw [entryAt_of_findLeafIterative hm]
    rfl

variable {earlier : List (Bytes × Option V)} {n : OverlayNode UInt8 V}

theorem evictedDepth_insertEntry (hn : WellFormed faultIn n) (e : Bytes × Option V) (key : Bytes) :
    evictedDepth faultIn (insertEntry faultIn inMemory n e).2 key =
      if (e.2.isSome = true ∨ entryAt faultIn n e.1 = none) ∧ key.take (evictedDepth faultIn n key) <+: e.1 then 0
      else evictedDepth faultIn n key := by
  obtain ⟨k, _ | v⟩ := e
  · cases hk : entryAt faultIn n k with
    | none =>
      obtain ⟨n', hn', -⟩ := buildFinalPathIterative_absent hn hk
      simp [insertEntry, hn', evictedDepth_buildFinalPath hn']
    | some x =>
      have hpresent : entryAt faultIn n k ≠ none := by simp [hk]
      simp [insertEntry, buildFinalPathIterative_present hpresent]
  · obtain ⟨n', hn', -⟩ := buildValuePathIterative_spec hn k v
    simp [insertEntry, hn', evictedDepth_buildValuePath hn']

-- a term that is new with the batch was put in by an entry that opens its way
theorem Loaded.opened (h : Loaded faultIn root earlier n) {key path : Bytes} (hnew : entryAt faultIn root key = none)
    (hkey : entryAt faultIn n key ≠ none) (hpath : path.take (evictedDepth faultIn root path) <+: key) :
    earlier.any (opens faultIn root path) = true := by
  have hmem : key ∈ earlier.map Prod.fst := by_contra fun hnot => hkey ((h.terms key).2 ⟨hnew, hnot⟩)
  obtain ⟨e, he, rfl⟩ := mem_map.1 hmem
  exact any_eq_true.2 ⟨e, he, by simp [opens, hnew, hpath]⟩

theorem Loaded.insertEntry (h : Loaded faultIn root earlier n) (e : Bytes × Option V) :
    Loaded faultIn root (e :: earlier) (insertEntry faultIn inMemory n e).2 := by
  obtain ⟨hwf, hview, -⟩ := inMemory_enters n e h.wellFormed
  refine ⟨hwf, fun key => ?_, fun key => ?_⟩
  · rw [hview, enter, update_apply]
    by_cases hkey : key = e.1
    · simp [hkey]
    · simp [hkey, h.terms]
  · rw [evictedDepth_insertEntry h.wellFormed, h.depth, any_cons]
    cases hany : earlier.any (opens faultIn root key) with
    | true => simp
    | false =>
      have hopens : opens faultIn root key e = true ↔ (e.2.isSome = true ∨ entryAt faultIn n e.1 = none) ∧
          key.take (evictedDepth faultIn root key) <+: e.1 := by
        rw [opens, Bool.and_eq_true, Bool.or_eq_true, decide_eq_true_iff, Option.isNone_iff_eq_none]
        refine and_congr_left fun hpath => or_congr_right ⟨fun hnew => by_contra fun hkey => ?_, fun hnone => ?_⟩
        · rw [h.opened hnew hkey hpath] at hany
          cases hany
        · exact ((h.terms e.1).1 hnone).1
      simp [hopens]

theorem hidden_inMemory (h : Loaded faultIn root earlier n) (e : Bytes × Option V) :
    hidden faultIn inMemory n e = stillEvicted faultIn root earlier e := by
  obtain ⟨k, v⟩ := e
  have hseen : (entryAt faultIn n k).isSome = true → inMemory n k = (evictedDepth faultIn n k == 0) := fun hk => by
    rw [Bool.eq_iff_iff, beq_iff_eq]
    refine ⟨fun hm => ?_, fun hdepth => ?_⟩
    · obtain ⟨m, hm⟩ := Option.isSome_iff_exists.1 hm
      exact evictedDepth_of_findLeafIterative hm
    · rw [entryAt_of_residentOn (evictedDepth_eq_zero.1 hdepth), Option.isSome_map] at hk
      exact hk
  cases hk : entryAt faultIn n k with
  | none => simp [hidden, stillEvicted, hk, ((h.terms k).1 hk).1]
  | some x =>
    rw [hidden, hseen (by rw [hk]; rfl), hk, h.depth, stillEvicted]
    cases hany : earlier.any (opens faultIn root k) with
    | true => simp
    | false =>
      have hroot : entryAt faultIn root k ≠ none := fun hnew => by
        rw [h.opened hnew (by simp [hk]) ( take_prefix _ k)] at hany
        cases hany
      simp [Option.isSome_iff_ne_none.2 hroot, bne]

theorem hiddenTurns_inMemory {l : List (Bytes × Option V)} (h : Loaded faultIn root earlier n) :
    hiddenTurns (BatchInsert.insertEntry faultIn inMemory) (hidden faultIn inMemory) l n =
      evictedTurns faultIn root earlier l := by
  induction l generalizing earlier n with
  | nil => rfl
  | cons e l ih => rw [hiddenTurns, evictedTurns, ih (h.insertEntry e), hidden_inMemory h]

theorem loaded_root (h : WellFormed faultIn root) : Loaded faultIn root [] root := ⟨h, by simp, by simp⟩

end Evicted

theorem hiddenTurns_seen {faultIn : FaultIn UInt32 V} (l : List (List UInt32 × Option V)) (root : OverlayNode UInt32 V) :
    hiddenTurns (insertEntry faultIn (inTrie faultIn)) (hidden faultIn (inTrie faultIn)) l root = 0 := by
  induction l generalizing root with
  | nil => rfl
  | cons e l ih =>
    have hseen : hidden faultIn (inTrie faultIn) root e = false := by
      simp [hidden, inTrie]
    rw [hiddenTurns, hseen, ih]
    rfl

/-- **A sorted or grouped batch against the plain batch.** On a byte trie they do the same just if as many valued entries
find their term evicted at their turn, as when none of them is evicted. On a char trie texts and characters do the same
always, and byte strings just if the sort keeps, for each text, the value of the last entry that converts to it. -/
theorem batches_agree (faultIn : FaultIn UInt8 V) (faultInChar : FaultIn UInt32 V) :
    (∀ root, WellFormed faultIn root →
      (∀ l, Agrees faultIn (ByteTrie.insertBatchSorted faultIn) (ByteTrie.insertBatch faultIn) l root ↔
        evictedTurns faultIn root [] (utf8 (sortEntries String.toList l)) = evictedTurns faultIn root [] (utf8 l)) ∧
      (∀ l, Agrees faultIn (ByteTrie.insertBatchGrouped faultIn) (ByteTrie.insertBatch faultIn) l root ↔
        evictedTurns faultIn root [] (utf8 (sortEntries (fun s => firstThen '\x00' s.toList) l)) =
          evictedTurns faultIn root [] (utf8 l)) ∧
      (∀ l, Agrees faultIn (ByteTrie.insertBatchBytesSorted faultIn) (ByteTrie.insertBatchBytes faultIn) l root ↔
        evictedTurns faultIn root [] (sortEntries nats l) = evictedTurns faultIn root [] l) ∧
      (∀ l, Agrees faultIn (ByteTrie.insertBatchArenaGrouped faultIn) (ByteTrie.insertBatchBytes faultIn) l root ↔
        evictedTurns faultIn root [] (sortEntries (firstThen 0 ∘ nats) l) = evictedTurns faultIn root [] l) ∧
      ∀ l, (∀ e ∈ l, e.2.isSome = true → residentOn root e.1 = true) → evictedTurns faultIn root [] l = 0) ∧
    ∀ root, WellFormed faultInChar root →
      (∀ l, Agrees faultInChar (CharTrie.insertBatchSorted faultInChar) (CharTrie.insertBatch faultInChar) l root) ∧
      (∀ l, Agrees faultInChar (CharTrie.insertBatchGrouped faultInChar) (CharTrie.insertBatch faultInChar) l root) ∧
      (∀ l, Agrees faultInChar (CharTrie.insertBatchCharsSorted faultInChar)
        (CharTrie.insertBatchChars faultInChar) l root) ∧
      (∀ l, Agrees faultInChar (CharTrie.insertBatchCharsGrouped faultInChar)
        (CharTrie.insertBatchChars faultInChar) l root) ∧
      (∀ l, Agrees faultInChar (CharTrie.insertBatchBytesSorted faultInChar) (CharTrie.insertBatchBytes faultInChar) l root ↔
        ∀ text, lastValue text (texts (sortEntries nats l)) = lastValue text (texts l)) ∧
      ∀ l, Agrees faultInChar (CharTrie.insertBatchBytesGrouped faultInChar) (CharTrie.insertBatchBytes faultInChar) l root ↔
        ∀ text, lastValue text (texts (sortEntries (firstThen 0 ∘ nats) l)) = lastValue text (texts l) := by
  have hchar : Enters (insertEntry faultInChar (inTrie faultInChar)) (WellFormed faultInChar) (entryAt faultInChar)
      (hidden faultInChar (inTrie faultInChar)) := insertEntry_enters fun _ _ h => h
  have hbytes : Injective fun s : String => s.toByteArray.data.toList := fun s s' h =>
    String.toByteArray_inj.1 (ByteArray.ext (Array.toList_inj.1 h))
  have hvals : Injective fun s : String => s.toList.map Char.val := fun s s' h =>
    String.toList_inj.1 (map_injective_iff.2 (fun _ _ => Char.ext) h)
  have hchars : Injective String.ofList := fun a b h => by simpa using congrArg String.toList h
  refine ⟨fun root hroot => ⟨fun l => ?_, fun l => ?_, fun l => ?_, fun l => ?_, fun l => evictedTurns_of_resident⟩,
    fun root hroot => ⟨fun l => ?_, fun l => ?_, fun l => ?_, fun l => ?_, fun l => ?_, fun l => ?_⟩⟩
  iterate 2
    refine (agrees_sort_iff inMemory_enters _ _ (fun _ => rfl) hroot).trans ?_
    rw [and_iff_left (lastValue_sort _ _ fun _ _ _ _ h => hbytes h), hiddenTurns_inMemory (loaded_root hroot),
      hiddenTurns_inMemory (loaded_root hroot)]
    rfl
  iterate 2
    refine (agrees_sort_iff inMemory_enters _ id (fun l => by rw [map_id]; rfl) hroot).trans ?_
    rw [and_iff_left (lastValue_sort _ id fun _ _ _ _ h => h), map_id, map_id, hiddenTurns_inMemory (loaded_root hroot),
      hiddenTurns_inMemory (loaded_root hroot)]
  iterate 2
    refine (agrees_sort_iff hchar _ _ (fun _ => rfl) hroot).2 ⟨by simp only [hiddenTurns_seen], ?_⟩
    exact lastValue_sort _ _ fun a _ b _ h => hvals h
  iterate 2
    refine (agrees_sort_iff hchar _ _ (fun l => by rw [← map_map]; rfl) hroot).2 ⟨by simp only [hiddenTurns_seen], ?_⟩
    exact lastValue_sort _ _ fun a _ b _ h => hchars (hvals h)
  iterate 2
    refine (agrees_sort_iff hchar _ _ (fun l => by rw [← map_map]; rfl) hroot).trans ?_
    rw [and_iff_right (by simp only [hiddenTurns_seen])]
    simp only [← map_map]
    exact lastValue_map_iff hvals

def loadsNothing : FaultIn UInt32 Nat := fun _ => .error (.internal "evicted")

/-- A term on disk with a second one below it, also on disk. -/
def twoRecords : FaultIn UInt8 Nat
  | ⟨1⟩ => .ok ⟨true, some 7, [(2, .onDisk ⟨2⟩)]⟩
  | _ => .ok ⟨true, some 8, []⟩

def evicted : OverlayNode UInt8 Nat := ⟨false, none, [(1, .onDisk ⟨1⟩)]⟩

theorem findChild_single {f : Bool} {v : Option Nat} {w u : UInt8} {c x : Child UInt8 Nat}
    (h : (OverlayNode.mk f v [(w, c)]).findChild u = some x) : x = c := by
  rw [findChild, store, findEdge, findEdge, Option.ite_none_right_eq_some] at h
  exact (Option.some.inj h.2).symm

theorem childAt_single {f : Bool} {v : Option Nat} {w u : UInt8} {p : SwizzledPtr} {c m : OverlayNode UInt8 Nat}
    (hp : p.isNull = false) (hload : twoRecords p = .ok m)
    (h : childAt twoRecords (OverlayNode.mk f v [(w, .onDisk p)]) u = some c) : c = m := by
  rw [childAt, resolveOrFault] at h
  cases hfind : (OverlayNode.mk f v [(w, .onDisk p)]).findChild u with
  | none => simp [hfind] at h
  | some x =>
    cases findChild_single hfind
    simpa [hfind, hp, hload] using h.symm

theorem everywhere_evicted {P : OverlayNode UInt8 Nat → Prop} (hroot : P evicted)
    (hone : P ⟨true, some 7, [(2, .onDisk ⟨2⟩)]⟩) (htwo : P ⟨true, some 8, []⟩) : Everywhere twoRecords P evicted := by
  refine everywhere_of_children hroot fun u c hc => ?_
  obtain rfl := childAt_single (p := ⟨1⟩) rfl rfl hc
  refine everywhere_of_children hone fun u c hc => ?_
  obtain rfl := childAt_single (p := ⟨2⟩) rfl rfl hc
  exact everywhere_of_children htwo fun u c hc => by cases hc

theorem wellFormed_evicted : WellFormed twoRecords evicted where
  clean := everywhere_evicted (fun _ => rfl) (fun h => by cases h) (fun h => by cases h)
  resolved := by
    refine everywhere_evicted (fun u p hp => ?_) (fun u p hp => ?_) (fun u p hp => by cases hp)
    all_goals
      cases findChild_single hp
      exact ⟨rfl, _, rfl⟩

/-- Two bytes that are no text become the same text, and the sort changes which of their values is the last; on a byte trie
the longer term, put first, loads the shorter one, and the sort makes both find their term evicted. -/
theorem sorted_batches_differ :
    (let l : List (Bytes × Option Nat) := [([0xFF], some 1), ([0xFE], some 2)]
    entryAt loadsNothing (CharTrie.insertBatchBytes loadsNothing l .new).2 [0xFFFD] = some (some 2) ∧
      entryAt loadsNothing (CharTrie.insertBatchBytesSorted loadsNothing l .new).2 [0xFFFD] = some (some 1)) ∧
    let l : List (Bytes × Option Nat) := [([1, 2], some 5), ([1], some 6)]
    WellFormed twoRecords evicted ∧
      (ByteTrie.insertBatchBytes twoRecords l evicted).1 = 1 ∧
        (ByteTrie.insertBatchBytesSorted twoRecords l evicted).1 = 2 :=
  ⟨by decide +kernel, wellFormed_evicted, by decide +kernel⟩

/-- A sorted list with two bytes that become the same text, and one in which the longer term comes behind. -/
theorem sorted_batches_agree :
    (let l : List (Bytes × Option Nat) := [([0xFE], some 1), ([0xFF], some 2)]
    Agrees loadsNothing (CharTrie.insertBatchBytesSorted loadsNothing) (CharTrie.insertBatchBytes loadsNothing) l .new) ∧
    let l : List (Bytes × Option Nat) := [([1], some 6), ([1, 2], some 5)]
    Agrees twoRecords (ByteTrie.insertBatchBytesSorted twoRecords) (ByteTrie.insertBatchBytes twoRecords) l evicted := by
  have h := batches_agree twoRecords loadsNothing
  refine ⟨((h.2 .new wellFormed_new).2.2.2.2.1 _).2 fun text => ?_, ((h.1 evicted wellFormed_evicted).2.2.1 _).2 ?_⟩
  · have hsorted :
      sortEntries nats [(([0xFE] : Bytes), some 1), ([0xFF], some 2)] = [([0xFE], some 1), ([0xFF], some 2)] := by
      decide +kernel
    rw [hsorted]
  · decide +kernel

end Dictenstein.BatchInsert
