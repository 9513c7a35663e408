import Mathlib.Data.Finset.Card
/-!
# SuffixTable — the records of a suffix automaton, without its states

A source that was inserted is listed at one state as long as it is active; an index lists the active sources, and their
number is counted (`Listed`).  A record is added or removed (`records_add`, `records_remove`), or the states are renamed
(`Listed.cut`). -/
namespace Dictenstein.Suffix

open Function List Option

variable {U : Type}

/-- The texts of all sources, of every state the sources that end there and their lengths, the active sources and their
number. -/
structure Table (U : Type) where
  texts : List (List U)
  positions : Nat → List (Nat × Nat)
  index : List Nat
  count : Nat

namespace Table

def records [DecidableEq U] (T : Table U) : Finset (Nat × List U) :=
  (T.index.map fun id => (id, T.texts.getD id [])).toFinset

/-- Every source is at one state at most, the index lists the sources that are at a state, and their number is counted. -/
structure Listed (T : Table U) (len : Nat) : Prop where
  entry : ∀ s id stop, (id, stop) ∈ T.positions s → s < len ∧ ∃ t, T.texts[id]? = some t ∧ stop = t.length
  once : ∀ s s' id stop stop', (id, stop) ∈ T.positions s → (id, stop') ∈ T.positions s' → s = s'
  nodup : ∀ s, ((T.positions s).map Prod.fst).Nodup
  index_nodup : T.index.Nodup
  mem_index : ∀ id, id ∈ T.index ↔ ∃ s stop, (id, stop) ∈ T.positions s
  count : T.count = T.index.length

section
variable {T : Table U} {len : Nat}

theorem Listed.mem_records [DecidableEq U] (h : T.Listed len) {id : Nat} {t : List U} :
    (id, t) ∈ T.records ↔ ∃ s, (id, t.length) ∈ T.positions s ∧ T.texts[id]? = some t := by
  rw [records, List.mem_toFinset, List.mem_map]
  constructor
  · rintro ⟨id', hid, heq⟩
    obtain ⟨rfl, rfl⟩ := Prod.mk.inj heq
    obtain ⟨s, stop, hin⟩ := (h.mem_index id').1 hid
    obtain ⟨-, t, ht, rfl⟩ := h.entry s id' stop hin
    have hget : T.texts.getD id' [] = t := by rw [getD_eq_getElem?_getD, ht]; rfl
    rw [hget]
    exact ⟨s, hin, ht⟩
  · rintro ⟨s, hin, ht⟩
    refine ⟨id, (h.mem_index id).2 ⟨s, _, hin⟩, ?_⟩
    rw [getD_eq_getElem?_getD, ht]
    rfl

theorem Listed.card_records [DecidableEq U] (h : T.Listed len) : T.records.card = T.count := by
  rw [records, toFinset_card_of_nodup, length_map, h.count]
  refine h.index_nodup.map fun a b hab => ?_
  exact (Prod.mk.inj hab).1

theorem Listed.new : (⟨[], fun _ => [], [], 0⟩ : Table U).Listed len := by
  refine ⟨nofun, nofun, fun s => nodup_nil, nodup_nil, fun id => ⟨nofun, nofun⟩, rfl⟩

def add (T : Table U) (state : Nat) (text : List U) (index : List Nat) : Table U where
  texts := T.texts ++ [text]
  positions := update T.positions state (T.positions state ++ [(T.texts.length, text.length)])
  index := index
  count := T.count + 1

variable {state : Nat} {text : List U} {index : List Nat}
variable {s id stop len' : Nat}

theorem mem_positions_add : (id, stop) ∈ (T.add state text index).positions s ↔
    (id, stop) ∈ T.positions s ∨ s = state ∧ id = T.texts.length ∧ stop = text.length := by
  show (id, stop) ∈ update T.positions state _ s ↔ _
  rw [update_apply]
  by_cases hs : s = state
  · rw [if_pos hs, mem_append, mem_singleton, Prod.mk.injEq, hs]
    simp
  · rw [if_neg hs]
    simp [hs]

theorem Listed.lt_length (h : T.Listed len) (hin : (id, stop) ∈ T.positions s) : id < T.texts.length := by
  obtain ⟨-, t, ht, -⟩ := h.entry s id stop hin
  exact (List.getElem?_eq_some_iff.1 ht).1

theorem Listed.add (h : T.Listed len) (hlen : len ≤ len') (hstate : state < len')
    (hindex : index.Perm (T.texts.length :: T.index)) : (T.add state text index).Listed len' := by
  have hnew : ∀ s stop, (T.texts.length, stop) ∉ T.positions s := fun s stop hin =>
    absurd (h.lt_length hin) (Nat.lt_irrefl _)
  have hfresh : T.texts.length ∉ T.index := fun hin => by
    obtain ⟨s, stop, hin⟩ := (h.mem_index _).1 hin
    exact hnew s stop hin
  refine ⟨fun s id stop hin => ?_, fun s s' id stop stop' hin hin' => ?_, fun s => ?_, ?_, fun id => ?_, ?_⟩
  · rcases mem_positions_add.1 hin with hin | ⟨rfl, rfl, rfl⟩
    · obtain ⟨hs, t, ht, rfl⟩ := h.entry s id stop hin
      refine ⟨hs.trans_le hlen, t, ?_, rfl⟩
      show (T.texts ++ [text])[id]? = some t
      rw [getElem?_append_left (h.lt_length hin), ht]
    · exact ⟨hstate, text, getElem?_concat_length, rfl⟩
  · rcases mem_positions_add.1 hin with hold | ⟨rfl, rfl, rfl⟩ <;>
      rcases mem_positions_add.1 hin' with hold' | ⟨rfl, heq, -⟩
    · exact h.once s s' id stop stop' hold hold'
    · exact absurd (heq ▸ hold) (hnew s stop)
    · exact absurd hold' (hnew s' stop')
    · rfl
  · show ((update T.positions state _ s).map Prod.fst).Nodup
    rw [update_apply]
    by_cases hs : s = state
    · rw [if_pos hs, map_append, nodup_append]
      refine ⟨h.nodup state, nodup_singleton _, fun a ha b hb hab => ?_⟩
      obtain ⟨⟨id, stop⟩, hin, rfl⟩ := mem_map.1 ha
      have hid : id = T.texts.length := hab.trans (mem_singleton.1 hb)
      exact hnew state stop (hid ▸ hin)
    · rw [if_neg hs]
      exact h.nodup s
  · exact hindex.nodup_iff.2 (nodup_cons.2 ⟨hfresh, h.index_nodup⟩)
  · show id ∈ index ↔ _
    rw [hindex.mem_iff, mem_cons, h.mem_index]
    constructor
    · rintro (rfl | ⟨s, stop, hin⟩)
      · exact ⟨state, text.length, mem_positions_add.2 (.inr ⟨rfl, rfl, rfl⟩)⟩
      · exact ⟨s, stop, mem_positions_add.2 (.inl hin)⟩
    · rintro ⟨s, stop, hin⟩
      rcases mem_positions_add.1 hin with hin | ⟨-, rfl, -⟩
      · exact .inr ⟨s, stop, hin⟩
      · exact .inl rfl
  · show T.count + 1 = index.length
    rw [hindex.length_eq, length_cons, h.count]

theorem Listed.records_add [DecidableEq U] (h : T.Listed len) (hlen : len ≤ len') (hstate : state < len')
    (hindex : index.Perm (T.texts.length :: T.index)) :
    (T.add state text index).records = insert (T.texts.length, text) T.records := by
  ext ⟨id, t⟩
  rw [(h.add hlen hstate hindex).mem_records, Finset.mem_insert, h.mem_records, Prod.mk.injEq]
  constructor
  · rintro ⟨s, hin, ht⟩
    rcases mem_positions_add.1 hin with hin | ⟨-, rfl, -⟩
    · have ht : (T.texts ++ [text])[id]? = some t := ht
      rw [getElem?_append_left (h.lt_length hin)] at ht
      exact .inr ⟨s, hin, ht⟩
    · have ht : (T.texts ++ [text])[T.texts.length]? = some t := ht
      rw [getElem?_concat_length] at ht
      exact .inl ⟨rfl, (some.inj ht).symm⟩
  · rintro (⟨rfl, rfl⟩ | ⟨s, hin, ht⟩)
    · exact ⟨state, mem_positions_add.2 (.inr ⟨rfl, rfl, rfl⟩), getElem?_concat_length⟩
    · refine ⟨s, mem_positions_add.2 (.inl hin), ?_⟩
      show (T.texts ++ [text])[id]? = some t
      rw [getElem?_append_left (h.lt_length hin), ht]

/-! ## Removing -/

def remove (T : Table U) (id state place : Nat) : Table U where
  texts := T.texts
  positions := update T.positions state ((T.positions state).eraseIdx place)
  index := T.index.erase id
  count := T.count - 1

section
variable {id place stop : Nat} (h : T.Listed len) (hin : (T.positions state)[place]? = some (id, stop))
include h hin

theorem Listed.mem_positions_remove {s id' stop' : Nat} :
    (id', stop') ∈ (T.remove id state place).positions s ↔ (id', stop') ∈ T.positions s ∧ id' ≠ id := by
  have hnodup : (T.positions state).Nodup := (h.nodup state).of_map
  obtain ⟨hlt, hget⟩ := List.getElem?_eq_some_iff.1 hin
  have hmem : (id, stop) ∈ T.positions state := hget ▸ getElem_mem hlt
  show (id', stop') ∈ update T.positions state _ s ↔ _
  rw [update_apply]
  by_cases hs : s = state
  · rw [if_pos hs, ← hnodup.erase_getElem place hlt, hget, hnodup.mem_erase_iff, hs, and_comm]
    refine and_congr_right fun hin' => not_congr ⟨fun heq => (Prod.mk.inj heq).1, ?_⟩
    rintro rfl
    exact inj_on_of_nodup_map (h.nodup state) hin' hmem rfl
  · rw [if_neg hs]
    refine ⟨fun hin' => ⟨hin', ?_⟩, And.left⟩
    rintro rfl
    exact hs (h.once s state id' stop' stop hin' hmem)

theorem Listed.remove : (T.remove id state place).Listed len := by
  have hmem : (id, stop) ∈ T.positions state := mem_of_getElem? hin
  have hindex : id ∈ T.index := (h.mem_index id).2 ⟨state, stop, hmem⟩
  refine ⟨fun s id' stop' hin' => ?_, fun s s' id' stop₁ stop₂ h₁ h₂ => ?_, fun s => ?_, h.index_nodup.erase _,
    fun id' => ?_, ?_⟩
  · exact h.entry s id' stop' ((h.mem_positions_remove hin).1 hin').1
  · exact h.once s s' id' stop₁ stop₂ ((h.mem_positions_remove hin).1 h₁).1 ((h.mem_positions_remove hin).1 h₂).1
  · show ((update T.positions state _ s).map Prod.fst).Nodup
    rw [update_apply]
    split
    · exact (h.nodup state).sublist ((eraseIdx_sublist _ _).map Prod.fst)
    · exact h.nodup s
  · show id' ∈ T.index.erase id ↔ _
    rw [h.index_nodup.mem_erase_iff, h.mem_index]
    constructor
    · rintro ⟨hne, s, stop', hin'⟩
      exact ⟨s, stop', (h.mem_positions_remove hin).2 ⟨hin', hne⟩⟩
    · rintro ⟨s, stop', hin'⟩
      obtain ⟨hold, hne⟩ := (h.mem_positions_remove hin).1 hin'
      exact ⟨hne, s, stop', hold⟩
  · show T.count - 1 = (T.index.erase id).length
    rw [length_erase_of_mem hindex, h.count]

theorem Listed.records_remove [DecidableEq U] (ht : T.texts[id]? = some text) :
    (T.remove id state place).records = T.records.erase (id, text) := by
  ext ⟨id', t⟩
  rw [(h.remove hin).mem_records, Finset.mem_erase, h.mem_records, Ne, Prod.mk.injEq]
  constructor
  · rintro ⟨s, hin', ht'⟩
    obtain ⟨hold, hne⟩ := (h.mem_positions_remove hin).1 hin'
    exact ⟨fun heq => hne heq.1, s, hold, ht'⟩
  · rintro ⟨hne, s, hold, ht'⟩
    refine ⟨s, (h.mem_positions_remove hin).2 ⟨hold, fun heq => hne ⟨heq, ?_⟩⟩, ht'⟩
    rw [heq, ht] at ht'
    exact (some.inj ht').symm

end

/-! ## Renaming the states -/

theorem Listed.cut (h : T.Listed len) {positions : Nat → List (Nat × Nat)} {ι : Nat → Nat}
    (hkept : ∀ i < len', positions i = T.positions (ι i)) (hout : ∀ i, len' ≤ i → positions i = [])
    (hinj : ∀ i < len', ∀ j < len', ι i = ι j → i = j) (honto : ∀ s, T.positions s ≠ [] → ∃ i < len', ι i = s) :
    ({ T with positions } : Table U).Listed len' ∧ ∀ id stop, (∃ s, (id, stop) ∈ positions s) ↔
      ∃ s, (id, stop) ∈ T.positions s := by
  have hlt : ∀ {i : Nat} {x : Nat × Nat}, x ∈ positions i → i < len' ∧ x ∈ T.positions (ι i) := by
    intro i x hx
    have hi : i < len' := by
      by_contra hge
      rw [hout i (Nat.le_of_not_lt hge)] at hx
      cases hx
    exact ⟨hi, hkept i hi ▸ hx⟩
  have hiff : ∀ id stop, (∃ s, (id, stop) ∈ positions s) ↔ ∃ s, (id, stop) ∈ T.positions s := by
    intro id stop
    constructor
    · rintro ⟨i, hin⟩
      exact ⟨ι i, (hlt hin).2⟩
    · rintro ⟨s, hin⟩
      obtain ⟨i, hi, rfl⟩ := honto s (ne_nil_of_mem hin)
      exact ⟨i, hkept i hi ▸ hin⟩
  refine ⟨⟨fun i id stop hin => ?_, fun i j id stop stop' hin hin' => ?_, fun i => ?_, h.index_nodup, fun id => ?_, h.count⟩,
    hiff⟩
  · obtain ⟨hi, hin⟩ := hlt hin
    exact ⟨hi, (h.entry _ id stop hin).2⟩
  · obtain ⟨hi, hin⟩ := hlt hin
    obtain ⟨hj, hin'⟩ := hlt hin'
    exact hinj i hi j hj (h.once _ _ id stop stop' hin hin')
  · show ((positions i).map Prod.fst).Nodup
    by_cases hi : i < len'
    · rw [hkept i hi]
      exact h.nodup _
    · rw [hout i (Nat.le_of_not_lt hi)]
      exact nodup_nil
  · rw [h.mem_index, exists_comm]
    exact (exists_congr fun stop => (hiff id stop).symm).trans exists_comm

end
end Table

end Dictenstein.Suffix
