import Dictenstein.SuffixCompact
/-!
# SuffixSerialize — suffix automata written as their source texts

Both serializers write `source_texts`, the texts of all records, removed ones too; the protobuf message has `string_count`
beside them.  Reading inserts the texts into a new automaton, and for a message only if there are `string_count` of them.
-/
namespace Dictenstein.Suffix

open List Option SuffixAutomatonInner AdaptiveLabel

variable {U V : Type} [LinearOrder U]

inductive TextCall (U : Type)
  | insert (text : List U)
  | remove (text : List U)
  | compact
  | clear

def TextCall.call : TextCall U → Call U V
  | .insert text => .insert text
  | .remove text => .remove text
  | .compact => .compact
  | .clear => .clear

def fromTexts (texts : List (List U)) : Option (SuffixAutomatonInner U V) := insertTexts (texts.map (·, none))

structure Message (U : Type) where
  sourceTexts : List (List U)
  stringCount : Nat

def serializeSuffixAutomaton (inner : SuffixAutomatonInner U V) : Message U := ⟨inner.sourceTexts, inner.stringCount⟩

def deserializeSuffixAutomaton (m : Message U) : Except String (Option (SuffixAutomatonInner U V)) :=
  if m.sourceTexts.length ≠ m.stringCount then
    .error s!"String count mismatch: expected {m.stringCount}, got {m.sourceTexts.length}"
  else .ok (fromTexts m.sourceTexts)

/-- A record was removed, or the automaton is the one its texts give. -/
def Written (inner : SuffixAutomatonInner U V) : Prop :=
  inner.stringCount < inner.sourceTexts.length ∨ inner.stringCount = inner.sourceTexts.length ∧
    inner.needsCompaction = false ∧ fromTexts inner.sourceTexts = some inner

variable {inner : SuffixAutomatonInner U V} {texts : List (List U)}

theorem fromTexts_append (h : fromTexts texts = some inner) (text : List U) :
    fromTexts (texts ++ [text]) = inner.insertTextIntoInner text none := by
  rw [fromTexts, insertTexts] at h ⊢
  rw [map_append, foldlM_append, h, map_singleton]
  show (inner.insertTextIntoInner text none >>= pure) = _
  exact bind_pure _

theorem written_new : Written (new : SuffixAutomatonInner U V) := .inr ⟨rfl, rfl, rfl⟩

theorem Written.remove (h : Written inner) (text : List U) : Written (inner.remove text).2 := by
  have hfound := found_removeLocation inner text
  rw [SuffixAutomatonInner.remove]
  cases hloc : inner.removeLocation text with
  | none => exact h
  | some found =>
    rw [hloc] at hfound
    obtain ⟨⟨stop, -, hr⟩, -⟩ := hfound
    have hlt : found.1 < inner.sourceTexts.length := SuffixClasses.lt_of_node (isRecordOf_iff.1 hr).2
    have hle : inner.stringCount ≤ inner.sourceTexts.length := h.elim le_of_lt fun h => h.1.le
    exact .inl (show inner.stringCount - 1 < inner.sourceTexts.length by omega)

theorem Written.call (h : Written inner) (hinv : Inv inner texts []) (c : TextCall U) : ∃ inner' texts',
    Suffix.call inner c.call = some inner' ∧ Written inner' ∧ Inv inner' texts' [] := by
  cases c with
  | insert text =>
    obtain ⟨inner', hok, hinv'⟩ := hinv.insertTextIntoInner text none
    obtain ⟨_, _, -, -, -, -, hsources, hcount, hneeds⟩ := hinv.table_insertTextIntoInner hok
    refine ⟨inner', _, hok, ?_, hinv'⟩
    rw [Written, hsources, hcount, hneeds, length_append, length_singleton]
    refine h.imp Nat.succ_lt_succ fun ⟨heq, hfalse, hfrom⟩ => ⟨congrArg (· + 1) heq, hfalse, ?_⟩
    exact (fromTexts_append hfrom text).trans hok
  | remove text =>
      exact ⟨_, texts, rfl, h.remove text, by unfold SuffixAutomatonInner.remove; split <;> exact ⟨hinv.reading, hinv.final⟩⟩
  | compact =>
    obtain ⟨inner', hok, hinv', hsources, hcount, hsame⟩ := hinv.compact
    refine ⟨inner', texts, hok, ?_, hinv'⟩
    obtain hlt | hfrom := h
    · exact .inl (by rw [hsources, hcount]; exact hlt)
    · rw [hsame hfrom.2.1]
      exact .inr hfrom
  | clear =>
    show ∃ inner' texts', some inner.clear = some inner' ∧ _
    rw [SuffixAutomatonInner.clear]
    split
    · exact ⟨inner, texts, rfl, h, hinv⟩
    · exact ⟨new, [], rfl, written_new, Inv.new⟩

theorem Written.run (h : Written inner) (hinv : Inv inner texts []) (calls : List (TextCall U)) : ∃ inner',
    Runs.run Suffix.call (calls.map TextCall.call) inner = some inner' ∧ Written inner' := by
  induction calls generalizing inner texts with
  | nil => exact ⟨inner, rfl, h⟩
  | cons c calls ih =>
    obtain ⟨inner₁, texts₁, hok, h₁, hinv₁⟩ := h.call hinv c
    obtain ⟨inner₂, hrun, h₂⟩ := ih h₁ hinv₁
    exact ⟨inner₂, Runs.run_cons.2 ⟨inner₁, hok, hrun⟩, h₂⟩

theorem fromTexts_spec (texts : List (List U)) : ∃ inner : SuffixAutomatonInner U V, fromTexts texts = some inner ∧
    inner.stringCount = texts.length ∧ ∃ words, Inv inner words [] := by
  induction texts using reverseRecOn with
  | nil => exact ⟨new, rfl, rfl, [], Inv.new⟩
  | append_singleton texts text ih =>
    obtain ⟨inner, hfrom, hcount, words, hinv⟩ := ih
    obtain ⟨inner', hok, hinv'⟩ := hinv.insertTextIntoInner text none
    obtain ⟨_, _, -, -, -, -, -, hcount', -⟩ := hinv.table_insertTextIntoInner hok
    refine ⟨inner', (fromTexts_append hfrom text).trans hok, ?_, _, hinv'⟩
    rw [hcount', hcount, length_append, length_singleton]

/-- **What is read back is the automaton itself, if every record of it is active**; otherwise a message is refused, and the
texts alone give an automaton that counts them all. -/
theorem serialized_iff_kept (calls : List (TextCall U)) : ∃ inner : SuffixAutomatonInner U V,
    Runs.run call (calls.map TextCall.call) new = some inner ∧
      (inner.stringCount = inner.sourceTexts.length →
        deserializeSuffixAutomaton (serializeSuffixAutomaton inner) = .ok (some inner) ∧
        fromTexts inner.sourceTexts = some inner) ∧
      (inner.stringCount ≠ inner.sourceTexts.length →
        (∃ e, (deserializeSuffixAutomaton (serializeSuffixAutomaton inner) :
          Except String (Option (SuffixAutomatonInner U V))) = .error e) ∧
        ∃ inner' : SuffixAutomatonInner U V, fromTexts inner.sourceTexts = some inner' ∧
          inner'.stringCount = inner.sourceTexts.length) := by
  obtain ⟨inner, hrun, h⟩ := written_new.run Inv.new calls
  refine ⟨inner, hrun, fun heq => ?_, fun hne => ⟨⟨_, if_pos (Ne.symm hne)⟩, ?_⟩⟩
  · obtain hlt | ⟨-, -, hfrom⟩ := h
    · exact absurd heq hlt.ne
    · exact ⟨(if_neg (not_not.2 heq.symm)).trans (congrArg _ hfrom), hfrom⟩
  · obtain ⟨inner', hfrom, hcount, -⟩ := fromTexts_spec inner.sourceTexts
    exact ⟨inner', hfrom, hcount⟩

/-- A removed text is refused by one reader and inserted again by the other. -/
theorem removed_text_read_back : ∃ inner : SuffixAutomatonInner UInt8 Unit,
    Runs.run call ([.insert [97], .remove [97]].map TextCall.call) new = some inner ∧ inner.stringCount = 0 ∧
      (deserializeSuffixAutomaton (serializeSuffixAutomaton inner) : Except String
        (Option (SuffixAutomatonInner UInt8 Unit))) =
        .error "String count mismatch: expected 0, got 1" ∧
      (fromTexts inner.sourceTexts : Option (SuffixAutomatonInner UInt8 Unit)).map (·.stringCount) = some 1 :=
  ⟨_, rfl, rfl, rfl, rfl⟩

end Dictenstein.Suffix
