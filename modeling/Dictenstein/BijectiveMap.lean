import Dictenstein.DawgMap
import Dictenstein.Runs
/-!
# BijectiveMap — concurrent `try_insert` on the two directions of a bijection

`BijectiveMap` in `bijective/bijective_map.rs`.  `try_insert` looks for the term in the DAWG, publishes the reverse entry by
a compare-and-swap, inserts into the DAWG and takes the reverse entry back if the DAWG had the term already. -/
namespace Dictenstein.Bijective

open Runs Dawg Function List Option

variable {U V : Type}

inductive InsertError where
  | duplicateTerm
  | duplicateValue
deriving DecidableEq, Repr

abbrev ReverseMap (U V : Type) := Finmap fun _ : V => List U

/-- Where a call of `try_insert` stands.  A compare-and-swap has the version it expects and the map it publishes. -/
inductive InsertPhase (U V : Type) where
  | idle
  | called (term : List U) (value : V)
  | publishing (term : List U) (value : V)
  | swapInsert (term : List U) (value : V) (version : Nat) (next : ReverseMap U V)
  | forwarding (term : List U) (value : V)
  | rollingBack (term : List U) (value : V)
  | swapRemove (term : List U) (value : V) (version : Nat) (next : ReverseMap U V)
  | returning (result : Except InsertError Unit)

/-- `BijectiveMap` with the calls in flight. `version` counts the publications of the reverse map and stands for the address
that is compared. -/
structure BijectiveSystem (U V : Type) where
  forward : PlainMap U V
  reverse : ReverseMap U V
  version : Nat
  calls : Nat → InsertPhase U V

inductive BijectiveEvent (U V : Type) where
  | tryInsert (i : Nat) (term : List U) (value : V)
  | advance (i : Nat)
  | ret (i : Nat)

variable [LinearOrder U] [DecidableEq V]

/-- The change `try_insert` makes to a reverse map.  An error leaves the map. -/
def insertReverse (term : List U) (value : V) (reverse : ReverseMap U V) : Except InsertError (ReverseMap U V) :=
  if value ∈ reverse then .error .duplicateValue else .ok (reverse.insert value term)

/-- The change `rollback_reverse_insert` makes, if it makes one. -/
def rollbackReverseInsert (value : V) (term : List U) (reverse : ReverseMap U V) : Option (ReverseMap U V) :=
  if reverse.lookup value = some term then some (reverse.erase value) else none

namespace BijectiveSystem

def new : BijectiveSystem U V := ⟨∅, ∅, 0, fun _ => .idle⟩

variable (s : BijectiveSystem U V)

def getValue (term : List U) : Option V := (s.forward.lookup term).join

def getTerm (value : V) : Option (List U) := s.reverse.lookup value

def len : Nat := s.reverse.keys.card

def setCall (i : Nat) (p : InsertPhase U V) : BijectiveSystem U V :=
  { s with calls := update s.calls i p }

def swapReverse (i version : Nat) (next : ReverseMap U V) (done again : InsertPhase U V) :
    BijectiveSystem U V :=
  if s.version = version then { s with reverse := next, version := s.version + 1 }.setCall i done
  else s.setCall i again

def step? : BijectiveEvent U V → Option (BijectiveSystem U V)
  | .tryInsert i term value => match s.calls i with
    | .idle => some (s.setCall i (.called term value))
    | _ => none
  | .advance i => match s.calls i with
    | .called term value =>
      if (s.getValue term).isSome then some (s.setCall i (.returning (.error .duplicateTerm)))
      else some (s.setCall i (.publishing term value))
    | .publishing term value => match insertReverse term value s.reverse with
      | .error e => some (s.setCall i (.returning (.error e)))
      | .ok next => some (s.setCall i (.swapInsert term value s.version next))
    | .swapInsert term value version next =>
      some (s.swapReverse i version next (.forwarding term value) (.publishing term value))
    | .forwarding term value =>
      let (forward, inserted) := s.forward.exec (.insertUnitsWithOptionalValue term (some value))
      if inserted = some true then some ({ s with forward }.setCall i (.returning (.ok ())))
      else some ({ s with forward }.setCall i (.rollingBack term value))
    | .rollingBack term value => match rollbackReverseInsert value term s.reverse with
      | none => some (s.setCall i (.returning (.error .duplicateTerm)))
      | some next => some (s.setCall i (.swapRemove term value s.version next))
    | .swapRemove term value version next =>
      some (s.swapReverse i version next (.returning (.error .duplicateTerm)) (.rollingBack term value))
    | .idle | .returning _ => none
  | .ret i => match s.calls i with
    | .returning _ => some (s.setCall i .idle)
    | _ => none

end BijectiveSystem

/-- The term of a call that is about to insert into the DAWG is not there. -/
def ForwardFresh (s : BijectiveSystem U V) : BijectiveEvent U V → Prop
  | .advance i => match s.calls i with
    | .forwarding term _ => term ∉ s.forward
    | _ => True
  | _ => True

instance (s : BijectiveSystem U V) (e : BijectiveEvent U V) : Decidable (ForwardFresh s e) := by
  unfold ForwardFresh
  split
  · split
    · infer_instance
    · infer_instance
  · infer_instance

/-! ## The invariant -/

section
variable {s s' : BijectiveSystem U V} {i : Nat} {term : List U} {value : V}

/-- What is known of a call.  No call rolls back: it would have inserted a term that was there. -/
def PhaseOk (s : BijectiveSystem U V) : InsertPhase U V → Prop
  | .swapInsert term value version next => version ≤ s.version ∧
      (version = s.version → value ∉ s.reverse ∧ next = s.reverse.insert value term)
  | .forwarding term value => s.reverse.lookup value = some term
  | .rollingBack .. | .swapRemove .. => False
  | _ => True

structure Inv (s : BijectiveSystem U V) : Prop where
  forward_reverse : ∀ term x, s.forward.lookup term = some x → ∃ value, x = some value ∧ s.reverse.lookup value = some term
  reverse_forward : ∀ value term, s.reverse.lookup value = some term →
    s.forward.lookup term = some (some value) ∨ ∃ i, s.calls i = .forwarding term value
  phase : ∀ i, PhaseOk s (s.calls i)

theorem Inv.setCall (hi : Inv s) (i : Nat) {p : InsertPhase U V} (hp : PhaseOk s p)
    (hcall : ∀ term value, s.calls i ≠ .forwarding term value) : Inv (s.setCall i p) where
  forward_reverse := hi.forward_reverse
  reverse_forward value term h :=
    (hi.reverse_forward value term h).imp_right fun ⟨j, hj⟩ => ⟨j, update_keep hj (hcall term value)⟩
  phase := (forall_update_iff _ fun _ q => PhaseOk (s.setCall i p) q).2 ⟨hp, fun j _ => hi.phase j⟩

theorem Inv.publish (hi : Inv s) (hvalue : value ∉ s.reverse) (hcall : ∀ term value, s.calls i ≠ .forwarding term value) :
    Inv ({ s with reverse := s.reverse.insert value term, version := s.version + 1 }.setCall i
      (.forwarding term value)) := by
  have hkeep : ∀ value' term', s.reverse.lookup value' = some term' →
    (s.reverse.insert value term).lookup value' = some term' := by
    intro value' term' h
    have hne : value' ≠ value := by
      rintro rfl
      rw [Finmap.lookup_eq_none.2 hvalue] at h
      cases h
    rw [Finmap.lookup_insert_of_ne _ hne, h]
  refine ⟨fun term' x hx => ?_, fun value' term' h => ?_, ?_⟩
  · obtain ⟨value', rfl, h⟩ := hi.forward_reverse term' x hx
    exact ⟨value', rfl, hkeep value' term' h⟩
  · by_cases hv : value' = value
    · subst hv
      have ht : (s.reverse.insert value' term).lookup value' = some term' := h
      rw [Finmap.lookup_insert] at ht
      cases ht
      exact .inr ⟨i, update_self ..⟩
    · have ht : (s.reverse.insert value term).lookup value' = some term' := h
      rw [Finmap.lookup_insert_of_ne _ hv] at ht
      exact (hi.reverse_forward value' term' ht).imp_right fun ⟨j, hj⟩ => ⟨j, update_keep hj (hcall term' value')⟩
  · refine (forall_update_iff _ fun _ q => PhaseOk _ q).2 ⟨Finmap.lookup_insert _, fun j _ => ?_⟩
    -- the swaps of the other calls have an older version now
    have hj := hi.phase j
    generalize s.calls j = p at hj
    cases p with
    | swapInsert term' value' version next =>
      exact ⟨Nat.le_succ_of_le hj.1, fun h => absurd hj.1 (by rw [h]; exact Nat.not_succ_le_self _)⟩
    | forwarding term' value' => exact hkeep value' term' hj
    | _ => exact hj

theorem Inv.forward (hi : Inv s) (hcall : s.calls i = .forwarding term value) (hterm : term ∉ s.forward) :
    Inv ({ s with forward := s.forward.insert term (some value) }.setCall i (.returning (.ok ()))) := by
  have hrev : s.reverse.lookup value = some term := by
    have h := hi.phase i
    rwa [hcall] at h
  refine ⟨fun term' x hx => ?_, fun value' term' h => ?_, ?_⟩
  · have hx' : (s.forward.insert term (some value)).lookup term' = some x := hx
    rw [lookup_insert_ite] at hx'
    split at hx'
    · rename_i ht
      obtain rfl := some.inj hx'
      exact ⟨value, rfl, ht ▸ hrev⟩
    · exact hi.forward_reverse term' x hx'
  · have hold := hi.reverse_forward value' term' h
    show (s.forward.insert term (some value)).lookup term' = some (some value') ∨ _
    rw [lookup_insert_ite]
    by_cases hmine : InsertPhase.forwarding term value = .forwarding term' value'
    · obtain ⟨rfl, rfl⟩ := InsertPhase.forwarding.inj hmine
      exact .inl (if_pos rfl)
    · refine hold.imp (fun hf => ?_) fun ⟨j, hj⟩ => ⟨j, update_keep hj (by rwa [hcall])⟩
      have hne : term' ≠ term := by
        rintro rfl
        rw [Finmap.lookup_eq_none.2 hterm] at hf
        cases hf
      rwa [if_neg hne]
  · exact (forall_update_iff _ fun _ q => PhaseOk _ q).2 ⟨trivial, fun j _ => hi.phase j⟩

theorem Inv.step {e : BijectiveEvent U V} (hs : s.step? e = some s') (hfresh : ForwardFresh s e) (hi : Inv s) : Inv s' := by
  cases e with
  | tryInsert i | ret i =>
    simp only [BijectiveSystem.step?] at hs
    split at hs
    · rename_i hc
      cases hs
      exact hi.setCall i trivial (by simp [hc])
    · cases hs
  | advance i =>
    have hphase := hi.phase i
    simp only [BijectiveSystem.step?] at hs
    cases hc : s.calls i with rw [hc] at hphase
    | called term value =>
      simp only [hc] at hs
      split at hs
      all_goals
        cases hs
        exact hi.setCall i trivial (by simp [hc])
    | publishing term value =>
      simp only [hc, insertReverse] at hs
      by_cases hmem : value ∈ s.reverse
      · simp only [if_pos hmem] at hs
        cases hs
        exact hi.setCall i trivial (by simp [hc])
      · simp only [if_neg hmem] at hs
        cases hs
        exact hi.setCall i ⟨le_rfl, fun _ => ⟨hmem, rfl⟩⟩ (by simp [hc])
    | swapInsert term value version next =>
      simp only [hc, BijectiveSystem.swapReverse] at hs
      cases hs
      split
      · rename_i hversion
        obtain ⟨hvalue, rfl⟩ := hphase.2 hversion.symm
        exact hi.publish hvalue (by simp [hc])
      · exact hi.setCall i trivial (by simp [hc])
    | forwarding term value =>
      have hterm : term ∉ s.forward := by simpa only [ForwardFresh, hc] using hfresh
      simp only [hc, PlainMap.exec, hterm, not_false_eq_true, decide_true, if_true] at hs
      cases hs
      exact hi.forward hc hterm
    | rollingBack | swapRemove => exact hphase.elim
    | idle | returning => simp [hc] at hs

theorem inv_new : Inv (BijectiveSystem.new : BijectiveSystem U V) where
  forward_reverse term x h := by
    rw [BijectiveSystem.new, Finmap.lookup_empty] at h
    cases h
  reverse_forward value term h := by
    rw [BijectiveSystem.new, Finmap.lookup_empty] at h
    cases h
  phase _ := trivial

theorem Inv.getValue_iff (hi : Inv s) (hidle : ∀ i, s.calls i = .idle) (term : List U) (value : V) :
    s.getValue term = some value ↔ s.getTerm value = some term := by
  constructor
  · intro h
    obtain ⟨value', hv, hrev⟩ := hi.forward_reverse term _ (join_eq_some_iff.1 h)
    rwa [← some.inj hv] at hrev
  · intro h
    obtain hf | ⟨i, hc⟩ := hi.reverse_forward value term h
    · rw [BijectiveSystem.getValue, hf]
      rfl
    · rw [hidle i] at hc
      cases hc

end

theorem ncard_pairs (s : BijectiveSystem U V) : {p : List U × V | s.getTerm p.2 = some p.1}.ncard = s.len := by
  have himage : {p : List U × V | s.getTerm p.2 = some p.1} =
      (s.reverse.keys.image fun value => ((s.getTerm value).getD [], value) : Finset (List U × V)) := by
    ext ⟨term, value⟩
    simp only [Set.mem_ofPred_eq, Finset.coe_image, Set.mem_image, Finset.mem_coe, Finmap.mem_keys, Prod.mk.injEq]
    constructor
    · intro h
      exact ⟨value, Finmap.mem_iff.2 ⟨term, h⟩, by rw [h]; rfl, rfl⟩
    · rintro ⟨value', hmem, hterm, rfl⟩
      obtain ⟨term', h⟩ := Finmap.mem_iff.1 hmem
      rw [BijectiveSystem.getTerm, h] at hterm ⊢
      exact congrArg some hterm
  rw [himage, Set.ncard_coe_finset, Finset.card_image_of_injective _ fun _ _ h => (Prod.mk.inj h).2, BijectiveSystem.len]

/-- **Whenever no call is in flight the two directions are inverse to each other**, and `len` is the number of pairs, if no
call has inserted into the DAWG a term that was there. -/
theorem bijection_at_rest (es : List (BijectiveEvent U V)) (s : BijectiveSystem U V)
    (hrun : run BijectiveSystem.step? es .new = some s)
    (hfresh : Along BijectiveSystem.step? ForwardFresh es BijectiveSystem.new) (hidle : ∀ i, s.calls i = .idle) :
    (∀ term value, s.getValue term = some value ↔ s.getTerm value = some term) ∧
      {p : List U × V | s.getValue p.1 = some p.2}.ncard = s.len := by
  have hi : Inv s := Runs.invariant (fun _ _ _ hs hf => Inv.step hs hf) es _ s hrun hfresh inv_new
  have hiff := hi.getValue_iff hidle
  refine ⟨hiff, ?_⟩
  rw [← ncard_pairs]
  congr 1
  ext p
  exact hiff p.1 p.2

/-! ## Two calls for one term -/

def BijectiveEvent.thread : BijectiveEvent U V → Nat
  | .tryInsert i .. | .advance i | .ret i => i

theorem calls_step {s s' : BijectiveSystem U V} {e : BijectiveEvent U V} (hs : s.step? e = some s') {j : Nat}
    (hj : e.thread ≠ j) : s'.calls j = s.calls j := by
  have hset : ∀ (m : BijectiveSystem U V) (i : Nat) p, i ≠ j → (m.setCall i p).calls j = m.calls j := fun m i p hi =>
    update_of_ne hi.symm _ _
  cases e with
  | tryInsert i | ret i =>
    simp only [BijectiveSystem.step?] at hs
    split at hs
    · cases hs
      exact hset _ _ _ hj
    · cases hs
  | advance i =>
    simp only [BijectiveSystem.step?, BijectiveSystem.swapReverse] at hs
    repeat' split at hs
    all_goals
      cases hs
    all_goals
      exact hset _ _ _ hj

/-- The calls `try_insert(term, 1)` and `try_insert(term, 2)` both look for the term before either inserts it. -/
def twoInserts : List (BijectiveEvent Nat Nat) :=
  [BijectiveEvent.tryInsert 0 [7] 1, .tryInsert 1 [7] 2, .advance 0, .advance 1, .advance 0, .advance 0,
    .advance 1, .advance 1,
   .advance 0, .advance 1, .advance 1, .advance 1, .ret 0, .ret 1]

def InsertPhase.isIdle : InsertPhase U V → Bool
  | .idle => true
  | _ => false

theorem idle_of_two {es : List (BijectiveEvent U V)} {s : BijectiveSystem U V}
    (hrun : run BijectiveSystem.step? es .new = some s) (hes : ∀ e ∈ es, e.thread < 2)
    (h0 : (s.calls 0).isIdle = true) (h1 : (s.calls 1).isIdle = true) (i : Nat) : s.calls i = .idle := by
  have hidle : ∀ p : InsertPhase U V, p.isIdle = true → p = .idle := fun p hp => by cases p <;> first | rfl | cases hp
  match i with
  | 0 => exact hidle _ h0
  | 1 => exact hidle _ h1
  | i + 2 =>
    refine Runs.invariant (C := fun _ e => e.thread ≠ i + 2) (I := fun s => s.calls (i + 2) = .idle)
      (fun m e m' hs he hm => ?_) es _ s hrun (along_of_forall es _ fun e he _ => ?_) rfl
    · rw [calls_step hs he, hm]
    · have := hes e he
      omega

/-- **Two calls for one term can leave it with a value that has no term.** -/
theorem two_inserts_of_one_term_break_bijection : ∃ s : BijectiveSystem Nat Nat,
    run BijectiveSystem.step? twoInserts .new = some s ∧ (∀ i, s.calls i = .idle) ∧
      s.getValue [7] = some 2 ∧ s.getTerm 2 = none ∧ s.getTerm 1 = some [7] ∧
      ¬ Along BijectiveSystem.step? ForwardFresh twoInserts BijectiveSystem.new := by
  obtain ⟨s, hs, hp⟩ := exists_run BijectiveSystem.step? twoInserts .new (fun s =>
    decide ((s.calls 0).isIdle = true ∧ (s.calls 1).isIdle = true ∧ s.getValue [7] = some 2 ∧ s.getTerm 2 = none ∧
      s.getTerm 1 = some [7])) (by decide +kernel)
  obtain ⟨h0, h1, hvalue, hterm, hfirst⟩ := of_decide_eq_true hp
  exact ⟨s, hs, idle_of_two hs (by decide) h0 h1, hvalue, hterm, hfirst, by decide +kernel⟩

theorem bijection_at_rest_overlap : ∃ s : BijectiveSystem Nat Nat,
    run BijectiveSystem.step? [BijectiveEvent.tryInsert 0 [7] 1, .tryInsert 1 [8] 1, .advance 0,
      .advance 1, .advance 0, .advance 1, .advance 0, .advance 1, .advance 1, .advance 0, .ret 0, .ret 1] .new = some s ∧
    s.getValue [7] = some 1 ∧ s.len = 1 ∧
    ∀ term value, s.getValue term = some value ↔ s.getTerm value = some term := by
  obtain ⟨s, hs, hp⟩ := exists_run BijectiveSystem.step? [BijectiveEvent.tryInsert 0 [7] 1, .tryInsert 1 [8] 1, .advance 0,
      .advance 1, .advance 0, .advance 1, .advance 0, .advance 1, .advance 1, .advance 0, .ret 0, .ret 1] (.new :
        BijectiveSystem Nat Nat) (fun s =>
    decide ((s.calls 0).isIdle = true ∧ (s.calls 1).isIdle = true ∧ s.getValue [7] = some 1 ∧ s.len = 1)) (by decide +kernel)
  obtain ⟨h0, h1, hvalue, hlen⟩ := of_decide_eq_true hp
  exact ⟨s, hs, hvalue, hlen, (bijection_at_rest _ s hs (by decide +kernel) (idle_of_two hs (by decide) h0 h1)).1⟩

/-! ## Clones

A clone shares the DAWG with the map it is taken from and copies the reverse map.  The calls come one after the other. -/

structure Handles (U V : Type) where
  forward : PlainMap U V
  reverses : List (ReverseMap U V)

inductive HandleEvent (U V : Type) where
  | tryInsert (handle : Nat) (term : List U) (value : V)
  | clone (handle : Nat)

namespace Handles

def new : Handles U V := ⟨∅, [∅]⟩

def getValue (s : Handles U V) (term : List U) : Option V := (s.forward.lookup term).join

def tryInsert (s : Handles U V) (reverse : ReverseMap U V) (term : List U) (value : V) :
    PlainMap U V × ReverseMap U V × Except InsertError Unit :=
  if (s.getValue term).isSome then (s.forward, reverse, .error .duplicateTerm)
  else match insertReverse term value reverse with
    | .error e => (s.forward, reverse, .error e)
    | .ok next =>
      let (forward, inserted) := s.forward.exec (.insertUnitsWithOptionalValue term (some value))
      if inserted = some true then (forward, next, .ok ())
      else (forward, (rollbackReverseInsert value term next).getD next, .error .duplicateTerm)

def step? (s : Handles U V) : HandleEvent U V → Option (Handles U V)
  | .tryInsert handle term value => s.reverses[handle]?.map fun reverse =>
      let (forward, reverse, _) := s.tryInsert reverse term value
      ⟨forward, s.reverses.set handle reverse⟩
  | .clone handle => s.reverses[handle]?.map fun reverse => { s with reverses := s.reverses ++ [reverse] }

/-- `get_value` and `get_term` are inverse to each other, at every handle. -/
def Inverse (s : Handles U V) : Prop :=
  ∀ reverse ∈ s.reverses, ∀ term value, s.getValue term = some value ↔ reverse.lookup value = some term

/-- An insertion of a new term with a new value is made while there is one handle. -/
def Alone (s : Handles U V) : HandleEvent U V → Prop
  | .tryInsert handle term value => ∀ reverse, s.reverses[handle]? = some reverse →
      term ∉ s.forward → value ∉ reverse → s.reverses.length = 1
  | .clone _ => True

/-- What holds before a step: the terms of the DAWG have values. -/
structure Inv (s : Handles U V) : Prop where
  inverse : s.Inverse
  valued : ∀ term, s.forward.lookup term ≠ some none

variable {s s' : Handles U V} {reverse : ReverseMap U V} {term : List U} {value : V}

/-- An insertion is rejected and changes nothing, unless its term and value are new. -/
theorem tryInsert_cases (hvalued : ∀ term, s.forward.lookup term ≠ some none) (reverse : ReverseMap U V) (term : List U)
    (value : V) :
    (term ∈ s.forward ∨ value ∈ reverse) ∧ (∃ e, s.tryInsert reverse term value = (s.forward, reverse, .error e)) ∨
      term ∉ s.forward ∧ value ∉ reverse ∧
        s.tryInsert reverse term value = (s.forward.insert term (some value), reverse.insert value term, .ok ()) := by
  unfold tryInsert insertReverse
  by_cases hterm : (s.getValue term).isSome
  · have hmem : term ∈ s.forward := by_contra fun hnot => by simp [getValue, Finmap.lookup_eq_none.2 hnot] at hterm
    exact .inl ⟨.inl hmem, _, if_pos hterm⟩
  · by_cases hvalue : value ∈ reverse
    · exact .inl ⟨.inr hvalue, _, by rw [if_neg hterm, if_pos hvalue]⟩
    · have hnot : term ∉ s.forward := fun hmem => by
        obtain ⟨x, hx⟩ := Finmap.mem_iff.1 hmem
        cases x with
        | none => exact hvalued term hx
        | some v => simp [getValue, hx] at hterm
      exact .inr ⟨hnot, hvalue, by simp [hterm, hvalue, PlainMap.exec, hnot]⟩

/-- **After a successful insertion** the handle of the call agrees with the DAWG, and the others lack the value. -/
theorem Inv.inserted {handle : Nat} (h : Inv s) (hreverse : s.reverses[handle]? = some reverse) (hterm : term ∉ s.forward)
    (hvalue : value ∉ reverse) :
    (Handles.mk (s.forward.insert term (some value)) (s.reverses.set handle (reverse.insert value term))).Inverse ↔
      s.reverses.length = 1 := by
  have hlt : handle < s.reverses.length := (List.getElem?_eq_some_iff.1 hreverse).1
  have hget : ∀ t,
    (Handles.mk (s.forward.insert term (some value)) (s.reverses.set handle (reverse.insert value term))).getValue t =
      if t = term then some value else s.getValue t := fun t => by
    rw [getValue, lookup_insert_ite]
    split <;> rfl
  have hnone : s.getValue term = none := by rw [getValue, Finmap.lookup_eq_none.2 hterm]; rfl
  constructor
  · intro hbij
    by_contra hlen
    obtain ⟨j, hj, hne⟩ : ∃ j, j < s.reverses.length ∧ handle ≠ j := by
      by_cases h0 : handle = 0
      · exact ⟨1, by omega, by omega⟩
      · exact ⟨0, by omega, h0⟩
    have hmem : s.reverses[j] ∈ s.reverses.set handle (reverse.insert value term) :=
      mem_of_getElem? (i := j) (by rw [getElem?_set_ne hne, getElem?_eq_getElem hj])
    have hother := (hbij _ hmem term value).1 ((hget term).trans (if_pos rfl))
    rw [← h.inverse _ (getElem_mem hj), hnone] at hother
    cases hother
  · intro hlen other hother t v
    obtain ⟨r, hr⟩ := length_eq_one_iff.1 hlen
    obtain rfl : handle = 0 := by omega
    obtain rfl : r = reverse := by simpa [hr] using hreverse
    obtain rfl : other = r.insert value term := by simpa [hr] using hother
    have hold := h.inverse r (by simp [hr])
    rw [hget]
    by_cases ht : t = term
    · by_cases hv : v = value
      · rw [if_pos ht, ht, hv, Finmap.lookup_insert]
        exact iff_of_true rfl rfl
      · rw [if_pos ht, Finmap.lookup_insert_of_ne _ hv, ← hold, ht, hnone]
        simp [Ne.symm hv]
    · by_cases hv : v = value
      · rw [if_neg ht, hv, Finmap.lookup_insert, hold, Finmap.lookup_eq_none.2 hvalue]
        simp [Ne.symm ht]
      · rw [if_neg ht, Finmap.lookup_insert_of_ne _ hv, hold]

theorem Inv.step {e : HandleEvent U V} (h : Inv s) (hs : s.step? e = some s') :
    (s'.Inverse ↔ s.Alone e) ∧ ∀ term, s'.forward.lookup term ≠ some none := by
  cases e with obtain ⟨reverse, hreverse, rfl⟩ := map_eq_some_iff.1 hs
  | clone handle =>
    have hsame := h.inverse reverse (mem_of_getElem? hreverse)
    exact ⟨iff_of_true (forall_mem_append.2 ⟨h.inverse, forall_mem_singleton.2 hsame⟩) trivial, h.valued⟩
  | tryInsert handle term value =>
    simp only [Alone, hreverse, some.injEq, forall_eq']
    obtain ⟨hold, e, he⟩ | ⟨hterm, hvalue, hok⟩ := tryInsert_cases h.valued reverse term value
    · obtain ⟨hlt, rfl⟩ := List.getElem?_eq_some_iff.1 hreverse
      rw [he, set_getElem_self hlt]
      exact ⟨iff_of_true h.inverse fun hterm hvalue => absurd hold (not_or.2 ⟨hterm, hvalue⟩), h.valued⟩
    · rw [hok]
      refine ⟨(h.inserted hreverse hterm hvalue).trans (by simp [hterm, hvalue]), fun t => ?_⟩
      rw [lookup_insert_ite]
      split
      · nofun
      · exact h.valued t

end Handles

/-- **Every handle is a bijection after every step** exactly if no new term gets a new value while there are two handles. -/
theorem clones_bijective_iff (es : List (HandleEvent U V)) :
    Along Handles.step? (fun s e => ∀ s', s.step? e = some s' → s'.Inverse) es .new ↔
      Along Handles.step? Handles.Alone es Handles.new := by
  have hnew : Handles.Inv (Handles.new : Handles U V) := by
    refine ⟨fun reverse hreverse term value => ?_, fun term => by simp [Handles.new]⟩
    simp only [Handles.new, mem_singleton] at hreverse
    simp [hreverse, Handles.getValue, Handles.new]
  constructor
  · refine along_imp (I := Handles.Inv) (fun s e s' hs hc hi => ⟨hc s' hs, (hi.step hs).2⟩) (fun s e hi hc => ?_) es _ hnew
    cases hs : s.step? e with
    | some s' => exact (hi.step hs).1.1 (hc s' hs)
    | none =>
      cases e with
      | clone handle => trivial
      | tryInsert handle term value =>
        intro reverse hreverse
        simp [Handles.step?, hreverse] at hs
  · exact along_imp (I := Handles.Inv) (fun s e s' hs hc hi => ⟨(hi.step hs).1.2 hc, (hi.step hs).2⟩)
      (fun s e hi hc s' hs => (hi.step hs).1.2 hc) es _ hnew

/-- An insertion at a clone is seen in one direction only by the map the clone was taken from. -/
theorem clone_insert_breaks_original :
    (run Handles.step? [HandleEvent.clone 0, HandleEvent.tryInsert 1 [7] 1] (Handles.new : Handles Nat Nat)).map
      (fun s => (s.getValue [7], s.reverses.map (Finmap.lookup 1))) = some (some 1, [none, some [7]]) := by
  decide +kernel

end Dictenstein.Bijective
