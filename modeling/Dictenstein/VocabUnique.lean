import Dictenstein.VocabAcked
/-!
# VocabUnique — ids are unique, and the reverse map is the inverse

`insert` takes its id from the counter; `insert_with_index` looks whether the reverse map has the id, publishes, and only
then enters the id there and raises the counter above it.  Between its look and these two steps the id is not protected:
another call can look as well, or draw the id from the counter (`drawn_id_taken_twice`). -/
namespace Dictenstein.Vocab

open Runs Function Option VocabEvent VocabSystem Phase

variable {U ι : Type} [LinearOrder U]

/-! ## Claims -/

section
omit [LinearOrder U]

def Phase.claim : Phase U → Option (List U × Nat)
  | .durable _ (.burn _) => none
  | .durable req _ | .mirror req | .raise req => some (req.term, req.index)
  | _ => none

def Phase.drawn : Phase U → Option Nat
  | .durable _ (.burn _) => none
  | .durable req _ | .mirror req => if req.kind = .insert then some req.index else none
  | _ => none

def Phase.unmirrored : Phase U → Option (List U × Nat)
  | .durable req (.cache ..) | .durable req (.rank ..) | .durable req (.mark ..) | .mirror req => some (req.term, req.index)
  | _ => none

/-- A published term that the counter has not been raised above yet. -/
def Phase.unraised : Phase U → Option (List U × Nat)
  | .durable req (.cache ..) | .durable req (.rank ..) | .durable req (.mark ..) | .mirror req =>
    if req.kind = .insertWithIndex then some (req.term, req.index) else none
  | .raise req => some (req.term, req.index)
  | _ => none

variable {p : Phase U} {c : List U × Nat}

theorem claim_of_unmirrored (h : p.unmirrored = some c) : p.claim = some c := by
  cases p with
  | durable req stage => cases stage <;> first | exact h | cases h
  | mirror req => exact h
  | _ => cases h

theorem claim_of_unraised (h : p.unraised = some c) : p.claim = some c := by
  cases p with
  | durable req stage =>
    cases stage <;> first | cases h | (simp only [unraised, ite_none_right_eq_some] at h; exact h.2)
  | mirror req =>
    simp only [unraised, ite_none_right_eq_some] at h
    exact h.2
  | raise req => exact h
  | _ => cases h

end

/-- The id is not the last one, and no other call for another term has a claim to it. -/
def IdFree (s : VocabSystem U ι) (t : ι) (term : List U) (index : Nat) : Prop :=
  index + 1 < 2 ^ 64 ∧ ∀ a, a ≠ t → ∀ c ∈ (s.calls a).claim, c.2 = index → c.1 = term

/-- Ids are taken when they are free, and a crash finds the counter of the header positive, or nothing to replay, or an id
above 0 among those replayed. -/
def TakesFree (s : VocabSystem U ι) : VocabEvent U ι → Prop
  | .advance t => match s.calls t with
    | .allocate term => IdFree s t term s.mem.nextIndex
    | .checkReverse term index => IdFree s t term index
    | _ => True
  | .crash => 0 < s.disk.header.nextIndex ∨ s.disk.replayed = [] ∨ ∃ e ∈ s.disk.replayed, 0 < e.2
  | _ => True

instance [DecidableEq ι] [Fintype ι] (s : VocabSystem U ι) (t : ι) (term : List U) (index : Nat) :
    Decidable (IdFree s t term index) :=
  inferInstanceAs (Decidable (_ ∧ _))

instance [DecidableEq ι] [Fintype ι] (s : VocabSystem U ι) (e : VocabEvent U ι) : Decidable (TakesFree s e) := by
  unfold TakesFree
  split
  · split <;> infer_instance
  · infer_instance
  · infer_instance

/-! ## The invariant -/

structure Unique (s : VocabSystem U ι) : Prop where
  next_lt : s.mem.nextIndex < 2 ^ 64
  inj : ∀ t u i, findInLockfreeTrie s.mem.root t = some i → findInLockfreeTrie s.mem.root u = some i → t = u
  small : ∀ t i, findInLockfreeTrie s.mem.root t = some i → i + 1 < 2 ^ 64
  reverse_live : ∀ i t, s.mem.reverse i = some t → findInLockfreeTrie s.mem.root t = some i
  live_reverse : ∀ t i, findInLockfreeTrie s.mem.root t = some i →
    s.mem.reverse i = some t ∨ ∃ a, (s.calls a).unmirrored = some (t, i)
  live_lt : ∀ t i, findInLockfreeTrie s.mem.root t = some i → i < s.mem.nextIndex ∨ ∃ a, (s.calls a).unraised = some (t, i)
  claim_small : ∀ a t i, (s.calls a).claim = some (t, i) → i + 1 < 2 ^ 64
  claim_fresh : ∀ a t i u, (s.calls a).claim = some (t, i) → findInLockfreeTrie s.mem.root u = some i → u = t
  claim_inj : ∀ a b t u i, (s.calls a).claim = some (t, i) → (s.calls b).claim = some (u, i) → t = u
  drawn_lt : ∀ a i, (s.calls a).drawn = some i → i < s.mem.nextIndex
  header_lt : s.disk.header.nextIndex < 2 ^ 64
  image_lt : ∀ t i, findInLockfreeTrie s.disk.header.image t = some i → i < s.disk.header.nextIndex

namespace Unique

variable {s s' : VocabSystem U ι} {t : ι} {term : List U}

theorem setMem (hu : Unique s) {m : Memory U} (hroot : m.root = s.mem.root) (hnext : s.mem.nextIndex ≤ m.nextIndex)
    (hlt : m.nextIndex < 2 ^ 64) (hlive : ∀ i t, m.reverse i = some t → findInLockfreeTrie s.mem.root t = some i)
    (hkeep : ∀ i t, s.mem.reverse i = some t → m.reverse i = some t) : Unique { s with mem := m } where
  next_lt := hlt
  inj := by rw [hroot]; exact hu.inj
  small := by rw [hroot]; exact hu.small
  reverse_live := by rw [hroot]; exact hlive
  live_reverse := by rw [hroot]; exact fun t i h => (hu.live_reverse t i h).imp_left (hkeep i t)
  live_lt := by rw [hroot]; exact fun t i h => (hu.live_lt t i h).imp_left fun h => lt_of_lt_of_le h hnext
  claim_small := hu.claim_small
  claim_fresh := by rw [hroot]; exact hu.claim_fresh
  claim_inj := hu.claim_inj
  drawn_lt a i h := lt_of_lt_of_le (hu.drawn_lt a i h) hnext
  header_lt := hu.header_lt
  image_lt := hu.image_lt

theorem setDisk (hu : Unique s) {d : Disk U} (hheader : d.header = s.disk.header) : Unique { s with disk := d } :=
  { hu with
    header_lt := by rw [hheader]; exact hu.header_lt
    image_lt := by rw [hheader]; exact hu.image_lt }

variable [DecidableEq ι]

theorem goto (hu : Unique s) {p q : Phase U} (ht : s.calls t = q)
    (hclaim : ∀ term i, p.claim = some (term, i) → i + 1 < 2 ^ 64 ∧
      (∀ u, findInLockfreeTrie s.mem.root u = some i → u = term) ∧
      ∀ a, a ≠ t → ∀ u, (s.calls a).claim = some (u, i) → u = term)
    (hdrawn : ∀ i, p.drawn = some i → i < s.mem.nextIndex)
    (hmirror : ∀ term i, q.unmirrored = some (term, i) → p.unmirrored = some (term, i) ∨ s.mem.reverse i = some term)
    (hraise : ∀ term i, q.unraised = some (term, i) → p.unraised = some (term, i) ∨ i < s.mem.nextIndex) :
    Unique (s.goto t p) := by
  subst ht
  have hself : (s.goto t p).calls t = p := update_self ..
  have hother : ∀ a, a ≠ t → (s.goto t p).calls a = s.calls a := fun a ha => update_of_ne ha ..
  have hcalls {P : ι → Phase U → Prop} (hp : P t p) (hs : ∀ a, a ≠ t → P a (s.calls a)) : ∀ a, P a ((s.goto t p).calls a) :=
    (forall_update_iff s.calls P).2 ⟨hp, hs⟩
  -- what a call is for is done, or the call goes on for it
  have hheld {f : Phase U → Option (List U × Nat)} {e : List U × Nat} {done : Prop} (h : done ∨ ∃ a, f (s.calls a) = some e)
      (ht : f (s.calls t) = some e → f p = some e ∨ done) : done ∨ ∃ a, f ((s.goto t p).calls a) = some e := by
    obtain h | ⟨a, ha⟩ := h
    · exact .inl h
    · by_cases hat : a = t
      · subst hat
        exact (ht ha).symm.imp_right fun h => ⟨a, by rw [hself, h]⟩
      · exact .inr ⟨a, by rw [hother a hat, ha]⟩
  refine { hu with live_reverse := fun u i h => hheld (hu.live_reverse u i h) (hmirror u i)
                   live_lt := fun u i h => hheld (hu.live_lt u i h) (hraise u i)
                   claim_small := ?_, claim_fresh := ?_, claim_inj := ?_, drawn_lt := ?_ }
  · exact hcalls (P := fun _ ph => ∀ u i, ph.claim = some (u, i) → i + 1 < 2 ^ 64) (fun u i h => (hclaim u i h).1)
      fun a _ => hu.claim_small a
  · exact hcalls (P := fun _ ph => ∀ u i v, ph.claim = some (u, i) → findInLockfreeTrie s.mem.root v = some i → v = u)
      (fun u i v h => (hclaim u i h).2.1 v) fun a _ => hu.claim_fresh a
  · intro a b u v i ha hb
    by_cases hat : a = t <;> by_cases hbt : b = t
    · rw [hat, hself] at ha
      rw [hbt, hself, ha] at hb
      exact (Prod.mk.inj (some.inj hb)).1
    · rw [hat, hself] at ha
      rw [hother b hbt] at hb
      exact ((hclaim u i ha).2.2 b hbt v hb).symm
    · rw [hother a hat] at ha
      rw [hbt, hself] at hb
      exact (hclaim v i hb).2.2 a hat u ha
    · rw [hother a hat] at ha
      rw [hother b hbt] at hb
      exact hu.claim_inj a b u v i ha hb
  · exact hcalls (P := fun _ ph => ∀ i, ph.drawn = some i → i < s.mem.nextIndex) hdrawn fun a _ => hu.drawn_lt a

theorem quiet (hu : Unique s) {p q : Phase U} (ht : s.calls t = q) (hclaim : p.claim = none ∨ p.claim = q.claim)
    (hdrawn : p.drawn = none ∨ p.drawn = q.drawn) (hmirror : q.unmirrored = none ∨ p.unmirrored = q.unmirrored)
    (hraise : q.unraised = none ∨ p.unraised = q.unraised) : Unique (s.goto t p) := by
  subst ht
  refine hu.goto rfl (fun u i h => ?_) (fun i h => ?_) (fun u i h => ?_) fun u i h => ?_
  · obtain hn | he := hclaim
    · rw [hn] at h
      cases h
    · rw [he] at h
      exact ⟨hu.claim_small t u i h, fun v hv => hu.claim_fresh t u i v h hv, fun a _ v hv => hu.claim_inj a t v u i hv h⟩
  · obtain hn | he := hdrawn
    · rw [hn] at h
      cases h
    · rw [he] at h
      exact hu.drawn_lt t i h
  · obtain hn | he := hmirror
    · rw [hn] at h
      cases h
    · exact .inl (he.trans h)
  · obtain hn | he := hraise
    · rw [hn] at h
      cases h
    · exact .inl (he.trans h)

variable {req : Req U}

section
variable (hu : Unique s)
include hu

theorem take (ht : (s.calls t).unmirrored = none ∧ (s.calls t).unraised = none)
    (hfree : IdFree s t req.term req.index) (hfresh : ∀ u, findInLockfreeTrie s.mem.root u = some req.index → u = req.term)
    (hdrawn : req.kind = .insert → req.index < s.mem.nextIndex) : Unique (s.goto t (.durable req .hoist)) := by
  refine hu.goto rfl (fun u i h => ?_) (fun i h => ?_) (fun u i h => ?_) fun u i h => ?_
  · obtain ⟨rfl, rfl⟩ := Prod.mk.inj (some.inj h)
    exact ⟨hfree.1, hfresh, fun a ha v hv => hfree.2 a ha _ hv rfl⟩
  · simp only [drawn] at h
    split at h
    · rename_i hk
      exact some.inj h ▸ hdrawn hk
    · cases h
  · rw [ht.1] at h
    cases h
  · rw [ht.2] at h
    cases h

theorem swap {lsn generation revision termCount : Nat} {root : VocabNode U}
    (ht : s.calls t = .durable req (.swap lsn generation revision root termCount))
    (hnone : findInLockfreeTrie s.mem.root req.term = none)
    (hfind : findInLockfreeTrie root = update (findInLockfreeTrie s.mem.root) req.term (some req.index)) :
    Unique ({ s with mem := { s.mem with root, termCount, revision := revision + 1 } }.goto t
      (.durable req (.cache lsn generation))) := by
  -- the claims are those there were: only the root is another
  let next := s.goto t (.durable req (.cache lsn generation))
  have hu : Unique next := hu.quiet ht (.inr rfl) (.inr rfl) (.inl rfl) (.inl rfl)
  have hself : next.calls t = .durable req (.cache lsn generation) := update_self ..
  have hclaim : (next.calls t).claim = some (req.term, req.index) := by rw [hself]; rfl
  have hiff : ∀ u i, findInLockfreeTrie root u = some i → u = req.term ∧ i = req.index ∨
      findInLockfreeTrie s.mem.root u = some i := fun _ _ => Base.find_published hfind
  refine { hu with inj := ?_, small := ?_, reverse_live := ?_, live_reverse := ?_, live_lt := ?_, claim_fresh := ?_ }
  · intro u v i hui hvi
    obtain ⟨rfl, rfl⟩ | hui := hiff u i hui
    · obtain ⟨rfl, -⟩ | hvi := hiff v _ hvi
      · rfl
      · exact (hu.claim_fresh t _ _ v hclaim hvi).symm
    · obtain ⟨rfl, rfl⟩ | hvi := hiff v i hvi
      · exact hu.claim_fresh t _ _ u hclaim hui
      · exact hu.inj u v i hui hvi
  · intro u i h
    obtain ⟨rfl, rfl⟩ | h := hiff u i h
    · exact hu.claim_small t _ _ hclaim
    · exact hu.small u i h
  · exact fun i u h => Store.live_published hnone hfind (hu.reverse_live i u h)
  · intro u i h
    obtain ⟨rfl, rfl⟩ | h := hiff u i h
    · exact .inr ⟨t, congrArg unmirrored hself⟩
    · exact hu.live_reverse u i h
  · intro u i h
    obtain ⟨rfl, rfl⟩ | h := hiff u i h
    · by_cases hk : req.kind = .insert
      · refine .inl (hu.drawn_lt t req.index ?_)
        rw [hself]
        simp only [drawn, hk, if_true]
      · have hk : req.kind = .insertWithIndex := by cases h : req.kind <;> simp_all
        refine .inr ⟨t, (congrArg unraised hself).trans ?_⟩
        simp only [unraised, hk, if_true]
    · exact hu.live_lt u i h
  · intro a u i v h hv
    obtain ⟨rfl, rfl⟩ | hv := hiff v i hv
    · exact hu.claim_inj t a _ _ _ hclaim h
    · exact hu.claim_fresh a u i v h hv

theorem durableStep (hb : Base s) {stage : Stage U} (ht : s.calls t = .durable req stage) :
    Unique (s.durableStep t req stage) := by
  have hphase := hb.phase t
  rw [ht] at hphase
  have hnot : req.notNewly.claim = none ∧ req.notNewly.drawn = none := by
    unfold Req.notNewly
    cases req.kind <;> exact ⟨rfl, rfl⟩
  -- what neither touches the overlay nor the reverse map nor the counter
  have hmem : ∀ {m : Memory U}, m.root = s.mem.root → m.nextIndex = s.mem.nextIndex → m.reverse = s.mem.reverse →
      Unique { s with mem := m } := fun hroot hnext hrev =>
    hu.setMem hroot hnext.ge (hnext ▸ hu.next_lt) (hrev ▸ hu.reverse_live) (hrev ▸ fun _ _ h => h)
  have happend : ∀ record, Unique (s.append record) := fun record =>
    Unique.setDisk (hmem (m := { s.mem with nextLsn := s.mem.nextLsn + 1 }) rfl rfl rfl) rfl
  cases stage with
  | hoist =>
    simp only [VocabSystem.durableStep]
    split
    · exact hu.quiet ht (.inl hnot.1) (.inl hnot.2) (.inl rfl) (.inl rfl)
    · exact hu.quiet ht (.inr rfl) (.inr rfl) (.inl rfl) (.inl rfl)
  | append => exact (happend _).quiet ht (.inr rfl) (.inr rfl) (.inl rfl) (.inl rfl)
  | publish lsn =>
    have hu' : Unique { s with mem := { s.mem with commitSeq := s.mem.commitSeq + 1 } } := hmem rfl rfl rfl
    simp only [VocabSystem.durableStep]
    split
    · exact hu'.quiet ht (.inl rfl) (.inl rfl) (.inl rfl) (.inl rfl)
    · split
      · exact hu'.quiet ht (.inr rfl) (.inr rfl) (.inl rfl) (.inl rfl)
      · exact hu'.quiet ht (.inl rfl) (.inl rfl) (.inl rfl) (.inl rfl)
      · exact hu'.quiet ht (.inl rfl) (.inl rfl) (.inl rfl) (.inl rfl)
  | swap lsn generation revision root termCount =>
    simp only [VocabSystem.durableStep]
    split
    · rename_i hrev
      obtain ⟨-, -, hnone, hfind⟩ := hphase.2.2 hrev.symm
      exact hu.swap ht hnone hfind
    · exact hu.quiet ht (.inr rfl) (.inr rfl) (.inl rfl) (.inl rfl)
  | cache lsn generation =>
    have hu' : Unique { s with mem := { s.mem with cache := update s.mem.cache req.term (some req.index) } } :=
      hmem rfl rfl rfl
    exact hu'.quiet ht (.inr rfl) (.inr rfl) (.inr rfl) (.inr rfl)
  | rank lsn generation => exact (happend _).quiet ht (.inr rfl) (.inr rfl) (.inr rfl) (.inr rfl)
  | mark lsn rankLsn =>
    have hu' : Unique ((s.mark lsn).mark rankLsn) := hmem rfl rfl rfl
    exact hu'.quiet ht (.inr rfl) (.inr rfl) (.inr rfl) (.inr rfl)
  | burn lsn =>
    have hu' : Unique (s.mark lsn) := hmem rfl rfl rfl
    exact hu'.quiet ht (.inl hnot.1) (.inl hnot.2) (.inl rfl) (.inl rfl)

omit [DecidableEq ι] in
theorem mirror (hb : Base s) (ht : s.calls t = .mirror req) (entryCount : Nat) (dirty : Bool) :
    Unique { s with mem := { s.mem with
      reverse := update s.mem.reverse req.index (some req.term), entryCount, dirty } } := by
  have hphase := hb.phase t
  rw [ht] at hphase
  have hlive := hb.store.recovered_live _ _ hphase
  refine hu.setMem rfl le_rfl hu.next_lt (fun i u h => ?_) fun i u h => ?_
  · have h : update s.mem.reverse req.index (some req.term) i = some u := h
    rw [update_apply] at h
    split at h
    · rename_i hi
      rw [hi, ← some.inj h]
      exact hlive
    · exact hu.reverse_live i u h
  · show update s.mem.reverse req.index (some req.term) i = some u
    rw [update_apply]
    split
    · -- a term that has the id already is the same one
      rename_i hi
      rw [hu.inj u req.term i (hu.reverse_live i u h) (hi ▸ hlive)]
    · exact h

theorem allocate (ht : s.calls t = .allocate term) (hfree : IdFree s t term s.mem.nextIndex) :
    Unique ({ s with mem := { s.mem with nextIndex := (s.mem.nextIndex + 1) % 2 ^ 64 } }.goto t
      (.durable ⟨.insert, term, s.mem.nextIndex⟩ .hoist)) := by
  have hmod : (s.mem.nextIndex + 1) % 2 ^ 64 = s.mem.nextIndex + 1 := Nat.mod_eq_of_lt hfree.1
  have hu' : Unique { s with mem := { s.mem with nextIndex := (s.mem.nextIndex + 1) % 2 ^ 64 } } :=
    hu.setMem rfl (by rw [hmod]; exact Nat.le_succ _) (by rw [hmod]; exact hfree.1) hu.reverse_live fun _ _ h => h
  let req : Req U := ⟨.insert, term, s.mem.nextIndex⟩
  refine hu'.take (by rw [ht]; exact ⟨rfl, rfl⟩) (show IdFree _ t req.term req.index from hfree) (fun u hlive => ?_)
    fun _ => by rw [hmod]; exact Nat.lt_succ_self _
  -- an id that is not below the counter is that of a call in flight
  obtain hlt | ⟨a, ha⟩ := hu.live_lt u s.mem.nextIndex hlive
  · exact absurd hlt (lt_irrefl _)
  · have hat : a ≠ t := by
      rintro rfl
      rw [ht] at ha
      cases ha
    exact hfree.2 a hat (u, s.mem.nextIndex) (claim_of_unraised ha) rfl

theorem checkReverse {index : Nat} (ht : s.calls t = .checkReverse term index)
    (hfree : IdFree s t term index) (hrev : ∀ other, s.mem.reverse index = some other → other = term) :
    Unique (s.goto t (.durable ⟨.insertWithIndex, term, index⟩ .hoist)) := by
  refine hu.take (by rw [ht]; exact ⟨rfl, rfl⟩) hfree (fun u hlive => ?_) nofun
  obtain h | ⟨a, ha⟩ := hu.live_reverse u index hlive
  · exact hrev u h
  · have hat : a ≠ t := by
      rintro rfl
      rw [ht] at ha
      cases ha
    exact hfree.2 a hat (u, index) (claim_of_unmirrored ha) rfl

theorem raise (ht : s.calls t = .raise req) (outcome : Outcome U) : Unique ({ s with mem := { s.mem with
      nextIndex := max s.mem.nextIndex ((req.index + 1) % 2 ^ 64), dirty := true } }.goto t (.returning outcome)) := by
  have hsmall : req.index + 1 < 2 ^ 64 := hu.claim_small t req.term req.index (by rw [ht]; rfl)
  have hmod : (req.index + 1) % 2 ^ 64 = req.index + 1 := Nat.mod_eq_of_lt hsmall
  have hu' : Unique { s with mem := { s.mem with
      nextIndex := max s.mem.nextIndex ((req.index + 1) % 2 ^ 64), dirty := true } } := by
    refine hu.setMem rfl (le_max_left _ _) (max_lt hu.next_lt ?_) hu.reverse_live fun _ _ h => h
    rw [hmod]
    exact hsmall
  refine hu'.goto ht nofun nofun nofun fun u i h => .inr ?_
  cases h
  rw [hmod]
  exact lt_of_lt_of_le (Nat.lt_succ_self _) (le_max_right _ _)

theorem advance (hb : Base s) (hfree : TakesFree s (.advance t)) (hs : s.advance t (s.calls t) = some s') : Unique s' := by
  simp only [TakesFree] at hfree
  generalize ht : s.calls t = p at hs hfree
  -- a call that has taken no id
  have hquiet : ∀ q : Phase U, q.claim = none ∧ q.drawn = none → p.unmirrored = none ∧ p.unraised = none →
    Unique (s.goto t q) :=
    fun q hq hp => hu.quiet ht (.inl hq.1) (.inl hq.2) (.inl hp.1) (.inl hp.2)
  cases advances hs with
  | durable => exact hu.durableStep hb ht
  | allocated => exact hu.allocate ht hfree
  | free hrev => exact hu.checkReverse ht hfree hrev
  | mirroredInsert hkind =>
    refine (hu.mirror hb ht (s.mem.entryCount + 1) true).goto ht nofun nofun (fun u i h => .inr ?_) fun u i h => ?_
    · cases h
      exact update_self ..
    · simp [unraised, hkind] at h
  | mirrored hkind =>
    have hu' := hu.mirror hb ht (s.mem.entryCount + 1) s.mem.dirty
    refine hu'.goto ht (fun u i h => ?_) nofun (fun u i h => .inr ?_) fun u i h => .inl ?_
    · have hclaim : (s.calls t).claim = some (u, i) := by rw [ht]; exact h
      exact ⟨hu.claim_small t u i hclaim, fun v hv => hu.claim_fresh t u i v hclaim hv,
        fun a _ v hv => hu.claim_inj a t v u i hv hclaim⟩
    · cases h
      exact update_self ..
    · simp only [unraised, hkind, if_true] at h
      exact h
  | raised => exact hu.raise ht _
  | _ => exact hquiet _ ⟨rfl, rfl⟩ ⟨rfl, rfl⟩

section
omit [DecidableEq ι]

theorem lt_recoveredNextIndex (hb : Base s) (hfloor : TakesFree s .crash) {id : Nat}
    (h : Recovered s.disk term id) : id < recoveredNextIndex s.disk := by
  unfold recoveredNextIndex
  have hsmall : s.disk.replayed.foldl (fun acc e => max acc e.2) 0 ≤ 2 ^ 64 - 2 := by
    refine foldl_max_le _ (Nat.zero_le _) fun e he => ?_
    have := hu.small e.1 e.2 (hb.store.recovered_live _ _ (.inr he))
    omega
  have hmax := (le_foldl_max (fun e : List U × Nat => e.2) s.disk.replayed 0).2
  generalize s.disk.replayed.foldl (fun acc e => max acc e.2) 0 = maxId at hsmall hmax ⊢
  simp only
  obtain himage | hreplayed := h
  · have hlt := hu.image_lt term id himage
    split
    · exact lt_of_lt_of_le hlt (le_max_left _ _)
    · exact hlt
  · have hle := hmax _ hreplayed
    simp only at hle
    split
    · rw [Nat.mod_eq_of_lt (by omega)]
      exact lt_of_lt_of_le (Nat.lt_succ_of_le hle) (le_max_right _ _)
    · -- the only replayed id is 0
      obtain hpos | hnil | ⟨e, he, hpos⟩ := hfloor
      · omega
      · rw [hnil] at hreplayed
        cases hreplayed
      · have hzero := hmax e he
        omega

theorem reopen (hb : Base s) (hfloor : TakesFree s .crash) {m : Memory U} (hm : Opened s.disk m) :
    Unique ({ s with mem := m, calls := fun _ => .idle } : VocabSystem U ι) := by
  have hlive : ∀ u i, findInLockfreeTrie m.root u = some i → findInLockfreeTrie s.mem.root u = some i := fun u i h =>
    hb.store.recovered_live u i ((hm.find_iff u i).1 h)
  have hinv : Inverse m := hm.inverse fun u v i hui hvi =>
    hu.inj u v i (hb.store.recovered_live u i hui) (hb.store.recovered_live v i hvi)
  refine { hu with next_lt := ?_, inj := fun u v i hui hvi => hu.inj u v i (hlive u i hui) (hlive v i hvi),
                   small := fun u i h => hu.small u i (hlive u i h), reverse_live := fun i u => (hinv i u).1,
                   live_reverse := fun u i h => .inl ((hinv i u).2 h), live_lt := fun u i h => .inl ?_,
                   claim_small := nofun, claim_fresh := nofun, claim_inj := nofun, drawn_lt := nofun }
  · rw [hm.nextIndex, recoveredNextIndex]
    split
    · exact max_lt hu.header_lt (Nat.mod_lt _ (by decide))
    · exact hu.header_lt
  · rw [hm.nextIndex]
    exact hu.lt_recoveredNextIndex hb hfloor ((hm.find_iff u i).1 h)

theorem checkpoint (hb : Base s) (hidle : ∀ a, s.calls a = .idle) : Unique s.checkpointOverlay := by
  unfold checkpointOverlay
  split
  · exact hu
  · refine { hu with header_lt := hu.next_lt, image_lt := fun u i h => ?_ }
    have h : findInLockfreeTrie (if s.mem.termCount > 0 then s.mem.root else .new) u = some i := h
    rw [hb.find_checkpoint_image] at h
    obtain hlt | ⟨a, ha⟩ := hu.live_lt u i h
    · exact hlt
    · rw [hidle a] at ha
      cases ha

end

end

theorem step {e : VocabEvent U ι} (hs : s.step? e = some s') (halone : CheckpointAlone s e) (hfree : TakesFree s e)
    (hb : Base s) (hu : Unique s) : Unique s' := by
  cases steps hs with
  | insert ht | insertWithIndex ht => exact hu.quiet ht (.inl rfl) (.inl rfl) (.inl rfl) (.inl rfl)
  | advance hs => exact hu.advance hb hfree hs
  | ret ht => exact { hu.quiet (p := .idle) ht (.inl rfl) (.inl rfl) (.inl rfl) (.inl rfl) with }
  | checkpoint => exact hu.checkpoint hb halone
  | crash hopen =>
    obtain ⟨m, hok, hm⟩ := hb.opened
    obtain rfl := Except.ok.inj (hopen.symm.trans hok)
    exact hu.reopen hb hfree hm

omit [DecidableEq ι] in
theorem create (startIndex : UInt64) : Unique (create startIndex.toNat : VocabSystem U ι) := by
  have hnone : ∀ u i, findInLockfreeTrie (.new : VocabNode U) u ≠ some i := fun u i h => by
    rw [find_new] at h
    cases h
  have hlt : startIndex.toNat < 2 ^ 64 := startIndex.toNat_lt
  exact ⟨hlt, fun u _ i h => absurd h (hnone u i), fun u i h => absurd h (hnone u i), nofun,
    fun u i h => absurd h (hnone u i), fun u i h => absurd h (hnone u i), nofun, nofun, nofun, nofun, hlt,
    fun u i h => absurd h (hnone u i)⟩

end Unique

theorem Unique.at_rest {s : VocabSystem U ι} (hu : Unique s) (hidle : ∀ a, s.calls a = .idle) (term : List U) (id : Nat) :
    (s.mem.reverse id = some term ↔ findInLockfreeTrie s.mem.root term = some id) ∧
      (findInLockfreeTrie s.mem.root term = some id → id < s.mem.nextIndex) := by
  refine ⟨⟨hu.reverse_live id term, fun h => (hu.live_reverse term id h).resolve_right fun ⟨a, ha⟩ => ?_⟩,
    fun h => (hu.live_lt term id h).resolve_right fun ⟨a, ha⟩ => ?_⟩ <;>
  · rw [hidle a] at ha
    cases ha

/-! ## Concurrent calls -/

section
omit [LinearOrder U]

def Phase.isIdle : Phase U → Bool
  | .idle => true
  | _ => false

theorem Phase.eq_idle {p : Phase U} (h : p.isIdle = true) : p = .idle := by
  cases p with
  | idle => rfl
  | _ => cases h

end

def VocabEvent.isCall : VocabEvent U ι → Bool
  | .checkpoint _ | .crash => false
  | _ => true

/-- **Whenever no call is in flight, no two terms have the same id, `get_term` finds the term of every id and the counter is
above every id**, for all `insert` and `insert_with_index` calls that take their ids when they are free. -/
theorem vocab_ids_at_rest [DecidableEq ι] (startIndex : UInt64) (es : List (VocabEvent U ι)) (s : VocabSystem U ι)
    (hes : ∀ e ∈ es, e.isCall = true) (hrun : run step? es (.create startIndex.toNat) = some s)
    (hfree : Along step? TakesFree es (.create startIndex.toNat)) (hidle : ∀ a, s.calls a = .idle) :
    (∀ t u i, s.getIndex t = some i → s.getIndex u = some i → t = u) ∧
      ∀ t i, s.getIndex t = some i → s.getTerm i = some t ∧ i < s.mem.nextIndex := by
  have hcond := along_and (P := fun e : VocabEvent U ι => e.isCall = true) es _ hes hfree
  have halone : ∀ (m : VocabSystem U ι) e, e.isCall = true → CheckpointAlone m e := by
    intro m e he
    cases e with
    | checkpoint t => cases he
    | _ => trivial
  have hinv : Base s ∧ Unique s := Runs.invariant (I := fun m => Base m ∧ Unique m)
    (fun m e m' hs hc hi => ⟨hi.1.step hs (halone m e hc.1), hi.2.step hs (halone m e hc.1) hc.2 hi.1⟩) es _ s hrun hcond
    ⟨base_create _, Unique.create startIndex⟩
  obtain ⟨hb, hu⟩ := hinv
  simp only [hb.getIndex_eq]
  refine ⟨hu.inj, fun t i h => ?_⟩
  obtain ⟨hrev, hlt⟩ := hu.at_rest hidle t i
  exact ⟨hrev.2 h, hlt h⟩

-- the numerals of the two threads
local instance two_neZero : NeZero 2 := inferInstance

/-- `insert` has drawn the id 0 and not published it when `insert_with_index` takes it. -/
def drawnAndTaken : List (VocabEvent Nat (Fin 2)) :=
  [VocabEvent.insert 0 [1], .advance 0, .advance 0, .insertWithIndex 1 [2] 0] ++ List.replicate 11 (advance 1) ++ [ret 1] ++
    List.replicate 8 (advance 0) ++ [ret 0]

/-- **Two terms can get one id.** -/
theorem drawn_id_taken_twice : ∃ s : VocabSystem Nat (Fin 2), run step? drawnAndTaken (.create 0) = some s ∧
      .inserted [1] 0 ∈ s.returned ∧ .insertedWithIndex [2] 0 true ∈ s.returned ∧
      s.getIndex [1] = some 0 ∧ s.getIndex [2] = some 0 ∧ s.getTerm 0 = some [1] ∧
      ¬ Along step? TakesFree drawnAndTaken (.create 0) := by
  obtain ⟨s, hs, hp⟩ := exists_run step? drawnAndTaken (.create 0)
    (fun s => decide (Outcome.inserted [1] 0 ∈ s.returned ∧ Outcome.insertedWithIndex [2] 0 true ∈ s.returned ∧
      s.getIndex [1] = some 0 ∧ s.getIndex [2] = some 0 ∧ s.getTerm 0 = some [1])) (by decide +kernel)
  obtain ⟨hone, htwo, hindex, hindex', hterm⟩ := of_decide_eq_true hp
  exact ⟨s, hs, hone, htwo, hindex, hindex', hterm, by decide +kernel⟩

def drawnAndOther : List (VocabEvent Nat (Fin 2)) :=
  [VocabEvent.insert 0 [1], .advance 0, .advance 0, .insertWithIndex 1 [2] 5] ++ List.replicate 11 (advance 1) ++ [ret 1] ++
    List.replicate 8 (advance 0) ++ [ret 0]

theorem vocab_ids_at_rest_overlap : ∃ s : VocabSystem Nat (Fin 2),
    run step? drawnAndOther (.create 0) = some s ∧ s.getIndex [2] = some 5 ∧ s.getTerm 5 = some [2] ∧
      5 < s.mem.nextIndex := by
  obtain ⟨s, hs, hp⟩ := exists_run step? drawnAndOther (.create 0)
    (fun s => decide ((∀ a, (s.calls a).isIdle = true) ∧ s.getIndex [2] = some 5)) (by decide +kernel)
  obtain ⟨hidle, hindex⟩ := of_decide_eq_true hp
  have hidle : ∀ a, s.calls a = .idle := fun a => eq_idle (hidle a)
  exact ⟨s, hs, hindex, (vocab_ids_at_rest 0 drawnAndOther s (by decide) hs (by decide +kernel) hidle).2 [2] 5 hindex⟩

end Dictenstein.Vocab
