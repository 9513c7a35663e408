import Mathlib.Data.List.Infix
import Mathlib.Data.Set.Insert
/-!
# SuffixClasses — automata whose states are classes of suffixes

Every state has a longest word and, the root apart, a suffix link.  It holds the suffixes of its word that are longer than
the word of its link (`Holds`); a state whose link has a word of the same length holds nothing and is redundant.
-/
namespace SuffixClasses

open Function List Option

@[ext]
structure Auto (σ U : Type) where
  states : Set σ
  root : σ
  edge : σ → U → Option σ
  link : σ → Option σ
  word : σ → List U

variable {σ U : Type}

variable (A : Auto σ U)

/-- The state holds the suffixes of its word that are longer than the word of its link. -/
def Auto.Holds (s : σ) (w : List U) : Prop :=
  s ∈ A.states ∧ w <:+ A.word s ∧ ∀ t, A.link s = some t → (A.word t).length < w.length

def Auto.Chain : σ → σ → Prop := Relation.ReflTransGen fun s t => A.link s = some t

def Auto.reach (w : List U) : Option σ := w.foldlM A.edge A.root

structure Good : Prop where
  root_mem : A.root ∈ A.states
  root_word : A.word A.root = []
  link_root : A.link A.root = none
  link_some : ∀ s ∈ A.states, s ≠ A.root → ∃ t, A.link s = some t
  -- a link leads to a state that is not redundant
  link_mem : ∀ s ∈ A.states, ∀ t, A.link s = some t → A.word t <:+ A.word s ∧ A.Holds t (A.word t)
  edge_iff : ∀ s w c t, A.Holds s w → (A.edge s c = some t ↔ A.Holds t (w ++ [c]))
  -- the word without its last unit is a suffix of a word as well
  word_init : ∀ s ∈ A.states, ∀ w c, A.word s = w ++ [c] → ∃ t ∈ A.states, w <:+ A.word t

/-! ## Suffixes of words with a last unit -/

variable {v w : List U} {A : Auto σ U}

theorem concat_suffix_concat {c d : U} : v ++ [c] <:+ w ++ [d] ↔ c = d ∧ v <:+ w := by
  rw [← reverse_prefix, reverse_append, reverse_append, reverse_singleton, reverse_singleton,
    singleton_append, singleton_append, cons_prefix_cons, reverse_prefix]

theorem exists_concat_of_ne_nil (h : w ≠ []) : ∃ v c, w = v ++ [c] :=
  ⟨w.dropLast, w.getLast h, (dropLast_concat_getLast h).symm⟩

theorem eq_of_suffix_length {u : List U} (h : u <:+ v) (hlen : v.length ≤ u.length) : u = v :=
  h.eq_of_length (le_antisymm h.length_le hlen)

/-! ## Good automata -/

namespace Good

variable {A : Auto σ U} {s t u : σ} {v w : List U} {c : U}

theorem not_holds (hs : s ∈ A.states) (hw : w <:+ A.word s) (h : ¬ A.Holds s w) :
    ∃ t, A.link s = some t ∧ w.length ≤ (A.word t).length := by
  by_contra hno
  refine h ⟨hs, hw, fun t ht => ?_⟩
  by_contra hle
  exact hno ⟨t, ht, not_lt.1 hle⟩

section
variable (hA : Good A)
include hA

theorem suffix_held_of_proper : ∀ (n : Nat) (s : σ), (A.word s).length ≤ n → A.Holds s (A.word s) →
    w <:+ A.word s → ∃ t, A.Chain s t ∧ A.Holds t w := by
  intro n
  induction n with
  | zero =>
    intro s hn hs hw
    have hnil : w = A.word s := eq_of_suffix_length hw (by omega)
    exact ⟨s, .refl, hnil ▸ hs⟩
  | succ n ih =>
    intro s hn hs hw
    by_cases h : A.Holds s w
    · exact ⟨s, .refl, h⟩
    · obtain ⟨t, ht, hle⟩ := not_holds hs.1 hw h
      obtain ⟨hsuffix, hproper⟩ := hA.link_mem s hs.1 t ht
      have hlt := hs.2.2 t ht
      obtain ⟨u, hchain, hu⟩ := ih t (by omega) hproper (suffix_of_suffix_length_le hw hsuffix hle)
      exact ⟨u, .head ht hchain, hu⟩

theorem suffix_held (hs : s ∈ A.states) (hw : w <:+ A.word s) : ∃ t, A.Chain s t ∧ A.Holds t w := by
  by_cases h : A.Holds s w
  · exact ⟨s, .refl, h⟩
  · obtain ⟨t, ht, hle⟩ := not_holds hs hw h
    obtain ⟨hsuffix, hproper⟩ := hA.link_mem s hs t ht
    obtain ⟨u, hchain, hu⟩ := hA.suffix_held_of_proper _ t le_rfl hproper (suffix_of_suffix_length_le hw hsuffix hle)
    exact ⟨u, .head ht hchain, hu⟩

theorem init_held (h : A.Holds s (w ++ [c])) : ∃ t, A.Holds t w := by
  have hne : A.word s ≠ [] := by
    intro hnil
    have := h.2.1.length_le
    simp [hnil] at this
  obtain ⟨y, d, hy⟩ := exists_concat_of_ne_nil hne
  obtain ⟨t, ht, hyt⟩ := hA.word_init s h.1 y d hy
  have hw : w <:+ y := (concat_suffix_concat.1 (hy ▸ h.2.1)).2
  obtain ⟨u, -, hu⟩ := hA.suffix_held ht (hw.trans hyt)
  exact ⟨u, hu⟩

theorem eq_root_of_holds_nil (h : A.Holds s []) : s = A.root := by
  by_contra hne
  obtain ⟨t, ht⟩ := hA.link_some s h.1 hne
  exact absurd (h.2.2 t ht) (Nat.not_lt_zero _)

theorem holds_root : A.Holds A.root [] :=
  ⟨hA.root_mem, nil_suffix, fun t ht => by rw [hA.link_root] at ht; cases ht⟩

theorem holds_unique : A.Holds s w → A.Holds t w → s = t := by
  induction w using reverseRecOn generalizing s t with
  | nil =>
    intro hs ht
    rw [hA.eq_root_of_holds_nil hs, hA.eq_root_of_holds_nil ht]
  | append_singleton w c ih =>
    intro hs ht
    obtain ⟨r, hr⟩ := hA.init_held hs
    have hedge := (hA.edge_iff r w c s hr).2 hs
    rw [(hA.edge_iff r w c t hr).2 ht] at hedge
    exact (some.inj hedge).symm

end

theorem reach_concat (A : Auto σ U) (w : List U) (c : U) : A.reach (w ++ [c]) = (A.reach w).bind (A.edge · c) := by
  simp only [Auto.reach, foldlM_append, foldlM_cons, foldlM_nil, bind_pure]
  rfl

theorem reach_iff (hA : Good A) : A.reach w = some s ↔ A.Holds s w := by
  induction w using reverseRecOn generalizing s with
  | nil =>
    constructor
    · intro h
      rw [← some.inj h]
      exact hA.holds_root
    · intro h
      rw [hA.eq_root_of_holds_nil h]
      rfl
  | append_singleton w c ih =>
    rw [reach_concat, bind_eq_some_iff]
    constructor
    · rintro ⟨r, hr, hedge⟩
      exact (hA.edge_iff r w c s (ih.1 hr)).1 hedge
    · intro h
      obtain ⟨r, hr⟩ := hA.init_held h
      exact ⟨r, ih.2 hr, (hA.edge_iff r w c s hr).2 h⟩

theorem chain_mem (hA : Good A) (hs : s ∈ A.states) (h : A.Chain s t) : t ∈ A.states ∧ A.word t <:+ A.word s := by
  induction h with
  | refl => exact ⟨hs, suffix_rfl⟩
  | tail _ hlink ih =>
    obtain ⟨hsuffix, hproper⟩ := hA.link_mem _ ih.1 _ hlink
    exact ⟨hproper.1, hsuffix.trans ih.2⟩

theorem suffix_iff_chain (hA : Good A) (hs : s ∈ A.states) (hu : A.Holds u w) : w <:+ A.word s ↔ A.Chain s u := by
  constructor
  · intro hw
    obtain ⟨t, hchain, ht⟩ := hA.suffix_held hs hw
    rwa [hA.holds_unique hu ht]
  · intro h
    exact hu.2.1.trans (hA.chain_mem hs h).2

theorem isSome_reach_iff (hA : Good A) : (A.reach w).isSome ↔ ∃ s ∈ A.states, w <:+ A.word s := by
  constructor
  · intro h
    obtain ⟨s, hs⟩ := isSome_iff_exists.1 h
    have := hA.reach_iff.1 hs
    exact ⟨s, this.1, this.2.1⟩
  · rintro ⟨s, hs, hw⟩
    obtain ⟨t, -, ht⟩ := hA.suffix_held hs hw
    rw [hA.reach_iff.2 ht]
    rfl

theorem edge_ne_self (hA : Good A) (hs : A.Holds s (A.word s)) : A.edge s c ≠ some s := by
  intro h
  have := ((hA.edge_iff s _ c s hs).1 h).2.1.length_le
  rw [length_append] at this
  exact Nat.not_succ_le_self _ this

end Good

/-! ## Links descend -/

open Classical in
noncomputable def Auto.rank (A : Auto σ U) (s : σ) : Nat :=
  if A.Holds s (A.word s) then (A.word s).length else (A.word s).length + 1

theorem Auto.rank_le (A : Auto σ U) (s : σ) : A.rank s ≤ (A.word s).length + 1 := by
  unfold Auto.rank
  split <;> omega

theorem Auto.rank_of_holds {s : σ} (h : A.Holds s (A.word s)) : A.rank s = (A.word s).length :=
  if_pos h

theorem Good.rank_link_lt {s t : σ} (hA : Good A) (hs : s ∈ A.states) (ht : A.link s = some t) : A.rank t < A.rank s := by
  obtain ⟨hsuffix, hproper⟩ := hA.link_mem s hs t ht
  have hle := hsuffix.length_le
  unfold Auto.rank
  rw [if_pos hproper]
  split
  · rename_i h
    exact h.2.2 t ht
  · omega

/-! ## Cutting a class in two

The state `q` keeps its words that are longer than `x`; the others go to the new state `k`, which gets the edges of `q`.  The
edges into `q` from the states `rs` lead to `k` then. -/

section
variable [DecidableEq σ] [DecidableEq U]

section
variable {B : Auto σ U} {k : σ} {x : List U} (hA : Good A) (hstates : B.states = insert k A.states) (hfresh : k ∉ A.states)
  (hword : B.word = update A.word k x)
include hA hstates hfresh hword
omit [DecidableEq U]

theorem Good.holds_insert {s : σ} (hk : s ≠ k) (hlink : B.link s = A.link s) : B.Holds s w ↔ A.Holds s w := by
  unfold Auto.Holds
  rw [hlink, hstates, Set.mem_insert_iff, or_iff_right hk, hword, update_of_ne hk]
  refine and_congr_right fun hs => and_congr_right fun _ => forall_congr' fun t => imp_congr_right fun ht => ?_
  rw [update_of_ne (ne_of_mem_of_not_mem (hA.link_mem s hs t ht).2.1 hfresh)]

theorem Good.word_init_insert {l : σ} (hl : l ∈ A.states) {c : U} (hx : x = A.word l ++ [c]) :
    ∀ s ∈ B.states, ∀ w d, B.word s = w ++ [d] → ∃ t ∈ B.states, w <:+ B.word t := by
  rw [hstates, hword]
  intro s hs w d hw
  obtain ⟨t, ht, hsuffix⟩ : ∃ t ∈ A.states, w <:+ A.word t := by
    by_cases hsk : s = k
    · rw [hsk, update_self, hx] at hw
      obtain ⟨rfl, -⟩ := append_inj' hw rfl
      exact ⟨l, hl, suffix_rfl⟩
    · rw [update_of_ne hsk] at hw
      exact hA.word_init s ((Set.mem_insert_iff.1 hs).resolve_left hsk) w d hw
  refine ⟨t, Set.mem_insert_of_mem k ht, ?_⟩
  rwa [update_of_ne (ne_of_mem_of_not_mem ht hfresh)]

end

def Auto.split (A : Auto σ U) (q k : σ) (x : List U) (c : U) (rs : List σ) : Auto σ U where
  states := insert k A.states
  root := A.root
  edge s d := if s = k then A.edge q d else if s ∈ rs ∧ d = c then some k else A.edge s d
  link s := if s = k then A.link q else if s = q then some k else A.link s
  word := update A.word k x

/-- What is cut: the edge by `c` from `p`, which holds its word, leads to `q`, whose word is longer by more than `c`. -/
structure Splits (A : Auto σ U) (p q k : σ) (c : U) (rs : List σ) : Prop where
  good : Good A
  fresh : k ∉ A.states
  proper : A.Holds p (A.word p)
  edge : A.edge p c = some q
  longer : (A.word p).length + 1 < (A.word q).length
  edge_rs : ∀ s ∈ rs, A.edge s c = some q
  mem_rs : ∀ s w, A.Holds s w → A.Holds q (w ++ [c]) → (s ∈ rs ↔ w.length ≤ (A.word p).length)

namespace Splits

variable {A : Auto σ U} {p q k s t : σ} {c d : U} {rs : List σ} {w : List U}

omit [DecidableEq σ] [DecidableEq U]

section
variable (h : Splits A p q k c rs)
include h

theorem holds_q : A.Holds q (A.word p ++ [c]) :=
  (h.good.edge_iff p _ c q h.proper).1 h.edge

theorem proper_q : A.Holds q (A.word q) := by
  refine ⟨h.holds_q.1, suffix_rfl, fun t ht => ?_⟩
  have hlt := h.holds_q.2.2 t ht
  have hlonger := h.longer
  rw [length_append, length_singleton] at hlt
  omega

theorem ne_of_mem (hs : s ∈ A.states) : s ≠ k := by
  rintro rfl
  exact h.fresh hs

theorem q_notMem : q ∉ rs := fun hq =>
  h.good.edge_ne_self h.proper_q (h.edge_rs q hq)

theorem last_eq (hw : A.Holds q (w ++ [d])) : d = c := by
  by_cases hle : w.length ≤ (A.word p).length
  · have hsuffix := suffix_of_suffix_length_le hw.2.1 h.holds_q.2.1 (by simpa using hle)
    exact (concat_suffix_concat.1 hsuffix).1
  · have hsuffix := suffix_of_suffix_length_le h.holds_q.2.1 hw.2.1 (by simp; omega)
    exact (concat_suffix_concat.1 hsuffix).1.symm

end

end Splits

namespace Splits

variable {A : Auto σ U} {p q k s t : σ} {c d : U} {rs : List σ} {w : List U}

theorem word_k (A : Auto σ U) (q k : σ) (x : List U) (c : U) (rs : List σ) : (A.split q k x c rs).word k = x :=
  update_self ..

theorem word_of_ne (x : List U) (hs : s ≠ k) : (A.split q k x c rs).word s = A.word s :=
  update_of_ne hs ..

section
variable (h : Splits A p q k c rs)
include h

theorem holds_of_ne (hk : s ≠ k) (hq : s ≠ q) : (A.split q k (A.word p ++ [c]) c rs).Holds s w ↔ A.Holds s w := by
  refine h.good.holds_insert rfl h.fresh rfl hk ?_
  show (if s = k then _ else if s = q then _ else A.link s) = _
  rw [if_neg hk, if_neg hq]

theorem holds_iff_q : (A.split q k (A.word p ++ [c]) c rs).Holds q w ↔ A.Holds q w ∧ (A.word p).length + 1 < w.length := by
  have hqk : q ≠ k := h.ne_of_mem h.holds_q.1
  have hlink : (A.split q k (A.word p ++ [c]) c rs).link q = some k := by
    show (if q = k then _ else if q = q then _ else A.link q) = _
    rw [if_neg hqk, if_pos rfl]
  unfold Auto.Holds
  rw [hlink, word_of_ne _ hqk]
  constructor
  · rintro ⟨-, hw, hlen⟩
    have hlt := hlen k rfl
    rw [word_k, length_append, length_singleton] at hlt
    refine ⟨⟨h.holds_q.1, hw, fun t ht => ?_⟩, hlt⟩
    have := h.holds_q.2.2 t ht
    rw [length_append, length_singleton] at this
    omega
  · rintro ⟨⟨hs, hw, -⟩, hlt⟩
    refine ⟨Set.mem_insert_of_mem k hs, hw, fun t ht => ?_⟩
    rw [← some.inj ht, word_k, length_append, length_singleton]
    exact hlt

theorem holds_iff_k : (A.split q k (A.word p ++ [c]) c rs).Holds k w ↔ A.Holds q w ∧ w.length ≤ (A.word p).length + 1 := by
  have hlink : (A.split q k (A.word p ++ [c]) c rs).link k = A.link q := by
    show (if k = k then _ else _) = _
    rw [if_pos rfl]
  have hword : ∀ t, A.link q = some t → (A.split q k (A.word p ++ [c]) c rs).word t = A.word t := fun t ht =>
    word_of_ne _ (h.ne_of_mem (h.good.link_mem q h.holds_q.1 t ht).2.1)
  unfold Auto.Holds
  rw [hlink, word_k]
  constructor
  · rintro ⟨-, hw, hlen⟩
    refine ⟨⟨h.holds_q.1, hw.trans h.holds_q.2.1, fun t ht => hword t ht ▸ hlen t ht⟩, ?_⟩
    simpa using hw.length_le
  · rintro ⟨⟨-, hw, hlen⟩, hle⟩
    refine ⟨Set.mem_insert k _, suffix_of_suffix_length_le hw h.holds_q.2.1 (by simpa using hle), fun t ht => ?_⟩
    rw [hword t ht]
    exact hlen t ht

theorem edge_iff_q (hw : A.Holds q w) : A.edge q d = some t ↔ (A.split q k (A.word p ++ [c]) c rs).Holds t (w ++ [d]) := by
  have hself : ¬ A.Holds q (w ++ [d]) := fun hq => h.good.edge_ne_self h.proper_q ((h.good.edge_iff q w d q hw).2 hq)
  rw [h.good.edge_iff q w d t hw]
  by_cases htk : t = k
  · subst htk
    rw [h.holds_iff_k]
    exact ⟨fun ht => absurd ht.1 h.fresh, fun ht => absurd ht.1 hself⟩
  · by_cases htq : t = q
    · subst htq
      rw [h.holds_iff_q]
      exact ⟨fun ht => absurd ht hself, fun ht => ht.1⟩
    · rw [h.holds_of_ne htk htq]

theorem edge_iff_other (hw : A.Holds s w) : (if s ∈ rs ∧ d = c then some k else A.edge s d) = some t ↔
      (A.split q k (A.word p ++ [c]) c rs).Holds t (w ++ [d]) := by
  have hiff := h.good.edge_iff s w d
  have hlen : (w ++ [d]).length = w.length + 1 := by simp
  by_cases htk : t = k
  · subst htk
    rw [h.holds_iff_k, hlen]
    constructor
    · intro hedge
      split at hedge
      · rename_i hr
        obtain ⟨hr, rfl⟩ := hr
        have hq := (hiff q hw).1 (h.edge_rs s hr)
        exact ⟨hq, Nat.succ_le_succ ((h.mem_rs s w hw hq).1 hr)⟩
      · exact absurd ((hiff t hw).1 hedge).1 h.fresh
    · rintro ⟨hq, hle⟩
      obtain rfl := h.last_eq hq
      rw [if_pos ⟨(h.mem_rs s w hw hq).2 (Nat.le_of_succ_le_succ hle), rfl⟩]
  · by_cases htq : t = q
    · subst htq
      rw [h.holds_iff_q, hlen]
      constructor
      · intro hedge
        split at hedge
        · exact absurd (some.inj hedge).symm htk
        · rename_i hr
          have hq := (hiff t hw).1 hedge
          obtain rfl := h.last_eq hq
          refine ⟨hq, Nat.succ_lt_succ (not_le.1 fun hle => hr ⟨(h.mem_rs s w hw hq).2 hle, rfl⟩)⟩
      · rintro ⟨hq, hlt⟩
        obtain rfl := h.last_eq hq
        have hr : s ∉ rs := fun hr => absurd ((h.mem_rs s w hw hq).1 hr) (by omega)
        rw [if_neg fun hrs => hr hrs.1]
        exact (hiff t hw).2 hq
    · rw [h.holds_of_ne htk htq, ← hiff t hw]
      split
      · rename_i hr
        obtain ⟨hr, rfl⟩ := hr
        rw [h.edge_rs s hr]
        exact ⟨fun heq => absurd (some.inj heq).symm htk, fun heq => absurd (some.inj heq).symm htq⟩
      · rfl

end

end Splits

variable {A : Auto σ U}

/-- **A class is cut in two.** -/
theorem Good.split {p q k : σ} {c : U} {rs : List σ} (h : Splits A p q k c rs) :
    Good (A.split q k (A.word p ++ [c]) c rs) := by
  have hA := h.good
  have hroot : A.root ≠ k := h.ne_of_mem hA.root_mem
  have hrootq : A.root ≠ q := by
    intro heq
    have := h.longer
    rw [← heq, hA.root_word] at this
    exact absurd this (Nat.not_lt_zero _)
  have hqk : q ≠ k := h.ne_of_mem h.holds_q.1
  -- a state that held its word holds it still
  have hproper : ∀ t, A.Holds t (A.word t) → (A.split q k (A.word p ++ [c]) c rs).Holds t
      ((A.split q k (A.word p ++ [c]) c rs).word t) := by
    intro t ht
    have htk := h.ne_of_mem ht.1
    rw [Splits.word_of_ne _ htk]
    by_cases htq : t = q
    · subst htq
      exact h.holds_iff_q.2 ⟨ht, h.longer⟩
    · exact (h.holds_of_ne htk htq).2 ht
  refine ⟨Set.mem_insert_of_mem k hA.root_mem, ?_, ?_, ?_, ?_, ?_, ?_⟩
  · exact (Splits.word_of_ne _ hroot).trans hA.root_word
  · show (if A.root = k then _ else if A.root = q then _ else A.link A.root) = none
    rw [if_neg hroot, if_neg hrootq, hA.link_root]
  · intro s hs hne
    show ∃ t, (if s = k then A.link q else if s = q then some k else A.link s) = some t
    split
    · exact hA.link_some q h.holds_q.1 (hrootq.symm)
    · rename_i hsk
      split
      · exact ⟨k, rfl⟩
      · exact hA.link_some s ((Set.mem_insert_iff.1 hs).resolve_left hsk) hne
  · intro s hs t ht
    have ht : (if s = k then A.link q else if s = q then some k else A.link s) = some t := ht
    split at ht
    · rename_i hsk
      obtain ⟨hsuffix, htproper⟩ := hA.link_mem q h.holds_q.1 t ht
      refine ⟨?_, hproper t htproper⟩
      rw [hsk, Splits.word_k, Splits.word_of_ne _ (h.ne_of_mem htproper.1)]
      exact suffix_of_suffix_length_le hsuffix h.holds_q.2.1 (h.holds_q.2.2 t ht).le
    · rename_i hsk
      split at ht
      · rename_i hsq
        rw [← some.inj ht, Splits.word_k, hsq, Splits.word_of_ne _ hqk]
        exact ⟨h.holds_q.2.1, h.holds_iff_k.2 ⟨h.holds_q, by simp⟩⟩
      · have hs := (Set.mem_insert_iff.1 hs).resolve_left hsk
        obtain ⟨hsuffix, htproper⟩ := hA.link_mem s hs t ht
        refine ⟨?_, hproper t htproper⟩
        rw [Splits.word_of_ne _ (h.ne_of_mem htproper.1), Splits.word_of_ne _ hsk]
        exact hsuffix
  · intro s w d t hs
    show (if s = k then A.edge q d else if s ∈ rs ∧ d = c then some k else A.edge s d) = some t ↔ _
    by_cases hsk : s = k
    · rw [if_pos hsk]
      rw [hsk] at hs
      exact h.edge_iff_q (h.holds_iff_k.1 hs).1
    · rw [if_neg hsk]
      by_cases hsq : s = q
      · subst hsq
        exact h.edge_iff_other (h.holds_iff_q.1 hs).1
      · exact h.edge_iff_other ((h.holds_of_ne hsk hsq).1 hs)
  · exact hA.word_init_insert rfl h.fresh rfl h.proper.1 rfl

/-! ## Adding a state

The state `k` is added for the word `x ++ [c]`, where `x` is the word of a state.  It is linked to `target`, and the states
`ss` get an edge to it. -/

def Auto.append (A : Auto σ U) (k target : σ) (x : List U) (c : U) (ss : List σ) : Auto σ U where
  states := insert k A.states
  root := A.root
  edge s d := if s = k then none else if s ∈ ss ∧ d = c then some k else A.edge s d
  link s := if s = k then some target else A.link s
  word := update A.word k (x ++ [c])

structure Appends (A : Auto σ U) (l k target : σ) (c : U) (ss : List σ) : Prop where
  good : Good A
  fresh : k ∉ A.states
  last : l ∈ A.states
  suffix : A.word target <:+ A.word l ++ [c]
  proper : A.Holds target (A.word target)
  edge_ss : ∀ s ∈ ss, A.edge s c = none
  mem_ss : ∀ s w, A.Holds s w → (s ∈ ss ↔ w <:+ A.word l ∧ (A.word target).length < w.length + 1)

namespace Appends

variable {A : Auto σ U} {l k target s t : σ} {c d : U} {ss : List σ} {w : List U}

omit [DecidableEq σ] [DecidableEq U] in
theorem ne_of_mem (h : Appends A l k target c ss) (hs : s ∈ A.states) : s ≠ k := by
  rintro rfl
  exact h.fresh hs

theorem word_k (A : Auto σ U) (k target : σ) (x : List U) (c : U) (ss : List σ) :
    (A.append k target x c ss).word k = x ++ [c] :=
  update_self ..

theorem word_of_ne {x : List U} (hs : s ≠ k) : (A.append k target x c ss).word s = A.word s :=
  update_of_ne hs ..

section
variable (h : Appends A l k target c ss)
include h

theorem holds_of_ne (hk : s ≠ k) : (A.append k target (A.word l) c ss).Holds s w ↔ A.Holds s w :=
  h.good.holds_insert rfl h.fresh rfl hk (if_neg hk)

theorem holds_iff_k :
    (A.append k target (A.word l) c ss).Holds k w ↔ w <:+ A.word l ++ [c] ∧ (A.word target).length < w.length := by
  have hlink : (A.append k target (A.word l) c ss).link k = some target := by
    show (if k = k then _ else _) = _
    rw [if_pos rfl]
  unfold Auto.Holds
  rw [hlink, word_k]
  constructor
  · rintro ⟨-, hw, hlen⟩
    refine ⟨hw, ?_⟩
    have := hlen target rfl
    rwa [word_of_ne (h.ne_of_mem h.proper.1)] at this
  · rintro ⟨hw, hlt⟩
    refine ⟨Set.mem_insert k _, hw, fun t ht => ?_⟩
    rw [← some.inj ht, word_of_ne (h.ne_of_mem h.proper.1)]
    exact hlt

omit [DecidableEq σ] [DecidableEq U] in
theorem not_held (hw : w <:+ A.word l ++ [c]) (hlt : (A.word target).length < w.length) : ¬ A.Holds s w := by
  intro hs
  obtain ⟨v, d, rfl⟩ := exists_concat_of_ne_nil (ne_nil_of_length_pos (Nat.zero_lt_of_lt hlt))
  obtain ⟨rfl, hv⟩ := concat_suffix_concat.1 hw
  obtain ⟨r, -, hr⟩ := h.good.suffix_held h.last hv
  have hmem : r ∈ ss := (h.mem_ss r v hr).2 ⟨hv, by simpa using hlt⟩
  have hedge := (h.good.edge_iff r v d s hr).2 hs
  rw [h.edge_ss r hmem] at hedge
  cases hedge

theorem edge_iff_k (hw : (A.append k target (A.word l) c ss).Holds k w) :
    ¬ (A.append k target (A.word l) c ss).Holds t (w ++ [d]) := by
  intro ht
  obtain ⟨hsuffix, hlt⟩ := h.holds_iff_k.1 hw
  -- otherwise the word would have been held before
  obtain ⟨r, hr⟩ : ∃ r, A.Holds r w := by
    by_cases htk : t = k
    · subst htk
      obtain ⟨r, -, hr⟩ := h.good.suffix_held h.last (concat_suffix_concat.1 (h.holds_iff_k.1 ht).1).2
      exact ⟨r, hr⟩
    · exact h.good.init_held ((h.holds_of_ne htk).1 ht)
  exact h.not_held hsuffix hlt hr

theorem edge_iff_other (hw : A.Holds s w) :
    (if s ∈ ss ∧ d = c then some k else A.edge s d) = some t ↔ (A.append k target (A.word l) c ss).Holds t (w ++ [d]) := by
  have hiff := h.good.edge_iff s w d
  by_cases htk : t = k
  · subst htk
    rw [h.holds_iff_k, concat_suffix_concat, length_append, length_singleton]
    constructor
    · intro hedge
      split at hedge
      · rename_i hs
        obtain ⟨hsuffix, hlt⟩ := (h.mem_ss s w hw).1 hs.1
        exact ⟨⟨hs.2, hsuffix⟩, hlt⟩
      · exact absurd ((hiff t hw).1 hedge).1 h.fresh
    · rintro ⟨⟨rfl, hsuffix⟩, hlt⟩
      rw [if_pos ⟨(h.mem_ss s w hw).2 ⟨hsuffix, hlt⟩, rfl⟩]
  · rw [h.holds_of_ne htk, ← hiff t hw]
    split
    · rename_i hs
      obtain ⟨hs, rfl⟩ := hs
      rw [h.edge_ss s hs]
      exact ⟨fun heq => absurd (some.inj heq).symm htk, nofun⟩
    · rfl

end

end Appends

/-- **A state is added for a word that is longer by one unit.** -/
theorem Good.append {l k target : σ} {c : U} {ss : List σ} (h : Appends A l k target c ss) :
    Good (A.append k target (A.word l) c ss) := by
  have hA := h.good
  have hroot : A.root ≠ k := h.ne_of_mem hA.root_mem
  have hproper : ∀ t, A.Holds t (A.word t) → (A.append k target (A.word l) c ss).Holds t
      ((A.append k target (A.word l) c ss).word t) := by
    intro t ht
    have htk := h.ne_of_mem ht.1
    rw [Appends.word_of_ne htk]
    exact (h.holds_of_ne htk).2 ht
  refine ⟨Set.mem_insert_of_mem k hA.root_mem, ?_, ?_, ?_, ?_, ?_, ?_⟩
  · exact (Appends.word_of_ne hroot).trans hA.root_word
  · show (if A.root = k then _ else A.link A.root) = none
    rw [if_neg hroot, hA.link_root]
  · intro s hs hne
    show ∃ t, (if s = k then some target else A.link s) = some t
    split
    · exact ⟨target, rfl⟩
    · rename_i hsk
      exact hA.link_some s ((Set.mem_insert_iff.1 hs).resolve_left hsk) hne
  · intro s hs t ht
    have ht : (if s = k then some target else A.link s) = some t := ht
    split at ht
    · rename_i hsk
      cases ht
      refine ⟨?_, hproper target h.proper⟩
      rw [hsk, Appends.word_k, Appends.word_of_ne (h.ne_of_mem h.proper.1)]
      exact h.suffix
    · rename_i hsk
      obtain ⟨hsuffix, htproper⟩ := hA.link_mem s ((Set.mem_insert_iff.1 hs).resolve_left hsk) t ht
      refine ⟨?_, hproper t htproper⟩
      rw [Appends.word_of_ne (h.ne_of_mem htproper.1), Appends.word_of_ne hsk]
      exact hsuffix
  · intro s w d t hs
    show (if s = k then none else if s ∈ ss ∧ d = c then some k else A.edge s d) = some t ↔ _
    by_cases hsk : s = k
    · rw [if_pos hsk]
      rw [hsk] at hs
      exact ⟨nofun, fun ht => absurd ht (h.edge_iff_k hs)⟩
    · rw [if_neg hsk]
      exact h.edge_iff_other ((h.holds_of_ne hsk).1 hs)
  · exact hA.word_init_insert rfl h.fresh rfl h.last rfl

end

/-! ## Walks along the links -/

/-- The links are followed from a state, until a state stops the walk or the links end; the states passed are listed. -/
inductive Walk (link : σ → Option σ) (stop : σ → Prop) : Option σ → List σ → Option σ → Prop where
  | done : Walk link stop none [] none
  | found {s} : stop s → Walk link stop (some s) [] (some s)
  | next {s vs p} : ¬ stop s → Walk link stop (link s) vs p → Walk link stop (some s) (s :: vs) p

section
variable {A : Auto σ U} {c : U}

/-- The walk to the first state with an edge by `c` passes the states that hold the longer suffixes. -/
structure Passed (A : Auto σ U) (c : U) (s : σ) (vs : List σ) (p : Option σ) : Prop where
  edge_none : ∀ v ∈ vs, A.edge v c = none
  mem : ∀ v ∈ vs, v ∈ A.states ∧ A.word v <:+ A.word s
  found : ∀ u, p = some u → u ∈ A.states ∧ A.word u <:+ A.word s ∧ (A.edge u c).isSome ∧ (u = s ∨ A.Holds u (A.word u))
  longer : ∀ v ∈ vs, ∀ w, A.Holds v w → ∀ u, p = some u → (A.word u).length < w.length
  passed : ∀ v w, A.Holds v w → w <:+ A.word s → (∀ u, p = some u → (A.word u).length < w.length) → v ∈ vs

variable {vs : List σ} {p s : Option σ}

theorem Passed.mem_iff {s v : σ} (h : Passed A c s vs p) (hv : A.Holds v w) :
    v ∈ vs ↔ w <:+ A.word s ∧ ∀ u, p = some u → (A.word u).length < w.length :=
  ⟨fun hmem => ⟨hv.2.1.trans (h.mem v hmem).2, h.longer v hmem w hv⟩, fun hw => h.passed v w hv hw.1 hw.2⟩

theorem Good.passed (hA : Good A) (h : Walk A.link (fun s => (A.edge s c).isSome) s vs p) :
    ∀ t ∈ A.states, s = some t → Passed A c t vs p := by
  induction h with
  | done => exact nofun
  | @found s hstop =>
    intro t ht heq
    cases heq
    refine ⟨nofun, nofun, fun u hu => ?_, nofun, fun v w _ hw hlt => ?_⟩
    · cases hu
      exact ⟨ht, suffix_rfl, hstop, .inl rfl⟩
    · exact absurd (hlt s rfl) (not_lt.2 hw.length_le)
  | @next s vs p hnot hwalk ih =>
    intro t ht heq
    cases heq
    have hnone : A.edge s c = none := not_isSome_iff_eq_none.1 hnot
    cases hlink : A.link s with
    | none =>
      -- the walk ends at the root
      rw [hlink] at hwalk
      cases hwalk
      refine ⟨forall_mem_singleton.2 hnone, forall_mem_singleton.2 ⟨ht, suffix_rfl⟩, nofun, nofun, fun v w hv hw _ => ?_⟩
      · have hs : A.Holds s w := ⟨ht, hw, fun t hlt => by rw [hlink] at hlt; cases hlt⟩
        rw [hA.holds_unique hv hs]
        exact mem_singleton_self s
    | some t =>
      obtain ⟨hsuffix, hproper⟩ := hA.link_mem s ht t hlink
      have hrest := ih t hproper.1 hlink
      have hfound : ∀ u, p = some u → A.word u <:+ A.word t := fun u hu => (hrest.found u hu).2.1
      refine ⟨fun v hv => ?_, fun v hv => ?_, fun u hu => ?_, fun v hv w hw u hu => ?_, fun v w hv hw hlt => ?_⟩
      · obtain rfl | hv := mem_cons.1 hv
        · exact hnone
        · exact hrest.edge_none v hv
      · obtain rfl | hv := mem_cons.1 hv
        · exact ⟨ht, suffix_rfl⟩
        · exact ⟨(hrest.mem v hv).1, (hrest.mem v hv).2.trans hsuffix⟩
      · obtain ⟨hmem, hu', hedge, hor⟩ := hrest.found u hu
        refine ⟨hmem, hu'.trans hsuffix, hedge, .inr ?_⟩
        obtain rfl | hor := hor
        · exact hproper
        · exact hor
      · obtain rfl | hv := mem_cons.1 hv
        · exact lt_of_le_of_lt (hfound u hu).length_le (hw.2.2 t hlink)
        · exact hrest.longer v hv w hw u hu
      · by_cases hs : A.Holds s w
        · rw [hA.holds_unique hv hs]
          exact .head _
        · obtain ⟨t', ht', hle⟩ := not_holds ht hw hs
          rw [hlink] at ht'
          obtain rfl := some.inj ht'
          exact mem_cons_of_mem _
            (hrest.passed v w hv (suffix_of_suffix_length_le hw hsuffix hle) hlt)

/-- The walk while the edge by `c` leads to `q` passes the states whose words, longer by `c`, are held by `q`. -/
theorem Good.redirected (hA : Good A) {p q : σ} (hq : A.Holds q (A.word p ++ [c])) {rs : List σ} {r : Option σ}
    (h : Walk A.link (fun s => A.edge s c ≠ some q) s rs r) :
    ∀ t, s = some t → A.Holds t (A.word t) → A.word t <:+ A.word p → (∀ v ∈ rs, A.edge v c = some q) ∧
      ∀ v w, A.Holds v w → A.Holds q (w ++ [c]) → (v ∈ rs ↔ w.length ≤ (A.word t).length) := by
  -- a word of `q` that is not longer than a suffix of the word of `p` is a suffix of it
  have hsuffix : ∀ {t w}, A.word t <:+ A.word p → A.Holds q (w ++ [c]) → w.length ≤ (A.word t).length → w <:+ A.word t := by
    intro t w ht hw hle
    have hlong := suffix_of_suffix_length_le hw.2.1 hq.2.1 (by simpa using hle.trans ht.length_le)
    exact suffix_of_suffix_length_le (concat_suffix_concat.1 hlong).2 ht hle
  -- the edge of a state whose word is long enough leads to `q`
  have hedge : ∀ {t w}, A.Holds t (A.word t) → A.word t <:+ A.word p → A.Holds q (w ++ [c]) →
      w.length ≤ (A.word t).length → A.edge t c = some q := by
    intro t w ht hsuf hw hle
    refine (hA.edge_iff t _ c q ht).2 ⟨hq.1, (concat_suffix_concat.2 ⟨rfl, hsuf⟩).trans hq.2.1, fun u hu => ?_⟩
    have hlt := hw.2.2 u hu
    rw [length_append, length_singleton] at hlt ⊢
    omega
  induction h with
  | done => exact nofun
  | @found s hstop =>
    intro t heq hproper hsuf
    cases heq
    refine ⟨nofun, fun v w _ hw => ⟨nofun, fun hle => ?_⟩⟩
    exact absurd (hedge hproper hsuf hw hle) hstop
  | @next s rs r hnot hwalk ih =>
    intro t heq hproper hsuf
    cases heq
    have hsq : A.edge s c = some q := not_not.1 hnot
    cases hlink : A.link s with
    | none =>
      rw [hlink] at hwalk
      cases hwalk
      refine ⟨forall_mem_singleton.2 hsq, fun v w hv hw => ⟨fun hmem => ?_, fun hle => ?_⟩⟩
      · rw [mem_singleton.1 hmem] at hv
        exact hv.2.1.length_le
      · have hs : A.Holds s w := ⟨hproper.1, hsuffix hsuf hw hle, fun t ht => by rw [hlink] at ht; cases ht⟩
        rw [hA.holds_unique hv hs]
        exact mem_singleton_self s
    | some t =>
      obtain ⟨htsuf, htproper⟩ := hA.link_mem s hproper.1 t hlink
      obtain ⟨hrs, hiff⟩ := ih t hlink htproper (htsuf.trans hsuf)
      refine ⟨fun v hv => ?_, fun v w hv hw => ⟨fun hmem => ?_, fun hle => ?_⟩⟩
      · obtain rfl | hv := mem_cons.1 hv
        · exact hsq
        · exact hrs v hv
      · obtain rfl | hmem := mem_cons.1 hmem
        · exact hv.2.1.length_le
        · exact ((hiff v w hv hw).1 hmem).trans htsuf.length_le
      · by_cases hs : A.Holds s w
        · rw [hA.holds_unique hv hs]
          exact .head _
        · obtain ⟨t', ht', hle'⟩ := not_holds hproper.1 (hsuffix hsuf hw hle) hs
          rw [hlink] at ht'
          obtain rfl := some.inj ht'
          exact .tail _ ((hiff v w hv hw).2 hle')

end

end SuffixClasses
