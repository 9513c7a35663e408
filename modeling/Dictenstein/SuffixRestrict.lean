import Dictenstein.SuffixTexts
/-!
# SuffixRestrict — an automaton without its redundant states

A state that holds no word is not read from the root.  Leaving such states out and renaming the others keeps an automaton
good and leaves every word with its state (`Good.restrict`); a list of nodes that is cut down this way still has the texts
that were read into it (`Reading.restrict`). -/
namespace SuffixClasses

open List Option

variable {σ τ U : Type}

/-- The states of `B` are, by `ι`, the states of `A` that hold words. -/
structure Restricts (A : Auto σ U) (B : Auto τ U) (ι : τ → σ) : Prop where
  root : ι B.root = A.root
  root_mem : B.root ∈ B.states
  proper : ∀ i ∈ B.states, A.Holds (ι i) (A.word (ι i))
  onto : ∀ s, A.Holds s (A.word s) → ∃ i ∈ B.states, ι i = s
  inj : ∀ i ∈ B.states, ∀ j ∈ B.states, ι i = ι j → i = j
  word : ∀ i ∈ B.states, B.word i = A.word (ι i)
  edge : ∀ i ∈ B.states, ∀ d, (B.edge i d).map ι = A.edge (ι i) d
  edge_mem : ∀ i ∈ B.states, ∀ d j, B.edge i d = some j → j ∈ B.states
  link : ∀ i ∈ B.states, (B.link i).map ι = A.link (ι i)
  link_mem : ∀ i ∈ B.states, ∀ j, B.link i = some j → j ∈ B.states

theorem Auto.Holds.proper {A : Auto σ U} {s : σ} {w : List U} (h : A.Holds s w) : A.Holds s (A.word s) :=
  ⟨h.1, suffix_rfl, fun t ht => lt_of_lt_of_le (h.2.2 t ht) h.2.1.length_le⟩

theorem Good.exists_proper {A : Auto σ U} (hA : Good A) {s : σ} (hs : s ∈ A.states) :
    ∃ t, A.Holds t (A.word t) ∧ A.word t = A.word s := by
  by_cases h : A.Holds s (A.word s)
  · exact ⟨s, h, rfl⟩
  · obtain ⟨t, ht, hle⟩ := Good.not_holds hs suffix_rfl h
    obtain ⟨hsuffix, hproper⟩ := hA.link_mem s hs t ht
    exact ⟨t, hproper, eq_of_suffix_length hsuffix hle⟩

namespace Restricts

variable {A : Auto σ U} {B : Auto τ U} {ι : τ → σ} {i : τ} {w : List U}

theorem holds_iff (h : Restricts A B ι) (hi : i ∈ B.states) : B.Holds i w ↔ A.Holds (ι i) w := by
  unfold Auto.Holds
  rw [h.word i hi]
  constructor
  · rintro ⟨-, hw, hlen⟩
    refine ⟨(h.proper i hi).1, hw, fun t ht => ?_⟩
    rw [← h.link i hi, map_eq_some_iff] at ht
    obtain ⟨j, hj, rfl⟩ := ht
    rw [← h.word j (h.link_mem i hi j hj)]
    exact hlen j hj
  · rintro ⟨-, hw, hlen⟩
    refine ⟨hi, hw, fun j hj => ?_⟩
    rw [h.word j (h.link_mem i hi j hj)]
    refine hlen (ι j) ?_
    rw [← h.link i hi, hj]
    rfl

theorem good (h : Restricts A B ι) (hA : Good A) : Good B := by
  refine ⟨h.root_mem, ?_, ?_, fun i hi hne => ?_, fun i hi j hj => ?_, fun i w c j hi => ?_, fun i hi w c hw => ?_⟩
  · rw [h.word _ h.root_mem, h.root, hA.root_word]
  · have := h.link _ h.root_mem
    rw [h.root, hA.link_root] at this
    exact map_eq_none_iff.1 this
  · have hroot : ι i ≠ A.root := fun heq => hne (h.inj i hi _ h.root_mem (heq.trans h.root.symm))
    obtain ⟨t, ht⟩ := hA.link_some (ι i) (h.proper i hi).1 hroot
    rw [← h.link i hi, map_eq_some_iff] at ht
    obtain ⟨j, hj, -⟩ := ht
    exact ⟨j, hj⟩
  · have hj' := h.link_mem i hi j hj
    have hlink : A.link (ι i) = some (ι j) := by rw [← h.link i hi, hj]; rfl
    obtain ⟨hsuffix, hproper⟩ := hA.link_mem _ (h.proper i hi).1 _ hlink
    rw [h.word i hi, h.word j hj', h.holds_iff hj']
    exact ⟨hsuffix, hproper⟩
  · have hmem := hi.1
    have hedge := h.edge i hmem c
    rw [h.holds_iff hmem] at hi
    constructor
    · intro hj
      rw [h.holds_iff (h.edge_mem i hmem c j hj)]
      refine (hA.edge_iff _ w c _ hi).1 ?_
      rw [← hedge, hj]
      rfl
    · intro hj
      have hj' := hj.1
      rw [h.holds_iff hj'] at hj
      rw [(hA.edge_iff _ w c _ hi).2 hj, map_eq_some_iff] at hedge
      obtain ⟨k, hk, heq⟩ := hedge
      rw [hk, h.inj k (h.edge_mem i hmem c k hk) j hj' heq]
  · rw [h.word i hi] at hw
    obtain ⟨t, ht⟩ := hA.init_held (hw ▸ h.proper i hi)
    obtain ⟨j, hj, rfl⟩ := h.onto t ht.proper
    exact ⟨j, hj, h.word j hj ▸ ht.2.1⟩

end Restricts

/-! ## A list of nodes that is cut down -/

section
variable {N : Type} {ops : NodeOps U N} {Ok : N → Prop} {nodes nodes' : List N} {word : Nat → List U} {ι ρ : Nat → Nat}

/-- The nodes at the places `ι` that are kept, with the targets of their edges and links renamed by `ρ`. -/
structure Cut (ops : NodeOps U N) (Ok : N → Prop) (nodes nodes' : List N) (word : Nat → List U)
    (ι ρ : Nat → Nat) : Prop where
  positive : 0 < nodes'.length
  root : ι 0 = 0
  kept : ∀ i < nodes'.length, (auto ops nodes word).Holds (ι i) (word (ι i))
  renamed : ∀ s, (auto ops nodes word).Holds s (word s) → ρ s < nodes'.length ∧ ι (ρ s) = s
  back : ∀ i < nodes'.length, ρ (ι i) = i
  node : ∀ i n', nodes'[i]? = some n' → ∃ n, nodes[ι i]? = some n ∧ Ok n' ∧ ops.length n' = ops.length n ∧
    ops.link n' = (ops.link n).map ρ ∧ ∀ d, ops.edge n' d = (ops.edge n d).map ρ

theorem Cut.restricts (h : Cut ops Ok nodes nodes' word ι ρ) (hrep : Rep ops Ok nodes word) :
    Restricts (auto ops nodes word) (auto ops nodes' fun i => word (ι i)) ι := by
  have hnode : ∀ i < nodes'.length,
      (∀ d, (auto ops nodes' fun i => word (ι i)).edge i d = ((auto ops nodes word).edge (ι i) d).map ρ) ∧
        (auto ops nodes' fun i => word (ι i)).link i = ((auto ops nodes word).link (ι i)).map ρ := by
    intro i hi
    obtain ⟨n', hn'⟩ := exists_node hi
    obtain ⟨n, hn, -, -, hlink, hedge⟩ := h.node i n' hn'
    exact ⟨fun d => by rw [auto_edge hn', auto_edge hn, hedge], by rw [auto_link hn', auto_link hn, hlink]⟩
  have hback : ∀ x : Option Nat, (∀ t, x = some t → (auto ops nodes word).Holds t (word t)) →
      (x.map ρ).map ι = x ∧ ∀ j, x.map ρ = some j → j < nodes'.length := by
    rintro (_ | t) hx
    · exact ⟨rfl, nofun⟩
    · obtain ⟨hlt, heq⟩ := h.renamed t (hx t rfl)
      exact ⟨congrArg some heq, fun j hj => some.inj hj ▸ hlt⟩
  -- edges and links of kept states lead to kept states
  have hedge i (hi : i < nodes'.length) d := hback ((auto ops nodes word).edge (ι i) d) fun t ht =>
    ((hrep.good.edge_iff _ _ d t (h.kept i hi)).1 ht).proper
  have hlink i (hi : i < nodes'.length) := hback ((auto ops nodes word).link (ι i)) fun t ht =>
    (hrep.good.link_mem _ (h.kept i hi).1 t ht).2
  refine ⟨h.root, h.positive, h.kept, fun s hs => ⟨ρ s, h.renamed s hs⟩, fun i hi j hj heq => ?_, fun i _ => rfl,
    fun i hi d => ?_, fun i hi d j hj => ?_, fun i hi => ?_, fun i hi j hj => ?_⟩
  · rw [← h.back i hi, ← h.back j hj, heq]
  · rw [(hnode i hi).1]
    exact (hedge i hi d).1
  · rw [(hnode i hi).1] at hj
    exact (hedge i hi d).2 j hj
  · rw [(hnode i hi).2]
    exact (hlink i hi).1
  · rw [(hnode i hi).2] at hj
    exact (hlink i hi).2 j hj

theorem Reading.restrict {texts : List (List U)} {last : Nat} (hread : Reading ops Ok nodes word texts [] last)
    (h : Cut ops Ok nodes nodes' word ι ρ) : Reading ops Ok nodes' (fun i => word (ι i)) texts [] 0 := by
  have hrestricts := h.restricts hread.rep
  have hgood := hrestricts.good hread.rep.good
  refine ⟨⟨fun i n' hn' => ?_, fun i n' hn' => ?_, hgood⟩, h.positive, hgood.root_word, h.positive, .inl rfl,
    fun i hi => hread.covered (ι i) (h.kept i hi).1, fun t ht y hy => ?_, fun y hy => ?_⟩
  · obtain ⟨n, -, hok, -⟩ := h.node i n' hn'
    exact hok
  · obtain ⟨n, hn, -, hlength, -⟩ := h.node i n' hn'
    rw [hlength, hread.rep.length _ n hn]
  · obtain ⟨s, hs, rfl⟩ := hread.indexed t ht y hy
    obtain ⟨r, hr, heq⟩ := hread.rep.good.exists_proper (show s ∈ (auto ops nodes word).states from hs)
    obtain ⟨hlt, hback⟩ := h.renamed r hr
    refine ⟨ρ r, hlt, ?_⟩
    show word (ι (ρ r)) = word s
    rw [hback]
    exact heq
  · exact ⟨0, h.positive, (prefix_nil.1 hy).symm ▸ hgood.root_word⟩

end
end SuffixClasses
