import Dictenstein.SuffixExtend
/-!
# SuffixTexts — the construction run over texts

Every text is added unit by unit from the root on (`Reading`).  The words of the states are then the empty word and parts of
texts, and every beginning of a text is the word of a state, so that the words read from the root are the parts of the texts
(`Reading.reach_iff`).
-/
namespace SuffixClasses

open List Option

variable {U N : Type} [DecidableEq U]

/-- The texts have been added, and of the next one `x` has been read, to the state `last`. -/
structure Reading (ops : NodeOps U N) (Ok : N → Prop) (nodes : List N) (word : Nat → List U) (texts : List (List U))
    (x : List U) (last : Nat) : Prop where
  rep : Rep ops Ok nodes word
  last_lt : last < nodes.length
  word_last : word last = x
  short : x.length < nodes.length
  fresh : last = 0 ∨ ∀ d, (auto ops nodes word).edge last d = none
  covered : ∀ s < nodes.length, word s = [] ∨ (∃ t ∈ texts, word s <:+: t) ∨ word s <:+: x
  indexed : ∀ t ∈ texts, ∀ y, y <+: t → ∃ s < nodes.length, word s = y
  indexed_last : ∀ y, y <+: x → ∃ s < nodes.length, word s = y

section
variable {ops : NodeOps U N} {Ok : N → Prop} {nodes : List N} {word : Nat → List U} {texts : List (List U)} {x w : List U}
  {last : Nat}

omit [DecidableEq U] in
theorem Reading.extended {nodes' : List N} {word' : Nat → List U} {c : U} (h : Reading ops Ok nodes word texts x last)
    (hext : Extended ops Ok nodes nodes' word word' last c) : Reading ops Ok nodes' word' texts (x ++ [c]) nodes.length := by
  have hcur : word' nodes.length = x ++ [c] := hext.word_cur.trans (by rw [h.word_last])
  have hkeep : ∀ {y}, (∃ s < nodes.length, word s = y) → ∃ s < nodes'.length, word' s = y := by
    rintro y ⟨s, hs, rfl⟩
    exact ⟨s, hs.trans hext.longer, hext.word_old s hs⟩
  refine ⟨hext.rep, hext.longer, hcur, ?_, .inr hext.edge_cur, fun s hs => ?_,
    fun t ht y hy => hkeep (h.indexed t ht y hy), fun y hy => ?_⟩
  · rw [length_append, length_singleton]
    exact lt_of_le_of_lt (Nat.succ_le_of_lt h.short) hext.longer
  · by_cases hold : s < nodes.length
    · rw [hext.word_old s hold]
      exact (h.covered s hold).imp_right fun hor => hor.imp_right fun hx => hx.trans (prefix_append x [c]).isInfix
    · have hnew := hext.word_new s (not_lt.1 hold) hs
      rw [h.word_last] at hnew
      exact .inr (.inr hnew.isInfix)
  · obtain rfl | hy := prefix_concat_iff.1 hy
    · exact ⟨nodes.length, hext.longer, hcur⟩
    · exact hkeep (h.indexed_last y hy)

/-- **One unit is read**, and the state that the text is read to is the one that is appended. -/
theorem Reading.extend {new : N → N} {clone : Nat → N → N → N} (hops : ops.Lawful Ok) (hmakes : Makes ops Ok new clone)
    (h : Reading ops Ok nodes word texts x last) (c : U) :
    ∃ nodes' word', SuffixClasses.extend ops new clone last c nodes = some nodes' ∧
      Extended ops Ok nodes nodes' word word' last c ∧
      Reading ops Ok nodes' word' texts (x ++ [c]) nodes.length := by
  -- nothing of the nodes but their edges, links and lengths is looked at
  have hunit : Keeps ops fun _ : N => () := ⟨fun _ _ _ => rfl, fun _ _ _ => rfl, fun _ _ => rfl⟩
  obtain ⟨nodes', word', -, hok, hext, -⟩ := extend_traces hops hmakes hunit (fun _ _ _ => rfl) hunit h.rep h.last_lt
    (h.word_last ▸ h.short) h.fresh c
  exact ⟨nodes', word', hok, hext, h.extended hext⟩

section
omit [DecidableEq U]

theorem Reading.finish (h : Reading ops Ok nodes word texts x last) : Reading ops Ok nodes word (texts ++ [x]) [] 0 where
  rep := h.rep
  last_lt := h.rep.good.root_mem
  word_last := h.rep.good.root_word
  short := h.rep.good.root_mem
  fresh := .inl rfl
  covered s hs := by
    rcases h.covered s hs with hnil | ⟨t, ht, hinfix⟩ | hinfix
    · exact .inl hnil
    · exact .inr (.inl ⟨t, mem_append_left _ ht, hinfix⟩)
    · exact .inr (.inl ⟨x, mem_append_right _ (mem_singleton_self x), hinfix⟩)
  indexed t ht y hy := by
    rcases mem_append.1 ht with ht | ht
    · exact h.indexed t ht y hy
    · rw [mem_singleton.1 ht] at hy
      exact h.indexed_last y hy
  indexed_last y hy := ⟨0, h.rep.good.root_mem, by rw [prefix_nil.1 hy]; exact h.rep.good.root_word⟩

theorem Reading.reach_iff (h : Reading ops Ok nodes word texts [] last) (hw : w ≠ []) :
    ((auto ops nodes word).reach w).isSome ↔ ∃ t ∈ texts, w <:+: t := by
  rw [h.rep.good.isSome_reach_iff]
  constructor
  · rintro ⟨s, hs, hsuffix⟩
    rcases h.covered s hs with hnil | ⟨t, ht, hinfix⟩ | hinfix
    · rw [show (auto ops nodes word).word s = [] from hnil] at hsuffix
      exact absurd (suffix_nil.1 hsuffix) hw
    · exact ⟨t, ht, hsuffix.isInfix.trans hinfix⟩
    · exact absurd (infix_nil.1 (hsuffix.isInfix.trans hinfix)) hw
  · rintro ⟨t, ht, hinfix⟩
    obtain ⟨y, hsuffix, hy⟩ := infix_iff_suffix_prefix.1 hinfix
    obtain ⟨s, hs, rfl⟩ := h.indexed t ht y hy
    exact ⟨s, hs, hsuffix⟩

theorem Reading.root {n : N} (hok : Ok n) (hedge : ∀ d, ops.edge n d = none) (hlink : ops.link n = none)
    (hlength : ops.length n = 0) : Reading ops Ok [n] (fun _ => []) [] [] 0 := by
  have hnode : ∀ s m, [n][s]? = some m → s = 0 ∧ m = n := by
    intro s m hm
    have hs : s = 0 := Nat.lt_one_iff.1 (lt_of_node hm)
    subst hs
    exact ⟨rfl, (some.inj hm).symm⟩
  have hzero : ∀ s ∈ (auto ops [n] fun _ => ([] : List U)).states, s = 0 := fun s hs => Nat.lt_one_iff.1 hs
  have hnone : (auto ops [n] fun _ => ([] : List U)).link 0 = none := hlink
  have hgood : Good (auto ops [n] fun _ => ([] : List U)) := by
    refine ⟨Nat.zero_lt_one, rfl, hnone, fun s hs hne => absurd (hzero s hs) hne, fun s hs t ht => ?_, fun s w c t hs => ?_,
      fun s _ w c hw => ?_⟩
    · rw [hzero s hs, hnone] at ht
      cases ht
    · rw [hzero s hs.1]
      constructor
      · intro hedge'
        rw [show (auto ops [n] fun _ => ([] : List U)).edge 0 c = ops.edge n c from rfl, hedge] at hedge'
        cases hedge'
      · intro ht
        have := ht.2.1.length_le
        simp [auto] at this
    · exact absurd hw (by simp [auto])
  refine ⟨⟨fun s m hm => ?_, fun s m hm => ?_, hgood⟩, Nat.zero_lt_one, rfl, Nat.zero_lt_one, .inl rfl, fun _ _ => .inl rfl,
    fun _ h => absurd h not_mem_nil, fun y hy => ⟨0, Nat.zero_lt_one, (prefix_nil.1 hy).symm⟩⟩
  · rw [(hnode s m hm).2]
    exact hok
  · rw [(hnode s m hm).2, hlength]
    rfl

end

end

/-! ## What is attached to the words -/

/-- Every word keeps what `f` reads of its state, a state with such a word has words of one state only, and what `f` reads of
the state of a new word is `e`. -/
structure Carries (ops : NodeOps U N) {β : Type} (f : N → β) (e : β) (nodes nodes' : List N)
    (word word' : Nat → List U) : Prop where
  held : ∀ s w n, (auto ops nodes word).Holds s w → nodes[s]? = some n →
    ∃ t n', (auto ops nodes' word').Holds t w ∧ nodes'[t]? = some n' ∧ f n' = f n
  together : ∀ t u v, (auto ops nodes' word').Holds t u → (auto ops nodes' word').Holds t v →
    ∀ r, (auto ops nodes word).Holds r u → (auto ops nodes word).Holds r v
  fresh : ∀ t w, (auto ops nodes' word').Holds t w → (∀ s, ¬(auto ops nodes word).Holds s w) →
    ∃ t n', (auto ops nodes' word').Holds t w ∧ nodes'[t]? = some n' ∧ f n' = e

section
variable {ops : NodeOps U N} {Ok : N → Prop} {β : Type} {f : N → β} {e : β} {nodes nodes' nodes'' : List N}
  {word word' word'' : Nat → List U} {last : Nat} {c : U} {origin : Nat → Nat}

omit [DecidableEq U]

theorem Carries.refl (h : Rep ops Ok nodes word) : Carries ops f e nodes nodes word word where
  held s _ n hs hn := ⟨s, n, hs, hn, rfl⟩
  together _ _ _ hu hv _ hr := h.good.holds_unique hr hu ▸ hv
  fresh t _ ht hnew := absurd ht (hnew t)

theorem Carries.trans (h : Carries ops f e nodes nodes' word word') (h' : Carries ops f e nodes' nodes'' word' word'') :
    Carries ops f e nodes nodes'' word word'' where
  held s w n hs hn := by
    obtain ⟨t, m, ht, hm, hmn⟩ := h.held s w n hs hn
    obtain ⟨t', m', ht', hm', hmm⟩ := h'.held t w m ht hm
    exact ⟨t', m', ht', hm', hmm.trans hmn⟩
  together t u v hu hv r hr := by
    obtain ⟨n, hn⟩ := exists_node (show r < nodes.length from hr.1)
    obtain ⟨m, -, hm, -⟩ := h.held r u n hr hn
    exact h.together m u v hm (h'.together t u v hu hv m hm) r hr
  fresh t w ht hnew := by
    by_cases hmid : ∃ s, (auto ops nodes' word').Holds s w
    · obtain ⟨s, hs⟩ := hmid
      obtain ⟨m, n, hm, hn, he⟩ := h.fresh s w hs hnew
      obtain ⟨t', n', ht', hn', hf⟩ := h'.held m w n hm hn
      exact ⟨t', n', ht', hn', hf.trans he⟩
    · exact h'.fresh t w ht fun s hs => hmid ⟨s, hs⟩

theorem Origin.ne_cur (ho : Origin ops f nodes nodes' word word' origin) (h' : Rep ops Ok nodes' word') {s t : Nat}
    {w : List U} (hs : (auto ops nodes word).Holds s w) (ht : (auto ops nodes' word').Holds t w) : t ≠ nodes.length := by
  obtain ⟨t', hne, ht'⟩ := ho.held s w hs
  rw [h'.good.holds_unique ht ht']
  exact hne

theorem Origin.carries (ho : Origin ops f nodes nodes' word word' origin) (h : Rep ops Ok nodes word)
    (h' : Rep ops Ok nodes' word') (hcur : ∀ n', nodes'[nodes.length]? = some n' → f n' = e) :
    Carries ops f e nodes nodes' word word' where
  held s w n hs hn := by
    obtain ⟨t, hne, ht⟩ := ho.held s w hs
    obtain ⟨n', hn'⟩ := exists_node (show t < nodes'.length from ht.1)
    obtain ⟨m, hm, hf⟩ := ho.node t n' hne hn'
    rw [h.good.holds_unique (ho.holds t w hne ht) hs, hn, some.injEq] at hm
    exact ⟨t, n', ht, hn', hm ▸ hf⟩
  together t u v hu hv r hr := by
    have hne := ho.ne_cur h' hr hu
    rw [h.good.holds_unique hr (ho.holds t u hne hu)]
    exact ho.holds t v hne hv
  fresh t w ht hnew := by
    obtain rfl : t = nodes.length := by
      by_contra hne
      exact hnew _ (ho.holds t w hne ht)
    obtain ⟨n', hn'⟩ := exists_node (show nodes.length < nodes'.length from ht.1)
    exact ⟨_, n', ht, hn', hcur n' hn'⟩

theorem Extended.holds_cur (hext : Extended ops Ok nodes nodes' word word' last c)
    (ho : Origin ops f nodes nodes' word word' origin) (h : Rep ops Ok nodes word)
    (hnew : ∀ s, ¬(auto ops nodes word).Holds s (word last ++ [c])) :
    (auto ops nodes' word').Holds nodes.length (word last ++ [c]) := by
  have hcur : (auto ops nodes' word').word nodes.length = word last ++ [c] := hext.word_cur
  obtain ⟨t, hchain, ht⟩ := hext.rep.good.suffix_held (s := nodes.length) hext.longer (w := word last ++ [c])
    (hcur ▸ suffix_rfl)
  by_cases heq : t = nodes.length
  · exact heq ▸ ht
  · -- a state on the links with this word was there before, or is a copy of one that held the word
    have hword : (auto ops nodes' word').word t = word last ++ [c] := by
      have hsuffix := (hext.rep.good.chain_mem hext.longer hchain).2
      rw [hcur] at hsuffix
      exact eq_of_suffix_length hsuffix ht.2.1.length_le
    have hlt : t < nodes'.length := ht.1
    rcases Nat.lt_or_gt_of_ne heq with hold | hclone
    · have hword : word t = word last ++ [c] := (hext.word_old t hold).symm.trans hword
      obtain ⟨s, -, hs⟩ := h.good.suffix_held (s := t) hold (w := word last ++ [c]) (hword ▸ suffix_rfl)
      exact absurd hs (hnew s)
    · have hheld := ho.word_clone t hclone hlt
      rw [show word' t = word last ++ [c] from hword] at hheld
      exact absurd hheld (hnew _)

end

/-! ## Changes that the automaton does not see -/

structure ReadsCore (ops : NodeOps U N) (Ok : N → Prop) {β : Type} (core : N → β) : Prop where
  edge : ∀ n m, core n = core m → ops.edge n = ops.edge m
  link : ∀ n m, core n = core m → ops.link n = ops.link m
  length : ∀ n m, core n = core m → ops.length n = ops.length m
  ok : ∀ n m, core n = core m → Ok n → Ok m

section
variable {ops : NodeOps U N} {Ok : N → Prop} {β : Type} {core : N → β} {nodes nodes' : List N} {word : Nat → List U}

omit [DecidableEq U]

theorem ReadsCore.exists_old (hmap : nodes'.map core = nodes.map core) {s : Nat} {m : N} (hm : nodes'[s]? = some m) :
    ∃ n, nodes[s]? = some n ∧ core n = core m := by
  have := congrArg (·[s]?) hmap
  simp only [getElem?_map, hm, map_some] at this
  exact map_eq_some_iff.1 this.symm

theorem ReadsCore.auto_eq (hcore : ReadsCore ops Ok core) (hmap : nodes'.map core = nodes.map core) :
    auto ops nodes' word = auto ops nodes word := by
  have hlength : nodes'.length = nodes.length := by simpa using congrArg List.length hmap
  have hnone {s : Nat} (hm : nodes'[s]? = none) : nodes[s]? = none := by
    rw [getElem?_eq_none_iff] at hm ⊢
    omega
  refine Auto.ext ?_ rfl ?_ ?_ rfl
  · ext s
    show s < nodes'.length ↔ s < nodes.length
    rw [hlength]
  · funext s d
    cases hm : nodes'[s]? with
    | none => rw [auto_edge_none hm, auto_edge_none (hnone hm)]
    | some m =>
      obtain ⟨n, hn, hcn⟩ := ReadsCore.exists_old hmap hm
      rw [auto_edge hm, auto_edge hn, hcore.edge n m hcn]
  · funext s
    cases hm : nodes'[s]? with
    | none => rw [auto_link_none hm, auto_link_none (hnone hm)]
    | some m =>
      obtain ⟨n, hn, hcn⟩ := ReadsCore.exists_old hmap hm
      rw [auto_link hm, auto_link hn, hcore.link n m hcn]

theorem Reading.congr {texts : List (List U)} {x : List U} {last : Nat} (hcore : ReadsCore ops Ok core)
    (hmap : nodes'.map core = nodes.map core) (h : Reading ops Ok nodes word texts x last) :
    Reading ops Ok nodes' word texts x last := by
  have hlength : nodes'.length = nodes.length := by simpa using congrArg length hmap
  have hauto : auto ops nodes' word = auto ops nodes word := hcore.auto_eq hmap
  refine ⟨⟨fun s m hm => ?_, fun s m hm => ?_, hauto ▸ h.rep.good⟩, hlength ▸ h.last_lt, h.word_last, hlength ▸ h.short,
    hauto ▸ h.fresh, hlength ▸ h.covered, hlength ▸ h.indexed, hlength ▸ h.indexed_last⟩
  · obtain ⟨n, hn, hcn⟩ := ReadsCore.exists_old hmap hm
    exact hcore.ok n m hcn (h.rep.ok s n hn)
  · obtain ⟨n, hn, hcn⟩ := ReadsCore.exists_old hmap hm
    rw [← hcore.length n m hcn]
    exact h.rep.length s n hn

end

/-! ## The construction on images of nodes -/

structure NodeOps.Hom {N' : Type} (ops : NodeOps U N) (ops' : NodeOps U N') (f : N → N') : Prop where
  edge : ∀ n, ops'.edge (f n) = ops.edge n
  link : ∀ n, ops'.link (f n) = ops.link n
  length : ∀ n, ops'.length (f n) = ops.length n
  addEdge : ∀ n c t, ops'.addEdge (f n) c t = f (ops.addEdge n c t)
  moveEdge : ∀ n c t, ops'.moveEdge (f n) c t = f (ops.moveEdge n c t)
  setLink : ∀ n t, ops'.setLink (f n) t = f (ops.setLink n t)

section
variable {N' : Type} {ops : NodeOps U N} {ops' : NodeOps U N'} {f : N → N'}

omit [DecidableEq U]

theorem walkLinks_hom {link : N → Option Nat} {link' : N' → Option Nat} {stop : N → Bool} {stop' : N' → Bool} {act : N → N}
    {act' : N' → N'} (hlink : ∀ n, link' (f n) = link n) (hstop : ∀ n, stop' (f n) = stop n)
    (hact : ∀ n, act' (f n) = f (act n)) :
    ∀ (fuel : Nat) (nodes : List N) (found : Option Nat), walkLinks link' stop' act' fuel (nodes.map f) found =
      (walkLinks link stop act fuel nodes found).map fun r => (r.1.map f, r.2)
  | 0, _, _ => rfl
  | _ + 1, _, none => rfl
  | fuel + 1, nodes, some p => by
    simp only [walkLinks, getElem?_map]
    cases nodes[p]? with
    | none => rfl
    | some n =>
      simp only [map_some, hstop, hlink, hact]
      split
      · rfl
      · rw [← map_set]
        exact walkLinks_hom hlink hstop hact fuel _ _

/-- **A unit is added to the image as it is to the nodes.** -/
theorem extend_hom {new : N → N} {new' : N' → N'} {clone : Nat → N → N → N} {clone' : Nat → N' → N' → N'}
    (h : ops.Hom ops' f)
    (hnew : ∀ n, new' (f n) = f (new n)) (hclone : ∀ p m n, clone' p (f m) (f n) = f (clone p m n)) (last : Nat) (c : U)
    (nodes : List N) :
    extend ops' new' clone' last c (nodes.map f) = (extend ops new clone last c nodes).map (List.map f) := by
  have hlink : ∀ (l : List N) (i t : Nat), (l.map f).modify i (fun n => ops'.setLink n t) =
      (l.modify i fun n => ops.setLink n t).map f := fun l i t => (map_modify_comm (fun n => (h.setLink n t).symm) l i).symm
  have hwalk : ∀ (fuel t : Nat) (l : List N) (p : Option Nat),
      walkLinks ops'.link (fun n => (ops'.edge n c).isSome) (fun n => ops'.addEdge n c t) fuel (l.map f) p =
        (walkLinks ops.link (fun n => (ops.edge n c).isSome) (fun n => ops.addEdge n c t) fuel l p).map fun r =>
          (r.1.map f, r.2) :=
    fun fuel t l p => walkLinks_hom h.link (fun n => by rw [h.edge]) (fun n => h.addEdge n c t) fuel l p
  have hmove : ∀ (fuel q k : Nat) (l : List N) (p : Option Nat),
      walkLinks ops'.link (fun n => decide (ops'.edge n c ≠ some q)) (fun n => ops'.moveEdge n c k) fuel (l.map f) p =
        (walkLinks ops.link (fun n => decide (ops.edge n c ≠ some q)) (fun n => ops.moveEdge n c k) fuel l p).map
          fun r => (r.1.map f, r.2) :=
    fun fuel q k l p => walkLinks_hom h.link (fun n => by rw [h.edge]) (fun n => h.moveEdge n c k) fuel l p
  have happend : ∀ (l : List N) (n : N), l.map f ++ [f n] = (l ++ [n]).map f := fun l n => by
    rw [map_append, map_singleton]
  simp only [extend, getElem?_map, bind_eq_bind]
  cases nodes[last]? with
  | none => rfl
  | some lastNode =>
    simp only [map_some, bind_some, hnew, happend, length_map, hwalk]
    cases walkLinks ops.link (fun n => (ops.edge n c).isSome) (fun n => ops.addEdge n c nodes.length)
      ((nodes ++ [new lastNode]).length + 1) (nodes ++ [new lastNode]) (some last) with
    | none => rfl
    | some r =>
      obtain ⟨nodes₂, found⟩ := r
      cases found with
      | none => exact congrArg some (hlink _ _ _)
      | some p =>
        simp only [map_some, bind_some, getElem?_map]
        cases nodes₂[p]? with
        | none => rfl
        | some pNode =>
          simp only [map_some, bind_some, h.edge]
          cases ops.edge pNode c with
          | none => rfl
          | some q =>
            simp only [bind_some]
            cases nodes₂[q]? with
            | none => rfl
            | some qNode =>
              simp only [map_some, bind_some, h.length, hclone, happend, hlink, length_map, hmove]
              split
              · rfl
              · cases walkLinks ops.link (fun n => decide (ops.edge n c ≠ some q))
                  (fun n => ops.moveEdge n c nodes₂.length) _ _ (some p) <;> rfl

end

end SuffixClasses
