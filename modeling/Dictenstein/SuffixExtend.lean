import Dictenstein.SuffixClasses
/-!
# SuffixExtend — the online construction on a list of nodes

The nodes of the automaton stand in a list, and edges and links are positions in it.
-/
namespace SuffixClasses

open Function List Option

structure NodeOps (U N : Type) where
  edge : N → U → Option Nat
  addEdge : N → U → Nat → N
  moveEdge : N → U → Nat → N
  link : N → Option Nat
  setLink : N → Nat → N
  length : N → Nat

variable {U N : Type} [DecidableEq U]

/-- The operations do what they say on nodes that are well formed. -/
structure NodeOps.Lawful (ops : NodeOps U N) (Ok : N → Prop) : Prop where
  edge_addEdge : ∀ n c t d, Ok n → ops.edge (ops.addEdge n c t) d = if d = c then some t else ops.edge n d
  edge_moveEdge : ∀ n c t d, Ok n → (ops.edge n c).isSome →
    ops.edge (ops.moveEdge n c t) d = if d = c then some t else ops.edge n d
  edge_setLink : ∀ n t d, ops.edge (ops.setLink n t) d = ops.edge n d
  link_addEdge : ∀ n c t, ops.link (ops.addEdge n c t) = ops.link n
  link_moveEdge : ∀ n c t, ops.link (ops.moveEdge n c t) = ops.link n
  link_setLink : ∀ n t, ops.link (ops.setLink n t) = some t
  length_addEdge : ∀ n c t, ops.length (ops.addEdge n c t) = ops.length n
  length_moveEdge : ∀ n c t, ops.length (ops.moveEdge n c t) = ops.length n
  length_setLink : ∀ n t, ops.length (ops.setLink n t) = ops.length n
  ok_addEdge : ∀ n c t, Ok n → Ok (ops.addEdge n c t)
  ok_moveEdge : ∀ n c t, Ok n → Ok (ops.moveEdge n c t)
  ok_setLink : ∀ n t, Ok n → Ok (ops.setLink n t)

/-- Follow the links, changing every node passed, up to the first node that stops the walk; `none` if it has not ended after
`fuel` steps, or leaves the list. -/
def walkLinks (link : N → Option Nat) (stop : N → Bool) (act : N → N) :
    Nat → List N → Option Nat → Option (List N × Option Nat)
  | 0, _, _ => none
  | _ + 1, nodes, none => some (nodes, none)
  | fuel + 1, nodes, some p => match nodes[p]? with
    | none => none
    | some n =>
      if stop n then some (nodes, some p) else walkLinks link stop act fuel (nodes.set p (act n)) (link n)

/-- One unit of the online construction. `new` makes the appended node from the last one, `clone` the copy of a node `q`
from the position `p` and the nodes at `p` and `q`. -/
def extend (ops : NodeOps U N) (new : N → N) (clone : Nat → N → N → N) (last : Nat) (c : U) (nodes : List N) :
    Option (List N) := do
  let lastNode ← nodes[last]?
  let cur := nodes.length
  let nodes := nodes ++ [new lastNode]
  let (nodes, found) ← walkLinks ops.link (fun n => (ops.edge n c).isSome) (fun n => ops.addEdge n c cur)
    (nodes.length + 1) nodes (some last)
  match found with
  | none => return nodes.modify cur (fun n => ops.setLink n 0)
  | some p =>
    let pNode ← nodes[p]?
    let q ← ops.edge pNode c
    let qNode ← nodes[q]?
    if ops.length pNode + 1 = ops.length qNode then return nodes.modify cur (fun n => ops.setLink n q)
    else
      let k := nodes.length
      let nodes := nodes ++ [clone p pNode qNode]
      let nodes := nodes.modify cur (fun n => ops.setLink n k)
      let nodes := nodes.modify q (fun n => ops.setLink n k)
      let (nodes, _) ← walkLinks ops.link (fun n => decide (ops.edge n c ≠ some q)) (fun n => ops.moveEdge n c k)
        (nodes.length + 1) nodes (some p)
      return nodes

/-! ## The walk -/

section
variable {link : N → Option Nat} {stop : N → Bool}

section
omit [DecidableEq U]

theorem walkLinks_spec (A : Auto Nat U) {nodes : List N} (stop : N → Bool) (found : Nat → Prop) (act : N → N)
    (hD : ∀ s ∈ A.states, ∃ n, nodes[s]? = some n ∧ (stop n = true ↔ found s) ∧
      (stop n = false → link n = A.link s ∧ ∀ t, link n = some t → t ∈ A.states ∧ A.rank t < A.rank s)) :
    ∀ (fuel s : Nat) (nodes₁ : List N), s ∈ A.states → A.rank s + 1 < fuel →
      (∀ t ∈ A.states, A.rank t ≤ A.rank s → nodes₁[t]? = nodes[t]?) →
      ∃ vs last nodes₂, walkLinks link stop act fuel nodes₁ (some s) = some (nodes₂, last) ∧
        Walk A.link found (some s) vs last ∧
        (∀ v ∈ vs, v ∈ A.states ∧ A.rank v ≤ A.rank s) ∧
        ∀ t, nodes₂[t]? = nodes₁[t]?.map (fun n => if t ∈ vs then act n else n) := by
  intro fuel
  induction fuel with
  | zero => exact fun s _ _ h => absurd h (Nat.not_lt_zero _)
  | succ fuel ih =>
    intro s nodes₁ hs hfuel hsame
    obtain ⟨n, hn, hfound, hlink⟩ := hD s hs
    have hn₁ : nodes₁[s]? = some n := (hsame s hs le_rfl).trans hn
    simp only [walkLinks, hn₁]
    cases hstop : stop n with
    | true =>
      refine ⟨[], some s, nodes₁, by rw [if_pos rfl], .found (hfound.1 hstop), nofun, fun t => ?_⟩
      simp
    | false =>
      obtain ⟨hnext, hlink⟩ := hlink hstop
      have hnot : ¬ found s := fun h => Bool.false_ne_true (hstop.symm.trans (hfound.2 h))
      rw [if_neg Bool.false_ne_true]
      cases ht : link n with
      | none =>
        obtain ⟨fuel, rfl⟩ : ∃ k, fuel = k + 1 := ⟨fuel - 1, by omega⟩
        refine ⟨[s], none, nodes₁.set s (act n), rfl, .next hnot ?_, forall_mem_singleton.2 ⟨hs, le_rfl⟩, fun t => ?_⟩
        · rw [← hnext, ht]
          exact .done
        · by_cases hts : s = t
          · subst hts
            rw [List.getElem?_set_self (List.getElem?_eq_some_iff.1 hn₁).1, hn₁]
            simp
          · rw [getElem?_set_ne hts]
            simp [Ne.symm hts]
      | some t =>
        obtain ⟨htD, hlt⟩ := hlink t ht
        obtain ⟨vs, last, nodes₂, hok, hwalk, hvs, hnodes⟩ := ih t (nodes₁.set s (act n)) htD (by omega) fun u hu hle => by
          have hne : s ≠ u := by
            rintro rfl
            omega
          rw [getElem?_set_ne hne, hsame u hu (by omega)]
        have hsvs : s ∉ vs := fun hmem => absurd (hvs s hmem).2 (by omega)
        refine ⟨s :: vs, last, nodes₂, hok, .next hnot ?_, fun v hv => ?_, fun u => ?_⟩
        · rw [← hnext, ht]
          exact hwalk
        · obtain rfl | hv := mem_cons.1 hv
          · exact ⟨hs, le_rfl⟩
          · exact ⟨(hvs v hv).1, (hvs v hv).2.trans hlt.le⟩
        · rw [hnodes]
          by_cases hus : s = u
          · subst hus
            rw [List.getElem?_set_self (List.getElem?_eq_some_iff.1 hn₁).1, hn₁]
            simp [hsvs]
          · rw [getElem?_set_ne hus]
            simp [Ne.symm hus]

theorem walkLinks_map {β : Type} {f : N → β} {act : N → N} (hf : ∀ n, f (act n) = f n) :
    ∀ (fuel : Nat) (nodes : List N) (s : Option Nat) (nodes' : List N) (found : Option Nat),
      walkLinks link stop act fuel nodes s = some (nodes', found) → nodes'.map f = nodes.map f := by
  intro fuel
  induction fuel with
  | zero => exact nofun
  | succ fuel ih =>
    intro nodes s nodes' found h
    cases s with
    | none =>
      simp only [walkLinks, some.injEq, Prod.mk.injEq] at h
      rw [h.1]
    | some s =>
      simp only [walkLinks] at h
      split at h
      · cases h
      · rename_i n hn
        split at h
        · simp only [some.injEq, Prod.mk.injEq] at h
          rw [h.1]
        · rw [ih _ _ _ _ h, map_set, hf]
          refine ext_getElem? fun t => ?_
          by_cases hts : s = t
          · subst hts
            rw [List.getElem?_set_self (by simpa using (List.getElem?_eq_some_iff.1 hn).1), List.getElem?_map, hn]
            rfl
          · rw [getElem?_set_ne hts]

end

end

/-! ## The automaton of a list of nodes -/

/-- The automaton, if the state at a position has the word that `word` gives for it. -/
def auto (ops : NodeOps U N) (nodes : List N) (word : Nat → List U) : Auto Nat U where
  states := {s | s < nodes.length}
  root := 0
  edge s d := nodes[s]?.bind fun n => ops.edge n d
  link s := nodes[s]?.bind ops.link
  word := word

structure Rep (ops : NodeOps U N) (Ok : N → Prop) (nodes : List N) (word : Nat → List U) : Prop where
  ok : ∀ (s : Nat) n, nodes[s]? = some n → Ok n
  length : ∀ (s : Nat) n, nodes[s]? = some n → ops.length n = (word s).length
  good : Good (auto ops nodes word)

section
variable {ops : NodeOps U N} {Ok : N → Prop} {nodes : List N} {word : Nat → List U} {s : Nat} {n : N} {d : U}

omit [DecidableEq U]

theorem auto_edge (h : nodes[s]? = some n) : (auto ops nodes word).edge s d = ops.edge n d := by simp [auto, h]

theorem auto_link (h : nodes[s]? = some n) : (auto ops nodes word).link s = ops.link n := by simp [auto, h]

theorem auto_edge_none (h : nodes[s]? = none) : (auto ops nodes word).edge s d = none := by simp [auto, h]

theorem auto_link_none (h : nodes[s]? = none) : (auto ops nodes word).link s = none := by simp [auto, h]

theorem exists_node (h : s < nodes.length) : ∃ n, nodes[s]? = some n := ⟨nodes[s], getElem?_eq_getElem h⟩

theorem exists_changed {nodes' : List N} {f : N → N} (hs : s < nodes.length) (h : nodes'[s]? = nodes[s]?.map f) :
    ∃ n, nodes[s]? = some n ∧ nodes'[s]? = some (f n) := by
  obtain ⟨n, hn⟩ := exists_node hs
  exact ⟨n, hn, by rw [h, hn]; rfl⟩

theorem lt_of_node (h : nodes[s]? = some n) : s < nodes.length := (List.getElem?_eq_some_iff.1 h).1

theorem Rep.link_lt (h : Rep ops Ok nodes word) (hn : nodes[s]? = some n) {t : Nat} (ht : ops.link n = some t) :
    t < nodes.length ∧ (auto ops nodes word).rank t < (auto ops nodes word).rank s := by
  have hlink : (auto ops nodes word).link s = some t := (auto_link hn).trans ht
  have hs : s ∈ (auto ops nodes word).states := lt_of_node hn
  exact ⟨(h.good.link_mem s hs t hlink).2.1, h.good.rank_link_lt hs hlink⟩

end

/-! ## One unit -/

/-- One unit: the words that there were stay, and the appended node has the word of the last one and the unit. -/
structure Extended (ops : NodeOps U N) (Ok : N → Prop) (nodes nodes' : List N) (word word' : Nat → List U) (last : Nat)
    (c : U) : Prop where
  rep : Rep ops Ok nodes' word'
  longer : nodes.length < nodes'.length
  word_old : ∀ s < nodes.length, word' s = word s
  word_cur : word' nodes.length = word last ++ [c]
  word_new : ∀ s, nodes.length ≤ s → s < nodes'.length → word' s <:+ word last ++ [c]
  edge_cur : ∀ d, (auto ops nodes' word').edge nodes.length d = none

section
variable {ops : NodeOps U N} {Ok : N → Prop} {nodes nodes' : List N} {word : Nat → List U} {last target : Nat} {c : U}
  {vs : List Nat} {x : N}

theorem edge_added (hops : ops.Lawful Ok) (s : Nat) {n : N} (hn : Ok n) (d : U) (t : Nat) :
    ops.edge (if s ∈ vs then ops.addEdge n c t else n) d = if s ∈ vs ∧ d = c then some t else ops.edge n d := by
  by_cases hs : s ∈ vs
  · rw [if_pos hs, hops.edge_addEdge n c t d hn]
    simp [hs]
  · simp [hs]

/-- One node more, `x`, linked to `target` and with an edge from each of `vs`. -/
structure Appended (ops : NodeOps U N) (nodes nodes' : List N) (target : Nat) (c : U) (vs : List Nat) (x : N) : Prop where
  lt : ∀ v ∈ vs, v < nodes.length
  edge_new : ∀ d, ops.edge x d = none
  length_eq : nodes'.length = nodes.length + 1
  old : ∀ s < nodes.length, nodes'[s]? = nodes[s]?.map fun n => if s ∈ vs then ops.addEdge n c nodes.length else n
  cur : nodes'[nodes.length]? = some (ops.setLink x target)

section
variable (hops : ops.Lawful Ok) (h : Rep ops Ok nodes word) (ha : Appended ops nodes nodes' target c vs x)
include hops h ha

theorem Rep.appended_auto (l : Nat) : auto ops nodes' (update word nodes.length (word l ++ [c])) =
      (auto ops nodes word).append nodes.length target (word l) c vs := by
  have hlength := ha.length_eq
  refine Auto.ext ?_ rfl ?_ ?_ rfl
  · ext s
    show s < nodes'.length ↔ s = nodes.length ∨ s < nodes.length
    rw [hlength]
    omega
  · funext s d
    show _ = if s = nodes.length then none else if s ∈ vs ∧ d = c then some nodes.length else (auto ops nodes word).edge s d
    obtain hs | rfl | hs := lt_trichotomy s nodes.length
    · obtain ⟨n, hn, hn'⟩ := exists_changed hs (ha.old s hs)
      rw [if_neg hs.ne, auto_edge hn', auto_edge hn, edge_added hops s (h.ok s n hn)]
    · rw [if_pos rfl, auto_edge ha.cur, hops.edge_setLink, ha.edge_new]
    · have hmem : s ∉ vs := fun hmem => absurd (ha.lt s hmem) (by omega)
      rw [if_neg hs.ne', if_neg fun h => hmem h.1, auto_edge_none (getElem?_eq_none_iff.2 hs.le),
        auto_edge_none (getElem?_eq_none_iff.2 (by omega))]
  · funext s
    show _ = if s = nodes.length then some target else (auto ops nodes word).link s
    obtain hs | rfl | hs := lt_trichotomy s nodes.length
    · obtain ⟨n, hn, hn'⟩ := exists_changed hs (ha.old s hs)
      rw [if_neg hs.ne, auto_link hn', auto_link hn]
      split
      · exact hops.link_addEdge n c _
      · rfl
    · rw [if_pos rfl, auto_link ha.cur, hops.link_setLink]
    · rw [if_neg hs.ne', auto_link_none (getElem?_eq_none_iff.2 hs.le), auto_link_none (getElem?_eq_none_iff.2 (by omega))]

theorem Rep.appended (happ : Appends (auto ops nodes word) last nodes.length target c vs) (hok : Ok x)
    (hlen : ops.length x = (word last).length + 1) :
    Extended ops Ok nodes nodes' word (update word nodes.length (word last ++ [c])) last c := by
  have hlength := ha.length_eq
  have hcases : ∀ s n', nodes'[s]? = some n' → s = nodes.length ∨ s < nodes.length := by
    intro s n' hn'
    have := lt_of_node hn'
    omega
  have hword : ∀ s < nodes.length, update word nodes.length (word last ++ [c]) s = word s := fun s hs =>
    update_of_ne hs.ne ..
  have heq := h.appended_auto hops ha last
  refine ⟨⟨fun s n' hn' => ?_, fun s n' hn' => ?_, ?_⟩, by omega, hword, update_self .., fun s hs hs' => ?_, ?_⟩
  · obtain rfl | hs := hcases s n' hn'
    · rw [ha.cur] at hn'
      rw [← some.inj hn']
      exact hops.ok_setLink _ _ hok
    · obtain ⟨n, hn, hnew⟩ := exists_changed hs (ha.old s hs)
      rw [hnew] at hn'
      rw [← some.inj hn']
      split
      · exact hops.ok_addEdge _ _ _ (h.ok s n hn)
      · exact h.ok s n hn
  · obtain rfl | hs := hcases s n' hn'
    · rw [ha.cur] at hn'
      rw [← some.inj hn', hops.length_setLink, hlen, update_self, length_append, length_singleton]
    · obtain ⟨n, hn, hnew⟩ := exists_changed hs (ha.old s hs)
      rw [hnew] at hn'
      rw [hword s hs, ← h.length s n hn, ← some.inj hn']
      split
      · exact hops.length_addEdge _ _ _
      · rfl
  · rw [heq]
    exact Good.append happ
  · obtain rfl : s = nodes.length := by omega
    rw [update_self]
  · intro d
    rw [auto_edge ha.cur, hops.edge_setLink, ha.edge_new]

end

/-- What becomes of a node when `q` is cloned: an edge to the appended node, the link of `q` to the clone, and the edge moved
to the clone. -/
def cloneChange (ops : NodeOps U N) (c : U) (cur k q : Nat) (vs rs : List Nat) (s : Nat) (n : N) : N :=
  let n := if s ∈ vs then ops.addEdge n c cur else n
  let n := if s = q then ops.setLink n k else n
  if s ∈ rs then ops.moveEdge n c k else n

section
variable {cur k q s : Nat} {rs : List Nat} {n : N}

theorem edge_cloneChange (hops : ops.Lawful Ok) (hn : Ok n) (hrs : s ∈ rs → s ∉ vs ∧ s ≠ q ∧ (ops.edge n c).isSome) (d : U) :
    ops.edge (cloneChange ops c cur k q vs rs s n) d =
      if s ∈ vs ∧ d = c then some cur else if s ∈ rs ∧ d = c then some k else ops.edge n d := by
  unfold cloneChange
  by_cases hr : s ∈ rs
  · obtain ⟨hvs, hq, hsome⟩ := hrs hr
    simp only [hr, hvs, hq, if_true, if_false, false_and, true_and]
    rw [hops.edge_moveEdge n c k d hn hsome]
  · simp only [hr, if_false, false_and]
    rw [← edge_added hops s hn d cur]
    split
    · exact hops.edge_setLink _ _ _
    · rfl

theorem link_cloneChange (hops : ops.Lawful Ok) :
    ops.link (cloneChange ops c cur k q vs rs s n) = if s = q then some k else ops.link n := by
  simp only [cloneChange, apply_ite ops.link, hops.link_moveEdge, hops.link_setLink, hops.link_addEdge, ite_self]

structure Keeps (ops : NodeOps U N) {β : Type} (f : N → β) : Prop where
  addEdge : ∀ n c t, f (ops.addEdge n c t) = f n
  moveEdge : ∀ n c t, f (ops.moveEdge n c t) = f n
  setLink : ∀ n t, f (ops.setLink n t) = f n

omit [DecidableEq U] in
theorem Keeps.cloneChange {β : Type} {f : N → β} (hf : Keeps ops f) : f (cloneChange ops c cur k q vs rs s n) = f n := by
  simp only [SuffixClasses.cloneChange, apply_ite f, hf.moveEdge, hf.setLink, hf.addEdge, ite_self]

theorem NodeOps.Lawful.keeps_length (hops : ops.Lawful Ok) : Keeps ops ops.length :=
  ⟨hops.length_addEdge, hops.length_moveEdge, hops.length_setLink⟩

theorem ok_cloneChange (hops : ops.Lawful Ok) (hn : Ok n) : Ok (cloneChange ops c cur k q vs rs s n) := by
  have hite : ∀ (b : Prop) [Decidable b] (f : N → N) {m : N}, (∀ m, Ok m → Ok (f m)) → Ok m → Ok (if b then f m else m) := by
    intro b _ f m hf hm
    split
    · exact hf m hm
    · exact hm
  exact hite _ _ (hops.ok_moveEdge · _ _) (hite _ _ (hops.ok_setLink · _) (hite _ _ (hops.ok_addEdge · _ _) hn))

end

/-- The states that get an edge to the appended one once `q` has been cut: the clone shares the edge that `q` gets. -/
def withClone (q k : Nat) (vs : List Nat) : List Nat := if q ∈ vs then k :: vs else vs

variable {p q cur k s : Nat}

theorem mem_withClone : s ∈ withClone q k vs ↔ s ∈ vs ∨ s = k ∧ q ∈ vs := by
  unfold withClone
  split
  · rename_i hq
    rw [mem_cons]
    tauto
  · tauto

theorem appends_clone {rs : List Nat} (hlast : last < nodes.length) (hpass : Passed (auto ops nodes word) c last vs (some p))
    (hsplit : Splits (auto ops nodes word) p q (nodes.length + 1) c rs) :
    Appends ((auto ops nodes word).split q (nodes.length + 1) (word p ++ [c]) c rs) last nodes.length (nodes.length + 1) c
      (withClone q (nodes.length + 1) vs) := by
  have hvs : ∀ v ∈ vs, v < nodes.length := fun v hv => (hpass.mem v hv).1
  have hwl : ((auto ops nodes word).split q (nodes.length + 1) (word p ++ [c]) c rs).word last = word last :=
    Splits.word_of_ne _ (by omega)
  have hwk : ((auto ops nodes word).split q (nodes.length + 1) (word p ++ [c]) c rs).word (nodes.length + 1) =
      word p ++ [c] := Splits.word_k ..
  have hpsuffix : word p <:+ word last := (hpass.found p rfl).2.1
  refine ⟨Good.split hsplit, ?_, Set.mem_insert_of_mem _ hlast, ?_, ?_, fun s hs => ?_, fun s w hs => ?_⟩
  · intro hmem
    obtain heq | hlt := Set.mem_insert_iff.1 hmem
    · omega
    · exact absurd (show nodes.length < nodes.length from hlt) (lt_irrefl _)
  · rw [hwl, hwk]
    exact concat_suffix_concat.2 ⟨rfl, hpsuffix⟩
  · rw [hwk]
    exact hsplit.holds_iff_k.2 ⟨hsplit.holds_q, le_of_eq length_append⟩
  · show (if s = nodes.length + 1 then (auto ops nodes word).edge q c
      else if s ∈ rs ∧ c = c then some (nodes.length + 1) else (auto ops nodes word).edge s c) = none
    obtain hs | ⟨rfl, hq⟩ := mem_withClone.1 hs
    · have hrs : s ∉ rs := fun hr => by
        have := hsplit.edge_rs s hr
        rw [hpass.edge_none s hs] at this
        cases this
      rw [if_neg (by have := hvs s hs; omega), if_neg fun hr => hrs hr.1]
      exact hpass.edge_none s hs
    · rw [if_pos rfl]
      exact hpass.edge_none q hq
  · rw [hwl, hwk, length_append, length_singleton, mem_withClone]
    -- the words of the clone are words of `q`
    have hiff : ∀ v, (auto ops nodes word).Holds v w → (v ∈ vs ↔ w <:+ word last ∧ (word p).length + 1 < w.length + 1) := by
      intro v hv
      rw [hpass.mem_iff hv]
      refine and_congr_right fun _ => ⟨fun hlt => Nat.succ_lt_succ (hlt p rfl), fun hlt u hu => ?_⟩
      rw [← some.inj hu]
      exact Nat.lt_of_succ_lt_succ hlt
    by_cases hsk : s = nodes.length + 1
    · subst hsk
      have hkvs : nodes.length + 1 ∉ vs := fun hmem => absurd (hvs _ hmem) (by omega)
      rw [← hiff q (hsplit.holds_iff_k.1 hs).1]
      tauto
    · have hold : (auto ops nodes word).Holds s w := by
        by_cases hsq : s = q
        · subst hsq
          exact (hsplit.holds_iff_q.1 hs).1
        · exact (hsplit.holds_of_ne hsk hsq).1 hs
      rw [← hiff s hold]
      tauto

/-- The nodes after `q` has been cloned: the appended node `x` is linked to the clone `y`. -/
structure Cloned (ops : NodeOps U N) (Ok : N → Prop) (nodes nodes' : List N) (word : Nat → List U) (last : Nat) (c : U)
    (vs : List Nat) (p q : Nat) (rs : List Nat) (x y : N) : Prop where
  last_lt : last < nodes.length
  passed : Passed (auto ops nodes word) c last vs (some p)
  splits : Splits (auto ops nodes word) p q (nodes.length + 1) c rs
  rs_lt : ∀ r ∈ rs, r < nodes.length
  ok_new : Ok x
  edge_new : ∀ d, ops.edge x d = none
  length_new : ops.length x = (word last).length + 1
  ok_clone : Ok y
  edge_clone : ∀ d, ops.edge y d = if q ∈ vs ∧ d = c then some nodes.length else (auto ops nodes word).edge q d
  link_clone : ops.link y = (auto ops nodes word).link q
  length_clone : ops.length y = (word p).length + 1
  length_eq : nodes'.length = nodes.length + 2
  old : ∀ s < nodes.length, nodes'[s]? = nodes[s]?.map (cloneChange ops c nodes.length (nodes.length + 1) q vs rs s)
  cur : nodes'[nodes.length]? = some (ops.setLink x (nodes.length + 1))
  clone : nodes'[nodes.length + 1]? = some y

section
omit [DecidableEq U]

def clonedWord (word : Nat → List U) (cur last p : Nat) (c : U) : Nat → List U :=
  update (update word (cur + 1) (word p ++ [c])) cur (word last ++ [c])

theorem clonedWord_of_lt (hs : s < cur) : clonedWord word cur last p c s = word s := by
  rw [clonedWord, update_of_ne hs.ne, update_of_ne (by omega)]

theorem clonedWord_cur : clonedWord word cur last p c cur = word last ++ [c] := update_self ..

theorem clonedWord_clone : clonedWord word cur last p c (cur + 1) = word p ++ [c] := by
  rw [clonedWord, update_of_ne (by omega), update_self]

end

namespace Cloned

variable {p q : Nat} {rs : List Nat} {y : N}
variable {s : Nat}

section
variable (hc : Cloned ops Ok nodes nodes' word last c vs p q rs x y)
include hc

theorem exists_old (hs : s < nodes.length) :
    ∃ n, nodes[s]? = some n ∧ nodes'[s]? = some (cloneChange ops c nodes.length (nodes.length + 1) q vs rs s n) :=
  exists_changed hs (hc.old s hs)

theorem lt_cases {n' : N} (hn' : nodes'[s]? = some n') : s = nodes.length + 1 ∨ s = nodes.length ∨ s < nodes.length := by
  have := hc.length_eq ▸ lt_of_node hn'
  omega

theorem moved {n : N} (hn : nodes[s]? = some n) (hr : s ∈ rs) : s ∉ vs ∧ s ≠ q ∧ (ops.edge n c).isSome := by
  have hq := hc.splits.edge_rs s hr
  refine ⟨fun hv => ?_, ?_, ?_⟩
  · rw [hc.passed.edge_none s hv] at hq
    cases hq
  · rintro rfl
    exact hc.splits.q_notMem hr
  · rw [auto_edge hn] at hq
    rw [hq]
    rfl

section
variable (hops : ops.Lawful Ok)
include hops

theorem edge_eq
    (h : Rep ops Ok nodes word) (word' : Nat → List U) (s : Nat) (d : U) : (auto ops nodes' word').edge s d =
      if s = nodes.length then none
      else if s ∈ withClone q (nodes.length + 1) vs ∧ d = c then some nodes.length
      else if s = nodes.length + 1 then (auto ops nodes word).edge q d
      else if s ∈ rs ∧ d = c then some (nodes.length + 1) else (auto ops nodes word).edge s d := by
  have hlength := hc.length_eq
  simp only [mem_withClone]
  obtain hs | rfl | hs := lt_trichotomy s nodes.length
  · obtain ⟨n, hn, hn'⟩ := hc.exists_old hs
    have hsk : s ≠ nodes.length + 1 := by omega
    rw [if_neg hs.ne, auto_edge hn', auto_edge hn, edge_cloneChange hops (h.ok s n hn) (hc.moved hn)]
    simp [hsk]
  · rw [if_pos rfl, auto_edge hc.cur, hops.edge_setLink, hc.edge_new]
  · have hsvs : s ∉ vs := fun hmem => lt_asymm hs (hc.passed.mem s hmem).1
    have hsrs : s ∉ rs := fun hmem => lt_asymm hs (hc.rs_lt s hmem)
    rw [if_neg hs.ne']
    by_cases hsk : s = nodes.length + 1
    · subst hsk
      rw [auto_edge hc.clone, hc.edge_clone]
      simp [hsvs]
    · have hnone : nodes[s]? = none := getElem?_eq_none_iff.2 hs.le
      have hnone' : nodes'[s]? = none := getElem?_eq_none_iff.2 (by omega)
      rw [auto_edge_none hnone', auto_edge_none hnone]
      simp [hsk, hsvs, hsrs]

theorem link_eq (word' : Nat → List U) (s : Nat) :
    (auto ops nodes' word').link s = if s = nodes.length then some (nodes.length + 1)
      else if s = nodes.length + 1 then (auto ops nodes word).link q
      else if s = q then some (nodes.length + 1) else (auto ops nodes word).link s := by
  have hlength := hc.length_eq
  have hqlt : q < nodes.length := hc.splits.holds_q.1
  obtain hs | rfl | hs := lt_trichotomy s nodes.length
  · obtain ⟨n, hn, hn'⟩ := hc.exists_old hs
    rw [if_neg hs.ne, if_neg (by omega), auto_link hn', auto_link hn, link_cloneChange hops]
  · rw [if_pos rfl, auto_link hc.cur, hops.link_setLink]
  · rw [if_neg hs.ne']
    by_cases hsk : s = nodes.length + 1
    · subst hsk
      rw [if_pos rfl, auto_link hc.clone, hc.link_clone]
    · rw [if_neg hsk, if_neg (by omega), auto_link_none (getElem?_eq_none_iff.2 (by omega)),
        auto_link_none (getElem?_eq_none_iff.2 (by omega))]

theorem auto_eq
    (h : Rep ops Ok nodes word) : auto ops nodes' (clonedWord word nodes.length last p c) =
      ((auto ops nodes word).split q (nodes.length + 1) (word p ++ [c]) c rs).append nodes.length (nodes.length + 1)
        (word last) c (withClone q (nodes.length + 1) vs) := by
  refine Auto.ext ?_ rfl ?_ ?_ rfl
  · ext s
    show s < nodes'.length ↔ s = nodes.length ∨ s = nodes.length + 1 ∨ s < nodes.length
    rw [hc.length_eq]
    omega
  · funext s d
    exact hc.edge_eq hops h _ s d
  · funext s
    exact hc.link_eq hops _ s

theorem rep (h : Rep ops Ok nodes word) : Rep ops Ok nodes' (clonedWord word nodes.length last p c) := by
  refine ⟨fun s n' hn' => ?_, fun s n' hn' => ?_, ?_⟩
  · obtain rfl | rfl | hs := hc.lt_cases hn'
    · rw [hc.clone] at hn'
      rw [← some.inj hn']
      exact hc.ok_clone
    · rw [hc.cur] at hn'
      rw [← some.inj hn']
      exact hops.ok_setLink _ _ hc.ok_new
    · obtain ⟨n, hn, hnew⟩ := hc.exists_old hs
      rw [hnew] at hn'
      rw [← some.inj hn']
      exact ok_cloneChange hops (h.ok s n hn)
  · obtain rfl | rfl | hs := hc.lt_cases hn'
    · rw [hc.clone] at hn'
      rw [← some.inj hn', hc.length_clone, clonedWord_clone, length_append, length_singleton]
    · rw [hc.cur] at hn'
      rw [← some.inj hn', hops.length_setLink, hc.length_new, clonedWord_cur, length_append, length_singleton]
    · obtain ⟨n, hn, hnew⟩ := hc.exists_old hs
      rw [hnew] at hn'
      rw [clonedWord_of_lt hs, ← h.length s n hn, ← some.inj hn', hops.keeps_length.cloneChange]
  · have hlast := hc.last_lt
    have hword : ((auto ops nodes word).split q (nodes.length + 1) (word p ++ [c]) c rs).word last = word last :=
      Splits.word_of_ne _ (by omega)
    have happ := Good.append (appends_clone hc.last_lt hc.passed hc.splits)
    rw [hc.auto_eq hops h]
    rwa [hword] at happ

theorem extended
    (h : Rep ops Ok nodes word) :
    Extended ops Ok nodes nodes' word (clonedWord word nodes.length last p c) last c := by
  have hlength := hc.length_eq
  refine ⟨hc.rep hops h, by omega, fun s hs => clonedWord_of_lt hs, clonedWord_cur, fun s hs hs' => ?_, fun d => ?_⟩
  · obtain rfl | rfl : s = nodes.length ∨ s = nodes.length + 1 := by omega
    · rw [clonedWord_cur]
    · rw [clonedWord_clone]
      exact concat_suffix_concat.2 ⟨rfl, (hc.passed.found p rfl).2.1⟩
  · rw [auto_edge hc.cur, hops.edge_setLink, hc.edge_new]

end

end

end Cloned

/-! ## Where the states come from -/

/-- Every node but the appended one comes from one that was there, has what `f` reads of it and holds words of it only; no
word is lost. -/
structure Origin (ops : NodeOps U N) {β : Type} (f : N → β) (nodes nodes' : List N) (word word' : Nat → List U)
    (origin : Nat → Nat) : Prop where
  node : ∀ s n', s ≠ nodes.length → nodes'[s]? = some n' → ∃ n, nodes[origin s]? = some n ∧ f n' = f n
  holds : ∀ s w, s ≠ nodes.length → (auto ops nodes' word').Holds s w → (auto ops nodes word).Holds (origin s) w
  held : ∀ s w, (auto ops nodes word).Holds s w → ∃ t, t ≠ nodes.length ∧ (auto ops nodes' word').Holds t w
  word_clone : ∀ s, nodes.length < s → s < nodes'.length → (auto ops nodes word).Holds (origin s) (word' s)

section
variable {β : Type} {f : N → β}

theorem Rep.appended_origin (hops : ops.Lawful Ok) (hf : Keeps ops f) (h : Rep ops Ok nodes word)
    (ha : Appended ops nodes nodes' target c vs x) (happ : Appends (auto ops nodes word) last nodes.length target c vs) :
    Origin ops f nodes nodes' word (update word nodes.length (word last ++ [c])) id := by
  have hlength := ha.length_eq
  have heq := h.appended_auto hops ha last
  have hiff : ∀ s w, s ≠ nodes.length → ((auto ops nodes' (update word nodes.length (word last ++ [c]))).Holds s w ↔
      (auto ops nodes word).Holds s w) := by
    intro s w hs
    rw [heq]
    exact happ.holds_of_ne hs
  refine ⟨fun s n' hs hn' => ?_, fun s w hs => (hiff s w hs).1, fun s w hw => ?_, fun s hs hs' => absurd hs' (by omega)⟩
  · have hlt : s < nodes.length := by
      have := lt_of_node hn'
      omega
    obtain ⟨n, hn⟩ := exists_node hlt
    rw [ha.old s hlt, hn, map_some, some.injEq] at hn'
    refine ⟨n, hn, ?_⟩
    rw [← hn']
    split
    · exact hf.addEdge n c _
    · rfl
  · have hs : s ≠ nodes.length := happ.ne_of_mem hw.1
    exact ⟨s, hs, (hiff s w hs).2 hw⟩

theorem Cloned.origin {rs : List Nat} {y qNode : N} (hc : Cloned ops Ok nodes nodes' word last c vs p q rs x y)
    (hops : ops.Lawful Ok) (hf : Keeps ops f) (h : Rep ops Ok nodes word) (hq : nodes[q]? = some qNode)
    (hy : f y = f qNode) :
    Origin ops f nodes nodes' word (clonedWord word nodes.length last p c)
      fun s => if s = nodes.length + 1 then q else s := by
  have hlength := hc.length_eq
  have hqlt : q < nodes.length := hc.splits.holds_q.1
  have hlast := hc.last_lt
  have hword : ((auto ops nodes word).split q (nodes.length + 1) (word p ++ [c]) c rs).word last = word last :=
    Splits.word_of_ne _ (by omega)
  have happ := appends_clone hc.last_lt hc.passed hc.splits
  -- the appended node takes no word from the states of the cut automaton
  have hiff : ∀ s w, s ≠ nodes.length → ((auto ops nodes' (clonedWord word nodes.length last p c)).Holds s w ↔
      ((auto ops nodes word).split q (nodes.length + 1) (word p ++ [c]) c rs).Holds s w) := by
    intro s w hs
    have := happ.holds_of_ne (w := w) hs
    rw [hc.auto_eq hops h]
    rwa [hword] at this
  refine ⟨fun s n' hs hn' => ?_, fun s w hs hw => ?_, fun s w hw => ?_, fun s hs hs' => ?_⟩
  · obtain rfl | rfl | hlt := hc.lt_cases hn'
    · rw [hc.clone, some.injEq] at hn'
      exact ⟨qNode, by rw [if_pos rfl, hq], hn' ▸ hy⟩
    · exact absurd rfl hs
    · obtain ⟨n, hn, hnew⟩ := hc.exists_old hlt
      rw [hnew, some.injEq] at hn'
      refine ⟨n, by rw [if_neg (by omega), hn], ?_⟩
      rw [← hn', hf.cloneChange]
  · have hw := (hiff s w hs).1 hw
    by_cases hk : s = nodes.length + 1
    · rw [if_pos hk]
      exact (hc.splits.holds_iff_k.1 (hk ▸ hw)).1
    · rw [if_neg hk]
      by_cases hsq : s = q
      · exact hsq ▸ (hc.splits.holds_iff_q.1 (hsq ▸ hw)).1
      · exact (hc.splits.holds_of_ne hk hsq).1 hw
  · have hs : s < nodes.length := hw.1
    by_cases hsq : s = q
    · by_cases hlong : (word p).length + 1 < w.length
      · exact ⟨q, hqlt.ne, (hiff q w hqlt.ne).2 (hc.splits.holds_iff_q.2 ⟨hsq ▸ hw, hlong⟩)⟩
      · exact ⟨nodes.length + 1, by omega, (hiff _ w (by omega)).2 (hc.splits.holds_iff_k.2 ⟨hsq ▸ hw, by
          show w.length ≤ (word p).length + 1
          omega⟩)⟩
    · exact ⟨s, hs.ne, (hiff s w hs.ne).2 ((hc.splits.holds_of_ne (by omega) hsq).2 hw)⟩
  · obtain rfl : s = nodes.length + 1 := by omega
    rw [if_pos rfl, clonedWord_clone]
    exact hc.splits.holds_q

end

theorem Rep.exists_redirected (hops : ops.Lawful Ok) (h : Rep ops Ok nodes word) {nodes₃ : List N}
    (hproper : (auto ops nodes word).Holds p (word p)) (hproperq : (auto ops nodes word).Holds q (word q))
    (hshort : (word p).length < nodes.length) (hvs : ∀ v ∈ vs, (auto ops nodes word).edge v c = none)
    (hlength : nodes.length ≤ nodes₃.length)
    (hnodes : ∀ s < nodes.length, nodes₃[s]? = nodes[s]?.map (cloneChange ops c nodes.length k q vs [] s)) :
    ∃ rs found nodes₄, walkLinks ops.link (fun n => decide (ops.edge n c ≠ some q)) (fun n => ops.moveEdge n c k)
        (nodes₃.length + 1) nodes₃ (some p) = some (nodes₄, found) ∧
      Walk (auto ops nodes word).link (fun s => (auto ops nodes word).edge s c ≠ some q) (some p) rs found ∧
      (∀ r ∈ rs, r < nodes.length) ∧
      ∀ t, nodes₄[t]? = nodes₃[t]?.map (fun n => if t ∈ rs then ops.moveEdge n c k else n) := by
  let change := cloneChange ops c nodes.length k q vs []
  have hnode : ∀ s < nodes.length, ∃ n, nodes[s]? = some n ∧ nodes₃[s]? = some (change s n) :=
    fun s hs => exists_changed hs (hnodes s hs)
  have hqlt : q < nodes.length := hproperq.1
  -- the first walk has changed no edge to `q`
  have hedge : ∀ s n, nodes[s]? = some n →
      (ops.edge (change s n) c = some q ↔ (auto ops nodes word).edge s c = some q) := by
    intro s n hn
    rw [edge_cloneChange hops (h.ok s n hn) (fun hr => absurd hr not_mem_nil), auto_edge hn]
    by_cases hs : s ∈ vs
    · have hnone := hvs s hs
      rw [auto_edge hn] at hnone
      simp only [hs, and_self, if_true, hnone, reduceCtorEq, iff_false, some.injEq]
      omega
    · simp [hs]
  -- and a state that the walk passes is not `q`
  have hlink : ∀ s n, nodes[s]? = some n → ops.edge (change s n) c = some q →
      ops.link (change s n) = ops.link n := by
    intro s n hn hsq
    have hne : s ≠ q := by
      rintro rfl
      exact h.good.edge_ne_self hproperq ((hedge s n hn).1 hsq)
    rw [link_cloneChange hops, if_neg hne]
  have hfuel : (auto ops nodes word).rank p + 1 < nodes₃.length + 1 := by
    have hrank : (auto ops nodes word).rank p = (word p).length := Auto.rank_of_holds hproper
    omega
  obtain ⟨rs, found, nodes₄, hok, hwalk, hrs, hnodes₄⟩ := walkLinks_spec (auto ops nodes word)
    (fun n => decide (ops.edge n c ≠ some q)) (fun s => (auto ops nodes word).edge s c ≠ some q)
      (fun n => ops.moveEdge n c k) (fun s hs => by
      obtain ⟨n, hn, hn₃⟩ := hnode s hs
      refine ⟨_, hn₃, decide_eq_true_iff.trans (hedge s n hn).not, fun hstop => ?_⟩
      have heq := hlink s n hn (not_not.1 (of_decide_eq_false hstop))
      exact ⟨heq.trans (auto_link hn).symm, fun t ht => h.link_lt hn (heq.symm.trans ht)⟩)
    (nodes₃.length + 1) p nodes₃ hproper.1 hfuel fun _ _ _ => rfl
  exact ⟨rs, found, nodes₄, hok, hwalk, fun r hr => (hrs r hr).1, hnodes₄⟩

end

/-! ## The construction -/

/-- The nodes that the construction makes: a new one without edges, and a copy that is shorter. -/
structure Makes (ops : NodeOps U N) (Ok : N → Prop) (new : N → N) (clone : Nat → N → N → N) : Prop where
  ok_new : ∀ n, Ok (new n)
  edge_new : ∀ n d, ops.edge (new n) d = none
  length_new : ∀ n, ops.length (new n) = ops.length n + 1
  ok_clone : ∀ p pNode qNode, Ok qNode → Ok (clone p pNode qNode)
  edge_clone : ∀ p pNode qNode d, ops.edge (clone p pNode qNode) d = ops.edge qNode d
  link_clone : ∀ p pNode qNode, ops.link (clone p pNode qNode) = ops.link qNode
  length_clone : ∀ p pNode qNode, ops.length (clone p pNode qNode) = ops.length pNode + 1

structure FirstWalk (ops : NodeOps U N) (nodes : List N) (word : Nat → List U) (last : Nat) (c : U) (x : N) (vs : List Nat)
    (found : Option Nat) (nodes₂ : List N) : Prop where
  passed : Passed (auto ops nodes word) c last vs found
  length : nodes₂.length = nodes.length + 1
  old : ∀ s < nodes.length, nodes₂[s]? = nodes[s]?.map fun n => if s ∈ vs then ops.addEdge n c nodes.length else n
  cur : nodes₂[nodes.length]? = some x

/-- What the first walk has found: a node that holds its word, and its edge by the unit. -/
structure Found (ops : NodeOps U N) (nodes : List N) (word : Nat → List U) (c : U) (vs : List Nat) (nodes₂ : List N)
    (p q : Nat) (pNode qNode : N) : Prop where
  proper : (auto ops nodes word).Holds p (word p)
  edge : (auto ops nodes word).edge p c = some q
  holds : (auto ops nodes word).Holds q (word p ++ [c])
  pNode_edge : ops.edge pNode c = some q
  pNode_length : ops.length pNode = (word p).length
  pNode_eq : nodes₂[p]? = some pNode
  qNode_old : nodes[q]? = some qNode
  qNode_eq : nodes₂[q]? = some (if q ∈ vs then ops.addEdge qNode c nodes.length else qNode)
  qNode_length : ops.length (if q ∈ vs then ops.addEdge qNode c nodes.length else qNode) = (word q).length

section
variable {ops : NodeOps U N} {Ok : N → Prop} {nodes nodes₂ : List N} {word : Nat → List U} {last p q : Nat} {c : U} {x : N}
  {vs : List Nat} {found : Option Nat} {pNode qNode : N}

omit [DecidableEq U] in
theorem Rep.exists_firstWalk (h : Rep ops Ok nodes word) (hlast : last < nodes.length)
    (hshort : (word last).length < nodes.length) (c : U) (x : N) :
    ∃ vs found nodes₂, walkLinks ops.link (fun n => (ops.edge n c).isSome) (fun n => ops.addEdge n c nodes.length)
        ((nodes ++ [x]).length + 1) (nodes ++ [x]) (some last) = some (nodes₂, found) ∧
      FirstWalk ops nodes word last c x vs found nodes₂ := by
  have hfuel : (auto ops nodes word).rank last + 1 < (nodes ++ [x]).length + 1 := by
    have hle : (auto ops nodes word).rank last ≤ (word last).length + 1 := (auto ops nodes word).rank_le last
    rw [length_append, length_singleton]
    omega
  obtain ⟨vs, found, nodes₂, hok, hwalk, -, hnodes⟩ := walkLinks_spec (auto ops nodes word) (fun n => (ops.edge n c).isSome)
    (fun s => ((auto ops nodes word).edge s c).isSome) (fun n => ops.addEdge n c nodes.length) (fun s hs => by
      obtain ⟨n, hn⟩ := exists_node hs
      rw [auto_edge hn]
      exact ⟨n, (getElem?_append_left hs).trans hn, Iff.rfl, fun _ => ⟨(auto_link hn).symm, fun t ht => h.link_lt hn ht⟩⟩)
    ((nodes ++ [x]).length + 1) last (nodes ++ [x]) hlast hfuel fun _ _ _ => rfl
  have hpass : Passed (auto ops nodes word) c last vs found := h.good.passed hwalk last hlast rfl
  refine ⟨vs, found, nodes₂, hok, hpass, ?_, fun s hs => ?_, ?_⟩
  · have := congrArg List.length (walkLinks_map (f := fun _ => ()) (fun _ => rfl) _ _ _ _ _ hok)
    simpa using this
  · rw [hnodes, getElem?_append_left hs]
  · have hmem : nodes.length ∉ vs := fun hmem => lt_irrefl nodes.length (hpass.mem _ hmem).1
    rw [hnodes, getElem?_concat_length, map_some, if_neg hmem]

theorem FirstWalk.exists_found (hops : ops.Lawful Ok) (h : Rep ops Ok nodes word)
    (hwalk : FirstWalk ops nodes word last c x vs (some p) nodes₂)
    (hfresh : last = 0 ∨ ∀ d, (auto ops nodes word).edge last d = none) :
    ∃ q pNode qNode, Found ops nodes word c vs nodes₂ p q pNode qNode := by
  obtain ⟨hpmem, -, hpsome, hpor⟩ := hwalk.passed.found p rfl
  obtain ⟨q, hpq⟩ := isSome_iff_exists.1 hpsome
  have hproper : (auto ops nodes word).Holds p (word p) := by
    obtain rfl | hpor := hpor
    · obtain rfl | hnone := hfresh
      · rw [show word 0 = [] from h.good.root_word]
        exact h.good.holds_root
      · rw [hnone c] at hpq
        cases hpq
    · exact hpor
  have hq := (h.good.edge_iff p _ c q hproper).1 hpq
  obtain ⟨pNode, hpNode⟩ := exists_node (show p < nodes.length from hpmem)
  obtain ⟨qNode, hqNode⟩ := exists_node (show q < nodes.length from hq.1)
  refine ⟨q, pNode, qNode, hproper, hpq, hq, (auto_edge hpNode).symm.trans hpq, h.length p pNode hpNode, ?_, hqNode, ?_, ?_⟩
  · have hpvs : p ∉ vs := fun hmem => by
      rw [hwalk.passed.edge_none p hmem] at hpq
      cases hpq
    rw [hwalk.old p hpmem, hpNode, map_some, if_neg hpvs]
  · rw [hwalk.old q hq.1, hqNode]
    rfl
  · rw [← h.length q qNode hqNode]
    split
    · exact hops.length_addEdge _ _ _
    · rfl

omit [DecidableEq U] in
theorem FirstWalk.appended (hwalk : FirstWalk ops nodes word last c x vs found nodes₂) (hedge : ∀ d, ops.edge x d = none)
    {target : Nat} : Appended ops nodes (nodes₂.modify nodes.length fun n => ops.setLink n target) target c vs x := by
  refine ⟨fun v hv => (hwalk.passed.mem v hv).1, hedge, by rw [length_modify, hwalk.length], fun s hs => ?_, ?_⟩
  · rw [getElem?_modify_ne _ _ hs.ne', hwalk.old s hs]
  · rw [getElem?_modify_eq, hwalk.cur]
    rfl

variable {β : Type}

section
omit [DecidableEq U]

theorem FirstWalk.appends_root (h : Rep ops Ok nodes word) (hwalk : FirstWalk ops nodes word last c x vs none nodes₂)
    (hlast : last < nodes.length) : Appends (auto ops nodes word) last nodes.length 0 c vs := by
  have hroot : (auto ops nodes word).word 0 = [] := h.good.root_word
  refine ⟨h.good, fun hmem => lt_irrefl nodes.length hmem, hlast, ?_, ?_, hwalk.passed.edge_none, fun s w hs => ?_⟩
  · rw [hroot]
    exact nil_suffix
  · rw [hroot]
    exact h.good.holds_root
  · rw [hwalk.passed.mem_iff hs, hroot]
    exact and_congr_right fun _ => ⟨fun _ => Nat.succ_pos _, nofun⟩

theorem FirstWalk.appends_solid (h : Rep ops Ok nodes word) (hwalk : FirstWalk ops nodes word last c x vs (some p) nodes₂)
    (hlast : last < nodes.length) (hfound : Found ops nodes word c vs nodes₂ p q pNode qNode)
    (hsolid : (word p).length + 1 = (word q).length) : Appends (auto ops nodes word) last nodes.length q c vs := by
  have hwordq : word p ++ [c] = word q := by
    refine eq_of_suffix_length hfound.holds.2.1 ?_
    rw [length_append, length_singleton]
    exact hsolid.symm.le
  refine ⟨h.good, fun hmem => lt_irrefl nodes.length hmem, hlast, ?_, ?_, hwalk.passed.edge_none, fun s w hs => ?_⟩
  · show word q <:+ word last ++ [c]
    rw [← hwordq]
    exact concat_suffix_concat.2 ⟨rfl, (hwalk.passed.found p rfl).2.1⟩
  · show (auto ops nodes word).Holds q (word q)
    rw [← hwordq]
    exact hfound.holds
  · rw [hwalk.passed.mem_iff hs]
    show _ ↔ _ ∧ (word q).length < _
    rw [← hsolid]
    refine and_congr_right fun _ => ⟨fun hlt => Nat.succ_lt_succ (hlt p rfl), fun hlt u hu => ?_⟩
    rw [← some.inj hu]
    exact Nat.lt_of_succ_lt_succ hlt

end

theorem FirstWalk.cloned (hops : ops.Lawful Ok) (h : Rep ops Ok nodes word)
    (hwalk : FirstWalk ops nodes word last c x vs (some p) nodes₂) (hlast : last < nodes.length)
    (hshort : (word last).length < nodes.length) (hfound : Found ops nodes word c vs nodes₂ p q pNode qNode)
    (hnot : (word p).length + 1 ≠ (word q).length) (hok : Ok x) (hedge : ∀ d, ops.edge x d = none)
    (hlen : ops.length x = (word last).length + 1) {y : N} (hoky : Ok y)
    (hedgey : ∀ d, ops.edge y d = ops.edge (if q ∈ vs then ops.addEdge qNode c nodes.length else qNode) d)
    (hlinky : ops.link y = ops.link (if q ∈ vs then ops.addEdge qNode c nodes.length else qNode))
    (hleny : ops.length y = ops.length pNode + 1) {nodes₃ : List N}
    (hnodes₃ : nodes₃ = ((nodes₂ ++ [y]).modify nodes.length fun n => ops.setLink n (nodes.length + 1)).modify q
      fun n => ops.setLink n (nodes.length + 1)) :
    ∃ nodes₄ end₄ rs, walkLinks ops.link (fun n => decide (ops.edge n c ≠ some q))
        (fun n => ops.moveEdge n c (nodes.length + 1)) (nodes₃.length + 1) nodes₃ (some p) = some (nodes₄, end₄) ∧
      Cloned ops Ok nodes nodes₄ word last c vs p q rs x y := by
  have hpsuffix : word p <:+ word last := (hwalk.passed.found p rfl).2.1
  have hlonger : (word p).length + 1 < (word q).length := by
    have hle := hfound.holds.2.1.length_le
    rw [length_append, length_singleton] at hle
    exact lt_of_le_of_ne hle hnot
  have hproperq : (auto ops nodes word).Holds q (word q) := by
    refine ⟨hfound.holds.1, suffix_rfl, fun t ht => lt_trans (hfound.holds.2.2 t ht) ?_⟩
    rwa [length_append, length_singleton]
  have hqlt : q < nodes.length := hfound.holds.1
  have hlength₃ : nodes₃.length = nodes.length + 2 := by
    simp only [hnodes₃, length_modify, length_append, hwalk.length, length_singleton]
  have hold₃ : ∀ s < nodes.length,
    nodes₃[s]? = nodes[s]?.map (cloneChange ops c nodes.length (nodes.length + 1) q vs [] s) := by
    intro s hs
    obtain ⟨n, hn⟩ := exists_node hs
    have hs₂ : s < nodes₂.length := by rw [hwalk.length]; omega
    rw [hnodes₃, getElem?_modify, getElem?_modify_ne _ _ hs.ne', getElem?_append_left hs₂, hwalk.old s hs, hn]
    simp [cloneChange, eq_comm]
  have hcur₃ : nodes₃[nodes.length]? = some (ops.setLink x (nodes.length + 1)) := by
    have hs₂ : nodes.length < nodes₂.length := by rw [hwalk.length]; omega
    rw [hnodes₃, getElem?_modify_ne _ _ hqlt.ne, getElem?_modify_eq, getElem?_append_left hs₂, hwalk.cur]
    rfl
  have hclone₃ : nodes₃[nodes.length + 1]? = some y := by
    rw [hnodes₃, getElem?_modify_ne _ _ (by omega), getElem?_modify_ne _ _ (by omega), ← hwalk.length,
      getElem?_concat_length]
  obtain ⟨rs, end₄, nodes₄, hwalk₄, hredirect, hrs, hnodes₄⟩ := h.exists_redirected hops hfound.proper hproperq
    (lt_of_le_of_lt hpsuffix.length_le hshort) hwalk.passed.edge_none (by omega) hold₃
  obtain ⟨hedge_rs, hmem_rs⟩ := h.good.redirected hfound.holds hredirect p rfl hfound.proper suffix_rfl
  have hsplit : Splits (auto ops nodes word) p q (nodes.length + 1) c rs :=
    ⟨h.good, fun hmem => absurd (show nodes.length + 1 < nodes.length from hmem) (by omega), hfound.proper, hfound.edge,
      hlonger, hedge_rs, hmem_rs⟩
  have hlength₄ : nodes₄.length = nodes.length + 2 := by
    have := congrArg List.length (walkLinks_map (f := fun _ => ()) (fun _ => rfl) _ _ _ _ _ hwalk₄)
    simpa [hlength₃] using this
  have hnot_rs : ∀ s, nodes.length ≤ s → s ∉ rs := fun s hs hmem => absurd (hrs s hmem) (by omega)
  refine ⟨nodes₄, end₄, rs, hwalk₄, hlast, hwalk.passed, hsplit, hrs, hok, hedge, hlen, hoky, fun d => ?_, ?_, ?_, hlength₄,
    fun s hs => ?_, ?_, ?_⟩
  · rw [hedgey, edge_added hops q (h.ok q qNode hfound.qNode_old), auto_edge hfound.qNode_old]
  · rw [hlinky, auto_link hfound.qNode_old]
    split
    · exact hops.link_addEdge _ _ _
    · rfl
  · rw [hleny, hfound.pNode_length]
  · rw [hnodes₄, hold₃ s hs, Option.map_map]
    rfl
  · rw [hnodes₄, hcur₃, map_some, if_neg (hnot_rs _ le_rfl)]
  · rw [hnodes₄, hclone₃, map_some, if_neg (hnot_rs _ (Nat.le_succ _))]

omit [DecidableEq U] in
theorem map_modify_comm {N' : Type} {f : N → N'} {g : N → N} {k : N' → N'} (h : ∀ n, f (g n) = k (f n))
    (l : List N) (i : Nat) :
    (l.modify i g).map f = (l.map f).modify i k := by
  refine ext_getElem? fun j => ?_
  rw [getElem?_map, getElem?_modify, getElem?_modify, getElem?_map]
  split <;> simp [comp_def, h]

omit [DecidableEq U] in
theorem map_modify_of_keep {f : N → β} {g : N → N} (hf : ∀ n, f (g n) = f n) (nodes : List N) (i : Nat) :
    (nodes.modify i g).map f = nodes.map f := by
  rw [map_modify_comm (k := id) hf, modify_id]

section
omit [DecidableEq U]

variable {new : N → N} {clone : Nat → N → N → N}

theorem extend_map {f : N → β} (hf : Keeps ops f) {nodes' : List N}
    (h : extend ops new clone last c nodes = some nodes') : ∃ lastNode, nodes[last]? = some lastNode ∧
      (nodes'.map f = nodes.map f ++ [f (new lastNode)] ∨
        ∃ p pNode qNode, nodes'.map f = nodes.map f ++ [f (new lastNode), f (clone p pNode qNode)]) := by
  have hmodify : ∀ (l : List N) (i t : Nat), (l.modify i fun n => ops.setLink n t).map f = l.map f :=
    fun l i t => map_modify_of_keep (fun n => hf.setLink n t) l i
  simp only [extend, bind_eq_bind, bind_eq_some_iff] at h
  obtain ⟨lastNode, hlastNode, ⟨nodes₂, found⟩, hwalk, h⟩ := h
  have hmap₂ : nodes₂.map f = nodes.map f ++ [f (new lastNode)] := by
    rw [walkLinks_map (fun n => hf.addEdge n c _) _ _ _ _ _ hwalk, map_append, map_singleton]
  refine ⟨lastNode, hlastNode, ?_⟩
  cases found with
  | none =>
    cases h
    exact .inl ((hmodify _ _ _).trans hmap₂)
  | some p =>
    simp only [bind_eq_some_iff] at h
    obtain ⟨pNode, -, q, -, qNode, -, h⟩ := h
    split at h
    · cases h
      exact .inl ((hmodify _ _ _).trans hmap₂)
    · obtain ⟨⟨nodes₄, end₄⟩, hwalk₄, h⟩ := bind_eq_some_iff.1 h
      cases h
      refine .inr ⟨p, pNode, qNode, ?_⟩
      rw [walkLinks_map (fun n => hf.moveEdge n c _) _ _ _ _ _ hwalk₄, hmodify, hmodify, map_append, hmap₂, append_assoc]
      rfl

theorem extend_map_old {g : N → β} (hg : Keeps ops g) (h : extend ops new clone last c nodes = some nodes') :
    (∀ s < nodes.length, (nodes'.map g)[s]? = (nodes.map g)[s]?) ∧
      ∃ lastNode, nodes[last]? = some lastNode ∧ (nodes'.map g)[nodes.length]? = some (g (new lastNode)) := by
  obtain ⟨lastNode, hlastNode, hmap | ⟨_, _, _, hmap⟩⟩ := extend_map hg h <;> rw [hmap]
  all_goals
    refine ⟨fun s hs => getElem?_append_left (by simpa using hs), lastNode, hlastNode, ?_⟩
    rw [getElem?_append_right (by simp), length_map, Nat.sub_self]
    rfl

end

/-- The construction through what its steps keep: the appended node is made from the last one, a clone from a node `p`, for
the word of `p` and the unit, which a longer state held. -/
structure Traces (ops : NodeOps U N) {β : Type} (g : N → β) (new : N → N) (clone : Nat → N → N → N) (nodes nodes' : List N)
    (word word' : Nat → List U) (last : Nat) (c : U) : Prop where
  old : ∀ s < nodes.length, (nodes'.map g)[s]? = (nodes.map g)[s]?
  cur : ∃ lastNode, nodes[last]? = some lastNode ∧ (nodes'.map g)[nodes.length]? = some (g (new lastNode))
  clone : ∀ s, nodes.length < s → s < nodes'.length → ∃ p q pNode qNode, nodes[p]? = some pNode ∧
    (nodes'.map g)[s]? = some (g (clone p pNode qNode)) ∧ word' s = word p ++ [c] ∧
    (auto ops nodes word).Holds q (word' s) ∧ (word' s).length < (word q).length
  holds_old : ∀ s < nodes.length, ∀ w, (auto ops nodes' word').Holds s w → (auto ops nodes word).Holds s w

omit [DecidableEq U] in
theorem Found.pNode_old (hfound : Found ops nodes word c vs nodes₂ p q pNode qNode)
    (hwalk : FirstWalk ops nodes word last c x vs (some p) nodes₂) : nodes[p]? = some pNode := by
  have hpvs : p ∉ vs := fun hmem => by
    have := hwalk.passed.edge_none p hmem
    rw [hfound.edge] at this
    cases this
  have heq := hfound.pNode_eq
  rw [hwalk.old p hfound.proper.1] at heq
  simpa [hpvs] using heq

variable {new : N → N}

/-- **One unit is added to the word of the last node**, the walks along the links end, and what a copy takes over is kept
for every word. The last node is the root, or has no edges yet. -/
theorem extend_traces {γ : Type} {f : N → β} {g : N → γ} {clone : Nat → N → N → N} (hops : ops.Lawful Ok)
    (hmakes : Makes ops Ok new clone) (hf : Keeps ops f) (hclone : ∀ p pNode qNode, f (clone p pNode qNode) = f qNode)
    (hg : Keeps ops g) (h : Rep ops Ok nodes word) (hlast : last < nodes.length) (hshort : (word last).length < nodes.length)
    (hfresh : last = 0 ∨ ∀ d, (auto ops nodes word).edge last d = none) (c : U) :
    ∃ nodes' word' origin, extend ops new clone last c nodes = some nodes' ∧
      Extended ops Ok nodes nodes' word word' last c ∧ Origin ops f nodes nodes' word word' origin ∧
      Traces ops g new clone nodes nodes' word word' last c := by
  obtain ⟨lastNode, hlastNode⟩ := exists_node hlast
  obtain ⟨vs, found, nodes₂, hwalkLinks, hwalk⟩ := h.exists_firstWalk hlast hshort c (new lastNode)
  have hlen : ops.length (new lastNode) = (word last).length + 1 := by
    rw [hmakes.length_new, h.length last lastNode hlastNode]
  suffices hcases : ∃ nodes' word' origin, extend ops new clone last c nodes = some nodes' ∧
      Extended ops Ok nodes nodes' word word' last c ∧ Origin ops f nodes nodes' word word' origin ∧
      (∀ s < nodes.length, origin s = s) ∧ ∀ s, nodes.length < s → s < nodes'.length → ∃ p q pNode qNode,
        nodes[p]? = some pNode ∧ nodes'[s]? = some (clone p pNode qNode) ∧ word' s = word p ++ [c] ∧
        (auto ops nodes word).Holds q (word' s) ∧ (word' s).length < (word q).length by
    obtain ⟨nodes', word', origin, hok, hext, ho, hold, hnew⟩ := hcases
    refine ⟨nodes', word', origin, hok, hext, ho, (extend_map_old hg hok).1, (extend_map_old hg hok).2, fun s hs hs' => ?_,
      fun s hs w hw => ?_⟩
    · obtain ⟨p, q, pNode, qNode, hp, hs, hrest⟩ := hnew s hs hs'
      exact ⟨p, q, pNode, qNode, hp, by rw [getElem?_map, hs]; rfl, hrest⟩
    · exact hold s hs ▸ ho.holds s w hs.ne hw
  simp only [extend, hlastNode, hwalkLinks, bind_eq_bind, bind_some]
  have hnone : ∀ {nodes' : List N}, nodes'.length = nodes.length + 1 → ∀ s, nodes.length < s → ¬ s < nodes'.length :=
    fun h s hs hs' => by omega
  cases found with
  | none =>
    have happ := hwalk.appends_root h hlast
    exact ⟨_, _, _, rfl, h.appended hops (hwalk.appended (hmakes.edge_new _)) happ (hmakes.ok_new _) hlen,
      h.appended_origin hops hf (hwalk.appended (hmakes.edge_new _)) happ, fun _ _ => rfl,
      fun s hs hs' => absurd hs' (hnone (by rw [length_modify, hwalk.length]) s hs)⟩
  | some p =>
    obtain ⟨q, pNode, qNode, hfound⟩ := hwalk.exists_found hops h hfresh
    simp only [hfound.pNode_eq, hfound.pNode_edge, hfound.qNode_eq, bind_some, hfound.pNode_length, hfound.qNode_length]
    split
    · rename_i hsolid
      have happ := hwalk.appends_solid h hlast hfound hsolid
      exact ⟨_, _, _, rfl, h.appended hops (hwalk.appended (hmakes.edge_new _)) happ (hmakes.ok_new _) hlen,
        h.appended_origin hops hf (hwalk.appended (hmakes.edge_new _)) happ, fun _ _ => rfl,
        fun s hs hs' => absurd hs' (hnone (by rw [length_modify, hwalk.length]) s hs)⟩
    · rename_i hnot
      have hokq : Ok (if q ∈ vs then ops.addEdge qNode c nodes.length else qNode) := by
        split
        · exact hops.ok_addEdge _ _ _ (h.ok q qNode hfound.qNode_old)
        · exact h.ok q qNode hfound.qNode_old
      obtain ⟨nodes₄, end₄, rs, hwalk₄, hcloned⟩ := hwalk.cloned hops h hlast hshort hfound hnot (hmakes.ok_new _)
        (hmakes.edge_new _) hlen (hmakes.ok_clone p pNode _ hokq) (hmakes.edge_clone p pNode _)
        (hmakes.link_clone p pNode _) (hmakes.length_clone p pNode _) rfl
      refine ⟨nodes₄, _, _, ?_, hcloned.extended hops h, hcloned.origin hops hf h hfound.qNode_old ?_,
        fun s hs => if_neg (by omega), fun s hs hs' => ?_⟩
      · simp only [hwalk.length]
        rw [hwalk₄]
        rfl
      · rw [hclone]
        split
        · exact hf.addEdge _ _ _
        · rfl
      · obtain rfl : s = nodes.length + 1 := by
          have := hcloned.length_eq
          omega
        rw [clonedWord_clone]
        exact ⟨p, q, pNode, _, hfound.pNode_old hwalk, hcloned.clone, rfl, hcloned.splits.holds_q,
          by simpa [auto] using hcloned.splits.longer⟩

end

end SuffixClasses
