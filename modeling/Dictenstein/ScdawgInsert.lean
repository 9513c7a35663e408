import Dictenstein.Runs
import Dictenstein.Scdawg
/-!
# ScdawgInsert — what a run of insertions leaves

`insert` adds a term that is new, unit after unit, and `insert_with_value` also sets the value of its last node; neither is
seen by the automaton, by the positions or by the left edges.  `compute_left_edges` enters every node at its suffix link.
-/
namespace Dictenstein.Scdawg

open SuffixClasses List ScdawgCoreInner ScdawgNode

variable {U V : Type}

/-! ## Left edges -/

variable (nodes : List (ScdawgNode U V))

def linkAt (s : Nat) : Option Nat := nodes[s]?.bind suffixLink

/-- The left edges of a node lead to the nodes whose suffix link it is. -/
def LeftEdges : Prop := ∀ (s : Nat) n, nodes[s]? = some n →
  n.leftEdges.map Prod.snd = (List.range' 1 (nodes.length - 1)).filter fun u => decide (linkAt nodes u = some s)

def indexed (n : ScdawgNode U V) : (List (U × Nat) × Option Nat × Nat) × List (Nat × Nat) × List (U × Nat) :=
  (core n, n.termEnds, n.leftEdges)

section
variable {nodes nodes' : List (ScdawgNode U V)}
variable {β : Type} {f : ScdawgNode U V → β}

theorem map_of_indexed (f : (List (U × Nat) × Option Nat × Nat) × List (Nat × Nat) × List (U × Nat) → β)
    (h : nodes'.map indexed = nodes.map indexed) :
    nodes'.map (fun n => f (indexed n)) = nodes.map fun n => f (indexed n) := by
  have := congrArg (List.map f) h
  rwa [map_map, map_map] at this

theorem linkAt_congr (h : nodes'.map suffixLink = nodes.map suffixLink) : linkAt nodes' = linkAt nodes := by
  have hlink : ∀ l : List (ScdawgNode U V), linkAt l = fun s => (l.map suffixLink)[s]?.bind id := by
    intro l
    funext s
    rw [linkAt, getElem?_map]
    cases l[s]? with
    | none => rfl
    | some n => rfl
  rw [hlink, hlink, h]

theorem LeftEdges.congr (h : nodes'.map indexed = nodes.map indexed) (hleft : LeftEdges nodes) : LeftEdges nodes' := by
  intro s m hm
  have hmap : (nodes.map indexed)[s]? = some (indexed m) := by rw [← h, getElem?_map, hm, Option.map_some]
  rw [getElem?_map, Option.map_eq_some_iff] at hmap
  obtain ⟨n, hn, heq⟩ := hmap
  have hedges : n.leftEdges = m.leftEdges := congrArg (fun e => e.2.2) heq
  have hlength : nodes'.length = nodes.length := by simpa only [length_map] using congrArg List.length h
  rw [← hedges, hleft s n hn, hlength, linkAt_congr (map_of_indexed (fun e => e.1.2.1) h)]

/-! ## Computing them -/

theorem addLeftEdge_of_root {nodeIdx : Nat} (h : linkAt nodes nodeIdx = none) : addLeftEdge nodes nodeIdx = nodes := by
  unfold linkAt at h
  unfold addLeftEdge
  split
  · rfl
  · rename_i n hn
    rw [hn, Option.bind_some] at h
    rw [h]

theorem addLeftEdge_of_link {nodeIdx target : Nat} (h : linkAt nodes nodeIdx = some target) :
    ∃ unit, addLeftEdge nodes nodeIdx =
      nodes.modify target fun t => { t with leftEdges := t.leftEdges ++ [(unit, nodeIdx)] } := by
  unfold linkAt at h
  obtain ⟨n, hn, hlink⟩ := Option.bind_eq_some_iff.1 h
  refine ⟨n.firstChar, ?_⟩
  unfold addLeftEdge
  simp only [hn, hlink]

theorem getElem?_addLeftEdge (nodes : List (ScdawgNode U V)) (nodeIdx s : Nat) : ∃ extra : List (U × Nat),
    extra.map Prod.snd = (if linkAt nodes nodeIdx = some s then [nodeIdx] else []) ∧
    (addLeftEdge nodes nodeIdx)[s]? = nodes[s]?.map fun n => { n with leftEdges := n.leftEdges ++ extra } := by
  cases hlink : linkAt nodes nodeIdx with
  | none => exact ⟨[], rfl, by simp [addLeftEdge_of_root hlink]⟩
  | some target =>
    obtain ⟨unit, hadd⟩ := addLeftEdge_of_link hlink
    rw [hadd, getElem?_modify]
    by_cases hs : target = s
    · exact ⟨[(unit, nodeIdx)], by simp [hs], by simp [hs]⟩
    · exact ⟨[], by simp [hs], by simp [hs]⟩

theorem map_addLeftEdge (hf : ∀ n edges, f { n with leftEdges := edges } = f n) (nodes : List (ScdawgNode U V))
    (nodeIdx : Nat) :
    (addLeftEdge nodes nodeIdx).map f = nodes.map f := by
  refine ext_getElem? fun s => ?_
  obtain ⟨extra, -, hs⟩ := getElem?_addLeftEdge nodes nodeIdx s
  rw [getElem?_map, hs, getElem?_map, Option.map_map]
  congr 1
  funext n
  exact hf n _

theorem map_foldl_addLeftEdge (hf : ∀ n edges, f { n with leftEdges := edges } = f n) (idxs : List Nat) :
    ∀ nodes : List (ScdawgNode U V),
    (idxs.foldl addLeftEdge nodes).map f = nodes.map f := by
  induction idxs with
  | nil => exact fun nodes => rfl
  | cons idx idxs ih => exact fun nodes => (ih _).trans (map_addLeftEdge hf nodes idx)

theorem foldl_addLeftEdge (idxs : List Nat) : ∀ (nodes : List (ScdawgNode U V)) (s : Nat), ∃ extra : List (U × Nat),
    extra.map Prod.snd = (idxs.filter fun u => decide (linkAt nodes u = some s)) ∧
    (idxs.foldl addLeftEdge nodes)[s]? = nodes[s]?.map fun n => { n with leftEdges := n.leftEdges ++ extra } := by
  induction idxs with
  | nil => exact fun nodes s => ⟨[], rfl, by simp⟩
  | cons idx idxs ih =>
    intro nodes s
    obtain ⟨extra₁, hextra₁, hs₁⟩ := getElem?_addLeftEdge nodes idx s
    obtain ⟨extra₂, hextra₂, hs₂⟩ := ih (addLeftEdge nodes idx) s
    have hlink : linkAt (addLeftEdge nodes idx) = linkAt nodes :=
      linkAt_congr (map_addLeftEdge (fun _ _ => rfl) nodes idx)
    refine ⟨extra₁ ++ extra₂, ?_, ?_⟩
    · rw [map_append, hextra₁, hextra₂, hlink, filter_cons]
      by_cases h : linkAt nodes idx = some s
      · simp [h]
      · simp [h]
    · rw [foldl_cons, hs₂, hs₁, Option.map_map]
      congr 1
      funext n
      simp only [Function.comp, append_assoc]

/-- **The left edges are computed**, and nothing else is changed. -/
theorem computeLeftEdges_spec (inner : ScdawgCoreInner U V)
    (hleft : inner.leftEdgesComputed = true → LeftEdges inner.nodes) :
    ∃ nodes', inner.computeLeftEdges = { inner with nodes := nodes', leftEdgesComputed := true } ∧
      nodes'.map core = inner.nodes.map core ∧
      nodes'.map termEnds = inner.nodes.map termEnds ∧ LeftEdges nodes' := by
  unfold computeLeftEdges
  by_cases hflag : inner.leftEdgesComputed = true
  · rw [if_pos hflag]
    exact ⟨inner.nodes, by rw [← hflag], rfl, rfl, hleft hflag⟩
  · rw [if_neg hflag]
    refine ⟨_, rfl, ?_⟩
    rw [length_map]
    generalize hcleared : (inner.nodes.map fun n : ScdawgNode U V => { n with leftEdges := [] }) = cleared
    have hlength : cleared.length = inner.nodes.length := by rw [← hcleared, length_map]
    generalize hidxs : List.range' 1 (inner.nodes.length - 1) = idxs
    have hmap : ∀ {β : Type} (f : ScdawgNode U V → β), (∀ n edges, f { n with leftEdges := edges } = f n) →
        (idxs.foldl addLeftEdge cleared).map f = inner.nodes.map f := by
      intro β f hf
      rw [map_foldl_addLeftEdge hf, ← hcleared, map_map]
      congr 1
      funext n
      exact hf n []
    refine ⟨hmap core fun _ _ => rfl, hmap termEnds fun _ _ => rfl, ?_⟩
    intro s m hm
    obtain ⟨extra, hextra, hs⟩ := foldl_addLeftEdge idxs cleared s
    rw [hm] at hs
    obtain ⟨n, hn, rfl⟩ := Option.map_eq_some_iff.1 hs.symm
    -- the walk began with no left edges
    have hnil : n.leftEdges = [] := by
      rw [← hcleared, getElem?_map, Option.map_eq_some_iff] at hn
      obtain ⟨n₀, -, rfl⟩ := hn
      rfl
    have hlink : linkAt (idxs.foldl addLeftEdge cleared) = linkAt cleared := by
      refine linkAt_congr ((hmap suffixLink fun _ _ => rfl).trans ?_)
      rw [← hcleared, map_map]
      rfl
    have hlength' : (idxs.foldl addLeftEdge cleared).length = inner.nodes.length := by
      simpa only [length_map] using congrArg List.length (hmap length fun _ _ => rfl)
    rw [hnil, nil_append, hextra, hlink, hlength', hidxs]

end

/-! ## Inserting -/

variable [LinearOrder U]

-- terms are compared by the order of their units, also where another equality of lists is in scope
scoped instance lawfulBEqList : LawfulBEq (List U) := inferInstance

/-- The terms after one more insertion: a term that is there is not added again. -/
def addTerm (terms : List (List U)) (term : List U) : List (List U) :=
  if term ∈ terms then terms else terms ++ [term]

structure Stored (inner : ScdawgCoreInner U V) : Prop where
  inv : Inv inner.nodes inner.terms [] 0
  count : inner.termCount = inner.terms.length
  mem_termSet : ∀ t, t ∈ inner.termSet ↔ t ∈ inner.terms
  nodup : inner.terms.Nodup
  left : inner.leftEdgesComputed = true → LeftEdges inner.nodes

/-- Between two calls of the wrapper: the left edges are there if a term is. -/
structure Ready (inner : ScdawgCoreInner U V) : Prop extends Stored inner where
  computed : inner.leftEdgesComputed = true ∨ inner.terms = []

section
variable {inner : ScdawgCoreInner U V} {nodes nodes' : List (ScdawgNode U V)} {terms : List (List U)} {x : List U}
  {last : Nat}

theorem Inv.congr_indexed (h : nodes'.map indexed = nodes.map indexed) (hinv : Inv nodes terms x last) :
    Inv nodes' terms x last :=
  hinv.congr (map_of_indexed (fun e => e.1) h) (map_of_indexed (fun e => e.2.1) h)

theorem Stored.congr (h : Stored inner) (hmap : nodes'.map indexed = inner.nodes.map indexed)
    (values : List U → Option V) : Stored { inner with nodes := nodes', termValues := values } :=
  ⟨h.inv.congr_indexed hmap, h.count, h.mem_termSet, h.nodup, fun hflag => (h.left hflag).congr hmap⟩

variable [Inhabited U]

theorem saExtend_units {P : List (ScdawgNode U V) → List U → Nat → Prop} {Q : List (ScdawgNode U V) → Prop} {i : Nat}
    (hunit : ∀ (inner : ScdawgCoreInner U V) (x : List U) (c : U), P inner.nodes x inner.last → ∃ nodes' last',
      inner.saExtend c i x.length = some { inner with nodes := nodes', last := last', leftEdgesComputed := false } ∧
        P nodes' (x ++ [c]) last') (units : List U) : ∀ (inner : ScdawgCoreInner U V) {x : List U},
    P inner.nodes x inner.last → (inner.leftEdgesComputed = true → Q inner.nodes) →
    ∃ nodes' last' flag', (units.zipIdx x.length).foldlM (fun inner e => inner.saExtend e.1 i e.2) inner =
        some { inner with nodes := nodes', last := last', leftEdgesComputed := flag' } ∧
      P nodes' (x ++ units) last' ∧ (flag' = true → Q nodes') := by
  induction units with
  | nil =>
    intro inner x h hleft
    exact ⟨inner.nodes, inner.last, inner.leftEdgesComputed, rfl, by rwa [append_nil], hleft⟩
  | cons c units ih =>
    intro inner x h _
    obtain ⟨nodes₁, last₁, hok₁, h₁⟩ := hunit inner x c h
    obtain ⟨nodes₂, last₂, flag₂, hok₂, h₂, hleft₂⟩ :=
      ih { inner with nodes := nodes₁, last := last₁, leftEdgesComputed := false } h₁ nofun
    refine ⟨nodes₂, last₂, flag₂, ?_, ?_, hleft₂⟩
    · rw [zipIdx_cons, foldlM_cons, hok₁]
      rw [length_append, length_singleton] at hok₂
      exact hok₂
    · rwa [append_assoc, singleton_append] at h₂

/-- **A term is inserted**: the walks along the links end, and a term that is new is one of the terms then. -/
theorem Stored.insert (h : Stored inner) (term : List U) : ∃ inner',
    inner.insert term = some (inner', decide (term ∉ inner.terms)) ∧ Stored inner' ∧
      inner'.terms = addTerm inner.terms term ∧ (term ∈ inner.terms → inner' = inner) := by
  unfold ScdawgCoreInner.insert addTerm
  by_cases hmem : term ∈ inner.terms
  · rw [if_pos ((h.mem_termSet term).2 hmem), if_pos hmem, decide_eq_false (not_not_intro hmem)]
    exact ⟨inner, rfl, h, rfl, fun _ => rfl⟩
  · have hset : term ∉ inner.termSet := fun hin => hmem ((h.mem_termSet term).1 hin)
    obtain ⟨nodes₁, last₁, flag₁, hok, h₁, hleft₁⟩ := saExtend_units (P := (Inv · inner.terms))
      (fun _ _ c h => h.saExtend c) term { inner with last := 0 } h.inv h.left
    rw [nil_append] at h₁
    rw [length_nil, ← h.count] at hok
    -- that the last node is final is not seen by the index
    have hmap : (nodes₁.modify last₁ fun n => { n with isFinal := true }).map indexed = nodes₁.map indexed := by
      apply map_modify_of_keep
      intro n
      rfl
    simp only [if_neg hset, if_neg hmem, hok, decide_eq_true hmem]
    refine ⟨_, rfl, ⟨(h₁.congr_indexed hmap).finish, ?_, ?_, ?_, ?_⟩, rfl, fun hin => absurd hin hmem⟩
    · rw [length_append, h.count]
      rfl
    · intro t
      rw [mem_cons, h.mem_termSet, mem_append, mem_singleton, or_comm]
    · rw [nodup_append]
      refine ⟨h.nodup, nodup_singleton term, fun t ht t' ht' => ?_⟩
      rw [mem_singleton.1 ht']
      rintro rfl
      exact hmem ht
    · exact fun hflag => (hleft₁ hflag).congr hmap

theorem Stored.insertWithValue (h : Stored inner) (term : List U) (value : V) : ∃ inner',
    inner.insertWithValue term value = some (inner', decide (term ∉ inner.terms)) ∧ Stored inner' ∧
      inner'.terms = addTerm inner.terms term ∧
      (term ∈ inner.terms → inner'.leftEdgesComputed = inner.leftEdgesComputed) := by
  unfold ScdawgCoreInner.insertWithValue
  by_cases hmem : term ∈ inner.terms
  · rw [if_pos ((h.mem_termSet term).2 hmem), decide_eq_false (not_not_intro hmem)]
    refine ⟨_, rfl, h.congr ?_ _, by rw [addTerm, if_pos hmem], fun _ => rfl⟩
    split
    · apply map_modify_of_keep
      intro n
      split <;> rfl
    · rfl
  · have hset : term ∉ inner.termSet := fun hin => hmem ((h.mem_termSet term).1 hin)
    obtain ⟨inner₁, hok, h₁, hterms, -⟩ := h.insert term
    rw [decide_eq_true hmem] at hok ⊢
    rw [if_neg hset, hok]
    refine ⟨_, rfl, h₁.congr ?_ _, hterms, fun hin => absurd hin hmem⟩
    apply map_modify_of_keep
    intro n
    rfl

omit [Inhabited U] in
theorem Stored.computeLeftEdges (h : Stored inner) :
    Ready inner.computeLeftEdges ∧ inner.computeLeftEdges.terms = inner.terms := by
  obtain ⟨nodes', heq, hcore, hends, hleft⟩ := computeLeftEdges_spec inner h.left
  rw [heq]
  exact ⟨⟨⟨h.inv.congr hcore hends, h.count, h.mem_termSet, h.nodup, fun _ => hleft⟩, .inl rfl⟩, rfl⟩

omit [Inhabited U] in
theorem Ready.refreshed {inner' : ScdawgCoreInner U V} {added : Bool} (h : Ready inner) (h' : Stored inner')
    (hsame : added = false → inner'.terms = inner.terms ∧ inner'.leftEdgesComputed = inner.leftEdgesComputed) :
    Ready (refreshed (inner', added)) ∧ (Scdawg.refreshed (inner', added)).terms = inner'.terms := by
  cases added with
  | true => exact h'.computeLeftEdges
  | false =>
    obtain ⟨hterms, hflag⟩ := hsame rfl
    refine ⟨⟨h', ?_⟩, rfl⟩
    show inner'.leftEdgesComputed = true ∨ inner'.terms = []
    rw [hterms, hflag]
    exact h.computed

theorem Stored.insertOne (h : Stored inner) (record : List U × Option V) : ∃ inner' added,
    insertOne inner record = some (inner', added) ∧ Stored inner' ∧ inner'.terms = addTerm inner.terms record.1 ∧
      (added = false → inner'.terms = inner.terms ∧ inner'.leftEdgesComputed = inner.leftEdgesComputed) := by
  obtain ⟨term, value⟩ := record
  -- a term that is not new is there
  have hmem : decide (term ∉ inner.terms) = false → term ∈ inner.terms := fun hadded => not_not.1 (of_decide_eq_false hadded)
  cases value with
  | none =>
    obtain ⟨inner', hok, h', hterms, hsame⟩ := h.insert term
    refine ⟨inner', _, hok, h', hterms, fun hadded => ?_⟩
    rw [hsame (hmem hadded)]
    exact ⟨rfl, rfl⟩
  | some value =>
    obtain ⟨inner', hok, h', hterms, hflag⟩ := h.insertWithValue term value
    exact ⟨inner', _, hok, h', hterms, fun hadded => ⟨hterms.trans (if_pos (hmem hadded)), hflag (hmem hadded)⟩⟩

theorem Stored.insertEach (h : Stored inner) (records : List (List U × Option V)) : ∃ inner' added,
    insertEach inner records = some (inner', added) ∧ Stored inner' ∧
      inner'.terms = (records.map Prod.fst).foldl addTerm inner.terms ∧
      (added = false → inner'.terms = inner.terms ∧ inner'.leftEdgesComputed = inner.leftEdgesComputed) := by
  -- the flag that is carried along is set if a term was new before
  obtain ⟨⟨inner', added⟩, hok, h'⟩ := Runs.foldlM_of_steps (s := (inner, false))
    (f := fun acc record => (Scdawg.insertOne acc.1 record).map fun e => (e.1, acc.2 || e.2))
      (I := fun (read : List (List U × Option V)) (e : ScdawgCoreInner U V × Bool) =>
    Stored e.1 ∧ e.1.terms = (read.map Prod.fst).foldl addTerm inner.terms ∧
      (e.2 = false → e.1.terms = inner.terms ∧ e.1.leftEdgesComputed = inner.leftEdgesComputed))
    (fun read record e ⟨h₁, hterms, hbefore⟩ => by
      obtain ⟨inner₂, added₂, hok₂, h₂, hterms₂, hsame₂⟩ := h₁.insertOne record
      refine ⟨(inner₂, e.2 || added₂), Option.map_eq_some_iff.2 ⟨_, hok₂, rfl⟩, h₂, ?_, fun hnone => ?_⟩
      · rw [hterms₂, hterms, map_append, foldl_append]
        rfl
      · obtain ⟨hb, ha⟩ := Bool.or_eq_false_iff.1 hnone
        exact ⟨(hsame₂ ha).1.trans (hbefore hb).1, (hsame₂ ha).2.trans (hbefore hb).2⟩) ⟨h, rfl, fun _ => ⟨rfl, rfl⟩⟩ records
  exact ⟨inner', added, hok, h'⟩

theorem Ready.run (h : Ready inner) (call : Call U V) : ∃ inner', call.run inner = some inner' ∧ Ready inner' ∧
    inner'.terms = (call.records.map Prod.fst).foldl addTerm inner.terms := by
  cases call with
  | insert record =>
    obtain ⟨inner', added, hok, h', hterms, hsame⟩ := h.toStored.insertOne record
    refine ⟨Scdawg.refreshed (inner', added), ?_, (h.refreshed h' hsame).1, (h.refreshed h' hsame).2.trans hterms⟩
    rw [Call.run, hok]
    rfl
  | extendRecords records =>
    cases records with
    | nil => exact ⟨inner, rfl, h, rfl⟩
    | cons record records =>
      obtain ⟨inner', added, hok, h', hterms, hsame⟩ := h.toStored.insertEach (record :: records)
      refine ⟨Scdawg.refreshed (inner', added), ?_, (h.refreshed h' hsame).1, (h.refreshed h' hsame).2.trans hterms⟩
      rw [Call.run, hok]
      · rfl
      · nofun

theorem Ready.new : Ready (new : ScdawgCoreInner U V) where
  inv := by
    refine ⟨⟨_, Reading.root List.Pairwise.nil (fun _ => rfl) rfl rfl, fun s ends hs e he => ?_⟩, rfl⟩
    have hnil : ends = [] := mem_singleton.1 (mem_of_getElem? hs)
    rw [hnil] at he
    cases he
  count := rfl
  mem_termSet _ := Iff.rfl
  nodup := nodup_nil
  left := nofun
  computed := .inr rfl

theorem Ready.foldlM_run (h : Ready inner) (calls : List (Call U V)) :
    ∃ inner', calls.foldlM Call.run inner = some inner' ∧ Ready inner' ∧
      inner'.terms = ((calls.flatMap Call.records).map Prod.fst).foldl addTerm inner.terms := by
  refine Runs.foldlM_of_steps (I := fun read inner' => Ready inner' ∧
    inner'.terms = ((read.flatMap Call.records).map Prod.fst).foldl addTerm inner.terms)
      (fun read call inner₁ ⟨h₁, hterms₁⟩ => ?_) ⟨h, rfl⟩ calls
  obtain ⟨inner₂, hok₂, h₂, hterms₂⟩ := h₁.run call
  refine ⟨inner₂, hok₂, h₂, ?_⟩
  rw [hterms₂, hterms₁, flatMap_append, flatMap_singleton, map_append, foldl_append]

variable (made : Option (List (List U × Option V)))

def insertedRecords (calls : List (Call U V)) : List (List U × Option V) :=
  made.getD [] ++ calls.flatMap Call.records

theorem make_ready : ∃ inner, make made = some inner ∧ Ready inner ∧
      inner.terms = ((made.getD []).map Prod.fst).foldl addTerm [] := by
  cases made with
  | none => exact ⟨_, rfl, Ready.new, rfl⟩
  | some records =>
    obtain ⟨inner, added, hok, h, hterms, -⟩ := Ready.new.toStored.insertEach records
    refine ⟨inner.computeLeftEdges, ?_, h.computeLeftEdges.1, h.computeLeftEdges.2.trans hterms⟩
    rw [make, fromRecords, hok]
    rfl

omit [Inhabited U] in
theorem mem_foldl_addTerm (texts : List (List U)) : ∀ (terms : List (List U)) (t : List U),
    t ∈ texts.foldl addTerm terms ↔ t ∈ terms ∨ t ∈ texts := by
  induction texts with
  | nil => exact fun terms t => by simp
  | cons text texts ih =>
    intro terms t
    rw [foldl_cons, ih, mem_cons]
    unfold addTerm
    split
    · rename_i hmem
      refine ⟨fun h => h.imp_right .inr, fun h => ?_⟩
      rcases h with h | rfl | h
      · exact .inl h
      · exact .inl hmem
      · exact .inr h
    · rw [mem_append, mem_singleton, or_assoc]

theorem runCalls_ready (calls : List (Call U V)) : ∃ inner, runCalls made calls = some inner ∧ Ready inner ∧
      ∀ t, t ∈ inner.terms ↔ t ∈ (insertedRecords made calls).map Prod.fst := by
  obtain ⟨inner₁, hok₁, h₁, hterms₁⟩ := make_ready made
  obtain ⟨inner, hok, h, hterms⟩ := h₁.foldlM_run calls
  refine ⟨inner, ?_, h, fun t => ?_⟩
  · unfold runCalls
    rw [hok₁]
    exact hok
  · rw [hterms, hterms₁, ← foldl_append, ← map_append, mem_foldl_addTerm]
    exact or_iff_right not_mem_nil

end

end Dictenstein.Scdawg
