import Dictenstein.EdgeStore
import Dictenstein.OverlayMap
import Mathlib.Data.List.Lex
/-! # OverlayVisit — listing the keys of an overlay

The keys below a node are listed by a walk with a stack of frames, a node and the number of its next child.  The walk leaves
a node when its children are over, and also when a child cannot be loaded: the children behind that one are not visited.  A
key is listed exactly when no such child stands in front of its way (`mem_collectUnits`). -/

namespace Dictenstein.OverlayVisit

open Overlay OverlayNode SortedEdges

variable {U V : Type}

/-! ## The walk -/

variable (faultIn : FaultIn U V)

/-- A child in memory, or what `fault_overlay_slot` makes of the pointer. -/
def loadChild : Child U V → Option (OverlayNode U V)
  | .inMem c => some c
  | .onDisk p => if p.isNull then none else (faultIn p).toOption

def visitLoop (faultIn : FaultIn U V) : Nat → List (OverlayNode U V × Nat) → List U → List (List U × OverlayNode U V) →
    Option (List (List U × OverlayNode U V))
  | 0, _, _, _ => none
  | _ + 1, [], _, visited => some visited
  | fuel + 1, (node, next) :: frames, path, visited =>
    match node.store[next]?.bind fun e => (loadChild faultIn e.2).map fun child => (e.1, child) with
    | some (unit, child) => visitLoop faultIn fuel ((child, 0) :: (node, next + 1) :: frames) (path ++ [unit])
        (if child.isFinal then visited ++ [(path ++ [unit], child)] else visited)
    -- the children are over, or the child does not load
    | none => visitLoop faultIn fuel frames (if frames.isEmpty then path else path.dropLast) visited

def overlayVisitFinals (fuel : Nat) (node : OverlayNode U V) (path : List U) :
    Option (List (List U × OverlayNode U V)) :=
  visitLoop faultIn fuel [(node, 0)] path (if node.isFinal then [(path, node)] else [])

section Order
variable [LinearOrder U]

def overlayNavigate (faultIn : FaultIn U V) (root : OverlayNode U V) (units : List U) : Option (OverlayNode U V) :=
  units.foldlM (fun node unit => (node.findChild unit).bind (loadChild faultIn)) root

/-- The outer `none` is too little fuel, the inner one the `None` of the source. -/
def overlayCollectUnits (faultIn : FaultIn U V) (fuel : Nat) (root : OverlayNode U V) (units : List U) :
    Option (Option (List (List U))) :=
  match overlayNavigate faultIn root units with
  | none => some none
  | some node => (overlayVisitFinals faultIn fuel node units).map fun visited => some (visited.map Prod.fst)

end Order

/-! ## What the walk comes to -/

variable [LinearOrder U]

/-- A trie of finitely many nodes, with the edges of each in order. -/
inductive Trie (faultIn : FaultIn U V) : OverlayNode U V → Prop
  | node {n : OverlayNode U V} (sorted : Sorted n.store)
      (child : ∀ e ∈ n.store, ∀ c, loadChild faultIn e.2 = some c → Trie faultIn c) : Trie faultIn n

/-- No child that does not load stands in front of the way down. -/
def Unobstructed (faultIn : FaultIn U V) : OverlayNode U V → List U → Prop
  | _, [] => True
  | n, u :: key => (∀ e ∈ n.store, e.1 < u → loadChild faultIn e.2 ≠ none) ∧
      ∀ c ∈ childAt faultIn n u, Unobstructed faultIn c key

def Found (n : OverlayNode U V) (key : List U) (m : OverlayNode U V) : Prop :=
  m.isFinal = true ∧ nodeAt faultIn n key = some m ∧ Unobstructed faultIn n key

section
variable {faultIn : FaultIn U V} {n c : OverlayNode U V} {u : U} {child : Child U V} {rest : List (U × Child U V)}
  {finals out : List (List U × OverlayNode U V)}

theorem childAt_eq (faultIn : FaultIn U V) (n : OverlayNode U V) (u : U) :
    childAt faultIn n u = (n.findChild u).bind (loadChild faultIn) := by
  unfold childAt resolveOrFault
  cases n.findChild u with
  | none => rfl
  | some child =>
    cases child with
    | inMem c => rfl
    | onDisk p =>
      cases hp : p.isNull <;> simp only [hp, Option.bind_some, loadChild]
      · cases faultIn p <;> rfl
      · rfl

theorem overlayNavigate_eq (root : OverlayNode U V) (units : List U) :
    overlayNavigate faultIn root units = nodeAt faultIn root units := by
  induction units generalizing root with
  | nil => rfl
  | cons u units ih =>
    rw [nodeAt, childAt_eq, overlayNavigate, List.foldlM_cons]
    cases (root.findChild u).bind (loadChild faultIn) with
    | none => rfl
    | some c => exact ih c

theorem childAt_iff (h : Sorted n.store) :
    childAt faultIn n u = some c ↔ ∃ child, (u, child) ∈ n.store ∧ loadChild faultIn child = some c := by
  rw [childAt_eq, Option.bind_eq_some_iff]
  simp only [findChild, findEdge_eq_lookup, mem_iff_lookup h]

theorem nodeAt_append (root : OverlayNode U V) (path key : List U) :
    nodeAt faultIn root (path ++ key) = (nodeAt faultIn root path).bind (nodeAt faultIn · key) := by
  induction path generalizing root with
  | nil => rfl
  | cons u path ih =>
    rw [List.cons_append, nodeAt, nodeAt]
    cases childAt faultIn root u with
    | none => rfl
    | some c => exact ih c

theorem found_cons (hsorted : Sorted n.store) {t : List U} {m : OverlayNode U V} :
    Found faultIn n (u :: t) m ↔ ∃ child c, (u, child) ∈ n.store ∧ loadChild faultIn child = some c ∧
      (∀ e ∈ n.store, e.1 < u → loadChild faultIn e.2 ≠ none) ∧ Found faultIn c t m := by
  simp only [Found, nodeAt, Unobstructed]
  constructor
  · rintro ⟨hfinal, hm, hfront, hbelow⟩
    cases hc : childAt faultIn n u with
    | none => simp [hc] at hm
    | some c =>
      obtain ⟨child, hmem, hload⟩ := (childAt_iff hsorted).1 hc
      exact ⟨child, c, hmem, hload, hfront, hfinal, by simpa [hc] using hm, hbelow c hc⟩
  · rintro ⟨child, c, hmem, hload, hfront, hfinal, hm, hbelow⟩
    have hc := (childAt_iff hsorted).2 ⟨child, hmem, hload⟩
    refine ⟨hfinal, by simpa [hc] using hm, hfront, fun d hd => ?_⟩
    cases hc.symm.trans hd
    exact hbelow

/-- What is listed for the edges `rest` of a node. -/
structure Listed (faultIn : FaultIn U V) (rest : List (U × Child U V)) (out : List (List U × OverlayNode U V)) : Prop where
  sorted : out.Pairwise fun x y => x.1 < y.1
  mem : ∀ key m, (key, m) ∈ out ↔ ∃ u t child c, key = u :: t ∧ (u, child) ∈ rest ∧ loadChild faultIn child = some c ∧
    (∀ e ∈ rest, e.1 < u → loadChild faultIn e.2 ≠ none) ∧ Found faultIn c t m

/-- What is listed for a node. -/
structure Lists (faultIn : FaultIn U V) (n : OverlayNode U V) (finals : List (List U × OverlayNode U V)) : Prop where
  sorted : finals.Pairwise fun x y => x.1 < y.1
  mem : ∀ key m, (key, m) ∈ finals ↔ Found faultIn n key m

theorem Listed.stuck (h : loadChild faultIn child = none) (hlt : ∀ e ∈ rest, u < e.1) :
    Listed faultIn ((u, child) :: rest) [] := by
  refine ⟨.nil, fun key m => iff_of_false List.not_mem_nil ?_⟩
  rintro ⟨w, t, d, c, -, hin, hload, hfront, -⟩
  rcases List.mem_cons.1 hin with heq | hin
  · cases heq
    cases h.symm.trans hload
  · exact hfront (u, child) List.mem_cons_self (hlt _ hin) h

theorem Listed.load (hc : loadChild faultIn child = some c) (hlt : ∀ e ∈ rest, u < e.1) (h : Lists faultIn c finals)
    (hrest : Listed faultIn rest out) :
    Listed faultIn ((u, child) :: rest) (finals.map (fun x => (u :: x.1, x.2)) ++ out) := by
  refine ⟨List.pairwise_append.2 ⟨?_, hrest.sorted, fun x hx y hy => ?_⟩, fun key m => ?_⟩
  · rw [List.pairwise_map]
    exact h.sorted.imp fun hxy => List.cons_lt_cons_iff.2 (.inr ⟨rfl, hxy⟩)
  · obtain ⟨z, -, rfl⟩ := List.mem_map.1 hx
    obtain ⟨w, t, d, -, hy, hin, -⟩ := (hrest.mem y.1 y.2).1 hy
    rw [hy]
    exact List.cons_lt_cons_iff.2 (.inl (hlt _ hin))
  · rw [List.mem_append, List.mem_map, hrest.mem]
    constructor
    · rintro (⟨x, hx, heq⟩ | ⟨w, t, d, c', rfl, hin, hload, hfront, hfound⟩)
      · cases heq
        refine ⟨u, x.1, child, c, rfl, List.mem_cons_self, hc, fun e he hless => ?_, (h.mem _ _).1 hx⟩
        rcases List.mem_cons.1 he with rfl | he
        · exact absurd hless (lt_irrefl _)
        · exact absurd hless (lt_asymm (hlt e he))
      · refine ⟨w, t, d, c', rfl, List.mem_cons_of_mem _ hin, hload, fun e he hless => ?_, hfound⟩
        rcases List.mem_cons.1 he with rfl | he
        · simp [hc]
        · exact hfront e he hless
    · rintro ⟨w, t, d, c', rfl, hin, hload, hfront, hfound⟩
      rcases List.mem_cons.1 hin with heq | hin
      · cases heq
        cases hc.symm.trans hload
        exact .inl ⟨(t, m), (h.mem _ _).2 hfound, rfl⟩
      · exact .inr ⟨w, t, d, c', rfl, hin, hload, fun e he => hfront e (List.mem_cons_of_mem _ he), hfound⟩

theorem Listed.lists (hsorted : Sorted n.store) (h : Listed faultIn n.store out) :
    Lists faultIn n ((if n.isFinal then [([], n)] else []) ++ out) := by
  refine ⟨List.pairwise_append.2 ⟨by split <;> simp, h.sorted, fun x hx y hy => ?_⟩, fun key m => ?_⟩
  · obtain ⟨w, t, -, -, hy, -⟩ := (h.mem y.1 y.2).1 hy
    split at hx
    · rw [List.mem_singleton.1 hx, hy]
      exact List.nil_lt_cons _ _
    · cases hx
  · rw [List.mem_append, h.mem]
    cases key with
    | nil => by_cases hfinal : n.isFinal = true <;> simp [Found, nodeAt, Unobstructed, hfinal] <;> grind
    | cons u t =>
      rw [found_cons hsorted]
      cases n.isFinal <;> simp

/-- **The walk leaves a frame with the keys below it listed**, by induction on the node and on the children it has still to
visit. -/
theorem visitLoop_frame (h : Trie faultIn n) : ∀ rest done, n.store = done ++ rest → ∃ out cost, Listed faultIn rest out ∧
    ∀ fuel frames path visited, visitLoop faultIn (fuel + cost) ((n, done.length) :: frames) path visited =
      visitLoop faultIn fuel frames (if frames.isEmpty then path else path.dropLast)
        (visited ++ out.map fun x => (path ++ x.1, x.2)) := by
  induction h with
  | @node n hsorted hchild ih =>
    intro rest
    induction rest with
    | nil =>
      intro done hstore
      exact ⟨[], 1, ⟨.nil, by simp⟩, fun fuel frames path visited => by simp [visitLoop, hstore]⟩
    | cons e rest ihrest =>
      obtain ⟨u, child⟩ := e
      intro done hstore
      have hnext : n.store[done.length]? = some (u, child) := by simp [hstore]
      have hlt : ∀ e ∈ rest, u < e.1 := by
        rw [hstore, Sorted, List.pairwise_append, List.pairwise_cons] at hsorted
        exact hsorted.2.1.1
      cases hc : loadChild faultIn child with
      | none => exact ⟨[], 1, .stuck hc hlt, fun fuel frames path visited => by simp [visitLoop, hnext, hc]⟩
      | some c =>
        have hmem : (u, child) ∈ n.store := hstore ▸ List.mem_append_right _ List.mem_cons_self
        obtain ⟨out, cost, hout, hwalk⟩ := ih (u, child) hmem c hc c.store [] rfl
        obtain ⟨out', cost', hout', hwalk'⟩ := ihrest (done ++ [(u, child)]) (by simp [hstore])
        have hsorted' : Sorted c.store := by
          cases hchild _ hmem c hc with
          | node hsorted' _ => exact hsorted'
        refine ⟨_, cost' + cost + 1, Listed.load hc hlt (hout.lists hsorted') hout', fun fuel frames path visited => ?_⟩
        rw [← Nat.add_assoc, ← Nat.add_assoc, visitLoop, hnext]
        simp only [Option.bind_some, hc, Option.map_some]
        rw [List.length_append, List.length_singleton] at hwalk'
        rw [← List.length_nil (α := U × Child U V), hwalk, hwalk']
        simp only [List.isEmpty_cons, Bool.false_eq_true, if_false, List.dropLast_concat, List.map_append, List.map_map]
        congr 1
        cases c.isFinal <;> simp [Function.comp_def]

theorem exists_visitFinals (h : Trie faultIn n) : ∃ finals enough, Lists faultIn n finals ∧
    ∀ fuel ≥ enough, ∀ path, overlayVisitFinals faultIn fuel n path = some (finals.map fun x => (path ++ x.1, x.2)) := by
  obtain ⟨out, cost, hout, hwalk⟩ := visitLoop_frame h n.store [] rfl
  cases h with
  | node hsorted _ =>
    refine ⟨_, cost + 1, hout.lists hsorted, fun fuel hfuel path => ?_⟩
    obtain ⟨k, rfl⟩ : ∃ k, fuel = k + 1 + cost := ⟨fuel - (cost + 1), by omega⟩
    rw [overlayVisitFinals, ← List.length_nil (α := U × Child U V), hwalk, visitLoop]
    cases n.isFinal <;> simp

theorem Trie.at_key (h : Trie faultIn n) {key : List U} (hc : nodeAt faultIn n key = some c) : Trie faultIn c := by
  induction key generalizing n with
  | nil => exact Option.some.inj hc ▸ h
  | cons u key ih =>
    cases h with
    | node hsorted hchild =>
      cases hd : childAt faultIn n u with
      | none => simp [nodeAt, hd] at hc
      | some d =>
        obtain ⟨child, hmem, hload⟩ := (childAt_iff hsorted).1 hd
        exact ih (hchild _ hmem d hload) (by simpa [nodeAt, hd] using hc)

end

/-- **The keys of the prefix are listed in strictly increasing order**, those with a way down that crosses no child that does
not load, but for the ones with such a child in front of the way. -/
theorem mem_collectUnits {faultIn : FaultIn U V} {root : OverlayNode U V} (h : Trie faultIn root) (units : List U) :
    ∃ (enough : Nat) (keys : List (List U)), (∀ fuel ≥ enough, overlayCollectUnits faultIn fuel root units =
        some (if (nodeAt faultIn root units).isSome then some keys else none)) ∧ keys.Pairwise (· < ·) ∧
      ∀ key, key ∈ keys ↔ ∃ n t, key = units ++ t ∧ nodeAt faultIn root units = some n ∧
        entryAt faultIn root key ≠ none ∧ Unobstructed faultIn n t := by
  cases hn : nodeAt faultIn root units with
  | none => exact ⟨0, [], fun fuel _ => by simp [overlayCollectUnits, overlayNavigate_eq, hn], .nil, by simp⟩
  | some n =>
    obtain ⟨finals, enough, hfinals, hwalk⟩ := exists_visitFinals (h.at_key hn)
    refine ⟨enough, finals.map fun x => units ++ x.1, fun fuel hfuel => ?_, ?_, fun key => ?_⟩
    · simp [overlayCollectUnits, overlayNavigate_eq, hn, hwalk fuel hfuel]
    · rw [List.pairwise_map]
      exact hfinals.sorted.imp fun hxy => List.append_left_lt hxy
    · have hentry : ∀ t, entryAt faultIn root (units ++ t) ≠ none ↔ ∃ m, m.isFinal = true ∧ nodeAt faultIn n t = some m := by
        intro t
        rw [entryAt, nodeAt_append, hn, Option.bind_some]
        cases nodeAt faultIn n t with
        | none => simp
        | some m => simp [OverlayNode.entry]
      constructor
      · intro hkey
        obtain ⟨x, hx, rfl⟩ := List.mem_map.1 hkey
        obtain ⟨hfinal, hm, hfree⟩ := (hfinals.mem x.1 x.2).1 hx
        exact ⟨n, x.1, rfl, rfl, (hentry _).2 ⟨x.2, hfinal, hm⟩, hfree⟩
      · rintro ⟨_, t, rfl, ⟨⟩, hkey, hfree⟩
        obtain ⟨m, hfinal, hm⟩ := (hentry t).1 hkey
        exact List.mem_map.2 ⟨(t, m), (hfinals.mem t m).2 ⟨hfinal, hm, hfree⟩, rfl⟩

/-- **When every key is listed**: what is listed are keys of the prefix, in strictly increasing order, each once. They are
all the keys of the prefix just if no child that does not load stands in front of the way of one. -/
theorem collectUnits_complete_iff {faultIn : FaultIn U V} {root : OverlayNode U V} (h : Trie faultIn root) (units : List U) :
    ∃ (enough : Nat) (keys : List (List U)), (∀ fuel ≥ enough, overlayCollectUnits faultIn fuel root units =
        some (if (nodeAt faultIn root units).isSome then some keys else none)) ∧ keys.Pairwise (· < ·) ∧
      (∀ key ∈ keys, units <+: key ∧ entryAt faultIn root key ≠ none) ∧
      ((∀ key, units <+: key → entryAt faultIn root key ≠ none → key ∈ keys) ↔
        ∀ n t, nodeAt faultIn root units = some n → entryAt faultIn root (units ++ t) ≠ none →
          Unobstructed faultIn n t) := by
  obtain ⟨enough, keys, hwalk, hsorted, hmem⟩ := mem_collectUnits h units
  refine ⟨enough, keys, hwalk, hsorted, fun key hkey => ?_, fun hall n t hn hentry => ?_, fun hfree key hprefix hentry => ?_⟩
  · obtain ⟨n, t, rfl, -, hentry, -⟩ := (hmem key).1 hkey
    exact ⟨List.prefix_append .., hentry⟩
  · obtain ⟨n', t', heq, hn', -, hfree⟩ := (hmem _).1 (hall _ (List.prefix_append ..) hentry)
    cases List.append_cancel_left heq
    cases hn.symm.trans hn'
    exact hfree
  · obtain ⟨t, rfl⟩ := hprefix
    cases hn : nodeAt faultIn root units with
    | none => exact absurd (by rw [entryAt, nodeAt_append, hn]; rfl) hentry
    | some n => exact (hmem _).2 ⟨n, t, rfl, hn, hentry, hfree n t hn hentry⟩

section Unreadable
open scoped AdaptiveLabel

def unreadable : FaultIn UInt8 Nat := fun _ => .error (.internal "checksum mismatch")

def leaf : OverlayNode UInt8 Nat := mk true none []

/-- A child whose record does not load stands in front of a key. -/
theorem collectUnits_hides_sibling :
    let root : OverlayNode UInt8 Nat := mk false none [(1, .onDisk ⟨8⟩), (2, .inMem leaf)]
    entryAt unreadable root [2] = some none ∧ ∀ fuel ≥ 2, overlayCollectUnits unreadable fuel root [] = some (some []) := by
  refine ⟨rfl, fun fuel hfuel => ?_⟩
  obtain ⟨k, rfl⟩ := Nat.exists_eq_add_of_le' hfuel
  rfl

/-- A child whose record does not load stands behind the key. -/
def damagedBehind : OverlayNode UInt8 Nat := mk false none [(1, .inMem leaf), (2, .onDisk ⟨8⟩)]

theorem trie_damagedBehind : Trie unreadable damagedBehind := by
  refine .node (by simp [Sorted, damagedBehind, store]) fun e he c hc => ?_
  rcases List.mem_cons.1 he with rfl | he
  · cases hc
    exact .node .nil (by simp [leaf, store])
  · cases List.mem_singleton.1 he
    cases hc

theorem collectUnits_damagedBehind : ∃ (enough : Nat) (keys : List (List UInt8)),
    (∀ fuel ≥ enough, overlayCollectUnits unreadable fuel damagedBehind [] = some (some keys)) ∧ [1] ∈ keys := by
  obtain ⟨enough, keys, hwalk, -, -, hcomplete⟩ := collectUnits_complete_iff trie_damagedBehind []
  have hleaf (t : List UInt8) : Unobstructed unreadable leaf t := by
    cases t with
    | nil => trivial
    | cons u t =>
      refine ⟨fun e he => ?_, fun c hc => ?_⟩
      · cases he
      · cases hc
  refine ⟨enough, keys, hwalk, hcomplete.2 (fun n t hn hentry => ?_) [1] List.nil_prefix (by decide)⟩
  cases hn
  cases t with
  | nil => trivial
  | cons u t =>
    -- a key of the trie begins with 1
    cases hc : childAt unreadable damagedBehind u with
    | none => exact absurd (entryAt_cons_of_none unreadable hc t) hentry
    | some c =>
      obtain ⟨child, hmem, hload⟩ := (childAt_iff (by simp [Sorted, damagedBehind, store])).1 hc
      rcases List.mem_cons.1 hmem with heq | hmem
      · cases heq
        cases hload
        refine ⟨fun e he hlt => ?_, fun d hd => ?_⟩
        · rcases List.mem_cons.1 he with rfl | he
          · simp [loadChild]
          · cases List.mem_singleton.1 he
            exact absurd hlt (by decide)
        · cases hc.symm.trans hd
          exact hleaf t
      · cases List.mem_singleton.1 hmem
        cases hload

end Unreadable

end Dictenstein.OverlayVisit
