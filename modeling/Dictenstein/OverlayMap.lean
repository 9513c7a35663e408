import Dictenstein.OverlayNode
/-! # OverlayMap — what the path-copying builders do to the key-to-value map

Under two properties of every reachable node, each builder is one update of the map `entryAt` at the key it is given:

* `Clean`: a node that is not final carries no value (so `as_final` on it makes a valueless member);
* `Resolved`: an on-disk edge is not null and its record loads (so the descent never stops on the way).

A `Resident` trie has no on-disk edge at all; there the non-faulting walk reads the map exactly. -/

namespace Dictenstein.Overlay

open Function List Option OverlayNode Except

variable {U V : Type} [DecidableEq U] [LT U] [DecidableLT U]

namespace OverlayNode

def Clean (m : OverlayNode U V) : Prop := m.isFinal = false → m.value = none

def Resolved (faultIn : FaultIn U V) (m : OverlayNode U V) : Prop :=
  ∀ u p, m.findChild u = some (.onDisk p) → p.isNull = false ∧ ∃ c, faultIn p = .ok c

def Resident (m : OverlayNode U V) : Prop := ∀ u p, m.findChild u ≠ some (.onDisk p)

variable {m n : OverlayNode U V} {faultIn : FaultIn U V}

omit [LT U] [DecidableLT U] in
theorem Resident.resolved (h : m.Resident) (faultIn : FaultIn U V) : m.Resolved faultIn :=
  fun u p hp => absurd hp (h u p)

theorem Resident.withChild (h : m.Resident) (u : U) (c : OverlayNode U V) : (m.withChild u (.inMem c)).Resident := by
  intro w p hp
  rw [findChild_withChild] at hp
  split at hp
  · simp at hp
  · exact h w p hp

theorem Resolved.withChild (h : m.Resolved faultIn) (u : U) (c : OverlayNode U V) :
    (m.withChild u (.inMem c)).Resolved faultIn := by
  intro w p hp
  rw [findChild_withChild] at hp
  split at hp
  · simp at hp
  · exact h w p hp

section
omit [LT U] [DecidableLT U]

theorem Resident.congr (h : m.Resident) (hs : n.store = m.store) : n.Resident := by
  intro u p
  rw [findChild_congr hs]
  exact h u p

theorem Resolved.congr (h : m.Resolved faultIn) (hs : n.store = m.store) : n.Resolved faultIn := by
  intro u p
  rw [findChild_congr hs]
  exact h u p

end

end OverlayNode

open OverlayNode

/-! ## One edge of the descent -/

section
omit [LT U] [DecidableLT U]

variable {n c : OverlayNode U V} {u : U} {faultIn : FaultIn U V}

theorem resolve_of_childAt (h : childAt faultIn n u = some c) :
    resolveOrFault .fault faultIn n u = .inMem c ∨ resolveOrFault .fault faultIn n u = .faulted c := by
  unfold childAt at h
  split at h <;> simp_all

theorem resolve_of_childAt_none (hn : n.Resolved faultIn) (h : childAt faultIn n u = none) :
    resolveOrFault .fault faultIn n u = .absent := by
  unfold childAt resolveOrFault at h
  unfold resolveOrFault
  cases hfind : n.findChild u with
  | none => rfl
  | some child =>
    cases child with
    | inMem c => simp [hfind] at h
    | onDisk p =>
      obtain ⟨hnull, c, hc⟩ := hn u p hfind
      simp [hfind, hnull, hc] at h

theorem childAt_of_findChild (faultIn : FaultIn U V) (h : n.findChild u = some (.inMem c)) :
    childAt faultIn n u = some c := by
  simp [childAt, resolveOrFault, h]

end

/-! ## The path copy -/

section PathCopy

variable {ε : Type} {faultIn : FaultIn U V} {atLeaf : OverlayNode U V → Except ε (OverlayNode U V)}
  {onFault : PersistentARTrieError → ε} {onNull : ε} {onAbsent : List U → Except ε (OverlayNode U V)}

variable {n n' m : OverlayNode U V} {key : List U} {u : U} {e : Option (Option V)} {P : OverlayNode U V → Prop}

theorem pathCopy_cons_of_some {c : OverlayNode U V} (h : childAt faultIn n u = some c) (key : List U) :
    pathCopy faultIn atLeaf onFault onNull onAbsent n (u :: key) =
      (pathCopy faultIn atLeaf onFault onNull onAbsent c key).map fun c' => n.withChild u (.inMem c') := by
  rw [pathCopy]
  rcases resolve_of_childAt h with hr | hr <;> rw [hr]

theorem pathCopy_cons_ok (h : pathCopy faultIn atLeaf onFault onNull onAbsent n (u :: key) = .ok n') :
    ∃ sub, n' = n.withChild u (.inMem sub) ∧
      ((∃ c, childAt faultIn n u = some c ∧ pathCopy faultIn atLeaf onFault onNull onAbsent c key = .ok sub) ∨
        (childAt faultIn n u = none ∧ onAbsent key = .ok sub)) := by
  rw [pathCopy] at h
  have hmap : ∀ {x : Except ε (OverlayNode U V)} {f : OverlayNode U V → OverlayNode U V},
      x.map f = .ok n' → ∃ sub, x = .ok sub ∧ n' = f sub := by
    intro x f hx
    cases x with
    | error e => simp [Except.map] at hx
    | ok sub => exact ⟨sub, rfl, by simpa [Except.map] using hx.symm⟩
  cases hr : resolveOrFault .fault faultIn n u with rw [hr] at h
  | inMem c | faulted c =>
    obtain ⟨sub, hsub, hn'⟩ := hmap h
    exact ⟨sub, hn', .inl ⟨c, by simp [childAt, hr], hsub⟩⟩
  | faultFailed e | null => simp at h
  | absent =>
    obtain ⟨sub, hsub, hn'⟩ := hmap h
    exact ⟨sub, hn', .inr ⟨by simp [childAt, hr], hsub⟩⟩

/-- **A path copy is one update of the map**: the key gets the entry `e` of the leaf that the copy makes, and every other
key (prefixes and extensions of it included) keeps its own. -/
theorem entryAt_pathCopy
    (hleaf : ∀ m m', nodeAt faultIn n key = some m → atLeaf m = .ok m' → m'.store = m.store ∧ m'.entry = e)
    (habsent : ∀ rest s, nodeAt faultIn n key = none → onAbsent rest = .ok s →
      ∀ k, entryAt faultIn s k = if k = rest then e else none)
    (h : pathCopy faultIn atLeaf onFault onNull onAbsent n key = .ok n') :
    entryAt faultIn n' = update (entryAt faultIn n) key e := by
  funext k
  rw [update_apply]
  -- the copy recurses on the key; the other key `k` is split along with it
  induction key generalizing n n' k with
  | nil =>
    obtain ⟨hstore, hentry⟩ := hleaf n n' rfl h
    cases k with
    | nil => simpa using hentry
    | cons w k =>
      rw [if_neg (cons_ne_nil w k)]
      exact entryAt_cons_congr faultIn (childAt_congr faultIn hstore w) k
  | cons u key ih =>
    obtain ⟨sub, rfl, hsub⟩ := pathCopy_cons_ok h
    cases k with
    | nil => simp
    | cons w k =>
      by_cases hw : u = w
      · subst hw
        rw [entryAt_cons_of_some faultIn (childAt_withChild_same faultIn n sub u)]
        simp only [cons.injEq, true_and]
        rcases hsub with ⟨c, hc, hcopy⟩ | ⟨hnone, habs⟩
        · have hnode : nodeAt faultIn n (u :: key) = nodeAt faultIn c key := by rw [nodeAt, hc]
          rw [hnode] at hleaf habsent
          rw [ih hleaf habsent hcopy, entryAt_cons_of_some faultIn hc]
        · rw [habsent key sub (by rw [nodeAt, hnone]) habs, entryAt_cons_of_none faultIn hnone]
      · rw [if_neg (fun heq => hw (cons.inj heq).1.symm)]
        exact entryAt_cons_congr faultIn (childAt_withChild_ne faultIn n _ hw) k

theorem everywhere_pathCopy (hchild : ∀ m u c, P m → P (m.withChild u (.inMem c)))
    (hleaf : ∀ m m', P m → atLeaf m = .ok m' → m'.store = m.store ∧ P m')
    (habsent : ∀ rest s, onAbsent rest = .ok s → Everywhere faultIn P s) (hP : Everywhere faultIn P n)
    (h : pathCopy faultIn atLeaf onFault onNull onAbsent n key = .ok n') : Everywhere faultIn P n' := by
  induction key generalizing n n' with
  | nil =>
    obtain ⟨hstore, hroot⟩ := hleaf n n' hP.root h
    refine everywhere_of_children hroot (fun u c hc => ?_)
    rw [childAt_congr faultIn hstore] at hc
    exact hP.child hc
  | cons u key ih =>
    obtain ⟨sub, rfl, hsub⟩ := pathCopy_cons_ok h
    apply everywhere_withChild (hchild n u sub hP.root) hP
    rcases hsub with ⟨c, hc, hcopy⟩ | ⟨-, habs⟩
    · exact ih (hP.child hc) hcopy
    · exact habsent key sub habs

/-- With every edge resolved, whether a copy is built is decided by the leaf alone, or by `onAbsent` when there is
none. -/
theorem pathCopy_of_nodeAt (hm : nodeAt faultIn n key = some m) :
    (∀ m', atLeaf m = .ok m' → ∃ n', pathCopy faultIn atLeaf onFault onNull onAbsent n key = .ok n') ∧
      (∀ e, atLeaf m = .error e → pathCopy faultIn atLeaf onFault onNull onAbsent n key = .error e) := by
  induction key generalizing n with
  | nil =>
    rw [nodeAt, some.injEq] at hm
    subst hm
    exact ⟨fun m' h => ⟨m', h⟩, fun e h => h⟩
  | cons u key ih =>
    rw [nodeAt] at hm
    cases hc : childAt faultIn n u with rw [hc] at hm
    | none =>
      cases hm
    | some c =>
      rw [pathCopy_cons_of_some hc]
      obtain ⟨hok, herr⟩ := ih hm
      refine ⟨fun m' h => ?_, fun e h => by rw [herr e h]; rfl⟩
      obtain ⟨c', hc'⟩ := hok m' h
      exact ⟨_, by rw [hc']; rfl⟩

theorem leaf_of_pathCopy (hm : nodeAt faultIn n key = some m)
    (h : pathCopy faultIn atLeaf onFault onNull onAbsent n key = .ok n') : ∃ m', atLeaf m = .ok m' := by
  cases hleaf : atLeaf m with
  | ok m' => exact ⟨m', rfl⟩
  | error e =>
    rw [(pathCopy_of_nodeAt hm).2 e hleaf] at h
    cases h

theorem rest_of_pathCopy (hm : nodeAt faultIn n key = none)
    (h : pathCopy faultIn atLeaf onFault onNull onAbsent n key = .ok n') :
    ∃ rest s, onAbsent rest = .ok s := by
  induction key generalizing n n' with
  | nil => cases hm
  | cons u key ih =>
    obtain ⟨sub, -, ⟨c, hc, hcopy⟩ | ⟨-, habs⟩⟩ := pathCopy_cons_ok h
    · rw [nodeAt, hc] at hm
      exact ih hm hcopy
    · exact ⟨key, sub, habs⟩

theorem pathCopy_of_nodeAt_none (hn : Everywhere faultIn (Resolved faultIn) n) (hm : nodeAt faultIn n key = none) :
    ((∀ rest, ∃ s, onAbsent rest = .ok s) → ∃ n', pathCopy faultIn atLeaf onFault onNull onAbsent n key = .ok n') ∧
      (∀ e, (∀ rest, onAbsent rest = .error e) → pathCopy faultIn atLeaf onFault onNull onAbsent n key = .error e) := by
  induction key generalizing n with
  | nil => cases hm
  | cons u key ih =>
    rw [nodeAt] at hm
    cases hc : childAt faultIn n u with
    | none =>
      rw [pathCopy, resolve_of_childAt_none hn.root hc]
      refine ⟨fun h => ?_, fun e h => by rw [h key]; rfl⟩
      obtain ⟨s, hs⟩ := h key
      exact ⟨_, by rw [hs]; rfl⟩
    | some c =>
      rw [hc] at hm
      rw [pathCopy_cons_of_some hc]
      obtain ⟨hok, herr⟩ := ih (hn.child hc) hm
      refine ⟨fun h => ?_, fun e h => by rw [herr e h]; rfl⟩
      obtain ⟨c', hc'⟩ := hok h
      exact ⟨_, by rw [hc']; rfl⟩

end PathCopy

/-! ## Fresh spines -/

section Spine

variable {faultIn : FaultIn U V} {leaf : OverlayNode U V}

theorem entryAt_createSpine (hleaf : leaf.store = []) (suffix k : List U) :
    entryAt faultIn (createSpine leaf suffix) k = if k = suffix then leaf.entry else none := by
  induction suffix generalizing k with
  | nil =>
    cases k with
    | nil => simp [createSpine]
    | cons w k =>
      rw [if_neg (cons_ne_nil w k)]
      refine entryAt_cons_of_none faultIn ?_ k
      rw [createSpine, childAt_congr faultIn (n := .new) hleaf, childAt_new]
  | cons u suffix ih =>
    rw [createSpine]
    cases k with
    | nil => simp [entry, new, isFinal, withChild]
    | cons w k =>
      by_cases hw : u = w
      · subst hw
        rw [entryAt_cons_of_some faultIn (childAt_withChild_same faultIn _ _ u), ih]
        simp
      · rw [if_neg (fun heq => hw (cons.inj heq).1.symm)]
        exact entryAt_cons_of_none faultIn (by rw [childAt_withChild_ne faultIn _ _ hw, childAt_new]) k

theorem everywhere_createSpine {P : OverlayNode U V → Prop} (hchild : ∀ m u c, P m → P (m.withChild u (.inMem c)))
    (hnew : P .new) (hleaf : Everywhere faultIn P leaf) (suffix : List U) :
    Everywhere faultIn P (createSpine leaf suffix) := by
  induction suffix with
  | nil => exact hleaf
  | cons u suffix ih => exact everywhere_withChild (hchild _ u _ hnew) (everywhere_new hnew) ih

end Spine

/-! ## The three builders as updates -/

/-- A trie the builders never fail on, and whose non-final nodes carry no value. -/
structure WellFormed (faultIn : FaultIn U V) (n : OverlayNode U V) : Prop where
  clean : Everywhere faultIn Clean n
  resolved : Everywhere faultIn (Resolved faultIn) n

structure Updates (faultIn : FaultIn U V) (n n' : OverlayNode U V) (key : List U) (e : Option (Option V)) : Prop where
  entry : entryAt faultIn n' = update (entryAt faultIn n) key e
  wellFormed : WellFormed faultIn n'
  resident : Everywhere faultIn Resident n → Everywhere faultIn Resident n'

section Builders

variable {faultIn : FaultIn U V} {n : OverlayNode U V}

section
omit [LT U] [DecidableLT U]

theorem wellFormed_new : WellFormed faultIn (.new : OverlayNode U V) where
  clean := everywhere_new (fun _ => rfl)
  resolved := everywhere_new (fun u p hp => by simp at hp)

theorem resident_new : Everywhere faultIn Resident (.new : OverlayNode U V) :=
  everywhere_new (fun u p hp => by simp at hp)

end

variable {key : List U}

theorem updates_of_pathCopy {ε : Type} {atLeaf : OverlayNode U V → Except ε (OverlayNode U V)}
    {onFault : PersistentARTrieError → ε} {onNull : ε} {onAbsent : List U → Except ε (OverlayNode U V)}
    {e : Option (Option V)}
    (fresh : OverlayNode U V) (hleaf : ∀ m m', m.Clean → atLeaf m = .ok m' → m'.store = m.store ∧ m'.entry = e ∧ m'.Clean)
    (habsent : ∀ rest s, onAbsent rest = .ok s → s = createSpine fresh rest) (hfresh : fresh.store = [])
    (hentry : fresh.entry = e) (hclean : fresh.Clean) (hn : WellFormed faultIn n) {n' : OverlayNode U V}
    (h : pathCopy faultIn atLeaf onFault onNull onAbsent n key = .ok n') : Updates faultIn n n' key e := by
  have hnone : ∀ u, fresh.findChild u = none := fun u => by rw [findChild, hfresh, findEdge_nil]
  have hfreshAll : ∀ {P : OverlayNode U V → Prop}, P fresh → Everywhere faultIn P fresh := fun hP =>
    everywhere_of_children hP (fun u c hc => by
      rw [childAt_congr faultIn (n := .new) hfresh, childAt_new] at hc
      cases hc)
  -- cleanness is the one property the leaf itself changes, so every other one is carried along with it
  have hpres : ∀ {P : OverlayNode U V → Prop}, (∀ m u c, P m → P (m.withChild u (.inMem c))) → P .new → P fresh →
      (∀ m m', m.store = m'.store → P m → P m') → Everywhere faultIn P n →
        Everywhere faultIn (fun m => P m ∧ m.Clean) n' := by
    intro P hchild hnew hPfresh hcongr hPn
    have hPn' : Everywhere faultIn (fun m => P m ∧ m.Clean) n := fun path m hm => ⟨hPn path m hm, hn.clean path m hm⟩
    refine everywhere_pathCopy (fun m u c hm => ⟨hchild m u c hm.1, hm.2⟩) (fun m m' hm hok => ?_)
      (fun rest s hs => ?_) hPn' h
    · obtain ⟨hstore, -, hcl⟩ := hleaf m m' hm.2 hok
      exact ⟨hstore, hcongr m m' hstore.symm hm.1, hcl⟩
    · rw [habsent rest s hs]
      exact everywhere_createSpine (fun m u c hm => ⟨hchild m u c hm.1, hm.2⟩) ⟨hnew, fun _ => rfl⟩
        (hfreshAll ⟨hPfresh, hclean⟩) rest
  refine ⟨?_, ⟨?_, ?_⟩, fun hn path m hm => ?_⟩
  · refine entryAt_pathCopy (fun m m' hm hok => ?_) (fun rest s _ hs k => ?_) h
    · obtain ⟨hstore, hm', -⟩ := hleaf m m' (hn.clean key m hm) hok
      exact ⟨hstore, hm'⟩
    · rw [habsent rest s hs, entryAt_createSpine hfresh, hentry]
  · have hall := hpres (P := fun _ => True) (fun _ _ _ => id) trivial trivial (fun _ _ _ => id) (fun _ _ _ => trivial)
    exact fun path m hm => (hall path m hm).2
  · have hall := hpres (fun m u c hm => hm.withChild u c) (fun u p hp => by simp at hp) (fun u p hp => by simp [hnone] at hp)
      (fun m m' hs hm => hm.congr hs.symm) hn.resolved
    exact fun path m hm => (hall path m hm).1
  · exact (hpres (fun m u c hm => hm.withChild u c) (fun u p hp => by simp at hp) (fun u p hp => by simp [hnone] at hp)
      (fun m m' hs hm => hm.congr hs.symm) hn path m hm).1

theorem buildValuePathIterative_ok (hn : Everywhere faultIn (Resolved faultIn) n) (key : List U) (v : V) :
    ∃ n', buildValuePathIterative faultIn n key v = .ok n' := by
  cases hm : nodeAt faultIn n key with
  | some m => exact (pathCopy_of_nodeAt hm).1 _ rfl
  | none => exact (pathCopy_of_nodeAt_none hn hm).1 (fun rest => ⟨_, rfl⟩)

theorem buildValuePathIterative_spec (hn : WellFormed faultIn n) (key : List U) (v : V) :
    ∃ n', buildValuePathIterative faultIn n key v = .ok n' ∧ Updates faultIn n n' key (some (some v)) := by
  obtain ⟨n', hn'⟩ := buildValuePathIterative_ok hn.resolved key v
  refine ⟨n', hn', updates_of_pathCopy (new.asFinal.withValue v) (fun m m' _ hleaf => ?_)
    (fun rest s hs => ?_) rfl rfl nofun hn hn'⟩
  · rw [← ok.inj hleaf]
    exact ⟨rfl, rfl, nofun⟩
  · exact (ok.inj hs).symm

omit [LT U] [DecidableLT U] in
theorem entryAt_eq_none : entryAt faultIn n key = none ↔ ∀ m, nodeAt faultIn n key = some m → m.isFinal = false := by
  unfold entryAt
  cases hm : nodeAt faultIn n key with
  | none => simp
  | some m => cases hf : m.isFinal <;> simp [entry, hf]

omit [LT U] [DecidableLT U] in
theorem final_of_entryAt (h : entryAt faultIn n key ≠ none) : ∃ m, nodeAt faultIn n key = some m ∧ m.isFinal = true := by
  rw [Ne, entryAt_eq_none, not_forall] at h
  obtain ⟨m, hm⟩ := h
  rw [Classical.not_imp] at hm
  exact ⟨m, hm.1, by simpa using hm.2⟩

theorem buildFinalPathIterative_absent (hn : WellFormed faultIn n) (h : entryAt faultIn n key = none) :
    ∃ n', buildFinalPathIterative faultIn n key = .ok n' ∧ Updates faultIn n n' key (some none) := by
  have hok : ∃ n', buildFinalPathIterative faultIn n key = .ok n' := by
    cases hm : nodeAt faultIn n key with
    | some m => exact (pathCopy_of_nodeAt hm).1 m.asFinal (by simp [entryAt_eq_none.1 h m hm])
    | none => exact (pathCopy_of_nodeAt_none hn.resolved hm).1 (fun rest => ⟨_, rfl⟩)
  obtain ⟨n', hn'⟩ := hok
  refine ⟨n', hn', updates_of_pathCopy new.asFinal (fun m m' hm hleaf => ?_)
    (fun rest s hs => ?_) rfl rfl nofun hn hn'⟩
  · cases hf : m.isFinal with
    | true => simp [hf] at hleaf
    | false =>
      simp only [hf, Bool.false_eq_true, if_false, ok.injEq] at hleaf
      subst hleaf
      refine ⟨rfl, ?_, nofun⟩
      have hv : m.value = none := hm hf
      show some m.value = some none
      rw [hv]
  · exact (ok.inj hs).symm

theorem buildFinalPathIterative_present (h : entryAt faultIn n key ≠ none) :
    buildFinalPathIterative faultIn n key = .error .alreadyExists := by
  obtain ⟨m, hm, hfinal⟩ := final_of_entryAt h
  unfold buildFinalPathIterative
  exact (pathCopy_of_nodeAt hm).2 _ (by simp [hfinal])

theorem buildRemovePathIterative_present (hn : WellFormed faultIn n) (h : entryAt faultIn n key ≠ none) :
    ∃ n', buildRemovePathIterative faultIn n key = .ok n' ∧ Updates faultIn n n' key none := by
  obtain ⟨m, hm, hfinal⟩ := final_of_entryAt h
  have hok : ∃ n', buildRemovePathIterative faultIn n key = .ok n' := by
    unfold buildRemovePathIterative
    exact (pathCopy_of_nodeAt hm).1 m.asNonFinal (by simp [hfinal])
  obtain ⟨n', hn'⟩ := hok
  refine ⟨n', hn', updates_of_pathCopy new (fun m m' _ hleaf => ?_) (fun rest s hs => ?_)
    rfl rfl (fun _ => rfl) hn hn'⟩
  · cases hf : m.isFinal with
    | false => simp [hf] at hleaf
    | true =>
      simp only [hf, if_true, ok.injEq] at hleaf
      subst hleaf
      exact ⟨rfl, rfl, fun _ => rfl⟩
  · cases hs

theorem buildRemovePathIterative_absent (hn : WellFormed faultIn n) (h : entryAt faultIn n key = none) :
    buildRemovePathIterative faultIn n key = .error .alreadyExists := by
  unfold buildRemovePathIterative
  cases hm : nodeAt faultIn n key with
  | some m => exact (pathCopy_of_nodeAt hm).2 _ (by simp [entryAt_eq_none.1 h m hm])
  | none => exact (pathCopy_of_nodeAt_none hn.resolved hm).2 _ (fun _ => rfl)

end Builders

/-! ## The non-faulting walk -/

section Walk
omit [LT U] [DecidableLT U]

variable {faultIn : FaultIn U V}

theorem entryAt_of_findLeafIterative {n m : OverlayNode U V} {key : List U}
    (h : findLeafIterative n key = some m) : entryAt faultIn n key = some m.value := by
  induction key generalizing n with
  | nil =>
    simp only [findLeafIterative, ite_none_right_eq_some, some.injEq] at h
    obtain ⟨hf, rfl⟩ := h
    simp [entry, hf]
  | cons u key ih =>
    rw [findLeafIterative] at h
    split at h
    · rename_i c hc
      rw [entryAt_cons_of_some faultIn (childAt_of_findChild faultIn hc)]
      exact ih h
    · cases h
    · cases h

/-- Nothing on the key's path is on disk. -/
def residentOn : OverlayNode U V → List U → Bool
  | _, [] => true
  | n, u :: key => match n.findChild u with
    | none => true
    | some (.inMem c) => residentOn c key
    | some (.onDisk _) => false

theorem entryAt_of_residentOn {n : OverlayNode U V} {key : List U} (hn : residentOn n key = true) :
    entryAt faultIn n key = (findLeafIterative n key).map value := by
  induction key generalizing n with
  | nil => cases hf : n.isFinal <;> simp [findLeafIterative, entry, hf]
  | cons u key ih =>
    rw [residentOn] at hn
    rw [findLeafIterative]
    cases hfind : n.findChild u with
    | none =>
      simp only [map_none]
      exact entryAt_cons_of_none faultIn (by simp [childAt, resolveOrFault, hfind]) key
    | some child =>
      rw [hfind] at hn
      cases child with
      | onDisk p => cases hn
      | inMem c =>
        rw [entryAt_cons_of_some faultIn (childAt_of_findChild faultIn hfind)]
        exact ih hn

theorem residentOn_of_resident {n : OverlayNode U V} (hn : Everywhere faultIn Resident n) (key : List U) :
    residentOn n key = true := by
  induction key generalizing n with
  | nil => rfl
  | cons u key ih =>
    rw [residentOn]
    cases hfind : n.findChild u with
    | none => rfl
    | some child =>
      cases child with
      | onDisk p => exact absurd hfind (hn.root u p)
      | inMem c => exact ih (hn.child (childAt_of_findChild faultIn hfind))

theorem entryAt_of_resident {n : OverlayNode U V} (hn : Everywhere faultIn Resident n) (key : List U) :
    entryAt faultIn n key = (findLeafIterative n key).map value :=
  entryAt_of_residentOn (residentOn_of_resident hn key)

theorem residentOn_new (key : List U) : residentOn (.new : OverlayNode U V) key = true := by cases key <;> rfl

/-- How far down the key's path the last edge on disk is, and 0 where all are in memory. -/
def evictedDepth (faultIn : FaultIn U V) : OverlayNode U V → List U → Nat
  | _, [] => 0
  | n, u :: key =>
    let below := (childAt faultIn n u).elim 0 (evictedDepth faultIn · key)
    match n.findChild u with
    | some (.onDisk _) => below + 1
    | _ => if below = 0 then 0 else below + 1

theorem evictedDepth_eq_zero {n : OverlayNode U V} {key : List U} :
    evictedDepth faultIn n key = 0 ↔ residentOn n key = true := by
  induction key generalizing n with
  | nil => simp [evictedDepth, residentOn]
  | cons u key ih =>
    rw [evictedDepth, residentOn]
    cases hfind : n.findChild u with
    | none => simp [childAt, resolveOrFault, hfind]
    | some child =>
      cases child with
      | onDisk p => simp
      | inMem c => simp [childAt_of_findChild faultIn hfind, ih]

theorem evictedDepth_of_findLeafIterative {n m : OverlayNode U V} {key : List U} (h : findLeafIterative n key = some m) :
    evictedDepth faultIn n key = 0 := by
  rw [evictedDepth_eq_zero]
  induction key generalizing n with
  | nil => rfl
  | cons u key ih =>
    rw [findLeafIterative] at h
    rw [residentOn]
    split at h
    · rename_i c hc
      rw [hc]
      exact ih h
    · cases h
    · cases h

theorem evictedDepth_congr {m n : OverlayNode U V} (h : m.store = n.store) (key : List U) :
    evictedDepth faultIn m key = evictedDepth faultIn n key := by
  cases key with
  | nil => rfl
  | cons u key => rw [evictedDepth, evictedDepth, childAt_congr faultIn h, findChild_congr h]

end Walk

section Builders
variable {faultIn : FaultIn U V} {n n' : OverlayNode U V} {key path : List U}

theorem residentOn_createSpine {fresh : OverlayNode U V} (hfresh : fresh.store = []) (key path : List U) :
    residentOn (createSpine fresh key) path = true := by
  have hfind (u : U) : fresh.findChild u = none := by rw [findChild, hfresh, findEdge_nil]
  induction key generalizing path with
  | nil => cases path <;> simp [residentOn, createSpine, hfind]
  | cons u key ih =>
    cases path with
    | nil => rfl
    | cons w path =>
      rw [createSpine, residentOn, findChild_withChild]
      by_cases hw : u = w
      · rw [if_pos hw]
        exact ih path
      · rw [if_neg hw]
        rfl

/-- **What a path copy loads**: the edges on the way of its key, and it takes nothing out of memory. -/
theorem evictedDepth_pathCopy {ε : Type} {atLeaf : OverlayNode U V → Except ε (OverlayNode U V)}
    {onFault : PersistentARTrieError → ε} {onNull : ε} {onAbsent : List U → Except ε (OverlayNode U V)}
    (fresh : OverlayNode U V) (hleaf : ∀ m m', atLeaf m = .ok m' → m'.store = m.store)
    (habsent : ∀ rest s, onAbsent rest = .ok s → s = createSpine fresh rest) (hfresh : fresh.store = [])
    (h : pathCopy faultIn atLeaf onFault onNull onAbsent n key = .ok n') (path : List U) :
    evictedDepth faultIn n' path =
      if path.take (evictedDepth faultIn n path) <+: key then 0 else evictedDepth faultIn n path := by
  induction key generalizing n n' path with
  | nil =>
    rw [evictedDepth_congr (hleaf n n' h)]
    cases path with
    | nil => rfl
    | cons w path => cases evictedDepth faultIn n (w :: path) <;> simp
  | cons u key ih =>
    obtain ⟨sub, rfl, hsub⟩ := pathCopy_cons_ok h
    cases path with
    | nil => rfl
    | cons w path =>
      by_cases hw : u = w
      · subst hw
        have hnew : evictedDepth faultIn (n.withChild u (.inMem sub)) (u :: path) =
            if evictedDepth faultIn sub path = 0 then 0 else evictedDepth faultIn sub path + 1 := by
          rw [evictedDepth, childAt_withChild_same, findChild_withChild, if_pos rfl]
          rfl
        rw [hnew]
        rcases hsub with ⟨c, hc, hcopy⟩ | ⟨hnone, habs⟩
        · have hdepth : evictedDepth faultIn n (u :: path) = evictedDepth faultIn c path + 1 ∨
              evictedDepth faultIn n (u :: path) = 0 ∧ evictedDepth faultIn c path = 0 := by
            rw [evictedDepth, hc]
            simp only [Option.elim_some]
            split
            · exact .inl rfl
            · grind
          rw [ih hcopy path]
          rcases hdepth with hdepth | ⟨hdepth, hbelow⟩
          · rw [hdepth, take_succ_cons]
            simp only [cons_prefix_cons, true_and]
            by_cases hon : path.take (evictedDepth faultIn c path) <+: key
            · simp [hon]
            · -- the edge to the child is not the last one on disk, as its way to it would be empty
              have hbelow : evictedDepth faultIn c path ≠ 0 := fun h => hon (by simp [h])
              simp [hon, hbelow]
          · simp [hdepth, hbelow]
        · have hzero : evictedDepth faultIn sub path = 0 :=
            evictedDepth_eq_zero.2 (habsent _ _ habs ▸ residentOn_createSpine hfresh key path)
          rw [hzero, if_pos rfl, evictedDepth, hnone]
          split
          · simp
          · simp
      · have hsame : evictedDepth faultIn (n.withChild u (.inMem sub)) (w :: path) = evictedDepth faultIn n (w :: path) := by
          rw [evictedDepth, evictedDepth, childAt_withChild_ne faultIn n _ hw, findChild_withChild, if_neg hw]
        rw [hsame]
        cases evictedDepth faultIn n (w :: path) <;> simp [Ne.symm hw]

theorem evictedDepth_buildValuePath {v : V} (h : buildValuePathIterative faultIn n key v = .ok n') (path : List U) :
    evictedDepth faultIn n' path =
      if path.take (evictedDepth faultIn n path) <+: key then 0 else evictedDepth faultIn n path := by
  refine evictedDepth_pathCopy (new.asFinal.withValue v) (fun m m' hm => ?_) (fun rest s hs => ?_) rfl h path
  · exact ok.inj hm ▸ rfl
  · exact (ok.inj hs).symm

theorem evictedDepth_buildFinalPath (h : buildFinalPathIterative faultIn n key = .ok n') (path : List U) :
    evictedDepth faultIn n' path =
      if path.take (evictedDepth faultIn n path) <+: key then 0 else evictedDepth faultIn n path := by
  refine evictedDepth_pathCopy new.asFinal (fun m m' hm => ?_) (fun rest s hs => ?_) rfl h path
  · split at hm <;> cases hm
    rfl
  · exact (ok.inj hs).symm

theorem residentOn_buildValuePath {v : V} (h : buildValuePathIterative faultIn n key v = .ok n')
    (hn : residentOn n path = true) : residentOn n' path = true := by
  have hzero : evictedDepth faultIn n' path = 0 := by
    rw [evictedDepth_buildValuePath h, evictedDepth_eq_zero.2 hn, ite_self]
  exact evictedDepth_eq_zero.1 hzero

end Builders

end Dictenstein.Overlay
