import Dictenstein.Paths
/-!
# DoubleArray — tries in two parallel arrays

A state `s` of a double array has its children at `base s + code u`, and a cell belongs to `s` if its `check` says so.  The
arrays are total functions here: a cell behind the end of an array is a free one.
-/
namespace DoubleArray

open Function List Option

open Paths (Tree walk_inj walk_concat walk_concat_eq_some)

@[ext]
structure Cells (V : Type) where
  base : Nat → Int
  check : Nat → Int
  isFinal : Nat → Bool
  value : Nat → Option V

variable {U V : Type} {code : U → Nat} {c c' : Cells V} {r : Nat}

/-! ## Walking -/

def next (code : U → Nat) (c : Cells V) (s : Nat) (u : U) : Option Nat :=
  if c.base s < 0 then none
  else if c.check ((c.base s).toNat + code u) = s then some ((c.base s).toNat + code u) else none

def Cells.data (c : Cells V) (s : Nat) : Option (Option V) := if c.isFinal s then some (c.value s) else none

abbrev walk (code : U → Nat) (c : Cells V) : Nat → List U → Option Nat := Paths.walk (next code c)

abbrev entry (code : U → Nat) (c : Cells V) (r : Nat) : List U → Option (Option V) := Paths.entry (next code c) c.data r

variable {s t old new x : Nat} {p : List U} {ρ : Nat → Nat}

theorem next_eq_some {u : U} : next code c s u = some t ↔ 0 ≤ c.base s ∧ t = (c.base s).toNat + code u ∧ c.check t = s := by
  unfold next
  by_cases hbase : c.base s < 0
  · rw [if_pos hbase]
    exact ⟨nofun, fun h => absurd h.1 (by omega)⟩
  · rw [if_neg hbase]
    by_cases hcheck : c.check ((c.base s).toNat + code u) = s
    · rw [if_pos hcheck, some.injEq]
      exact ⟨fun h => ⟨by omega, h.symm, h ▸ hcheck⟩, fun h => h.2.1.symm⟩
    · rw [if_neg hcheck]
      exact ⟨nofun, fun h => absurd (h.2.1 ▸ h.2.2) hcheck⟩

theorem check_of_walk {u : U} (h : walk code c r (p ++ [u]) = some t) : 0 ≤ c.check t := by
  obtain ⟨m, -, hn⟩ := walk_concat_eq_some.1 h
  rw [(next_eq_some.1 hn).2.2]
  exact Int.natCast_nonneg m

/-- **A cell has one parent and one label**, if the root is nobody's child. -/
theorem tree (hcode : Function.Injective code) (hroot : c.check r < 0) : Tree (next code c) r where
  root s u h := by
    have := (next_eq_some.1 h).2.2
    omega
  parent s s' u u' t h h' := by
    obtain ⟨-, ht, hcheck⟩ := next_eq_some.1 h
    obtain ⟨-, ht', hcheck'⟩ := next_eq_some.1 h'
    -- the cell names its parent, and the parent's base gives the label
    obtain rfl : s = s' := by exact_mod_cast hcheck.symm.trans hcheck'
    exact ⟨rfl, hcode (by omega)⟩

/-! ## Used cells -/

def Used (c : Cells V) (r x : Nat) : Prop := x = r ∨ 0 ≤ c.check x

def Blank (c : Cells V) (r : Nat) : Prop := ∀ x, ¬Used c r x → c.base x = -1 ∧ c.isFinal x = false ∧ c.value x = none

/-- Every cell in use hangs at a state in use, and the free cells are blank. -/
structure Sound (code : U → Nat) (c : Cells V) (r : Nat) : Prop where
  root : c.check r < 0
  parent : ∀ x, 0 ≤ c.check x → ∃ s u, c.check x = (s : Nat) ∧ Used c r s ∧ 0 ≤ c.base s ∧ x = (c.base s).toNat + code u
  blank : Blank c r

theorem used_of_walk (h : walk code c r p = some t) : Used c r t := by
  cases p using reverseRecOn with
  | nil => exact .inl (some.inj h).symm
  | append_singleton p u => exact .inr (check_of_walk h)

theorem check_ne_self (hcode : Function.Injective code) (hs : Sound code c r) (hp : walk code c r p = some s) :
    c.check s ≠ s := by
  intro hself
  obtain ⟨m, u, hm, -, hbase, hx⟩ := hs.parent s (by omega)
  obtain rfl : m = s := by exact_mod_cast hm.symm.trans hself
  have hnext : next code c m u = some m := next_eq_some.2 ⟨hbase, hx, hself⟩
  have hloop : walk code c r (p ++ [u]) = some m := walk_concat_eq_some.2 ⟨m, hp, hnext⟩
  have := congrArg length (walk_inj (tree hcode hs.root) hp hloop)
  simp at this

/-! ## Marking a state -/

def Cells.mark (c : Cells V) (s : Nat) (v : Option V) : Cells V :=
  { c with isFinal := update c.isFinal s true, value := update c.value s v }

theorem data_mark (s : Nat) (v : Option V) : (c.mark s v).data = update c.data s (some v) := by
  funext x
  by_cases hx : x = s
  · subst hx
    simp [Cells.data, Cells.mark]
  · simp only [Cells.data, Cells.mark, update_of_ne hx]

theorem entry_mark [DecidableEq U] (hcode : Function.Injective code) (hroot : c.check r < 0) (hp : walk code c r p = some s)
    (v : Option V) : entry code (c.mark s v) r = update (entry code c r) p (some v) := by
  show Paths.entry (next code c) (c.mark s v).data r = _
  rw [data_mark]
  exact Paths.entry_update (tree hcode hroot) hp (some v)

theorem Sound.mark (hs : Sound code c r) (hused : Used c r s) (v : Option V) : Sound code (c.mark s v) r := by
  refine ⟨hs.root, hs.parent, fun x hx => ?_⟩
  have hne : x ≠ s := by
    rintro rfl
    exact hx hused
  simpa only [Cells.mark, update_of_ne hne] using hs.blank x hx

/-! ## Renaming -/

def renamed (ρ : Nat → Nat) (i : Int) : Int := if i < 0 then i else (ρ i.toNat : Nat)

theorem renamed_natCast (ρ : Nat → Nat) (s : Nat) : renamed ρ (s : Int) = (ρ s : Nat) := by
  rw [renamed, if_neg (by omega), Int.toNat_natCast]

structure Renames (r : Nat) (ρ : Nat → Nat) (c c' : Cells V) : Prop where
  root : ρ r = r
  onto : ∀ y, Used c' r y → ∃ x, Used c r x ∧ ρ x = y
  inj : ∀ x y, Used c r x → Used c r y → ρ x = ρ y → x = y
  check : ∀ x, Used c r x → c'.check (ρ x) = renamed ρ (c.check x)
  base : ∀ x, Used c r x → c'.base (ρ x) = c.base x
  isFinal : ∀ x, Used c r x → c'.isFinal (ρ x) = c.isFinal x
  value : ∀ x, Used c r x → c'.value (ρ x) = c.value x

theorem Renames.refl (r : Nat) (c : Cells V) : Renames r id c c where
  root := rfl
  onto y hy := ⟨y, hy, rfl⟩
  inj _ _ _ _ h := h
  check x _ := by
    rw [renamed]
    split
    · rfl
    · simp only [id_eq]
      omega
  base _ _ := rfl
  isFinal _ _ := rfl
  value _ _ := rfl

theorem Renames.used (h : Renames r ρ c c') (hx : Used c r x) : Used c' r (ρ x) := by
  rcases hx with rfl | hx
  · exact .inl h.root
  · refine .inr ?_
    rw [h.check x (.inr hx), renamed, if_neg (by omega)]
    exact Int.natCast_nonneg _

theorem renamed_comp (ρ τ : Nat → Nat) (i : Int) : renamed τ (renamed ρ i) = renamed (τ ∘ ρ) i := by
  by_cases hi : i < 0
  · simp only [renamed, if_pos hi]
  · rw [renamed, renamed, renamed, if_neg hi, if_neg hi, if_neg (by omega), Int.toNat_natCast]
    rfl

theorem Renames.trans {c'' : Cells V} {τ : Nat → Nat} (h : Renames r ρ c c') (h' : Renames r τ c' c'') :
    Renames r (τ ∘ ρ) c c'' where
  root := by rw [comp_apply, h.root, h'.root]
  onto y hy := by
    obtain ⟨x', hx', rfl⟩ := h'.onto y hy
    obtain ⟨x, hx, rfl⟩ := h.onto x' hx'
    exact ⟨x, hx, rfl⟩
  inj x y hx hy heq := h.inj x y hx hy (h'.inj _ _ (h.used hx) (h.used hy) heq)
  check x hx := by rw [comp_apply, h'.check _ (h.used hx), h.check x hx, renamed_comp]
  base x hx := (h'.base _ (h.used hx)).trans (h.base x hx)
  isFinal x hx := (h'.isFinal _ (h.used hx)).trans (h.isFinal x hx)
  value x hx := (h'.value _ (h.used hx)).trans (h.value x hx)

theorem Renames.check_iff (hs : Sound code c r) (h : Renames r ρ c c') (hx : Used c r x) :
    c'.check t = (ρ x : Nat) ↔ ∃ y, c.check y = (x : Nat) ∧ ρ y = t := by
  constructor
  · intro ht
    obtain ⟨y, hy, rfl⟩ := h.onto t (.inr (by omega))
    rw [h.check y hy] at ht
    have hcheck : 0 ≤ c.check y := by
      rw [renamed] at ht
      split at ht <;> omega
    obtain ⟨p, w, hp, hpused, -⟩ := hs.parent y hcheck
    rw [hp, renamed_natCast] at ht
    have hsame : ρ p = ρ x := by exact_mod_cast ht
    exact ⟨y, by rw [hp, h.inj p x hpused hx hsame], rfl⟩
  · rintro ⟨y, hy, rfl⟩
    rw [h.check y (.inr (by omega)), hy, renamed_natCast]

/-! ## Moving one cell -/

/-- The child `old` of `s` is moved to `new`: its own children follow and the old cell is freed. -/
def Cells.move (c : Cells V) (s old new : Nat) : Cells V where
  base x := if x = old then -1 else if x = new then c.base old else c.base x
  check x := if x = old then -1 else if x = new then s else if c.check x = old then new else c.check x
  isFinal x := if x = old then false else if x = new then c.isFinal old else c.isFinal x
  value x := if x = old then none else if x = new then c.value old else c.value x

theorem used_move {y : Nat} (hold : old ≠ r) (hy : Used (c.move s old new) r y) : y ≠ old ∧ (y = new ∨ Used c r y) := by
  by_cases hyold : y = old
  · subst hyold
    rcases hy with hy | hy
    · exact absurd hy hold
    · simp [Cells.move] at hy
  · refine ⟨hyold, ?_⟩
    by_cases hynew : y = new
    · exact .inl hynew
    · refine .inr (hy.imp_right fun hcheck => ?_)
      simp only [Cells.move, if_neg hyold, if_neg hynew] at hcheck
      split at hcheck
      · omega
      · exact hcheck

theorem renames_move (hs : c.check old = s) (hself : s ≠ old) (hold : old ≠ r) (hnew : ¬Used c r new) :
    Renames r (fun x => if x = old then new else x) c (c.move s old new) := by
  have husedOld : Used c r old := .inr (by omega)
  have hne : ∀ x, Used c r x → x ≠ new := fun x hx h => hnew (h ▸ hx)
  refine ⟨if_neg (Ne.symm hold), fun y hy => ?_, fun x y hx hy heq => ?_, fun x hx => ?_, fun x hx => ?_, fun x hx => ?_,
    fun x hx => ?_⟩
  · obtain ⟨hyold, rfl | hused⟩ := used_move hold hy
    · exact ⟨old, husedOld, if_pos rfl⟩
    · exact ⟨y, hused, if_neg hyold⟩
  · by_cases hxold : x = old <;> by_cases hyold : y = old
    · rw [hxold, hyold]
    · simp only [if_pos hxold, if_neg hyold] at heq
      exact absurd heq.symm (hne y hy)
    · simp only [if_neg hxold, if_pos hyold] at heq
      exact absurd heq (hne x hx)
    · simpa only [if_neg hxold, if_neg hyold] using heq
  · by_cases hxold : x = old
    · subst hxold
      simp [Cells.move, hs, Ne.symm (hne x hx), renamed_natCast, hself]
    · simp only [Cells.move, if_neg hxold, if_neg (hne x hx)]
      by_cases hchild : c.check x = old
      · rw [if_pos hchild, hchild, renamed_natCast, if_pos rfl]
      · rw [if_neg hchild, renamed]
        split
        · rfl
        · rw [if_neg (by omega)]
          omega
  all_goals
    by_cases hxold : x = old
    · subst hxold
      simp [Cells.move, Ne.symm (hne x hx)]
    · simp only [Cells.move, if_neg hxold, if_neg (hne x hx)]

theorem blank_move (h : Blank c r) : Blank (c.move s old new) r := by
  intro x hx
  by_cases hxold : x = old
  · subst hxold
    simp [Cells.move]
  · have hxnew : x ≠ new := by
      rintro rfl
      exact hx (.inr (by simp [Cells.move, hxold]))
    have hfree : ¬Used c r x := by
      rintro (rfl | hcheck)
      · exact hx (.inl rfl)
      · refine hx (.inr ?_)
        simp only [Cells.move, if_neg hxold, if_neg hxnew]
        split <;> omega
    simpa only [Cells.move, if_neg hxold, if_neg hxnew] using h x hfree

/-! ## Attaching a free cell -/

section
variable [DecidableEq U]

/-- `c'` is `c` with the cell `new` attached to the state `s` under the label `u`, the other cells moved by `ρ`. -/
abbrev Attached (code : U → Nat) (r : Nat) (ρ : Nat → Nat) (c c' : Cells V) (s : Nat) (u : U) (new : Nat) : Prop :=
  Paths.Attached (next code c) (next code c') c.data c'.data (Used c r) ρ r s u new

variable {ρ : Nat → Nat} {s : Nat} {u : U}

/-- The cell `new` given to the state `s`, whose children are at `b` from now on. -/
def Cells.attach (c : Cells V) (s b new : Nat) : Cells V :=
  { c with base := update c.base s b, check := update c.check new s }

/-- The children of `s` are moved to the base `b`, the other cells stay. -/
structure Rebased (code : U → Nat) (r : Nat) (ρ : Nat → Nat) (c c' : Cells V) (s b : Nat) : Prop
    extends Renames r ρ c c' where
  stay : ∀ x, Used c r x → c.check x ≠ s → ρ x = x
  child : ∀ w, c.check ((c.base s).toNat + code w) = s → ρ ((c.base s).toNat + code w) = b + code w
  blank : Blank c' r

namespace Rebased

variable {b : Nat} (hs : Sound code c r) (h : Rebased code r ρ c c' s b) (hused : Used c r s) (hself : c.check s ≠ s)
include hs h hused hself

omit [DecidableEq U] in
theorem next_other (hfree : ¬Used c' r (b + code u)) (hx : Used c r x) (hxs : x ≠ s) (w : U) :
    next code (c'.attach s b (b + code u)) (ρ x) w = (next code c x w).map ρ := by
  have hρs : ρ s = s := h.stay s hused hself
  have hρx : ρ x ≠ s := fun heq => hxs (h.inj x s hx hused (heq.trans hρs.symm))
  have hbase : (c'.attach s b (b + code u)).base (ρ x) = c.base x := by
    simp only [Cells.attach, update_of_ne hρx, h.base x hx]
  have hcheck : ∀ t, (c'.attach s b (b + code u)).check t = (ρ x : Nat) ↔ c.check t = (x : Nat) ∧ ρ t = t := by
    intro t
    by_cases ht : t = b + code u
    · subst ht
      simp only [Cells.attach, update_self]
      constructor
      · intro heq
        exact absurd (by exact_mod_cast heq.symm) hρx
      · rintro ⟨hparent, hstay⟩
        exact absurd (hstay ▸ h.used (.inr (by omega))) hfree
    · simp only [Cells.attach, update_of_ne ht, h.toRenames.check_iff hs hx]
      constructor
      · rintro ⟨y, hy, rfl⟩
        have hstay : ρ y = y := h.stay y (.inr (by omega)) (by rw [hy]; exact_mod_cast hxs)
        rw [hstay]
        exact ⟨hy, hstay⟩
      · rintro ⟨hparent, hstay⟩
        exact ⟨t, hparent, hstay⟩
  refine ext fun t => ?_
  rw [next_eq_some, hbase, hcheck, map_eq_some_iff]
  constructor
  · rintro ⟨h0, ht, hparent, hstay⟩
    exact ⟨t, next_eq_some.2 ⟨h0, ht, hparent⟩, hstay⟩
  · rintro ⟨y, hy, rfl⟩
    obtain ⟨h0, ht, hparent⟩ := next_eq_some.1 hy
    have hstay : ρ y = y := h.stay y (.inr (by omega)) (by rw [hparent]; exact_mod_cast hxs)
    rw [hstay]
    exact ⟨h0, ht, hparent, hstay⟩

theorem next_self (hcode : Function.Injective code) (w : U) :
    next code (c'.attach s b (b + code u)) s w = if w = u then some (b + code u) else (next code c s w).map ρ := by
  have hρs : ρ s = s := h.stay s hused hself
  have hbase : (c'.attach s b (b + code u)).base s = b := update_self ..
  refine ext fun t => ?_
  rw [next_eq_some, hbase, Int.toNat_natCast]
  by_cases hw : w = u
  · subst hw
    rw [if_pos rfl, some.injEq]
    constructor
    · rintro ⟨-, ht, -⟩
      exact ht.symm
    · rintro rfl
      exact ⟨Int.natCast_nonneg b, rfl, update_self ..⟩
  · have hne : b + code w ≠ b + code u := fun heq => hw (hcode (by omega))
    rw [if_neg hw, map_eq_some_iff]
    constructor
    · rintro ⟨-, rfl, hparent⟩
      simp only [Cells.attach, update_of_ne hne] at hparent
      obtain ⟨y, hy, hρy⟩ := (h.toRenames.check_iff hs hused).1 (hparent.trans (by rw [hρs]))
      obtain ⟨p, w', hp, -, h0, hyp⟩ := hs.parent y (by omega)
      obtain rfl : p = s := by exact_mod_cast hp.symm.trans hy
      have hlabel : w' = w := by
        rw [hyp] at hy hρy
        rw [h.child w' hy] at hρy
        exact hcode (by omega)
      exact ⟨y, next_eq_some.2 ⟨h0, hlabel ▸ hyp, hy⟩, hρy⟩
    · rintro ⟨y, hy, rfl⟩
      obtain ⟨h0, rfl, hparent⟩ := next_eq_some.1 hy
      rw [h.child w hparent]
      refine ⟨Int.natCast_nonneg b, rfl, ?_⟩
      simp only [Cells.attach, update_of_ne hne]
      have := (h.toRenames.check_iff hs hused).2 ⟨_, hparent, h.child w hparent⟩
      rwa [hρs] at this

theorem attached (hcode : Function.Injective code) (hfree : ¬Used c' r (b + code u)) :
    Attached code r ρ c (c'.attach s b (b + code u)) s u (b + code u) := by
  have hρs : ρ s = s := h.stay s hused hself
  have hne : b + code u ≠ s := fun heq => hfree (by rw [heq, ← hρs]; exact h.used hused)
  have hblank := h.blank _ hfree
  refine ⟨h.root, fun x w hx => ?_, fun w => ?_, by simp [Cells.data, Cells.attach, hblank.2.1], fun x hx => ?_⟩
  · by_cases hxs : x = s
    · subst hxs
      rw [hρs, h.next_self hs hused hself hcode]
      simp only [true_and]
    · rw [h.next_other hs hused hself hfree hx hxs, if_neg fun hand => hxs hand.1]
  · have hbase : (c'.attach s b (b + code u)).base (b + code u) = -1 := by
      simp only [Cells.attach, update_of_ne hne, hblank.1]
    rw [next, hbase]
    rfl
  · simp only [Cells.data, Cells.attach, h.isFinal x hx, h.value x hx]

section
omit [DecidableEq U]

theorem sound (hfree : ¬Used c' r (b + code u)) : Sound code (c'.attach s b (b + code u)) r := by
  have hρs : ρ s = s := h.stay s hused hself
  have hkeep : ∀ x, Used c' r x → Used (c'.attach s b (b + code u)) r x := by
    intro x hx
    have hne : x ≠ b + code u := fun heq => hfree (heq ▸ hx)
    exact hx.imp_right fun hcheck => by simpa only [Cells.attach, update_of_ne hne] using hcheck
  have hroot : r ≠ b + code u := fun heq => hfree (.inl heq.symm)
  refine ⟨?_, fun x hx => ?_, fun x hx => ?_⟩
  · have hcheck := h.check r (.inl rfl)
    rw [h.root, renamed, if_pos hs.root] at hcheck
    simp only [Cells.attach, update_of_ne hroot, hcheck]
    exact hs.root
  · by_cases hnew : x = b + code u
    · subst hnew
      refine ⟨s, u, update_self .., hkeep s (hρs ▸ h.used hused), ?_⟩
      simp [Cells.attach]
    · simp only [Cells.attach, update_of_ne hnew] at hx
      obtain ⟨y, hy, rfl⟩ := h.onto x (.inr hx)
      have hchecky : 0 ≤ c.check y := by
        rw [h.check y hy, renamed] at hx
        split at hx <;> omega
      obtain ⟨p, w, hp, hpused, h0, hyp⟩ := hs.parent y hchecky
      refine ⟨ρ p, w, ?_, hkeep _ (h.used hpused), ?_⟩
      · simp only [Cells.attach, update_of_ne hnew]
        rw [h.check y hy, hp, renamed_natCast]
      · by_cases hps : p = s
        · subst hps
          rw [hyp] at hp ⊢
          simp [Cells.attach, hρs, h.child w hp]
        · have hρp : ρ p ≠ s := fun heq => hps (h.inj p s hpused hused (heq.trans hρs.symm))
          have hstay : ρ y = y := h.stay y hy (by rw [hp]; exact_mod_cast hps)
          simp only [Cells.attach, update_of_ne hρp, h.base p hpused, hstay]
          exact ⟨h0, hyp⟩
  · have hfree' : ¬Used c' r x := fun hin => hx (hkeep x hin)
    have hxs : x ≠ s := by
      rintro rfl
      exact hfree' (hρs ▸ h.used hused)
    simpa only [Cells.attach, update_of_ne hxs] using h.blank x hfree'

omit hs h hused hself

theorem refl (hs : Sound code c r) : Rebased code r id c c s (c.base s).toNat :=
  { Renames.refl r c with stay := fun _ _ _ => rfl, child := fun _ _ => rfl, blank := hs.blank }

theorem of_leaf (hs : Sound code c r) (hleaf : c.base s < 0) : Rebased code r id c c s b := by
  refine { Renames.refl r c with stay := fun _ _ _ => rfl, child := fun w hw => ?_, blank := hs.blank }
  obtain ⟨p, -, hp, -, h0, -⟩ := hs.parent ((c.base s).toNat + code w) (by omega)
  obtain rfl : p = s := by exact_mod_cast hp.symm.trans hw
  omega

end

end Rebased

/-! ## Moving all children of a state -/

/-- The children under the given labels moved from one base to another. -/
def Cells.moveAll (code : U → Nat) (c : Cells V) (s old new : Nat) (ws : List U) : Cells V :=
  ws.foldl (fun c w => c.move s (old + code w) (new + code w)) c

def shifted (code : U → Nat) (old new : Nat) (ws : List U) (x : Nat) : Nat :=
  if x ∈ ws.map (old + code ·) then new + (x - old) else x

section
variable {old b : Nat}
variable {ws : List U} {w : U}

section
omit [DecidableEq U]

theorem shifted_of_ne (h : ∀ w ∈ ws, old + code w ≠ x) : shifted code old b ws x = x := by
  refine if_neg fun hmem => ?_
  obtain ⟨w, hw, heq⟩ := mem_map.1 hmem
  exact h w hw heq

theorem shifted_child (hw : w ∈ ws) : shifted code old b ws (old + code w) = b + code w := by
  rw [shifted, if_pos (mem_map_of_mem hw)]
  omega

theorem shifted_concat (hfree : ∀ w' ∈ ws, b + code w' ≠ old + code w) :
    (fun x => if x = old + code w then b + code w else x) ∘ shifted code old b ws = shifted code old b (ws ++ [w]) := by
  funext x
  rw [comp_apply]
  by_cases hx : x ∈ ws.map (old + code ·)
  · obtain ⟨w', hw', rfl⟩ := mem_map.1 hx
    rw [shifted_child hw', if_neg (hfree w' hw'), shifted_child (mem_append_left _ hw')]
  · have hshift : shifted code old b ws x = x := if_neg hx
    rw [hshift]
    by_cases hxw : x = old + code w
    · rw [if_pos hxw, hxw, shifted_child (mem_append_right _ (mem_singleton_self w))]
    · rw [if_neg hxw, shifted, if_neg]
      simp only [map_append, map_cons, map_nil, mem_append, mem_singleton]
      exact fun hor => hor.elim hx hxw

end

section
variable (hcode : Function.Injective code)
include hcode

section
omit [DecidableEq U]

theorem free_of_shifted (hw : w ∉ ws) (hren : Renames r (shifted code old b ws) c c')
    (hfree : ¬Used c r (b + code w)) : ¬Used c' r (b + code w) := by
  intro hmoved
  obtain ⟨x, hx, hxw⟩ := hren.onto _ hmoved
  by_cases hmem : x ∈ ws.map (old + code ·)
  · obtain ⟨w', hw', rfl⟩ := mem_map.1 hmem
    rw [shifted_child hw'] at hxw
    exact hw (hcode (show code w' = code w by omega) ▸ hw')
  · rw [shifted, if_neg hmem] at hxw
    exact hfree (hxw ▸ hx)

section
variable (hs : Sound code c r) (hself : c.check s ≠ s) (hnodup : ws.Nodup) (hchild : ∀ w ∈ ws, c.check (old + code w) = s)
  (hfree : ∀ w ∈ ws, ¬Used c r (b + code w))
include hs hself hnodup hchild hfree

theorem renames_moveAll : Renames r (shifted code old b ws) c (c.moveAll code s old b ws) ∧
    Blank (c.moveAll code s old b ws) r := by
  induction ws using reverseRecOn with
  | nil =>
    have hid : shifted code old b [] = id := by
      funext x
      simp [shifted]
    rw [hid]
    exact ⟨.refl r c, hs.blank⟩
  | append_singleton ws w ih =>
    rw [← concat_eq_append, nodup_concat] at hnodup
    obtain ⟨hw, hrest⟩ := hnodup
    have hin : w ∈ ws ++ [w] := mem_append_right _ (mem_singleton_self w)
    obtain ⟨hren, hblank⟩ := ih hrest (fun w' hw' => hchild w' (mem_append_left _ hw'))
      fun w' hw' => hfree w' (mem_append_left _ hw')
    have hused : Used c r (old + code w) := .inr (by rw [hchild w hin]; omega)
    have hstill : shifted code old b ws (old + code w) = old + code w :=
      shifted_of_ne fun w' hw' heq => hw (hcode (show code w' = code w by omega) ▸ hw')
    have hparent : shifted code old b ws s = s :=
      shifted_of_ne fun w' hw' heq => hself (heq ▸ hchild w' (mem_append_left _ hw'))
    have hcheck : (c.moveAll code s old b ws).check (old + code w) = s := by
      have := hren.check _ hused
      rwa [hstill, hchild w hin, renamed_natCast, hparent] at this
    have hroot : old + code w ≠ r := fun heq => by
      have := hs.root
      rw [← heq, hchild w hin] at this
      omega
    have hnew := free_of_shifted hcode hw hren (hfree w hin)
    have hne : s ≠ old + code w := fun heq => hself (by rw [heq, hchild w hin, ← heq])
    have hstep : c.moveAll code s old b (ws ++ [w]) = (c.moveAll code s old b ws).move s (old + code w) (b + code w) := by
      rw [Cells.moveAll, foldl_append]
      rfl
    rw [hstep, ← shifted_concat fun w' hw' heq => hfree w' (mem_append_left _ hw') (heq ▸ hused)]
    exact ⟨hren.trans (renames_move hcheck hne hroot hnew), blank_move hblank⟩

theorem kids_moveAll (hw : w ∉ ws)
    (hwchild : c.check (old + code w) = s) (hx : (c.moveAll code s old b ws).check x = (old + code w : Nat)) :
    0 ≤ (c.moveAll code s old b ws).base (old + code w) ∧
      ∃ w', x = ((c.moveAll code s old b ws).base (old + code w)).toNat + code w' := by
  obtain ⟨hren, -⟩ := renames_moveAll hcode hs hself hnodup hchild hfree
  have hused : Used c r (old + code w) := .inr (by omega)
  have hstill : shifted code old b ws (old + code w) = old + code w :=
    shifted_of_ne fun w' hw' heq => hw (hcode (show code w' = code w by omega) ▸ hw')
  rw [← hstill, hren.check_iff hs hused] at hx
  obtain ⟨y, hy, rfl⟩ := hx
  have hyold : shifted code old b ws y = y := by
    refine shifted_of_ne fun w' hw' heq => ?_
    rw [← heq, hchild w' hw'] at hy
    have hsame : s = old + code w := by exact_mod_cast hy
    rw [← hsame] at hwchild
    exact hself hwchild
  obtain ⟨p, w', hp, -, h0, hyp⟩ := hs.parent y (by omega)
  obtain rfl : p = old + code w := by exact_mod_cast hp.symm.trans hy
  have hbase := hren.base _ hused
  rw [hstill] at hbase
  rw [hbase, hyold]
  exact ⟨h0, w', hyp⟩

end

theorem rebased_moveAll (hs : Sound code c r) (hself : c.check s ≠ s) (hnodup : ws.Nodup)
    (hchild : ∀ w, w ∈ ws ↔ c.check ((c.base s).toNat + code w) = s) (hfree : ∀ w ∈ ws, ¬Used c r (b + code w)) :
    Rebased code r (shifted code (c.base s).toNat b ws) c (c.moveAll code s (c.base s).toNat b ws) s b := by
  obtain ⟨hren, hblank⟩ := renames_moveAll hcode hs hself hnodup (fun w hw => (hchild w).1 hw) hfree
  refine ⟨hren, fun x _ hx => if_neg fun hmem => ?_, fun w hw => shifted_child ((hchild w).2 hw), hblank⟩
  obtain ⟨w, hw, rfl⟩ := mem_map.1 hmem
  exact hx ((hchild w).1 hw)

end

end

end
end
end DoubleArray
