import Dictenstein.DiskManager
/-!
# DiskAllocation — allocations and frees that interleave

`allocate_block` and `free_block` as their atomic steps.  A pointer of the free list is the id of a block, and 0 is the end;
the model has the free list, the counters and the calls, and leaves the rest of the file out. -/
namespace Dictenstein.Disk

open Runs Function List Option

/-- Where a call stands, with what it has read.  The version is the number of writes of the list's head that it has seen. -/
inductive BlockPhase where
  | idle
  | allocating
  | popping (head version : Nat)
  | unlinking (head next version : Nat)
  | counting
  | claiming (count : Nat)
  | extending (blockId : Nat)
  | persisting (blockId : Nat)
  | freeing (blockId : Nat)
  | validating (blockId count : Nat)
  | linking (blockId head version : Nat)
  | rereading (blockId version : Nat)
  | pushing (blockId version : Nat)

inductive LogEntry where
  | returned (blockId : Nat)
  | freed (blockId : Nat)
deriving DecidableEq

structure BlockSystem where
  -- block 0 is a `FileHeader`
  standard : Bool
  head : Nat
  next : Nat → Nat
  blockCount : Nat
  -- `file_size`, in blocks
  fileBlocks : Nat
  version : Nat
  calls : Nat → BlockPhase
  log : List LogEntry

inductive BlockEvent where
  | allocateBlock (i : Nat)
  | freeBlock (i blockId : Nat)
  | advance (i : Nat)

namespace BlockSystem

def init (standard : Bool) : BlockSystem := ⟨standard, 0, fun _ => 0, 1, 1, 0, fun _ => .idle, []⟩

variable (s : BlockSystem)

def setCall (i : Nat) (p : BlockPhase) : BlockSystem := { s with calls := update s.calls i p }

def advance (i : Nat) : BlockPhase → Option BlockSystem
  | .idle => none
  | .allocating => some (s.setCall i (if s.standard ∧ s.head ≠ 0 then .popping s.head s.version else .counting))
  -- an error ends the call
  | .popping head version =>
    some (s.setCall i (if s.fileBlocks ≤ head then .idle else .unlinking head (s.next head) version))
  | .unlinking head next _ =>
    some ({ s with head := next, version := s.version + 1, log := s.log ++ [LogEntry.returned head] }.setCall i .idle)
  | .counting => some (s.setCall i (if maxBlockCount ≤ s.blockCount then .idle else .claiming s.blockCount))
  | .claiming count =>
    if s.blockCount = count then some ({ s with blockCount := count + 1 }.setCall i (.extending count))
    else some (s.setCall i .counting)
  | .extending blockId =>
    some ({ s with fileBlocks := max s.fileBlocks (blockId + 1), next := update s.next blockId 0 }.setCall i
      (.persisting blockId))
  | .persisting blockId => some ({ s with log := s.log ++ [LogEntry.returned blockId] }.setCall i .idle)
  | .freeing blockId => some (s.setCall i (if blockId = 0 then .idle else .validating blockId s.blockCount))
  | .validating blockId count =>
    some (s.setCall i (if count ≤ blockId ∨ s.standard = false then .idle else .linking blockId s.head s.version))
  | .linking blockId head version =>
    if s.fileBlocks ≤ blockId then some (s.setCall i .idle)
    else some ({ s with next := update s.next blockId head }.setCall i (.rereading blockId version))
  -- the header that is read again gets the new head
  | .rereading blockId version => some (s.setCall i (.pushing blockId version))
  | .pushing blockId _ => some ({ s with head := blockId, version := s.version + 1 }.setCall i .idle)

def step? : BlockEvent → Option BlockSystem
  | .allocateBlock i => match s.calls i with
    | .idle => some (s.setCall i .allocating)
    | _ => none
  | .freeBlock i blockId => match s.calls i with
    | .idle => some ({ s with log := s.log ++ [LogEntry.freed blockId] }.setCall i (.freeing blockId))
    | _ => none
  | .advance i => s.advance i (s.calls i)

end BlockSystem

/-! ## The blocks that are held -/

def held (log : List LogEntry) (b : Nat) : Bool :=
  log.foldl (fun h e => match e with
    | .returned b' => h || b' == b
    | .freed b' => h && b' != b) false

/-- A call for a block that is held frees it, and no head is written between a call's reading it and writing it. -/
def Undisturbed (s : BlockSystem) : BlockEvent → Prop
  | .allocateBlock _ => True
  | .freeBlock _ blockId => held s.log blockId = true
  | .advance i => match s.calls i with
    | .unlinking _ _ version | .pushing _ version => version = s.version
    | _ => True

instance (s : BlockSystem) (e : BlockEvent) : Decidable (Undisturbed s e) := by
  unfold Undisturbed
  split
  · infer_instance
  · infer_instance
  · split <;> infer_instance

section
variable {log l l' : List LogEntry} {b b' : Nat}

theorem held_returned : held (log ++ [.returned b]) b' = true ↔ b' = b ∨ held log b' = true := by
  rw [held, foldl_append]
  show (held log b' || b == b') = true ↔ _
  rw [Bool.or_eq_true, beq_iff_eq, or_comm, eq_comm]

theorem held_freed : held (log ++ [.freed b]) b' = true ↔ b' ≠ b ∧ held log b' = true := by
  rw [held, foldl_append]
  show (held log b' && b != b') = true ↔ _
  rw [Bool.and_eq_true, bne_iff_ne, and_comm, ne_comm]

theorem held_of_not_freed (h : LogEntry.freed b ∉ l') : held (l ++ .returned b :: l') b = true := by
  induction l' using reverseRecOn with
  | nil => exact held_returned.2 (.inl rfl)
  | append_singleton l' e ih =>
    rw [mem_append, mem_singleton, not_or] at h
    rw [← cons_append, ← append_assoc]
    cases e with
    | returned b' => exact held_returned.2 (.inr (ih h.1))
    | freed b' => exact held_freed.2 ⟨fun heq => h.2 (heq ▸ rfl), ih h.1⟩

def Sound (log : List LogEntry) : Prop := ∀ l b l', log = l ++ .returned b :: l' → b ≠ 0 ∧ held l b = false

theorem Sound.concat {e : LogEntry} (h : Sound log) (he : ∀ b, e = .returned b → b ≠ 0 ∧ held log b = false) :
    Sound (log ++ [e]) := by
  intro l b l' heq
  induction l' using reverseRecOn with
  | nil =>
    obtain ⟨rfl, he'⟩ := append_inj' heq rfl
    exact he b (cons.inj he').1
  | append_singleton l' e' _ =>
    rw [← cons_append, ← append_assoc] at heq
    exact h l b l' (append_inj' heq rfl).1

end

/-! ## The owners of the blocks -/

def BlockPhase.block : BlockPhase → Option Nat
  | .extending b | .persisting b | .freeing b | .validating b _ | .linking b _ _ | .rereading b _ | .pushing b _ => some b
  | _ => none

inductive Owner where
  | list
  | user
  | call (i : Nat)

def Owns (s : BlockSystem) (free : List Nat) : Owner → Nat → Prop
  | .list, b => b ∈ free
  | .user, b => held s.log b = true
  | .call i, b => (s.calls i).block = some b

def Chain (next : Nat → Nat) : Nat → List Nat → Prop
  | head, [] => head = 0
  | head, b :: rest => head = b ∧ b ≠ 0 ∧ Chain next (next b) rest

/-- What a call has read still holds, if no head was written since. -/
def PhaseOk (s : BlockSystem) : BlockPhase → Prop
  | .popping head version => version ≤ s.version ∧ (version = s.version → s.head = head ∧ head ≠ 0)
  | .unlinking head next version =>
    version ≤ s.version ∧ (version = s.version → s.head = head ∧ head ≠ 0 ∧ s.next head = next)
  | .linking _ head version => version ≤ s.version ∧ (version = s.version → s.head = head)
  | .rereading b version | .pushing b version => version ≤ s.version ∧ (version = s.version → s.next b = s.head)
  | _ => True

structure BlocksOk (s : BlockSystem) (free : List Nat) : Prop where
  chain : Chain s.next s.head free
  nodup : free.Nodup
  pos : 0 < s.blockCount
  unique : ∀ o o' b, Owns s free o b → Owns s free o' b → o = o'
  bounded : ∀ o b, Owns s free o b → 0 < b ∧ b < s.blockCount
  phase : ∀ i, PhaseOk s (s.calls i)
  sound : Sound s.log

section
variable {s s' : BlockSystem} {free free' : List Nat} {i b : Nat} {p : BlockPhase}
variable {next : Nat → Nat} {head : Nat}

theorem Chain.congr {next' : Nat → Nat} : ∀ {free : List Nat} {head : Nat}, Chain next head free →
    (∀ b ∈ free, next' b = next b) → Chain next' head free
  | [], _, h, _ => h
  | b :: rest, _, h, hsame => by
    refine ⟨h.1, h.2.1, ?_⟩
    rw [hsame b (by simp)]
    exact h.2.2.congr fun b' hb' => hsame b' (by simp [hb'])

theorem Chain.head_mem (h : Chain next head free) (hne : head ≠ 0) : head ∈ free := by
  cases free with
  | nil => exact absurd h hne
  | cons b rest => exact h.1 ▸ (.head _)

theorem owns_setCall {o : Owner} (h : Owns (s.setCall i p) free o b) :
    o = .call i ∧ p.block = some b ∨ o ≠ .call i ∧ Owns s free o b := by
  cases o with
  | list | user => exact .inr ⟨nofun, h⟩
  | call j =>
    by_cases hj : j = i
    · subst hj
      exact .inl ⟨rfl, by simpa [Owns, BlockSystem.setCall] using h⟩
    · exact .inr ⟨fun heq => hj (Owner.call.inj heq), by simpa [Owns, BlockSystem.setCall, hj] using h⟩

/-- The block `b` moves from its owner to `target` in a step of the call `i`, and the others stay. -/
theorem BlocksOk.moved (h : BlocksOk s free) {t : BlockSystem} (source target : Owner)
    (hsource : ∀ o, Owns s free o b → o = source) (hb : 0 < b ∧ b < t.blockCount) (hcount : s.blockCount ≤ t.blockCount)
    (hblock : ∀ b', p.block = some b' → target = .call i ∧ b' = b)
    (hmoves : ∀ o b', o ≠ .call i → Owns t free' o b' → o = target ∧ b' = b ∨ Owns s free o b' ∧ (o = source → b' ≠ b))
    (hchain : Chain t.next t.head free') (hnodup : free'.Nodup) (hp : PhaseOk t p)
    (hphase : ∀ j ≠ i, PhaseOk t (t.calls j)) (hsound : Sound t.log) : BlocksOk (t.setCall i p) free' := by
  have howns : ∀ o b', Owns (t.setCall i p) free' o b' → o = target ∧ b' = b ∨ Owns s free o b' ∧ (o = source → b' ≠ b) := by
    intro o b' ho
    obtain ⟨rfl, hb'⟩ | ⟨hne, ho⟩ := owns_setCall ho
    · exact .inl ⟨(hblock b' hb').1.symm, (hblock b' hb').2⟩
    · exact hmoves o b' hne ho
  refine ⟨hchain, hnodup, Nat.zero_lt_of_lt hb.2, fun o o' b' ho ho' => ?_, fun o b' ho => ?_,
    (forall_update_iff _ fun _ q => PhaseOk _ q).2 ⟨hp, hphase⟩, hsound⟩
  · obtain ⟨rfl, rfl⟩ | ⟨ho, hne⟩ := howns o b' ho
    · obtain ⟨rfl, -⟩ | ⟨ho', hne'⟩ := howns o' b' ho'
      · rfl
      · exact absurd rfl (hne' (hsource o' ho'))
    · obtain ⟨rfl, rfl⟩ | ⟨ho', -⟩ := howns o' b' ho'
      · exact absurd rfl (hne (hsource o ho))
      · exact h.unique o o' b' ho ho'
  · obtain ⟨-, rfl⟩ | ⟨ho, -⟩ := howns o b' ho
    · exact hb
    · exact ⟨(h.bounded o b' ho).1, Nat.lt_of_lt_of_le (h.bounded o b' ho).2 hcount⟩

theorem BlocksOk.setCall (h : BlocksOk s free) (hp : PhaseOk s p)
    (hblock : ∀ b, p.block = some b → (s.calls i).block = some b) : BlocksOk (s.setCall i p) free := by
  have howns : ∀ o b, Owns (s.setCall i p) free o b → Owns s free o b := by
    intro o b ho
    obtain ⟨rfl, hb⟩ | ⟨-, ho⟩ := owns_setCall ho
    · exact hblock b hb
    · exact ho
  refine ⟨h.chain, h.nodup, h.pos, fun o o' b ho ho' => h.unique o o' b (howns o b ho) (howns o' b ho'),
    fun o b ho => h.bounded o b (howns o b ho), ?_, h.sound⟩
  exact (forall_update_iff _ fun _ q => PhaseOk (s.setCall i p) q).2 ⟨hp, fun j _ => h.phase j⟩

theorem PhaseOk.bump {count size : Nat} {calls : Nat → BlockPhase} {log : List LogEntry}
    (h : PhaseOk s p) : PhaseOk ⟨s.standard, head, next, count, size, s.version + 1, calls, log⟩ p := by
  cases p <;> first | trivial | exact ⟨Nat.le_succ_of_le h.1, fun heq => absurd h.1 (by simp only at heq; omega)⟩

section
variable (h : BlocksOk s free)
include h

/-- The link of a block that a call has is written: the list and the other calls do not see it. -/
theorem BlocksOk.setNext (hown : (s.calls i).block = some b) (x : Nat) {size : Nat}
    (hp : PhaseOk { s with next := update s.next b x, fileBlocks := size } p) (hblock : p.block = some b) :
    BlocksOk ({ s with next := update s.next b x, fileBlocks := size }.setCall i p) free := by
  have hlist : ∀ b' ∈ free, b' ≠ b := by
    rintro b' hmem rfl
    exact nomatch h.unique .list (.call i) b' hmem hown
  refine h.moved (.call i) (.call i) (fun o ho => h.unique o (.call i) b ho hown) (h.bounded (.call i) b hown)
    (Nat.le_refl _)
    (fun b' hb' => ⟨rfl, some.inj (hb'.symm.trans hblock)⟩) (fun o b' hne ho => .inr ⟨ho, fun heq => absurd heq hne⟩)
    (h.chain.congr fun b' hb' => update_of_ne (hlist b' hb') _ _) h.nodup hp (fun j hj => ?_) h.sound
  have hphase := h.phase j
  have hother : ∀ b', (s.calls j).block = some b' → b' ≠ b := by
    rintro b' hb' rfl
    exact hj (Owner.call.inj (h.unique (.call j) (.call i) b' hb' hown))
  show PhaseOk _ (s.calls j)
  generalize s.calls j = q at hphase hother
  cases q with
  | unlinking head next version =>
    refine ⟨hphase.1, fun hv => ?_⟩
    obtain ⟨hhead, hne, hnext⟩ := hphase.2 hv
    exact ⟨hhead, hne, (update_of_ne (hlist head (hhead ▸ h.chain.head_mem (hhead ▸ hne))) _ _).trans hnext⟩
  | rereading b' | pushing b' =>
    exact ⟨hphase.1, fun hv => (update_of_ne (hother b' rfl) _ _).trans (hphase.2 hv)⟩
  | _ => exact hphase

theorem BlocksOk.not_held {o : Owner} (hown : Owns s free o b) (hne : o ≠ .user) : held s.log b = false :=
  Bool.eq_false_iff.2 fun huser => hne (h.unique o .user b hown huser)

theorem BlocksOk.unlink {head next : Nat} (hcall : s.calls i = .unlinking head next s.version) : ∃ free', BlocksOk ({ s with
      head := next, version := s.version + 1, log := s.log ++ [LogEntry.returned head] }.setCall i .idle) free' := by
  have hphase := h.phase i
  rw [hcall] at hphase
  obtain ⟨hhead, hne, hnext⟩ := hphase.2 rfl
  have hchain := h.chain
  cases free with
  | nil => exact absurd (hhead.symm.trans hchain) hne
  | cons b rest =>
    obtain ⟨hb, hb0, hrest⟩ := hchain
    obtain rfl : head = b := hhead.symm.trans hb
    have hfree : Owns s (head :: rest) .list head := .head _
    obtain ⟨hnot, hnodup⟩ := nodup_cons.1 h.nodup
    refine ⟨rest,
      h.moved .list .user (fun o ho => h.unique o .list head ho hfree) (h.bounded .list head hfree) (Nat.le_refl _) nofun
      (fun o b' hne ho => ?_) (hnext ▸ hrest) hnodup trivial (fun j _ => (h.phase j).bump)
      (h.sound.concat fun b heq => LogEntry.returned.inj heq ▸ ⟨hb0, h.not_held hfree nofun⟩)⟩
    cases o with
    | list => exact .inr ⟨.tail _ ho, fun _ heq => hnot (heq ▸ ho)⟩
    | user => exact (held_returned.1 ho).imp (fun heq => ⟨rfl, heq⟩) fun ho => ⟨ho, nofun⟩
    | call j => exact .inr ⟨ho, nofun⟩

theorem BlocksOk.push (hcall : s.calls i = .pushing b s.version) :
    BlocksOk ({ s with head := b, version := s.version + 1 }.setCall i .idle) (b :: free) := by
  have hphase := h.phase i
  rw [hcall] at hphase
  have hown : Owns s free (.call i) b := by rw [Owns, hcall]; rfl
  have hb := h.bounded (.call i) b hown
  have hchain : Chain s.next b (b :: free) := ⟨rfl, Nat.ne_of_gt hb.1, by rw [hphase.2 rfl]; exact h.chain⟩
  refine h.moved (.call i) .list (fun o ho => h.unique o (.call i) b ho hown) hb (Nat.le_refl _) nofun
    (fun o b' hne ho => ?_) hchain
    (nodup_cons.2 ⟨fun hmem => (nomatch h.unique .list (.call i) b hmem hown), h.nodup⟩) trivial
    (fun j _ => (h.phase j).bump) h.sound
  cases o with
  | list => exact (mem_cons.1 ho).imp (fun heq => ⟨rfl, heq⟩) fun ho => ⟨ho, nofun⟩
  | user => exact .inr ⟨ho, nofun⟩
  | call j => exact .inr ⟨ho, fun heq => absurd heq hne⟩

theorem BlocksOk.claim : BlocksOk ({ s with blockCount := s.blockCount + 1 }.setCall i (.extending s.blockCount)) free :=
  h.moved (.call i) (.call i) (fun o ho => absurd (h.bounded o _ ho).2 (Nat.lt_irrefl _)) ⟨h.pos, Nat.lt_succ_self _⟩
    (Nat.le_succ _) (fun _ hb' => ⟨rfl, (some.inj hb').symm⟩) (fun _ _ hne ho => .inr ⟨ho, fun heq => absurd heq hne⟩)
    h.chain h.nodup trivial (fun j _ => h.phase j) h.sound

theorem BlocksOk.ret (hown : (s.calls i).block = some b) :
    BlocksOk ({ s with log := s.log ++ [LogEntry.returned b] }.setCall i .idle) free := by
  have hb := h.bounded (.call i) b hown
  refine h.moved (.call i) .user (fun o ho => h.unique o (.call i) b ho hown) hb (Nat.le_refl _) nofun
    (fun o b' hne ho => ?_) h.chain
    h.nodup trivial (fun j _ => h.phase j)
    (h.sound.concat fun b' heq => LogEntry.returned.inj heq ▸ ⟨Nat.ne_of_gt hb.1, h.not_held (o := .call i) hown nofun⟩)
  cases o with
  | list => exact .inr ⟨ho, nofun⟩
  | user => exact (held_returned.1 ho).imp (fun heq => ⟨rfl, heq⟩) fun ho => ⟨ho, nofun⟩
  | call j => exact .inr ⟨ho, fun heq => absurd heq hne⟩

theorem BlocksOk.take (hheld : held s.log b = true) :
    BlocksOk ({ s with log := s.log ++ [LogEntry.freed b] }.setCall i (.freeing b)) free := by
  refine h.moved .user (.call i) (fun o ho => h.unique o .user b ho hheld) (h.bounded .user b hheld) (Nat.le_refl _)
    (fun b' hb' => ⟨rfl, (some.inj hb').symm⟩) (fun o b' _ ho => ?_) h.chain h.nodup trivial (fun j _ => h.phase j)
    (h.sound.concat nofun)
  cases o with
  | list => exact .inr ⟨ho, nofun⟩
  | user => exact .inr ⟨(held_freed.1 ho).2, fun _ => (held_freed.1 ho).1⟩
  | call j => exact .inr ⟨ho, nofun⟩

end

theorem BlocksOk.step {e : BlockEvent} (hs : s.step? e = some s') (hok : Undisturbed s e) (h : ∃ free, BlocksOk s free) :
    ∃ free, BlocksOk s' free := by
  obtain ⟨free, h⟩ := h
  cases e with
  | allocateBlock i =>
    simp only [BlockSystem.step?] at hs
    split at hs
    · cases hs
      exact ⟨free, h.setCall trivial nofun⟩
    · cases hs
  | freeBlock i b =>
    simp only [BlockSystem.step?] at hs
    split at hs
    · cases hs
      exact ⟨free, h.take hok⟩
    · cases hs
  | advance i =>
    have hphase := h.phase i
    simp only [BlockSystem.step?] at hs
    simp only [Undisturbed] at hok
    cases hc : s.calls i with rw [hc] at hs hphase hok
    | idle => simp [BlockSystem.advance] at hs
    | allocating =>
      cases hs
      refine ⟨free, ?_⟩
      split
      · rename_i hhead
        exact h.setCall ⟨Nat.le_refl _, fun _ => ⟨rfl, hhead.2⟩⟩ nofun
      · exact h.setCall trivial nofun
    | popping head version =>
      cases hs
      refine ⟨free, ?_⟩
      split
      · exact h.setCall trivial nofun
      · exact h.setCall ⟨hphase.1, fun hv => ⟨(hphase.2 hv).1, (hphase.2 hv).2, rfl⟩⟩ nofun
    | unlinking head next version =>
      cases hs
      obtain rfl : version = s.version := hok
      exact h.unlink hc
    | counting =>
      cases hs
      refine ⟨free, ?_⟩
      split <;> exact h.setCall trivial nofun
    | claiming count =>
      rw [BlockSystem.advance] at hs
      split at hs
      · rename_i hcount
        cases hs
        exact ⟨free, hcount ▸ h.claim⟩
      · cases hs
        exact ⟨free, h.setCall trivial nofun⟩
    | extending b =>
      cases hs
      exact ⟨free, h.setNext (by rw [hc]; rfl) 0 trivial rfl⟩
    | persisting b =>
      cases hs
      exact ⟨free, h.ret (by rw [hc]; rfl)⟩
    | freeing b =>
      cases hs
      refine ⟨free, ?_⟩
      split
      · exact h.setCall trivial nofun
      · exact h.setCall trivial fun b' hb => by rw [hc]; exact hb
    | validating b count =>
      cases hs
      refine ⟨free, ?_⟩
      split
      · exact h.setCall trivial nofun
      · exact h.setCall ⟨Nat.le_refl _, fun _ => rfl⟩ fun b' hb => by rw [hc]; exact hb
    | linking b head version =>
      rw [BlockSystem.advance] at hs
      split at hs
      · cases hs
        exact ⟨free, h.setCall trivial nofun⟩
      · cases hs
        refine ⟨free, h.setNext (by rw [hc]; rfl) head ⟨hphase.1, fun hv => ?_⟩ rfl⟩
        exact (update_self ..).trans (hphase.2 hv).symm
    | rereading b version =>
      cases hs
      exact ⟨free, h.setCall hphase fun b' hb => by rw [hc]; exact hb⟩
    | pushing b version =>
      cases hs
      obtain rfl : version = s.version := hok
      exact ⟨b :: free, h.push hc⟩

end

/-- **No block is returned twice without being freed in between**, and block 0 is not returned, in every run in which the
callers free only blocks they hold and no head is written between a call's read and write of the header. -/
theorem returned_once (standard : Bool) (es : List BlockEvent) (s : BlockSystem)
    (hrun : run BlockSystem.step? es (.init standard) = some s)
    (hok : Along BlockSystem.step? Undisturbed es (BlockSystem.init standard)) :
    (∀ l₁ l₂ l₃ b, s.log = l₁ ++ .returned b :: (l₂ ++ .returned b :: l₃) → .freed b ∈ l₂) ∧
      ∀ b, .returned b ∈ s.log → b ≠ 0 := by
  have hinit : ∃ free, BlocksOk (BlockSystem.init standard) free := by
    have hnone : ∀ o b, ¬ Owns (BlockSystem.init standard) [] o b := by
      rintro (_ | _ | _) b ho <;> cases ho
    exact ⟨[], rfl, nodup_nil, Nat.one_pos, fun o _ b ho => absurd ho (hnone o b), fun o b ho => absurd ho (hnone o b),
      fun _ => trivial, fun l b l' heq => by simp [BlockSystem.init] at heq⟩
  obtain ⟨free, h⟩ := Runs.invariant (fun _ _ _ hs hf => BlocksOk.step hs hf) es _ s hrun hok hinit
  refine ⟨fun l₁ l₂ l₃ b heq => ?_, fun b hmem => ?_⟩
  · by_contra hnot
    rw [← cons_append, ← append_assoc] at heq
    have := (h.sound _ b l₃ heq).2
    rw [held_of_not_freed hnot] at this
    cases this
  · obtain ⟨l, l', heq⟩ := append_of_mem hmem
    exact (h.sound l b l' heq).1

def reused : List BlockEvent :=
  [.allocateBlock 0, .advance 0, .advance 0, .advance 0, .advance 0, .advance 0, .freeBlock 0 1, .advance 0,
    .advance 0, .advance 0,
   .advance 0, .advance 0, .allocateBlock 0, .advance 0, .advance 0, .advance 0]

theorem returned_once_reused : ∃ s, run BlockSystem.step? reused (.init true) = some s ∧
    s.log = [.returned 1, .freed 1, .returned 1] ∧
    ∀ l₁ l₂ l₃ b, s.log = l₁ ++ .returned b :: (l₂ ++ .returned b :: l₃) → .freed b ∈ l₂ := by
  obtain ⟨s, hs, hp⟩ := exists_run BlockSystem.step? reused (.init true)
    (fun s => decide (s.log = [.returned 1, .freed 1, .returned 1])) (by decide +kernel)
  exact ⟨s, hs, of_decide_eq_true hp, (returned_once true _ s hs (by decide +kernel)).1⟩

/-- Two calls read the header before either takes the block from the list, and both return it. -/
theorem two_pops_return_one_block :
    ∃ s, run BlockSystem.step? [.allocateBlock 0, .advance 0, .advance 0, .advance 0, .advance 0,
      .advance 0, .freeBlock 0 1, .advance 0, .advance 0, .advance 0, .advance 0, .advance 0,
      .allocateBlock 0, .allocateBlock 1, .advance 0, .advance 1, .advance 0, .advance 1, .advance 0, .advance 1]
      (.init true) = some s ∧
    s.log = [.returned 1, .freed 1, .returned 1, .returned 1] := by
  obtain ⟨s, hs, hp⟩ := exists_run BlockSystem.step? [.allocateBlock 0, .advance 0, .advance 0, .advance 0, .advance 0,
      .advance 0, .freeBlock 0 1, .advance 0, .advance 0, .advance 0, .advance 0, .advance 0,
      .allocateBlock 0, .allocateBlock 1, .advance 0, .advance 1, .advance 0, .advance 1, .advance 0,
        .advance 1] (.init true)
    (fun s => decide (s.log = [.returned 1, .freed 1, .returned 1, .returned 1])) (by decide +kernel)
  exact ⟨s, hs, of_decide_eq_true hp⟩

end Dictenstein.Disk
