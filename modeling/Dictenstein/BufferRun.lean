import Dictenstein.BufferGuards
/-!
# BufferRun — interleavings of the page cache's calls with guards written and dropped

A step is one call under the lifecycle lock, the allocation `new_page` makes before it takes the lock, or one step of a
guard: a write through it, the dirty mark its drop sets, and the release of its lease.
-/
namespace Dictenstein.Buffer

open Disk Function Option

/-- A manager, its guards, the blocks of waiting `new_page` calls, and for each block the page last written to it and
whether it is live. -/
structure Pool where
  bm : BufferManager
  guards : List Guard
  allocated : List Nat
  content : Nat → Page
  live : Nat → Bool

inductive Event where
  | fetchPage (b : Nat)
  | fetchPageMut (b : Nat)
  | newPageAllocate
  | newPageLocked (i : Nat)
  | deletePage (b : Nat)
  | flushPage (b : Nat)
  | flushAll
  | growPool (n : Nat)
  | shrinkPool (n : Nat)
  | write (i : Nat) (page : Page)
  | markDirty (i : Nat)
  | release (i : Nat)

namespace Pool

def init (storage : DiskManager) (initialSize maxPoolSize : Nat) (live : Nat → Bool) : Pool :=
  { bm := .newWithMaxCapacity storage initialSize maxPoolSize, guards := [], allocated := [],
    content := storage.block, live }

variable (s : Pool)

def view (b : Nat) : Page := match s.bm.pageTable b with
  | some id => (s.bm.frames id).data
  | none => s.bm.storage.block b

def fetched (b : Nat) (write : Bool) : BufferManager.Outcome FrameId → Except StorageError Unit × Pool
  | (.error e, bm) => (.error e, { s with bm })
  | (.ok id, bm) => (.ok (), { s with bm, guards := s.guards ++ [⟨id, b, write, false⟩] })

def called {α : Type} (s : Pool) : BufferManager.Outcome α → Except StorageError Unit × Pool
  | (.error e, bm) => (.error e, { s with bm })
  | (.ok _, bm) => (.ok (), { s with bm })

/-- One step, with the result of the call; `none` where no guard or waiting call is named. -/
def exec : Event → Option (Except StorageError Unit × Pool)
  | .fetchPage b => some (s.fetched b false (s.bm.fetchPage b))
  | .fetchPageMut b => some (s.fetched b true (s.bm.fetchPageMut b))
  | .newPageAllocate =>
    let bm := { s.bm with storage := s.bm.storage.after s.bm.storage.allocateBlock }
    match s.bm.storage.allocateBlock.result with
    | .error e => some (.error e, { s with bm })
    | .ok b => some (.ok (), { s with bm, allocated := s.allocated ++ [b] })
  | .newPageLocked i => match s.allocated[i]? with
    | none => none
    | some b => match s.bm.newPageLocked b with
      | (.error e, bm) => some (.error e, { s with bm, allocated := s.allocated.eraseIdx i })
      | (.ok id, bm) => some (.ok (),
          { bm, guards := s.guards ++ [⟨id, b, true, false⟩], allocated := s.allocated.eraseIdx i,
            content := update s.content b fun _ => 0, live := update s.live b true })
  | .deletePage b => match s.bm.deletePage b with
    | (.error e, bm) => some (.error e, { s with bm })
    | (.ok (), bm) => some (.ok (), { s with bm, live := update s.live b false })
  | .flushPage b => some (s.called (s.bm.flushPage b))
  | .flushAll => some (s.called s.bm.flushAll)
  | .growPool n => some (s.called (s.bm.growPool n))
  | .shrinkPool n => some (s.called (s.bm.shrinkPool n))
  | .write i page => match s.guards[i]? with
    | none => none
    | some g =>
      if g.write && !g.marked then
        some (.ok (), { s with bm := s.bm.setFrame g.frame { s.bm.frames g.frame with data := page },
                               content := update s.content g.block page })
      else none
  | .markDirty i => match s.guards[i]? with
    | none => none
    | some g =>
      if g.write && !g.marked then
        some (.ok (), { s with bm := s.bm.setFrame g.frame (s.bm.frames g.frame).markDirty,
                               guards := s.guards.set i { g with marked := true } })
      else none
  | .release i => match s.guards[i]? with
    | none => none
    | some g =>
      if g.write then
        if g.marked then
          some (.ok (), { s with bm := s.bm.setFrame g.frame (s.bm.frames g.frame).unpinWrite,
                                 guards := s.guards.eraseIdx i })
        else none
      else some (.ok (), { s with bm := s.bm.setFrame g.frame (s.bm.frames g.frame).unpinRead,
                                  guards := s.guards.eraseIdx i })

def step? (e : Event) : Option Pool := (s.exec e).map Prod.snd

def OnLive : Event → Prop
  | .fetchPage b => s.live b = true
  | .fetchPageMut b => s.live b = true
  | .deletePage b => s.live b = true
  | _ => True

instance (s : Pool) (e : Event) : Decidable (s.OnLive e) := by
  unfold OnLive
  cases e <;> exact inferInstance

end Pool

/-! ## Runs -/

namespace Pool

def Ok (s : Pool) : Prop := ∃ free, PoolOk (fun _ => True) s.bm (guardsOn s.guards) s.content s.live s.allocated free

variable {s s' : Pool} {free : List Nat} {e : Event} {b : Nat} {α : Type}

theorem Ok.fetched {write : Bool} {o : BufferManager.Outcome FrameId}
    (h : PoolOk.Fetched (fun _ => True) (guardsOn s.guards) s.content s.live s.allocated free b write o) :
    (s.fetched b write o).2.Ok := by
  obtain ⟨r, bm⟩ := o
  cases r with
  | error e => exact ⟨free, h⟩
  | ok id =>
    refine ⟨free, ?_⟩
    show PoolOk (fun _ => True) bm (guardsOn (s.guards ++ [⟨id, b, write, false⟩])) s.content s.live s.allocated free
    rw [guardsOn_append]
    exact h

theorem Ok.called {o : BufferManager.Outcome α}
    (h : PoolOk (fun _ => True) o.2 (guardsOn s.guards) s.content s.live s.allocated free) : (s.called o).2.Ok := by
  obtain ⟨r, bm⟩ := o
  cases r <;> exact ⟨free, h⟩

theorem Ok.exec {r : Except StorageError Unit} (hs : s.exec e = some (r, s')) (hc : s.OnLive e) (h : s.Ok) : s'.Ok := by
  obtain ⟨free, h⟩ := h
  cases e with
  | fetchPage b =>
    obtain rfl := congrArg Prod.snd (some.inj hs)
    exact Ok.fetched (h.fetchPageWith pins_read hc)
  | fetchPageMut b =>
    obtain rfl := congrArg Prod.snd (some.inj hs)
    exact Ok.fetched (h.fetchPageWith pins_write hc)
  | newPageAllocate =>
    simp only [Pool.exec] at hs
    obtain ⟨free', hst, ha⟩ := h.storage.allocateBlock
    have hok := h.allocateBlock hst ha
    cases hr : s.bm.storage.allocateBlock.result <;> rw [hr] at hs hok <;> cases hs <;> exact ⟨free', hok⟩
  | newPageLocked i =>
    simp only [Pool.exec] at hs
    split at hs
    · cases hs
    rename_i b hi
    obtain ⟨l₁, l₂, hl, he, _⟩ := split_at hi
    rw [hl] at h
    have h' := h.newPageLocked
    rw [he] at hs
    split at hs <;> rename_i ho <;> rw [ho] at h' <;> cases hs
    · exact ⟨_, h'⟩
    · refine ⟨free, ?_⟩
      rw [guardsOn_append]
      exact h'
  | deletePage b =>
    have h' := h.deletePage hc
    simp only [Pool.exec] at hs
    split at hs <;> rename_i ho <;> rw [ho] at h' <;> cases hs <;> exact h'
  | flushPage b =>
    obtain rfl := congrArg Prod.snd (some.inj hs)
    exact Ok.called (h.flushPage b)
  | flushAll =>
    obtain rfl := congrArg Prod.snd (some.inj hs)
    exact Ok.called h.flushAll
  | growPool n =>
    obtain rfl := congrArg Prod.snd (some.inj hs)
    exact Ok.called (h.growPool n)
  | shrinkPool n =>
    obtain rfl := congrArg Prod.snd (some.inj hs)
    exact Ok.called (h.shrinkPool n)
  | write i page =>
    obtain ⟨g, hi, hw, -, rfl⟩ : ∃ g, s.guards[i]? = some g ∧ g.write = true ∧ g.marked = false ∧ s' = { s with
        bm := s.bm.setFrame g.frame { s.bm.frames g.frame with data := page },
        content := update s.content g.block page } := by grind [Pool.exec]
    obtain ⟨l₁, l₂, hl, _, _⟩ := split_at hi
    have hmem : g ∈ guardsOn s.guards g.frame := by simp [guardsOn, hl]
    have hlease := (h.frames g.frame).leases
    rw [hl, guardsOn_self] at hlease
    exact ⟨free, h.writePage page (h.guard_block hmem).1 (hlease.alone hw).1⟩
  | markDirty i =>
    obtain ⟨g, hi, hw, -, rfl⟩ : ∃ g, s.guards[i]? = some g ∧ g.write = true ∧ g.marked = false ∧ s' = { s with
        bm := s.bm.setFrame g.frame (s.bm.frames g.frame).markDirty,
        guards := s.guards.set i { g with marked := true } } := by grind [Pool.exec]
    obtain ⟨l₁, l₂, hl, _, hset⟩ := split_at hi
    rw [hl] at h
    refine ⟨free, ?_⟩
    simp only [hset]
    exact h.markDirty l₁ l₂ g hw ((h.guard_block (by simp [guardsOn])).2.2 (Or.inl trivial))
  | release i =>
    obtain ⟨g, hi, hm, rfl⟩ : ∃ g, s.guards[i]? = some g ∧ (g.write = true → g.marked = true) ∧ s' = { s with
        bm := s.bm.setFrame g.frame (if g.write then (s.bm.frames g.frame).unpinWrite else (s.bm.frames g.frame).unpinRead),
        guards := s.guards.eraseIdx i } := by grind [Pool.exec]
    obtain ⟨l₁, l₂, hl, he, _⟩ := split_at hi
    rw [hl] at h
    refine ⟨free, ?_⟩
    simp only [he]
    exact h.release l₁ l₂ g hm

theorem fetched_keeps (s : Pool) (b : Nat) (write : Bool) (o : BufferManager.Outcome FrameId) :
    (s.fetched b write o).2.content = s.content ∧ (s.fetched b write o).2.live = s.live := by
  obtain ⟨_ | _, _⟩ := o <;> exact ⟨rfl, rfl⟩

theorem called_keeps (s : Pool) (o : BufferManager.Outcome α) :
    (s.called o).2.content = s.content ∧ (s.called o).2.live = s.live := by
  obtain ⟨_ | _, _⟩ := o <;> exact ⟨rfl, rfl⟩

/-- **A call that returns an error changes neither what was written nor which blocks are live.** -/
theorem exec_error {err : StorageError} (hs : s.exec e = some (.error err, s')) :
    s'.content = s.content ∧ s'.live = s.live := by
  cases e <;> grind [Pool.exec, fetched_keeps, called_keeps]

theorem Ok.step (hs : s.step? e = some s') (hc : s.OnLive e) (h : s.Ok) : s'.Ok := by
  obtain ⟨⟨r, t⟩, he, rfl⟩ := map_eq_some_iff.1 hs
  exact h.exec he hc

theorem Ok.view (h : s.Ok) (hb : s.live b = true) : Page.Agree (s.view b) (s.content b) := by
  obtain ⟨free, h⟩ := h
  unfold Pool.view
  cases ht : s.bm.pageTable b with
  | none => exact h.absent b hb ht
  | some id =>
    exact ((h.frames id).of_some ((h.table b id).1 ht)).1 (Or.inl trivial)

end Pool

/-- **The page cache is transparent over every interleaving that fetches and deletes only live blocks**: a guard's frame
shows the page last written to its block, the page table records what the frames hold, and a call that fails leaves every
live block's page. -/
theorem pool_transparent {storage : DiskManager} {free : List Nat} {live : Nat → Bool} (hs : StorageOk storage free)
    (hlive : ∀ b, live b = true → 0 < b ∧ b < storage.blockCount ∧ b ∉ free) {initialSize maxPoolSize : Nat}
    (hmax : 0 < maxPoolSize) {es : List Event} {s : Pool}
    (hr : Runs.run Pool.step? es (Pool.init storage initialSize maxPoolSize live) = some s)
    (hc : Runs.Along Pool.step? Pool.OnLive es (Pool.init storage initialSize maxPoolSize live)) :
    (∀ g ∈ s.guards, (s.bm.frames g.frame).blockId = some g.block ∧
      Page.Agree (s.bm.frames g.frame).data (s.content g.block)) ∧
    (∀ b id, s.bm.pageTable b = some id ↔ (s.bm.frames id).blockId = some b) ∧
    (∀ e err s', s.OnLive e → s.exec e = some (.error err, s') → ∀ b, s.live b = true →
      s'.live b = true ∧ Page.Agree (s'.view b) (s.view b)) := by
  have hok : s.Ok := Runs.invariant (fun _ _ _ hs hc h => h.step hs hc) es _ s hr hc
    ⟨free, PoolOk.of_storage hs hlive initialSize hmax _⟩
  refine ⟨?_, ?_, ?_⟩
  · intro g hg
    obtain ⟨free, h⟩ := hok
    have hmem : g ∈ guardsOn s.guards g.frame := by simp [guardsOn, hg]
    obtain ⟨hb, _, hdata⟩ := h.guard_block hmem
    exact ⟨hb, hdata (Or.inl trivial)⟩
  · obtain ⟨free, h⟩ := hok
    exact h.table
  · intro e err s' hc' he b hb
    obtain ⟨hcontent, hlive'⟩ := Pool.exec_error he
    have hb' : s'.live b = true := by rw [hlive']; exact hb
    have h' := (hok.exec he hc').view hb'
    rw [hcontent] at h'
    exact ⟨hb', h'.trans (hok.view hb).symm⟩

/-- A pool of one frame: a page is written, another takes its frame, and the first is read again. -/
def evictingEvents : List Event :=
  [.newPageAllocate, .newPageLocked 0, .write 0 (fun _ => 7), .markDirty 0, .release 0,
   .newPageAllocate, .newPageLocked 0, .markDirty 0, .release 0, .fetchPage 1]

theorem pool_transparent_evicting : ∃ s, Runs.run Pool.step? evictingEvents (Pool.init .create 1 1 fun _ => false) = some s ∧
    s.guards = [⟨0, 1, false, false⟩] ∧ s.content 1 100 = 7 ∧ (s.bm.frames 0).data 100 = 7 := by
  obtain ⟨s, hr, hp⟩ := Runs.exists_run Pool.step? evictingEvents (Pool.init .create 1 1 fun _ => false)
    (fun s => decide (s.guards = [⟨0, 1, false, false⟩]) && decide (s.content 1 100 = 7)) (by decide +kernel)
  simp only [Bool.and_eq_true, decide_eq_true_eq] at hp
  have h := pool_transparent storageOk_create (by simp) (by decide) hr (by decide +kernel)
  have hg := (h.1 ⟨0, 1, false, false⟩ (by simp [hp.1])).2 100 (by decide)
  exact ⟨s, hr, hp.1, hp.2, hg.trans hp.2⟩

/-- A page is freed, fetched all the same, and given out again by `new_page`. -/
def deadFetchEvents : List Event :=
  [.newPageAllocate, .newPageLocked 0, .markDirty 0, .release 0, .deletePage 1, .fetchPage 1, .release 0,
   .newPageAllocate, .newPageLocked 0, .write 0 (fun _ => 7)]

/-- The block of the header is fetched, written and its guard dropped. -/
def headerBlockEvents : List Event := [.fetchPageMut 0, .write 0 (fun _ => 7), .markDirty 0, .release 0]

/-- **Blocks that are not live break the cache**: two frames hold one block, of which the page table knows one; and a
`delete_page` that fails has dropped a page that was written. -/
theorem pool_dead_blocks :
    (∃ s, Runs.run Pool.step? deadFetchEvents (Pool.init .create 2 2 fun _ => false) = some s ∧
      s.bm.pageTable 1 = some 1 ∧ (s.bm.frames 0).blockId = some 1 ∧ (s.bm.frames 1).blockId = some 1) ∧
    (∃ s s' err, Runs.run Pool.step? headerBlockEvents (Pool.init .create 2 2 fun _ => false) = some s ∧
      s.exec (.deletePage 0) = some (.error err, s') ∧ s.view 0 100 = 7 ∧ s'.view 0 100 = 0) := by
  constructor
  · obtain ⟨s, hr, hp⟩ := Runs.exists_run Pool.step? deadFetchEvents (Pool.init .create 2 2 fun _ => false)
      (fun s => decide (s.bm.pageTable 1 = some 1) && decide ((s.bm.frames 0).blockId = some 1) &&
        decide ((s.bm.frames 1).blockId = some 1)) (by decide +kernel)
    simp only [Bool.and_eq_true, decide_eq_true_eq] at hp
    exact ⟨s, hr, hp.1.1, hp.1.2, hp.2⟩
  · obtain ⟨s, hr, hp⟩ := Runs.exists_run Pool.step? headerBlockEvents (Pool.init .create 2 2 fun _ => false)
      (fun s => decide (s.view 0 100 = 7) && (s.exec (.deletePage 0)).any fun x : Except _ _ × Pool =>
        !x.1.isOk && decide (x.2.view 0 100 = 0)) (by decide +kernel)
    rw [Bool.and_eq_true] at hp
    refine ⟨s, ?_⟩
    cases he : s.exec (.deletePage 0) with
    | none => simp [he] at hp
    | some o =>
      obtain ⟨r, s'⟩ := o
      cases r with
      | ok u => simp [he, Except.isOk, Except.toBool] at hp
      | error err => exact ⟨s', err, hr, rfl, by simpa using hp.1, by simpa [he, Except.isOk, Except.toBool] using hp.2⟩

end Dictenstein.Buffer
