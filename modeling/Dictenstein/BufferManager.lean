import Dictenstein.DiskBlocks
/-!
# BufferManager — the page cache over the blocks of a file

`core/buffer_manager.rs`.  Frames, a page table, leases that keep a frame from being evicted, and the clock that picks
a victim.  A call under the lifecycle lock is one function here, from a manager to its result and the manager it leaves.
-/
namespace Dictenstein.Buffer

open Disk Function

abbrev FrameId := Nat

def writeLease : Nat := 2 ^ 31
def readersMask : Nat := writeLease - 1

structure Frame where
  blockId : Option Nat
  leaseState : Nat
  dirty : Bool
  referenceBit : Bool
  data : Page

namespace Frame

def new : Frame := { blockId := none, leaseState := 0, dirty := false, referenceBit := false, data := fun _ => 0 }

variable (f : Frame)

def isFree : Bool := f.blockId.isNone
def isPinned : Bool := f.leaseState != 0
def hasWriteLease : Bool := decide (writeLease ≤ f.leaseState)

def pinRead : Except StorageError Frame :=
  if f.hasWriteLease then .error (.internalError "cannot read-pin frame while an exclusive write lease is active")
  else if f.leaseState = readersMask then .error (.internalError "buffer frame read lease count overflow")
  else .ok { f with leaseState := f.leaseState + 1, referenceBit := true }

def unpinRead : Frame :=
  if f.leaseState = 0 ∨ f.hasWriteLease then f else { f with leaseState := f.leaseState - 1 }

def pinWrite : Except StorageError Frame :=
  if f.leaseState = 0 then .ok { f with leaseState := writeLease, referenceBit := true }
  else .error (.internalError "cannot mutably pin frame while another page lease is active")

def unpinWrite : Frame := if f.leaseState = writeLease then { f with leaseState := 0 } else f

def markDirty : Frame := { f with dirty := true }
def clearDirty : Frame := { f with dirty := false }

end Frame

/-- The manager; frames are numbered below `poolSize`, and those below `activePoolSize` are in use. -/
structure BufferManager where
  storage : DiskManager
  pageTable : Nat → Option FrameId
  frames : FrameId → Frame
  clockHand : Nat
  poolSize : Nat
  activePoolSize : Nat

namespace BufferManager

def newWithMaxCapacity (storage : DiskManager) (initialSize maxPoolSize : Nat) : BufferManager :=
  { storage, pageTable := fun _ => none, frames := fun _ => .new, clockHand := 0, poolSize := maxPoolSize,
    activePoolSize := min initialSize maxPoolSize }

variable (bm : BufferManager)

def setFrame (id : FrameId) (f : Frame) : BufferManager :=
  { bm with frames := update bm.frames id f }

def mapPage (blockId : Nat) (id : FrameId) : BufferManager :=
  { bm with pageTable := update bm.pageTable blockId (some id) }

def unmapPage (blockId : Nat) : BufferManager :=
  { bm with pageTable := update bm.pageTable blockId none }

section
variable (bm : BufferManager) (id id' : FrameId) (fr : Frame) (b b' : Nat)

@[simp, grind =] theorem frames_setFrame : (bm.setFrame id fr).frames id' = if id' = id then fr else bm.frames id' :=
  update_apply ..

@[simp, grind =] theorem pageTable_setFrame : (bm.setFrame id fr).pageTable b = bm.pageTable b := rfl
@[simp, grind =] theorem storage_setFrame : (bm.setFrame id fr).storage = bm.storage := rfl
@[simp, grind =] theorem activePoolSize_setFrame : (bm.setFrame id fr).activePoolSize = bm.activePoolSize := rfl

@[simp, grind =] theorem pageTable_mapPage : (bm.mapPage b id).pageTable b' = if b' = b then some id else bm.pageTable b' :=
  update_apply ..

@[simp, grind =] theorem frames_mapPage : (bm.mapPage b id).frames id' = bm.frames id' := rfl
@[simp, grind =] theorem storage_mapPage : (bm.mapPage b id).storage = bm.storage := rfl
@[simp, grind =] theorem activePoolSize_mapPage : (bm.mapPage b id).activePoolSize = bm.activePoolSize := rfl

@[simp, grind =] theorem pageTable_unmapPage : (bm.unmapPage b).pageTable b' = if b' = b then none else bm.pageTable b' :=
  update_apply ..

@[simp, grind =] theorem frames_unmapPage : (bm.unmapPage b).frames id' = bm.frames id' := rfl
@[simp, grind =] theorem storage_unmapPage : (bm.unmapPage b).storage = bm.storage := rfl
@[simp, grind =] theorem activePoolSize_unmapPage : (bm.unmapPage b).activePoolSize = bm.activePoolSize := rfl

end

abbrev Outcome (α : Type) := Except StorageError α × BufferManager

/-- The write-back of a dirty frame, before its block leaves it. -/
def writeBack (id : FrameId) (blockId : Nat) : Outcome Unit :=
  let f := bm.frames id
  if f.dirty then
    match bm.storage.writeBlock blockId f.data with
    | .error e => (.error e, bm)
    | .ok storage => (.ok (), { bm with storage }.setFrame id f.clearDirty)
  else (.ok (), bm)

/-- The frame's block is written back and leaves the frame and the page table. -/
def evict (id : FrameId) : Outcome Unit :=
  match (bm.frames id).blockId with
  | none => (.ok (), bm)
  | some old => match bm.writeBack id old with
    | (.error e, bm') => (.error e, bm')
    | (.ok (), bm') => (.ok (), (bm'.unmapPage old).setFrame id { bm'.frames id with blockId := none })

def countPinned : Nat := ((List.range bm.poolSize).filter fun id => (bm.frames id).isPinned).length

/-- The clock: a pinned frame is passed over, a referenced one loses its bit, and the first other one is evicted. -/
def clockSweep (bm : BufferManager) : Nat → Outcome FrameId
  | 0 => (.error (.bufferPoolExhausted bm.countPinned bm.activePoolSize), bm)
  | attempts + 1 =>
    let id := bm.clockHand % bm.activePoolSize
    let f := bm.frames id
    let bm' := { bm with clockHand := bm.clockHand + 1 }
    if f.isPinned then bm'.clockSweep attempts
    else if f.referenceBit then (bm'.setFrame id { f with referenceBit := false }).clockSweep attempts
    else match bm'.evict id with
      | (.error e, bm'') => (.error e, bm'')
      | (.ok (), bm'') => (.ok id, bm'')

def getFreeFrame : Outcome FrameId :=
  match (List.range bm.activePoolSize).find? fun id => (bm.frames id).isFree && !(bm.frames id).isPinned with
  | some id => (.ok id, bm)
  | none => bm.clockSweep (bm.activePoolSize * 2)

variable (pin : Frame → Except StorageError Frame)

/-- `load_page` and `load_page_mut`, which differ in the lease they take. -/
def loadPageWith (bm : BufferManager) (blockId : Nat) : Outcome FrameId :=
  match bm.getFreeFrame with
  | (.error e, bm') => (.error e, bm')
  | (.ok id, bm') => match bm'.storage.readBlock blockId with
    | .error e => (.error e, bm')
    | .ok page =>
      let f := { bm'.frames id with data := page, blockId := some blockId }
      match pin f with
      | .error e => (.error e, bm'.setFrame id f)
      | .ok f' => (.ok id, (bm'.setFrame id { f' with dirty := false, referenceBit := true }).mapPage blockId id)

def loadPage (blockId : Nat) : Outcome FrameId := loadPageWith Frame.pinRead bm blockId
def loadPageMut (blockId : Nat) : Outcome FrameId := loadPageWith Frame.pinWrite bm blockId

def fetchPageWith (bm : BufferManager) (blockId : Nat) : Outcome FrameId :=
  match bm.pageTable blockId with
  | none => loadPageWith pin bm blockId
  | some id => match pin (bm.frames id) with
    | .error e => (.error e, bm)
    | .ok f => (.ok id, bm.setFrame id { f with referenceBit := true })

def fetchPage (blockId : Nat) : Outcome FrameId := fetchPageWith Frame.pinRead bm blockId
def fetchPageMut (blockId : Nat) : Outcome FrameId := fetchPageWith Frame.pinWrite bm blockId

/-- `new_page` from the lock on, with the block it allocated before. -/
def newPageLocked (blockId : Nat) : Outcome FrameId :=
  match bm.getFreeFrame with
  | (.error e, bm') => (.error e, { bm' with storage := bm'.storage.after (bm'.storage.freeBlock blockId) })
  | (.ok id, bm') => match ({ bm'.frames id with blockId := some blockId } : Frame).pinWrite with
    | .error e =>
      (.error e, { bm'.setFrame id { bm'.frames id with blockId := none } with
        storage := bm'.storage.after (bm'.storage.freeBlock blockId) })
    | .ok f => (.ok id, (bm'.setFrame id { f with dirty := true, data := fun _ => 0 }).mapPage blockId id)

def deletePage (blockId : Nat) : Outcome Unit :=
  let free := fun (bm : BufferManager) =>
    ((bm.storage.freeBlock blockId).result, { bm with storage := bm.storage.after (bm.storage.freeBlock blockId) })
  match bm.pageTable blockId with
  | none => free bm
  | some id =>
    let f := bm.frames id
    if f.isPinned then (.error (.internalError ("Cannot delete pinned page (block " ++ toString blockId ++ ")")), bm)
    else free ((bm.setFrame id { f with blockId := none, dirty := false, referenceBit := false }).unmapPage blockId)

def flushPage (blockId : Nat) : Outcome Unit :=
  match bm.pageTable blockId with
  | none => (.ok (), bm)
  | some id =>
    if (bm.frames id).dirty && (bm.frames id).hasWriteLease then
      (.error (.internalError "cannot flush page during an active mutable page lease"), bm)
    else bm.writeBack id blockId

def dirtyFrames : List (Nat × FrameId) :=
  (List.range bm.activePoolSize).filterMap fun id =>
    if (bm.frames id).dirty then (bm.frames id).blockId.map fun b => (b, id) else none

def flushAll : Outcome Unit :=
  let dirty := bm.dirtyFrames
  if dirty.any fun p => (bm.frames p.2).hasWriteLease then
    (.error (.internalError "cannot flush dirty pages during an active mutable page lease"), bm)
  else match bm.storage.writeBlocksBatch (dirty.map fun p => (p.1, (bm.frames p.2).data)) with
    | (.error e, storage) => (.error e, { bm with storage })
    | (.ok (), storage) =>
      let cleaned := dirty.foldl (fun (bm : BufferManager) p => bm.setFrame p.2 (bm.frames p.2).clearDirty)
        { bm with storage }
      (cleaned.storage.sync.result, { cleaned with storage := cleaned.storage.after cleaned.storage.sync })

def growPool (additionalFrames : Nat) : Outcome Nat :=
  let newSize := bm.activePoolSize + additionalFrames
  if bm.poolSize < newSize then
    (.error (.internalError ("Cannot grow pool beyond max capacity " ++ toString bm.poolSize ++ " (current: "
      ++ toString bm.activePoolSize ++ ", requested: +" ++ toString additionalFrames ++ ")")), bm)
  else (.ok newSize, { bm with activePoolSize := newSize })

def evictRange (bm : BufferManager) : List FrameId → Outcome Unit
  | [] => (.ok (), bm)
  | id :: ids =>
    if (bm.frames id).isPinned then
      (.error (.internalError ("Cannot shrink pool: frame " ++ toString id ++ " is pinned")), bm)
    else match bm.evict id with
      | (.error e, bm') => (.error e, bm')
      | (.ok (), bm') => bm'.evictRange ids

def shrinkPool (framesToRemove : Nat) : Outcome Nat :=
  let current := bm.activePoolSize
  let newSize := max (current - framesToRemove) 1
  if newSize = current then (.ok current, bm)
  else match bm.evictRange (List.range' newSize (current - newSize)) with
    | (.error e, bm') => (.error e, bm')
    | (.ok (), bm') =>
      (.ok newSize,
        { bm' with activePoolSize := newSize, clockHand := if newSize ≤ bm'.clockHand then 0 else bm'.clockHand })

end BufferManager
end Dictenstein.Buffer
