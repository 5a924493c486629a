import Redbase.Page.File

/-!
# The buffer pool

Pages of several files are cached in frames. The frames in use form a list from the most to the
least recently used one; a frame is pinned while a guard on its page lives.

The files are any `PageStore`; `PageFile` is the one the program uses. A frame index is a `Fin cap`,
so indexing never fails. The lock of a frame's data is not modelled: a guard's access to the bytes
is one step.
-/

namespace Redbase.Page

open Prog Bytes

/-- What the buffer pool asks of a page file. -/
class PageStore (F : Type) where
  allocatePage : EStateM PageStoreError F Nat
  readPage (pageId : Nat) : EStateM PageStoreError F PageData
  writePage (pageId : Nat) (data : PageData) : EStateM PageStoreError F Unit
  flush : EStateM PageStoreError F Unit

instance {I : Type} [PageIo I] : PageStore (PageFile I) where
  allocatePage := do
    let page ← PageFile.allocatePage
    return page.pageId
  readPage pageId := do
    let page ← PageFile.readPage pageId
    return page.data
  writePage pageId data := do
    let _ ← PageFile.writePage pageId
    modify (PageFile.setPageData data)
  flush := PageFile.flush

end Redbase.Page

namespace Redbase.Buffer

open Prog Bytes Page Function

inductive BufferPoolError where
  | pageStore (error : PageStoreError)
  | unknownFile (fileId : Nat)
  | fileHasPinnedPages (fileId : Nat)
  | noFrameAvailable
  | corrupted (message : String)
  | lockPoisoned (name : String)
  deriving DecidableEq, Repr

structure BufferKey where
  fileId : Nat
  pageId : Nat
  deriving DecidableEq, Repr

structure Frame (cap : Nat) where
  key : Option BufferKey
  data : PageData
  dirty : Bool
  pinCount : Nat
  prev : Option (Fin cap)
  next : Option (Fin cap)

def Frame.new (cap : Nat) : Frame cap := ⟨none, Block.zero _, false, 0, none, none⟩

/-- The free list is a stack; its top is the head here. -/
structure BufferPoolState (F : Type) (cap : Nat) where
  files : Nat → Option F
  nextFileId : Nat
  pageTable : BufferKey → Option (Fin cap)
  frames : Fin cap → Frame cap
  freeList : List (Fin cap)
  mruHead : Option (Fin cap)
  lruTail : Option (Fin cap)

/-- A `BufferReadGuard` or, if `writable`, a `BufferWriteGuard`. -/
structure Guard (cap : Nat) where
  frameId : Fin cap
  key : BufferKey
  writable : Bool
  deriving DecidableEq

/-- A method on the locked state. -/
abbrev PoolM (F : Type) (cap : Nat) := EStateM (Stop BufferPoolError) (BufferPoolState F cap)

namespace BufferPoolState

variable {F : Type} {cap : Nat}

def new (F : Type) (cap : Nat) : BufferPoolState F cap where
  files := fun _ => none
  nextFileId := 0
  pageTable := fun _ => none
  frames := fun _ => Frame.new cap
  freeList := List.finRange cap
  mruHead := none
  lruTail := none

/-! ## The list of frames in use -/

def modifyFrame (frameId : Fin cap) (f : Frame cap → Frame cap) (s : BufferPoolState F cap) :
    BufferPoolState F cap :=
  { s with frames := update s.frames frameId (f (s.frames frameId)) }

def linkHead (frameId : Fin cap) (s : BufferPoolState F cap) : BufferPoolState F cap :=
  let s := s.modifyFrame frameId fun frame => { frame with prev := none, next := s.mruHead }
  let s := match s.mruHead with
    | some oldHead => s.modifyFrame oldHead fun frame => { frame with prev := some frameId }
    | none => { s with lruTail := some frameId }
  { s with mruHead := some frameId }

/-- The predecessor of the frame, or the head of the list, gets the successor `next`. -/
def bypassPrev (frameId : Fin cap) (prev next : Option (Fin cap)) (s : BufferPoolState F cap) :
    BufferPoolState F cap :=
  match prev with
  | some prevId => s.modifyFrame prevId fun frame => { frame with next }
  | none => if s.mruHead = some frameId then { s with mruHead := next } else s

/-- The successor of the frame, or the tail of the list, gets the predecessor `prev`. -/
def bypassNext (frameId : Fin cap) (prev next : Option (Fin cap)) (s : BufferPoolState F cap) :
    BufferPoolState F cap :=
  match next with
  | some nextId => s.modifyFrame nextId fun frame => { frame with prev }
  | none => if s.lruTail = some frameId then { s with lruTail := prev } else s

def unlink (frameId : Fin cap) (s : BufferPoolState F cap) : BufferPoolState F cap :=
  let prev := (s.frames frameId).prev
  let next := (s.frames frameId).next
  ((s.bypassPrev frameId prev next).bypassNext frameId prev next).modifyFrame frameId
    fun frame => { frame with prev := none, next := none }

def touch (frameId : Fin cap) (s : BufferPoolState F cap) : BufferPoolState F cap :=
  (s.unlink frameId).linkHead frameId

/-- The count is a `u32`; an overflow panics. -/
def pinFrame (frameId : Fin cap) : PoolM F cap Unit := do
  let some pinCount := checked 32 (((← get).frames frameId).pinCount + 1) | throw .panic
  modify (modifyFrame frameId fun frame => { frame with pinCount })
  modify (touch frameId)

def unpinFrame (frameId : Fin cap) (s : BufferPoolState F cap) : BufferPoolState F cap :=
  if (s.frames frameId).pinCount = 0 then s
  else
    let s := s.modifyFrame frameId fun frame => { frame with pinCount := frame.pinCount - 1 }
    if (s.frames frameId).pinCount = 0 then s.touch frameId else s

/-! ## Files -/

variable [PageStore F]

/-- `m` on the file `fileId`, with `?`. -/
def withFile {α : Type} (fileId : Nat) (m : EStateM PageStoreError F α) : PoolM F cap α := fun s =>
  match s.files fileId with
  | none => .error (.error (.unknownFile fileId)) s
  | some file =>
      match m file with
      | .ok a file => .ok a { s with files := update s.files fileId (some file) }
      | .error e file =>
          .error (.error (.pageStore e)) { s with files := update s.files fileId (some file) }

def registerFile (file : F) : PoolM F cap Nat := do
  let fileId := (← get).nextFileId
  let some nextFileId := checked 32 (fileId + 1) | throw (.error (.corrupted "file id overflow"))
  modify fun s => { s with nextFileId, files := update s.files fileId (some file) }
  return fileId

def allocatePageId (fileId : Nat) : PoolM F cap Nat := withFile fileId PageStore.allocatePage

def readPageData (key : BufferKey) : PoolM F cap PageData :=
  withFile key.fileId (PageStore.readPage key.pageId)

/-! ## Frames -/

def flushFrameIfDirty (frameId : Fin cap) : PoolM F cap Unit := do
  let frame := (← get).frames frameId
  if frame.dirty = false then return ()
  let some key := frame.key | throw (.error (.corrupted "dirty frame missing key"))
  withFile key.fileId (do PageStore.writePage key.pageId frame.data; PageStore.flush)
  modify (modifyFrame frameId fun frame => { frame with dirty := false })

def recycleFrame (frameId : Fin cap) : PoolM F cap Unit := do
  let frame := (← get).frames frameId
  if frame.pinCount ≠ 0 then throw (.error (.corrupted "attempted to recycle a pinned frame"))
  modify (modifyFrame frameId fun frame => { frame with key := none })
  if let some key := frame.key then
    modify fun s => { s with pageTable := update s.pageTable key none }
  modify (modifyFrame frameId fun frame => { frame with dirty := false })
  modify (unlink frameId)

def evictFrame (frameId : Fin cap) : PoolM F cap Unit := do
  if ((← get).frames frameId).pinCount ≠ 0 then
    throw (.error (.corrupted "attempted to evict a pinned frame"))
  recycleFrame frameId
  modify fun s => { s with freeList := frameId :: s.freeList }

/-- The loop of `acquire_frame`, for `fuel` frames at most. -/
def acquireFrom : Nat → Option (Fin cap) → PoolM F cap (Fin cap)
  | _, none => throw (.error .noFrameAvailable)
  | 0, some _ => throw .diverge
  | fuel + 1, some frameId => do
      let frame := (← get).frames frameId
      if frame.pinCount = 0 then
        flushFrameIfDirty frameId
        recycleFrame frameId
        modify (touch frameId)
        return frameId
      acquireFrom fuel frame.prev

def acquireFrame : PoolM F cap (Fin cap) := do
  match (← get).freeList with
  | frameId :: freeList =>
      modify fun s => { s with freeList }
      modify (linkHead frameId)
      return frameId
  | [] => acquireFrom cap (← get).lruTail

def installFrame (frameId : Fin cap) (key : BufferKey) (data : PageData) (dirty : Bool) :
    PoolM F cap Unit := do
  if ((← get).pageTable key).isSome then throw (.error (.corrupted "page installed twice"))
  modify (modifyFrame frameId fun frame => { frame with data })
  modify (modifyFrame frameId fun frame => { frame with key := some key, dirty, pinCount := 1 })
  modify fun s => { s with pageTable := update s.pageTable key (some frameId) }
  modify (touch frameId)

/-! ## The methods of the pool -/

/-- The part of `get_page` and `get_page_mut` for a page that is not cached. -/
def loadFrame (key : BufferKey) (dirty : Bool) : PoolM F cap (Fin cap) := do
  let frameId ← acquireFrame
  let data ← readPageData key
  installFrame frameId key data dirty
  return frameId

def getPage (fileId pageId : Nat) : PoolM F cap (Guard cap) := do
  let key := ⟨fileId, pageId⟩
  match (← get).pageTable key with
  | some frameId =>
      pinFrame frameId
      return ⟨frameId, key, false⟩
  | none =>
      let frameId ← loadFrame key false
      return ⟨frameId, key, false⟩

def getPageMut (fileId pageId : Nat) : PoolM F cap (Guard cap) := do
  let key := ⟨fileId, pageId⟩
  match (← get).pageTable key with
  | some frameId =>
      pinFrame frameId
      modify (modifyFrame frameId fun frame => { frame with dirty := true })
      return ⟨frameId, key, true⟩
  | none =>
      let frameId ← loadFrame key true
      return ⟨frameId, key, true⟩

def allocatePage (fileId : Nat) : PoolM F cap (Guard cap) := do
  let frameId ← acquireFrame
  let pageId ← allocatePageId fileId
  let key := ⟨fileId, pageId⟩
  installFrame frameId key (Block.zero _) true
  return ⟨frameId, key, true⟩

/-- The frames that cache a page of the file, in order. -/
def matching (s : BufferPoolState F cap) (fileId : Nat) (pageId : Option Nat) : List (Fin cap) :=
  (List.finRange cap).filter fun frameId =>
    match (s.frames frameId).key with
    | some key => key.fileId = fileId ∧ (pageId = none ∨ pageId = some key.pageId)
    | none => false

def forceFile (fileId : Nat) (pageId : Option Nat) : PoolM F cap Unit := do
  if ((← get).files fileId).isNone then throw (.error (.unknownFile fileId))
  (matching (← get) fileId pageId).forM flushFrameIfDirty
  withFile fileId PageStore.flush

def flushFile (fileId : Nat) : PoolM F cap Unit := do
  if ((← get).files fileId).isNone then throw (.error (.unknownFile fileId))
  let s ← get
  if (matching s fileId none).any fun frameId => (s.frames frameId).pinCount > 0 then
    throw (.error (.fileHasPinnedPages fileId))
  (matching s fileId none).forM fun frameId => do
    flushFrameIfDirty frameId
    evictFrame frameId
  withFile fileId PageStore.flush

def removeFile (fileId : Nat) : PoolM F cap F := do
  flushFile fileId
  let some file := (← get).files fileId | throw (.error (.unknownFile fileId))
  modify fun s => { s with files := update s.files fileId none }
  return file

end BufferPoolState

end Redbase.Buffer
