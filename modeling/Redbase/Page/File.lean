import Redbase.Page.Io

/-!
# The page file

A file header and pages of 4096 bytes. One page at a time is resident; it is written back when
another is loaded. The pages that were disposed of form a list through their headers.
-/

namespace Redbase.Page

open Prog Bytes

/-! ## Headers -/

structure FileHeader where
  firstFreePage : Int
  numPages : Nat
  deriving DecidableEq, Repr

namespace FileHeader

def new : FileHeader := ⟨freeListEnd, 0⟩

def encode (h : FileHeader) : PageBuf :=
  ((Block.zero _).write 0 (i32Bytes h.firstFreePage)).write 4 (u32Bytes h.numPages)

def validate (h : FileHeader) : Except PageStoreError Unit := do
  if h.firstFreePage < freeListEnd then
    throw (.corrupted "first_free_page is smaller than the free-list sentinel")
  if h.firstFreePage ≠ freeListEnd ∧ asU32 h.firstFreePage ≥ h.numPages then
    throw (.corrupted "first_free_page points outside the current file")

/-- The two fields of a header page. -/
def read (buf : PageBuf) : FileHeader := ⟨i32OfBytes (buf.read 0 4), leNat (buf.read 4 4)⟩

def decode (buf : PageBuf) : Except PageStoreError FileHeader := do
  let header := read buf
  header.validate
  return header

end FileHeader

structure PageHeader where
  nextFree : Int
  deriving DecidableEq, Repr

namespace PageHeader

def used : PageHeader := ⟨pageUsed⟩

def encode (h : PageHeader) : List UInt8 := i32Bytes h.nextFree

def decode (buf : List UInt8) : PageHeader := ⟨i32OfBytes buf⟩

end PageHeader

/-! ## The open file -/

structure PageFile (I : Type) where
  io : I
  header : FileHeader
  headerDirty : Bool
  loadedPageId : Option Nat
  loadedPageDirty : Bool
  loadedPage : PageBuf

/-- `PageReadGuard` and `PageWriteGuard`: the id of the resident page and its data bytes. -/
structure PageGuard where
  pageId : Nat
  data : PageData

def pageOffset (pageId : Nat) : Except PageStoreError Nat := do
  let some logicalOffset := checked 64 (pageId * pageSize)
    | throw (.corrupted "page offset overflow")
  let some offset := checked 64 (fileHeaderSize + logicalOffset)
    | throw (.corrupted "page offset overflow")
  return offset

namespace PageFile

variable {I : Type} [PageIo I]

/-- A call on `self.io` with `?`. -/
def liftIo {α : Type} (m : EStateM IoError I α) : EStateM PageStoreError (PageFile I) α :=
  mapError .io (zoom (·.io) (fun io s => { s with io }) m)

/-- `self.io.read_exact_at(offset, &mut self.loaded_page)?`. -/
def readLoadedPage (offset : Nat) : EStateM PageStoreError (PageFile I) Unit :=
  mapError .io (zoom (fun s => (s.io, s.loadedPage))
    (fun t s => { s with io := t.1, loadedPage := t.2 }) (PageIo.readExactAt offset))

def currentPageHeader (s : PageFile I) : PageHeader := PageHeader.decode (s.loadedPage.read 0 4)

def pageData (s : PageFile I) : PageData := s.loadedPage.sub pageHeaderSize pageDataSize page_fits

def writeCurrentPageHeader (h : PageHeader) : EStateM PageStoreError (PageFile I) Unit :=
  modify fun s => { s with loadedPage := s.loadedPage.write 0 h.encode }

/-- A change of the resident page's data bytes: `page_data_mut`, or through a `PageWriteGuard`. -/
def setPageData (d : PageData) (s : PageFile I) : PageFile I :=
  { s with loadedPage := s.loadedPage.write pageHeaderSize d.bytes }

def ensurePageIdInRange (pageId : Nat) : EStateM PageStoreError (PageFile I) Unit := do
  if pageId ≥ (← get).header.numPages then throw (.invalidPageId pageId)

def ensureCurrentPageIsUsed (pageId : Nat) : EStateM PageStoreError (PageFile I) Unit := do
  if (currentPageHeader (← get)).nextFree ≠ pageUsed then throw (.invalidPageId pageId)

def flushHeader : EStateM PageStoreError (PageFile I) Unit := do
  if (← get).headerDirty = false then return ()
  liftIo (PageIo.writeAllAt 0 (← get).header.encode)
  modify fun s => { s with headerDirty := false }

def flushLoadedPage : EStateM PageStoreError (PageFile I) Unit := do
  let some pageId := (← get).loadedPageId | return ()
  if (← get).loadedPageDirty = false then return ()
  let offset ← lift (pageOffset pageId)
  liftIo (PageIo.writeAllAt offset (← get).loadedPage)
  modify fun s => { s with loadedPageDirty := false }

def flush : EStateM PageStoreError (PageFile I) Unit := do
  flushLoadedPage
  flushHeader
  liftIo PageIo.syncAll

def loadPage (pageId : Nat) : EStateM PageStoreError (PageFile I) Unit := do
  ensurePageIdInRange pageId
  if (← get).loadedPageId = some pageId then return ()
  flushLoadedPage
  let offset ← lift (pageOffset pageId)
  readLoadedPage offset
  modify fun s => { s with loadedPageId := some pageId, loadedPageDirty := false }

/-- `allocate_page` when the free list is not empty. -/
def allocateFree : EStateM PageStoreError (PageFile I) Nat := do
  let pageId := asU32 (← get).header.firstFreePage
  loadPage pageId
  let next := (currentPageHeader (← get)).nextFree
  modify fun s => { s with header := { s.header with firstFreePage := next } }
  writeCurrentPageHeader PageHeader.used
  modify (setPageData (Block.zero _))
  return pageId

/-- `allocate_page` when the file has to grow. -/
def allocateNew : EStateM PageStoreError (PageFile I) Nat := do
  let pageId := (← get).header.numPages
  flushLoadedPage
  let some numPages := checked 32 ((← get).header.numPages + 1)
    | throw (.corrupted "page count overflow")
  modify fun s => { s with header := { s.header with numPages } }
  liftIo (PageIo.setLen (fileHeaderSize + numPages * pageSize))
  modify fun s =>
    { s with loadedPage := Block.zero _, loadedPageId := some pageId, loadedPageDirty := true }
  writeCurrentPageHeader PageHeader.used
  return pageId

def allocatePage : EStateM PageStoreError (PageFile I) PageGuard := do
  let pageId ← if (← get).header.firstFreePage ≠ freeListEnd then allocateFree else allocateNew
  modify fun s => { s with headerDirty := true, loadedPageDirty := true }
  return ⟨pageId, (← get).pageData⟩

def readPage (pageId : Nat) : EStateM PageStoreError (PageFile I) PageGuard := do
  loadPage pageId
  ensureCurrentPageIsUsed pageId
  return ⟨pageId, (← get).pageData⟩

def writePage (pageId : Nat) : EStateM PageStoreError (PageFile I) PageGuard := do
  loadPage pageId
  ensureCurrentPageIsUsed pageId
  modify fun s => { s with loadedPageDirty := true }
  return ⟨pageId, (← get).pageData⟩

def disposePage (pageId : Nat) : EStateM PageStoreError (PageFile I) Unit := do
  loadPage pageId
  if (currentPageHeader (← get)).nextFree ≠ pageUsed then throw (.pageAlreadyFree pageId)
  modify (setPageData (Block.zero _))
  writeCurrentPageHeader ⟨(← get).header.firstFreePage⟩
  modify fun s =>
    { s with header := { s.header with firstFreePage := asI32 pageId },
             headerDirty := true, loadedPageDirty := true }

/-- `PageFile::create`; on an error the state is the value whose `Drop` then runs. -/
def create (io : I) : EStateM.Result PageStoreError (PageFile I) Unit :=
  (do liftIo (PageIo.setLen fileHeaderSize); flush : EStateM PageStoreError (PageFile I) Unit)
    { io, header := FileHeader.new, headerDirty := true, loadedPageId := none,
      loadedPageDirty := false, loadedPage := Block.zero _ }

/-- `io.read_exact_at(0, &mut header_buf)?` with a fresh buffer. -/
def readHeaderBuf : EStateM PageStoreError I PageBuf := fun io =>
  match PageIo.readExactAt 0 (io, Block.zero _) with
  | .ok _ (io, buf) => .ok buf io
  | .error e (io, _) => .error (.io e) io

/-- `PageFile::open`. The state is the `PageIo` it is given. -/
def «open» : EStateM PageStoreError I (PageFile I) := do
  let len ← mapError .io PageIo.len
  if len < fileHeaderSize then
    throw (.corrupted "file is smaller than the mandatory file header")
  let headerBuf ← readHeaderBuf
  let header ← lift (FileHeader.decode headerBuf)
  if len < fileHeaderSize + header.numPages * pageSize then
    throw (.corrupted "file is shorter than the number of pages declared in the header")
  return { io := ← get, header, headerDirty := false, loadedPageId := none,
           loadedPageDirty := false, loadedPage := Block.zero _ }

/-- `Drop`: what is dirty is written back, an error is ignored. -/
def drop (s : PageFile I) : I := (final (flush s)).io

end PageFile

end Redbase.Page
