import Redbase.Record.Filter

/-!
# The record file

A file of records of one size over the buffer pool: page 0 holds the file header, the other pages
hold slots, and the pages with a free slot form a list through their headers.
-/

namespace Redbase.Record

open Prog Bytes Page Buffer BufferPoolState

structure RecordFile (I : Type) (cap : Nat) where
  pool : BufferPoolState (PageFile I) cap
  fileId : Nat
  header : RecordFileHeader
  headerDirty : Bool

abbrev RecordM (I : Type) (cap : Nat) := EStateM (Stop RecordError) (RecordFile I cap)

/-! ## A page held through a guard -/

/-- What a method changes while it holds a page: the bytes of the frame and its own fields. -/
structure OpenPage where
  bytes : PageData
  header : RecordFileHeader
  headerDirty : Bool

abbrev PageM := EStateM RecordError OpenPage

namespace OpenPage

/-- `bytes[start..].copy_from_slice(data)`. -/
def copy (start : Nat) (data : List UInt8) (p : OpenPage) : OpenPage :=
  { p with bytes := p.bytes.write start data }

def markSlot (slotId : Nat) (isFree : Bool) (p : OpenPage) : OpenPage :=
  p.copy recordPageHeaderSize (setSlotFree (bitmap p.bytes p.header.slotsPerPage) slotId isFree)

/-- `page_header.encode(&mut bytes[..RECORD_PAGE_HEADER_SIZE])`. -/
def encode (pageHeader : RecordPageHeader) (p : OpenPage) : OpenPage :=
  p.copy 0 pageHeader.encode

/-- A new head of the free-page chain, in memory only. -/
def setFirstFree (link : Int) (p : OpenPage) : OpenPage :=
  { p with header := { p.header with firstFreePage := link }, headerDirty := true }

end OpenPage

def initializePage (header : RecordPageHeader) (slotsPerPage recordSize : Nat) : PageM Unit := do
  modify fun p => { p with bytes := Block.zero _ }
  modify (OpenPage.encode header)
  modify (OpenPage.copy recordPageHeaderSize (List.replicate (bitmapBytes slotsPerPage) 255))
  if recordPageHeaderSize + bitmapBytes slotsPerPage + slotsPerPage * recordSize > pageDataSize then
    throw (.corrupted "record layout exceeds page capacity")

/-- `insert` on the head of the chain. -/
def insertInto (pageId : Nat) (data : List UInt8) : PageM Rid := do
  let h := (← get).header
  let pageHeader ← lift (readPageHeader h (← get).bytes)
  lift (pageHeader.validate h.slotsPerPage)
  let some slotId := findFirstFreeSlot (bitmap (← get).bytes h.slotsPerPage) h.slotsPerPage
    | throw (.corrupted "free-page chain points to a full page")
  modify (OpenPage.markSlot slotId false)
  if pageHeader.numFreeSlots = 0 then throw (.corrupted "page free-slot counter underflow")
  let numFreeSlots := pageHeader.numFreeSlots - 1
  let start ← lift (recordRange h slotId)
  modify (OpenPage.copy start data)
  if numFreeSlots = 0 then
    modify (OpenPage.setFirstFree pageHeader.nextFreePage)
    modify (OpenPage.encode { pageHeader with numFreeSlots, nextFreePage := recordPageFull })
  else
    modify (OpenPage.encode { pageHeader with numFreeSlots })
  return ⟨pageId, slotId⟩

def updateIn (rid : Rid) (data : List UInt8) : PageM Unit := do
  let h := (← get).header
  let pageHeader ← lift (readPageHeader h (← get).bytes)
  lift (ensureSlotUsed h rid pageHeader (← get).bytes)
  let start ← lift (recordRange h rid.slotId)
  modify (OpenPage.copy start data)

def deleteIn (rid : Rid) : PageM Unit := do
  let h := (← get).header
  let pageHeader ← lift (readPageHeader h (← get).bytes)
  lift (ensureSlotUsed h rid pageHeader (← get).bytes)
  modify (OpenPage.markSlot rid.slotId true)
  let some numFreeSlots := checked 32 (pageHeader.numFreeSlots + 1)
    | throw (.corrupted "page free-slot counter overflow")
  let start ← lift (recordRange h rid.slotId)
  modify (OpenPage.copy start (List.replicate h.recordSize 0))
  if pageHeader.numFreeSlots = 0 then
    modify (OpenPage.setFirstFree (asI32 rid.pageId))
    modify (OpenPage.encode { pageHeader with numFreeSlots, nextFreePage := h.firstFreePage })
  else
    modify (OpenPage.encode { pageHeader with numFreeSlots })

/-- `allocate_data_page` on the new page. -/
def allocateIn (pageId : Nat) : PageM Unit := do
  let h := (← get).header
  initializePage (RecordPageHeader.new h.slotsPerPage) h.slotsPerPage h.recordSize
  let some numPages := checked 32 (h.numPages + 1) | throw (.corrupted "record page count overflow")
  modify fun p => { p with header := { p.header with numPages } }
  modify (OpenPage.setFirstFree (asI32 pageId))

def persistIn : PageM Unit := do
  modify (OpenPage.copy 0 (← get).header.encode)
  modify fun p => { p with headerDirty := false }

def getFrom (h : RecordFileHeader) (rid : Rid) (bytes : PageData) : Except RecordError Record := do
  let pageHeader ← readPageHeader h bytes
  ensureSlotUsed h rid pageHeader bytes
  let start ← recordRange h rid.slotId
  return ⟨rid, bytes.read start h.recordSize⟩

/-- `read_record_if_used` on the page of the cursor. -/
def readIfUsed (h : RecordFileHeader) (rid : Rid) (bytes : PageData) :
    Except RecordError (Option Record) := do
  let pageHeader ← readPageHeader h bytes
  if rid.slotId ≥ pageHeader.numSlots then
    throw (.corrupted "scan cursor points outside the slot range")
  if slotIsFree (bitmap bytes h.slotsPerPage) rid.slotId then return none
  let start ← recordRange h rid.slotId
  return some ⟨rid, bytes.read start h.recordSize⟩

/-! ## Methods -/

/-- An error of the pool as one of the record file. -/
def poolError : Stop BufferPoolError → Stop RecordError := Stop.map .bufferPool

namespace RecordFile

variable {I : Type} [PageIo I] {cap : Nat} {α : Type}

/-- The guard on the page is dropped, with the bytes and the fields as `page` has them. -/
def close (s : RecordFile I cap) (pool : BufferPoolState (PageFile I) cap) (frameId : Fin cap)
    (page : OpenPage) : RecordFile I cap where
  pool := (pool.modifyFrame frameId fun frame => { frame with data := page.bytes }).unpinFrame
    frameId
  fileId := s.fileId
  header := page.header
  headerDirty := page.headerDirty

/-- Takes a write guard, runs `body` on its page and drops it, also when `body` fails. -/
def withPageMut (acquire : PoolM (PageFile I) cap (Guard cap)) (body : Nat → PageM α) :
    RecordM I cap α := fun s =>
  match acquire s.pool with
  | .error e pool => .error (poolError e) { s with pool }
  | .ok g pool =>
      match body g.key.pageId ⟨(pool.frames g.frameId).data, s.header, s.headerDirty⟩ with
      | .ok a page => .ok a (s.close pool g.frameId page)
      | .error e page => .error (.error e) (s.close pool g.frameId page)

/-- Takes a read guard, looks at its page and drops it. -/
def withPage (pageId : Nat) (body : PageData → Except RecordError α) : RecordM I cap α := fun s =>
  match getPage s.fileId pageId s.pool with
  | .error e pool => .error (poolError e) { s with pool }
  | .ok g pool =>
      let t := { s with pool := pool.unpinFrame g.frameId }
      match body (pool.frames g.frameId).data with
      | .ok a => .ok a t
      | .error e => .error (.error e) t

/-- `?` on a check that needs no page. -/
def check (x : Except RecordError α) : RecordM I cap α := lift (x.mapError .error)

def allocateDataPage : RecordM I cap Unit := do
  withPageMut (allocatePage (← get).fileId) allocateIn

def persistHeader : RecordM I cap Unit := do
  if (← get).headerDirty = false then return ()
  withPageMut (getPageMut (← get).fileId headerPageId) fun _ => persistIn

def insert (data : List UInt8) : RecordM I cap Rid := do
  check (ensureRecordLength (← get).header data.length)
  if (← get).header.firstFreePage = recordPageListEnd then allocateDataPage
  let pageId := asU32 (← get).header.firstFreePage
  withPageMut (getPageMut (← get).fileId pageId) fun _ => insertInto pageId data

def get (rid : Rid) : RecordM I cap Record := do
  let h := (← MonadState.get).header
  check (validateRid h rid)
  withPage rid.pageId (getFrom h rid)

def update (rid : Rid) (data : List UInt8) : RecordM I cap Unit := do
  check (ensureRecordLength (← MonadState.get).header data.length)
  check (validateRid (← MonadState.get).header rid)
  withPageMut (getPageMut (← MonadState.get).fileId rid.pageId) fun _ => updateIn rid data

def delete (rid : Rid) : RecordM I cap Unit := do
  check (validateRid (← MonadState.get).header rid)
  withPageMut (getPageMut (← MonadState.get).fileId rid.pageId) fun _ => deleteIn rid

/-- A method of the pool with `?`. -/
def liftPool (m : PoolM (PageFile I) cap α) : RecordM I cap α :=
  mapError poolError (zoom (·.pool) (fun pool s => { s with pool }) m)

def flush : RecordM I cap Unit := do
  persistHeader
  liftPool (forceFile (← MonadState.get).fileId none)

def readRecordIfUsed (rid : Rid) : RecordM I cap (Option Record) := do
  let h := (← MonadState.get).header
  if rid.pageId = headerPageId ∨ rid.pageId > h.numPages then
    throw (.error (.corrupted "scan cursor points outside the data-page range"))
  withPage rid.pageId (readIfUsed h rid)

/-! ## Creating, opening and dropping -/

/-- What is left of the `PageIo` when the pool is dropped; a pool made here has the one file. -/
def abandon (pool : BufferPoolState (PageFile I) cap) (fileId : Nat) : Option I :=
  (pool.files fileId).map PageFile.drop

/-- `Drop`: an error of the flush is ignored. -/
def drop (s : RecordFile I cap) : Option I :=
  abandon (final (flush s)).pool s.fileId

/-- `create` up to the header: the pool with the page file and a new page 0. -/
def createPool (pageFile : PageFile I) (recordSize : Nat) :
    EStateM (Stop RecordError) (BufferPoolState (PageFile I) cap) (Nat × RecordFileHeader) := do
  let fileId ← mapError poolError (registerFile pageFile)
  let headerPage ← mapError poolError (allocatePage fileId)
  modify (unpinFrame headerPage.frameId)
  if headerPage.key.pageId ≠ headerPageId then
    throw (.error (.corrupted "record header must be stored in page 0"))
  let header ← lift ((RecordFileHeader.new recordSize).mapError .error)
  return (fileId, header)

/-- An error comes with what is left of the `PageIo`. -/
def create (pageFile : PageFile I) (cap recordSize : Nat) :
    Except (Stop RecordError × Option I) (RecordFile I cap) :=
  match createPool pageFile recordSize (BufferPoolState.new (PageFile I) cap) with
  | .error e pool => .error (e, abandon pool 0)
  | .ok (fileId, header) pool =>
      match persistHeader { pool, fileId, header, headerDirty := true } with
      | .ok _ file => .ok file
      | .error e file => .error (e, file.drop)

def openPool (pageFile : PageFile I) :
    EStateM (Stop RecordError) (BufferPoolState (PageFile I) cap) (Nat × RecordFileHeader) := do
  let totalPages := pageFile.header.numPages
  let fileId ← mapError poolError (registerFile pageFile)
  let headerPage ← mapError poolError (getPage fileId headerPageId)
  let bytes := ((← MonadState.get).frames headerPage.frameId).data
  modify (unpinFrame headerPage.frameId)
  let header ← lift ((RecordFileHeader.decode (bytes.read 0 recordFileHeaderSize)).mapError .error)
  let some expectedTotalPages := checked 32 (header.numPages + 1)
    | throw (.error (.corrupted "record file page count overflow"))
  if expectedTotalPages > totalPages then
    throw (.error (.corrupted "record file header declares more pages than exist on disk"))
  return (fileId, header)

def «open» (pageFile : PageFile I) (cap : Nat) :
    Except (Stop RecordError × Option I) (RecordFile I cap) :=
  if pageFile.header.numPages = 0 then
    .error (.error (.corrupted "record file is missing the header page"), some pageFile.drop)
  else match openPool pageFile (BufferPoolState.new (PageFile I) cap) with
    | .error e pool => .error (e, abandon pool 0)
    | .ok (fileId, header) pool => .ok { pool, fileId, header, headerDirty := false }

end RecordFile

/-! ## Scans -/

/-- The predicate is a pure function; a scan holds its file until it is dropped. -/
structure RecordScan (I : Type) (cap : Nat) where
  file : RecordFile I cap
  nextPageId : Nat
  nextSlotId : Nat
  predicate : List UInt8 → Except RecordError Bool

def alwaysMatch : List UInt8 → Except RecordError Bool := fun _ => return true

/-- The constructor of every scan, once its filter is validated; a predicate that cannot fail makes
it `scan_with`. -/
def RecordFile.scanWith {I : Type} {cap : Nat} (file : RecordFile I cap)
    (predicate : List UInt8 → Except RecordError Bool) : RecordScan I cap :=
  { file, nextPageId := headerPageId + 1, nextSlotId := 0, predicate }

def RecordFile.scan {I : Type} {cap : Nat} (file : RecordFile I cap) : RecordScan I cap :=
  file.scanWith alwaysMatch

def RecordFile.scanWithPredicate {I : Type} {cap : Nat} (file : RecordFile I cap)
    (predicate : ScanPredicate) : Except RecordError (RecordScan I cap) := do
  predicate.validateForRecord file.header.recordSize
  return file.scanWith fun bytes => predicate.matches bytes

def RecordFile.scanWithFilter {I : Type} {cap : Nat} (file : RecordFile I cap)
    (filter : CompoundPredicate) : Except RecordError (RecordScan I cap) := do
  filter.validateForRecord file.header.recordSize
  return file.scanWith fun bytes => filter.matches bytes

def RecordFile.scanWithLogic {I : Type} {cap : Nat} (file : RecordFile I cap)
    (filter : LogicFilter) :
    Except RecordError (RecordScan I cap) := do
  filter.validateForRecord file.header.recordSize
  return file.scanWith fun bytes => filter.matches bytes

namespace RecordScan

variable {I : Type} [PageIo I] {cap : Nat}

abbrev ScanM (I : Type) (cap : Nat) := EStateM (Stop RecordError) (RecordScan I cap)

def advanceCursor (s : RecordScan I cap) : RecordScan I cap :=
  if s.nextSlotId + 1 < s.file.header.slotsPerPage then { s with nextSlotId := s.nextSlotId + 1 }
  else { s with nextPageId := s.nextPageId + 1, nextSlotId := 0 }

/-- The loop of `next_record`, for `fuel` turns at most. -/
def nextFrom : Nat → ScanM I cap (Option Record)
  | 0 => throw .diverge
  | fuel + 1 => do
      let s ← get
      if s.nextPageId > s.file.header.numPages then return none
      modify advanceCursor
      let some record ← zoom (·.file) (fun file s => { s with file })
          (RecordFile.readRecordIfUsed ⟨s.nextPageId, s.nextSlotId⟩) | nextFrom fuel
      if ← lift ((s.predicate record.data).mapError .error) then return some record
      nextFrom fuel

def nextRecord : ScanM I cap (Option Record) := do
  let s ← get
  nextFrom ((s.file.header.numPages + 1 - s.nextPageId) * s.file.header.slotsPerPage + 1)

/-- `while let Some(record) = scan.next_record()?`, collecting what it yields, at most `fuel`
times. -/
def drain : Nat → ScanM I cap (List Record)
  | 0 => throw .diverge
  | fuel + 1 => do
      let some record ← nextRecord | return []
      let rest ← drain fuel
      return record :: rest

/-- A loop over the scan to its end; the records come in the order of the scan. -/
def collect : ScanM I cap (List Record) := do
  let s ← get
  drain (s.file.header.numPages * s.file.header.slotsPerPage + 1)

end RecordScan

end Redbase.Record
