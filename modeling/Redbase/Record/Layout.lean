import Redbase.Lib.Bitmap
import Redbase.Buffer.Pool

/-!
# The layout of a record file

The header of the file, the header of a data page, the bitmap of its free slots (a set bit is a free
slot) and the place of each slot.
-/

namespace Redbase.Record

open Prog Bytes Page Buffer

@[simp] abbrev recordFileHeaderSize : Nat := 16
@[simp] abbrev recordPageHeaderSize : Nat := 12
abbrev recordPageListEnd : Int := -1
abbrev recordPageFull : Int := -2
abbrev headerPageId : Nat := 0

structure Rid where
  pageId : Nat
  slotId : Nat
  deriving DecidableEq, Repr

set_option linter.dupNamespace false in
structure Record where
  rid : Rid
  data : List UInt8
  deriving DecidableEq, Repr

inductive RecordError where
  | pageStore (error : PageStoreError)
  | bufferPool (error : BufferPoolError)
  | invalidRecordSize (size : Nat)
  | recordTooLarge (size : Nat)
  | invalidPredicate (message : String)
  | predicateOutOfBounds (offset length recordSize : Nat)
  | invalidRid (rid : Rid)
  | emptySlot (rid : Rid)
  | sizeMismatch (expected actual : Nat)
  | corrupted (message : String)
  deriving DecidableEq, Repr

/-! ## Slots -/

def bitmapBytes (numSlots : Nat) : Nat := (numSlots + 7) / 8

/-- The loop of `compute_slots_per_page`, from `slots` down. -/
def fitSlots (recordSize : Nat) : Nat → Option Nat
  | 0 => none
  | slots + 1 =>
      if recordPageHeaderSize + bitmapBytes (slots + 1) + (slots + 1) * recordSize ≤
        pageDataSize then
        some (slots + 1)
      else fitSlots recordSize slots

def computeSlotsPerPage (recordSize : Nat) : Except RecordError Nat :=
  if recordSize = 0 then throw (.invalidRecordSize recordSize)
  else match fitSlots recordSize (pageDataSize / recordSize) with
    | some slots => return slots
    | none => throw (.recordTooLarge recordSize)

/-- `slots` records fit into a page beside its header and their bitmap. -/
def FitsInPage (recordSize slots : Nat) : Prop :=
  recordPageHeaderSize + bitmapBytes slots + slots * recordSize ≤ pageDataSize

def slotIsFree (bitmap : List UInt8) (slotIndex : Nat) : Bool := Bitmap.isSet bitmap slotIndex

def setSlotFree (bitmap : List UInt8) (slotIndex : Nat) (isFree : Bool) : List UInt8 :=
  Bitmap.put bitmap slotIndex isFree

def findFirstFreeSlot (bitmap : List UInt8) (numSlots : Nat) : Option Nat :=
  Bitmap.first bitmap numSlots

/-! ## The file header -/

structure RecordFileHeader where
  recordSize : Nat
  slotsPerPage : Nat
  firstFreePage : Int
  numPages : Nat
  deriving DecidableEq, Repr

namespace RecordFileHeader

def new (recordSize : Nat) : Except RecordError RecordFileHeader := do
  if recordSize = 0 then throw (.invalidRecordSize recordSize)
  let slotsPerPage ← computeSlotsPerPage recordSize
  return ⟨recordSize, slotsPerPage, recordPageListEnd, 0⟩

def encode (h : RecordFileHeader) : List UInt8 :=
  u32Bytes h.recordSize ++ u32Bytes h.slotsPerPage ++ i32Bytes h.firstFreePage ++
    u32Bytes h.numPages

def validate (h : RecordFileHeader) : Except RecordError Unit := do
  if h.recordSize = 0 then throw (.corrupted "record size must be greater than zero")
  let expectedSlots ← computeSlotsPerPage h.recordSize
  if h.slotsPerPage ≠ expectedSlots then
    throw (.corrupted "stored slots_per_page does not match record size")
  if h.firstFreePage < recordPageListEnd then
    throw (.corrupted "first_free_page is smaller than the free-list sentinel")
  if h.firstFreePage ≠ recordPageListEnd ∧ asU32 h.firstFreePage > h.numPages then
    throw (.corrupted "first_free_page points outside the data-page range")

/-- The four fields of a header. -/
def read (buf : List UInt8) : RecordFileHeader :=
  ⟨leNat (slice buf 0 4), leNat (slice buf 4 4), i32OfBytes (slice buf 8 4), leNat (slice buf 12 4)⟩

def decode (buf : List UInt8) : Except RecordError RecordFileHeader := do
  if buf.length < recordFileHeaderSize then throw (.corrupted "header page is too short")
  let header := read buf
  header.validate
  return header

end RecordFileHeader

/-! ## The page header -/

structure RecordPageHeader where
  nextFreePage : Int
  numSlots : Nat
  numFreeSlots : Nat
  deriving DecidableEq, Repr

namespace RecordPageHeader

def new (numSlots : Nat) : RecordPageHeader := ⟨recordPageListEnd, numSlots, numSlots⟩

def encode (h : RecordPageHeader) : List UInt8 :=
  i32Bytes h.nextFreePage ++ u32Bytes h.numSlots ++ u32Bytes h.numFreeSlots

/-- The three fields of a page header. -/
def read (buf : List UInt8) : RecordPageHeader :=
  ⟨i32OfBytes (slice buf 0 4), leNat (slice buf 4 4), leNat (slice buf 8 4)⟩

def decode (buf : List UInt8) : Except RecordError RecordPageHeader := do
  if buf.length < recordPageHeaderSize then throw (.corrupted "record page header is too short")
  return read buf

def validate (h : RecordPageHeader) (expectedSlots : Nat) : Except RecordError Unit := do
  if h.numSlots ≠ expectedSlots then throw (.corrupted "record page slot count mismatch")
  if h.numFreeSlots > h.numSlots then
    throw (.corrupted "record page free-slot count exceeds total slots")
  if h.nextFreePage < recordPageFull then throw (.corrupted "record page next_free_page is invalid")

end RecordPageHeader

/-! ## The data page -/

/-- `bytes[bitmap_range(num_slots)]`. -/
def bitmap (bytes : PageData) (numSlots : Nat) : List UInt8 :=
  bytes.read recordPageHeaderSize (bitmapBytes numSlots)

/-- The first byte of slot `slotIndex`; the range check of `record_range` is in `recordRange`. -/
def recordStart (h : RecordFileHeader) (slotIndex : Nat) : Nat :=
  recordPageHeaderSize + bitmapBytes h.slotsPerPage + slotIndex * h.recordSize

/-- `record_range`: the start of the range; its length is the record size. -/
def recordRange (h : RecordFileHeader) (slotIndex : Nat) : Except RecordError Nat := do
  if slotIndex ≥ h.slotsPerPage then throw (.corrupted "slot index is outside the page layout")
  let start := recordStart h slotIndex
  if start + h.recordSize > pageDataSize then throw (.corrupted "record range exceeds page size")
  return start

/-- The ranges of bytes of a data page: its header, its bitmap and its slots. -/
def pageParts (h : RecordFileHeader) : List (Nat × Nat) :=
  (0, recordPageHeaderSize) ::
    (recordPageHeaderSize, recordPageHeaderSize + bitmapBytes h.slotsPerPage) ::
    (List.range h.slotsPerPage).map fun slot =>
      (recordStart h slot, recordStart h slot + h.recordSize)

def readPageHeader (h : RecordFileHeader) (bytes : PageData) :
    Except RecordError RecordPageHeader := do
  let header ← RecordPageHeader.decode (bytes.read 0 recordPageHeaderSize)
  header.validate h.slotsPerPage
  return header

def validateRid (h : RecordFileHeader) (rid : Rid) : Except RecordError Unit := do
  if rid.pageId = headerPageId ∨ rid.pageId > h.numPages then throw (.invalidRid rid)
  if rid.slotId ≥ h.slotsPerPage then throw (.invalidRid rid)

def ensureRecordLength (h : RecordFileHeader) (actual : Nat) : Except RecordError Unit :=
  if actual ≠ h.recordSize then throw (.sizeMismatch h.recordSize actual) else return ()

def ensureSlotUsed (h : RecordFileHeader) (rid : Rid) (pageHeader : RecordPageHeader)
    (bytes : PageData) : Except RecordError Unit := do
  if rid.slotId ≥ pageHeader.numSlots then throw (.invalidRid rid)
  if slotIsFree (bitmap bytes h.slotsPerPage) rid.slotId then throw (.emptySlot rid)

end Redbase.Record
