import Redbase.Lib.Prog
import Redbase.Lib.Bytes

/-!
# Page I/O

The sizes and errors of the page store and the interface `PageIo` it runs on. `ByteIo` says that an
implementation behaves as a byte array, `ReliableIo` that its calls do not fail.

A `PageId` is a `Nat` here; the places where the 32 bits of the source's `u32` show are explicit
(`checked`, `asU32`, `asI32`).
-/

namespace Redbase.Page

open Prog Bytes

@[simp] abbrev pageHeaderSize : Nat := 4
@[simp] abbrev pageDataSize : Nat := 4092
@[simp] abbrev pageSize : Nat := 4096
@[simp] abbrev fileHeaderSize : Nat := 4096
abbrev freeListEnd : Int := -1
abbrev pageUsed : Int := -2

theorem page_fits : pageHeaderSize + pageDataSize ≤ pageSize := by decide

/-- `[u8; PAGE_SIZE]`, the type of a page on disk and of the file header. -/
abbrev PageBuf := Block pageSize

/-- `[u8; PAGE_DATA_SIZE]`. -/
abbrev PageData := Block pageDataSize

/-- The kinds of `io::Error` that the program meets. -/
inductive IoError where
  | notFound
  | alreadyExists
  | unexpectedEof
  | invalidData
  | other (code : Nat)
  deriving DecidableEq, Repr

inductive PageStoreError where
  | io (error : IoError)
  | invalidPageId (pageId : Nat)
  | pageAlreadyFree (pageId : Nat)
  | corrupted (message : String)
  deriving DecidableEq, Repr

/-- The trait `PageIo`. Every buffer the page store passes is a whole page; a read works on the file
and the destination buffer, which it may have changed when it fails. -/
class PageIo (I : Type) where
  readExactAt (offset : Nat) : EStateM IoError (I × PageBuf) Unit
  writeAllAt (offset : Nat) (buf : PageBuf) : EStateM IoError I Unit
  setLen (len : Nat) : EStateM IoError I Unit
  len : EStateM IoError I Nat
  syncAll : EStateM IoError I Unit

/-- The bytes after `buf` is written at `offset`; a write past the end extends the file. -/
def writeAt (c : List UInt8) (offset : Nat) (buf : PageBuf) : List UInt8 :=
  overwrite (resize c (max c.length (offset + pageSize)) 0) offset buf.bytes

/-- A `PageIo` that stores bytes. A call that fails leaves the stored bytes as they were. -/
class ByteIo (I : Type) extends PageIo I where
  content : I → List UInt8
  read_spec (io : I) (buf : PageBuf) (offset : Nat) :
    wp (readExactAt offset)
      (fun _ t => content t.1 = content io ∧ t.2.bytes = slice (content io) offset pageSize)
      (fun _ t => content t.1 = content io) (io, buf)
  write_spec (io : I) (buf : PageBuf) (offset : Nat) :
    wp (writeAllAt offset buf) (fun _ t => content t = writeAt (content io) offset buf)
      (fun _ t => content t = content io) io
  setLen_spec (io : I) (n : Nat) :
    wp (setLen n) (fun _ t => content t = resize (content io) n 0)
      (fun _ t => content t = content io) io
  len_spec (io : I) :
    wp len (fun n t => n = (content io).length ∧ content t = content io)
      (fun _ t => content t = content io) io
  sync_spec (io : I) :
    wp syncAll (fun _ t => content t = content io) (fun _ t => content t = content io) io

/-- A `ByteIo` whose calls succeed; a read must lie inside the file. -/
class ReliableIo (I : Type) extends ByteIo I where
  read_total (io : I) (buf : PageBuf) (offset : Nat) (h : offset + pageSize ≤ (content io).length) :
    wp (readExactAt offset) (fun _ _ => True) never (io, buf)
  write_total (io : I) (buf : PageBuf) (offset : Nat) :
    wp (writeAllAt offset buf) (fun _ _ => True) never io
  setLen_total (io : I) (n : Nat) : wp (setLen n) (fun _ _ => True) never io
  len_total (io : I) : wp len (fun _ _ => True) never io
  sync_total (io : I) : wp syncAll (fun _ _ => True) never io

section Reliable

open PageIo ByteIo ReliableIo

variable {I : Type} [ReliableIo I]

theorem read_ok (io : I) (buf : PageBuf) {offset : Nat}
    (h : offset + pageSize ≤ (content io).length) :
    wp (readExactAt offset)
      (fun _ t => content t.1 = content io ∧ t.2.bytes = slice (content io) offset pageSize) never
      (io, buf) :=
  wp_mono (wp_and (read_spec io buf offset) (read_total io buf offset h)) (fun _ _ h => h.1)
    fun _ _ h => h.2

theorem write_ok (io : I) (buf : PageBuf) (offset : Nat) :
    wp (writeAllAt offset buf) (fun _ t => content t = writeAt (content io) offset buf) never io :=
  wp_mono (wp_and (write_spec io buf offset) (write_total io buf offset)) (fun _ _ h => h.1)
    fun _ _ h => h.2

theorem setLen_ok (io : I) (n : Nat) :
    wp (setLen n) (fun _ t => content t = resize (content io) n 0) never io :=
  wp_mono (wp_and (setLen_spec io n) (setLen_total io n)) (fun _ _ h => h.1) fun _ _ h => h.2

theorem len_ok (io : I) :
    wp len (fun n t => n = (content io).length ∧ content t = content io) never io :=
  wp_mono (wp_and (len_spec io) (len_total io)) (fun _ _ h => h.1) fun _ _ h => h.2

theorem sync_ok (io : I) : wp syncAll (fun _ t => content t = content io) never io :=
  wp_mono (wp_and (sync_spec io) (sync_total io)) (fun _ _ h => h.1) fun _ _ h => h.2

end Reliable

/-! ## The disk -/

/-- `DiskPageIo`: an open file, seen as its bytes. -/
structure DiskPageIo where
  file : List UInt8
  deriving DecidableEq

namespace DiskPageIo

/-- `read_exact` past the end of the file has copied what there was when it fails. -/
def readExactAt (offset : Nat) : EStateM IoError (DiskPageIo × PageBuf) Unit := do
  let (io, buf) ← get
  let bytes := slice io.file offset pageSize
  set (io, buf.write 0 bytes)
  if bytes.length < pageSize then throw .unexpectedEof

instance : PageIo DiskPageIo where
  readExactAt := readExactAt
  writeAllAt offset buf := modify fun io => ⟨writeAt io.file offset buf⟩
  setLen n := modify fun io => ⟨resize io.file n 0⟩
  len := do return (← get).file.length
  syncAll := pure ()

theorem readExactAt_spec (io : DiskPageIo) (buf : PageBuf) (offset : Nat) :
    wp (readExactAt offset)
      (fun _ t => t.1 = io ∧ offset + pageSize ≤ io.file.length ∧
        t.2.bytes = slice io.file offset pageSize)
      (fun _ t => t.1 = io ∧ io.file.length < offset + pageSize) (io, buf) := by
  simp only [readExactAt, wp_bind, wp_get, wp_set, wp_ite, wp_throw, wp_pure,
    length_slice, pageSize]
  split
  next h => exact ⟨trivial, by omega⟩
  next h =>
    refine ⟨trivial, by omega, overwrite_zero_full ?_⟩
    simp only [length_slice, Block.length_eq]
    omega

instance : ReliableIo DiskPageIo where
  content := file
  read_spec io buf offset :=
    wp_mono (readExactAt_spec io buf offset) (fun _ _ h => ⟨congrArg file h.1, h.2.2⟩)
      fun _ _ h => congrArg file h.1
  write_spec _ _ _ := rfl
  setLen_spec _ _ := rfl
  len_spec _ := ⟨rfl, rfl⟩
  sync_spec _ := rfl
  read_total io buf offset h :=
    wp_mono (readExactAt_spec io buf offset) (fun _ _ _ => trivial) fun _ _ h' => by
      have := h'.2
      omega
  write_total _ _ _ := trivial
  setLen_total _ _ := trivial
  len_total _ := trivial
  sync_total _ := trivial

end DiskPageIo

end Redbase.Page
