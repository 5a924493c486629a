import Redbase.Database.Database
import Redbase.Files.Lemmas.Manager
import Redbase.Table.Lemmas.Clean
import Redbase.Table.Lemmas.Writes

/-!
# What is in the file of a table

The pages and the records of a record file, read off its bytes. The bytes of a saved file determine
its pages; a table that is opened from them holds these, and a table that is dropped leaves its own.
-/

namespace Redbase.Database

open Prog Bytes Page Record Files Table Function

/-- The page file in `bytes`. -/
def pageFileOf (bytes : List UInt8) : Option (PageFile DiskPageIo) :=
  match PageFile.open (DiskPageIo.mk bytes) with
  | .ok file _ => some file
  | .error _ _ => none

/-- The data of a page. -/
def filePages (bytes : List UInt8) (p : Nat) : PageData :=
  ((pageFileOf bytes).bind fun file => file.contents p).getD (Block.zero _)

/-- The header of the record file. -/
def fileHeader (bytes : List UInt8) : RecordFileHeader :=
  RecordFileHeader.read ((filePages bytes headerPageId).read 0 recordFileHeaderSize)

/-- The records of the file, by their ids. -/
def liveRecords (bytes : List UInt8) : Rid → Option (List UInt8) :=
  lookup (fileHeader bytes) (filePages bytes)

/-- The header of the file and that of every data page pass their checks. -/
def HeadersPass (bytes : List UInt8) : Prop :=
  (fileHeader bytes).validate = .ok () ∧
    ∀ p, (fileHeader bytes).HasPage p → ∃ header, readPageHeader (fileHeader bytes)
      (filePages bytes p) = .ok header

variable {bytes : List UInt8} {h : RecordFileHeader} {pages pages' : Nat → PageData}
  {chain : List Nat} {schema : TableSchema} {layout : SchemaLayout} {table : DiskTable}

/-- The bytes are those of a record file. -/
def IsSaved (bytes : List UInt8) : Prop :=
  ∃ chain, Saved (DiskPageIo.mk bytes) (fileHeader bytes) (filePages bytes) chain

/-- A record file whose records are rows of the layout. -/
structure RowsIn (bytes : List UInt8) (layout : SchemaLayout) : Prop where
  saved : IsSaved bytes
  size : (fileHeader bytes).recordSize = layout.recordSize
  encoded : Encoded layout (fileHeader bytes) (filePages bytes)

/-! ## The pages -/

theorem filePages_eq (hs : Saved (DiskPageIo.mk bytes) h pages chain) {p : Nat}
    (hp : p ≤ h.numPages) :
    filePages bytes p = pages p := by
  obtain ⟨file, io, hopen, hplain⟩ := exists_ok_of_wp (hs.disk _ rfl)
  rw [filePages, pageFileOf, hopen]
  show (file.contents p).getD _ = _
  rw [hplain.contents, if_pos (Nat.lt_succ_of_le hp)]
  rfl

theorem fileHeader_eq (hs : Saved (DiskPageIo.mk bytes) h pages chain) : fileHeader bytes = h := by
  rw [fileHeader, filePages_eq hs (Nat.zero_le _)]
  exact hs.header

theorem isSaved_of_saved (hs : Saved (DiskPageIo.mk bytes) h pages chain) : IsSaved bytes := by
  have hp : ∀ p ≤ h.numPages, filePages bytes p = pages p := fun p hp => filePages_eq hs hp
  refine ⟨chain, ?_⟩
  rw [fileHeader_eq hs]
  refine ⟨fun io hio => ?_, hs.wf.congr_hasPage fun p hh => hp p hh.2, ?_⟩
  · refine wp_mono (hs.disk io hio)
      (fun file _ hplain => ⟨hplain.valid, hplain.header, fun p => ?_⟩) fun _ _ => id
    rw [hplain.contents]
    split
    next hlt => rw [hp p (Nat.le_of_lt_succ hlt)]
    next => rfl
  · rw [hp 0 (Nat.zero_le _)]
    exact hs.header

theorem headersPass_iff (hs : IsSaved bytes) :
    HeadersPass bytes ↔ (fileHeader bytes).Valid ∧ AllReadable (fileHeader bytes)
      (filePages bytes) := by
  obtain ⟨chain, hs⟩ := hs
  refine and_congr RecordFileHeader.validate_eq_ok_iff
    ⟨fun hr p hp => ?_, fun hr p hp => ⟨_, (hr p hp).readPageHeader⟩⟩
  obtain ⟨header, hread⟩ := hr p hp
  by_contra hu
  rw [(hs.wf.page p hp).readPageHeader_error hu] at hread
  cases hread

/-! ## Opening and dropping -/

/-- A table that was opened from `bytes` and has nothing to write back. -/
structure Opens (table : DiskTable) (schema : TableSchema) (layout : SchemaLayout)
    (bytes : List UInt8) : Prop where
  ok : ∃ chain, TableOk table (filePages bytes) chain
  schema : table.schema = schema
  layout : table.layout = layout
  header : table.file.header = fileHeader bytes
  clean : Clean table.file bytes

/-- A table that is dropped leaves its pages in the bytes of the file. -/
theorem drop_rowsIn (ht : TableOk table pages chain) :
    ∃ io, table.drop = some io ∧ RowsIn io.file table.layout ∧
      fileHeader io.file = table.file.header ∧
      ∀ p, table.file.header.HasPage p → filePages io.file p = pages p := by
  obtain ⟨io, pages', hdrop, hp, hsaved⟩ := drop_spec ht.holds
  have hhdr := fileHeader_eq hsaved
  have hpages : ∀ p, table.file.header.HasPage p → filePages io.file p = pages p := fun p hh =>
    (filePages_eq hsaved hh.2).trans (hp p (ne_zero_of_hasPage hh))
  refine ⟨io, hdrop, ⟨isSaved_of_saved hsaved, ?_, fun rid data hl => ?_⟩, hhdr, hpages⟩
  · rw [hhdr]
    exact ht.size
  · rw [hhdr, lookup_congr hpages] at hl
    exact ht.encoded rid data hl

/-- A table with nothing to write back leaves the bytes it was opened from. -/
theorem Opens.drop (ho : Opens table schema layout bytes) : table.drop = some ⟨bytes⟩ := by
  obtain ⟨chain, hok⟩ := ho.ok
  obtain ⟨io, -, hdrop, -⟩ := drop_spec hok.holds
  have hio : io.file = bytes := ho.clean.drop_eq hdrop
  exact hdrop.trans (congrArg (fun b => some (DiskPageIo.mk b)) hio)

end Redbase.Database
