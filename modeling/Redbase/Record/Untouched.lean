import Redbase.Record.Live
import Redbase.Record.Run

/-!
# What a failed operation leaves

The runs of operations on a record file that was opened over any bytes, and the inserts that change
a file before they find out that they fail.
-/

namespace Redbase.Record

open Bytes Page RecordFile

section Definitions

variable {I : Type} [ByteIo I] {cap cap' : Nat}

/-- Every page shows the bytes that it showed, and the header of the record file is the same. -/
structure Untouched (s : RecordFile I cap) (t : RecordFile I cap') : Prop where
  pages : ∀ p, shows t p = shows s p
  header : t.header = s.header

/-- The page has a slot that is marked free, and its counter says that there is none. -/
def Overdrawn (s : RecordFile I cap) (p : Nat) : Prop :=
  ∃ bytes header slot, shows s p = some bytes ∧ readPageHeader s.header bytes = .ok header ∧
    header.numFreeSlots = 0 ∧
      findFirstFreeSlot (bitmap bytes s.header.slotsPerPage) s.header.slotsPerPage = some slot

/-- There is no id for a further data page, or the page that the page file hands out is in a
frame. -/
def Unallocatable (s : RecordFile I cap) : Prop :=
  2 ^ 32 ≤ s.header.numPages + 1 ∨
    ∃ file frameId, s.pool.files s.fileId = some file ∧
      s.pool.pageTable ⟨s.fileId, nextPageId file⟩ = some frameId

/-- An insert of a record that changes the file and fails. -/
def Spoils (s : RecordFile I cap) : Op → Prop
  | .insert data => data.length = s.header.recordSize ∧
      if s.header.firstFreePage = recordPageListEnd then Unallocatable s
      else Overdrawn s (asU32 s.header.firstFreePage)
  | _ => False

/-- The runs on an open file whose operations meet `ok`. -/
inductive Calls (ok : (s : Opened I) → Op → Prop) (s : Opened I) : Opened I → Prop
  | start : Calls ok s s
  | step {t : Opened I} (op : Op) : Calls ok s t → ok t op → Calls ok s (step t op).1

end Definitions

end Redbase.Record
