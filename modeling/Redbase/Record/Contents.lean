import Redbase.Record.Invariant
import Redbase.Record.Untouched

/-!
# The records of a file of any bytes

What a file shows under its record ids is a partial map, whether the file is in order or not.
-/

namespace Redbase.Record

open Bytes Page RecordFile Function

section Definitions

variable {I : Type} [ByteIo I] {cap : Nat}

/-- The bytes under a record id: of a slot that is marked used, on a page whose header passes its
checks. -/
def held (s : RecordFile I cap) (rid : Rid) : Option (List UInt8) :=
  (recordIn s.header (shows s) rid).map Record.data

/-- No page counts more free slots than its bitmap has. -/
def Counted (s : RecordFile I cap) : Prop :=
  ∀ p bytes header, s.header.HasPage p → shows s p = some bytes →
    readPageHeader s.header bytes = .ok header →
    header.numFreeSlots ≤ Bitmap.count (bitmap bytes s.header.slotsPerPage) s.header.slotsPerPage

/-- The operations on the records that are there. -/
def Stays : Op → Prop
  | .insert _ | .reopen _ _ => False
  | .get _ | .update _ _ | .delete _ | .flush | .scan => True

end Definitions

/-- What a partial map from record ids to `size` bytes answers to an operation, and the map after
it. A scan goes through when every page is `readable`. -/
inductive MapStep (size : Nat) (readable : Prop) (m : Rid → Option (List UInt8)) :
    Op → Reply → (Rid → Option (List UInt8)) → Prop
  | got {rid : Rid} {data : List UInt8} (found : m rid = some data) :
      MapStep size readable m (.get rid) (.got ⟨rid, data⟩) m
  | notGot {rid : Rid} {why : Prog.Stop RecordError} (missing : m rid = none) :
      MapStep size readable m (.get rid) (.failed why) m
  | updated {rid : Rid} {data : List UInt8} (found : m rid ≠ none) (length : data.length = size) :
      MapStep size readable m (.update rid data) .done (update m rid (some data))
  | notUpdated {rid : Rid} {data : List UInt8} {why : Prog.Stop RecordError}
      (bad : data.length = size → m rid = none) :
      MapStep size readable m (.update rid data) (.failed why) m
  | deleted {rid : Rid} (found : m rid ≠ none) :
      MapStep size readable m (.delete rid) .done (update m rid none)
  | notDeleted {rid : Rid} {why : Prog.Stop RecordError} (missing : m rid = none) :
      MapStep size readable m (.delete rid) (.failed why) m
  | flushed : MapStep size readable m .flush .done m
  | scanned {records : List Record} (all : readable)
      (inOrder : records.Pairwise fun a b => a.rid.Before b.rid)
      (mem_iff : ∀ record, record ∈ records ↔ m record.rid = some record.data) :
      MapStep size readable m .scan (.scanned records) m
  | notScanned {why : Prog.Stop RecordError} (stuck : ¬ readable) :
      MapStep size readable m .scan (.failed why) m

end Redbase.Record
