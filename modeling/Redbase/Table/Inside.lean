import Redbase.Table.Table
import Redbase.Record.Invariant

/-!
# Reading inside the record

A record is as long as the header of its file says, and the columns are where the schema in the
catalog puts them. Whether decoding stays inside the record is a matter of both.
-/

namespace Redbase.Table

open Prog Bytes Text Page Record

/-- The bytes of the column are a value of its type. -/
def Legible (record : List UInt8) (column : LayoutColumn) : Prop :=
  match column.columnType with
  | .char len => (fromUtf8 (trimZeros (slice record column.offset len))).isSome
  | _ => True

/-- No column is read beyond the end of the record: decoding gives up at the first one that is not
legible. -/
def StaysInside (record : List UInt8) : List LayoutColumn → Prop
  | [] => True
  | column :: rest =>
      column.offset + column.columnType.fixedLen ≤ record.length ∧
        (Legible record column → StaysInside record rest)

/-- The records of the file are long enough for the layout, or none that can be read is too
short. -/
def FitsRecords (layout : SchemaLayout) (h : RecordFileHeader) (pages : Nat → Option PageData) :
    Prop :=
  layout.recordSize ≤ h.recordSize ∨
    ∀ rid record, recordIn h pages rid = some record → StaysInside record.data layout.columns

/-- The calls that read records of a table. -/
inductive Call where
  | scan (expr : Option Expr)
  | rowsByRids (rids : List Rid)
  | updateWhere (expr : Option Expr) (assignments : List (String × Value))
  | deleteWhere (expr : Option Expr)

section Calls

variable {I : Type} [PageIo I] {cap : Nat}

def Call.run : Call → TableM I cap Unit
  | .scan expr => do let _ ← Table.scan expr
  | .rowsByRids rids => do let _ ← Table.rowsByRids rids
  | .updateWhere expr assignments => do let _ ← Table.updateWhere expr assignments
  | .deleteWhere expr => do let _ ← Table.deleteWhere expr

/-- Each of the calls, made one after the other, returns or reports an error. -/
def EndsWell : List Call → Table I cap → Prop
  | [], _ => True
  | call :: rest, s =>
      (∀ why, thrown (call.run s) = some why → Reports why) ∧ EndsWell rest (final (call.run s))

end Calls

end Redbase.Table
