import Redbase.Table.Expr
import Redbase.Record.File

/-!
# Tables

An open table is a schema, its layout and a record file whose records are encoded rows.
-/

namespace Redbase.Table

open Prog Bytes Page Record Index

set_option linter.dupNamespace false

structure Table (I : Type) (cap : Nat) where
  schema : TableSchema
  layout : SchemaLayout
  file : RecordFile I cap

abbrev TableM (I : Type) (cap : Nat) := EStateM (Stop TableError) (Table I cap)

/-- An error of the record file as one of the table. -/
def recordError : Stop RecordError → Stop TableError := Stop.map .record

namespace Table

variable {I : Type} [PageIo I] {cap : Nat} {α : Type}

/-- `?` on a check that needs no state. -/
def check (x : Except TableError α) : TableM I cap α := lift (x.mapError .error)

/-- A method of the record file with `?`. -/
def liftFile (m : RecordM I cap α) : TableM I cap α :=
  mapError recordError (zoom (·.file) (fun file s => { s with file }) m)

/-- A loop over a scan of the file; the scan gives the file back. -/
def scanning (predicate : List UInt8 → Except RecordError Bool)
    (loop : EStateM (Stop TableError) (RecordScan I cap) α) : TableM I cap α :=
  zoom (fun s => s.file.scanWith predicate) (fun scan s => { s with file := scan.file }) loop

/-- The predicate of a scan: `scan` without an expression, else `scan_with_logic`. -/
def scanPredicate (expr : Option Expr) : TableM I cap (List UInt8 → Except RecordError Bool) := do
  match expr with
  | none => return alwaysMatch
  | some expr =>
      let filter ← check (compileExpr (← get).layout expr)
      let scan ← check (((← get).file.scanWithLogic filter).mapError .record)
      return scan.predicate

/-- The loop of `scan`, for `fuel` rows at most. -/
def scanRows (layout : SchemaLayout) : Nat → EStateM (Stop TableError) (RecordScan I cap) (List Row)
  | 0 => throw .diverge
  | fuel + 1 => do
      let some record ← mapError recordError RecordScan.nextRecord | return []
      let row ← lift (decodeRecord layout record)
      let rows ← scanRows layout fuel
      return row :: rows

def insert (values : List Value) : TableM I cap Rid := do
  let bytes ← check (encodeRow (← get).layout values)
  liftFile (RecordFile.insert bytes)

def scan (expr : Option Expr) : TableM I cap (List Row) := do
  let predicate ← scanPredicate expr
  let s ← get
  scanning predicate (scanRows s.layout (s.file.header.numPages * s.file.header.slotsPerPage + 1))

def collectRecords (expr : Option Expr) : TableM I cap (List Record) := do
  let predicate ← scanPredicate expr
  scanning predicate (mapError recordError RecordScan.collect)

def rowsByRids : List Rid → TableM I cap (List Row)
  | [] => return []
  | rid :: rids => do
      let record ← liftFile (RecordFile.get rid)
      let row ← lift (decodeRecord (← get).layout record)
      let rows ← rowsByRids rids
      return row :: rows

/-- The loop over the assignments of `update_where`. -/
def assign (layout : SchemaLayout) (values : List Value) :
    List (String × Value) → Except TableError (List Value)
  | [] => return values
  | (columnName, value) :: rest => do
      let index ← layout.columnIndex columnName
      assign layout (values.set index value) rest

/-- The loop over the records of `update_where`: the number of rows it changed. -/
def updateRecords (assignments : List (String × Value)) : List Record → TableM I cap Nat
  | [] => return 0
  | record :: rest => do
      let layout := (← get).layout
      let row ← lift (decodeRecord layout record)
      let values ← check (assign layout row.values assignments)
      let bytes ← check (encodeRow layout values)
      liftFile (RecordFile.update record.rid bytes)
      let affectedRows ← updateRecords assignments rest
      return affectedRows + 1

def updateWhere (expr : Option Expr) (assignments : List (String × Value)) : TableM I cap Nat := do
  let records ← collectRecords expr
  updateRecords assignments records

/-- The loop over the records of `delete_where`. -/
def deleteRecords : List Record → TableM I cap Nat
  | [] => return 0
  | record :: rest => do
      liftFile (RecordFile.delete record.rid)
      let affectedRows ← deleteRecords rest
      return affectedRows + 1

def deleteWhere (expr : Option Expr) : TableM I cap Nat := do
  let records ← collectRecords expr
  deleteRecords records

/-- The entry of a record in an index on column number `index`. -/
def indexEntry (layout : SchemaLayout) (index : Nat) (record : Record) :
    Except (Stop TableError) IndexEntry := do
  let row ← decodeRecord layout record
  match row.values[index]? with
  | some (.int32 key) => return ⟨key, record.rid⟩
  | some _ => throw (.error (.invalidSchema "int32 index requested on non-int32 column"))
  | none => throw .panic

def indexEntriesForInt32Column (column : String) : TableM I cap (List IndexEntry) := do
  let layout := (← get).layout
  let index ← check (layout.columnIndex column)
  let records ← collectRecords none
  lift (records.mapM (indexEntry layout index))

/-- What is left of the `PageIo` when the table is dropped. -/
def drop (s : Table I cap) : Option I := s.file.drop

end Table

end Redbase.Table
