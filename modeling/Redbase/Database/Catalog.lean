import Redbase.Table.Schema
import Redbase.Files.Disk
import Redbase.Lib.Decimal
import Redbase.Lib.SortedMap

/-!
# The catalog of the tables

What tables there are, by name, in memory and in the file `catalog.txt`.
-/

namespace Redbase.Database

open Prog Text Page Files Table

def catalogPath : String := "catalog.txt"

def tablePath (name : String) : String := name ++ ".tbl"

def catalogHeader : String := "rs-redbase-catalog-v1"

structure RelationMeta where
  name : String
  recordSize : Nat
  columnCount : Nat
  deriving DecidableEq, Repr

structure AttributeMeta where
  relationName : String
  columnName : String
  ordinal : Nat
  offset : Nat
  length : Nat
  columnType : ColumnType
  deriving DecidableEq, Repr

structure Catalog where
  tables : SortedMap String TableSchema compareText

namespace Catalog

def empty : Catalog := ⟨SortedMap.empty⟩

/-! ## Loading -/

/-- What has been read of the file. -/
structure Draft where
  tables : SortedMap String TableSchema compareText
  currentTable : Option TableSchema

namespace Draft

/-- A column of the current table. -/
def pushColumn (draft : Draft) (name : String) (columnType : ColumnType) :
    Except TableError Draft :=
  match draft.currentTable with
  | none => throw (.catalogCorrupted "column outside table")
  | some table =>
      return { draft with
        currentTable := some { table with columns := table.columns ++ [⟨name, columnType⟩] } }

/-- The fields of one line. -/
def addFields (draft : Draft) : List String → Except TableError Draft
  | [tag] =>
      if tag = "end" then
        match draft.currentTable with
        | none => throw (.catalogCorrupted "end without table")
        | some table => do
            let _ ← compileSchema table
            return ⟨draft.tables.insert table.name table, none⟩
      else throw (.catalogCorrupted "unrecognized catalog line")
  | [tag, tableName] =>
      if tag = "table" then
        if draft.currentTable.isSome then throw (.catalogCorrupted "nested table declaration")
        else return { draft with currentTable := some ⟨tableName, []⟩ }
      else throw (.catalogCorrupted "unrecognized catalog line")
  | [tag, columnName, kind] =>
      if tag = "column" ∧ kind = "int32" then draft.pushColumn columnName .int32
      else if tag = "column" ∧ kind = "float32" then draft.pushColumn columnName .float32
      else throw (.catalogCorrupted "unrecognized catalog line")
  | [tag, columnName, kind, len] =>
      if tag = "column" ∧ kind = "char" then
        if draft.currentTable.isNone then throw (.catalogCorrupted "column outside table")
        else
          match parseUnsigned 64 len with
          | none => throw (.catalogCorrupted "invalid char length")
          | some len => draft.pushColumn columnName (.char len)
      else throw (.catalogCorrupted "unrecognized catalog line")
  | _ => throw (.catalogCorrupted "unrecognized catalog line")

/-- The loop of `load` over the lines after the first. -/
def addLines (draft : Draft) : List String → Except TableError Draft
  | [] => return draft
  | line :: rest =>
      if line = "" then addLines draft rest
      else do addLines (← draft.addFields (fields line)) rest

end Draft

def load (d : Disk) : Except TableError Catalog :=
  if d.pathExists catalogPath = false then return empty
  else do
    let content ← (d.readToString catalogPath).mapError .io
    match lines content with
    | [] => return empty
    | header :: rest =>
        if header ≠ catalogHeader then throw (.catalogCorrupted "unexpected catalog header")
        else do
          let draft ← (⟨SortedMap.empty, none⟩ : Draft).addLines rest
          if draft.currentTable.isSome then throw (.catalogCorrupted "unterminated table entry")
          else return ⟨draft.tables⟩

/-! ## Saving -/

/-- The line of a column. -/
def columnRow (column : ColumnSchema) : List String :=
  match column.columnType with
  | .int32 => ["column", column.name, "int32"]
  | .float32 => ["column", column.name, "float32"]
  | .char len => ["column", column.name, "char", toString len]

/-- The lines of a table. -/
def tableRows (table : TableSchema) : List (List String) :=
  ["table", table.name] :: (table.columns.map columnRow ++ [["end"]])

/-- The file that `save` writes. -/
def content (catalog : Catalog) : String :=
  fileText ([catalogHeader] :: catalog.tables.values.flatMap tableRows)

def save (catalog : Catalog) : EStateM TableError Disk Unit :=
  mapError .io (Disk.write catalogPath catalog.content)

/-! ## Lookups -/

def contains (catalog : Catalog) (name : String) : Bool := catalog.tables.contains name

def insert (catalog : Catalog) (schema : TableSchema) : Catalog :=
  ⟨catalog.tables.insert schema.name schema⟩

def remove (catalog : Catalog) (name : String) : Catalog := ⟨catalog.tables.erase name⟩

def listTables (catalog : Catalog) : List String := catalog.tables.keys

def getTableSchema (catalog : Catalog) (name : String) : Except TableError TableSchema :=
  match catalog.tables.find name with
  | some schema => return schema
  | none => throw (.tableNotFound name)

def getRelation (catalog : Catalog) (name : String) : Except TableError RelationMeta := do
  let schema ← catalog.getTableSchema name
  let layout ← compileSchema schema
  return ⟨schema.name, layout.recordSize, schema.columns.length⟩

def getAttributes (catalog : Catalog) (name : String) : Except TableError (List AttributeMeta) := do
  let schema ← catalog.getTableSchema name
  let layout ← compileSchema schema
  return layout.columns.mapIdx fun ordinal column =>
    ⟨schema.name, column.name, ordinal, column.offset, column.columnType.fixedLen,
      column.columnType⟩

end Catalog

end Redbase.Database
