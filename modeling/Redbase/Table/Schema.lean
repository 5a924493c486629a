import Redbase.Lib.Text
import Redbase.Index.Catalog

/-!
# Schemas

A schema names the columns of a table and their types; its layout gives each column its place in a
record. `compileSchema` lays the columns out one after the other.
-/

namespace Redbase.Table

open Prog Bytes Text Page Record Index

inductive ColumnType where
  | int32
  | float32
  | char (len : Nat)
  deriving DecidableEq, Repr

namespace ColumnType

def fixedLen : ColumnType → Nat
  | .int32 => 4
  | .float32 => 4
  | .char len => len

def kindName : ColumnType → String
  | .int32 => "Int32"
  | .float32 => "Float32"
  | .char _ => "Char"

end ColumnType

structure ColumnSchema where
  name : String
  columnType : ColumnType
  deriving DecidableEq, Repr

structure TableSchema where
  name : String
  columns : List ColumnSchema
  deriving DecidableEq, Repr

/-- A `Float32` is its 32 bits. -/
inductive Value where
  | int32 (number : Int32)
  | float32 (bits : UInt32)
  | char (text : String)
  deriving DecidableEq, Repr

def Value.kindName : Value → String
  | .int32 _ => "Int32"
  | .float32 _ => "Float32"
  | .char _ => "Char"

structure Row where
  values : List Value
  deriving DecidableEq, Repr

inductive TableError where
  | io (error : IoError)
  | index (error : IndexError)
  | record (error : RecordError)
  | invalidName (name : String)
  | invalidSchema (message : String)
  | duplicateTable (name : String)
  | duplicateColumn (name : String)
  | tableNotFound (name : String)
  | columnNotFound (name : String)
  | valueCountMismatch (expected actual : Nat)
  | valueTypeMismatch (column expected actual : String)
  | catalogCorrupted (message : String)
  deriving DecidableEq, Repr

/-! ## Layouts -/

structure LayoutColumn where
  name : String
  columnType : ColumnType
  offset : Nat
  deriving DecidableEq, Repr

structure SchemaLayout where
  columns : List LayoutColumn
  recordSize : Nat
  deriving DecidableEq, Repr

namespace SchemaLayout

def column (layout : SchemaLayout) (name : String) : Except TableError LayoutColumn :=
  match layout.columns.find? fun column => column.name = name with
  | some column => return column
  | none => throw (.columnNotFound name)

def columnIndex (layout : SchemaLayout) (name : String) : Except TableError Nat :=
  match layout.columns.findIdx? fun column => column.name = name with
  | some index => return index
  | none => throw (.columnNotFound name)

end SchemaLayout

/-- `byte.is_ascii_alphanumeric() || byte == b'_'`. -/
def isIdentifierByte (byte : UInt8) : Bool :=
  (48 ≤ byte && byte ≤ 57) || (65 ≤ byte && byte ≤ 90) || (97 ≤ byte && byte ≤ 122) || byte == 95

def validateIdentifier (name : String) : Except TableError Unit :=
  if name ≠ "" ∧ (utf8 name).all isIdentifierByte then return () else throw (.invalidName name)

/-- The loop of `compile_schema`: the columns from `offset` on, where `seenNames` come before them.
The layout of the columns comes with the end of the last one. -/
def compileColumns (seenNames : List String) (offset : Nat) :
    List ColumnSchema → Except TableError (List LayoutColumn × Nat)
  | [] => return ([], offset)
  | column :: rest => do
      validateIdentifier column.name
      if column.name ∈ seenNames then throw (.duplicateColumn column.name)
      let len := column.columnType.fixedLen
      if len = 0 then throw (.invalidSchema "column length must be greater than zero")
      let some next := checked 64 (offset + len) | throw (.invalidSchema "record size overflow")
      let (columns, recordSize) ← compileColumns (column.name :: seenNames) next rest
      return (⟨column.name, column.columnType, offset⟩ :: columns, recordSize)

def compileSchema (schema : TableSchema) : Except TableError SchemaLayout := do
  validateIdentifier schema.name
  if schema.columns.isEmpty then throw (.invalidSchema "tables must contain at least one column")
  let (columns, recordSize) ← compileColumns [] 0 schema.columns
  return ⟨columns, recordSize⟩

end Redbase.Table
