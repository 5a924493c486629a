import Redbase.Table.Schema
import Redbase.Record.Filter

/-!
# Rows as records

Each value is written at the offset of its column: numbers little-endian, text as its UTF-8 bytes
and zeros up to the declared length. A compiled layout lies inside the record it is encoded to; the
bytes that are decoded come from a file and may be too few.
-/

namespace Redbase.Table

open Prog Bytes Text Record

def encodeValue (target : List UInt8) (column : LayoutColumn) (value : Value) :
    Except TableError (List UInt8) :=
  match column.columnType, value with
  | .int32, .int32 number => return overwrite target column.offset (i32Bytes number.toInt)
  | .float32, .float32 bits => return overwrite target column.offset (u32Bytes bits.toNat)
  | .char len, .char text =>
      let encoded := utf8 text
      if encoded.length > len then
        throw (.invalidSchema "char values must not exceed the declared length")
      else
        return overwrite (overwrite target column.offset (List.replicate len 0))
          column.offset encoded
  | expected, actual => throw (.valueTypeMismatch column.name expected.kindName actual.kindName)

/-- The loop of `encode_row`. -/
def encodeValues (target : List UInt8) :
    List (LayoutColumn × Value) → Except TableError (List UInt8)
  | [] => return target
  | (column, value) :: rest => do
      let target ← encodeValue target column value
      encodeValues target rest

def encodeRow (layout : SchemaLayout) (values : List Value) : Except TableError (List UInt8) :=
  if values.length ≠ layout.columns.length then
    throw (.valueCountMismatch layout.columns.length values.length)
  else encodeValues (List.replicate layout.recordSize 0) (layout.columns.zip values)

/-- `bytes[start..start + len]`. -/
def sliceAt (bytes : List UInt8) (start len : Nat) : Except (Stop TableError) (List UInt8) :=
  if start + len ≤ bytes.length then return slice bytes start len else throw .panic

def decodeValue (bytes : List UInt8) (column : LayoutColumn) : Except (Stop TableError) Value := do
  let raw ← sliceAt bytes column.offset column.columnType.fixedLen
  match column.columnType with
  | .int32 => return .int32 (int32OfBytes raw)
  | .float32 => return .float32 (float32OfBytes raw)
  | .char _ =>
      match fromUtf8 (trimZeros raw) with
      | some value => return .char value
      | none => throw (.error (.catalogCorrupted "stored char data is not valid UTF-8"))

def decodeRecord (layout : SchemaLayout) (record : Record) : Except (Stop TableError) Row := do
  let values ← layout.columns.mapM fun column => decodeValue record.data column
  return ⟨values⟩

end Redbase.Table
