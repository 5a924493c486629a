import Redbase.Table.Codec

/-!
# Expressions over rows

An expression compares columns by name with constants and with each other. `compileExpr` turns it
into a filter over the bytes of a record; `Expr.eval` is what it means on a row.
-/

namespace Redbase.Table

open Prog Bytes Text Record

inductive Expr where
  | cmpValue (column : String) (op : ScanCompOp) (value : Value)
  | cmpColumns (lhs : String) (op : ScanCompOp) (rhs : String)
  | and (children : List Expr)
  | or (children : List Expr)
  | not (child : Expr)

/-! ## Compiling -/

def scanField (column : LayoutColumn) : ScanFieldRef :=
  match column.columnType with
  | .int32 => .int32 column.offset
  | .float32 => .float32 column.offset
  | .char len => .bytes column.offset len

def scanValue (column : LayoutColumn) (value : Value) : Except TableError ScanValue :=
  match column.columnType, value with
  | .int32, .int32 number => return .int32 number
  | .float32, .float32 bits => return .float32 bits
  | .char len, .char text =>
      let encoded := utf8 text
      if encoded.length > len then throw (.valueTypeMismatch column.name "Char" "Char")
      else return .bytes (overwrite (List.replicate len 0) 0 encoded)
  | _, value => throw (.invalidSchema (match value with
      | .int32 _ => "int32 expression does not match the selected column type"
      | .float32 _ => "float32 expression does not match the selected column type"
      | .char _ => "char expression does not match the selected column type"))

mutual

def compileExpr (layout : SchemaLayout) : Expr → Except TableError LogicFilter
  | .cmpValue column op value => do
      let column ← layout.column column
      let field := scanField column
      let value ← scanValue column value
      return .clause (.fieldEqualsValue field op value)
  | .cmpColumns lhs op rhs => do
      let lhs ← layout.column lhs
      let rhs ← layout.column rhs
      return .clause (.fieldComparesField (scanField lhs) op (scanField rhs))
  | .and children => do
      let compiled ← compileExprs layout children
      (LogicFilter.mkAnd compiled).mapError .record
  | .or children => do
      let compiled ← compileExprs layout children
      (LogicFilter.mkOr compiled).mapError .record
  | .not child => do return .negate (← compileExpr layout child)

/-- The children of a node, up to the first error. -/
def compileExprs (layout : SchemaLayout) : List Expr → Except TableError (List LogicFilter)
  | [] => return []
  | child :: rest => do
      let filter ← compileExpr layout child
      let filters ← compileExprs layout rest
      return filter :: filters

end

/-! ## Meaning -/

/-- What is left of a value when it is read back: a text without its trailing NULs. -/
def Value.stored : Value → Value
  | .char text => .char (trimNul text)
  | .int32 number => .int32 number
  | .float32 bits => .float32 bits

def compareValues (lhs rhs : Value) : Ordering :=
  match lhs, rhs with
  | .int32 left, .int32 right => compare left right
  | .float32 left, .float32 right => totalCmp left right
  | .char left, .char right => compareText left right
  | _, _ => .eq

/-- What an operator says about the order of its operands. -/
def meaning : ScanCompOp → Ordering → Bool
  | .noOp => fun _ => true
  | .eq => Ordering.isEq
  | .ne => Ordering.isNe
  | .lt => Ordering.isLT
  | .gt => Ordering.isGT
  | .le => Ordering.isLE
  | .ge => Ordering.isGE

/-- The value that a row of `schema` has in a column. -/
def Row.field (schema : TableSchema) (row : Row) (column : String) : Option Value :=
  ((schema.columns.map ColumnSchema.name).zip row.values).lookup column

namespace Expr

mutual

/-- The value of an expression where `field` gives the values of the columns. -/
def eval (field : String → Option Value) : Expr → Option Bool
  | .cmpValue column op value => do
      let lhs ← field column
      return meaning op (compareValues lhs value.stored)
  | .cmpColumns lhs op rhs => do
      let lhs ← field lhs
      let rhs ← field rhs
      return meaning op (compareValues lhs rhs)
  | .and children => do return (← evalEach field children).all id
  | .or children => do return (← evalEach field children).any id
  | .not child => do return !(← eval field child)

def evalEach (field : String → Option Value) : List Expr → Option (List Bool)
  | [] => return []
  | child :: rest => do
      let value ← eval field child
      let values ← evalEach field rest
      return value :: values

end

end Expr

end Redbase.Table
