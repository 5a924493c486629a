import Redbase.Record.Layout

/-!
# Filters over record bytes

A filter is a tree of comparisons between fields of a record, each a range of its bytes, and
constants. A filter is validated for the record size before it is evaluated, at every node.

An `f32` is its 32 bits here; the only operation on it is `total_cmp`.
-/

namespace Redbase.Record

open Prog Bytes

inductive ScanCompOp where
  | noOp
  | eq
  | ne
  | lt
  | gt
  | le
  | ge
  deriving DecidableEq, Repr

inductive ScanFieldType where
  | int32
  | float32
  | bytes
  deriving DecidableEq, Repr

inductive ScanValue where
  | int32 (number : Int32)
  | float32 (bits : UInt32)
  | bytes (bytes : List UInt8)
  deriving DecidableEq, Repr

structure ScanFieldRef where
  offset : Nat
  length : Nat
  fieldType : ScanFieldType
  deriving DecidableEq, Repr

inductive ScanRhs where
  | value (value : ScanValue)
  | field (field : ScanFieldRef)
  deriving DecidableEq, Repr

structure PredicateClause where
  lhs : ScanFieldRef
  compOp : ScanCompOp
  rhs : ScanRhs
  deriving DecidableEq, Repr

structure CompoundPredicate where
  clauses : List PredicateClause

inductive LogicFilter where
  | clause (clause : PredicateClause)
  | all (filter : CompoundPredicate)
  | and (children : List LogicFilter)
  | or (children : List LogicFilter)
  | not (child : LogicFilter)

/-! ## Fields -/

namespace ScanFieldRef

def int32 (offset : Nat) : ScanFieldRef := ⟨offset, 4, .int32⟩

def float32 (offset : Nat) : ScanFieldRef := ⟨offset, 4, .float32⟩

def bytes (offset length : Nat) : ScanFieldRef := ⟨offset, length, .bytes⟩

def validateForRecord (field : ScanFieldRef) (recordSize : Nat) : Except RecordError Unit := do
  let some «end» := checked 64 (field.offset + field.length)
    | throw (.invalidPredicate "field offset overflows")
  if «end» > recordSize then throw (.predicateOutOfBounds field.offset field.length recordSize)
  match field.fieldType with
  | .int32 =>
      if field.length ≠ 4 then throw (.invalidPredicate "int32 fields must be exactly 4 bytes wide")
  | .float32 =>
      if field.length ≠ 4 then
        throw (.invalidPredicate "float32 fields must be exactly 4 bytes wide")
  | .bytes =>
      if field.length = 0 then throw (.invalidPredicate "byte fields must span at least one byte")

end ScanFieldRef

def fieldBytes (record : List UInt8) (field : ScanFieldRef) : Except RecordError (List UInt8) := do
  field.validateForRecord record.length
  return slice record field.offset field.length

/-! ## Comparisons -/

/-- The integer by which `f32::total_cmp` orders: the bits as an `i32`, the low 31 of them flipped
when the sign bit is set. -/
def totalOrderKey (bits : UInt32) : Int32 :=
  bits.toInt32 ^^^ ((bits.toInt32 >>> 31).toUInt32 >>> 1).toInt32

/-- `lhs.total_cmp(rhs)`. -/
def totalCmp (lhs rhs : UInt32) : Ordering := compare (totalOrderKey lhs) (totalOrderKey rhs)

/-- `i32::from_le_bytes`. -/
def int32OfBytes (bytes : List UInt8) : Int32 := Int32.ofInt (i32OfBytes bytes)

/-- `f32::from_le_bytes`. -/
def float32OfBytes (bytes : List UInt8) : UInt32 := UInt32.ofNat (leNat bytes)

def compareOrdering (ordering : Ordering) : ScanCompOp → Bool
  | .noOp => true
  | .eq => ordering == .eq
  | .ne => ordering != .eq
  | .lt => ordering == .lt
  | .gt => ordering == .gt
  | .le => ordering != .gt
  | .ge => ordering != .lt

def validateValueAgainstField (field : ScanFieldRef) (value : ScanValue) :
    Except RecordError Unit :=
  match field.fieldType, value with
  | .int32, .int32 _ =>
      if field.length = 4 then return ()
      else throw (.invalidPredicate "int32 clauses must compare against a 4-byte Int32 value")
  | .float32, .float32 _ =>
      if field.length = 4 then return ()
      else throw (.invalidPredicate "float32 clauses must compare against a 4-byte Float32 value")
  | .bytes, .bytes bytes =>
      if bytes.length = field.length then return ()
      else throw (.invalidPredicate "byte clause value length must match the declared field length")
  | .int32, _ => throw (.invalidPredicate "int32 clauses must compare against a 4-byte Int32 value")
  | .float32, _ =>
      throw (.invalidPredicate "float32 clauses must compare against a 4-byte Float32 value")
  | .bytes, _ =>
      throw (.invalidPredicate "byte clause value length must match the declared field length")

def compareFieldToValue (field : List UInt8) (fieldType : ScanFieldType) (value : ScanValue) :
    Except RecordError Ordering :=
  match fieldType, value with
  | .int32, .int32 rhs => return compare (int32OfBytes field) rhs
  | .float32, .float32 rhs => return totalCmp (float32OfBytes field) rhs
  | .bytes, .bytes rhs => return compare field rhs
  | _, _ =>
      throw (.invalidPredicate "predicate field type does not match the right-hand value type")

def compareFields (lhs : List UInt8) (fieldType : ScanFieldType) (rhs : List UInt8) : Ordering :=
  match fieldType with
  | .int32 => compare (int32OfBytes lhs) (int32OfBytes rhs)
  | .float32 => totalCmp (float32OfBytes lhs) (float32OfBytes rhs)
  | .bytes => compare lhs rhs

/-! ## Predicates -/

structure ScanPredicate where
  offset : Nat
  length : Nat
  fieldType : ScanFieldType
  compOp : ScanCompOp
  value : Option ScanValue
  deriving DecidableEq, Repr

namespace ScanPredicate

def alwaysTrue : ScanPredicate := ⟨0, 0, .bytes, .noOp, none⟩

def int32 (offset : Nat) (compOp : ScanCompOp) (value : Int32) : ScanPredicate :=
  ⟨offset, 4, .int32, compOp, some (.int32 value)⟩

def float32 (offset : Nat) (compOp : ScanCompOp) (value : UInt32) : ScanPredicate :=
  ⟨offset, 4, .float32, compOp, some (.float32 value)⟩

def bytes (offset length : Nat) (compOp : ScanCompOp) (value : List UInt8) : ScanPredicate :=
  ⟨offset, length, .bytes, compOp, some (.bytes value)⟩

def validateForRecord (p : ScanPredicate) (recordSize : Nat) : Except RecordError Unit := do
  if p.compOp = .noOp then return ()
  let some «end» := checked 64 (p.offset + p.length)
    | throw (.invalidPredicate "predicate offset overflows")
  if «end» > recordSize then throw (.predicateOutOfBounds p.offset p.length recordSize)
  match p.fieldType, p.length, p.value with
  | .int32, 4, some (.int32 _) => return ()
  | .float32, 4, some (.float32 _) => return ()
  | .bytes, 0, _ => throw (.invalidPredicate "byte predicates must compare at least one byte")
  | .bytes, length, some (.bytes bytes) =>
      if bytes.length = length then return ()
      else
        throw (.invalidPredicate "byte predicate value length must match the declared field length")
  | _, _, none => throw (.invalidPredicate "non-NO_OP predicates require a right-hand value")
  | .int32, _, _ => throw (.invalidPredicate "int32 predicates must use a 4-byte Int32 value")
  | .float32, _, _ => throw (.invalidPredicate "float32 predicates must use a 4-byte Float32 value")
  | .bytes, _, _ =>
      throw (.invalidPredicate "byte predicate value length must match the declared field length")

/-- Its comparison is that of `compare_field_to_value`. -/
def «matches» (p : ScanPredicate) (record : List UInt8) : Except RecordError Bool := do
  p.validateForRecord record.length
  if p.compOp = .noOp then return true
  let some value := p.value
    | throw (.invalidPredicate "non-NO_OP predicates require a right-hand value")
  let ordering ← compareFieldToValue (slice record p.offset p.length) p.fieldType value
  return compareOrdering ordering p.compOp

end ScanPredicate

/-! ## Clauses -/

namespace PredicateClause

def fieldEqualsValue (lhs : ScanFieldRef) (compOp : ScanCompOp) (value : ScanValue) :
    PredicateClause :=
  ⟨lhs, compOp, .value value⟩

def fieldComparesField (lhs : ScanFieldRef) (compOp : ScanCompOp) (rhs : ScanFieldRef) :
    PredicateClause :=
  ⟨lhs, compOp, .field rhs⟩

def validateForRecord (clause : PredicateClause) (recordSize : Nat) : Except RecordError Unit := do
  if clause.compOp = .noOp then return ()
  clause.lhs.validateForRecord recordSize
  match clause.rhs with
  | .value value => validateValueAgainstField clause.lhs value
  | .field rhs =>
      rhs.validateForRecord recordSize
      if clause.lhs.fieldType ≠ rhs.fieldType ∨ clause.lhs.length ≠ rhs.length then
        throw (.invalidPredicate "field-to-field comparisons require matching types and lengths")

def «matches» (clause : PredicateClause) (record : List UInt8) : Except RecordError Bool := do
  clause.validateForRecord record.length
  if clause.compOp = .noOp then return true
  let lhs ← fieldBytes record clause.lhs
  match clause.rhs with
  | .value value =>
      let ordering ← compareFieldToValue lhs clause.lhs.fieldType value
      return compareOrdering ordering clause.compOp
  | .field rhs =>
      let rhsBytes ← fieldBytes record rhs
      return compareOrdering (compareFields lhs clause.lhs.fieldType rhsBytes) clause.compOp

end PredicateClause

namespace CompoundPredicate

def and (clauses : List PredicateClause) : Except RecordError CompoundPredicate :=
  if clauses.isEmpty then
    throw (.invalidPredicate "compound predicates must contain at least one clause")
  else return ⟨clauses⟩

def validateForRecord (filter : CompoundPredicate) (recordSize : Nat) : Except RecordError Unit :=
  filter.clauses.forM fun clause => clause.validateForRecord recordSize

/-- The loop of `matches`. -/
def allMatch (record : List UInt8) : List PredicateClause → Except RecordError Bool
  | [] => return true
  | clause :: rest => do if ← clause.matches record then allMatch record rest else return false

def «matches» (filter : CompoundPredicate) (record : List UInt8) : Except RecordError Bool := do
  filter.validateForRecord record.length
  allMatch record filter.clauses

end CompoundPredicate

/-! ## Filters -/

/-- The check of `validate_logic_children` on the number of children; `rest` is its loop. -/
def validateLogicChildren (children : List LogicFilter) (nodeName : String)
    (rest : Except RecordError Unit) : Except RecordError Unit :=
  if children.isEmpty then
    throw (.invalidPredicate (match nodeName with
      | "AND" => "logic AND nodes must contain at least one child"
      | "OR" => "logic OR nodes must contain at least one child"
      | _ => "logic nodes must contain at least one child"))
  else rest

namespace LogicFilter

/-- `LogicFilter::and`. -/
def mkAnd (children : List LogicFilter) : Except RecordError LogicFilter :=
  if children.isEmpty then
    throw (.invalidPredicate "logic AND nodes must contain at least one child")
  else return .and children

/-- `LogicFilter::or`. -/
def mkOr (children : List LogicFilter) : Except RecordError LogicFilter :=
  if children.isEmpty then
    throw (.invalidPredicate "logic OR nodes must contain at least one child")
  else return .or children

def negate (child : LogicFilter) : LogicFilter := .not child

mutual

def validateForRecord (recordSize : Nat) : LogicFilter → Except RecordError Unit
  | .clause c => c.validateForRecord recordSize
  | .all filter => filter.validateForRecord recordSize
  | .and children => validateLogicChildren children "AND" (validateEach recordSize children)
  | .or children => validateLogicChildren children "OR" (validateEach recordSize children)
  | .not child => validateForRecord recordSize child

def validateEach (recordSize : Nat) : List LogicFilter → Except RecordError Unit
  | [] => return ()
  | child :: rest => do
      validateForRecord recordSize child
      validateEach recordSize rest

end

mutual

def «matches» (record : List UInt8) : LogicFilter → Except RecordError Bool
  | .clause c => do
      validateForRecord record.length (.clause c)
      c.matches record
  | .all filter => do
      validateForRecord record.length (.all filter)
      filter.matches record
  | .and children => do
      validateForRecord record.length (.and children)
      andMatches record children
  | .or children => do
      validateForRecord record.length (.or children)
      orMatches record children
  | .not child => do
      validateForRecord record.length (.not child)
      return !(← LogicFilter.matches record child)

/-- The loop of an `And` node. -/
def andMatches (record : List UInt8) : List LogicFilter → Except RecordError Bool
  | [] => return true
  | child :: rest =>
      do if ← LogicFilter.matches record child then andMatches record rest else return false

/-- The loop of an `Or` node. -/
def orMatches (record : List UInt8) : List LogicFilter → Except RecordError Bool
  | [] => return false
  | child :: rest =>
      do if ← LogicFilter.matches record child then return true else orMatches record rest

end

end LogicFilter

end Redbase.Record
