import Redbase.Record.Filter

/-!
# What a filter says

The Boolean value of a filter on a record, apart from how it is validated and evaluated. There is
none when a field lies outside of the record, is not as wide as its type, or is compared with a
value of another type.
-/

namespace Redbase.Record

open Bytes

def ScanFieldType.decode (bytes : List UInt8) : ScanFieldType → ScanValue
  | .int32 => .int32 (int32OfBytes bytes)
  | .float32 => .float32 (float32OfBytes bytes)
  | .bytes => .bytes bytes

/-- The typed value of a range of the record's bytes. -/
def ScanFieldRef.denote (field : ScanFieldRef) (record : List UInt8) : Option ScanValue :=
  if record.length < field.offset + field.length then none
  else if field.fieldType ≠ .bytes ∧ field.length ≠ 4 then none
  else some (field.fieldType.decode (slice record field.offset field.length))

def ScanRhs.denote (record : List UInt8) : ScanRhs → Option ScanValue
  | .value v => some v
  | .field f => f.denote record

def ScanValue.compare : ScanValue → ScanValue → Option Ordering
  | .int32 lhs, .int32 rhs => some (Ord.compare lhs rhs)
  | .float32 lhs, .float32 rhs => some (totalCmp lhs rhs)
  | .bytes lhs, .bytes rhs => some (Ord.compare lhs rhs)
  | _, _ => none

def PredicateClause.denote (clause : PredicateClause) (record : List UInt8) : Option Bool :=
  if clause.compOp = .noOp then some true
  else do
    let lhs ← clause.lhs.denote record
    let rhs ← clause.rhs.denote record
    let ordering ← lhs.compare rhs
    return compareOrdering ordering clause.compOp

def CompoundPredicate.denote (filter : CompoundPredicate) (record : List UInt8) : Option Bool := do
  let values ← filter.clauses.mapM fun clause => clause.denote record
  return values.all id

namespace LogicFilter

mutual

def denote (record : List UInt8) : LogicFilter → Option Bool
  | .clause c => c.denote record
  | .all filter => filter.denote record
  | .and children => return (← denoteEach record children).all id
  | .or children => return (← denoteEach record children).any id
  | .not child => return !(← denote record child)

def denoteEach (record : List UInt8) : List LogicFilter → Option (List Bool)
  | [] => some []
  | child :: rest => return (← denote record child) :: (← denoteEach record rest)

end

end LogicFilter

end Redbase.Record
