import Redbase.Query.Request

/-!
# Plans

What a request says about columns is checked against the schema before a table is opened; the rows
that were read are sorted, cut off and projected.
-/

namespace Redbase.Query

open Prog Record Index Table Database

/-! ## Columns -/

def columnTypeName : ColumnType → String
  | .int32 => "Int32"
  | .float32 => "Float32"
  | .char _ => "Char"

def valueTypeName : Value → String
  | .int32 _ => "Int32"
  | .float32 _ => "Float32"
  | .char _ => "Char"

def valueMatchesType : ColumnType → Value → Bool
  | .int32, .int32 _ => true
  | .float32, .float32 _ => true
  | .char _, .char _ => true
  | _, _ => false

def resolveSchemaColumn (schema : TableSchema) (table column : String) :
    Except QueryError (Nat × ColumnSchema) :=
  match schema.columns.zipIdx.find? fun item => item.1.name = column with
  | some (schemaColumn, index) => return (index, schemaColumn)
  | none => throw (.unknownColumn table column)

def requireColumn (schema : TableSchema) (table column : String) : Except QueryError Unit :=
  if schema.columns.any fun item => item.name = column then return ()
  else throw (.unknownColumn table column)

mutual

def validateExprColumns (table : String) (schema : TableSchema) : Expr → Except QueryError Unit
  | .cmpValue column _ _ => requireColumn schema table column
  | .cmpColumns lhs _ rhs => do
      requireColumn schema table lhs
      requireColumn schema table rhs
  | .and children => validateExprsColumns table schema children
  | .or children => validateExprsColumns table schema children
  | .not child => validateExprColumns table schema child

/-- The children of a node, up to the first error. -/
def validateExprsColumns (table : String) (schema : TableSchema) :
    List Expr → Except QueryError Unit
  | [] => return ()
  | child :: rest => do
      validateExprColumns table schema child
      validateExprsColumns table schema rest

end

/-- The columns of an optional filter. -/
def validateFilter (table : String) (schema : TableSchema) : Option Expr → Except QueryError Unit
  | none => return ()
  | some expr => validateExprColumns table schema expr

/-! ## Inserting -/

/-- The loop of `validate_row_types`. -/
def validateTypes (table : String) : List (ColumnSchema × Value) → Except QueryError Unit
  | [] => return ()
  | (column, value) :: rest =>
      if valueMatchesType column.columnType value then validateTypes table rest
      else
        throw (.valueTypeMismatch table column.name (columnTypeName column.columnType)
          (valueTypeName value))

def validateRowTypes (table : String) (schema : TableSchema) (values : List Value) :
    Except QueryError Unit := do
  if values.length ≠ schema.columns.length then
    throw (.valueCountMismatch table schema.columns.length values.length)
  validateTypes table (schema.columns.zip values)

/-- The first loop of `normalize_named_insert`: the values that were given, each under its
column. -/
def namedValues (table : String) (schema : TableSchema) (seen : List (String × Value)) :
    List NamedValue → Except QueryError (List (String × Value))
  | [] => return seen
  | entry :: rest => do
      requireColumn schema table entry.column
      if (seen.lookup entry.column).isSome then throw (.duplicateRequestColumn table entry.column)
      namedValues table schema ((entry.column, entry.value) :: seen) rest

/-- The second loop: the values in the order of the columns. -/
def orderedValues (table : String) (values : List (String × Value)) :
    List ColumnSchema → Except QueryError (List Value)
  | [] => return []
  | column :: rest =>
      match values.lookup column.name with
      | none => throw (.missingRequestColumn table column.name)
      | some value => do
          if valueMatchesType column.columnType value = false then
            throw (.valueTypeMismatch table column.name (columnTypeName column.columnType)
              (valueTypeName value))
          let ordered ← orderedValues table (values.filter fun entry => entry.1 ≠ column.name) rest
          return value :: ordered

def normalizeNamedInsert (table : String) (schema : TableSchema) (entries : List NamedValue) :
    Except QueryError (List Value) := do
  let values ← namedValues table schema [] entries
  orderedValues table values schema.columns

def normalizeInsertInput (table : String) (schema : TableSchema) :
    InsertInput → Except QueryError (List Value)
  | .fullRow values => do
      validateRowTypes table schema values
      return values
  | .named entries => normalizeNamedInsert table schema entries

/-! ## Updating -/

/-- The loop of `normalize_assignments`. -/
def normalizeEach (table : String) (schema : TableSchema) (seen : List String) :
    List Assignment → Except QueryError (List NormalizedAssignment)
  | [] => return []
  | assignment :: rest => do
      if assignment.column ∈ seen then throw (.duplicateUpdateColumn table assignment.column)
      let (index, schemaColumn) ← resolveSchemaColumn schema table assignment.column
      if valueMatchesType schemaColumn.columnType assignment.value = false then
        throw (.valueTypeMismatch table assignment.column (columnTypeName schemaColumn.columnType)
          (valueTypeName assignment.value))
      let normalized ← normalizeEach table schema (assignment.column :: seen) rest
      return ⟨index, assignment.column, assignment.value⟩ :: normalized

def normalizeAssignments (table : String) (schema : TableSchema) (assignments : List Assignment) :
    Except QueryError (List NormalizedAssignment) :=
  if assignments.isEmpty then throw (.emptyAssignments table)
  else normalizeEach table schema [] assignments

def resolveUpdatePlan (table : String) (schema : TableSchema) (request : UpdateRequest) :
    Except QueryError (List NormalizedAssignment) := do
  validateFilter table schema request.filter
  normalizeAssignments table schema request.assignments

def resolveDeletePlan (table : String) (schema : TableSchema) (request : DeleteRequest) :
    Except QueryError Unit :=
  validateFilter table schema request.filter

/-! ## Selecting -/

/-- The loop of `resolve_projection`. -/
def projectionColumns (table : String) (schema : TableSchema) (seen : List String) :
    List String → Except QueryError (List (Nat × ColumnSchema))
  | [] => return []
  | column :: rest => do
      if column ∈ seen then throw (.duplicateRequestColumn table column)
      let resolved ← resolveSchemaColumn schema table column
      let others ← projectionColumns table schema (column :: seen) rest
      return resolved :: others

def resolveProjection (table : String) (schema : TableSchema) :
    Projection → Except QueryError ProjectionPlan
  | .all => return ⟨schema.columns, List.range schema.columns.length⟩
  | .columns columns => do
      let resolved ← projectionColumns table schema [] columns
      return ⟨resolved.map Prod.snd, resolved.map Prod.fst⟩

/-- The loop of `resolve_order_by`. -/
def orderKeys (table : String) (schema : TableSchema) (seen : List String) :
    List OrderBy → Except QueryError (List OrderKeyPlan)
  | [] => return []
  | item :: rest => do
      if item.column ∈ seen then throw (.duplicateOrderColumn table item.column)
      let (index, _) ← resolveSchemaColumn schema table item.column
      let others ← orderKeys table schema (item.column :: seen) rest
      return ⟨index, item.direction⟩ :: others

def resolveOrderBy (table : String) (schema : TableSchema) (orderBy : List OrderBy) :
    Except QueryError (List OrderKeyPlan) :=
  orderKeys table schema [] orderBy

def normalizeLimit (table : String) : Option Nat → Except QueryError (Option Nat)
  | some 0 => throw (.invalidLimit table 0)
  | some (value + 1) => return some (value + 1)
  | none => return none

def resolveSelectPlan (table : String) (schema : TableSchema) (request : ExtendedSelectRequest) :
    Except QueryError SelectPlan := do
  let projection ← resolveProjection table schema request.projection
  let orderBy ← resolveOrderBy table schema request.orderBy
  let limit ← normalizeLimit table request.limit
  return ⟨projection, orderBy, limit⟩

def resolveIndexLookup (table : String) (filter : Option Expr) (database : Database) :
    Option IndexLookupPlan :=
  match filter with
  | some (.cmpValue column .eq (.int32 key)) =>
      (database.findIndex table column).map fun index => ⟨index.name, key⟩
  | _ => none

/-! ## Rows -/

/-- `None` where a row has no value at the index: the source panics there. -/
def compareRowValueAt (lhs rhs : Row) (index : Nat) : Option Ordering := do
  let lhsValue ← lhs.values[index]?
  let rhsValue ← rhs.values[index]?
  return compareValues lhsValue rhsValue

def compareRows (lhs rhs : Row) : List OrderKeyPlan → Option Ordering
  | [] => return .eq
  | key :: rest => do
      let ordering ← compareRowValueAt lhs rhs key.index
      let ordering := match key.direction with
        | .asc => ordering
        | .desc => ordering.swap
      if ordering ≠ .eq then return ordering else compareRows lhs rhs rest

/-- `rows.sort_by(..)`, a stable sort. It may panic when two of the rows cannot be compared. -/
def applyOrderBy (rows : List Row) (orderBy : List OrderKeyPlan) : Option (List Row) :=
  if orderBy.isEmpty then some rows
  else if rows.all fun lhs => rows.all fun rhs => (compareRows lhs rhs orderBy).isSome then
    some (rows.mergeSort fun lhs rhs => ((compareRows lhs rhs orderBy).getD .eq).isLE)
  else none

def applyLimit (rows : List Row) : Option Nat → List Row
  | some limit => rows.take limit
  | none => rows

/-- `None` where a row has no value at an index: the source panics there. -/
def projectRow (projection : ProjectionPlan) (row : Row) : Option ProjectedRow := do
  let values ← projection.indices.mapM fun index => row.values[index]?
  return ⟨values⟩

end Redbase.Query
