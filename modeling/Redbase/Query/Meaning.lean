import Redbase.Lib.Selection
import Redbase.Query.Plan
import Redbase.Record.Lemmas.Scan
import Redbase.Table.Lemmas.Table

/-!
# What a selection means

The rows of a table that satisfy the filter, in the order of their ids; the ones of them that are
selected; and what is shown of each.
-/

namespace Redbase.Query

open Record Table Selection

/-- A row of the schema: a value of its type in every column. -/
def OfSchema (schema : TableSchema) (row : Row) : Prop :=
  List.Forall₂ (fun column value => valueMatchesType column.columnType value = true)
    schema.columns row.values

def SortDirection.apply : SortDirection → Ordering → Ordering
  | .asc => id
  | .desc => Ordering.swap

/-- How two rows compare in one column. -/
def compareField (schema : TableSchema) (column : String) (a b : Row) : Ordering :=
  match Row.field schema a column, Row.field schema b column with
  | some lhs, some rhs => compareValues lhs rhs
  | _, _ => .eq

/-- The order of the rows that a request asks for, by the names of the columns. -/
def orderOf (schema : TableSchema) : List OrderBy → Row → Row → Ordering
  | [] => fun _ _ => .eq
  | item :: rest =>
      compareLex (fun a b => item.direction.apply (compareField schema item.column a b))
        (orderOf schema rest)

/-- The names of the columns that are shown. -/
def Projection.names (schema : TableSchema) : Projection → List String
  | .all => schema.columns.map ColumnSchema.name
  | .columns names => names

/-- The order of the records that a request asks for. -/
def recordOrder (schema : TableSchema) (layout : SchemaLayout) (orderBy : List OrderBy)
    (a b : Record) : Ordering :=
  orderOf schema orderBy (rowOf layout a.data) (rowOf layout b.data)

/-- `rows` are the records that satisfy the filter, where `live` are those of the table; `picked`
are the ones that the request asks for, and `result` shows these. -/
structure IsAnswer (schema : TableSchema) (layout : SchemaLayout) (live : Rid → Option (List UInt8))
    (request : ExtendedSelectRequest) (rows picked : List Record) (result : ProjectedSelectResult) :
    Prop where
  inOrder : rows.Pairwise fun a b => a.rid.Before b.rid
  mem_iff : ∀ r, r ∈ rows ↔ live r.rid = some r.data ∧
    wanted schema layout request.filter r.data = true
  ofSchema : ∀ r ∈ rows, OfSchema schema (rowOf layout r.data)
  selected : Selected (recordOrder schema layout request.orderBy)
    (fun a b => a.rid.Before b.rid) request.limit rows picked
  schema_eq : result.schema = schema
  columns_eq : result.projectedColumns.map ColumnSchema.name = request.projection.names schema
  rows_eq : result.rows.map (fun row => row.values.map some) =
    picked.map fun r => (request.projection.names schema).map
      (Row.field schema (rowOf layout r.data))

/-- `compare_rows` does not panic on rows of the schema, and is a total preorder on them. -/
def ComparesTotally (schema : TableSchema) (keys : List OrderKeyPlan) : Prop :=
  ∃ cmp : Row → Row → Ordering,
    (∀ a b, OfSchema schema a → OfSchema schema b → compareRows a b keys = some (cmp a b)) ∧
    Std.TransCmp fun a b : {row // OfSchema schema row} => cmp a.1 b.1

end Redbase.Query
