import Redbase.Database.Database

/-!
# Requests

What the query engine is asked, what it answers, and its errors.
-/

namespace Redbase.Query

open Record Index Table Database

inductive QueryError where
  | table (error : TableError)
  | unknownTable (table : String)
  | duplicateIndex (name : String)
  | unknownIndex (name : String)
  | unsupportedIndexColumnType (table column actual : String)
  | unknownColumn (table column : String)
  | duplicateUpdateColumn (table column : String)
  | duplicateOrderColumn (table column : String)
  | duplicateRequestColumn (table column : String)
  | missingRequestColumn (table column : String)
  | invalidLimit (table : String) (limit : Nat)
  | emptyAssignments (table : String)
  | valueCountMismatch (table : String) (expected actual : Nat)
  | valueTypeMismatch (table column expected actual : String)
  deriving DecidableEq, Repr

/-! ## Requests -/

structure NamedValue where
  column : String
  value : Value
  deriving DecidableEq, Repr

inductive InsertInput where
  | fullRow (values : List Value)
  | named (entries : List NamedValue)
  deriving Repr

structure InsertRequest where
  table : String
  values : List Value

structure ExtendedInsertRequest where
  table : String
  input : InsertInput

structure Assignment where
  column : String
  value : Value
  deriving DecidableEq, Repr

inductive Projection where
  | all
  | columns (columns : List String)

inductive SortDirection where
  | asc
  | desc
  deriving DecidableEq, Repr

structure OrderBy where
  column : String
  direction : SortDirection
  deriving DecidableEq, Repr

structure SelectRequest where
  table : String
  filter : Option Expr

structure ExtendedSelectRequest where
  table : String
  filter : Option Expr
  projection : Projection
  orderBy : List OrderBy
  limit : Option Nat

structure UpdateRequest where
  table : String
  assignments : List Assignment
  filter : Option Expr

structure DeleteRequest where
  table : String
  filter : Option Expr

structure CreateTableRequest where
  schema : TableSchema

structure DropTableRequest where
  table : String

structure CreateIndexRequest where
  name : String
  table : String
  column : String

structure DropIndexRequest where
  name : String

/-! ## Results -/

structure ProjectedRow where
  values : List Value
  deriving DecidableEq, Repr

structure ProjectedSelectResult where
  schema : TableSchema
  projectedColumns : List ColumnSchema
  rows : List ProjectedRow
  deriving DecidableEq, Repr

structure SelectResult where
  schema : TableSchema
  rows : List Row
  deriving DecidableEq, Repr

structure DescribeTableResult where
  relation : RelationMeta
  attributes : List AttributeMeta
  deriving DecidableEq, Repr

/-! ## Plans -/

structure ProjectionPlan where
  columns : List ColumnSchema
  indices : List Nat
  deriving DecidableEq, Repr

structure OrderKeyPlan where
  index : Nat
  direction : SortDirection
  deriving DecidableEq, Repr

structure SelectPlan where
  projection : ProjectionPlan
  orderBy : List OrderKeyPlan
  limit : Option Nat
  deriving DecidableEq, Repr

structure NormalizedAssignment where
  index : Nat
  column : String
  value : Value
  deriving DecidableEq, Repr

structure IndexLookupPlan where
  indexName : String
  key : Int32
  deriving DecidableEq, Repr

end Redbase.Query
