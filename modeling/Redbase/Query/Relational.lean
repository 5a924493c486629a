import Redbase.Database.Contents
import Redbase.Query.Lemmas.Naming
import Redbase.Query.Meaning
import Redbase.Query.Run

/-!
# What the engine is for

A store of relations: each has a schema and rows under their ids, and some columns have an index. A
request that succeeds changes the store as its words say, where the id of a new row is any free one.
-/

namespace Redbase.Query

open Record Index Table Database Selection Function

structure Relation where
  schema : TableSchema
  rows : Rid → Option Row

structure RelationalStore where
  relations : String → Option Relation
  indexes : String → Option IndexMeta

/-! ## Rows -/

/-- Whether a filter is true of a row; every row is wanted where there is none. -/
def Relation.wants (relation : Relation) (filter : Option Expr) (row : Row) : Bool :=
  match filter with
  | none => true
  | some expr => expr.eval (Row.field relation.schema row) == some true

/-- The value that an update gives to a column. -/
def assigned (assignments : List Assignment) (column : String) : Option Value :=
  (assignments.find? fun a => a.column = column).map Assignment.value

/-- The row with the assigned values in their columns. -/
def assignRow (schema : TableSchema) (assignments : List Assignment) (row : Row) : Row :=
  ⟨List.zipWith (fun column value =>
      ((assigned assignments column.name).map Value.stored).getD value)
    schema.columns row.values⟩

/-- The values of a row that a request gives, in the order of the columns. -/
def InsertInput.Gives (schema : TableSchema) : InsertInput → List Value → Prop
  | .fullRow given, values => given = values
  | .named entries, values => entries.Perm (naming schema values)

namespace Relation

/-- `n` rows satisfy the filter. -/
def Counts (relation : Relation) (filter : Option Expr) (n : Nat) : Prop :=
  ∃ rids : List Rid, rids.Nodup ∧ rids.length = n ∧
    ∀ rid, rid ∈ rids ↔ ∃ row, relation.rows rid = some row ∧ relation.wants filter row = true

def insert (relation : Relation) (rid : Rid) (values : List Value) : Relation :=
  { relation with rows := update relation.rows rid (some ⟨values.map Value.stored⟩) }

def updateWhere (relation : Relation) (filter : Option Expr) (assignments : List Assignment) :
    Relation :=
  { relation with rows := fun rid => (relation.rows rid).map fun row =>
      if relation.wants filter row then assignRow relation.schema assignments row else row }

def deleteWhere (relation : Relation) (filter : Option Expr) : Relation :=
  { relation with
    rows := fun rid => (relation.rows rid).filter fun row => !relation.wants filter row }

end Relation

/-! ## The store -/

namespace RelationalStore

def empty : RelationalStore := ⟨fun _ => none, fun _ => none⟩

def put (st : RelationalStore) (name : String) (relation : Relation) : RelationalStore :=
  { st with relations := update st.relations name (some relation) }

/-- A relation goes with its indexes. -/
def drop (st : RelationalStore) (name : String) : RelationalStore where
  relations := update st.relations name none
  indexes n := (st.indexes n).filter fun m => m.table ≠ name

end RelationalStore

/-- What a request that succeeds makes of the store. -/
inductive Effect (st : RelationalStore) : Request → RelationalStore → Prop
  | createTable {request : CreateTableRequest} (new : st.relations request.schema.name = none) :
      Effect st (.createTable request) (st.put request.schema.name ⟨request.schema, fun _ => none⟩)
  | dropTable {request : DropTableRequest} {relation : Relation}
      (listed : st.relations request.table = some relation) :
      Effect st (.dropTable request) (st.drop request.table)
  | createIndex {request : CreateIndexRequest} {relation : Relation}
      (listed : st.relations request.table = some relation)
      (column : ⟨request.column, .int32⟩ ∈ relation.schema.columns)
      (new : st.indexes request.name = none) : Effect st (.createIndex request)
        { st with
          indexes := update st.indexes request.name
            (some ⟨request.name, request.table, request.column, .int32⟩) }
  | dropIndex {request : DropIndexRequest} {m : IndexMeta}
      (listed : st.indexes request.name = some m) :
      Effect st (.dropIndex request) { st with indexes := update st.indexes request.name none }
  | insert {request : ExtendedInsertRequest} {relation : Relation} {rid : Rid} {values : List Value}
      (listed : st.relations request.table = some relation)
      (gives : request.input.Gives relation.schema values)
      (ofSchema : OfSchema relation.schema ⟨values⟩) (new : relation.rows rid = none) :
      Effect st (.insert request) (st.put request.table (relation.insert rid values))
  | update {request : UpdateRequest} {relation : Relation}
      (listed : st.relations request.table = some relation) :
      Effect st (.update request)
        (st.put request.table (relation.updateWhere request.filter request.assignments))
  | delete {request : DeleteRequest} {relation : Relation}
      (listed : st.relations request.table = some relation) :
      Effect st (.delete request) (st.put request.table (relation.deleteWhere request.filter))
  | select {request : ExtendedSelectRequest} {relation : Relation}
      (listed : st.relations request.table = some relation) :
      Effect st (.select request) st
  | showTables : Effect st .showTables st
  | showIndexes : Effect st .showIndexes st
  | describeTable {table : String} {relation : Relation}
      (listed : st.relations table = some relation) :
      Effect st (.describeTable table) st
  | reopen : Effect st .reopen st

/-- The stores that requests lead to, one after the other, the last one first. -/
inductive Evolves : List Request → RelationalStore → Prop
  | start : Evolves [] .empty
  | step {requests : List Request} {st st' : RelationalStore} {request : Request}
      (h : Evolves requests st)
      (effect : Effect st request st') : Evolves (request :: requests) st'

/-- What a selection answers: `rows` are the rows that satisfy the filter, and `picked` the ones of
them that are shown. -/
structure Answers (relation : Relation) (request : ExtendedSelectRequest)
    (rows picked : List (Rid × Row)) (result : ProjectedSelectResult) : Prop where
  inOrder : rows.Pairwise fun a b => a.1.Before b.1
  mem_iff : ∀ item, item ∈ rows ↔ relation.rows item.1 = some item.2 ∧
    relation.wants request.filter item.2 = true
  selected : Selected (fun a b => orderOf relation.schema request.orderBy a.2 b.2)
    (fun a b => a.1.Before b.1)
    request.limit rows picked
  schema_eq : result.schema = relation.schema
  columns_eq : result.projectedColumns.map ColumnSchema.name =
    request.projection.names relation.schema
  rows_eq : result.rows.map (fun row => row.values.map some) =
    picked.map fun item =>
      (request.projection.names relation.schema).map (Row.field relation.schema item.2)

/-- What is said of a table: its columns lie one after another in a record. -/
structure Describes (name : String) (schema : TableSchema) (result : DescribeTableResult) :
    Prop where
  relation : result.relation =
    ⟨name, (schema.columns.map fun column => column.columnType.fixedLen).sum, schema.columns.length⟩
  attributes : result.attributes = schema.columns.mapIdx fun ordinal column =>
    ⟨name, column.name, ordinal,
      ((schema.columns.take ordinal).map fun column => column.columnType.fixedLen).sum,
      column.columnType.fixedLen, column.columnType⟩

/-! ## The store of a database -/

/-- The rows that the records of a table encode. -/
def Relation.ofRecords (schema : TableSchema) (layout : SchemaLayout)
    (live : Rid → Option (List UInt8)) : Relation :=
  ⟨schema, fun rid => (live rid).map (rowOf layout)⟩

def relationOf (s : Database) (name : String) : Option Relation := do
  let schema ← s.catalog.tables.find name
  let layout ← (compileSchema schema).toOption
  let bytes ← s.root.files (tablePath name)
  return .ofRecords schema layout (liveRecords bytes)

def storeOf (s : Database) : RelationalStore := ⟨relationOf s, s.indexes.indexes.find⟩

/-- The databases that requests lead to, all of which succeed, the last one first. -/
inductive History : List Request → Database → Prop
  | start {s : Database} (h : QueryEngine.open Files.Disk.empty = .ok s) : History [] s
  | step {requests : List Request} {s t : Database} {request : Request} (h : History requests s)
      (hr : request.run s = .ok () t) : History (request :: requests) t

theorem History.served {requests : List Request} {s : Database} (h : History requests s) :
    Served s := by
  induction h with
  | start h => exact .start h
  | step _ hr ih => exact ih.step _ hr

theorem Served.history {s : Database} (h : Served s) : ∃ requests, History requests s := by
  induction h with
  | start h => exact ⟨[], .start h⟩
  | step request _ hr ih =>
      obtain ⟨requests, hs⟩ := ih
      exact ⟨request :: requests, .step hs hr⟩

end Redbase.Query
