import Redbase.Database.Lemmas.Tables
import Redbase.Query.Relational
import Redbase.Table.Typing

/-!
# Which requests are accepted

What a request has to say to be carried out, in terms of the relations alone. That a value fits into
its column is checked last, so an update with a text that is too long is accepted where no row
satisfies its filter.
-/

namespace Redbase.Query

open Record Index Table Database

/-- Columns of the schema, each of them once. -/
structure NamesColumns (schema : TableSchema) (names : List String) : Prop where
  nodup : names.Nodup
  known : ∀ name ∈ names, ∃ type, schema.typeOf name = some type

def Projection.Known (schema : TableSchema) : Projection → Prop
  | .all => True
  | .columns names => NamesColumns schema names

/-- Assignments to columns, each of a value of the type of its column, but of any length. -/
structure AssignsTyped (schema : TableSchema) (assignments : List Assignment) : Prop where
  nonempty : assignments ≠ []
  nodup : (assignments.map Assignment.column).Nodup
  typed : ∀ a ∈ assignments, ∃ type, schema.typeOf a.column = some type ∧
    valueMatchesType type a.value = true

/-- The assigned values fit into their columns. -/
def AssignsFit (schema : TableSchema) (assignments : List Assignment) : Prop :=
  ∀ a ∈ assignments, ∀ type, schema.typeOf a.column = some type → type.Accepts a.value

/-- A row that satisfies the filter. -/
def Relation.HasWanted (relation : Relation) (filter : Option Expr) : Prop :=
  ∃ rid row, relation.rows rid = some row ∧ relation.wants filter row = true

inductive Accepts (st : RelationalStore) : Request → Prop
  | createTable {request : CreateTableRequest} (wellFormed : request.schema.WellFormed)
      (new : st.relations request.schema.name = none) : Accepts st (.createTable request)
  | dropTable {request : DropTableRequest} {relation : Relation}
      (listed : st.relations request.table = some relation) :
      Accepts st (.dropTable request)
  | createIndex {request : CreateIndexRequest} {relation : Relation}
      (identifier : validateIdentifier request.name = .ok ())
      (listed : st.relations request.table = some relation)
      (column : relation.schema.typeOf request.column = some .int32)
      (new : st.indexes request.name = none) : Accepts st (.createIndex request)
  | dropIndex {request : DropIndexRequest} {m : IndexMeta}
      (listed : st.indexes request.name = some m) :
      Accepts st (.dropIndex request)
  | insert {request : ExtendedInsertRequest} {relation : Relation} {values : List Value}
      (listed : st.relations request.table = some relation)
      (gives : request.input.Gives relation.schema values)
      (fits : List.Forall₂ (fun column value => column.columnType.Accepts value)
        relation.schema.columns values) :
      Accepts st (.insert request)
  | update {request : UpdateRequest} {relation : Relation}
      (listed : st.relations request.table = some relation)
      (filter : FilterTyped relation.schema request.filter)
      (assigns : AssignsTyped relation.schema request.assignments)
      (fits : relation.HasWanted request.filter → AssignsFit relation.schema request.assignments) :
      Accepts st (.update request)
  | delete {request : DeleteRequest} {relation : Relation}
      (listed : st.relations request.table = some relation)
      (filter : FilterTyped relation.schema request.filter) : Accepts st (.delete request)
  | select {request : ExtendedSelectRequest} {relation : Relation}
      (listed : st.relations request.table = some relation)
      (filter : FilterTyped relation.schema request.filter)
      (projection : request.projection.Known relation.schema)
      (orderBy : NamesColumns relation.schema (request.orderBy.map OrderBy.column))
      (limit : request.limit ≠ some 0) : Accepts st (.select request)
  | showTables : Accepts st .showTables
  | showIndexes : Accepts st .showIndexes
  | describeTable {table : String} {relation : Relation}
      (listed : st.relations table = some relation) :
      Accepts st (.describeTable table)
  | reopen : Accepts st .reopen

/-- Every table has room for another page with an id that fits into a link. -/
def Roomy (s : Database) : Prop :=
  ∀ name schema layout bytes, Stored s name schema layout bytes →
    (fileHeader bytes).numPages + 1 < 2 ^ 31

end Redbase.Query
