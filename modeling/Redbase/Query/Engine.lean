import Redbase.Query.Plan

/-!
# The query engine

Every request opens the table it is about, and every change of a table is followed by new files for
its indexes.
-/

namespace Redbase.Query

open Prog Page Record Files Table Index Database

abbrev QueryM := EStateM (Stop QueryError) Database

/-- An error of the database as one of the engine. -/
def tableError : Stop TableError → Stop QueryError := Stop.map .table

namespace QueryEngine

variable {α : Type}

def «open» (root : Disk) : Except QueryError Database := (Database.open root).mapError .table

/-- `?` on a check that needs no state. -/
def check (x : Except QueryError α) : QueryM α := lift (x.mapError .error)

/-- A method of the database with `?`. -/
def liftDatabase (m : DatabaseM α) : QueryM α := mapError tableError m

/-- `None` where the source panics. -/
def expect (x : Option α) : QueryM α :=
  match x with
  | some a => return a
  | none => throw .panic

/-- An unknown table is an error of the engine. -/
def unknownTable (table : String) : TableError → QueryError
  | .tableNotFound _ => .unknownTable table
  | other => .table other

def loadSchema (table : String) : QueryM TableSchema := do
  check (((← get).catalog.getTableSchema table).mapError (unknownTable table))

/-! ## Rows -/

def executeInsert (request : ExtendedInsertRequest) : QueryM Rid := do
  let schema ← loadSchema request.table
  let values ← check (normalizeInsertInput request.table schema request.input)
  let rid ← liftDatabase (Database.withTable request.table (Session.onTable (Table.insert values)))
  liftDatabase (Database.rebuildIndexesForTable request.table)
  return rid

def insertInto (request : InsertRequest) : QueryM Rid :=
  executeInsert ⟨request.table, .fullRow request.values⟩

/-- The rows of `execute_select`, by the index or by a scan. -/
def fetchRows (filter : Option Expr) : Option IndexLookupPlan → SessionM (List Row)
  | some plan => do
      let rids ← Session.onDatabase (Database.lookupIndexEq plan.indexName plan.key)
      Session.onTable (Table.rowsByRids rids)
  | none => Session.onTable (Table.scan filter)

/-- The rest of `execute_select`, where `lookup` says how the rows are found. -/
def selectRows (request : ExtendedSelectRequest) (schema : TableSchema) (plan : SelectPlan)
    (lookup : Option IndexLookupPlan) : QueryM ProjectedSelectResult := do
  let rows ← liftDatabase (Database.withTable request.table (fetchRows request.filter lookup))
  let rows ← expect (applyOrderBy rows plan.orderBy)
  let rows ← expect ((applyLimit rows plan.limit).mapM (projectRow plan.projection))
  return ⟨schema, plan.projection.columns, rows⟩

def executeSelect (request : ExtendedSelectRequest) : QueryM ProjectedSelectResult := do
  let schema ← loadSchema request.table
  check (validateFilter request.table schema request.filter)
  let plan ← check (resolveSelectPlan request.table schema request)
  let lookup := resolveIndexLookup request.table request.filter (← get)
  selectRows request schema plan lookup

def selectFrom (request : SelectRequest) : QueryM SelectResult := do
  let result ← executeSelect ⟨request.table, request.filter, .all, [], none⟩
  return ⟨result.schema, result.rows.map fun row => ⟨row.values⟩⟩

def executeUpdate (request : UpdateRequest) : QueryM Nat := do
  let schema ← loadSchema request.table
  let plan ← check (resolveUpdatePlan request.table schema request)
  let assignments := plan.map fun assignment => (assignment.column, assignment.value)
  let affectedRows ← liftDatabase (Database.withTable request.table
    (Session.onTable (Table.updateWhere request.filter assignments)))
  liftDatabase (Database.rebuildIndexesForTable request.table)
  return affectedRows

def executeDelete (request : DeleteRequest) : QueryM Nat := do
  let schema ← loadSchema request.table
  check (resolveDeletePlan request.table schema request)
  let affectedRows ← liftDatabase
    (Database.withTable request.table (Session.onTable (Table.deleteWhere request.filter)))
  liftDatabase (Database.rebuildIndexesForTable request.table)
  return affectedRows

/-! ## Schema changes -/

def executeCreateTable (request : CreateTableRequest) : QueryM Unit :=
  liftDatabase (Database.createTable request.schema)

/-- The errors of `create_index`, where the column was found. -/
def createIndexError (request : CreateIndexRequest) (column : ColumnSchema) :
    Stop TableError → Stop QueryError
  | .error (.index (.duplicateIndex name)) => .error (.duplicateIndex name)
  | .error (.index (.unsupportedKeyType _)) =>
      .error (.unsupportedIndexColumnType request.table request.column
        (columnTypeName column.columnType))
  | .error (.tableNotFound _) => .error (.unknownTable request.table)
  | .error (.columnNotFound _) => .error (.unknownColumn request.table request.column)
  | other => tableError other

def executeCreateIndex (request : CreateIndexRequest) : QueryM Unit := do
  let schema ← loadSchema request.table
  let some column := schema.columns.find? fun item => item.name = request.column
    | throw (.error (.unknownColumn request.table request.column))
  if column.columnType ≠ .int32 then
    throw (.error (.unsupportedIndexColumnType request.table request.column
      (columnTypeName column.columnType)))
  let _ ← mapError (createIndexError request column)
    (Database.createIndex request.name request.table request.column)

def executeDropTable (request : DropTableRequest) : QueryM Unit :=
  mapError (Stop.map (unknownTable request.table)) (Database.dropTable request.table)

/-- An unknown index is an error of the engine. -/
def unknownIndex : TableError → QueryError
  | .index (.indexNotFound name) => .unknownIndex name
  | other => .table other

def executeDropIndex (request : DropIndexRequest) : QueryM Unit :=
  mapError (Stop.map unknownIndex) (Database.dropIndex request.name)

/-! ## The catalogs -/

def showTables : QueryM (List String) := do return (← get).catalog.listTables

def showIndexes : QueryM (List IndexMeta) := do return (← get).listIndexes

def describeTable (table : String) : QueryM DescribeTableResult := do
  let relation ← check (((← get).catalog.getRelation table).mapError (unknownTable table))
  let attributes ← check (((← get).catalog.getAttributes table).mapError (unknownTable table))
  return ⟨relation, attributes⟩

end QueryEngine

end Redbase.Query
