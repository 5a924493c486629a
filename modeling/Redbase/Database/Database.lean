import Redbase.Database.Catalog
import Redbase.Index.File
import Redbase.Files.Manager
import Redbase.Table.Table

/-!
# The database

A root directory with the catalogs of its tables and indexes in memory. An index is written anew
from the table whenever the table has changed.
-/

namespace Redbase.Database

open Prog Page Record Files Table Index

set_option linter.dupNamespace false

/-- The path of the root directory stands for what is in it. -/
structure Database where
  root : Disk
  catalog : Catalog
  indexes : IndexCatalog

abbrev DatabaseM := EStateM (Stop TableError) Database

abbrev DiskTable := Table DiskPageIo defaultBufferCapacity

/-- An error of an index as one of the table. -/
def indexError : Stop IndexError → Stop TableError := Stop.map .index

/-- A database with an open table. -/
structure Session where
  database : Database
  table : DiskTable

abbrev SessionM := EStateM (Stop TableError) Session

namespace Session

variable {α : Type}

def onDatabase (m : DatabaseM α) : SessionM α :=
  zoom (·.database) (fun database s => { s with database }) m

def onTable (m : TableM DiskPageIo defaultBufferCapacity α) : SessionM α :=
  zoom (·.table) (fun table s => { s with table }) m

/-- The table is dropped. -/
def leave (s : Session) (name : String) : Database :=
  { s.database with root := s.database.root.leave (tablePath name) s.table.drop }

end Session

namespace Database

variable {α : Type}

def «open» (root : Disk) : Except TableError Database := do
  let catalog ← Catalog.load root
  let indexes ← (IndexCatalog.load root).mapError .index
  return ⟨root, catalog, indexes⟩

/-- `?` on a check that needs no state. -/
def check (x : Except TableError α) : DatabaseM α := lift (x.mapError .error)

/-- Calls on the root directory, with `?`. -/
def onRoot {ε : Type} (f : ε → Stop TableError) (m : EStateM ε Disk α) : DatabaseM α :=
  mapError f (zoom (·.root) (fun root s => { s with root }) m)

def saveCatalog : DatabaseM Unit := do onRoot .error (← get).catalog.save

def saveIndexes : DatabaseM Unit := do onRoot (fun e => .error (.index e)) (← get).indexes.save

def openTable (name : String) : DatabaseM DiskTable := do
  let schema ← check ((← get).catalog.getTableSchema name)
  let layout ← check (compileSchema schema)
  let file ← onRoot recordError (RecordManager.openFile (tablePath name))
  return ⟨schema, layout, file⟩

/-- The table is open while `body` runs; it is dropped also when `body` fails. -/
def withTable (name : String) (body : SessionM α) : DatabaseM α := fun s =>
  match openTable name s with
  | .error e s => .error e s
  | .ok table s =>
      match body ⟨s, table⟩ with
      | .ok a t => .ok a (t.leave name)
      | .error e t => .error e (t.leave name)

/-! ## Indexes of a table -/

def listIndexes (s : Database) : List IndexMeta := s.indexes.list

def findIndex (s : Database) (table column : String) : Option IndexMeta :=
  (s.indexes.indexesForTable table).find? fun m => m.column = column

def lookupIndexEq (name : String) (key : Int32) : DatabaseM (List Rid) := do
  onRoot indexError (lift (lookupEq (← get).root name key))

def rebuildIndex (name : String) : DatabaseM Unit := do
  let some index := (← get).indexes.list.find? fun m => m.name = name
    | throw (.error (.index (.indexNotFound name)))
  withTable index.table do
    let entries ← match index.keyType with
      | .int32 => Session.onTable (Table.indexEntriesForInt32Column index.column)
    Session.onDatabase (onRoot (fun e => .error (.index e))
      (replaceIndexEntries index.name entries))

/-- The loop of `rebuild_indexes_for_table`. -/
def rebuildIndexes : List IndexMeta → DatabaseM Unit
  | [] => return ()
  | index :: rest => do
      rebuildIndex index.name
      rebuildIndexes rest

def rebuildIndexesForTable (table : String) : DatabaseM Unit := do
  rebuildIndexes ((← get).indexes.indexesForTable table)

/-! ## Schema changes -/

def createTable (schema : TableSchema) : DatabaseM Unit := do
  let layout ← check (compileSchema schema)
  if (← get).catalog.contains schema.name then throw (.error (.duplicateTable schema.name))
  onRoot recordError (RecordManager.createFile (tablePath schema.name) layout.recordSize)
  modify fun s => { s with catalog := s.catalog.insert schema }
  saveCatalog

/-- `indexes.remove(name)?`: the index that is removed. -/
def removeIndex (name : String) : DatabaseM IndexMeta := do
  let (index, indexes) ← check (((← get).indexes.remove name).mapError .index)
  modify fun s => { s with indexes }
  return index

/-- The loop of `drop_table` over the indexes of the table. -/
def dropIndexes : List IndexMeta → DatabaseM Unit
  | [] => return ()
  | index :: rest => do
      onRoot (fun e => .error (.index e)) (deleteIndexFile index.name)
      let _ ← removeIndex index.name
      dropIndexes rest

def dropTable (name : String) : DatabaseM Unit := do
  if (← get).catalog.contains name = false then throw (.error (.tableNotFound name))
  dropIndexes ((← get).indexes.indexesForTable name)
  onRoot (fun e => .error (.io e)) (Disk.removeFile (tablePath name))
  modify fun s => { s with catalog := s.catalog.remove name }
  saveCatalog
  saveIndexes

/-- The key type of an index on a column. -/
def indexKeyType (column : LayoutColumn) : Except TableError IndexKeyType :=
  match column.columnType with
  | .int32 => return .int32
  | columnType => throw (.index (.unsupportedKeyType columnType.kindName))

def createIndex (name table column : String) : DatabaseM IndexMeta := do
  check (validateIdentifier name)
  let schema ← check ((← get).catalog.getTableSchema table)
  let layout ← check (compileSchema schema)
  let layoutColumn ← check (layout.column column)
  let keyType ← check (indexKeyType layoutColumn)
  let index : IndexMeta := ⟨name, table, column, keyType⟩
  onRoot (fun e => .error (.index e)) (createIndexFile index)
  let indexes ← check (((← get).indexes.insert index).mapError .index)
  modify fun s => { s with indexes }
  saveIndexes
  rebuildIndex index.name
  return index

def dropIndex (name : String) : DatabaseM Unit := do
  let index ← removeIndex name
  onRoot (fun e => .error (.index e)) (deleteIndexFile index.name)
  saveIndexes

end Database

end Redbase.Database
