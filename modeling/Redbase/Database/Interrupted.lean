import Redbase.Database.Contents
import Redbase.Database.Invariant

/-!
# Schema requests that are interrupted

A request whose calls on the directory stop at one that fails, and what a directory has to be like
for the next `open`.
-/

namespace Redbase.Files

/-- Of the coming calls on the directory the first `k` go through, and the next one fails. -/
def Disk.failing (d : Disk) (k : Nat) (e : Page.IoError) : Disk :=
  { d with faults := List.replicate k none ++ [some e] }

end Redbase.Files

namespace Redbase.Database

open Prog Page Record Files Table Index

set_option linter.dupNamespace false

inductive SchemaRequest where
  | createTable (schema : TableSchema)
  | dropTable (name : String)
  | createIndex (name table column : String)
  | dropIndex (name : String)

def SchemaRequest.run : SchemaRequest → DatabaseM Unit
  | .createTable schema => Database.createTable schema
  | .dropTable name => Database.dropTable name
  | .createIndex name table column => do let _ ← Database.createIndex name table column
  | .dropIndex name => Database.dropIndex name

def Database.failing (s : Database) (k : Nat) (e : IoError) : Database :=
  { s with root := s.root.failing k e }

/-- The table opens, with the record size of its schema. -/
def TableOpens (s : Database) (name : String) (schema : TableSchema) : Prop :=
  ∃ layout table t, compileSchema schema = .ok layout ∧ Database.openTable name s = .ok table t ∧
    table.file.header.recordSize = layout.recordSize

/-- The index is about a listed table, and its file loads and has the entries of the rows of the
table. -/
def IndexMatches (s : Database) (m : IndexMeta) : Prop :=
  ∃ schema layout bytes m' entries, s.catalog.tables.find m.table = some schema ∧
    compileSchema schema = .ok layout ∧
    s.root.files (tablePath m.table) = some bytes ∧
      loadIndexFile s.root m.name = .ok (m', entries) ∧ entries.Nodup ∧
    ∀ entry, entry ∈ entries ↔ ∃ data, liveRecords bytes entry.rid = some data ∧
      Row.field schema (rowOf layout data) m.column = some (.int32 entry.key)

/-- What is listed is there. -/
structure Coherent (s : Database) : Prop where
  tables : ∀ name schema, s.catalog.tables.find name = some schema → TableOpens s name schema
  indexes : ∀ name m, s.indexes.indexes.find name = some m → IndexMatches s m

/-- The directory can be opened, and what its catalogs list is there. -/
def Consistent (root : Disk) : Prop := ∃ s, Database.open root = .ok s ∧ Coherent s

/-- The requests and the calls at which they may fail: `create_table` at any, `drop_index` at its
first, `drop_table` at its first and without indexes also at its last, and `create_index` until its
catalog is saved, without rows also later. -/
def SchemaRequest.Harmless (s : Database) (k : Nat) : SchemaRequest → Prop
  | .createTable _ => True
  | .dropTable name => k = 0 ∨ s.indexes.indexesForTable name = [] ∧ k = 2
  | .createIndex _ table _ => k ≤ 1 ∨
      ∀ bytes, s.root.files (tablePath table) = some bytes → ∀ rid, liveRecords bytes rid = none
  | .dropIndex _ => k = 0

end Redbase.Database
