import Redbase.Query.Engine

/-!
# Runs of the query engine

An engine is opened on an empty directory and asked one request after the other; between two
requests it may be dropped and opened again.
-/

namespace Redbase.Query

open Prog Page Record Files Table Index Database

/-- What an engine may be asked. `insert_into` and `select_from` are `insert` and `select`. -/
inductive Request where
  | createTable (request : CreateTableRequest)
  | dropTable (request : DropTableRequest)
  | createIndex (request : CreateIndexRequest)
  | dropIndex (request : DropIndexRequest)
  | insert (request : ExtendedInsertRequest)
  | update (request : UpdateRequest)
  | delete (request : DeleteRequest)
  | select (request : ExtendedSelectRequest)
  | showTables
  | showIndexes
  | describeTable (table : String)
  | reopen

namespace QueryEngine

/-- The engine is dropped and opened again on its root. -/
def reopen : QueryM Unit := do set (← check (QueryEngine.open (← get).root))

end QueryEngine

open QueryEngine in
/-- A request, without its answer. -/
def Request.run : Request → QueryM Unit
  | .createTable request => executeCreateTable request
  | .dropTable request => executeDropTable request
  | .createIndex request => executeCreateIndex request
  | .dropIndex request => executeDropIndex request
  | .insert request => do let _ ← executeInsert request
  | .update request => do let _ ← executeUpdate request
  | .delete request => do let _ ← executeDelete request
  | .select request => do let _ ← executeSelect request
  | .showTables => do let _ ← QueryEngine.showTables
  | .showIndexes => do let _ ← QueryEngine.showIndexes
  | .describeTable table => do let _ ← QueryEngine.describeTable table
  | .reopen => QueryEngine.reopen

/-- A state that some requests lead to, whether they succeed or fail. -/
inductive Reachable : Database → Prop
  | start {s : Database} (h : QueryEngine.open Disk.empty = .ok s) : Reachable s
  | step {s : Database} (request : Request) (h : Reachable s) : Reachable (final (request.run s))

/-- A state that some requests lead to, all of which succeed. -/
inductive Served : Database → Prop
  | start {s : Database} (h : QueryEngine.open Disk.empty = .ok s) : Served s
  | step {s t : Database} (request : Request) (h : Served s) (hr : request.run s = .ok () t) :
      Served t

theorem Served.reachable {s : Database} (h : Served s) : Reachable s := by
  induction h with
  | start h => exact .start h
  | step request _ hr ih =>
      have hstep := Reachable.step request ih
      rw [hr] at hstep
      exact hstep

end Redbase.Query
