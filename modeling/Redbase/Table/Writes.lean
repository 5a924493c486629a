import Redbase.Table.Run
import Redbase.Record.Live

/-!
# What a write means

Which rows a filter selects, and what an update and a deletion make of them, in terms of the live
records alone.
-/

namespace Redbase.Table

open Prog Bytes Text Page Record

set_option linter.dupNamespace false

/-! ## Assignments -/

/-- What the assignments give to a column: the last one counts. -/
def lastAssigned (assignments : List (String × Value)) (name : String) : Option Value :=
  (assignments.reverse.find? fun a => a.1 = name).map Prod.snd

/-- Every assignment names a column, and its value can be encoded there. -/
def Assignable (layout : SchemaLayout) (assignments : List (String × Value)) : Prop :=
  ∀ a ∈ assignments, ∃ column bytes, layout.column a.1 = .ok column ∧
    encodeValue (List.replicate layout.recordSize 0) column a.2 = .ok bytes

/-- `after` is the record `before` with the assigned values in their columns. -/
structure Assigns (layout : SchemaLayout) (assignments : List (String × Value))
    (before after : List UInt8) :
    Prop where
  length : after.length = before.length
  assigned : ∀ column ∈ layout.columns, ∀ value, lastAssigned assignments column.name = some value →
    Cell after column value
  kept : ∀ column ∈ layout.columns, lastAssigned assignments column.name = none →
    slice after column.offset column.columnType.fixedLen =
      slice before column.offset column.columnType.fixedLen

section Tables

variable {I : Type} [ReliableIo I] {cap : Nat}

/-! ## The rows -/

/-- The live rows that the filter is true of, in the order of their ids. -/
def selectedRows (s : Table I cap) (expr : Option Expr) : List Record :=
  matching s.file.header (shown s.file) (wanted s.schema s.layout expr) 0

/-- The filter is one that `scan_with_logic` accepts. -/
def FilterAccepted (s : Table I cap) (expr : Option Expr) : Prop :=
  ∀ e filter, expr = some e → compileExpr s.layout e = .ok filter →
    filter.validateForRecord s.file.header.recordSize = .ok ()

/-- `update_where` returns the number of the rows that the filter was true of before, each of these
has the assigned values, and nothing else has changed. -/
def UpdatesExactly (s : Table I cap) (expr : Option Expr) (assignments : List (String × Value)) :
    Prop :=
  ∃ t, Table.updateWhere expr assignments s = .ok (selectedRows s expr).length t ∧ ∀ rid,
    match live s.file rid with
    | none => live t.file rid = none
    | some before =>
        if wanted s.schema s.layout expr before then
          ∃ after, live t.file rid = some after ∧ Assigns s.layout assignments before after
        else live t.file rid = some before

/-- `delete_where` returns the number of the rows that the filter was true of, and removes just
these. -/
def DeletesExactly (s : Table I cap) (expr : Option Expr) : Prop :=
  ∃ t, Table.deleteWhere expr s = .ok (selectedRows s expr).length t ∧ ∀ rid,
    live t.file rid = (live s.file rid).filter fun before => !wanted s.schema s.layout expr before

/-! ## Links -/

/-- The page has no free slot. -/
def isFull (s : Table I cap) (p : Nat) : Bool := (headerOf (shown s.file p)).numFreeSlots == 0

/-- A full page of which several of `rids` are freed is linked to a page whose id fits into the
link, where `first` is the head of the chain before the first of them is freed. -/
def LinksFit (first : Int) (full : Nat → Bool) : List Rid → Prop
  | [] => True
  | rid :: rest =>
      if full rid.pageId then
        (first < recordPageFull → ∀ other ∈ rest, other.pageId ≠ rid.pageId) ∧
          LinksFit (asI32 rid.pageId) (Function.update full rid.pageId false) rest
      else LinksFit first full rest

end Tables

end Redbase.Table
