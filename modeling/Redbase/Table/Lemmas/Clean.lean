import Redbase.Table.Lemmas.Table
import Redbase.Record.Lemmas.Clean

/-!
# A table that was only read
-/

namespace Redbase.Table

open Prog Bytes Page Record

set_option linter.dupNamespace false

variable {I : Type} [ByteIo I] {cap : Nat} {s : Table I cap} {bytes : List UInt8}

/-- The methods that read leave nothing to write back. -/
abbrev Reads {α : Type} (m : TableM I cap α) : Prop :=
  ∀ s bytes, Clean s.file bytes → wp m (fun _ t => Clean t.file bytes)
    (fun _ t => Clean t.file bytes) s

theorem scanPredicate_reads (expr : Option Expr) :
    Reads (Table.scanPredicate expr : TableM I cap (List UInt8 → Except RecordError Bool)) := by
  intro s bytes h
  unfold Table.scanPredicate
  cases expr with
  | none => exact h
  | some expr =>
      simp only [wp_bind, wp_get]
      cases compileExpr s.layout expr with
      | error e => exact h
      | ok filter =>
          simp only [wp_check_ok]
          cases s.file.scanWithLogic filter with
          | error e => exact h
          | ok scan => exact h

theorem scanRows_clean {sc : RecordScan I cap} (h : Clean sc.file bytes) (layout : SchemaLayout)
    (fuel : Nat) :
    wp (Table.scanRows layout fuel) (fun _ t => Clean t.file bytes)
      (fun _ t => Clean t.file bytes) sc := by
  induction fuel generalizing sc with
  | zero => exact h
  | succ fuel ih =>
      unfold Table.scanRows
      simp only [wp_bind, wp_mapError]
      refine wp_mono (nextRecord_clean h) ?_ fun _ _ => id
      intro record t ht
      cases record with
      | none => exact ht
      | some record =>
          simp only [wp_bind]
          cases decodeRecord layout record with
          | error e => exact ht
          | ok row =>
              simp only [wp_lift_ok, wp_pure]
              exact ih ht

theorem scan_reads (expr : Option Expr) : Reads (Table.scan expr : TableM I cap (List Row)) := by
  intro s bytes h
  unfold Table.scan Table.scanning
  simp only [wp_bind, wp_get, wp_zoom]
  refine wp_mono (scanPredicate_reads expr s bytes h) ?_ fun _ _ => id
  intro predicate t ht
  have hscan : Clean (t.file.scanWith predicate).file bytes := ht
  exact scanRows_clean hscan _ _

theorem collectRecords_reads (expr : Option Expr) :
    Reads (Table.collectRecords expr : TableM I cap (List Record)) := by
  intro s bytes h
  unfold Table.collectRecords Table.scanning
  simp only [wp_bind, wp_zoom, wp_mapError]
  refine wp_mono (scanPredicate_reads expr s bytes h) ?_ fun _ _ => id
  intro predicate t ht
  have hscan : Clean (t.file.scanWith predicate).file bytes := ht
  exact collect_clean hscan

theorem rowsByRids_reads (rids : List Rid) :
    Reads (Table.rowsByRids rids : TableM I cap (List Row)) := by
  induction rids with
  | nil => exact fun s bytes h => h
  | cons rid rest ih =>
      intro s bytes h
      unfold Table.rowsByRids
      simp only [wp_bind, wp_liftFile, wp_get, wp_pure]
      refine wp_mono (get_clean h rid) ?_ fun _ _ => id
      intro record file hf
      cases decodeRecord s.layout record with
      | error e => exact hf
      | ok row => exact ih _ bytes hf

theorem indexEntries_reads (column : String) :
    Reads (Table.indexEntriesForInt32Column column : TableM I cap (List Index.IndexEntry)) := by
  intro s bytes h
  unfold Table.indexEntriesForInt32Column
  simp only [wp_bind, wp_get]
  cases s.layout.columnIndex column with
  | error e => exact h
  | ok index =>
      rw [wp_check_ok]
      refine wp_mono (collectRecords_reads none s bytes h) ?_ fun _ _ => id
      intro records t ht
      cases records.mapM (Table.indexEntry s.layout index) with
      | error e => exact ht
      | ok entries => exact ht

end Redbase.Table
