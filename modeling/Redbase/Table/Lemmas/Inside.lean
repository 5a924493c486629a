import Redbase.Table.Inside
import Redbase.Table.Lemmas.Table
import Redbase.Record.Lemmas.Serving

/-!
# Which files a table can be read from

A record is decoded without leaving it when the layout fits into it, or when no record that can be
read is too short for the columns that are looked at. Every call keeps that so.
-/

namespace Redbase.Table

open Prog Bytes Text Page Record

set_option linter.dupNamespace false

/-! ## One record -/

section Decoding

variable {record : List UInt8} {column : LayoutColumn} {columns : List LayoutColumn}
  {start stop : Nat}

theorem decodeValue_inside (hin : column.offset + column.columnType.fixedLen ≤ record.length) :
    outcome (decodeValue record column) (fun _ => Legible record column)
      (fun why => Reports why ∧ ¬ Legible record column) := by
  unfold decodeValue sliceAt Legible
  rw [if_pos hin]
  cases hc : column.columnType with
  | int32 => exact trivial
  | float32 => exact trivial
  | char len =>
      simp only [ColumnType.fixedLen, outcome_bind, outcome_pure]
      cases hv : fromUtf8 (trimZeros (slice record column.offset len)) with
      | some text => exact rfl
      | none => exact ⟨⟨_, rfl⟩, Bool.false_ne_true⟩

theorem decodeValue_outside (hout : ¬ column.offset + column.columnType.fixedLen ≤ record.length) :
    decodeValue record column = .error .panic := by
  unfold decodeValue sliceAt
  rw [if_neg hout]
  rfl

/-- Decoding reports an error or returns just when it stays inside the record. -/
theorem staysInside_iff :
    StaysInside record columns ↔
      ∀ why, (columns.mapM fun column => decodeValue record column) = .error why → Reports why := by
  induction columns with
  | nil =>
      refine ⟨fun _ why h => ?_, fun _ => trivial⟩
      cases h
  | cons column rest ih =>
      rw [List.mapM_cons]
      by_cases hin : column.offset + column.columnType.fixedLen ≤ record.length
      · have hv := decodeValue_inside hin
        cases hd : decodeValue record column with
        | error why =>
            rw [hd] at hv
            refine ⟨fun _ why' he => ?_, fun _ => ⟨hin, fun hl => absurd hl hv.2⟩⟩
            cases he
            exact hv.1
        | ok value =>
            rw [hd] at hv
            have hl : Legible record column := hv
            have hstep : ∀ why, (do
                let value ← (.ok value : Except (Stop TableError) Value)
                let values ← rest.mapM fun column => decodeValue record column
                pure (value :: values)) = .error why ↔
                  (rest.mapM fun column => decodeValue record column) = .error why := by
              intro why
              cases hr : rest.mapM fun column => decodeValue record column with
              | error e => simp [bind, Except.bind]
              | ok values => simp [bind, Except.bind, pure, Except.pure]
            simp only [StaysInside, hin, hl, true_and, true_imp_iff, ih, hstep]
      · rw [decodeValue_outside hin]
        refine ⟨fun h => absurd h.1 hin, fun h => ?_⟩
        obtain ⟨e, he⟩ := h .panic rfl
        cases he

theorem Tiles.staysInside (h : Tiles start columns stop) (hle : stop ≤ record.length) :
    StaysInside record columns := by
  induction columns generalizing start with
  | nil => trivial
  | cons column rest ih =>
      obtain ⟨rfl, hrest⟩ := h
      exact ⟨Nat.le_trans hrest.le hle, fun _ => ih hrest⟩

end Decoding

/-! ## A table over any file -/

section Tables

variable {I : Type} [ReliableIo I] {cap k : Nat} {s t u : Table I cap} {hd : FileHeader}
  {pages : Nat → Option PageData} {layout : SchemaLayout}

/-- An open table whose records are decoded without leaving them. -/
structure Inside (s : Table I cap) (hd : FileHeader) (pages : Nat → Option PageData) : Prop where
  serving : Serving s.file.pool s.file.fileId hd pages
  fits : s.file.header.Fits
  compiled : compileSchema s.schema = .ok s.layout
  inside : FitsRecords s.layout s.file.header pages

/-- A record that is too short for the layout is not reached. -/
theorem Inside.decodes (h : Inside s hd pages) {rid : Rid} {record : Record}
    (hr : recordIn s.file.header pages rid = some record) {why : Stop TableError}
    (hdec : decodeRecord s.layout record = .error why) : Reports why := by
  have hstays : StaysInside record.data s.layout.columns := by
    rcases h.inside with hle | hin
    · refine (compileSchema_laid h.compiled).tiles.staysInside ?_
      rw [length_of_recordIn h.fits hr]
      exact hle
    · exact hin rid record hr
  unfold decodeRecord at hdec
  cases hm : s.layout.columns.mapM fun column => decodeValue record.data column with
  | error e =>
      rw [hm] at hdec
      cases hdec
      exact staysInside_iff.mp hstays _ hm
  | ok values =>
      rw [hm] at hdec
      cases hdec

/-- Another state of the file after calls that only read. -/
theorem Inside.readOn (h : Inside s hd pages) {file : RecordFile I cap}
    (hf : ReadOn s.file file hd pages) :
    Inside { s with file } hd pages where
  serving := hf.serving
  fits := by
    show file.header.Fits
    rw [hf.header]
    exact h.fits
  compiled := h.compiled
  inside := by
    show FitsRecords s.layout file.header pages
    rw [hf.header]
    exact h.inside

theorem reports_recordError {why : Stop RecordError} (h : Reports why) :
    Reports (recordError why) := by
  obtain ⟨e, rfl⟩ := h
  exact ⟨_, rfl⟩

theorem scanPredicate_serving (s : Table I cap) (expr : Option Expr) :
    wp (Table.scanPredicate expr) (fun _ t => t = s) (fun why t => t = s ∧ Reports why) s := by
  unfold Table.scanPredicate
  cases expr with
  | none => exact rfl
  | some expr =>
      simp only [wp_bind, wp_get]
      cases compileExpr s.layout expr with
      | error e => exact ⟨rfl, e, rfl⟩
      | ok filter =>
          simp only [wp_check_ok]
          cases s.file.scanWithLogic filter with
          | error e => exact ⟨rfl, _, rfl⟩
          | ok scan => exact rfl

theorem scanRows_serving {sc : RecordScan I cap} {fuel : Nat} (h : Inside s hd pages)
    (hread : ReadOn s.file sc.file hd pages) (ha : At sc k) (hfuel : s.file.header.total < fuel + k)
    (hk : k ≤ s.file.header.total) :
    wp (Table.scanRows s.layout fuel) (fun _ t => ReadOn s.file t.file hd pages)
      (fun why t => ReadOn s.file t.file hd pages ∧ Reports why) sc := by
  induction fuel generalizing k sc with
  | zero => omega
  | succ fuel ih =>
      have hhdr := hread.header
      unfold Table.scanRows
      simp only [wp_bind, wp_mapError]
      refine wp_mono (nextRecord_serving hread.serving (hhdr ▸ h.fits) ha (hhdr ▸ hk)) ?_ ?_
      · rintro record t ⟨ht, hy⟩
        have ht' := hread.trans ht
        cases record with
        | none => exact ht'
        | some record =>
            obtain ⟨hin, k', hk', hle, hat⟩ := hy record rfl
            rw [hhdr] at hin hle
            simp only [wp_bind]
            cases hdec : decodeRecord s.layout record with
            | error why => exact ⟨ht', h.decodes hin hdec⟩
            | ok row => exact ih ht' hat (by omega) hle
      · rintro why t ⟨ht, hwhy⟩
        exact ⟨hread.trans ht, reports_recordError hwhy⟩

theorem scan_serving (h : Inside s hd pages) (expr : Option Expr) :
    wp (Table.scan expr) (fun _ t => Inside t hd pages)
      (fun why t => Inside t hd pages ∧ Reports why) s := by
  unfold Table.scan Table.scanning
  simp only [wp_bind, wp_get, wp_zoom]
  refine wp_mono (scanPredicate_serving s expr) ?_ ?_
  · rintro predicate _ rfl
    refine wp_mono (scanRows_serving h (.refl h.serving) (at_scanWith _ predicate) ?_
      (Nat.zero_le _)) ?_ ?_
    · exact Nat.lt_succ_self _
    · exact fun _ t ht => h.readOn ht
    · exact fun why t ht => ⟨h.readOn ht.1, ht.2⟩
  · rintro why _ ⟨rfl, hwhy⟩
    exact ⟨h, hwhy⟩

theorem collectRecords_serving (h : Inside s hd pages) (expr : Option Expr) :
    wp (Table.collectRecords expr)
      (fun l t => (∃ file, t = { s with file } ∧ ReadOn s.file file hd pages) ∧
        ∀ r ∈ l, recordIn s.file.header pages r.rid = some r)
      (fun why t => Inside t hd pages ∧ Reports why) s := by
  unfold Table.collectRecords Table.scanning
  simp only [wp_bind, wp_zoom, wp_mapError]
  refine wp_mono (scanPredicate_serving s expr) ?_ ?_
  · rintro predicate _ rfl
    refine wp_mono (collect_serving h.serving h.fits predicate) ?_ ?_
    · exact fun l t ht => ⟨⟨_, rfl, ht.1⟩, ht.2⟩
    · exact fun why t ht => ⟨h.readOn ht.1, reports_recordError ht.2⟩
  · rintro why _ ⟨rfl, hwhy⟩
    exact ⟨h, hwhy⟩

theorem rowsByRids_serving (h : Inside s hd pages) (rids : List Rid) :
    wp (Table.rowsByRids rids) (fun _ t => Inside t hd pages)
      (fun why t => Inside t hd pages ∧ Reports why) s := by
  induction rids generalizing s with
  | nil => exact h
  | cons rid rest ih =>
      unfold Table.rowsByRids
      simp only [wp_bind, wp_liftFile, wp_get, wp_pure]
      refine wp_mono (get_serving h.serving h.fits rid) ?_ ?_
      · rintro record file ⟨hf, hr⟩
        have ht := h.readOn hf
        cases hdec : decodeRecord s.layout record with
        | error why => exact ⟨ht, h.decodes hr hdec⟩
        | ok row => exact ih ht
      · rintro why file ⟨hf, hwhy, -⟩
        exact ⟨h.readOn hf, reports_recordError hwhy⟩

theorem updateRecords_serving (h : Inside s hd pages) (assignments : List (String × Value))
    (records : List Record)
    (hdec : ∀ r ∈ records, ∀ why, decodeRecord s.layout r = .error why → Reports why) :
    wp (Table.updateRecords assignments records) (fun _ t => ∃ pages', Inside t hd pages')
      (fun why t => (∃ pages', Inside t hd pages') ∧ Reports why) s := by
  induction records generalizing s pages with
  | nil => exact ⟨pages, h⟩
  | cons record rest ih =>
      obtain ⟨hrecord, hrest⟩ := List.forall_mem_cons.mp hdec
      unfold Table.updateRecords
      simp only [wp_bind, wp_get]
      cases hd' : decodeRecord s.layout record with
      | error why => exact ⟨⟨pages, h⟩, hrecord why hd'⟩
      | ok row =>
          rw [wp_lift_ok]
          cases Table.assign s.layout row.values assignments with
          | error e => exact ⟨⟨pages, h⟩, e, rfl⟩
          | ok values =>
              rw [wp_check_ok]
              cases henc : encodeRow s.layout values with
              | error e => exact ⟨⟨pages, h⟩, e, rfl⟩
              | ok bytes =>
                  rw [wp_check_ok]
                  simp only [wp_liftFile, wp_pure]
                  refine wp_mono (update_serving h.serving h.fits record.rid bytes) ?_ ?_
                  · rintro _ file ⟨hlen, hhdr, pages', hs⟩
                    have hsize : s.layout.recordSize ≤ s.file.header.recordSize := by
                      rw [← hlen, (encodeRow_encodes h.compiled henc).length]
                    refine ih ⟨hs, ?_, h.compiled, Or.inl ?_⟩ hrest
                    · show file.header.Fits
                      rw [hhdr]
                      exact h.fits
                    · show s.layout.recordSize ≤ file.header.recordSize
                      rw [hhdr]
                      exact hsize
                  · rintro why file ⟨hf, hwhy⟩
                    exact ⟨⟨pages, h.readOn hf⟩, reports_recordError hwhy⟩

theorem deleteRecords_serving (h : Inside s hd pages) (records : List Record) :
    wp (Table.deleteRecords records) (fun _ t => ∃ pages', Inside t hd pages')
      (fun why t => (∃ pages', Inside t hd pages') ∧ Reports why) s := by
  induction records generalizing s pages with
  | nil => exact ⟨pages, h⟩
  | cons record rest ih =>
      unfold Table.deleteRecords
      simp only [wp_bind, wp_liftFile, wp_pure]
      refine wp_mono (delete_serving h.serving h.fits record.rid) ?_ ?_
      · rintro _ file ⟨hl, pages', hs, hback⟩
        refine ih ⟨hs, hl.fits h.fits, h.compiled, h.inside.imp (fun hle => ?_)
          fun hin rid r hr => ?_⟩
        · exact Nat.le_trans hle (Nat.le_of_eq hl.size.symm)
        · exact hin rid r (hback rid r hr)
      · rintro why file ⟨hf, hwhy⟩
        exact ⟨⟨pages, h.readOn hf⟩, reports_recordError hwhy⟩

/-- One call ends well, and leaves a table that the next one can be made on. -/
theorem call_serving (h : Inside s hd pages) (call : Call) :
    wp call.run (fun _ t => ∃ pages', Inside t hd pages')
      (fun why t => (∃ pages', Inside t hd pages') ∧ Reports why) s := by
  cases call with
  | scan expr =>
      simp only [Call.run, wp_bind, wp_pure]
      exact wp_mono (scan_serving h expr) (fun _ t ht => ⟨pages, ht⟩)
        fun _ t ht => ⟨⟨pages, ht.1⟩, ht.2⟩
  | rowsByRids rids =>
      simp only [Call.run, wp_bind, wp_pure]
      exact wp_mono (rowsByRids_serving h rids) (fun _ t ht => ⟨pages, ht⟩)
        fun _ t ht => ⟨⟨pages, ht.1⟩, ht.2⟩
  | updateWhere expr assignments =>
      simp only [Call.run, Table.updateWhere, wp_bind, wp_pure]
      refine wp_mono (collectRecords_serving h expr) ?_ fun _ t ht => ⟨⟨pages, ht.1⟩, ht.2⟩
      rintro records _ ⟨⟨file, rfl, hf⟩, hin⟩
      exact updateRecords_serving (h.readOn hf) assignments records
        fun r hr why => h.decodes (hin r hr)
  | deleteWhere expr =>
      simp only [Call.run, Table.deleteWhere, wp_bind, wp_pure]
      refine wp_mono (collectRecords_serving h expr) ?_ fun _ t ht => ⟨⟨pages, ht.1⟩, ht.2⟩
      rintro records _ ⟨⟨file, rfl, hf⟩, -⟩
      exact deleteRecords_serving (h.readOn hf) records

theorem Inside.endsWell (h : Inside s hd pages) (calls : List Call) : EndsWell calls s := by
  induction calls generalizing s pages with
  | nil => trivial
  | cons call rest ih =>
      have hw := call_serving h call
      unfold wp at hw
      unfold EndsWell
      cases hr : call.run s with
      | ok a t =>
          rw [hr] at hw
          obtain ⟨pages', ht⟩ := hw
          exact ⟨by rintro _ ⟨⟩, ih ht⟩
      | error why t =>
          rw [hr] at hw
          obtain ⟨⟨pages', ht⟩, hwhy⟩ := hw
          refine ⟨?_, ih ht⟩
          rintro _ ⟨⟩
          exact hwhy

/-- A record that is not decoded is reached through its id. -/
theorem rowsByRids_thrown (hs : Serving s.file.pool s.file.fileId hd pages)
    (hf : s.file.header.Fits) (hc : 0 < cap) {rid : Rid} {record : Record}
    (hr : recordIn s.file.header pages rid = some record) {why : Stop TableError}
    (hdec : decodeRecord s.layout record = .error why) :
    thrown (Call.run (.rowsByRids [rid]) s) = some why := by
  have hw : wp (Call.run (.rowsByRids [rid])) (fun _ _ => False) (fun why' _ => why' = why) s := by
    simp only [Call.run, Table.rowsByRids, wp_bind, wp_liftFile, wp_get, wp_pure]
    refine wp_mono (get_serving hs hf rid) ?_ ?_
    · rintro r file ⟨-, hr'⟩
      obtain rfl : record = r := Option.some.inj (hr.symm.trans hr')
      rw [hdec]
      exact rfl
    · rintro e file ⟨-, -, hnone⟩
      rw [hnone hc] at hr
      cases hr
  obtain ⟨_, t, hrun, rfl⟩ := exists_error_of_wp hw
  rw [hrun]
  rfl

theorem panics_of_outside (hs : Serving s.file.pool s.file.fileId hd pages)
    (hf : s.file.header.Fits) (hc : 0 < cap) {rid : Rid} {record : Record}
    (hr : recordIn s.file.header pages rid = some record)
    (hout : ¬ StaysInside record.data s.layout.columns) : ¬ EndsWell [.rowsByRids [rid]] s := by
  rw [staysInside_iff] at hout
  push Not at hout
  obtain ⟨why, hm, hwhy⟩ := hout
  have hdec : decodeRecord s.layout record = .error why := by
    unfold decodeRecord
    rw [hm]
    rfl
  rintro ⟨hends, -⟩
  exact hwhy (hends why (rowsByRids_thrown hs hf hc hr hdec))

end Tables

end Redbase.Table
