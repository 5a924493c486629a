import Redbase.Database.Contents
import Redbase.Database.Lemmas.Tables
import Redbase.Table.Lemmas.Inside

/-!
# Opening a table from any file

`open_table` takes the schema from the catalog and the record size from the file. What it has opened
holds the pages in the bytes of the file, whatever they are.
-/

namespace Redbase.Database

open Prog Bytes Page Buffer Record Files Table

set_option linter.dupNamespace false

variable {d : Disk} {path name : String} {bytes : List UInt8} {s : Database}

theorem openFile_any :
    wp (Disk.openFile path) (fun io _ => d.files path = some io.file) (fun _ _ => True) d := by
  unfold Disk.openFile
  rw [wp_bind]
  refine wp_mono (Disk.turn_files (d := d)) (fun _ u hu => ?_) fun _ _ _ => trivial
  simp only [wp_bind, wp_get]
  cases hf : u.files path with
  | none => trivial
  | some bytes => exact (congrFun hu path).symm.trans hf

/-- A record file that was opened from `bytes`. -/
structure OpenedFrom (file : DiskRecordFile) (bytes : List UInt8) : Prop where
  serving : ∃ hd, Serving file.pool file.fileId hd (pageIn bytes)
  fits : file.header.Fits
  header : file.header = fileHeader bytes

theorem recordFile_openFile_any :
    wp (RecordManager.openFile path)
      (fun file _ => ∃ bytes, d.files path = some bytes ∧ OpenedFrom file bytes)
      (fun _ _ => True) d := by
  unfold RecordManager.openFile PageManager.openFile
  simp only [wp_bind, wp_mapError]
  refine wp_mono (openFile_any (d := d)) (fun io u hio => ?_) fun _ _ _ => trivial
  cases hp : PageFile.open io with
  | error e io' => trivial
  | ok pageFile io' =>
      have ho := wp_ok hp (open_faulty io)
      simp only [wp_pure]
      cases hr : RecordFile.open pageFile defaultBufferCapacity with
      | error _ => trivial
      | ok file =>
          obtain ⟨⟨hserving, hchecked, -, -⟩, -⟩ := open_serving (steady_of_opened ho) hr
          rw [contents_of_opened ho] at hserving
          refine ⟨io.file, hio, ⟨_, hserving⟩, hchecked.valid.fits, ?_⟩
          obtain ⟨bytes, hbytes, hread⟩ := hchecked.stored
          have hpage : filePages io.file headerPageId = bytes := by
            rw [filePages, pageFileOf, hp]
            show (pageFile.contents headerPageId).getD _ = _
            rw [hbytes]
            rfl
          rw [fileHeader, hpage, hread]

/-- A saved file that was opened, also where calls on the directory can fail. -/
theorem openFile_saved {h : RecordFileHeader} {pages : Nat → PageData} {chain : List Nat}
    (hf : d.files path = some bytes) (hs : Saved (DiskPageIo.mk bytes) h pages chain) :
    wp (RecordManager.openFile path)
      (fun file _ => h.Valid ∧ file.header = h ∧ Holds file pages chain ∧ Reading file.pool bytes ∧
        file.headerDirty = false)
      (fun _ _ => True) d := by
  have hcap : 0 < defaultBufferCapacity := by decide
  obtain ⟨file, io, hopen, hcases⟩ := hs.open_cases hcap rfl
  unfold RecordManager.openFile PageManager.openFile
  simp only [wp_bind, wp_mapError]
  refine wp_mono (openFile_any (d := d)) (fun io' u hio => ?_) fun _ _ _ => trivial
  obtain rfl : bytes = io'.file := Option.some.inj (hf.symm.trans hio)
  simp only [hopen, wp_pure]
  rcases hcases with ⟨hv, s, he, hhdr, hh, hread, hdirty⟩ | ⟨-, e, left, he, -⟩
  · simp only [he, wp_pure]
    exact ⟨hv, hhdr, hh, hread, hdirty⟩
  · simp only [he]
    trivial

/-- A table that `open_table` returns. -/
theorem openTable_any {schema : TableSchema} {layout : SchemaLayout}
    (hs : s.catalog.getTableSchema name = .ok schema) (hc : compileSchema schema = .ok layout)
    (hf : s.root.files (tablePath name) = some bytes) :
    wp (Database.openTable name)
      (fun table _ => table.schema = schema ∧ table.layout = layout ∧ OpenedFrom table.file bytes)
      (fun _ _ => True) s := by
  unfold Database.openTable
  simp only [wp_bind, wp_get, hs, hc, wp_check_ok, wp_onRoot, wp_pure]
  refine wp_mono recordFile_openFile_any ?_ fun _ _ _ => trivial
  rintro file u ⟨bytes', hf', ho⟩
  obtain rfl : bytes = bytes' := Option.some.inj (hf.symm.trans hf')
  exact ⟨trivial, trivial, ho⟩

/-- A table of rows that was opened, also where calls on the directory can fail. -/
theorem openTable_stored {schema : TableSchema} {layout : SchemaLayout}
    (hs : Stored s name schema layout bytes) :
    wp (Database.openTable name)
      (fun table _ => (fileHeader bytes).Valid ∧ Opens table schema layout bytes)
      (fun _ _ => True) s := by
  obtain ⟨chain, hsaved⟩ := hs.rows.saved
  have hschema : s.catalog.getTableSchema name = .ok schema := by
    rw [Catalog.getTableSchema, hs.listed]
    rfl
  unfold Database.openTable
  simp only [wp_bind, wp_get, hschema, hs.compiled, wp_check_ok, wp_onRoot, wp_pure]
  refine wp_mono (openFile_saved hs.file hsaved) ?_ fun _ _ _ => trivial
  rintro file _ ⟨hv, hhdr, hh, hread, hdirty⟩
  refine ⟨hv, ⟨chain, hh, hs.compiled, ?_, ?_⟩, rfl, rfl, hhdr, hread, hdirty⟩
  · exact (congrArg _ hhdr).trans hs.rows.size
  · show Encoded layout file.header _
    rw [hhdr]
    exact hs.rows.encoded

/-- What a call on an open table returns. -/
theorem wp_withTable_returns {α : Type} {body : SessionM α} {Q : α → Prop} {schema : TableSchema}
    {layout : SchemaLayout} (hs : Stored s name schema layout bytes)
    (hbody : ∀ t table, (fileHeader bytes).Valid → Opens table schema layout bytes →
      wp body (fun a _ => Q a) (fun _ _ => True) ⟨t, table⟩) :
    wp (Database.withTable name body) (fun a _ => Q a) (fun _ _ => True) s := by
  have hopen := openTable_stored hs
  unfold wp at hopen
  unfold wp Database.withTable
  cases ho : Database.openTable name s with
  | error e t => trivial
  | ok table t =>
      rw [ho] at hopen
      have hw := hbody t table hopen.1 hopen.2
      unfold wp at hw
      cases hb : body ⟨t, table⟩ with
      | ok a u =>
          rw [hb] at hw
          simp only [hb]
          exact hw
      | error e u => simp only [hb]

/-! ## Records in the bytes -/

/-- A page of a saved file is in its bytes. -/
theorem pageIn_eq {h : RecordFileHeader} {pages : Nat → PageData} {chain : List Nat}
    (hs : Saved (DiskPageIo.mk bytes) h pages chain) {p : Nat} (hp : p ≤ h.numPages) :
    pageIn bytes p = some (pages p) := by
  obtain ⟨file, io, hopen, hplain⟩ := exists_ok_of_wp (hs.disk _ rfl)
  have ho := wp_ok hopen (open_faulty (DiskPageIo.mk bytes))
  have hcontents := hplain.contents p
  rw [contents_of_opened ho, if_pos (Nat.lt_succ_of_le hp)] at hcontents
  exact hcontents

/-- A record of a saved file can be read from its bytes. -/
theorem recordIn_eq {h : RecordFileHeader} {pages : Nat → PageData} {chain : List Nat}
    (hs : Saved (DiskPageIo.mk bytes) h pages chain) {rid : Rid} {data : List UInt8}
    (hr : Readable h (pages rid.pageId)) (hl : lookup h pages rid = some data) :
    recordIn h (pageIn bytes) rid = some ⟨rid, data⟩ := by
  unfold lookup at hl
  split at hl
  next hu =>
    obtain ⟨hp, hslot, hfree⟩ := hu
    cases hl
    refine recordIn_eq_some.mpr
      ⟨hp, _, pageIn_eq hs hp.2, (getFrom_eq_ok hs.wf.fits).mpr ⟨?_, hslot, hfree, rfl⟩⟩
    exact RecordPageHeader.validate_eq_ok_iff.mp hr.validate
  next => cases hl

end Redbase.Database
