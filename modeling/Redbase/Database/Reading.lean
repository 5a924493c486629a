import Redbase.Database.Lemmas.Catalog
import Redbase.Database.Lemmas.Inside
import Redbase.Database.Lemmas.IndexSchema
import Redbase.Record.Theorems

/-!
# Tables that can be read

Nothing compares the record size in the file of a table with the schema in the catalog. An open
table can be read just when its records are long enough for the columns that are looked at.
-/

namespace Redbase.Database

open Prog Bytes Text Page Record Files Table Index

set_option linter.dupNamespace false

variable {s t : Database} {name : String} {schema : TableSchema} {layout : SchemaLayout}
  {bytes : List UInt8} {table : DiskTable}

/-- A directory with a catalog of one table, and its file. -/
def rootWith (schema : TableSchema) (bytes : List UInt8) : Disk :=
  (Disk.empty.put catalogPath (some (utf8 (Catalog.declaring [schema])))).put
    (tablePath schema.name) (some bytes)

def databaseWith (schema : TableSchema) (bytes : List UInt8) : Database :=
  ⟨rootWith schema bytes, ⟨Catalog.insertAll SortedMap.empty [schema]⟩, .empty⟩

theorem open_rootWith (hc : compileSchema schema = .ok layout) :
    Database.open (rootWith schema bytes) = .ok (databaseWith schema bytes) := by
  have hcompiled : Catalog.Compiled [schema] := by
    intro table ht
    obtain rfl := List.mem_singleton.mp ht
    exact ⟨layout, hc⟩
  have hcatalog : (rootWith schema bytes).files catalogPath =
      some (utf8 (Catalog.declaring [schema])) := by
    rw [rootWith, Disk.files_put_of_ne (Ne.symm tablePath_ne_catalogPath), Disk.files_put_self]
  have hindexes : (rootWith schema bytes).files indexCatalogPath = none := by
    rw [rootWith, Disk.files_put_of_ne (Ne.symm tablePath_ne_indexCatalogPath),
      Disk.files_put_of_ne (by decide)]
    rfl
  unfold Database.open
  rw [Catalog.load_declaring hcompiled hcatalog, IndexCatalog.load_none hindexes]
  rfl

theorem getTableSchema_databaseWith :
    (databaseWith schema bytes).catalog.getTableSchema schema.name = .ok schema :=
  getTableSchema_eq_ok.mpr ((congrFun (SortedMap.find_insert ..) _).trans (Function.update_self ..))

theorem openTable_databaseWith {h : RecordFileHeader} {pages : Nat → PageData} {chain : List Nat}
    (hc : compileSchema schema = .ok layout) (hs : Saved (DiskPageIo.mk bytes) h pages chain)
    (hv : h.Valid) :
    ∃ table, Database.openTable schema.name (databaseWith schema bytes) =
      .ok table (databaseWith schema bytes) := by
  have hw : wp (Database.openTable schema.name) (fun _ t => t = databaseWith schema bytes) never
      (databaseWith schema bytes) := by
    unfold Database.openTable
    simp only [wp_bind, wp_get, getTableSchema_databaseWith, hc, wp_check_ok, wp_onRoot, wp_pure]
    refine wp_mono (RecordManager.openFile_spec rfl (Disk.files_put_self ..) hs) ?_ ?_
    · rintro file _ ⟨rfl, -⟩
      exact rfl
    · rintro _ _ ⟨-, hnv, -⟩
      exact hnv hv
  obtain ⟨table, _, he, rfl⟩ := exists_ok_of_wp hw
  exact ⟨table, he⟩

/-- The file of a table of four-byte records, with one record. -/
theorem exists_fourByteFile :
    ∃ bytes h pages chain rid, Saved (DiskPageIo.mk bytes) h pages chain ∧ h.Valid ∧
      h.recordSize = 4 ∧ recordIn h (pageIn bytes) rid = some ⟨rid, [1, 2, 3, 4]⟩ := by
  obtain ⟨pageFile, s, hp, run, hn⟩ := exists_created
  obtain ⟨hlt, pages, chain, hi⟩ := run.implements hp
  have hstep := step_simulates hi hlt (.insert [1, 2, 3, 4])
  have hlt' : (step s (.insert [1, 2, 3, 4])).1.file.header.numPages < 2 ^ 31 := by
    have := hstep.grows
    omega
  obtain ⟨pages', chain', hi'⟩ := hstep.kept
  obtain ⟨rid, hr, -⟩ := hstep.answers
  have hl : lookup (step s (.insert [1, 2, 3, 4])).1.file.header pages' rid =
      some [1, 2, 3, 4] := by
    rw [hi'.entries, hr]
    exact Function.update_self ..
  obtain ⟨io, pages₀, -, hsame, hsaved⟩ := drop_spec hi'.holds
  have hl₀ : lookup (step s (.insert [1, 2, 3, 4])).1.file.header pages₀ rid =
      some [1, 2, 3, 4] := by
    rw [lookup_congr fun p hp => hsame p (ne_zero_of_hasPage hp)]
    exact hl
  have hhas := hasPage_of_lookup hl₀
  have hr₀ := hsaved.wf.readable (hi'.small hlt') hhas.1
  exact ⟨io.file, _, pages₀, chain', rid, hsaved, hsaved.wf.valid (hi'.small hlt'), hi'.size,
    recordIn_eq hsaved hr₀ hl₀⟩

end Redbase.Database
