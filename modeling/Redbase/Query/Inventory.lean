import Redbase.Database.Inventory
import Redbase.Query.Refinement

/-!
# The files of an engine

After requests that all succeed the directory has a file for each table and each index, and the
files of the two catalogs, but no other.
-/

namespace Redbase.Query

open Prog Page Record Files Table Index Database QueryEngine

variable {s t : Database} {name : String} {schema : TableSchema} {layout : SchemaLayout}
  {bytes : List UInt8} {α : Type}

theorem write_tidy {m : TableM DiskPageIo defaultBufferCapacity α} (h : Good s) (ht : Tidy s)
    (hs : Stored s name schema layout bytes) (hm : KeepsTable bytes m) :
    wp (do
      let a ← QueryEngine.liftDatabase (Database.withTable name (Session.onTable m))
      QueryEngine.liftDatabase (Database.rebuildIndexesForTable name)
      return a) (fun _ t => Tidy t) (fun _ _ => True) s := by
  simp only [wp_bind, wp_liftDatabase, wp_pure]
  refine wp_mono (withTable_wrote h.faults hs hm) ?_ fun _ _ _ => trivial
  rintro _ u ⟨bytes', hw⟩
  have hu : Tidy u := by
    rw [hw.eq]
    refine ht.put (.table ?_)
    rw [hs.listed]
    exact Option.some_ne_none _
  have hsound := hw.sound hs h.sound
  refine wp_mono (rebuildIndexesForTable_spec hsound (hw.faults.trans h.faults) hw.stored) ?_
    fun _ _ _ => trivial
  rintro _ t ⟨-, hb, -⟩
  refine hu.rebuilt (fun m hm => ?_) hb
  rw [(hsound.indexesForTable name m hm).2]
  exact Option.some_ne_none _

/-- After a request that succeeds there are still no other files. -/
theorem Request.tidy (h : Good s) (ht : Tidy s) (request : Request) :
    wp request.run (fun _ t => Tidy t) (fun _ _ => True) s := by
  cases request with
  | createTable request =>
      unfold Request.run executeCreateTable
      rw [wp_liftDatabase]
      refine wp_mono (createTable_spec h.faults request.schema) ?_ fun _ _ _ => trivial
      rintro _ _ ⟨layout, bytes, -, -, rfl⟩
      exact ht.addTable
  | dropTable request =>
      unfold Request.run executeDropTable
      rw [wp_mapError]
      refine wp_mono (dropTable_spec h.sound h.faults request.table) ?_ fun _ _ _ => trivial
      rintro _ _ ⟨-, rfl⟩
      exact ht.removeTable
  | createIndex request =>
      unfold Request.run executeCreateIndex
      rw [wp_bind]
      refine wp_loadSchema (fun schema _ => ?_) fun _ => trivial
      split
      next =>
        simp only [wp_bind, wp_ite, wp_throw, wp_mapError, wp_pure]
        split
        next => trivial
        next =>
          refine wp_mono (createIndex_spec h.sound h.faults request.name request.table
            request.column) ?_ fun _ _ _ => trivial
          rintro m _ ⟨schema, layout, bytes, -, -, -, rfl, rfl⟩
          refine ht.addIndex.put (.index ?_)
          rw [find_addIndex_self]
          exact Option.some_ne_none _
      next => trivial
  | dropIndex request =>
      unfold Request.run executeDropIndex
      rw [wp_mapError]
      refine wp_mono (dropIndex_spec h.sound h.faults request.name) ?_ fun _ _ _ => trivial
      rintro _ _ ⟨-, rfl⟩
      exact ht.removeIndexFile
  | insert request =>
      unfold Request.run executeInsert
      rw [wp_bind, wp_bind]
      refine wp_loadSchema (fun schema hfind => ?_) fun _ => trivial
      obtain ⟨layout, bytes, hs⟩ := h.sound.tables request.table schema hfind
      rw [wp_bind]
      exact wp_check.mpr ⟨fun values _ => write_tidy h ht hs (keepsTable_insert values),
        fun _ _ => trivial⟩
  | update request =>
      unfold Request.run executeUpdate
      rw [wp_bind, wp_bind]
      refine wp_loadSchema (fun schema hfind => ?_) fun _ => trivial
      obtain ⟨layout, bytes, hs⟩ := h.sound.tables request.table schema hfind
      rw [wp_bind]
      exact wp_check.mpr ⟨fun plan _ => write_tidy h ht hs (keepsTable_updateWhere _ _),
        fun _ _ => trivial⟩
  | delete request =>
      unfold Request.run executeDelete
      rw [wp_bind, wp_bind]
      refine wp_loadSchema (fun schema hfind => ?_) fun _ => trivial
      obtain ⟨layout, bytes, hs⟩ := h.sound.tables request.table schema hfind
      rw [wp_bind]
      exact wp_check.mpr ⟨fun _ _ => write_tidy h ht hs (keepsTable_deleteWhere _),
        fun _ _ => trivial⟩
  | select request =>
      unfold Request.run
      rw [wp_bind]
      exact wp_mono (select_reads h request) (fun _ _ hsame => hsame ▸ ht) fun _ _ _ => trivial
  | showTables => exact ht
  | showIndexes => exact ht
  | describeTable table =>
      unfold Request.run
      rw [wp_bind]
      exact wp_mono (describeTable_reads table s) (fun _ _ hsame => hsame ▸ ht) fun _ _ _ => trivial
  | reopen => exact wp_mono (reopen_reads h) (fun _ _ hsame => hsame ▸ ht) fun _ _ _ => trivial

theorem Served.tidy (h : Served s) : Tidy s := by
  induction h with
  | start h =>
      obtain rfl := start_eq h
      exact fun path hf => absurd rfl hf
  | step request hs hr ih => exact (wp_ok hr (request.tidy hs.reachable.good ih) :)

/-- The directory holds the tables and the indexes of the store and nothing else beside the
catalogs, and each catalog is in its file unless it was never saved. -/
theorem directory_exact (h : Served s) :
    (∀ path, path ≠ catalogPath → path ≠ indexCatalogPath → (s.root.pathExists path = true ↔
      (∃ name relation, (storeOf s).relations name = some relation ∧ path = tablePath name) ∨
        ∃ name m, (storeOf s).indexes name = some m ∧ path = indexFilePath name)) ∧
    InFile s.root catalogPath s.catalog.content (s.catalog = .empty) ∧
    InFile s.root indexCatalogPath s.indexes.content (s.indexes = .empty) := by
  have hgood := h.reachable.good
  refine ⟨fun path hc hi => ?_, hgood.sound.catalogFile, hgood.sound.indexCatalogFile⟩
  rw [Disk.pathExists, Option.isSome_iff_ne_none]
  constructor
  · intro hf
    cases h.tidy path hf with
    | catalog => exact absurd rfl hc
    | indexCatalog => exact absurd rfl hi
    | @table name listed =>
        obtain ⟨schema, hfind⟩ := Option.ne_none_iff_exists'.mp listed
        obtain ⟨relation, hrelation⟩ := hgood.exists_relation hfind
        exact .inl ⟨name, relation, hrelation, rfl⟩
    | @index name listed =>
        obtain ⟨m, hfind⟩ := Option.ne_none_iff_exists'.mp listed
        exact .inr ⟨name, m, hfind, rfl⟩
  · rintro (⟨name, relation, hrelation, rfl⟩ | ⟨name, m, hfind, rfl⟩)
    · intro hnone
      have hlisted : s.catalog.tables.find name ≠ none := fun hn => by
        rw [show (storeOf s).relations name = none from relationOf_unlisted hn] at hrelation
        cases hrelation
      obtain ⟨schema, hfind⟩ := Option.ne_none_iff_exists'.mp hlisted
      obtain ⟨layout, bytes, hs⟩ := hgood.sound.tables name schema hfind
      rw [hs.file] at hnone
      cases hnone
    · intro hnone
      obtain ⟨rfl, hindexed⟩ := hgood.sound.indexes name m hfind
      obtain ⟨bytes, hfile⟩ := hindexed.exists_file
      rw [hfile] at hnone
      cases hnone

theorem directory_exact_row :
    ∃ s, s.root.pathExists "t.tbl" = true ∧ s.root.pathExists "i.idx" = true ∧
      ∀ path, path ≠ catalogPath → path ≠ indexCatalogPath → s.root.pathExists path = true →
        (∃ name relation, (storeOf s).relations name = some relation ∧ path = tablePath name) ∨
          ∃ name m, (storeOf s).indexes name = some m ∧ path = indexFilePath name := by
  obtain ⟨s, bytes, data, hs, -, hfind, -⟩ := exists_indexed_row
  obtain ⟨hfiles, -⟩ := directory_exact hs.served
  refine ⟨s, ?_, ?_, fun path hc hi => (hfiles path hc hi).mp⟩
  · exact (hfiles "t.tbl" (by decide) (by decide)).mpr
      (.inl ⟨"t", _, relationOf_stored hs.stored, rfl⟩)
  · exact (hfiles "i.idx" (by decide) (by decide)).mpr (.inr ⟨"i", _, hfind, rfl⟩)

end Redbase.Query
