import Redbase.Query.Run
import Redbase.Database.Lemmas.Rows

/-!
# What a request keeps

Every request keeps the database sound, and one that succeeds keeps its indexes up to date.
-/

namespace Redbase.Query

open Prog Page Record Files Table Index Database

variable {α : Type} {s t : Database} {name : String} {schema : TableSchema} {layout : SchemaLayout}
  {bytes : List UInt8} {Q : α → Database → Prop} {E : Stop QueryError → Database → Prop}

/-! ## Rules -/

@[simp] theorem wp_liftDatabase {m : DatabaseM α} :
    wp (QueryEngine.liftDatabase m) Q E s ↔ wp m Q (fun e t => E (tableError e) t) s := by
  unfold QueryEngine.liftDatabase
  rw [wp_mapError]

theorem wp_check {x : Except QueryError α} :
    wp (QueryEngine.check x) Q E s ↔ (∀ a, x = .ok a → Q a s) ∧ ∀ e, x = .error e →
      E (.error e) s := by
  cases x <;> simp [QueryEngine.check, Except.mapError]

/-- A table of the request is listed, or the request is refused. -/
theorem wp_loadSchema {Q : TableSchema → Database → Prop}
    (hlisted : ∀ schema, s.catalog.tables.find name = some schema → Q schema s)
    (hunknown : s.catalog.tables.find name = none → E (.error (.unknownTable name)) s) :
    wp (QueryEngine.loadSchema name) Q E s := by
  unfold QueryEngine.loadSchema
  rw [wp_bind, wp_get, wp_check]
  unfold Catalog.getTableSchema
  cases hf : s.catalog.tables.find name with
  | none =>
      refine ⟨fun a he => by simp [Except.mapError] at he, fun e he => ?_⟩
      cases he
      exact hunknown hf
  | some schema =>
      refine ⟨fun a he => ?_, fun e he => by cases he⟩
      cases he
      exact hlisted _ hf

/-! ## Invariants -/

/-- A database in which no call on the directory fails. -/
structure Good (s : Database) : Prop where
  sound : Sound s
  faults : s.root.faults = []

/-- A request keeps the database good; when it succeeds, it keeps the indexes up to date. -/
abbrev Keeps (m : QueryM α) (s : Database) : Prop :=
  wp m (fun _ t => Good t ∧ (Fresh s → Fresh t)) (fun _ t => Good t) s

/-- A request that changes nothing. -/
abbrev Reads (m : QueryM α) (s : Database) : Prop := wp m (fun _ t => t = s) (fun _ t => t = s) s

theorem Good.keeps_of_reads {m : QueryM α} (h : Good s) (hm : Reads m s) : Keeps m s := by
  refine wp_mono hm ?_ ?_
  · rintro _ _ rfl
    exact ⟨h, id⟩
  · rintro _ _ rfl
    exact h

theorem Keeps.discard {m : QueryM α} (h : Keeps m s) : Keeps (do let _ ← m) s := by
  unfold Keeps
  rw [wp_bind]
  exact h

/-! ## Schema changes -/

theorem Good.putTable (h : Good s) (hn : s.catalog.tables.find name = none) :
    Good (s.putTable name bytes) :=
  ⟨h.sound.orphan hn, h.faults⟩

theorem createTable_keeps (h : Good s) (request : CreateTableRequest) :
    Keeps (QueryEngine.executeCreateTable request) s := by
  unfold Keeps QueryEngine.executeCreateTable
  rw [wp_liftDatabase]
  refine wp_mono (createTable_spec h.faults request.schema) ?_ ?_
  · rintro _ _ ⟨layout, bytes, hc, he, rfl⟩
    exact ⟨⟨h.sound.addTable hc he, h.faults⟩, fun hfresh => hfresh.addTable h.sound hc⟩
  · rintro _ _ (⟨-, rfl⟩ | ⟨layout, bytes, _, hc, -, rfl⟩)
    · exact h
    · exact h.putTable hc.unlisted

theorem dropTable_keeps (h : Good s) (request : DropTableRequest) :
    Keeps (QueryEngine.executeDropTable request) s := by
  unfold Keeps QueryEngine.executeDropTable
  rw [wp_mapError]
  refine wp_mono (dropTable_spec h.sound h.faults request.table) ?_ ?_
  · rintro _ _ ⟨-, rfl⟩
    exact ⟨⟨h.sound.removeTable, eraseIndexes_catalog.2.trans h.faults⟩,
      fun hfresh => hfresh.removeTable h.sound⟩
  · rintro _ _ ⟨-, -, rfl⟩
    exact h

theorem createIndex_keeps (h : Good s) (request : CreateIndexRequest) :
    Keeps (QueryEngine.executeCreateIndex request) s := by
  unfold Keeps QueryEngine.executeCreateIndex
  rw [wp_bind]
  refine wp_loadSchema (fun schema _ => ?_) fun _ => h
  split
  next column _ =>
    simp only [wp_bind, wp_ite, wp_throw, wp_mapError, wp_pure]
    split
    next => exact h
    next =>
      refine wp_mono (createIndex_spec h.sound h.faults request.name request.table request.column)
        ?_ ?_
      · rintro _ _ ⟨schema, layout, bytes, hi, -, hp, rfl, rfl⟩
        exact ⟨⟨(h.sound.addIndex hi).putIndex hi.storable
            (entriesOf_fits hi.stored.rows), h.faults⟩,
          fun hfresh => hfresh.addIndex h.sound hi hp⟩
      · rintro _ _ (⟨-, rfl⟩ | ⟨schema, layout, bytes, hi, ⟨-, rfl⟩ | ⟨-, -, rfl⟩⟩)
        · exact h
        · exact ⟨h.sound.putIndex hi.storable fun entry he => by simp at he, h.faults⟩
        · exact ⟨h.sound.addIndex hi, h.faults⟩
  next => exact h

theorem dropIndex_keeps (h : Good s) (request : DropIndexRequest) :
    Keeps (QueryEngine.executeDropIndex request) s := by
  unfold Keeps QueryEngine.executeDropIndex
  rw [wp_mapError]
  refine wp_mono (dropIndex_spec h.sound h.faults request.name) ?_ ?_
  · rintro _ _ ⟨-, rfl⟩
    exact ⟨⟨h.sound.removeIndexFile, h.faults⟩, fun hfresh => hfresh.removeIndexFile h.sound⟩
  · rintro _ _ ⟨-, -, rfl⟩
    exact h

/-! ## Writing to a table -/

/-- The end of `execute_insert`, `execute_update` and `execute_delete`. -/
theorem write_keeps {m : TableM DiskPageIo defaultBufferCapacity α} (h : Good s)
    (hs : Stored s name schema layout bytes) (hm : KeepsTable bytes m) :
    Keeps (do
      let a ← QueryEngine.liftDatabase (Database.withTable name (Session.onTable m))
      QueryEngine.liftDatabase (Database.rebuildIndexesForTable name)
      return a) s := by
  unfold Keeps
  simp only [wp_bind, wp_liftDatabase, wp_pure]
  have hgood : ∀ {u bytes'}, Wrote s u name schema layout bytes' → Good u := fun hw =>
    ⟨hw.sound hs h.sound, hw.faults.trans h.faults⟩
  refine wp_mono (withTable_wrote h.faults hs hm) ?_ ?_
  · rintro _ u ⟨bytes', hw⟩
    have hsame : u.indexes.indexesForTable name = s.indexes.indexesForTable name := by
      rw [hw.catalogs.2]
    refine wp_mono (rebuildIndexesForTable_spec (hgood hw).sound (hgood hw).faults hw.stored) ?_ ?_
    · rintro _ t ⟨hp, hb, hsound⟩
      rw [hsame] at hp hb
      exact ⟨⟨hsound, hb.faults.trans (hgood hw).faults⟩, fun hfresh =>
        hfresh.rewrite hs h.sound hw hp hb⟩
    · rintro _ _ ⟨rfl, -⟩
      exact hgood hw
  · rintro _ u ⟨bytes', hw⟩
    exact hgood hw

theorem insert_keeps (h : Good s) (request : ExtendedInsertRequest) :
    Keeps (QueryEngine.executeInsert request) s := by
  unfold Keeps QueryEngine.executeInsert
  rw [wp_bind]
  refine wp_loadSchema (fun schema hfind => ?_) fun _ => h
  obtain ⟨layout, bytes, hs⟩ := h.sound.tables request.table schema hfind
  rw [wp_bind]
  exact wp_check.mpr ⟨fun values _ => write_keeps h hs (keepsTable_insert values), fun _ _ => h⟩

theorem update_keeps (h : Good s) (request : UpdateRequest) :
    Keeps (QueryEngine.executeUpdate request) s := by
  unfold Keeps QueryEngine.executeUpdate
  rw [wp_bind]
  refine wp_loadSchema (fun schema hfind => ?_) fun _ => h
  obtain ⟨layout, bytes, hs⟩ := h.sound.tables request.table schema hfind
  rw [wp_bind]
  exact wp_check.mpr ⟨fun plan _ => write_keeps h hs (keepsTable_updateWhere _ _), fun _ _ => h⟩

theorem delete_keeps (h : Good s) (request : DeleteRequest) :
    Keeps (QueryEngine.executeDelete request) s := by
  unfold Keeps QueryEngine.executeDelete
  rw [wp_bind]
  refine wp_loadSchema (fun schema hfind => ?_) fun _ => h
  obtain ⟨layout, bytes, hs⟩ := h.sound.tables request.table schema hfind
  rw [wp_bind]
  exact wp_check.mpr ⟨fun _ _ => write_keeps h hs (keepsTable_deleteWhere _), fun _ _ => h⟩

end Redbase.Query
