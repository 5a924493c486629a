import Redbase.Database.Contents

/-!
# Opening a table of the database

A method runs on the table and leaves the bytes of its file; where it only read, the database is as
before.
-/

namespace Redbase.Database

open Prog Bytes Page Record Files Table Index Function

set_option linter.dupNamespace false

variable {s : Database} {name : String} {schema : TableSchema} {layout : SchemaLayout}
  {bytes : List UInt8} {α : Type}

/-- The database with `bytes` in the file of a table. -/
def Database.putTable (s : Database) (name : String) (bytes : List UInt8) : Database :=
  { s with root := s.root.put (tablePath name) (some bytes) }

/-- A table of the catalog, and what is in its file. -/
structure Stored (s : Database) (name : String) (schema : TableSchema) (layout : SchemaLayout)
    (bytes : List UInt8) :
    Prop where
  listed : s.catalog.tables.find name = some schema
  named : schema.name = name
  compiled : compileSchema schema = .ok layout
  file : s.root.files (tablePath name) = some bytes
  rows : RowsIn bytes layout

section Rules

variable {Q : α → Database → Prop} {E : Stop TableError → Database → Prop}

@[simp] theorem wp_check_ok (a : α) : wp (Database.check (.ok a)) Q E s ↔ Q a s := Iff.rfl

@[simp] theorem wp_check_error (e : TableError) :
    wp (Database.check (.error e) : DatabaseM α) Q E s ↔ E (.error e) s :=
  Iff.rfl

@[simp] theorem wp_onRoot {ε : Type} {f : ε → Stop TableError} {m : EStateM ε Disk α} :
    wp (Database.onRoot f m) Q E s ↔
      wp m (fun a root => Q a { s with root }) (fun e root => E (f e) { s with root }) s.root := by
  unfold Database.onRoot
  rw [wp_mapError, wp_zoom]

end Rules

/-- A table is opened unless the header of its file is refused. -/
theorem openTable_spec (hq : s.root.faults = []) (hs : Stored s name schema layout bytes) :
    wp (Database.openTable name)
      (fun table t => t = s ∧ (fileHeader bytes).Valid ∧ Opens table schema layout bytes)
      (fun _ t => t = s ∧ ¬ (fileHeader bytes).Valid) s := by
  obtain ⟨chain, hsaved⟩ := hs.rows.saved
  have hschema : s.catalog.getTableSchema name = .ok schema := by
    rw [Catalog.getTableSchema, hs.listed]
    rfl
  unfold Database.openTable
  simp only [wp_bind, wp_get, hschema, hs.compiled, wp_check_ok, wp_onRoot, wp_pure]
  refine wp_mono (RecordManager.openFile_spec hq hs.file hsaved) ?_ ?_
  · rintro file _ ⟨rfl, hv, hhdr, hh, hread, hdirty⟩
    refine ⟨rfl, hv, ⟨chain, hh, hs.compiled, ?_, ?_⟩, rfl, rfl, hhdr, hread, hdirty⟩
    · exact (congrArg _ hhdr).trans hs.rows.size
    · show Encoded layout file.header _
      rw [hhdr]
      exact hs.rows.encoded
  · rintro _ _ ⟨rfl, hv, -⟩
    exact ⟨rfl, hv⟩

/-- The table is open in `body`. -/
theorem wp_withTable {body : SessionM α} {Q : α → Database → Prop}
    {E : Stop TableError → Database → Prop}
    (hq : s.root.faults = []) (hs : Stored s name schema layout bytes)
    (hbody : ∀ table, (fileHeader bytes).Valid → Opens table schema layout bytes →
      wp body (fun a t => Q a (t.leave name)) (fun e t => E e (t.leave name)) ⟨s, table⟩)
    (hrefused : ∀ e, ¬ (fileHeader bytes).Valid → E e s) :
    wp (Database.withTable name body) Q E s := by
  have hopen := openTable_spec hq hs
  unfold wp at hopen
  unfold wp Database.withTable
  cases ho : Database.openTable name s with
  | error e t =>
      rw [ho] at hopen
      obtain ⟨rfl, hv⟩ := hopen
      exact hrefused e hv
  | ok table t =>
      rw [ho] at hopen
      obtain ⟨rfl, hv, hopens⟩ := hopen
      have hw := hbody table hv hopens
      unfold wp at hw
      cases hb : body ⟨t, table⟩ with
      | ok a u =>
          rw [hb] at hw
          simp only [hb]
          exact hw
      | error e u =>
          rw [hb] at hw
          simp only [hb]
          exact hw

/-! ## Methods on the open table -/

section Methods

variable {m : TableM DiskPageIo defaultBufferCapacity α} {table : DiskTable}

@[simp] theorem wp_onTable {Q : α → Session → Prop} {E : Stop TableError → Session → Prop}
    {t : Session} :
    wp (Session.onTable m) Q E t ↔
      wp m (fun a table => Q a { t with table }) (fun e table => E e { t with table }) t.table := by
  unfold Session.onTable
  rw [wp_zoom]

@[simp] theorem wp_onDatabase {n : DatabaseM α} {Q : α → Session → Prop}
    {E : Stop TableError → Session → Prop} {t : Session} :
    wp (Session.onDatabase n) Q E t ↔
      wp n (fun a database => Q a { t with database })
        (fun e database => E e { t with database }) t.database := by
  unfold Session.onDatabase
  rw [wp_zoom]

/-- A method that reads leaves the table open as it was. -/
theorem Opens.read {Q : α → Prop} {E : Prop} (ho : Opens table schema layout bytes)
    (hm : Table.Reads m) (hspec : ∀ chain, TableOk table (filePages bytes) chain →
      wp m (fun a t => Unchanged table t (filePages bytes) chain ∧ Q a)
        (fun _ t => Unchanged table t (filePages bytes) chain ∧ E) table) :
    wp m (fun a t => Opens t schema layout bytes ∧ Q a)
      (fun _ t => Opens t schema layout bytes ∧ E) table := by
  obtain ⟨chain, hok⟩ := ho.ok
  have hopens : ∀ t, Unchanged table t (filePages bytes) chain → Clean t.file bytes →
      Opens t schema layout bytes :=
    fun t hu hclean => ⟨⟨chain, hok.unchanged hu⟩, hu.schema.trans ho.schema,
      hu.layout.trans ho.layout, hu.file.header.trans ho.header, hclean⟩
  refine wp_mono (wp_and (hspec chain hok) (hm table bytes ho.clean)) ?_ ?_
  · rintro a t ⟨⟨hu, ha⟩, hclean⟩
    exact ⟨hopens t hu hclean, ha⟩
  · rintro e t ⟨⟨hu, he⟩, hclean⟩
    exact ⟨hopens t hu hclean, he⟩

end Methods

/-- A table that was only read leaves the database. -/
theorem leave_clean {table : DiskTable} (ho : Opens table schema layout bytes)
    (hf : s.root.files (tablePath name) = some bytes) :
    Session.leave ⟨s, table⟩ name = s := by
  rw [Session.leave, ho.drop]
  show { s with root := s.root.put (tablePath name) (some bytes) } = s
  rw [Disk.put_self hf]

/-- A table that was changed leaves its rows. -/
theorem leave_stored {table : DiskTable} {pages : Nat → PageData} {chain : List Nat}
    (hs : Stored s name schema layout bytes) (ht : TableOk table pages chain)
    (hlayout : table.layout = layout) :
    ∃ bytes', Session.leave ⟨s, table⟩ name = s.putTable name bytes' ∧
      Stored (s.putTable name bytes') name schema layout bytes' ∧
        fileHeader bytes' = table.file.header ∧
      ∀ p, table.file.header.HasPage p → filePages bytes' p = pages p := by
  obtain ⟨io, hdrop, hrows, hhdr, hpages⟩ := drop_rowsIn ht
  refine ⟨io.file, ?_, ⟨hs.listed, hs.named, hs.compiled, update_self .., hlayout ▸ hrows⟩, hhdr,
    hpages⟩
  rw [Session.leave, hdrop]
  rfl

end Redbase.Database
