import Redbase.Query.Inventory

/-!
# Schema requests that are rejected

When a rejected `create_index` or `create_table` leaves the directory and the catalogs as they were.
-/

namespace Redbase.Query

open Prog Bytes Text Page Record Files Table Index Database QueryEngine

variable {s t : Database} {name table column : String} {schema : TableSchema}
  {layout : SchemaLayout} {bytes : List UInt8}

/-! ## Creating an index -/

/-- A failed request leaves the catalog of the indexes, every index file, and every answer to a
select. -/
def KeepsIndexes {ε α : Type} (s : Database) (r : EStateM.Result ε Database α) : Prop :=
  ∀ e t, r = .error e t → t.indexes = s.indexes ∧
    t.root.files indexCatalogPath = s.root.files indexCatalogPath ∧
    (∀ n bytes, s.root.files (indexFilePath n) = some bytes →
      t.root.files (indexFilePath n) = some bytes) ∧
    ∀ request, answer (executeSelect request t) = answer (executeSelect request s)

/-- What `create_index` checks before its first write: the names, and that the column is an `Int32`
column. -/
def PassesChecks (s : Database) (name table column : String) : Prop :=
  validateIdentifier name = .ok () ∧
    ∃ schema layout c, s.catalog.getTableSchema table = .ok schema ∧
    compileSchema schema = .ok layout ∧ layout.column column = .ok c ∧ c.columnType = .int32

/-- The file of the index would not be changed, or the index can be built. -/
def IndexHarmless (s : Database) (name table column : String) : Prop :=
  if s.indexes.contains name then
    s.root.files (indexFilePath name) = some (utf8 (indexContent (newIndex name table column) []))
  else ∃ bytes, s.root.files (tablePath table) = some bytes ∧ HeadersPass bytes

theorem passesChecks_iff (h : Sound s) :
    PassesChecks s name table column ↔
      ∃ schema layout bytes, Indexable s name table column schema layout bytes := by
  constructor
  · rintro ⟨hid, schema, layout, c, hfind, hc, hcol, hint⟩
    obtain ⟨layout', bytes, hs⟩ := h.tables table schema (getTableSchema_eq_ok.mp hfind)
    obtain rfl : layout' = layout := Except.ok.inj (hs.compiled.symm.trans hc)
    exact ⟨schema, layout', bytes, hid, hs, c, hcol, hint⟩
  · rintro ⟨schema, layout, bytes, hid, hs, c, hcol, hint⟩
    exact ⟨hid, schema, layout, c, getTableSchema_eq_ok.mpr hs.listed, hs.compiled, hcol, hint⟩

theorem keepsIndexes_same {ε α : Type} {r : EStateM.Result ε Database α}
    (h : ∀ e t, r = .error e t → t = s) :
    KeepsIndexes s r := by
  intro e t hr
  obtain rfl := h e t hr
  exact ⟨rfl, rfl, fun _ _ hf => hf, fun _ => rfl⟩

/-- The file of an index that is in the catalog. -/
theorem exists_indexFile (h : Sound s) (hcon : s.indexes.contains name = true) :
    ∃ bytes, s.root.files (indexFilePath name) = some bytes := by
  obtain ⟨m, hfind⟩ := SortedMap.contains_iff.mp hcon
  obtain ⟨rfl, hi⟩ := h.indexes name m hfind
  exact hi.exists_file

/-- A request that has passed the checks. -/
theorem keepsIndexes_iff (h : Good s) (hi : Indexable s name table column schema layout bytes) :
    KeepsIndexes s (Database.createIndex name table column s) ↔
      IndexHarmless s name table column := by
  have hw := createIndex_writes h.sound h.faults hi
  unfold IndexHarmless
  constructor
  · intro hk
    split
    next hcon =>
        obtain ⟨old, hold⟩ := exists_indexFile h.sound hcon
        have hfail : wp (Database.createIndex name table column) (fun _ _ => False) _ s :=
          wp_mono hw (fun _ _ hq => by rw [hcon] at hq; cases hq.1) fun _ _ he => he
        obtain ⟨e, t, hr, ⟨-, rfl⟩ | ⟨hno, -⟩⟩ := exists_error_of_wp hfail
        · have hnew : (s.putIndex (newIndex name table column) []).root.files (indexFilePath name) =
              some (utf8 (indexContent (newIndex name table column) [])) :=
                Disk.files_put_self _ _ _
          rw [hold, ← (hk e _ hr).2.2.1 name old hold, hnew]
        · rw [hcon] at hno
          cases hno
    next hcon =>
        refine ⟨bytes, hi.stored.file, ?_⟩
        by_contra hp
        have hfail : wp (Database.createIndex name table column) (fun _ _ => False) _ s :=
          wp_mono hw (fun _ _ hq => hp hq.2.1) fun _ _ he => he
        obtain ⟨e, t, hr, ⟨hyes, -⟩ | ⟨-, -, rfl⟩⟩ := exists_error_of_wp hfail
        · exact hcon hyes
        · have hfind := find_addIndex_self (s := s) (m := newIndex name table column)
          rw [(hk e _ hr).1] at hfind
          exact hcon (SortedMap.contains_iff.mpr ⟨_, hfind⟩)
  · intro hharm
    refine keepsIndexes_same fun e t hr => ?_
    rcases wp_error hr hw with ⟨hcon, rfl⟩ | ⟨hno, hp, -⟩
    · rw [if_pos hcon] at hharm
      exact congrArg (fun root => { s with root }) (Disk.put_self hharm)
    · rw [if_neg (by rw [hno]; decide)] at hharm
      obtain ⟨bytes', hf, hp'⟩ := hharm
      obtain rfl := Option.some.inj (hi.stored.file.symm.trans hf)
      exact absurd hp' hp

/-- A column of the layout is one of the schema. -/
theorem find_schemaColumn {schemas : List ColumnSchema} {columns : List LayoutColumn}
    (hn : columns.map LayoutColumn.name = schemas.map ColumnSchema.name)
    (ht : columns.map LayoutColumn.columnType = schemas.map ColumnSchema.columnType)
    {c : LayoutColumn} (hc : columns.find? (fun c => c.name = column) = some c) :
    ∃ sc, schemas.find? (fun item => item.name = column) = some sc ∧
      sc.columnType = c.columnType := by
  induction columns generalizing schemas with
  | nil => simp at hc
  | cons first rest ih =>
      cases schemas with
      | nil => simp at hn
      | cons sc schemas =>
          simp only [List.map_cons, List.cons.injEq] at hn ht
          rw [List.find?_cons] at hc ⊢
          rw [hn.1] at hc
          split at hc
          next =>
              obtain rfl := Option.some.inj hc
              exact ⟨sc, rfl, ht.1.symm⟩
          next => exact ih hn.2 ht.2 hc

theorem layoutColumn_eq_ok {c : LayoutColumn} :
    layout.column column = .ok c ↔ layout.columns.find? (fun c => c.name = column) = some c := by
  unfold SchemaLayout.column
  split
  next hf => simp [hf]
  next hf => simp [hf]

/-- A request that passes the checks of the engine as well. -/
theorem executeCreateIndex_eq (hp : PassesChecks s name table column) :
    ∃ f, executeCreateIndex ⟨name, table, column⟩ s =
      (do let _ ← mapError f (Database.createIndex name table column)) s := by
  obtain ⟨-, schema, layout, c, hfind, hc, hcol, hint⟩ := hp
  have hl := compileSchema_laid hc
  obtain ⟨sc, hsc, htype⟩ := find_schemaColumn hl.names hl.types (layoutColumn_eq_ok.mp hcol)
  refine ⟨createIndexError ⟨name, table, column⟩ sc, ?_⟩
  unfold executeCreateIndex
  have hload : loadSchema table s = .ok schema s := by
    unfold loadSchema
    show QueryEngine.check ((s.catalog.getTableSchema table).mapError (unknownTable table)) s = _
    rw [hfind]
    rfl
  simp only [bind, EStateM.bind, hload, hsc, htype, hint]
  rfl

theorem executeCreateIndex_refused (h : Good s) (hp : ¬ PassesChecks s name table column) :
    wp (executeCreateIndex ⟨name, table, column⟩) (fun _ _ => False) (fun _ t => t = s) s := by
  unfold executeCreateIndex
  rw [wp_bind]
  refine wp_loadSchema (fun schema _ => ?_) fun _ => rfl
  split
  next =>
    simp only [wp_bind, wp_ite, wp_throw, wp_mapError, wp_pure]
    split
    next => trivial
    next => exact createIndex_refused h.sound fun hi => hp ((passesChecks_iff h.sound).mpr hi)
  next => rfl

/-- A request that is rejected changes nothing just when the checks refuse it, or the file of the
index is left as it was. -/
theorem createIndex_rejected (h : Reachable s) (request : CreateIndexRequest) :
    (KeepsIndexes s (Database.createIndex request.name request.table request.column s) ↔
      (PassesChecks s request.name request.table request.column →
        IndexHarmless s request.name request.table request.column)) ∧
    (KeepsIndexes s (executeCreateIndex request s) ↔
      (PassesChecks s request.name request.table request.column →
        IndexHarmless s request.name request.table request.column)) := by
  obtain ⟨name, table, column⟩ := request
  have hgood := h.good
  by_cases hp : PassesChecks s name table column
  · obtain ⟨schema, layout, bytes, hi⟩ := (passesChecks_iff hgood.sound).mp hp
    have hkeeps := keepsIndexes_iff hgood hi
    obtain ⟨f, heq⟩ := executeCreateIndex_eq hp
    have hexecute : KeepsIndexes s (executeCreateIndex ⟨name, table, column⟩ s) ↔
        KeepsIndexes s (Database.createIndex name table column s) := by
      rw [heq]
      simp only [KeepsIndexes, bind, EStateM.bind, mapError]
      cases Database.createIndex name table column s with
      | ok m t => exact ⟨fun _ _ _ hr => (by cases hr), fun _ _ _ hr => (by cases hr)⟩
      | error e t =>
          refine ⟨fun hk _ _ hr => ?_, fun hk _ _ hr => ?_⟩
          · cases hr
            exact hk _ _ rfl
          · cases hr
            exact hk _ _ rfl
    exact ⟨hkeeps.trans ⟨fun hh _ => hh, fun hh => hh hp⟩,
      (hexecute.trans hkeeps).trans ⟨fun hh _ => hh, fun hh => hh hp⟩⟩
  · have hrefused := createIndex_refused hgood.sound fun hi =>
      hp ((passesChecks_iff hgood.sound).mpr hi)
    refine ⟨iff_of_true (keepsIndexes_same fun e t hr => ?_) fun hp' => absurd hp' hp,
      iff_of_true (keepsIndexes_same fun e t hr => ?_) fun hp' => absurd hp' hp⟩
    · exact wp_error (E := fun _ t => t = s) hr hrefused
    · exact wp_error (E := fun _ t => t = s) hr (executeCreateIndex_refused hgood hp)

/-- A second request for the same index is rejected, and empties its file. -/
theorem createIndex_empties :
    ¬ ∀ s (request : CreateIndexRequest), Reachable s →
      KeepsIndexes s (Database.createIndex request.name request.table request.column s) := by
  intro hall
  obtain ⟨s, bytes, data, hs, hcount, hfind, he⟩ := exists_indexed_row
  have hk := hall s ⟨"i", "t", "a"⟩ hs.served.reachable
  have hi : Indexable s "i" "t" "a" pagedSchema pagedLayout bytes :=
    ⟨by rfl, hs.stored, indexedColumn_paged⟩
  have hharm := (keepsIndexes_iff hs.good hi).mp hk
  have hcon : s.indexes.contains "i" = true := SortedMap.contains_iff.mpr ⟨_, hfind⟩
  rw [IndexHarmless, if_pos hcon] at hharm
  obtain ⟨schema, layout, bytes', hs', -, hfile⟩ := hs.served.fresh "i" _ hfind
  obtain ⟨rfl, rfl, rfl⟩ := hs'.unique hs.stored
  have hlive := (entriesOf_spec hs.stored indexedColumn_paged).2 ⟨5, ⟨1, 0⟩⟩
  have hload : loadIndexFile s.root "i" =
      .ok (newIndex "i" "t" "a", sortEntries (entriesOf pagedSchema pagedLayout "a" bytes)) :=
    loadIndexFile_content hi.storable (entriesOf_fits hs.stored.rows) hfile
  have hempty : loadIndexFile s.root "i" = .ok (newIndex "i" "t" "a", sortEntries []) :=
    loadIndexFile_content hi.storable (fun entry he => by simp at he) hharm
  rw [hempty] at hload
  have hnone := (Prod.mk.inj (Except.ok.inj hload)).2
  have hmem := hlive.mpr ⟨data, hs.row 1 ⟨le_rfl, hcount.ge⟩, by
    rw [(encodeRow_encodes compileSchema_paged he).rowOf_eq]
    rfl⟩
  rw [← hnone] at hmem
  simp [sortEntries] at hmem

/-- A request for an index on a column of another type is refused, and changes nothing. -/
theorem createIndex_rejected_char :
    ∃ s, Served s ∧ KeepsIndexes s (Database.createIndex "j" "t" "b" s) ∧
      KeepsIndexes s (executeCreateIndex ⟨"j", "t", "b"⟩ s) := by
  obtain ⟨s, bytes, data, hs, -⟩ := exists_indexed_row
  obtain ⟨hcreate, hexecute⟩ := createIndex_rejected hs.served.reachable ⟨"j", "t", "b"⟩
  have hno : ¬ PassesChecks s "j" "t" "b" := by
    rintro ⟨-, schema, layout, c, hfind, hc, hcol, hint⟩
    obtain rfl := Option.some.inj (hs.stored.listed.symm.trans (getTableSchema_eq_ok.mp hfind))
    obtain rfl := Except.ok.inj (hs.stored.compiled.symm.trans hc)
    have hb : pagedLayout.column "b" = .ok ⟨"b", .char 4000, 4⟩ := by rfl
    obtain rfl := Except.ok.inj (hb.symm.trans hcol)
    cases hint
  exact ⟨s, hs.served, hcreate.mpr fun hp => absurd hp hno, hexecute.mpr fun hp => absurd hp hno⟩

/-! ## Creating a table -/

/-- A failed request leaves the catalog, in memory and in its file, and the set of files. -/
def KeepsFiles (s : Database) (schema : TableSchema) : Prop :=
  ∀ e t, Database.createTable schema s = .error e t → t.catalog = s.catalog ∧
    t.root.files catalogPath = s.root.files catalogPath ∧
      ∀ path, t.root.pathExists path = s.root.pathExists path

/-- A record of the size fits in a page. -/
def FitsInPage (recordSize : Nat) : Prop := ∃ header, RecordFileHeader.new recordSize = .ok header

/-- The database after some requests for tables, all of which fail. -/
def failedCreates : List TableSchema → Database → Option Database
  | [], s => some s
  | schema :: rest, s =>
      match Database.createTable schema s with
      | .ok _ _ => none
      | .error _ t => failedCreates rest t

theorem createTable_ok_iff (hq : s.root.faults = []) :
    (∃ t, Database.createTable schema s = .ok () t) ↔ ∃ layout, Creatable s schema layout ∧
      FitsInPage layout.recordSize := by
  have hw := createTable_spec hq schema
  constructor
  · rintro ⟨t, ht⟩
    obtain ⟨layout, bytes, hc, he, -⟩ := wp_ok ht hw
    exact ⟨layout, hc, EmptyRecords.fits he⟩
  · rintro ⟨layout, hc, header, hnew⟩
    cases hr : Database.createTable schema s with
    | ok u t => exact ⟨t, rfl⟩
    | error e t =>
        rcases wp_error hr hw with ⟨hno, -⟩ | ⟨layout', bytes, e', hc', hnew', -⟩
        · exact absurd ⟨layout, hc⟩ hno
        · obtain rfl : layout' = layout := Except.ok.inj (hc'.compiled.symm.trans hc.compiled)
          rw [hnew] at hnew'
          cases hnew'

/-- What a failed request leaves. -/
theorem createTable_failed (hq : s.root.faults = []) {e : Stop TableError}
    (hr : Database.createTable schema s = .error e t) :
    (¬ ∃ layout, Creatable s schema layout) ∧ t = s ∨
      ∃ layout bytes, Creatable s schema layout ∧ ¬ FitsInPage layout.recordSize ∧
        t = s.putTable schema.name bytes := by
  rcases wp_error hr (createTable_spec hq schema) with h | ⟨layout, bytes, e', hc, hnew, ht⟩
  · exact .inl h
  · refine .inr ⟨layout, bytes, hc, ?_, ht⟩
    rintro ⟨header, hok⟩
    rw [hok] at hnew
    cases hnew

theorem keepsFiles_iff (hq : s.root.faults = []) :
    KeepsFiles s schema ↔ ∀ layout, Creatable s schema layout → FitsInPage layout.recordSize := by
  constructor
  · intro hk layout hc
    by_contra hno
    cases hr : Database.createTable schema s with
    | ok u t =>
        obtain ⟨layout', hc', hfits⟩ := (createTable_ok_iff hq).mp ⟨t, hr⟩
        obtain rfl : layout' = layout := Except.ok.inj (hc'.compiled.symm.trans hc.compiled)
        exact hno hfits
    | error e t =>
        rcases createTable_failed hq hr with ⟨hnone, -⟩ | ⟨layout', bytes, -, -, rfl⟩
        · exact hnone ⟨layout, hc⟩
        · have hsame := (hk e _ hr).2.2 (tablePath schema.name)
          have hnew : (s.putTable schema.name bytes).root.files
              (tablePath schema.name) = some bytes :=
            Disk.files_put_self _ _ _
          rw [Disk.pathExists, Disk.pathExists, hnew, hc.noFile] at hsame
          cases hsame
  · intro hfits e t hr
    rcases createTable_failed hq hr with ⟨-, rfl⟩ | ⟨layout, bytes, hc, hno, -⟩
    · exact ⟨rfl, rfl, fun _ => rfl⟩
    · exact absurd (hfits layout hc) hno

/-- A failed request leaves a file of its table behind, or nothing. -/
theorem failedCreates_spec {l : List TableSchema} (hq : s.root.faults = [])
    (hl : ∀ schema ∈ l, schema.name = name) (hnone : s.catalog.tables.find name = none)
    (hr : failedCreates l s = some t) :
    t.root.faults = [] ∧ t.catalog = s.catalog ∧ (t.root.files (tablePath name) = none ↔
      s.root.files (tablePath name) = none ∧ ∀ schema ∈ l, ∀ layout, compileSchema schema ≠
        .ok layout) := by
  induction l generalizing s with
  | nil =>
      obtain rfl := Option.some.inj hr
      exact ⟨hq, rfl, ⟨fun h => ⟨h, fun schema hm => by simp at hm⟩, fun h => h.1⟩⟩
  | cons schema rest ih =>
      obtain ⟨rfl, hrest⟩ := List.forall_mem_cons.mp hl
      unfold failedCreates at hr
      split at hr
      next => cases hr
      next e u he =>
          rcases createTable_failed hq he with ⟨hno, rfl⟩ | ⟨layout, bytes, hc, -, rfl⟩
          · obtain ⟨hfaults, hcatalog, hfile⟩ := ih hq hrest hnone hr
            refine ⟨hfaults, hcatalog,
              hfile.trans ⟨fun ⟨hf, hnot⟩ => ⟨hf, ?_⟩, fun ⟨hf, hnot⟩ => ⟨hf, ?_⟩⟩⟩
            · exact List.forall_mem_cons.mpr ⟨fun layout hc => hno ⟨layout, hc, hnone, hf⟩, hnot⟩
            · exact (List.forall_mem_cons.mp hnot).2
          · obtain ⟨hfaults, hcatalog, hfile⟩ :=
              ih (s := s.putTable schema.name bytes) hq hrest hnone hr
            refine ⟨hfaults, hcatalog, hfile.trans (iff_of_false ?_ ?_)⟩
            · rintro ⟨hf, -⟩
              have hnew : (s.putTable schema.name bytes).root.files
                  (tablePath schema.name) = some bytes :=
                Disk.files_put_self _ _ _
              rw [hnew] at hf
              cases hf
            · rintro ⟨-, hnot⟩
              exact hnot schema (List.mem_cons_self ..) layout hc.compiled

/-- A request that is rejected changes nothing just when the records would fit in a page, unless it
is refused before the file is created; and failed requests do not stand in the way of a later one
just when none of them got as far as the file. -/
theorem createTable_rejected (h : Reachable s) :
    (∀ schema, KeepsFiles s schema ↔ ∀ layout, Creatable s schema layout →
      FitsInPage layout.recordSize) ∧
    ∀ (l : List TableSchema) t schema layout, failedCreates l s = some t →
      (∀ other ∈ l, other.name = schema.name) →
      s.catalog.tables.find schema.name = none → compileSchema schema = .ok layout →
        FitsInPage layout.recordSize →
      ((∃ u, Database.createTable schema t = .ok () u) ↔
        s.root.files (tablePath schema.name) = none ∧ ∀ other ∈ l, ∀ layout, compileSchema other ≠
          .ok layout) := by
  have hq := h.good.faults
  refine ⟨fun schema => keepsFiles_iff hq, fun l t schema layout hr hl hnone hc hfits => ?_⟩
  obtain ⟨hfaults, hcatalog, hfile⟩ := failedCreates_spec hq hl hnone hr
  rw [createTable_ok_iff hfaults, ← hfile]
  constructor
  · rintro ⟨layout', hc', -⟩
    exact hc'.noFile
  · intro hf
    exact ⟨layout, ⟨hc, hcatalog ▸ hnone, hf⟩, hfits⟩

/-- A schema whose records are too large. -/
def largeSchema : TableSchema := ⟨"t", [⟨"b", .char 5000⟩]⟩

theorem compileSchema_large : compileSchema largeSchema = .ok ⟨[⟨"b", .char 5000, 0⟩], 5000⟩ := by
  rfl

theorem not_fitsInPage_large : ¬ FitsInPage 5000 := by
  rintro ⟨header, hnew⟩
  have herror : RecordFileHeader.new 5000 = .error (.recordTooLarge 5000) := by decide
  rw [herror] at hnew
  cases hnew

/-- On an empty database, a request with records that are too large leaves a file behind. -/
theorem createTable_leaves_file :
    ¬ ∀ s schema, Reachable s → KeepsFiles s schema := by
  intro hall
  have hk := hall ⟨Disk.empty, .empty, .empty⟩ largeSchema (.start rfl)
  exact not_fitsInPage_large ((keepsFiles_iff rfl).mp hk _ ⟨compileSchema_large, rfl, rfl⟩)

/-- The only table of a database, with one row. -/
theorem exists_table_row :
    ∃ s bytes data, Holding s "t" pagedSchema pagedLayout bytes (fun _ => data) ∧
      (fileHeader bytes).numPages = 1 ∧
      ∀ name, name ≠ "t" → s.catalog.tables.find name = none := by
  obtain ⟨data, he⟩ : ∃ data, encodeRow pagedLayout [.int32 5, .char "x"] = .ok data := ⟨_, rfl⟩
  obtain ⟨s, bytes, hs, hcount, hadd⟩ := exists_paged fun _ => data
  obtain ⟨t, bytes', ht, hcount', hcatalog, -⟩ :=
    hs.insert (normalizeInsertInput_paged 5 "x") he (by omega)
  rw [Function.update_eq_self] at ht
  refine ⟨t, bytes', data, ht, by omega, fun name hne => ?_⟩
  rw [hcatalog, hadd]
  exact (addTable_other hne).1

/-- Beside a table with a row, tables without columns and with an empty column are refused and leave
nothing, as does the table itself; the name can be used afterwards. -/
theorem createTable_rejected_beside :
    ∃ s bytes data t u, Stored s "t" pagedSchema pagedLayout bytes ∧
      liveRecords bytes ⟨1, 0⟩ = some data ∧
      KeepsFiles s pagedSchema ∧ failedCreates [⟨"u", []⟩, ⟨"u", [⟨"a", .char 0⟩]⟩] s = some t ∧
      Database.createTable ⟨"u", [⟨"a", .int32⟩]⟩ t = .ok () u := by
  obtain ⟨s, bytes, data, hs, hcount, hother⟩ := exists_table_row
  have hlive : liveRecords bytes ⟨1, 0⟩ = some data := hs.row 1 ⟨le_rfl, hcount.ge⟩
  have hnone : s.catalog.tables.find "u" = none := hother "u" (by decide)
  obtain ⟨hkeeps, hlater⟩ := createTable_rejected hs.served.reachable
  have hcompiled : compileSchema ⟨"u", [⟨"a", .int32⟩]⟩ = .ok ⟨[⟨"a", .int32, 0⟩], 4⟩ := by rfl
  have hfits : FitsInPage 4 := ⟨⟨4, 989, -1, 0⟩, by decide⟩
  have hduplicate : KeepsFiles s pagedSchema := by
    refine (hkeeps pagedSchema).mpr fun layout hc => ?_
    have hunlisted : s.catalog.tables.find "t" = none := hc.unlisted
    rw [hs.stored.listed] at hunlisted
    cases hunlisted
  have hno : ∀ other ∈ [⟨"u", []⟩, ⟨"u", [⟨"a", .char 0⟩]⟩], ∀ layout, compileSchema other ≠
      .ok layout := by
    simp only [List.forall_mem_cons, List.not_mem_nil, false_implies, implies_true, and_true]
    exact ⟨fun layout hc => (by cases hc), fun layout hc => (by cases hc)⟩
  obtain ⟨u, hu⟩ := (hlater _ s _ _ rfl (by simp) hnone hcompiled hfits).mpr
    ⟨hs.served.tidy.noFile hnone, hno⟩
  exact ⟨s, bytes, data, s, u, hs.stored, hlive, hduplicate, rfl, hu⟩

end Redbase.Query
