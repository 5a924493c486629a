import Redbase.Database.Lemmas.Indexes

/-!
# Creating and dropping tables

What the directory and the catalogs are after each of the two, when no call on the directory fails.
-/

namespace Redbase.Database

open Prog Bytes Text Page Record Files Table Index Function

set_option linter.dupNamespace false

variable {s t : Database} {name name' : String} {schema schema' : TableSchema}
  {layout layout' : SchemaLayout} {bytes bytes' : List UInt8} {m m' : IndexMeta}
  {entries : List IndexEntry} {l : List IndexMeta}

/-! ## Where nothing changed -/

theorem Stored.congr (h : Stored s name schema layout bytes)
    (hc : t.catalog.tables.find name = s.catalog.tables.find name)
    (hf : t.root.files (tablePath name) = s.root.files (tablePath name)) :
    Stored t name schema layout bytes :=
  ⟨hc.trans h.listed, h.named, h.compiled, hf.trans h.file, h.rows⟩

theorem IndexFile.congr (h : IndexFile s.root name m entries)
    (hf : t.root.files (indexFilePath name) = s.root.files (indexFilePath name)) :
    IndexFile t.root name m entries :=
  ⟨h.named, h.storable, h.fits, hf.trans h.file⟩

theorem Indexed.congr (h : Indexed s m)
    (hc : t.catalog.tables.find m.table = s.catalog.tables.find m.table)
    (ht : t.root.files (tablePath m.table) = s.root.files (tablePath m.table))
    (hf : t.root.files (indexFilePath m.name) = s.root.files (indexFilePath m.name)) :
    Indexed t m := by
  obtain ⟨schema, layout, bytes, hs, hx⟩ := h.table
  obtain ⟨m', entries, hfile⟩ := h.file
  exact ⟨h.identifier, ⟨schema, layout, bytes, hs.congr hc ht, hx⟩, m', entries, hfile.congr hf⟩

theorem UpToDate.congr (h : UpToDate s m)
    (hc : t.catalog.tables.find m.table = s.catalog.tables.find m.table)
    (ht : t.root.files (tablePath m.table) = s.root.files (tablePath m.table))
    (hf : t.root.files (indexFilePath m.name) = s.root.files (indexFilePath m.name)) :
    UpToDate t m := by
  obtain ⟨schema, layout, bytes, hs, hp, hfile⟩ := h
  exact ⟨schema, layout, bytes, hs.congr hc ht, hp, hf.trans hfile⟩

/-- The table of an index is listed. -/
theorem Indexed.listed (h : Indexed s m) : s.catalog.tables.find m.table ≠ none := by
  obtain ⟨schema, layout, bytes, hs, -⟩ := h.table
  rw [hs.listed]
  exact Option.some_ne_none _

/-! ## Creating a table -/

/-- The database after a table is created. -/
def Database.addTable (s : Database) (schema : TableSchema) (bytes : List UInt8) : Database :=
  { s with
    root := (s.root.put (tablePath schema.name) (some bytes)).put catalogPath
      (some (utf8 (s.catalog.insert schema).content))
    catalog := s.catalog.insert schema }

theorem EmptyRecords.rowsIn (h : EmptyRecords bytes layout.recordSize) : RowsIn bytes layout := by
  obtain ⟨h, pages, hsaved, hsize, hn⟩ := h
  have hhdr := fileHeader_eq hsaved
  refine ⟨isSaved_of_saved hsaved, by rw [hhdr, hsize], fun rid data hl => ?_⟩
  unfold Record.lookup at hl
  split at hl
  next hc =>
      have hle := hc.1.2
      have hpos := hc.1.1
      rw [hhdr, hn] at hle
      omega
  next => cases hl

theorem EmptyRecords.fits {recordSize : Nat} (h : EmptyRecords bytes recordSize) :
    ∃ header, RecordFileHeader.new recordSize = .ok header := by
  obtain ⟨h, pages, hsaved, rfl, -⟩ := h
  have hpos := hsaved.wf.fits.size_pos
  refine ⟨⟨h.recordSize, h.slotsPerPage, recordPageListEnd, 0⟩, ?_⟩
  unfold RecordFileHeader.new
  rw [if_neg (Nat.ne_of_gt hpos)]
  have hfits : computeSlotsPerPage h.recordSize = .ok h.slotsPerPage := hsaved.wf.fits
  simp only [hfits]
  rfl

/-- The schema compiles, its name is free in the catalog, and there is no file of that name. -/
structure Creatable (s : Database) (schema : TableSchema) (layout : SchemaLayout) : Prop where
  compiled : compileSchema schema = .ok layout
  unlisted : s.catalog.tables.find schema.name = none
  noFile : s.root.files (tablePath schema.name) = none

/-- A table is created if its records fit in a page; if they do not, its page file is left
behind. -/
theorem createTable_spec (hq : s.root.faults = []) (schema : TableSchema) :
    wp (Database.createTable schema)
      (fun _ t => ∃ layout bytes, Creatable s schema layout ∧ EmptyRecords bytes layout.recordSize ∧
        t = s.addTable schema bytes)
      (fun _ t => (¬ ∃ layout, Creatable s schema layout) ∧ t = s ∨
        ∃ layout bytes e, Creatable s schema layout ∧
          RecordFileHeader.new layout.recordSize = .error e ∧
          t = s.putTable schema.name bytes) s := by
  unfold Database.createTable
  simp only [wp_bind]
  cases hc : compileSchema schema with
  | error e =>
      rw [wp_check_error]
      refine .inl ⟨?_, rfl⟩
      rintro ⟨layout, hcr⟩
      rw [hcr.compiled] at hc
      cases hc
  | ok layout =>
      simp only [wp_check_ok, wp_bind, wp_get, wp_ite, wp_throw, wp_onRoot]
      split
      next hlisted =>
          refine .inl ⟨?_, trivial⟩
          rintro ⟨layout, hcr⟩
          obtain ⟨schema', hfind⟩ := SortedMap.contains_iff.mp hlisted
          rw [hcr.unlisted] at hfind
          cases hfind
      next hlisted =>
          have hunlisted : s.catalog.tables.find schema.name = none := by
            cases hfind : s.catalog.tables.find schema.name with
            | none => rfl
            | some schema' => exact absurd (SortedMap.contains_iff.mpr ⟨schema', hfind⟩) hlisted
          cases hf : s.root.files (tablePath schema.name) with
          | some bytes =>
              refine RecordManager.createFile_exists hq (Disk.pathExists_iff.mpr ⟨bytes, hf⟩)
                (.inl ⟨?_, rfl⟩)
              rintro ⟨layout, hcr⟩
              rw [hcr.noFile] at hf
              cases hf
          | none =>
              have hcr : Creatable s schema layout := ⟨hc, hunlisted, hf⟩
              refine wp_mono (RecordManager.createFile_spec hq hf layout.recordSize) ?_ ?_
              · rintro _ _ ⟨bytes, rfl, hempty⟩
                simp only [wp_modify, Database.saveCatalog, wp_bind, wp_get, wp_onRoot,
                  Catalog.save, wp_mapError]
                have hq' : (s.root.put (tablePath schema.name) (some bytes)).faults = [] := hq
                rw [Disk.wp_write hq']
                exact ⟨layout, bytes, hcr, hempty, rfl⟩
              · rintro _ _ ⟨⟨e, -, hnew⟩, bytes, rfl⟩
                exact .inr ⟨layout, bytes, e, hcr, hnew, rfl⟩

/-- The new table is stored. -/
theorem Creatable.stored (hc : Creatable s schema layout)
    (he : EmptyRecords bytes layout.recordSize) :
    Stored (s.addTable schema bytes) schema.name schema layout bytes := by
  refine ⟨?_, rfl, hc.compiled, ?_, EmptyRecords.rowsIn he⟩
  · show (s.catalog.tables.insert schema.name schema).find schema.name = _
    rw [SortedMap.find_insert, update_self]
  · exact (update_of_ne (by simp) _ _).trans (update_self ..)

/-- The other tables are as before. -/
theorem addTable_other (hne : name ≠ schema.name) :
    (s.addTable schema bytes).catalog.tables.find name = s.catalog.tables.find name ∧
      (s.addTable schema bytes).root.files (tablePath name) = s.root.files (tablePath name) := by
  refine ⟨?_, ?_⟩
  · show (s.catalog.tables.insert schema.name schema).find name = _
    rw [SortedMap.find_insert, update_of_ne hne]
  · exact (update_of_ne (by simp) _ _).trans (update_of_ne (by simpa using hne) _ _)

/-- The files of the indexes are as before. -/
theorem addTable_indexFile (n : String) :
    (s.addTable schema bytes).root.files (indexFilePath n) = s.root.files (indexFilePath n) :=
  (update_of_ne (by simp) _ _).trans (update_of_ne (Ne.symm (by simp)) _ _)

theorem Sound.addTable (h : Sound s) (hc : Creatable s schema layout)
    (he : EmptyRecords bytes layout.recordSize) :
    Sound (s.addTable schema bytes) := by
  have hne : ∀ name, s.catalog.tables.find name ≠ none → name ≠ schema.name := by
    rintro _ hfind rfl
    exact hfind hc.unlisted
  refine ⟨fun name schema' hfind => ?_, fun n m hfind => ?_, .inl (Disk.files_put_self _ _ _), ?_⟩
  · rcases eq_or_ne name schema.name with rfl | hn
    · obtain rfl : schema' = schema := Option.some.inj (hfind.symm.trans (hc.stored he).listed)
      exact ⟨layout, bytes, hc.stored he⟩
    · rw [(addTable_other hn).1] at hfind
      obtain ⟨layout', bytes', hs⟩ := h.tables name schema' hfind
      exact ⟨layout', bytes', hs.congr (addTable_other hn).1 (addTable_other hn).2⟩
  · obtain ⟨hname, hi⟩ := h.indexes n m hfind
    have hn := hne m.table hi.listed
    exact ⟨hname, hi.congr (addTable_other hn).1 (addTable_other hn).2 (addTable_indexFile m.name)⟩
  · rw [InFile]
    have hf : (s.addTable schema bytes).root.files indexCatalogPath =
        s.root.files indexCatalogPath :=
      (Disk.files_put_of_ne (Ne.symm catalogPath_ne_indexCatalogPath) _).trans
        (Disk.files_put_of_ne (Ne.symm tablePath_ne_indexCatalogPath) _)
    rw [hf]
    exact h.indexCatalogFile

theorem Fresh.addTable (hs : Sound s) (h : Fresh s) (hc : Creatable s schema layout) :
    Fresh (s.addTable schema bytes) := by
  intro n m hfind
  have hne : m.table ≠ schema.name := by
    rintro he
    exact (hs.indexes n m hfind).2.listed (he ▸ hc.unlisted)
  exact (h n m hfind).congr (addTable_other hne).1 (addTable_other hne).2
    (addTable_indexFile m.name)

/-- A file that is left behind under a name that is not listed. -/
theorem Sound.orphan (h : Sound s) (hn : s.catalog.tables.find name = none) :
    Sound (s.putTable name bytes) := by
  have hother : ∀ name', s.catalog.tables.find name' ≠ none →
      (s.putTable name bytes).root.files (tablePath name') = s.root.files (tablePath name') := by
    intro name' hfind
    refine update_of_ne ?_ _ _
    rw [Ne, tablePath_inj]
    rintro rfl
    exact hfind hn
  refine ⟨fun name' schema' hfind => ?_, fun n m hfind => ?_,
    h.catalogFile.putFile (Ne.symm (by simp)), h.indexCatalogFile.putFile (Ne.symm (by simp))⟩
  · obtain ⟨layout', bytes', hs⟩ := h.tables name' schema' hfind
    exact ⟨layout', bytes',
      hs.congr rfl (hother name' (by rw [hs.listed]; exact Option.some_ne_none _))⟩
  · obtain ⟨hname, hi⟩ := h.indexes n m hfind
    exact ⟨hname, hi.congr rfl (hother _ hi.listed) (update_of_ne (Ne.symm (by simp)) _ _)⟩

/-! ## Dropping a table -/

/-- The database without an index, its catalog not saved. -/
def Database.eraseIndex (s : Database) (name : String) : Database :=
  { s with root := s.root.put (indexFilePath name) none, indexes := ⟨s.indexes.indexes.erase name⟩ }

/-- The database without some indexes. -/
def Database.eraseIndexes (s : Database) : List IndexMeta → Database
  | [] => s
  | m :: l => (s.eraseIndex m.name).eraseIndexes l

theorem eraseIndexes_catalog :
    (s.eraseIndexes l).catalog = s.catalog ∧ (s.eraseIndexes l).root.faults = s.root.faults := by
  induction l generalizing s with
  | nil => exact ⟨rfl, rfl⟩
  | cons m l ih => exact ih (s := s.eraseIndex m.name)

/-- The files of these indexes are gone, and no others. -/
theorem eraseIndexes_files {path : String} (hp : ∀ m ∈ l, path ≠ indexFilePath m.name) :
    (s.eraseIndexes l).root.files path = s.root.files path := by
  induction l generalizing s with
  | nil => rfl
  | cons m l ih =>
      refine (ih (s := s.eraseIndex m.name)
        fun m₁ hm₁ => hp m₁ (List.mem_cons_of_mem _ hm₁)).trans ?_
      exact update_of_ne (hp m (List.mem_cons_self ..)) _ _

/-- The catalog lists the other indexes. -/
theorem find_eraseIndexes : (s.eraseIndexes l).indexes.indexes.find name' =
    if name' ∈ l.map IndexMeta.name then none else s.indexes.indexes.find name' := by
  induction l generalizing s with
  | nil => rfl
  | cons m l ih =>
      refine (ih (s := s.eraseIndex m.name)).trans ?_
      show (if name' ∈ l.map IndexMeta.name then none
      else (s.indexes.indexes.erase m.name).find name') = _
      rw [SortedMap.find_erase]
      rcases eq_or_ne name' m.name with rfl | hne
      · simp
      · simp [hne]

/-- The two calls of the loop, one index after the other. -/
theorem dropIndexes_spec (hq : s.root.faults = []) (hn : (l.map IndexMeta.name).Nodup)
    (hfile : ∀ m ∈ l, ∃ bytes, s.root.files (indexFilePath m.name) = some bytes)
    (hfind : ∀ m ∈ l, s.indexes.indexes.find m.name = some m) :
    wp (Database.dropIndexes l) (fun _ t => t = s.eraseIndexes l) never s := by
  induction l generalizing s with
  | nil => exact rfl
  | cons m l ih =>
      obtain ⟨bytes, hf⟩ := hfile m (List.mem_cons_self ..)
      have hmem : m.name ∉ l.map IndexMeta.name ∧ (l.map IndexMeta.name).Nodup :=
        List.nodup_cons.mp hn
      have hne : ∀ m₁ ∈ l, m₁.name ≠ m.name :=
        fun m₁ hm₁ he => hmem.1 (he ▸ List.mem_map_of_mem hm₁)
      unfold Database.dropIndexes
      simp only [wp_bind, wp_onRoot, deleteIndexFile, wp_mapError, Disk.wp_removeFile hq hf,
        Database.removeIndex, wp_get, IndexCatalog.remove, hfind m (List.mem_cons_self ..)]
      refine ih (s := s.eraseIndex m.name) hq hmem.2 (fun m₁ hm₁ => ?_) fun m₁ hm₁ => ?_
      · obtain ⟨bytes₁, hf₁⟩ := hfile m₁ (List.mem_cons_of_mem _ hm₁)
        exact ⟨bytes₁, (update_of_ne (by simpa using hne m₁ hm₁) _ _).trans hf₁⟩
      · show (s.indexes.indexes.erase m.name).find m₁.name = _
        rw [SortedMap.find_erase, update_of_ne (hne m₁ hm₁)]
        exact hfind m₁ (List.mem_cons_of_mem _ hm₁)

/-- The database after a table is dropped. -/
def Database.removeTable (s : Database) (name : String) : Database :=
  let s' := s.eraseIndexes (s.indexes.indexesForTable name)
  { s' with
    root :=
      ((s'.root.put (tablePath name) none).put catalogPath
        (some (utf8 (s.catalog.remove name).content))).put
      indexCatalogPath (some (utf8 s'.indexes.content))
    catalog := s.catalog.remove name }

/-- Every index is under its own name. -/
theorem Sound.nodup_names (h : Sound s) (name : String) :
    ((s.indexes.indexesForTable name).map IndexMeta.name).Nodup := by
  have hkeys : s.indexes.list.map IndexMeta.name = s.indexes.indexes.keys := by
    unfold IndexCatalog.list SortedMap.values SortedMap.keys
    rw [List.map_map]
    refine List.map_congr_left fun entry hm => ?_
    exact (h.indexes entry.1 entry.2 (SortedMap.find_eq_some_iff.mpr hm)).1
  have hnodup : (s.indexes.list.map IndexMeta.name).Nodup := by
    rw [hkeys]
    unfold SortedMap.keys
    rw [List.Nodup, List.pairwise_map]
    exact s.indexes.indexes.sorted.imp fun hlt => SortedMap.ne_of_lt hlt
  exact hnodup.sublist ((List.filter_sublist).map _)

theorem Indexed.exists_file (h : Indexed s m) :
    ∃ bytes, s.root.files (indexFilePath m.name) = some bytes := by
  obtain ⟨m', entries, hf⟩ := h.file
  exact ⟨_, hf.file⟩

/-- A listed table is dropped. -/
theorem dropTable_spec (h : Sound s) (hq : s.root.faults = []) (name : String) :
    wp (Database.dropTable name)
      (fun _ t => s.catalog.contains name = true ∧ t = s.removeTable name)
      (fun e t => s.catalog.contains name = false ∧ e = .error (.tableNotFound name) ∧
        t = s) s := by
  unfold Database.dropTable
  simp only [wp_bind, wp_get, wp_ite, wp_throw]
  split
  next hno => exact ⟨hno, trivial, trivial⟩
  next hyes =>
      have hyes : s.catalog.contains name = true := by simpa using hyes
      obtain ⟨schema, hfind⟩ := SortedMap.contains_iff.mp hyes
      obtain ⟨layout, bytes, hs⟩ := h.tables name schema hfind
      have hl := h.indexesForTable name
      have hdrop := dropIndexes_spec hq (h.nodup_names name)
        (fun m hm => (h.indexes m.name m (hl m hm).2).2.exists_file) fun m hm => (hl m hm).2
      refine wp_mono hdrop ?_ fun _ _ => False.elim
      rintro _ _ rfl
      have hq' : (s.eraseIndexes (s.indexes.indexesForTable name)).root.faults = [] :=
        eraseIndexes_catalog.2.trans hq
      have hf : (s.eraseIndexes (s.indexes.indexesForTable name)).root.files
          (tablePath name) = some bytes :=
        (eraseIndexes_files fun m _ => by simp).trans hs.file
      simp only [wp_onRoot, Disk.wp_removeFile hq' hf, wp_modify, Database.saveCatalog,
        Database.saveIndexes, wp_bind, wp_get, Catalog.save, IndexCatalog.save, wp_mapError]
      rw [Disk.wp_write (by exact hq'), Disk.wp_write (by exact hq'), eraseIndexes_catalog.1]
      refine ⟨hyes, ?_⟩
      rw [Database.removeTable]

section Removed

theorem mem_indexesForTable :
    m ∈ s.indexes.indexesForTable name ↔ m ∈ s.indexes.list ∧ m.table = name := by
  simp [IndexCatalog.indexesForTable, IndexCatalog.list]

/-- An index that is still listed is about another table, and under another name than those that are
gone. -/
theorem Sound.find_removed (h : Sound s) {n : String}
    (hfind : (s.removeTable name).indexes.indexes.find n = some m) :
    s.indexes.indexes.find n = some m ∧ m.table ≠ name ∧ ∀ m₁ ∈ s.indexes.indexesForTable name,
      m.name ≠ m₁.name := by
  have hf : (s.eraseIndexes (s.indexes.indexesForTable name)).indexes.indexes.find n =
      some m := hfind
  rw [find_eraseIndexes] at hf
  split at hf
  next => cases hf
  next hnot =>
      obtain ⟨rfl, -⟩ := h.indexes n m hf
      have hall : ∀ m₁ ∈ s.indexes.indexesForTable name, m.name ≠ m₁.name :=
        fun m₁ hm₁ he => hnot (he ▸ List.mem_map_of_mem hm₁)
      refine ⟨hf, fun he => ?_, hall⟩
      exact hall m (mem_indexesForTable.mpr ⟨SortedMap.mem_values.mpr ⟨_, hf⟩, he⟩) rfl

theorem removeTable_other (hne : name' ≠ name) :
    (s.removeTable name).catalog.tables.find name' = s.catalog.tables.find name' ∧
      (s.removeTable name).root.files (tablePath name') = s.root.files (tablePath name') := by
  refine ⟨?_, ?_⟩
  · show (s.catalog.tables.erase name).find name' = _
    rw [SortedMap.find_erase, update_of_ne hne]
  · calc (s.removeTable name).root.files (tablePath name')
        = (((s.eraseIndexes (s.indexes.indexesForTable name)).root.put (tablePath name) none).put
            catalogPath
            (some (utf8 (s.catalog.remove name).content))).files (tablePath name') :=
              Disk.files_put_of_ne (by simp) _
      _ = ((s.eraseIndexes (s.indexes.indexesForTable name)).root.put (tablePath name) none).files
        (tablePath name') :=
          Disk.files_put_of_ne (by simp) _
      _ = (s.eraseIndexes (s.indexes.indexesForTable name)).root.files (tablePath name') :=
          Disk.files_put_of_ne (by simpa using hne) _
      _ = s.root.files (tablePath name') := eraseIndexes_files fun m _ => by simp

theorem removeTable_indexFile {n : String} (hn : ∀ m ∈ s.indexes.indexesForTable name, n ≠ m.name) :
    (s.removeTable name).root.files (indexFilePath n) = s.root.files (indexFilePath n) := by
  calc (s.removeTable name).root.files (indexFilePath n)
      = (((s.eraseIndexes (s.indexes.indexesForTable name)).root.put (tablePath name) none).put
          catalogPath
          (some (utf8 (s.catalog.remove name).content))).files (indexFilePath n) :=
            Disk.files_put_of_ne (by simp) _
    _ = ((s.eraseIndexes (s.indexes.indexesForTable name)).root.put (tablePath name) none).files
      (indexFilePath n) :=
        Disk.files_put_of_ne (by simp) _
    _ = (s.eraseIndexes (s.indexes.indexesForTable name)).root.files (indexFilePath n) :=
        Disk.files_put_of_ne (Ne.symm (by simp)) _
    _ = s.root.files (indexFilePath n) := eraseIndexes_files fun m hm => by simpa using hn m hm

theorem Sound.removeTable (h : Sound s) : Sound (s.removeTable name) := by
  refine ⟨fun name' schema hfind => ?_, fun n m hfind => ?_, .inl ?_,
    .inl (Disk.files_put_self _ _ _)⟩
  · rcases eq_or_ne name' name with rfl | hne
    · have hgone : (s.catalog.tables.erase name').find name' = some schema := hfind
      rw [SortedMap.find_erase, update_self] at hgone
      cases hgone
    · rw [(removeTable_other hne).1] at hfind
      obtain ⟨layout, bytes, hs⟩ := h.tables name' schema hfind
      exact ⟨layout, bytes, hs.congr (removeTable_other hne).1 (removeTable_other hne).2⟩
  · obtain ⟨hfind, hne, hn⟩ := h.find_removed hfind
    obtain ⟨hname, hi⟩ := h.indexes n m hfind
    exact ⟨hname, hi.congr (removeTable_other hne).1 (removeTable_other hne).2
      (removeTable_indexFile hn)⟩
  · exact (Disk.files_put_of_ne catalogPath_ne_indexCatalogPath _).trans (Disk.files_put_self _ _ _)

theorem Fresh.removeTable (hs : Sound s) (h : Fresh s) : Fresh (s.removeTable name) := by
  intro n m hfind
  obtain ⟨hfind, hne, hn⟩ := hs.find_removed hfind
  exact (h n m hfind).congr (removeTable_other hne).1 (removeTable_other hne).2
    (removeTable_indexFile hn)

end Removed

end Redbase.Database
