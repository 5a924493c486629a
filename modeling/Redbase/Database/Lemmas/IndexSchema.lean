import Redbase.Database.Lemmas.Schema

/-!
# Creating and dropping indexes

The file of a new index is written before its name is looked up in the catalog.
-/

namespace Redbase.Database

open Prog Bytes Text Page Record Files Table Index Function

set_option linter.dupNamespace false

variable {s t : Database} {name table column : String} {schema : TableSchema}
  {layout : SchemaLayout} {bytes : List UInt8} {m m' : IndexMeta} {entries : List IndexEntry}

/-! ## Creating an index -/

/-- The index that `create_index` is asked for. -/
def newIndex (name table column : String) : IndexMeta := ⟨name, table, column, .int32⟩

/-- What `create_index` checks before it writes. -/
structure Indexable (s : Database) (name table column : String) (schema : TableSchema)
    (layout : SchemaLayout) (bytes : List UInt8) : Prop where
  identifier : validateIdentifier name = .ok ()
  stored : Stored s table schema layout bytes
  column : IndexedColumn layout column

theorem Indexable.storable (h : Indexable s name table column schema layout bytes) :
    (newIndex name table column).Storable := by
  refine ⟨isField_of_identifier h.identifier, ?_,
    isField_of_identifier (IndexedColumn.name_identifier h.stored.compiled h.column)⟩
  show IsField table
  rw [← h.stored.named]
  exact isField_of_identifier (compileSchema_name h.stored.compiled)

/-- The database with a new index, whose file is still empty. -/
def Database.addIndex (s : Database) (m : IndexMeta) : Database :=
  { s with
    root := (s.root.put (indexFilePath m.name) (some (utf8 (indexContent m [])))).put
      indexCatalogPath
      (some (utf8 (IndexCatalog.content ⟨s.indexes.indexes.insert m.name m⟩)))
    indexes := ⟨s.indexes.indexes.insert m.name m⟩ }

theorem addIndex_files {path : String} (hp : path ≠ indexFilePath m.name)
    (hc : path ≠ indexCatalogPath) :
    (s.addIndex m).root.files path = s.root.files path :=
  (Disk.files_put_of_ne hc _).trans (Disk.files_put_of_ne hp _)

theorem addIndex_file :
    (s.addIndex m).root.files (indexFilePath m.name) = some (utf8 (indexContent m [])) :=
  (Disk.files_put_of_ne (by simp) _).trans (Disk.files_put_self _ _ _)

theorem find_addIndex :
    (s.addIndex m).indexes.indexes.find = update s.indexes.indexes.find m.name (some m) :=
  SortedMap.find_insert _ _ _

theorem find_addIndex_self : (s.addIndex m).indexes.indexes.find m.name = some m := by
  rw [find_addIndex, update_self]

theorem Stored.addIndex (h : Stored s name schema layout bytes) :
    Stored (s.addIndex m) name schema layout bytes :=
  h.congr rfl (addIndex_files (by simp) (by simp))

theorem Sound.addIndex (h : Sound s) (hi : Indexable s name table column schema layout bytes) :
    Sound (s.addIndex (newIndex name table column)) := by
  refine ⟨fun name' schema' hfind => ?_, fun n m hfind => ?_, ?_, .inl (Disk.files_put_self _ _ _)⟩
  · obtain ⟨layout', bytes', hs⟩ := h.tables name' schema' hfind
    exact ⟨layout', bytes', hs.addIndex⟩
  · rw [find_addIndex] at hfind
    rcases eq_or_ne n name with rfl | hne
    · have hfind : some (newIndex n table column) = some m := (update_self n _ _).symm.trans hfind
      obtain rfl := Option.some.inj hfind
      refine ⟨rfl, hi.identifier, ⟨schema, layout, bytes, hi.stored.addIndex, hi.column⟩,
        newIndex n table column, [], ?_⟩
      exact ⟨rfl, hi.storable, fun entry he => by simp at he, addIndex_file⟩
    · have hfind : s.indexes.indexes.find n = some m := (update_of_ne hne _ _).symm.trans hfind
      obtain ⟨rfl, hx⟩ := h.indexes n m hfind
      exact ⟨rfl, hx.congr rfl (addIndex_files (by simp) (by simp))
        (addIndex_files (by simpa using! hne) (by simp))⟩
  · have hf : (s.addIndex (newIndex name table column)).root.files catalogPath = s.root.files
        catalogPath :=
      addIndex_files (Ne.symm (by simp)) catalogPath_ne_indexCatalogPath
    rw [InFile, hf]
    exact h.catalogFile

theorem wp_check {α : Type} {x : Except TableError α} {Q : α → Database → Prop}
    {E : Stop TableError → Database → Prop} :
    wp (Database.check x) Q E s ↔ (∀ a, x = .ok a → Q a s) ∧ ∀ e, x = .error e →
      E (.error e) s := by
  cases x <;> simp

theorem getTableSchema_eq_ok :
    s.catalog.getTableSchema name = .ok schema ↔ s.catalog.tables.find name = some schema := by
  unfold Catalog.getTableSchema
  split
  next hf => simp [hf]
  next hf => simp [hf]

theorem indexKeyType_eq_ok {c : LayoutColumn} {keyType : IndexKeyType} :
    Database.indexKeyType c = .ok keyType ↔ c.columnType = .int32 := by
  unfold Database.indexKeyType
  cases keyType
  split
  next he => simp [he]
  next he => exact ⟨fun h => by simp at h, fun h => absurd h he⟩

theorem insert_eq_ok {indexes : IndexCatalog} : s.indexes.insert m = .ok indexes ↔
    s.indexes.contains m.name = false ∧ indexes = ⟨s.indexes.indexes.insert m.name m⟩ := by
  unfold IndexCatalog.insert IndexCatalog.contains
  cases s.indexes.indexes.contains m.name with
  | true => exact ⟨fun h => by simp at h, fun h => by simp at h⟩
  | false => exact ⟨fun h => ⟨rfl, (pure_eq_ok.mp h).symm⟩, fun h => congrArg Except.ok h.2.symm⟩

/-- A request that is refused before the first write. -/
theorem createIndex_refused (h : Sound s)
    (hno : ¬ ∃ schema layout bytes, Indexable s name table column schema layout bytes) :
    wp (Database.createIndex name table column) (fun _ _ => False) (fun _ t => t = s) s := by
  unfold Database.createIndex
  simp only [wp_bind, wp_get]
  refine wp_check.mpr ⟨fun _ hv => wp_check.mpr ⟨fun schema hfind => ?_, fun _ _ => rfl⟩,
    fun _ _ => rfl⟩
  obtain ⟨layout, bytes, hs⟩ := h.tables table schema (getTableSchema_eq_ok.mp hfind)
  refine wp_check.mpr ⟨fun layout' hc =>
    wp_check.mpr ⟨fun c hcol => wp_check.mpr ⟨fun _ hkey => ?_, fun _ _ => rfl⟩,
    fun _ _ => rfl⟩, fun _ _ => rfl⟩
  obtain rfl : layout' = layout := Except.ok.inj (hc.symm.trans hs.compiled)
  exact absurd ⟨schema, layout', bytes, hv, hs, c, hcol, indexKeyType_eq_ok.mp hkey⟩ hno

/-- The writes of `create_index`. -/
theorem createIndex_writes (h : Sound s) (hq : s.root.faults = [])
    (hi : Indexable s name table column schema layout bytes) :
    wp (Database.createIndex name table column)
      (fun m t => s.indexes.contains name = false ∧ HeadersPass bytes ∧
        m = newIndex name table column ∧
        t = (s.addIndex m).putIndex m (entriesOf schema layout column bytes))
      (fun _ t => s.indexes.contains name = true ∧ t = s.putIndex (newIndex name table column) [] ∨
        s.indexes.contains name = false ∧ ¬ HeadersPass bytes ∧
          t = s.addIndex (newIndex name table column)) s := by
  obtain ⟨c, hcol, hint⟩ := hi.column
  have hkey : Database.indexKeyType c = .ok .int32 := indexKeyType_eq_ok.mpr hint
  unfold Database.createIndex
  simp only [wp_bind, wp_get, hi.identifier, wp_check_ok, getTableSchema_eq_ok.mpr hi.stored.listed,
    hi.stored.compiled, hcol, hkey, wp_onRoot, createIndexFile, wp_writeIndexFile hq, wp_modify]
  refine wp_check.mpr ⟨fun indexes hins => ?_, fun e hins => ?_⟩
  · obtain ⟨hnew, rfl⟩ := insert_eq_ok.mp (mapError_eq_ok.mp hins)
    simp only [Database.saveIndexes, wp_bind, wp_get, wp_onRoot, IndexCatalog.save, wp_mapError]
    rw [Disk.wp_write (by exact hq)]
    have hrebuild := rebuildIndex_spec (h.addIndex hi) hq (find_addIndex_self (s := s))
      (hi.stored.addIndex)
    refine wp_mono hrebuild ?_ ?_
    · rintro _ t ⟨hp, m', old, hf, rfl⟩
      refine ⟨hnew, hp, rfl, ?_⟩
      have hown : IndexFile (s.addIndex (newIndex name table column)).root name
          (newIndex name table column) [] :=
        ⟨rfl, hi.storable, fun entry he => by simp at he, addIndex_file⟩
      rw [hown.unique hf]
      rfl
    · rintro _ _ ⟨rfl, hn⟩
      exact .inr ⟨hnew, hn, rfl⟩
  · refine .inl ⟨?_, rfl⟩
    by_contra hnew
    have hfalse : s.indexes.contains (newIndex name table column).name = false := by
      simpa using! hnew
    have hok := insert_eq_ok.mpr ⟨hfalse, rfl⟩
    change (s.indexes.insert (newIndex name table column)).mapError .index = .error e at hins
    rw [hok] at hins
    cases hins

/-- A fresh index is written over the file of that name, also when the name is taken. -/
theorem createIndex_spec (h : Sound s) (hq : s.root.faults = []) (name table column : String) :
    wp (Database.createIndex name table column)
      (fun m t => ∃ schema layout bytes, Indexable s name table column schema layout bytes ∧
        s.indexes.contains name = false ∧ HeadersPass bytes ∧ m = newIndex name table column ∧
        t = (s.addIndex m).putIndex m (entriesOf schema layout column bytes))
      (fun _ t => (¬ ∃ schema layout bytes, Indexable s name table column schema layout bytes) ∧
        t = s ∨ ∃ schema layout bytes, Indexable s name table column schema layout bytes ∧
          (s.indexes.contains name = true ∧ t = s.putIndex (newIndex name table column) [] ∨
            s.indexes.contains name = false ∧ ¬ HeadersPass bytes ∧
              t = s.addIndex (newIndex name table column))) s := by
  by_cases hi : ∃ schema layout bytes, Indexable s name table column schema layout bytes
  · obtain ⟨schema, layout, bytes, hi⟩ := hi
    refine wp_mono (createIndex_writes h hq hi) ?_ ?_
    · rintro m t ⟨hnew, hp, rfl, rfl⟩
      exact ⟨schema, layout, bytes, hi, hnew, hp, rfl, rfl⟩
    · exact fun _ t ht => .inr ⟨schema, layout, bytes, hi, ht⟩
  · exact wp_mono (createIndex_refused h hi) (fun _ _ => False.elim) fun _ _ ht => .inl ⟨hi, ht⟩

theorem Fresh.addIndex (hs : Sound s) (h : Fresh s)
    (hi : Indexable s name table column schema layout bytes) (hp : HeadersPass bytes) :
    Fresh ((s.addIndex (newIndex name table column)).putIndex (newIndex name table column)
      (entriesOf schema layout column bytes)) := by
  intro n m hfind
  have hfind : (s.addIndex (newIndex name table column)).indexes.indexes.find n = some m := hfind
  rw [find_addIndex] at hfind
  rcases eq_or_ne n name with rfl | hne
  · have hsame : some (newIndex n table column) = some m := (update_self n _ _).symm.trans hfind
    obtain rfl := Option.some.inj hsame
    exact ⟨schema, layout, bytes, hi.stored.addIndex.putIndex, hp, Disk.files_put_self _ _ _⟩
  · have hfind : s.indexes.indexes.find n = some m := (update_of_ne hne _ _).symm.trans hfind
    obtain ⟨rfl, -⟩ := hs.indexes n m hfind
    have hpath : indexFilePath m.name ≠ indexFilePath (newIndex name table column).name := by
      simpa using! hne
    refine (h m.name m hfind).congr rfl ?_ ?_
    · exact (Disk.files_put_of_ne (by simp) _).trans (addIndex_files (by simp) (by simp))
    · exact (Disk.files_put_of_ne hpath _).trans (addIndex_files hpath (by simp))

/-! ## Dropping an index -/

/-- The database without an index. -/
def Database.removeIndexFile (s : Database) (name : String) : Database :=
  { s.eraseIndex name with
    root := (s.root.put (indexFilePath name) none).put indexCatalogPath
      (some (utf8 (IndexCatalog.content ⟨s.indexes.indexes.erase name⟩))) }

theorem dropIndex_spec (h : Sound s) (hq : s.root.faults = []) (name : String) :
    wp (Database.dropIndex name)
      (fun _ t => s.indexes.contains name = true ∧ t = s.removeIndexFile name)
      (fun e t => s.indexes.contains name = false ∧ e = .error (.index (.indexNotFound name)) ∧
        t = s) s := by
  unfold Database.dropIndex Database.removeIndex
  simp only [wp_bind, wp_get, IndexCatalog.remove]
  cases hfind : s.indexes.indexes.find name with
  | none =>
      refine ⟨?_, rfl, rfl⟩
      rw [IndexCatalog.contains, SortedMap.contains, hfind]
      rfl
  | some m =>
      obtain ⟨rfl, hi⟩ := h.indexes name m hfind
      obtain ⟨bytes, hf⟩ := hi.exists_file
      have hcon : s.indexes.contains m.name = true := SortedMap.contains_iff.mpr ⟨m, hfind⟩
      simp only [wp_modify, wp_pure, wp_onRoot, deleteIndexFile, wp_mapError]
      show wp (Disk.removeFile (indexFilePath m.name)) _ _ s.root
      rw [Disk.wp_removeFile hq hf]
      simp only [Database.saveIndexes, wp_bind, wp_get, wp_onRoot, IndexCatalog.save, wp_mapError]
      rw [Disk.wp_write (by exact hq)]
      exact ⟨hcon, rfl⟩

/-- An index that is still listed is not the one that is gone. -/
theorem find_removeIndexFile {n : String}
    (hfind : (s.removeIndexFile name).indexes.indexes.find n = some m) :
    n ≠ name ∧ s.indexes.indexes.find n = some m := by
  have hfind : (s.indexes.indexes.erase name).find n = some m := hfind
  rw [SortedMap.find_erase] at hfind
  rcases eq_or_ne n name with rfl | hne
  · rw [update_self] at hfind
    cases hfind
  · exact ⟨hne, (update_of_ne hne _ _).symm.trans hfind⟩

theorem removeIndexFile_files {path : String} (hp : path ≠ indexFilePath name)
    (hc : path ≠ indexCatalogPath) :
    (s.removeIndexFile name).root.files path = s.root.files path :=
  (Disk.files_put_of_ne hc _).trans (Disk.files_put_of_ne hp _)

theorem Sound.removeIndexFile (h : Sound s) : Sound (s.removeIndexFile name) := by
  refine ⟨fun name' schema hfind => ?_, fun n m hfind => ?_, ?_, .inl (Disk.files_put_self _ _ _)⟩
  · obtain ⟨layout, bytes, hs⟩ := h.tables name' schema hfind
    exact ⟨layout, bytes, hs.congr rfl (removeIndexFile_files (by simp) (by simp))⟩
  · obtain ⟨hne, hfind⟩ := find_removeIndexFile hfind
    obtain ⟨rfl, hi⟩ := h.indexes n m hfind
    exact ⟨rfl, hi.congr rfl (removeIndexFile_files (by simp) (by simp))
      (removeIndexFile_files (by simpa using hne) (by simp))⟩
  · have hf : (s.removeIndexFile name).root.files catalogPath = s.root.files catalogPath :=
      removeIndexFile_files (Ne.symm (by simp)) catalogPath_ne_indexCatalogPath
    rw [InFile, hf]
    exact h.catalogFile

theorem Fresh.removeIndexFile (hs : Sound s) (h : Fresh s) : Fresh (s.removeIndexFile name) := by
  intro n m hfind
  obtain ⟨hne, hfind⟩ := find_removeIndexFile hfind
  obtain ⟨rfl, -⟩ := hs.indexes n m hfind
  exact (h m.name m hfind).congr rfl (removeIndexFile_files (by simp) (by simp))
    (removeIndexFile_files (by simpa using hne) (by simp))

end Redbase.Database
