import Redbase.Database.Lemmas.Tables
import Redbase.Database.Lemmas.Catalog
import Redbase.Table.Lemmas.Index

/-!
# What holds of a database

The catalogs are in their files, every table has a file of rows, and every index has a file and is
about an `Int32` column of a table. In a fresh database the file of an index lists the rows of its
table.
-/

namespace Redbase.Database

open Prog Bytes Text Page Record Files Table Index Function

set_option linter.dupNamespace false

variable {s : Database} {name name' : String}

/-! ## Paths -/

theorem append_ext_ne {a b x y : String} (h : x.toList.getLast? ≠ y.toList.getLast?) (hx : x ≠ "")
    (hy : y ≠ "") :
    a ++ x ≠ b ++ y := by
  intro he
  have hl := congrArg (fun s : String => s.toList.getLast?) he
  have hnil : ∀ s : String, s ≠ "" → s.toList ≠ [] := fun s hs h => hs (String.toList_inj.mp h)
  simp only [String.toList_append, List.getLast?_append_of_ne_nil _ (hnil x hx),
    List.getLast?_append_of_ne_nil _ (hnil y hy)] at hl
  exact h hl

theorem append_right_inj {a b x : String} : a ++ x = b ++ x ↔ a = b := by
  refine ⟨fun h => ?_, fun h => h ▸ rfl⟩
  have hl := congrArg String.toList h
  rw [String.toList_append, String.toList_append] at hl
  exact String.toList_inj.mp (List.append_cancel_right hl)

@[simp] theorem tablePath_inj : tablePath name = tablePath name' ↔ name = name' := append_right_inj

@[simp] theorem indexFilePath_inj : indexFilePath name = indexFilePath name' ↔ name = name' :=
  append_right_inj

@[simp] theorem tablePath_ne_indexFilePath : tablePath name ≠ indexFilePath name' :=
  append_ext_ne (by decide) (by decide) (by decide)

@[simp] theorem tablePath_ne_catalogPath : tablePath name ≠ catalogPath :=
  append_ext_ne (b := "catalog") (y := ".txt") (by decide) (by decide) (by decide)

@[simp] theorem tablePath_ne_indexCatalogPath : tablePath name ≠ indexCatalogPath :=
  append_ext_ne (b := "indexes") (y := ".txt") (by decide) (by decide) (by decide)

@[simp] theorem indexFilePath_ne_catalogPath : indexFilePath name ≠ catalogPath :=
  append_ext_ne (b := "catalog") (y := ".txt") (by decide) (by decide) (by decide)

@[simp] theorem indexFilePath_ne_indexCatalogPath : indexFilePath name ≠ indexCatalogPath :=
  append_ext_ne (b := "indexes") (y := ".txt") (by decide) (by decide) (by decide)

@[simp] theorem catalogPath_ne_indexCatalogPath : catalogPath ≠ indexCatalogPath := by decide

/-! ## The invariant -/

/-- What is in the file of an index: which column it says it is about, and its entries. -/
structure IndexFile (root : Disk) (name : String) (m : IndexMeta) (entries : List IndexEntry) :
    Prop where
  named : m.name = name
  storable : m.Storable
  fits : ∀ entry ∈ entries, entry.Fits
  file : root.files (indexFilePath name) = some (utf8 (indexContent m entries))

/-- An index of the catalog is about an `Int32` column of a table. -/
structure Indexed (s : Database) (m : IndexMeta) : Prop where
  identifier : validateIdentifier m.name = .ok ()
  table : ∃ schema layout bytes, Stored s m.table schema layout bytes ∧
    IndexedColumn layout m.column
  file : ∃ m' entries, IndexFile s.root m.name m' entries

/-- A catalog is in its file; before it is first saved there is none. -/
def InFile (root : Disk) (path content : String) (empty : Prop) : Prop :=
  root.files path = some (utf8 content) ∨ root.files path = none ∧ empty

structure Sound (s : Database) : Prop where
  tables : ∀ name schema, s.catalog.tables.find name = some schema →
    ∃ layout bytes, Stored s name schema layout bytes
  indexes : ∀ name m, s.indexes.indexes.find name = some m → m.name = name ∧ Indexed s m
  catalogFile : InFile s.root catalogPath s.catalog.content (s.catalog = .empty)
  indexCatalogFile : InFile s.root indexCatalogPath s.indexes.content (s.indexes = .empty)

/-- The entries of an index on a column of a table. -/
def entriesOf (schema : TableSchema) (layout : SchemaLayout) (column : String)
    (bytes : List UInt8) : List IndexEntry :=
  (records (fileHeader bytes) (filePages bytes)).map (entryOf schema layout column)

/-- The file of an index lists the rows of its table, all of which can be scanned. -/
def UpToDate (s : Database) (m : IndexMeta) : Prop :=
  ∃ schema layout bytes, Stored s m.table schema layout bytes ∧ HeadersPass bytes ∧
    s.root.files (indexFilePath m.name) =
      some (utf8 (indexContent m (entriesOf schema layout m.column bytes)))

/-- Every index is up to date. -/
def Fresh (s : Database) : Prop := ∀ name m, s.indexes.indexes.find name = some m → UpToDate s m

/-! ## Consequences -/

theorem IndexedColumn.name_identifier {schema : TableSchema} {layout : SchemaLayout}
    {column : String} (hc : compileSchema schema = .ok layout) (hx : IndexedColumn layout column) :
    validateIdentifier column = .ok () := by
  obtain ⟨c, hcol, -⟩ := hx
  obtain ⟨hm, rfl⟩ := column_eq_ok hcol
  exact (compileSchema_laid hc).identifiers c hm

theorem Indexed.storable {m : IndexMeta} (h : Indexed s m) : m.Storable := by
  obtain ⟨schema, layout, bytes, hs, hx⟩ := h.table
  refine ⟨isField_of_identifier h.identifier, ?_,
    isField_of_identifier (IndexedColumn.name_identifier hs.compiled hx)⟩
  rw [← hs.named]
  exact isField_of_identifier (compileSchema_name hs.compiled)

theorem Sound.catalog_storable (h : Sound s) : s.catalog.Storable := by
  intro name schema hfind
  obtain ⟨layout, bytes, hs⟩ := h.tables name schema hfind
  exact ⟨hs.named, layout, hs.compiled⟩

theorem Sound.indexes_storable (h : Sound s) : s.indexes.Storable := by
  intro name m hfind
  obtain ⟨hname, hi⟩ := h.indexes name m hfind
  exact ⟨hname, hi.storable⟩

/-- A database that is opened again is the same. -/
theorem Sound.open_eq (h : Sound s) : Database.open s.root = .ok s := by
  have hcatalog : Catalog.load s.root = .ok s.catalog := by
    rcases h.catalogFile with hf | ⟨hf, he⟩
    · exact Catalog.load_content h.catalog_storable hf
    · rw [he]
      exact Catalog.load_none hf
  have hindexes : IndexCatalog.load s.root = .ok s.indexes := by
    rcases h.indexCatalogFile with hf | ⟨hf, he⟩
    · exact IndexCatalog.load_content h.indexes_storable hf
    · rw [he]
      exact IndexCatalog.load_none hf
  unfold Database.open
  rw [hcatalog, hindexes]
  rfl

/-- A catalog that was saved is in its file. -/
theorem indexes_save_files {d d' : Disk} (h : s.indexes.save d = .ok () d') :
    d'.files indexCatalogPath = some (utf8 s.indexes.content) := by
  refine wp_ok h (Q := fun _ t => t.files indexCatalogPath = some (utf8 s.indexes.content))
    (E := fun _ _ => True) ?_
  unfold IndexCatalog.save
  rw [wp_mapError]
  exact Disk.write_files

/-- What is stored for a table is determined. -/
theorem Stored.unique {schema schema' : TableSchema} {layout layout' : SchemaLayout}
    {bytes bytes' : List UInt8} (h : Stored s name schema layout bytes)
    (h' : Stored s name schema' layout' bytes') :
    schema' = schema ∧ layout' = layout ∧ bytes' = bytes := by
  obtain rfl := Option.some.inj (h.listed.symm.trans h'.listed)
  exact ⟨rfl, Except.ok.inj (h'.compiled.symm.trans h.compiled),
    Option.some.inj (h'.file.symm.trans h.file)⟩

/-! ## Writing to one file -/

section Writes

variable {path : String} {content : Option (List UInt8)}

/-- The database with `content` in one file. -/
def Database.putFile (s : Database) (path : String) (content : Option (List UInt8)) : Database :=
  { s with root := s.root.put path content }

theorem Stored.putFile {schema : TableSchema} {layout : SchemaLayout} {bytes : List UInt8}
    (h : Stored s name schema layout bytes) (hp : tablePath name ≠ path) :
    Stored (s.putFile path content) name schema layout bytes :=
  ⟨h.listed, h.named, h.compiled, (update_of_ne hp _ _).trans h.file, h.rows⟩

theorem InFile.putFile {path' text : String} {empty : Prop} (h : InFile s.root path' text empty)
    (hp : path' ≠ path) :
    InFile (s.putFile path content).root path' text empty := by
  have hf : (s.putFile path content).root.files path' = s.root.files path' := update_of_ne hp _ _
  rw [InFile, hf]
  exact h

theorem IndexFile.putFile {m : IndexMeta} {entries : List IndexEntry}
    (h : IndexFile s.root name m entries) (hp : indexFilePath name ≠ path) :
    IndexFile (s.putFile path content).root name m entries :=
  ⟨h.named, h.storable, h.fits, (update_of_ne hp _ _).trans h.file⟩

/-- A table is written. -/
theorem Sound.putTable {schema : TableSchema} {layout : SchemaLayout} {bytes bytes' : List UInt8}
    (h : Sound s) (hs : Stored s name schema layout bytes) (hr : RowsIn bytes' layout) :
    Sound (s.putTable name bytes') := by
  have hnew : Stored (s.putTable name bytes') name schema layout bytes' :=
    ⟨hs.listed, hs.named, hs.compiled, update_self .., hr⟩
  have htables : ∀ name' schema', s.catalog.tables.find name' = some schema' →
      ∃ layout' bytes'', Stored (s.putTable name bytes') name' schema' layout' bytes'' ∧
        ∀ layout₀ bytes₀, Stored s name' schema' layout₀ bytes₀ → layout' = layout₀ := by
    intro name' schema' hfind
    obtain ⟨layout', bytes'', hs'⟩ := h.tables name' schema' hfind
    rcases eq_or_ne name' name with rfl | hne
    · obtain rfl : schema' = schema := Option.some.inj (hfind.symm.trans hs.listed)
      exact ⟨layout, bytes', hnew, fun layout₀ bytes₀ h₀ => (h₀.unique hs).2.1⟩
    · exact ⟨layout', bytes'', hs'.putFile (by simpa using hne),
        fun layout₀ bytes₀ h₀ => (h₀.unique hs').2.1⟩
  refine ⟨fun name' schema' hfind => ?_, fun name' m hfind => ?_,
    h.catalogFile.putFile (Ne.symm (by simp)), h.indexCatalogFile.putFile (Ne.symm (by simp))⟩
  · obtain ⟨layout', bytes'', hs', -⟩ := htables name' schema' hfind
    exact ⟨layout', bytes'', hs'⟩
  · obtain ⟨hname, hi⟩ := h.indexes name' m hfind
    obtain ⟨schema', layout', bytes'', hs', hx⟩ := hi.table
    obtain ⟨layout₁, bytes₁, hs₁, hsame⟩ := htables m.table schema' hs'.listed
    obtain rfl := hsame layout' bytes'' hs'
    obtain ⟨m', entries, hf⟩ := hi.file
    exact ⟨hname, hi.identifier, ⟨schema', layout₁, bytes₁, hs₁, hx⟩, m', entries,
      hf.putFile (Ne.symm (by simp))⟩

end Writes

end Redbase.Database
