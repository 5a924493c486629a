import Redbase.Database.Lemmas.Interrupted

/-!
# What is in the directory

Every file of the directory is one that the catalogs stand for, as long as no request for a table
fails.
-/

namespace Redbase.Database

open Prog Bytes Text Page Record Files Table Index Function

set_option linter.dupNamespace false

variable {s t : Database} {name path : String} {schema : TableSchema} {layout : SchemaLayout}
  {bytes : List UInt8} {m : IndexMeta} {entries : List IndexEntry} {l : List IndexMeta}

/-- The paths that the catalogs stand for. -/
inductive Listed (s : Database) : String → Prop
  | catalog : Listed s catalogPath
  | indexCatalog : Listed s indexCatalogPath
  | table {name : String} (listed : s.catalog.tables.find name ≠ none) : Listed s (tablePath name)
  | index {name : String} (listed : s.indexes.indexes.find name ≠ none) :
      Listed s (indexFilePath name)

/-- There is no other file. -/
def Tidy (s : Database) : Prop := ∀ path, s.root.files path ≠ none → Listed s path

theorem Listed.mono (h : Listed s path)
    (htables : ∀ name, s.catalog.tables.find name ≠ none → t.catalog.tables.find name ≠ none)
    (hindexes : ∀ name, s.indexes.indexes.find name ≠ none → t.indexes.indexes.find name ≠ none) :
    Listed t path := by
  cases h with
  | catalog => exact .catalog
  | indexCatalog => exact .indexCatalog
  | table listed => exact .table (htables _ listed)
  | index listed => exact .index (hindexes _ listed)

theorem Listed.table_iff : Listed s (tablePath name) ↔ s.catalog.tables.find name ≠ none := by
  refine ⟨fun h => ?_, .table⟩
  generalize hp : tablePath name = path at h
  cases h with
  | catalog => exact absurd hp (by simp)
  | indexCatalog => exact absurd hp (by simp)
  | table listed =>
      rw [tablePath_inj] at hp
      exact hp ▸ listed
  | index listed => exact absurd hp (by simp)

/-- A table that is not listed has no file. -/
theorem Tidy.noFile (h : Tidy s) (hn : s.catalog.tables.find name = none) :
    s.root.files (tablePath name) = none := by
  by_contra hf
  exact Listed.table_iff.mp (h _ hf) hn

/-! ## Writes -/

theorem update_ne_none {α β : Type} [DecidableEq α] {f : α → Option β} {a b : α} {x : β}
    (h : f b ≠ none) :
    update f a (some x) b ≠ none := by
  rw [update_apply]
  split
  next => exact Option.some_ne_none x
  next => exact h

/-- A listed file is written. -/
theorem Tidy.put {bytes : Option (List UInt8)} (h : Tidy s) (hp : Listed s path) :
    Tidy (s.putFile path bytes) := by
  intro path' hf
  rcases eq_or_ne path' path with rfl | hne
  · exact hp.mono (fun _ => id) fun _ => id
  · rw [show (s.putFile path bytes).root.files path' = s.root.files path' from update_of_ne hne _ _]
      at hf
    exact (h path' hf).mono (fun _ => id) fun _ => id

theorem Tidy.addTable (h : Tidy s) : Tidy (s.addTable schema bytes) := by
  have hfind : (s.addTable schema bytes).catalog.tables.find =
      update s.catalog.tables.find schema.name (some schema) :=
    SortedMap.find_insert _ _ _
  intro path hf
  rcases eq_or_ne path catalogPath with rfl | hc
  · exact .catalog
  rcases eq_or_ne path (tablePath schema.name) with rfl | hp
  · refine .table ?_
    rw [hfind, update_self]
    exact Option.some_ne_none _
  · have hsame : (s.addTable schema bytes).root.files path = s.root.files path :=
      (Disk.files_put_of_ne hc _).trans (Disk.files_put_of_ne hp _)
    rw [hsame] at hf
    refine (h path hf).mono (fun name hn => ?_) fun _ => id
    rw [hfind]
    exact update_ne_none hn

theorem Tidy.addIndex (h : Tidy s) : Tidy (s.addIndex m) := by
  intro path hf
  rcases eq_or_ne path indexCatalogPath with rfl | hc
  · exact .indexCatalog
  rcases eq_or_ne path (indexFilePath m.name) with rfl | hp
  · refine .index ?_
    rw [find_addIndex, update_self]
    exact Option.some_ne_none _
  · rw [addIndex_files hp hc] at hf
    refine (h path hf).mono (fun _ => id) fun name hn => ?_
    rw [find_addIndex]
    exact update_ne_none hn

theorem Tidy.removeIndexFile (h : Tidy s) : Tidy (s.removeIndexFile name) := by
  intro path hf
  rcases eq_or_ne path indexCatalogPath with rfl | hc
  · exact .indexCatalog
  rcases eq_or_ne path (indexFilePath name) with rfl | hp
  · have hgone : (s.removeIndexFile name).root.files (indexFilePath name) = none :=
      (Disk.files_put_of_ne (by simp) _).trans (Disk.files_put_self _ _ _)
    exact absurd hgone hf
  · rw [removeIndexFile_files hp hc] at hf
    have hl := h path hf
    cases hl with
    | catalog => exact .catalog
    | indexCatalog => exact .indexCatalog
    | table listed => exact .table listed
    | index listed =>
        refine .index ?_
        show (s.indexes.indexes.erase name).find _ ≠ none
        rw [SortedMap.find_erase, update_of_ne (by simpa using hp)]
        exact listed

theorem eraseIndexes_gone (hm : m ∈ l) :
    (s.eraseIndexes l).root.files (indexFilePath m.name) = none := by
  induction l generalizing s with
  | nil => cases hm
  | cons first rest ih =>
      rcases List.mem_cons.mp hm with rfl | hm
      · exact eraseIndexes_head
      · exact ih hm

theorem Tidy.removeTable (h : Tidy s) : Tidy (s.removeTable name) := by
  intro path hf
  rcases eq_or_ne path indexCatalogPath with rfl | hi
  · exact .indexCatalog
  rcases eq_or_ne path catalogPath with rfl | hc
  · exact .catalog
  have hsteps : (s.removeTable name).root.files path =
      ((s.eraseIndexes (s.indexes.indexesForTable name)).root.put (tablePath name) none).files
        path :=
    (Disk.files_put_of_ne hi _).trans (Disk.files_put_of_ne hc _)
  rcases eq_or_ne path (tablePath name) with rfl | hp
  · rw [hsteps, Disk.files_put_self] at hf
    exact absurd rfl hf
  rw [hsteps, Disk.files_put_of_ne hp] at hf
  have hkept : ∀ m ∈ s.indexes.indexesForTable name, path ≠ indexFilePath m.name := by
    rintro m hm rfl
    exact hf (eraseIndexes_gone hm)
  rw [eraseIndexes_files hkept] at hf
  have hl := h path hf
  cases hl with
  | catalog => exact .catalog
  | indexCatalog => exact .indexCatalog
  | table listed =>
      refine .table ?_
      rw [(removeTable_other (by simpa using hp)).1]
      exact listed
  | @index n listed =>
      refine .index ?_
      show (s.eraseIndexes (s.indexes.indexesForTable name)).indexes.indexes.find _ ≠ none
      rw [find_eraseIndexes, if_neg]
      · exact listed
      · intro hn
        obtain ⟨m, hm, rfl⟩ := List.mem_map.mp hn
        exact hkept m hm rfl

theorem Tidy.rebuilt (h : Tidy s) (hl : ∀ m ∈ l, s.indexes.indexes.find m.name ≠ none)
    (hb : Rebuilt s t schema layout bytes l) : Tidy t := by
  intro path hf
  by_cases hm : ∃ m ∈ l, path = indexFilePath m.name
  · obtain ⟨m, hm, rfl⟩ := hm
    refine .index ?_
    rw [hb.indexes]
    exact hl m hm
  · rw [hb.kept path fun m hm' he => hm ⟨m, hm', he⟩] at hf
    refine (h path hf).mono (fun name hn => ?_) fun name hn => ?_
    · rw [hb.catalog]
      exact hn
    · rw [hb.indexes]
      exact hn

end Redbase.Database
