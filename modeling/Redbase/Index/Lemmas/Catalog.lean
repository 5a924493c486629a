import Redbase.Index.Catalog

/-!
# The index catalog is read back

What `save` writes, `load` reads, when the names in it can be fields of a line.
-/

namespace Redbase.Index

open Prog Text Page Files Function

variable {m : IndexMeta} {catalog : IndexCatalog} {d : Disk}

/-- An index whose names can be written to a file. -/
structure IndexMeta.Storable (m : IndexMeta) : Prop where
  name : IsField m.name
  table : IsField m.table
  column : IsField m.column

/-- Every index is listed under its name, and can be written. -/
def IndexCatalog.Storable (catalog : IndexCatalog) : Prop :=
  ∀ name m, catalog.indexes.find name = some m → m.name = name ∧ m.Storable

theorem isField_indexFileHeader : IsField indexFileHeader := by decide

theorem joinFields_singleton (s : String) : joinFields [s] = s := by
  simp [joinFields]

theorem IndexMeta.Storable.row (h : m.Storable) : ∀ s ∈ IndexCatalog.metaRow m, IsField s := by
  have hword : IsField m.keyType.word := by
    cases m.keyType
    decide
  have htag : IsField "index" := by decide
  simp only [IndexCatalog.metaRow, List.forall_mem_cons, List.not_mem_nil, false_implies,
    implies_true, and_true]
  exact ⟨htag, h.name, h.table, h.column, hword⟩

namespace IndexCatalog

theorem loadLines_rows (entries : List (String × IndexMeta))
    (indexes : SortedMap String IndexMeta compareText)
    (hs : entries.Pairwise fun a b => compareText a.1 b.1 = .lt)
    (hm : ∀ entry ∈ entries, entry.2.name = entry.1 ∧ entry.2.Storable)
    (hnew : ∀ entry ∈ entries, indexes.find entry.1 = none) :
    loadLines indexes ((entries.map fun entry => metaRow entry.2).map joinFields) =
      .ok (entries.foldl (fun indexes entry => indexes.insert entry.1 entry.2) indexes) := by
  induction entries generalizing indexes with
  | nil => rfl
  | cons entry rest ih =>
      obtain ⟨hfirst, hrest⟩ := List.pairwise_cons.mp hs
      obtain ⟨⟨hname, hst⟩, hmrest⟩ := List.forall_mem_cons.mp hm
      obtain ⟨hfree, hnewrest⟩ := List.forall_mem_cons.mp hnew
      obtain ⟨name, m⟩ := entry
      obtain rfl : m.name = name := hname
      have hne : joinFields (metaRow m) ≠ "" := joinFields_ne_empty (by decide)
      have hfields : fields (joinFields (metaRow m)) = metaRow m :=
        fields_joinFields (List.cons_ne_nil _ _) hst.row
      have hmeta : (⟨m.name, m.table, m.column, .int32⟩ : IndexMeta) = m := by
        cases m with
        | mk name table column keyType =>
            cases keyType
            rfl
      have hcontains : indexes.contains m.name = false := by
        rw [SortedMap.contains, hfree]
        rfl
      have hkind : m.keyType.word = "int32" := by
        cases m.keyType
        rfl
      rw [List.map_cons, List.map_cons, loadLines, if_neg hne, hfields]
      simp only [metaRow, hkind, hcontains, hmeta, and_self, if_true]
      refine ih _ hrest hmrest fun entry he => ?_
      rw [SortedMap.find_insert, update_of_ne (SortedMap.ne_of_lt (hfirst entry he)).symm]
      exact hnewrest entry he

/-- What was saved is loaded. -/
theorem load_content (hc : catalog.Storable)
    (hd : d.files indexCatalogPath = some (utf8 catalog.content)) :
    load d = .ok catalog := by
  have hm : ∀ entry ∈ catalog.indexes.entries, entry.2.name = entry.1 ∧ entry.2.Storable :=
    fun entry he =>
    hc entry.1 entry.2 (SortedMap.find_eq_some_iff.mpr he)
  have hexists : d.pathExists indexCatalogPath = true := Disk.pathExists_iff.mpr ⟨_, hd⟩
  have hrows : ∀ row ∈ [indexFileHeader] :: catalog.indexes.values.map metaRow, ∀ s ∈ row,
      IsField s := by
    refine List.forall_mem_cons.mpr ⟨by simpa using isField_indexFileHeader, fun row hr => ?_⟩
    obtain ⟨m, hmem, rfl⟩ := List.mem_map.mp hr
    obtain ⟨name, hfind⟩ := SortedMap.mem_values.mp hmem
    exact (hc name m hfind).2.row
  have hlines := loadLines_rows catalog.indexes.entries SortedMap.empty catalog.indexes.sorted hm
    fun _ _ => rfl
  rw [SortedMap.foldl_insert_empty] at hlines
  have hvalues : catalog.indexes.values.map metaRow = catalog.indexes.entries.map
      fun entry => metaRow entry.2 := by
    rw [SortedMap.values, List.map_map]
    rfl
  unfold load
  rw [if_neg (by simp [hexists]), Disk.readToString_of_write hd]
  simp only [Except.mapError, bind_eq_ok]
  refine ⟨_, rfl, ?_⟩
  rw [content, lines_fileText hrows, List.map_cons, joinFields_singleton, hvalues]
  simp only [hlines]
  rfl

/-- Before anything is saved there is no index. -/
theorem load_none (hd : d.files indexCatalogPath = none) : load d = .ok empty := by
  unfold load
  rw [if_pos]
  · rfl
  · rw [Disk.pathExists, hd]
    rfl

end IndexCatalog

end Redbase.Index
