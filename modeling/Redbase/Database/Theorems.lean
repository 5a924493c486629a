import Redbase.Database.Lemmas.Declarations

/-!
# Catalogs

A catalog file that is accepted declares tables in blocks. The catalog that is loaded keeps the last
block of every name.
-/

namespace Redbase.Database

open Prog Text Page Files Table

namespace Catalog

variable {catalog : Catalog} {d : Disk} {content : String} {blocks : List TableSchema}
  {tables : SortedMap String TableSchema compareText}

/-- The catalog has the tables that the file declares, each once and under its name; their schemas
compile, and the catalog is loaded again from where it is saved. -/
def Lossless (content : String) (catalog : Catalog) : Prop :=
  (∃ blocks, Declares (rowsOf content) blocks ∧
      catalog.tables.entries.Perm (blocks.map fun table => (table.name, table))) ∧
    (∀ name schema, catalog.tables.find name = some schema → ∃ layout,
      compileSchema schema = .ok layout) ∧
    ∀ e e', catalog.save e = .ok () e' → load e' = .ok catalog

/-! ## Repeated names -/

theorem insertAll_eq (tables : SortedMap String TableSchema compareText)
    (blocks : List TableSchema) :
    insertAll tables blocks =
      (blocks.map fun table => (table.name, table)).foldl
        (fun tables entry => tables.insert entry.1 entry.2) tables := by
  rw [insertAll, List.foldl_map]

/-- Tables with different names are all kept. -/
theorem insertAll_perm (h : (blocks.map TableSchema.name).Nodup) :
    (insertAll SortedMap.empty blocks).entries.Perm
      (blocks.map fun table => (table.name, table)) := by
  have hkeys : ((blocks.map fun table => (table.name, table)).map Prod.fst).Nodup := by
    rw [List.map_map]
    exact h
  have hperm := SortedMap.foldl_insert_perm (m := (SortedMap.empty : SortedMap _ _ compareText))
    hkeys fun _ _ => rfl
  rw [SortedMap.empty, List.append_nil] at hperm
  rw [insertAll_eq]
  exact hperm

theorem storable_insertAll (h : Compiled blocks) (ht : Storable ⟨tables⟩) :
    Storable ⟨insertAll tables blocks⟩ := by
  induction blocks generalizing tables with
  | nil => exact ht
  | cons table rest ih =>
      obtain ⟨hfirst, hrest⟩ := List.forall_mem_cons.mp h
      refine ih hrest fun name schema hfind => ?_
      rw [SortedMap.find_insert] at hfind
      by_cases hname : name = table.name
      · subst hname
        rw [Function.update_self] at hfind
        cases hfind
        exact ⟨rfl, hfirst⟩
      · rw [Function.update_of_ne hname] at hfind
        exact ht name schema hfind

/-! ## Loading -/

theorem load_declares (hd : d.readToString catalogPath = .ok content) (hl : load d = .ok catalog) :
    ∃ blocks, Declares (rowsOf content) blocks ∧ Compiled blocks ∧
      catalog = ⟨insertAll SortedMap.empty blocks⟩ := by
  cases hlines : lines content with
  | nil =>
      refine ⟨[], ?_, List.forall_mem_nil _, ?_⟩
      · rw [rowsOf, hlines]
        exact .nil
      · exact load_no_lines hd hlines hl
  | cons header rest =>
      obtain ⟨-, hadd⟩ := (load_lines hd hlines).mp hl
      obtain ⟨blocks, hblocks, hcompiled, htables⟩ := (Draft.addRows_declares hadd).1 rfl
      exact ⟨blocks, hblocks, hcompiled, congrArg Catalog.mk htables⟩

theorem Lossless.nodup (h : Lossless content catalog) :
    ((rowsOf content).filterMap openedName).Nodup := by
  obtain ⟨⟨blocks, hblocks, hperm⟩, -⟩ := h
  have hkeys := (hperm.map Prod.fst).nodup_iff.mp (SortedMap.nodup_keys _)
  rw [List.map_map] at hkeys
  rw [hblocks.openedNames]
  exact hkeys

/-- A catalog file that is accepted loses no declaration just when no two of its blocks have the
same name. -/
theorem load_lossless_iff (hd : d.readToString catalogPath = .ok content)
    (hl : load d = .ok catalog) :
    Lossless content catalog ↔ ((rowsOf content).filterMap openedName).Nodup := by
  obtain ⟨blocks, hblocks, hcompiled, rfl⟩ := load_declares hd hl
  have hstorable : Storable ⟨insertAll SortedMap.empty blocks⟩ := storable_insertAll hcompiled
    fun _ _ h => by cases h
  refine ⟨Lossless.nodup, fun hnd => ?_⟩
  rw [hblocks.openedNames] at hnd
  refine ⟨⟨blocks, hblocks, insertAll_perm hnd⟩, fun name schema hfind =>
    (hstorable name schema hfind).2, ?_⟩
  intro e e' hsave
  exact load_content hstorable (save_files hsave)

/-- Two tables. -/
def twoTables : List TableSchema := [⟨"t", [⟨"a", .int32⟩]⟩, ⟨"s", [⟨"a", .int32⟩, ⟨"b", .char 4⟩]⟩]

theorem compiled_twoTables : Compiled twoTables := by
  simp only [twoTables, Compiled, List.forall_mem_cons, List.not_mem_nil, false_implies,
    implies_true, and_true]
  exact ⟨⟨_, rfl⟩, _, rfl⟩

theorem load_lossless_iff_two :
    ∃ catalog, load (Disk.empty.put catalogPath (some (utf8 (declaring twoTables)))) = .ok catalog ∧
      Lossless (declaring twoTables) catalog := by
  have hfile := Disk.files_put_self Disk.empty catalogPath (some (utf8 (declaring twoTables)))
  have hl := load_declaring compiled_twoTables hfile
  refine ⟨_, hl, (load_lossless_iff (Disk.readToString_of_write hfile) hl).mpr ?_⟩
  rw [rowsOf_declaring compiled_twoTables]
  decide

/-- Two blocks with the name `t`. -/
def repeatedText : String :=
  "rs-redbase-catalog-v1\ntable\tt\ncolumn\ta\tint32\nend\ntable\tt\ncolumn\tb\tfloat32\nend\n"

/-- The file is accepted, and only its second block is loaded. -/
theorem load_loses_repeated :
    ∃ catalog, load (Disk.empty.put catalogPath (some (utf8 repeatedText))) = .ok catalog ∧
      catalog.tables.entries = [("t", ⟨"t", [⟨"b", .float32⟩]⟩)] ∧
        ¬ Lossless repeatedText catalog := by
  have htext : repeatedText = declaring [⟨"t", [⟨"a", .int32⟩]⟩, ⟨"t", [⟨"b", .float32⟩]⟩] := rfl
  have hcompiled : Compiled [⟨"t", [⟨"a", .int32⟩]⟩, ⟨"t", [⟨"b", .float32⟩]⟩] := by
    simp only [Compiled, List.forall_mem_cons, List.not_mem_nil, false_implies,
      implies_true, and_true]
    exact ⟨⟨_, rfl⟩, _, rfl⟩
  rw [htext]
  refine ⟨_, load_declaring hcompiled (Disk.files_put_self ..), rfl, fun h => ?_⟩
  have hnd := h.nodup
  rw [rowsOf_declaring hcompiled] at hnd
  revert hnd
  decide

end Catalog

end Redbase.Database
