import Redbase.Query.Theorems
import Redbase.Database.Lemmas.Interrupted

/-!
# Schema requests that are interrupted

`create_table` and `create_index` write the file of what they create before its catalog, and the
drops remove the files before the catalogs. What a failing call leaves behind is therefore harmless
in the first, and in the drops only before the first file is gone.
-/

namespace Redbase.Query

open Prog Bytes Text Page Record Files Table Index Database QueryEngine Function

variable {s t : Database} {root : Disk} {name table column : String} {m : IndexMeta}
  {schema : TableSchema} {layout : SchemaLayout} {bytes : List UInt8} {k : Nat} {e : IoError}

/-! ## What is missing -/

/-- A listed index without a file. -/
theorem not_consistent_of_index (h : Sound s) (hfind : s.indexes.indexes.find name = some m)
    (hcatalog : root.files indexCatalogPath = s.root.files indexCatalogPath)
    (hgone : root.files (indexFilePath m.name) = none) : ¬ Consistent root := by
  rintro ⟨t, ho, hc⟩
  obtain ⟨-, hi, rfl⟩ := open_eq_ok.mp ho
  have hsame :=
    Except.ok.inj
      (hi.symm.trans (load_indexes h.indexes_storable (h.indexCatalogFile.congr hcatalog)))
  exact not_indexMatches hgone (hc.indexes name m (hsame ▸ hfind))

theorem not_tableOpens (hf : s.root.files (tablePath name) = none) :
    ¬ TableOpens s name schema := by
  rintro ⟨layout, table, t, -, hr, -⟩
  have hopen : wp (Disk.openFile (tablePath name)) (fun _ _ => False) (fun _ _ => True) s.root := by
    unfold Disk.openFile
    rw [wp_bind]
    refine wp_mono Disk.turn_files (fun _ t ht => ?_) fun _ _ _ => trivial
    simp only [wp_bind, wp_get, ht, hf]
    exact trivial
  have hw : wp (Database.openTable name) (fun _ _ => False) (fun _ _ => True) s := by
    unfold Database.openTable
    simp only [wp_bind, wp_get]
    refine Database.wp_check.mpr
      ⟨fun schema _ => Database.wp_check.mpr ⟨fun layout _ => ?_, fun _ _ => trivial⟩,
      fun _ _ => trivial⟩
    rw [wp_onRoot]
    unfold RecordManager.openFile PageManager.openFile
    simp only [wp_bind, wp_mapError]
    exact wp_mono hopen (fun _ _ => False.elim) fun _ _ _ => trivial
  exact (wp_ok hr hw :)

/-- A listed table without a file. -/
theorem not_consistent_of_table (h : Sound s) (hfind : s.catalog.tables.find name = some schema)
    (hcatalog : root.files catalogPath = s.root.files catalogPath)
    (hgone : root.files (tablePath name) = none) :
    ¬ Consistent root := by
  rintro ⟨t, ho, hc⟩
  obtain ⟨hi, -, rfl⟩ := open_eq_ok.mp ho
  have hsame :=
    Except.ok.inj (hi.symm.trans (load_catalog h.catalog_storable (h.catalogFile.congr hcatalog)))
  exact not_tableOpens hgone (hc.tables name schema (hsame ▸ hfind))

/-! ## What is left behind -/

/-- A table without indexes is gone, only the catalog of the indexes was not saved. -/
theorem consistent_of_removed (h : Sound s) (hq : s.root.faults = []) (hc : Coherent s)
    (hq' : root.faults = []) (hplain : s.indexes.indexesForTable name = [])
    (hf : root.files = update (update s.root.files (tablePath name) none) catalogPath
      (some (utf8 (s.catalog.remove name).content))) : Consistent root := by
  have hother : ∀ path, path ≠ tablePath name → path ≠ catalogPath →
      root.files path = s.root.files path :=
    fun path hp hp' => (congrFun hf path).trans ((update_of_ne hp' _ _).trans (update_of_ne hp _ _))
  have hstorable : (s.catalog.remove name).Storable := Sound.catalog_storable h.removeTable
  have ho : Database.open root = .ok ⟨root, s.catalog.remove name, s.indexes⟩ := by
    refine open_eq_ok.mpr ⟨load_catalog hstorable (.inl ?_),
      load_indexes h.indexes_storable (h.indexCatalogFile.congr ?_), rfl⟩
    · exact (congrFun hf _).trans (update_self ..)
    · exact hother _ (Ne.symm (by simp)) (Ne.symm (by simp))
  have hfinds : ∀ name', (s.catalog.remove name).tables.find name' =
      update s.catalog.tables.find name none name' :=
    fun name' => congrFun (SortedMap.find_erase ..) name'
  refine (consistent_iff ho).mpr
    (hc.transfer h hq hq' (fun name' schema hfind => ?_) fun n m hfind => .inr ?_)
  · rw [hfinds] at hfind
    have hne : name' ≠ name := by
      rintro rfl
      rw [update_self] at hfind
      cases hfind
    rw [update_of_ne hne] at hfind
    exact ⟨hfind, hother _ (by simpa using hne) (by simp)⟩
  · obtain ⟨rfl, hi⟩ := h.indexes n m hfind
    have hne : m.table ≠ name := by
      intro he
      have hm : m ∈ s.indexes.indexesForTable name :=
        mem_indexesForTable.mpr ⟨SortedMap.mem_values.mpr ⟨_, hfind⟩, he⟩
      rw [hplain] at hm
      cases hm
    refine ⟨hfind, ?_, hother _ (by simpa using hne) (by simp),
      hother _ (Ne.symm (by simp)) (by simp)⟩
    rw [hfinds, update_of_ne hne]

/-- The file of an index that is not listed. -/
theorem consistent_of_unlisted (h : Sound s) (hq : s.root.faults = []) (hc : Coherent s)
    (hq' : root.faults = []) (hnew : s.indexes.indexes.find name = none)
    {content : Option (List UInt8)}
    (hf : root.files = update s.root.files (indexFilePath name) content) : Consistent root := by
  have hother : ∀ path, path ≠ indexFilePath name → root.files path = s.root.files path :=
    fun path hp => (congrFun hf path).trans (update_of_ne hp _ _)
  have ho := h.reopen (hother _ (Ne.symm (by simp))) (hother _ (Ne.symm (by simp)))
  refine (consistent_iff ho).mpr (hc.transfer h hq hq' ?_ ?_)
  · exact fun name' schema hfind => ⟨hfind, hother _ (by simp)⟩
  · intro n m hfind
    obtain ⟨rfl, -⟩ := h.indexes n m hfind
    refine .inr ⟨hfind, rfl, hother _ (by simp), hother _ ?_⟩
    rw [Ne, indexFilePath_inj]
    rintro rfl
    have hfind' : s.indexes.indexes.find m.name = some m := hfind
    rw [hnew] at hfind'
    cases hfind'

/-- A new index that is listed and whose file is still without entries. -/
theorem consistent_addIndex_iff (h : Sound s) (hq : s.root.faults = []) (hc : Coherent s)
    (hq' : root.faults = []) (hi : Indexable s name table column schema layout bytes)
    (hnew : s.indexes.indexes.find name = none)
    (hf : root.files = (s.addIndex (newIndex name table column)).root.files) :
    Consistent root ↔ ∀ rid, liveRecords bytes rid = none := by
  have hsound := h.addIndex hi
  have ho := hsound.reopen (congrFun hf _) (congrFun hf _)
  have hfile : IndexFile root name (newIndex name table column) [] :=
    ⟨rfl, hi.storable, fun entry he => (by simp at he), (congrFun hf _).trans addIndex_file⟩
  rw [consistent_iff ho]
  constructor
  · rintro ⟨-, hindexes⟩ rid
    obtain ⟨schema', layout', bytes', m', entries, hfind, hcomp, htable, hload, -, hentries⟩ :=
      hindexes name (newIndex name table column) (find_addIndex_self (s := s))
    obtain ⟨rfl, rfl, rfl⟩ : schema' = schema ∧ layout' = layout ∧ bytes' = bytes := by
      have hs := hi.stored.addIndex (m := newIndex name table column)
      have hfind : s.catalog.tables.find table = some schema' := hfind
      obtain rfl := Option.some.inj (hfind.symm.trans hi.stored.listed)
      refine ⟨rfl, Except.ok.inj (hcomp.symm.trans hi.stored.compiled), ?_⟩
      exact Option.some.inj (htable.symm.trans ((congrFun hf _).trans hs.file))
    cases hlive : liveRecords bytes' rid with
    | none => rfl
    | some data =>
        have hload' : loadIndexFile root name = .ok (m', entries) := hload
        rw [hfile.load] at hload'
        cases hload'
        have hmem : entryOf schema' layout' column ⟨rid, data⟩ ∈
            sortEntries (entriesOf schema' layout' column bytes') := by
          rw [(sortEntries_perm _).mem_iff]
          exact List.mem_map_of_mem (mem_matching.mpr ⟨hlive, rfl⟩)
        have hentry := ((entriesOf_spec hi.stored hi.column).2 _).mp hmem
        exact absurd ((hentries _).mpr hentry) (by simp [sortEntries])
  · intro hnone
    refine hc.transfer h hq hq'
      (fun name' schema' hfind =>
      ⟨hfind, (congrFun hf _).trans (addIndex_files (by simp) (by simp))⟩) ?_
    intro n m hfind
    have hfind : (s.addIndex (newIndex name table column)).indexes.indexes.find n = some m := hfind
    rw [find_addIndex] at hfind
    rcases eq_or_ne n name with rfl | hne
    · obtain rfl : newIndex n table column = m :=
        Option.some.inj ((update_self n _ _).symm.trans hfind)
      refine .inl ⟨schema, layout, bytes, _, _, hi.stored.listed, hi.stored.compiled, ?_,
        hfile.load, ?_, fun entry => ?_⟩
      · exact (congrFun hf _).trans ((addIndex_files (by simp) (by simp)).trans hi.stored.file)
      · simp [sortEntries]
      · simp [sortEntries, hnone]
    · have hfind : s.indexes.indexes.find n = some m := (update_of_ne hne _ _).symm.trans hfind
      obtain ⟨rfl, -⟩ := h.indexes n m hfind
      have hpath : indexFilePath m.name ≠ indexFilePath (newIndex name table column).name := by
        simpa using! hne
      exact .inr ⟨hfind, rfl, (congrFun hf _).trans (addIndex_files (by simp) (by simp)),
        (congrFun hf _).trans (addIndex_files hpath (by simp))⟩

/-! ## The requests -/

theorem wp_discard {α : Type} {m : DatabaseM α} {Q : Database → Prop}
    {E : Stop TableError → Database → Prop} (h : wp m (fun _ => Q) E s) :
    wp (do let _ ← m) (fun _ : Unit => Q) E s := by
  rw [wp_bind]
  exact h

/-- In a reachable database whose directory is consistent, a request that stops at a call that fails
leaves a consistent directory just where it is harmless. The calls on the open file of a new table
may fail as well: whatever they leave in it, its name is not listed. -/
theorem interrupted_consistent_iff (h : Reachable s) (hc : Consistent s.root) :
    (∀ (request : SchemaRequest) (k : Nat) (e : IoError) (err : Stop TableError) (t : Database),
      request.run (s.failing k e) = .error err t → t.root.faults = [] →
        (Consistent t.root ↔ request.Harmless s k)) ∧
    ∀ name bytes, s.catalog.tables.find name = none →
      Consistent (s.root.put (tablePath name) bytes) := by
  obtain ⟨hs, hq⟩ := h.good
  have hc := (consistent_iff hs.open_eq).mp hc
  refine ⟨fun request k e err t hr hq' => ?_, fun name bytes hn =>
    hs.consistent_orphan hq hc hq hn ⟨bytes, rfl⟩⟩
  have hsame : t.root.files = s.root.files → Consistent t.root := hs.consistent_same hq hc hq'
  cases request with
  | createTable schema =>
      refine iff_of_true ?_ trivial
      rcases (wp_error hr (createTable_stops schema) :) with hf | ⟨hn, hf⟩
      · exact hsame hf
      · exact hs.consistent_orphan hq hc hq' hn hf
  | dropTable name =>
      obtain ⟨hlisted, hstops⟩ := (wp_error hr (dropTable_stops hs name k e) :) hq'
      generalize hroot : t.root = root at hstops hsame hq'
      cases hstops with
      | atOnce hf => exact iff_of_true (hsame hf) (.inl rfl)
      | indexed hm hgone hcatalog =>
          refine iff_of_false (not_consistent_of_index hs (hs.indexesForTable name _ hm).2
            hcatalog hgone) ?_
          rintro (hk | ⟨hnil, -⟩)
          · cases hk
          · rw [hnil] at hm
            cases hm
      | unsaved hplain hf =>
          obtain ⟨schema, hfind⟩ := Option.ne_none_iff_exists'.mp hlisted
          refine iff_of_false (not_consistent_of_table hs hfind ?_
            ((congrFun hf _).trans (update_self ..))) ?_
          · exact (congrFun hf _).trans (update_of_ne (Ne.symm (by simp)) _ _)
          · rintro (hk | ⟨-, hk⟩) <;> cases hk
      | saved hplain hf =>
          exact iff_of_true (consistent_of_removed hs hq hc hq' hplain hf) (.inr ⟨hplain, rfl⟩)
  | createIndex name table column =>
      have hw := wp_discard (createIndex_stops hs name table column k e)
      obtain ⟨schema, layout, bytes, hi, ⟨rfl, hf⟩ | ⟨hcon, hwritten⟩⟩ := (wp_error hr hw :) hq'
      · exact iff_of_true (hsame hf) (.inl (Nat.zero_le _))
      have hnew : s.indexes.indexes.find name = none := by
        rw [← Option.not_isSome_iff_eq_none]
        exact Bool.eq_false_iff.mp hcon
      rcases hwritten with ⟨rfl, hf⟩ | ⟨hk, hf⟩
      · exact iff_of_true (consistent_of_unlisted hs hq hc hq' hnew hf) (.inl le_rfl)
      · rw [consistent_addIndex_iff hs hq hc hq' hi hnew hf]
        constructor
        · intro hnone
          refine .inr fun bytes' hfile => ?_
          obtain rfl := Option.some.inj (hi.stored.file.symm.trans hfile)
          exact hnone
        · rintro (hle | hnone)
          · omega
          · exact hnone bytes hi.stored.file
  | dropIndex name =>
      obtain ⟨hlisted, ⟨rfl, hf⟩ | ⟨rfl, hf⟩⟩ := (wp_error hr (dropIndex_stops hs name k e) :) hq'
      · exact iff_of_true (hsame hf) rfl
      · obtain ⟨m, hfind⟩ := Option.ne_none_iff_exists'.mp hlisted
        obtain ⟨rfl, -⟩ := hs.indexes name m hfind
        refine iff_of_false (not_consistent_of_index hs hfind ?_
          ((congrFun hf _).trans (update_self ..))) (by rintro ⟨⟩)
        exact (congrFun hf _).trans (update_of_ne (Ne.symm (by simp)) _ _)

/-- A new database with one table. -/
theorem created_consistent (hs : Served s) (hc : Consistent s.root)
    (hcr : Creatable s schema layout) {header : RecordFileHeader}
    (hnew : RecordFileHeader.new layout.recordSize = .ok header) :
    ∃ t bytes, Served t ∧ Consistent t.root ∧ Stored t schema.name schema layout bytes ∧
      t.indexes = s.indexes := by
  have hgood := hs.reachable.good
  have hw : wp (Request.createTable ⟨schema⟩).run (fun _ t => ∃ bytes,
      EmptyRecords bytes layout.recordSize ∧ t = s.addTable schema bytes) never s := by
    unfold Request.run QueryEngine.executeCreateTable
    rw [wp_liftDatabase]
    refine wp_mono (createTable_spec hgood.faults schema) ?_ ?_
    · rintro _ t ⟨layout', bytes, hc', he, rfl⟩
      obtain rfl : layout' = layout := Except.ok.inj (hc'.compiled.symm.trans hcr.compiled)
      exact ⟨bytes, he, rfl⟩
    · rintro _ t (⟨hno, -⟩ | ⟨layout', bytes, e, hc', he, -⟩)
      · exact hno ⟨layout, hcr⟩
      · obtain rfl : layout' = layout := Except.ok.inj (hc'.compiled.symm.trans hcr.compiled)
        rw [hnew] at he
        cases he
  obtain ⟨t, hserved, bytes, he, rfl⟩ := hs.step_of_wp hw
  have hgood' := hserved.reachable.good
  have hstored := hcr.stored he
  have hcoherent := (consistent_iff hgood.sound.open_eq).mp hc
  refine ⟨_, bytes, hserved, (consistent_iff hgood'.sound.open_eq).mpr
    ⟨fun name schema' hfind => ?_, fun n m hfind => ?_⟩,
    hstored, rfl⟩
  · rcases eq_or_ne name schema.name with rfl | hne
    · obtain rfl := Option.some.inj (hstored.listed.symm.trans hfind)
      obtain ⟨hdr, pages, hsaved, -⟩ := he
      refine (tableOpens_iff hgood'.faults hstored).mpr ?_
      rw [fileHeader_eq hsaved]
      exact hsaved.wf.valid fun p hp => by cases hp
    · obtain ⟨hother, hfile⟩ : (s.addTable schema bytes).catalog.tables.find name = _ ∧ _ :=
        addTable_other hne
      rw [hother] at hfind
      obtain ⟨layout', bytes', hs'⟩ := hgood.sound.tables name schema' hfind
      refine (tableOpens_iff hgood'.faults (hs'.congr hother hfile)).mpr ?_
      exact (tableOpens_iff hgood.faults hs').mp (hcoherent.tables name schema' hfind)
  · have hfind : s.indexes.indexes.find n = some m := hfind
    have hne : m.table ≠ schema.name := fun he => (hgood.sound.indexes n m hfind).2.listed
      (he ▸ hcr.unlisted)
    exact (hcoherent.indexes n m hfind).congr (addTable_other hne).1 (addTable_other hne).2
      (addTable_indexFile m.name)

theorem exists_table :
    ∃ s bytes, Served s ∧ Consistent s.root ∧ Stored s "t" pagedSchema pagedLayout bytes ∧
      s.indexes.indexesForTable "t" = [] := by
  have hstart : Served ⟨Disk.empty, .empty, .empty⟩ := .start rfl
  have hempty : Consistent Disk.empty :=
    ⟨⟨Disk.empty, .empty, .empty⟩, rfl, fun _ _ hfind => (by cases hfind),
      fun _ _ hfind => (by cases hfind)⟩
  have hcr : Creatable ⟨Disk.empty, .empty, .empty⟩ pagedSchema pagedLayout :=
    ⟨compileSchema_paged, rfl, rfl⟩
  have hnew : RecordFileHeader.new pagedLayout.recordSize = .ok ⟨4004, 1, -1, 0⟩ := by decide
  obtain ⟨t, bytes, hserved, hc, hs, hindexes⟩ := created_consistent hstart hempty hcr hnew
  refine ⟨t, bytes, hserved, hc, hs, ?_⟩
  rw [hindexes]
  rfl

/-- The drop of a table without indexes, where the removal of its file fails or the save of the
catalog. -/
theorem dropTable_interrupted {layout : SchemaLayout} (hs : Stored s name schema layout bytes)
    (hplain : s.indexes.indexesForTable name = []) (hk : k ≤ 1) :
    wp (SchemaRequest.dropTable name).run (fun _ _ => False) (fun _ t => t.root.faults = [])
      (s.failing k e) := by
  have hlisted : (s.failing k e).catalog.contains name = true :=
    SortedMap.contains_iff.mpr ⟨schema, hs.listed⟩
  unfold SchemaRequest.run Database.dropTable
  simp only [wp_bind, wp_get, wp_ite, wp_throw, hlisted, Bool.true_eq_false, if_false]
  show wp (Database.dropIndexes (s.indexes.indexesForTable name)) _ _ _
  rw [hplain]
  simp only [Database.dropIndexes, wp_pure, wp_onRoot, Database.saveCatalog, wp_bind, wp_modify,
    wp_get, Catalog.save, wp_mapError]
  show wp (Disk.removeFile (tablePath name)) _ _ (s.root.failing k e)
  obtain rfl | rfl : k = 0 ∨ k = 1 := by omega
  · exact rfl
  · rw [Disk.wp_removeFile_passes hs.file]
    exact rfl

theorem interrupted_consistent_first :
    ∃ (s t : Database) (err : Stop TableError), (SchemaRequest.dropTable "t").run
      (s.failing 0 .notFound) = .error err t ∧ Consistent t.root ∧
      s.catalog.tables.find "t" = some pagedSchema := by
  obtain ⟨s, bytes, hserved, hc, hs, hplain⟩ := exists_table
  obtain ⟨err, t, hr, hq⟩ :=
    exists_error_of_wp (dropTable_interrupted (k := 0) (e := .notFound) hs hplain (Nat.zero_le _))
  exact ⟨s, t, err, hr,
    ((interrupted_consistent_iff hserved.reachable hc).1 (.dropTable "t") 0 .notFound err t hr
      hq).mpr (.inl rfl), hs.listed⟩

/-- The table is still listed where its file is gone. -/
theorem dropTable_half :
    ∃ (s t : Database) (k : Nat) (e : IoError) (err : Stop TableError), Reachable s ∧
      Consistent s.root ∧
      (SchemaRequest.dropTable "t").run (s.failing k e) = .error err t ∧ t.root.faults = [] ∧
        ¬ Consistent t.root := by
  obtain ⟨s, bytes, hserved, hc, hs, hplain⟩ := exists_table
  obtain ⟨err, t, hr, hq⟩ :=
    exists_error_of_wp (dropTable_interrupted (k := 1) (e := .notFound) hs hplain le_rfl)
  refine ⟨s, t, 1, .notFound, err, hserved.reachable, hc, hr, hq, ?_⟩
  have hsound := hserved.reachable.good.sound
  obtain ⟨-, hstops⟩ := (wp_error hr (dropTable_stops hsound "t" 1 .notFound) :) hq
  generalize hroot : t.root = root at hstops
  cases hstops with
  | indexed hm => rw [hplain] at hm; cases hm
  | unsaved _ hf =>
      refine not_consistent_of_table hsound hs.listed ?_ ((congrFun hf _).trans (update_self ..))
      exact (congrFun hf _).trans (update_of_ne (Ne.symm (by simp)) _ _)

end Redbase.Query
