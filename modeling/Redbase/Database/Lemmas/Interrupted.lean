import Redbase.Database.Interrupted
import Redbase.Database.Lemmas.Schema
import Redbase.Database.Lemmas.IndexSchema

/-!
# Calls that fail, and what they leave

Each request stops at the first call that fails; the lemmas say which files have changed by then.
-/

namespace Redbase.Files

open Prog Bytes Text Page Buffer Record Function ByteIo Disk

variable {d : Disk} {path path' content : String} {k recordSize : Nat} {e : IoError}
  {bytes : List UInt8} {h : RecordFileHeader} {pages : Nat → PageData} {chain : List Nat}

namespace Disk

theorem faults_failing (d : Disk) (k : Nat) (e : IoError) : (d.failing k e).faults ≠ [] := by
  simp [failing]

section

variable {Q : Unit → Disk → Prop} {E : IoError → Disk → Prop}

theorem wp_write_passes : wp (write path content) Q E (d.failing (k + 1) e) ↔
    Q () ((d.put path (some (utf8 content))).failing k e) := Iff.rfl

theorem wp_removeFile_passes (hf : d.files path = some bytes) :
    wp (removeFile path) Q E (d.failing (k + 1) e) ↔ Q () ((d.put path none).failing k e) := by
  unfold removeFile
  rw [wp_bind]
  show wp _ Q E (d.failing k e) ↔ _
  have hyes : (d.failing k e).pathExists path = true := pathExists_iff.mpr ⟨bytes, hf⟩
  simp only [wp_bind, wp_get]
  rw [if_pos hyes, wp_modify]
  rfl

end

/-! ## Calls of which any may fail -/

theorem write_mayFail :
    wp (write path content) (fun _ t => t.files = update d.files path (some (utf8 content)))
      (fun _ t => t.files = d.files) d := by
  unfold write
  rw [wp_bind]
  refine wp_mono turn_files (fun _ t ht => ?_) fun _ _ => id
  rw [wp_modify, files_put, ht]

theorem openFile_mayFail (hf : d.files path = some bytes) :
    wp (openFile path) (fun io t => io = ⟨bytes⟩ ∧ t.files = d.files)
      (fun _ t => t.files = d.files) d := by
  unfold openFile
  rw [wp_bind]
  refine wp_mono turn_files (fun _ t ht => ?_) fun _ _ => id
  simp only [wp_bind, wp_get, ht, hf, wp_pure]
  exact ⟨trivial, trivial⟩

/-- Only the file at `path` may change. -/
def Only (path : String) (d t : Disk) : Prop := ∃ bytes, t.files = update d.files path bytes

theorem Only.of_files (h : t.files = d.files) : Only path d t :=
  ⟨d.files path, by rw [h, update_eq_self]⟩

theorem Only.put {t : Disk} (h : Only path d t) (bytes : Option (List UInt8)) :
    Only path d (t.put path bytes) := by
  obtain ⟨b, hb⟩ := h
  exact ⟨bytes, by rw [files_put, hb, update_idem]⟩

theorem Only.leave {t : Disk} (h : Only path d t) (io : Option DiskPageIo) :
    Only path d (t.leave path io) := by
  cases io with
  | none => exact h
  | some io => exact h.put _

theorem createNew_only :
    wp (createNew path) (fun _ t => Only path d t) (fun _ t => Only path d t) d := by
  unfold createNew
  rw [wp_bind]
  refine wp_mono turn_files (fun _ t ht => ?_) fun _ t ht => .of_files ht
  simp only [wp_bind, wp_get, wp_ite, wp_throw, wp_modify, wp_pure]
  split
  · exact .of_files ht
  · exact (Only.of_files ht).put _

end Disk

theorem PageManager.createFile_only :
    wp (PageManager.createFile path) (fun _ t => Only path d t) (fun _ t => Only path d t) d := by
  unfold PageManager.createFile
  rw [wp_bind, wp_mapError]
  refine wp_mono createNew_only (fun io t ht => ?_) fun _ _ => id
  have hfinish : ∀ r, wp (PageManager.finish path r) (fun _ t => Only path d t)
      (fun _ t => Only path d t) t := by
    intro r
    cases r with
    | ok _ file => exact ht.put _
    | error e file => exact ht.put _
  split
  · exact hfinish _
  · exact hfinish _

theorem PageManager.openFile_files :
    wp (PageManager.openFile path) (fun _ t => t.files = d.files)
      (fun _ t => t.files = d.files) d := by
  unfold PageManager.openFile
  rw [wp_bind, wp_mapError]
  have hopen : wp (Disk.openFile path) (fun _ t => t.files = d.files)
      (fun _ t => t.files = d.files) d := by
    unfold Disk.openFile
    rw [wp_bind]
    refine wp_mono turn_files (fun _ t ht => ?_) fun _ _ => id
    simp only [wp_bind, wp_get]
    split
    · exact ht
    · exact ht
  refine wp_mono hopen (fun io t ht => ?_) fun _ _ => id
  split
  · exact ht
  · exact ht

theorem RecordManager.createFile_only (recordSize : Nat) :
    wp (RecordManager.createFile path recordSize) (fun _ t => Only path d t)
      (fun _ t => Only path d t) d := by
  unfold RecordManager.createFile
  rw [wp_bind, wp_mapError]
  refine wp_mono PageManager.createFile_only (fun _ t ht => ?_) fun _ _ => id
  rw [wp_bind, wp_mapError]
  refine wp_mono PageManager.openFile_files (fun file u hu => ?_) fun _ u hu => ?_
  · have hu : Only path d u := by
      obtain ⟨b, hb⟩ := ht
      exact ⟨b, hu.trans hb⟩
    split
    · simp only [wp_bind, wp_modify, wp_throw]
      exact hu.leave _
    · split
      · rw [wp_modify]
        exact hu.leave _
      · simp only [wp_bind, wp_modify, wp_throw]
        exact hu.leave _
  · obtain ⟨b, hb⟩ := ht
    exact ⟨b, hu.trans hb⟩

/-- A record file is opened as if no call failed, or the call fails. -/
theorem RecordManager.openFile_mayFail (hf : d.files path = some bytes)
    (hs : Saved (DiskPageIo.mk bytes) h pages chain) :
    wp (RecordManager.openFile path)
      (fun file t => t.files = d.files ∧ h.Valid ∧ file.header = h ∧ Holds file pages chain ∧
        Reading file.pool bytes ∧ file.headerDirty = false)
      (fun _ t => t.files = d.files) d := by
  have hcap : 0 < defaultBufferCapacity := by decide
  obtain ⟨file, io, hopen, hcases⟩ := hs.open_cases hcap rfl
  unfold RecordManager.openFile PageManager.openFile
  simp only [wp_bind, wp_mapError]
  refine wp_mono (Disk.openFile_mayFail hf) ?_ fun _ _ => id
  rintro _ t ⟨rfl, ht⟩
  simp only [hopen, wp_pure]
  rcases hcases with ⟨hv, s, he, hhdr, hh, hread, hdirty⟩ | ⟨hv, e, left, he, -, hleft⟩
  · simp only [he, wp_pure]
    exact ⟨ht, hv, hhdr, hh, hread, hdirty⟩
  · simp only [he, wp_bind, wp_modify, wp_throw]
    have hsame : t.files path = some left.file :=
      (congrFun ht path).trans (hf.trans (congrArg some hleft.symm))
    show (t.put path (some left.file)).files = d.files
    rw [put_self hsame, ht]

end Redbase.Files

namespace Redbase.Database

open Prog Bytes Text Page Record Files Table Index Function

set_option linter.dupNamespace false

variable {s t : Database} {root : Disk} {name table column : String} {schema : TableSchema}
  {layout : SchemaLayout} {bytes : List UInt8} {m : IndexMeta} {entries : List IndexEntry}
  {l : List IndexMeta} {k : Nat} {e : IoError}

/-! ## Opening the directory again -/

theorem open_eq_ok : Database.open root = .ok s ↔
    Catalog.load root = .ok s.catalog ∧ IndexCatalog.load root = .ok s.indexes ∧ s.root = root := by
  unfold Database.open
  simp only [bind_eq_ok, mapError_eq_ok, pure_eq_ok]
  constructor
  · rintro ⟨catalog, hc, indexes, hi, rfl⟩
    exact ⟨hc, hi, rfl⟩
  · rintro ⟨hc, hi, rfl⟩
    exact ⟨_, hc, _, hi, rfl⟩

theorem load_catalog {catalog : Catalog} (hs : catalog.Storable)
    (hf : InFile root catalogPath catalog.content (catalog = .empty)) :
    Catalog.load root = .ok catalog := by
  rcases hf with hf | ⟨hf, he⟩
  · exact Catalog.load_content hs hf
  · rw [he]
    exact Catalog.load_none hf

theorem load_indexes {indexes : IndexCatalog} (hs : indexes.Storable)
    (hf : InFile root indexCatalogPath indexes.content (indexes = .empty)) :
    IndexCatalog.load root = .ok indexes := by
  rcases hf with hf | ⟨hf, he⟩
  · exact IndexCatalog.load_content hs hf
  · rw [he]
    exact IndexCatalog.load_none hf

theorem InFile.congr {path content : String} {empty : Prop} (h : InFile s.root path content empty)
    (hf : root.files path = s.root.files path) : InFile root path content empty := by
  rw [InFile, hf]
  exact h

/-- The catalogs are read from their files. -/
theorem Sound.reopen (h : Sound s) (hc : root.files catalogPath = s.root.files catalogPath)
    (hi : root.files indexCatalogPath = s.root.files indexCatalogPath) :
    Database.open root = .ok { s with root } :=
  open_eq_ok.mpr ⟨load_catalog h.catalog_storable (h.catalogFile.congr hc),
    load_indexes h.indexes_storable (h.indexCatalogFile.congr hi), rfl⟩

theorem consistent_iff (ho : Database.open root = .ok s) : Consistent root ↔ Coherent s := by
  constructor
  · rintro ⟨t, ht, hc⟩
    obtain rfl := Except.ok.inj (ho.symm.trans ht)
    exact hc
  · exact fun hc => ⟨s, ho, hc⟩

theorem Sound.failing (h : Sound s) (k : Nat) (e : IoError) : Sound (s.failing k e) := by
  refine ⟨fun name schema hfind => ?_, fun name m hfind => ?_, h.catalogFile, h.indexCatalogFile⟩
  · obtain ⟨layout, bytes, hs⟩ := h.tables name schema hfind
    exact ⟨layout, bytes, hs.congr rfl rfl⟩
  · obtain ⟨hname, hi⟩ := h.indexes name m hfind
    exact ⟨hname, hi.congr rfl rfl rfl⟩

/-! ## What is listed -/

theorem tableOpens_iff (hq : s.root.faults = []) (hs : Stored s name schema layout bytes) :
    TableOpens s name schema ↔ (fileHeader bytes).Valid := by
  have hw := openTable_spec hq hs
  constructor
  · rintro ⟨layout', table, t, -, hr, -⟩
    exact (wp_ok hr hw :).2.1
  · intro hv
    cases hr : Database.openTable name s with
    | error e t => exact absurd hv (wp_error hr hw :).2
    | ok table t =>
        have ho := (wp_ok hr hw :).2.2
        exact ⟨layout, table, t, hs.compiled, hr, by rw [ho.header, hs.rows.size]⟩

theorem loadIndexFile_congr
    (hf : t.root.files (indexFilePath name) = s.root.files (indexFilePath name)) :
    loadIndexFile t.root name = loadIndexFile s.root name := by
  unfold loadIndexFile Disk.readToString
  rw [hf]

theorem IndexMatches.congr (h : IndexMatches s m)
    (hc : t.catalog.tables.find m.table = s.catalog.tables.find m.table)
    (ht : t.root.files (tablePath m.table) = s.root.files (tablePath m.table))
    (hf : t.root.files (indexFilePath m.name) = s.root.files (indexFilePath m.name)) :
    IndexMatches t m := by
  unfold IndexMatches
  rw [hc, ht, loadIndexFile_congr hf]
  exact h

/-- An index without a file. -/
theorem not_indexMatches (hf : s.root.files (indexFilePath m.name) = none) :
    ¬ IndexMatches s m := by
  rintro ⟨schema, layout, bytes, m', entries, -, -, -, hload, -⟩
  unfold loadIndexFile Disk.readToString at hload
  rw [hf] at hload
  cases hload

/-- What is still listed and has not changed. -/
theorem Coherent.transfer (h : Coherent s) (hs : Sound s) (hq : s.root.faults = [])
    (hq' : t.root.faults = [])
    (htables : ∀ name schema, t.catalog.tables.find name = some schema →
      s.catalog.tables.find name = some schema ∧
      t.root.files (tablePath name) = s.root.files (tablePath name))
    (hindexes : ∀ name m, t.indexes.indexes.find name = some m → IndexMatches t m ∨
      s.indexes.indexes.find name = some m ∧
      t.catalog.tables.find m.table = s.catalog.tables.find m.table ∧
      t.root.files (tablePath m.table) = s.root.files (tablePath m.table) ∧
      t.root.files (indexFilePath m.name) = s.root.files (indexFilePath m.name)) : Coherent t := by
  refine ⟨fun name schema hfind => ?_, fun name m hfind => ?_⟩
  · obtain ⟨hfind', hf⟩ := htables name schema hfind
    obtain ⟨layout, bytes, hst⟩ := hs.tables name schema hfind'
    have hst' : Stored t name schema layout bytes := hst.congr (hfind.trans hfind'.symm) hf
    exact (tableOpens_iff hq' hst').mpr ((tableOpens_iff hq hst).mp (h.tables name schema hfind'))
  · rcases hindexes name m hfind with hm | ⟨hfind', hc, ht, hf⟩
    · exact hm
    · exact (h.indexes name m hfind').congr hc ht hf

/-- The directory is as it was. -/
theorem Sound.consistent_same (h : Sound s) (hq : s.root.faults = []) (hc : Coherent s)
    (hq' : root.faults = []) (hf : root.files = s.root.files) : Consistent root := by
  refine (consistent_iff (h.reopen (congrFun hf _) (congrFun hf _))).mpr
    (hc.transfer h hq hq' ?_ ?_)
  · exact fun name schema hfind => ⟨hfind, congrFun hf _⟩
  · exact fun name m hfind => .inr ⟨hfind, rfl, congrFun hf _, congrFun hf _⟩

/-! ## Creating a table -/

/-- What is left behind is the file of a table that is not listed. -/
theorem createTable_stops (schema : TableSchema) :
    wp (Database.createTable schema) (fun _ _ => True)
      (fun _ t => t.root.files = s.root.files ∨
        s.catalog.tables.find schema.name = none ∧
          Disk.Only (tablePath schema.name) s.root t.root) s := by
  unfold Database.createTable
  rw [wp_bind]
  refine wp_check.mpr ⟨fun layout _ => ?_, fun _ _ => .inl rfl⟩
  simp only [wp_bind, wp_get, wp_ite, wp_throw]
  split
  next => exact .inl trivial
  next hlisted =>
      have hunlisted : s.catalog.tables.find schema.name = none := by
        cases hfind : s.catalog.tables.find schema.name with
        | none => rfl
        | some schema' => exact absurd (SortedMap.contains_iff.mpr ⟨schema', hfind⟩) hlisted
      rw [wp_onRoot]
      refine wp_mono (RecordManager.createFile_only _) (fun _ root hroot => ?_)
        fun _ root hroot => .inr ⟨hunlisted, hroot⟩
      simp only [wp_modify, Database.saveCatalog, wp_bind, wp_get, wp_onRoot,
        Catalog.save, wp_mapError]
      refine wp_mono Disk.write_mayFail (fun _ _ _ => trivial) fun _ t ht => .inr ⟨hunlisted, ?_⟩
      obtain ⟨b, hb⟩ := hroot
      exact ⟨b, ht.trans hb⟩

theorem Sound.consistent_orphan (h : Sound s) (hq : s.root.faults = []) (hc : Coherent s)
    (hq' : root.faults = []) (hn : s.catalog.tables.find name = none)
    (hf : Disk.Only (tablePath name) s.root root) : Consistent root := by
  obtain ⟨b, hb⟩ := hf
  have hother : ∀ path, path ≠ tablePath name → root.files path = s.root.files path :=
    fun path hp => (congrFun hb path).trans (update_of_ne hp _ _)
  have hlisted : ∀ name', s.catalog.tables.find name' ≠ none →
      tablePath name' ≠ tablePath name := by
    intro name' hfind
    rw [Ne, tablePath_inj]
    rintro rfl
    exact hfind hn
  have ho := h.reopen (hother _ (Ne.symm (by simp))) (hother _ (Ne.symm (by simp)))
  refine (consistent_iff ho).mpr (hc.transfer h hq hq' ?_ ?_)
  · exact fun name' schema hfind =>
      ⟨hfind, hother _ (hlisted name' (by rw [hfind]; exact Option.some_ne_none _))⟩
  · intro n m hfind
    exact .inr ⟨hfind, rfl, hother _ (hlisted _ (h.indexes n m hfind).2.listed),
      hother _ (Ne.symm (by simp))⟩

/-! ## Dropping an index -/

section Remove

variable {Q : IndexMeta → Database → Prop} {E : Stop TableError → Database → Prop}

theorem wp_removeIndex (hfind : s.indexes.indexes.find name = some m) :
    wp (Database.removeIndex name) Q E s ↔
      Q m { s with indexes := ⟨s.indexes.indexes.erase name⟩ } := by
  unfold Database.removeIndex
  simp only [wp_bind, wp_get, IndexCatalog.remove, hfind]
  exact Iff.rfl

theorem wp_removeIndex_unknown (hfind : s.indexes.indexes.find name = none) :
    wp (Database.removeIndex name) Q E s ↔ E (.error (.index (.indexNotFound name))) s := by
  unfold Database.removeIndex
  simp only [wp_bind, wp_get, IndexCatalog.remove, hfind]
  exact Iff.rfl

end Remove

theorem dropIndex_stops (h : Sound s) (name : String) (k : Nat) (e : IoError) :
    wp (Database.dropIndex name) (fun _ _ => True)
      (fun _ t => t.root.faults = [] → s.indexes.indexes.find name ≠ none ∧
        (k = 0 ∧ t.root.files = s.root.files ∨ k = 1 ∧
          t.root.files = update s.root.files (indexFilePath name) none))
      (s.failing k e) := by
  unfold Database.dropIndex
  rw [wp_bind]
  cases hfind : s.indexes.indexes.find name with
  | none =>
      exact (wp_removeIndex_unknown (s := s.failing k e) hfind).mpr fun hq =>
        absurd hq (Disk.faults_failing _ _ _)
  | some m =>
      obtain ⟨rfl, hi⟩ := h.indexes name m hfind
      obtain ⟨bytes, hf⟩ := hi.exists_file
      refine (wp_removeIndex (s := s.failing k e) hfind).mpr ?_
      simp only [wp_bind, wp_onRoot, deleteIndexFile, wp_mapError]
      show wp (Disk.removeFile (indexFilePath m.name)) _ _ (s.root.failing k e)
      cases k with
      | zero => exact fun _ => ⟨Option.some_ne_none _, .inl ⟨rfl, rfl⟩⟩
      | succ k =>
          rw [Disk.wp_removeFile_passes hf]
          simp only [Database.saveIndexes, wp_bind, wp_get, wp_onRoot,
            IndexCatalog.save, wp_mapError]
          cases k with
          | zero => exact fun _ => ⟨Option.some_ne_none _, .inr ⟨rfl, rfl⟩⟩
          | succ k => exact trivial

/-! ## Creating an index -/

theorem openTable_mayFail (hs : Stored s name schema layout bytes) :
    wp (Database.openTable name)
      (fun table t => (t.catalog = s.catalog ∧ t.indexes = s.indexes ∧
          t.root.files = s.root.files) ∧
        Opens table schema layout bytes)
      (fun _ t => t.root.files = s.root.files) s := by
  obtain ⟨chain, hsaved⟩ := hs.rows.saved
  have hschema : s.catalog.getTableSchema name = .ok schema := getTableSchema_eq_ok.mpr hs.listed
  unfold Database.openTable
  simp only [wp_bind, wp_get, hschema, hs.compiled, wp_check_ok, wp_onRoot, wp_pure]
  refine wp_mono (RecordManager.openFile_mayFail hs.file hsaved) ?_ fun _ _ => id
  rintro file root ⟨hf, hv, hhdr, hh, hread, hdirty⟩
  refine ⟨⟨trivial, trivial, hf⟩, ⟨chain, hh, hs.compiled, ?_, ?_⟩, rfl, rfl, hhdr, hread, hdirty⟩
  · exact (congrArg _ hhdr).trans hs.rows.size
  · show Encoded layout file.header _
    rw [hhdr]
    exact hs.rows.encoded

theorem wp_withTable_mayFail {α : Type} {body : SessionM α} {Q : α → Database → Prop}
    {E : Stop TableError → Database → Prop} (hs : Stored s name schema layout bytes)
    (hbody : ∀ u table, (u.catalog = s.catalog ∧ u.indexes = s.indexes ∧
        u.root.files = s.root.files) →
      Opens table schema layout bytes → wp body (fun a t => Q a (t.leave name))
        (fun e t => E e (t.leave name)) ⟨u, table⟩)
    (hstop : ∀ e t, t.root.files = s.root.files → E e t) :
    wp (Database.withTable name body) Q E s := by
  have hopen := openTable_mayFail hs
  unfold wp at hopen
  unfold wp Database.withTable
  cases ho : Database.openTable name s with
  | error e t =>
      rw [ho] at hopen
      exact hstop e t hopen
  | ok table u =>
      rw [ho] at hopen
      have hw := hbody u table hopen.1 hopen.2
      unfold wp at hw
      cases hb : body ⟨u, table⟩ with
      | ok a t =>
          rw [hb] at hw
          simp only [hb]
          exact hw
      | error e t =>
          rw [hb] at hw
          simp only [hb]
          exact hw

theorem replaceIndexEntries_mayFail : wp (replaceIndexEntries name entries) (fun _ _ => True)
    (fun _ t => t.files = root.files) root := by
  unfold replaceIndexEntries
  rw [wp_bind, wp_mapError]
  refine wp_mono Disk.turn_files (fun _ t ht => ?_) fun _ _ => id
  simp only [wp_bind, wp_get]
  refine wp_lift.mpr ⟨fun loaded _ => ?_, fun _ _ => ht⟩
  unfold writeIndexFile
  rw [wp_mapError]
  exact wp_mono Disk.write_mayFail (fun _ _ _ => trivial) fun _ _ hu => hu.trans ht

/-- A rebuild that fails has changed nothing. -/
theorem rebuildIndex_stops (h : Sound s) (hfind : s.indexes.indexes.find name = some m) :
    wp (Database.rebuildIndex name) (fun _ _ => True)
      (fun _ t => t.root.files = s.root.files) s := by
  obtain ⟨-, hi⟩ := h.indexes name m hfind
  obtain ⟨schema, layout, bytes, hs, hx⟩ := hi.table
  unfold Database.rebuildIndex
  simp only [wp_bind, wp_get, h.find_list hfind]
  refine wp_withTable_mayFail hs (fun u table hu ho => ?_) fun _ _ => id
  simp only [wp_bind, wp_onTable, wp_onDatabase, wp_onRoot]
  have hleave : ∀ {v : Database} {table : DiskTable}, Opens table schema layout bytes →
      v.root.files = s.root.files →
      (Session.leave ⟨v, table⟩ m.table).root.files = s.root.files := by
    intro v table ho hv
    rw [leave_clean ho ((congrFun hv _).trans hs.file)]
    exact hv
  have hread := ho.read (indexEntries_reads m.column) (Q := fun _ => True) (E := True)
    fun chain hok =>
    wp_mono (indexEntries_spec hok (by rw [ho.layout]; exact hx)) (fun _ _ h => ⟨h.1, trivial⟩)
      fun _ _ h => ⟨h.1, trivial⟩
  refine wp_mono hread ?_ fun _ _ h => hleave h.1 hu.2.2
  rintro found table' ⟨ho', -⟩
  exact wp_mono replaceIndexEntries_mayFail (fun _ _ _ => trivial) fun _ root hroot =>
    hleave ho' (hroot.trans hu.2.2)

theorem createIndex_stops (h : Sound s) (name table column : String) (k : Nat) (e : IoError) :
    wp (Database.createIndex name table column) (fun _ _ => True)
      (fun _ t => t.root.faults = [] → ∃ schema layout bytes,
        Indexable s name table column schema layout bytes ∧
        (k = 0 ∧ t.root.files = s.root.files ∨ s.indexes.contains name = false ∧
          (k = 1 ∧ t.root.files = update s.root.files (indexFilePath name)
            (some (utf8 (indexContent (newIndex name table column) []))) ∨
          2 ≤ k ∧ t.root.files = (s.addIndex (newIndex name table column)).root.files)))
      (s.failing k e) := by
  have hfaults : ∀ {P : Prop}, (s.failing k e).root.faults = [] → P :=
    fun hq => absurd hq (Disk.faults_failing _ _ _)
  unfold Database.createIndex
  simp only [wp_bind, wp_get]
  refine wp_check.mpr ⟨fun _ hv => wp_check.mpr ⟨fun schema hfind => ?_, fun _ _ => hfaults⟩,
    fun _ _ => hfaults⟩
  obtain ⟨layout, bytes, hs⟩ := h.tables table schema (getTableSchema_eq_ok.mp hfind)
  refine wp_check.mpr ⟨fun layout' hc =>
    wp_check.mpr ⟨fun c hcol => wp_check.mpr ⟨fun keyType hkey => ?_, fun _ _ => hfaults⟩,
    fun _ _ => hfaults⟩, fun _ _ => hfaults⟩
  obtain rfl : layout' = layout := Except.ok.inj (hc.symm.trans hs.compiled)
  have hint := indexKeyType_eq_ok.mp hkey
  have hi : Indexable s name table column schema layout' bytes := ⟨hv, hs, c, hcol, hint⟩
  obtain rfl : keyType = .int32 := by cases keyType; rfl
  simp only [wp_onRoot, createIndexFile, writeIndexFile, wp_mapError]
  show wp (Disk.write (indexFilePath name) _) _ _ (s.root.failing k e)
  cases k with
  | zero => exact fun _ => ⟨schema, layout', bytes, hi, .inl ⟨rfl, rfl⟩⟩
  | succ k =>
      rw [Disk.wp_write_passes]
      refine wp_check.mpr ⟨fun indexes hins => ?_, fun _ _ hq =>
        absurd hq (Disk.faults_failing _ _ _)⟩
      obtain ⟨hnew, rfl⟩ := insert_eq_ok.mp (mapError_eq_ok.mp hins)
      simp only [wp_modify, Database.saveIndexes, wp_bind, wp_get, wp_onRoot,
        IndexCatalog.save, wp_mapError]
      cases k with
      | zero => exact fun _ => ⟨schema, layout', bytes, hi, .inr ⟨hnew, .inl ⟨rfl, rfl⟩⟩⟩
      | succ k =>
          rw [Disk.wp_write_passes]
          have hrebuild := rebuildIndex_stops ((h.addIndex hi).failing k e)
            (find_addIndex_self (s := s))
          refine wp_mono hrebuild (fun _ _ _ => trivial) fun _ t ht _ => ?_
          exact ⟨schema, layout', bytes, hi, .inr ⟨hnew, .inr ⟨by omega, ht⟩⟩⟩

/-! ## Dropping a table -/

theorem eraseIndexes_none {path : String} (hf : s.root.files path = none) :
    (s.eraseIndexes l).root.files path = none := by
  induction l generalizing s with
  | nil => exact hf
  | cons m l ih =>
      refine ih (s := s.eraseIndex m.name) ?_
      show update s.root.files (indexFilePath m.name) none path = none
      rcases eq_or_ne path (indexFilePath m.name) with rfl | hne
      · exact update_self ..
      · exact (update_of_ne hne _ _).trans hf

/-- The file of the first index is gone. -/
theorem eraseIndexes_head : (s.eraseIndexes (m :: l)).root.files (indexFilePath m.name) = none :=
  eraseIndexes_none (s := s.eraseIndex m.name) (update_self ..)

theorem dropIndexes_stops (k : Nat) (e : IoError) (hn : (l.map IndexMeta.name).Nodup)
    (hfile : ∀ m ∈ l, ∃ bytes, s.root.files (indexFilePath m.name) = some bytes)
    (hfind : ∀ m ∈ l, s.indexes.indexes.find m.name = some m) :
    wp (Database.dropIndexes l)
      (fun _ t => ∃ j, k = l.length + j ∧ t = (s.eraseIndexes l).failing j e)
      (fun _ t => k < l.length ∧ t.root.files = (s.eraseIndexes (l.take k)).root.files)
      (s.failing k e) := by
  induction l generalizing s k with
  | nil => exact ⟨k, (Nat.zero_add k).symm, rfl⟩
  | cons m l ih =>
      obtain ⟨bytes, hf⟩ := hfile m (List.mem_cons_self ..)
      have hmem : m.name ∉ l.map IndexMeta.name ∧ (l.map IndexMeta.name).Nodup :=
        List.nodup_cons.mp hn
      have hne : ∀ m₁ ∈ l, m₁.name ≠ m.name :=
        fun m₁ hm₁ he => hmem.1 (he ▸ List.mem_map_of_mem hm₁)
      unfold Database.dropIndexes
      simp only [wp_bind, wp_onRoot, deleteIndexFile, wp_mapError]
      show wp (Disk.removeFile (indexFilePath m.name)) _ _ (s.root.failing k e)
      cases k with
      | zero => exact ⟨Nat.succ_pos _, rfl⟩
      | succ k =>
          rw [Disk.wp_removeFile_passes hf]
          refine (wp_removeIndex
            (s := { s.failing k e with root := (s.root.put _ none).failing k e })
            (hfind m (List.mem_cons_self ..))).mpr ?_
          have hrest := ih (s := s.eraseIndex m.name) k hmem.2 (fun m₁ hm₁ => ?_) fun m₁ hm₁ => ?_
          · refine wp_mono hrest ?_ ?_
            · rintro _ t ⟨j, rfl, rfl⟩
              exact ⟨j, by rw [List.length_cons]; omega, rfl⟩
            · rintro _ t ⟨hlt, ht⟩
              exact ⟨Nat.succ_lt_succ hlt, ht⟩
          · obtain ⟨bytes₁, hf₁⟩ := hfile m₁ (List.mem_cons_of_mem _ hm₁)
            exact ⟨bytes₁, (update_of_ne (by simpa using hne m₁ hm₁) _ _).trans hf₁⟩
          · show (s.indexes.indexes.erase m.name).find m₁.name = _
            rw [SortedMap.find_erase, update_of_ne (hne m₁ hm₁)]
            exact hfind m₁ (List.mem_cons_of_mem _ hm₁)

/-- The two saves at the end of a drop. -/
theorem callsLeft (j : Nat) : j = 0 ∨ j = 1 ∨ ∃ i, j = i + 2 := by
  rcases Nat.lt_or_ge j 2 with hlt | hge
  · omega
  · exact .inr (.inr ⟨j - 2, by omega⟩)

/-- What a table has lost when its drop stops. -/
inductive DropStops (s : Database) (name : String) : Nat → Disk → Prop
  | atOnce {root : Disk} (same : root.files = s.root.files) : DropStops s name 0 root
  | indexed {root : Disk} {k : Nat} {m : IndexMeta} (mem : m ∈ s.indexes.indexesForTable name)
      (gone : root.files (indexFilePath m.name) = none)
      (listed : root.files indexCatalogPath = s.root.files indexCatalogPath) :
      DropStops s name (k + 1) root
  | unsaved {root : Disk} (plain : s.indexes.indexesForTable name = [])
      (files : root.files = update s.root.files (tablePath name) none) : DropStops s name 1 root
  | saved {root : Disk} (plain : s.indexes.indexesForTable name = [])
      (files : root.files = update (update s.root.files (tablePath name) none) catalogPath
        (some (utf8 (s.catalog.remove name).content))) : DropStops s name 2 root

theorem dropTable_stops (h : Sound s) (name : String) (k : Nat) (e : IoError) :
    wp (Database.dropTable name) (fun _ _ => True)
      (fun _ t => t.root.faults = [] → s.catalog.tables.find name ≠ none ∧
        DropStops s name k t.root) (s.failing k e) := by
  unfold Database.dropTable
  simp only [wp_bind, wp_get, wp_ite, wp_throw]
  split
  next => exact fun hq => absurd hq (Disk.faults_failing _ _ _)
  next hyes =>
      have hyes : s.catalog.contains name = true := by simpa using! hyes
      obtain ⟨schema, hfind⟩ := SortedMap.contains_iff.mp hyes
      obtain ⟨layout, bytes, hs⟩ := h.tables name schema hfind
      have hlisted : s.catalog.tables.find name ≠ none := by rw [hfind]; exact Option.some_ne_none _
      have hl := h.indexesForTable name
      have hdrop := dropIndexes_stops (l := s.indexes.indexesForTable name) k e (h.nodup_names name)
        (fun m hm => (h.indexes m.name m (hl m hm).2).2.exists_file) fun m hm => (hl m hm).2
      show wp (Database.dropIndexes (s.indexes.indexesForTable name)) _ _ _
      cases hcase : s.indexes.indexesForTable name with
      | nil =>
          rw [hcase] at hdrop
          refine wp_mono hdrop ?_ fun _ _ hlt => absurd hlt.1 (Nat.not_lt_zero _)
          rintro _ _ ⟨j, rfl, rfl⟩
          rw [List.length_nil, Nat.zero_add]
          simp only [wp_onRoot, wp_bind, wp_modify, Database.saveCatalog, Database.saveIndexes,
            wp_get, Catalog.save, IndexCatalog.save, wp_mapError]
          show wp (Disk.removeFile (tablePath name)) _ _ (s.root.failing j e)
          cases j with
          | zero => exact fun _ => ⟨hlisted, .atOnce rfl⟩
          | succ j =>
              rw [Disk.wp_removeFile_passes hs.file]
              rcases callsLeft j with rfl | rfl | ⟨j, rfl⟩
              · exact fun _ => ⟨hlisted, .unsaved hcase rfl⟩
              · exact fun _ => ⟨hlisted, .saved hcase rfl⟩
              · exact trivial
      | cons m l =>
          rw [hcase] at hdrop
          have hm : m ∈ s.indexes.indexesForTable name := by rw [hcase]; exact List.mem_cons_self
          refine wp_mono hdrop ?_ ?_
          · rintro _ _ ⟨j, hk, rfl⟩
            obtain ⟨i, rfl⟩ : ∃ i, k = i + 1 := ⟨l.length + j, by rw [hk, List.length_cons]; omega⟩
            have hgone : (s.eraseIndexes (m :: l)).root.files (indexFilePath m.name) = none :=
              eraseIndexes_head
            have hcatalog : (s.eraseIndexes (m :: l)).root.files indexCatalogPath =
                s.root.files indexCatalogPath :=
              eraseIndexes_files fun _ _ => Ne.symm (by simp)
            have hf : (s.eraseIndexes (m :: l)).root.files (tablePath name) = some bytes :=
              (eraseIndexes_files fun _ _ => by simp).trans hs.file
            generalize s.eraseIndexes (m :: l) = u at hgone hcatalog hf
            have hstop : ∀ root : Disk, (∀ path, path ≠ tablePath name → path ≠ catalogPath →
                root.files path = u.root.files path) → DropStops s name (i + 1) root :=
                  fun root hroot =>
              .indexed hm ((hroot _ (Ne.symm (by simp)) (by simp)).trans hgone)
                ((hroot _ (Ne.symm (by simp)) (Ne.symm (by simp))).trans hcatalog)
            simp only [wp_onRoot, wp_bind, wp_modify, Database.saveCatalog, Database.saveIndexes,
              wp_get, Catalog.save, IndexCatalog.save, wp_mapError]
            show wp (Disk.removeFile (tablePath name)) _ _ (u.root.failing j e)
            cases j with
            | zero => exact fun _ => ⟨hlisted, hstop _ fun _ _ _ => rfl⟩
            | succ j =>
                rw [Disk.wp_removeFile_passes hf]
                rcases callsLeft j with rfl | rfl | ⟨j, rfl⟩
                · exact fun _ => ⟨hlisted, hstop _ fun _ hp _ => update_of_ne hp _ _⟩
                · exact fun _ => ⟨hlisted, hstop _ fun _ hp hc => (update_of_ne hc _ _).trans
                    (update_of_ne hp _ _)⟩
                · exact trivial
          · rintro _ t ⟨hlt, ht⟩ _
            refine ⟨hlisted, ?_⟩
            cases k with
            | zero => exact .atOnce ht
            | succ k =>
                rw [List.take_succ_cons] at ht
                refine .indexed hm ?_ ?_
                · rw [ht]
                  exact eraseIndexes_head
                · rw [ht]
                  exact eraseIndexes_files fun _ _ => Ne.symm (by simp)

end Redbase.Database
