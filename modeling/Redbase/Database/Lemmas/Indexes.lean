import Redbase.Database.Invariant
import Redbase.Index.Lemmas.File

/-!
# The files of the indexes

A rebuild writes the rows of the table into the file of an index, or finds a page of the table that
it cannot read and leaves everything as it was. Whether it succeeds depends on the file of the table
alone.
-/

namespace Redbase.Database

open Prog Bytes Text Page Record Files Table Index Function

set_option linter.dupNamespace false

variable {s t u : Database} {name : String} {schema : TableSchema} {layout : SchemaLayout}
  {bytes : List UInt8} {m m' : IndexMeta} {entries entries' : List IndexEntry} {root : Disk}
  {l : List IndexMeta}

/-! ## One file -/

theorem IndexFile.load (h : IndexFile root name m entries) :
    loadIndexFile root name = .ok (m, sortEntries entries) :=
  loadIndexFile_content h.storable h.fits h.file

/-- The file says which column it is about. -/
theorem IndexFile.unique (h : IndexFile root name m entries)
    (h' : IndexFile root name m' entries') : m' = m :=
  (Prod.mk.inj (Except.ok.inj (h'.load.symm.trans h.load))).1

/-- The database with `entries` in the file of an index. -/
def Database.putIndex (s : Database) (m : IndexMeta) (entries : List IndexEntry) : Database :=
  s.putFile (indexFilePath m.name) (some (utf8 (indexContent m entries)))

theorem IndexFile.put (hm : m.Storable) (hfits : ∀ entry ∈ entries, entry.Fits) :
    IndexFile (s.putIndex m entries).root m.name m entries := ⟨rfl, hm, hfits, update_self ..⟩

theorem Stored.putIndex (h : Stored s name schema layout bytes) :
    Stored (s.putIndex m entries) name schema layout bytes := h.putFile (by simp)

/-- Writing the file of an index, be it in the catalog or not. -/
theorem Sound.putIndex (h : Sound s) (hm : m.Storable) (hfits : ∀ entry ∈ entries, entry.Fits) :
    Sound (s.putIndex m entries) := by
  refine ⟨fun name schema hfind => ?_, fun name m₁ hfind => ?_,
    h.catalogFile.putFile (Ne.symm (by simp)), h.indexCatalogFile.putFile (Ne.symm (by simp))⟩
  · obtain ⟨layout, bytes, hs⟩ := h.tables name schema hfind
    exact ⟨layout, bytes, hs.putIndex⟩
  · obtain ⟨hname, hi⟩ := h.indexes name m₁ hfind
    obtain ⟨schema, layout, bytes, hs, hx⟩ := hi.table
    refine ⟨hname, hi.identifier, ⟨schema, layout, bytes, hs.putIndex, hx⟩, ?_⟩
    by_cases hsame : m₁.name = m.name
    · rw [hsame]
      exact ⟨m, entries, IndexFile.put hm hfits⟩
    · obtain ⟨m', old, hf⟩ := hi.file
      exact ⟨m', old, hf.putFile (by simpa using hsame)⟩

theorem replaceIndexEntries_spec (hq : root.faults = []) (hf : IndexFile root name m entries') :
    wp (replaceIndexEntries name entries)
      (fun _ t => t = root.put (indexFilePath m.name) (some (utf8 (indexContent m entries))))
        never root := by
  unfold replaceIndexEntries
  simp only [wp_bind, wp_mapError, Disk.wp_turn hq, wp_get, hf.load, wp_lift_ok,
    wp_writeIndexFile hq]

/-! ## The entries of a table -/

theorem fileHeader_numPages_lt (bytes : List UInt8) : (fileHeader bytes).numPages < 2 ^ 32 := by
  unfold fileHeader RecordFileHeader.read
  refine (leNat_lt _).trans_le ?_
  have hle : (slice ((filePages bytes headerPageId).read 0 recordFileHeaderSize) 12 4).length ≤ 4 :=
    (length_slice ..).trans_le (Nat.min_le_left ..)
  calc 256 ^ _ ≤ 256 ^ 4 := Nat.pow_le_pow_right (by decide) hle
    _ = 2 ^ 32 := by decide

theorem entriesOf_fits (hr : RowsIn bytes layout) {column : String} :
    ∀ entry ∈ entriesOf schema layout column bytes, entry.Fits := by
  intro entry he
  obtain ⟨r, hr', rfl⟩ := List.mem_map.mp he
  obtain ⟨chain, hsaved⟩ := hr.saved
  obtain ⟨hl, -⟩ := mem_matching.mp hr'
  have hrid : (fileHeader bytes).HasPage r.rid.pageId ∧
      r.rid.slotId < (fileHeader bytes).slotsPerPage := by
    unfold Record.lookup at hl
    split at hl
    next hc => exact ⟨hc.1, hc.2.1⟩
    next => cases hl
  have hslots := hsaved.wf.fits.slots_le
  have hpages := fileHeader_numPages_lt bytes
  refine ⟨hrid.1.2.trans_lt hpages, hrid.2.trans_le (hslots.trans ?_)⟩
  decide

/-- The index of that name. -/
theorem Sound.find_list (h : Sound s) (hfind : s.indexes.indexes.find name = some m) :
    s.indexes.list.find? (fun m => m.name = name) = some m := by
  have hmem : m ∈ s.indexes.list := SortedMap.mem_values.mpr ⟨name, hfind⟩
  cases hl : s.indexes.list.find? fun m => m.name = name with
  | none =>
      refine absurd (h.indexes name m hfind).1 ?_
      simpa using List.find?_eq_none.mp hl m hmem
  | some m' =>
      obtain ⟨key, hkey⟩ := SortedMap.mem_values.mp (List.mem_of_find?_eq_some hl)
      have hname : m'.name = name := by simpa using List.find?_some hl
      obtain rfl : key = name := (h.indexes key m' hkey).1.symm.trans hname
      rw [hfind] at hkey
      exact hkey.symm

/-! ## Rebuilding -/

/-- An index is built again if the pages of its table can be read. -/
theorem rebuildIndex_spec (h : Sound s) (hq : s.root.faults = [])
    (hfind : s.indexes.indexes.find name = some m) (hs : Stored s m.table schema layout bytes) :
    wp (Database.rebuildIndex name)
      (fun _ t => HeadersPass bytes ∧ ∃ m' old, IndexFile s.root m.name m' old ∧
        t = s.putIndex m' (entriesOf schema layout m.column bytes))
      (fun _ t => t = s ∧ ¬ HeadersPass bytes) s := by
  obtain ⟨-, hi⟩ := h.indexes name m hfind
  obtain ⟨schema', layout', bytes', hs', hx⟩ := hi.table
  obtain ⟨rfl, rfl, rfl⟩ := hs'.unique hs
  obtain ⟨m', old, hf⟩ := hi.file
  have hpass := headersPass_iff hs.rows.saved
  unfold Database.rebuildIndex
  simp only [wp_bind, wp_get, h.find_list hfind]
  refine wp_withTable hq hs (fun table hv hopens => ?_) fun _ hv =>
    ⟨rfl, fun hp => hv (hpass.mp hp).1⟩
  simp only [wp_bind, wp_onTable, wp_onDatabase, wp_onRoot]
  have hread := hopens.read (indexEntries_reads m.column)
    (Q := fun entries => AllReadable (fileHeader bytes) (filePages bytes) ∧
    entries = entriesOf schema layout m.column bytes) (E :=
      ¬ AllReadable (fileHeader bytes) (filePages bytes)) ?_
  · refine wp_mono hread ?_ ?_
    · rintro entries table' ⟨hopens', hr, rfl⟩
      refine wp_mono (replaceIndexEntries_spec hq hf) ?_ fun _ _ => False.elim
      rintro _ _ rfl
      refine ⟨hpass.mpr ⟨hv, hr⟩, m', old, hf, ?_⟩
      have hname : indexFilePath m'.name ≠ tablePath m.table := Ne.symm (by simp)
      exact leave_clean (s := s.putIndex m' _) hopens' ((update_of_ne hname.symm _ _).trans hs.file)
    · rintro e table' ⟨hopens', hr⟩
      exact ⟨leave_clean hopens' hs.file, fun hp => hr (hpass.mp hp).2⟩
  · intro chain hok
    refine wp_mono (indexEntries_spec hok (by rw [hopens.layout]; exact hx)) ?_ ?_
    · rintro entries table' ⟨hu, hr, rfl⟩
      refine ⟨hu, hopens.header ▸ hr, ?_⟩
      rw [selected, hopens.header, hopens.schema, hopens.layout]
      rfl
    · rintro _ table' ⟨hu, hr⟩
      exact ⟨hu, hopens.header ▸ hr⟩

/-- The files of some indexes of a table were written again, from the rows in `bytes`. -/
structure Rebuilt (s t : Database) (schema : TableSchema) (layout : SchemaLayout)
    (bytes : List UInt8) (l : List IndexMeta) : Prop where
  catalog : t.catalog = s.catalog
  indexes : t.indexes = s.indexes
  faults : t.root.faults = s.root.faults
  kept : ∀ path, (∀ m ∈ l, path ≠ indexFilePath m.name) → t.root.files path = s.root.files path
  written : ∀ m ∈ l, ∀ m' old, IndexFile s.root m.name m' old →
    t.root.files (indexFilePath m.name) =
      some (utf8 (indexContent m' (entriesOf schema layout m.column bytes)))

/-- One index, and then the others. -/
theorem Rebuilt.cons {m : IndexMeta} {old : List IndexEntry} (hf : IndexFile s.root m.name m' old)
    (hr : RowsIn bytes layout) (hsame : ∀ m₁ ∈ l, m₁.name = m.name → m₁ = m)
    (h : Rebuilt (s.putIndex m' (entriesOf schema layout m.column bytes)) t schema layout bytes l) :
    Rebuilt s t schema layout bytes (m :: l) := by
  have hname : indexFilePath m'.name = indexFilePath m.name := congrArg indexFilePath hf.named
  have hput : IndexFile (s.putIndex m' (entriesOf schema layout m.column bytes)).root
      m'.name m' _ :=
    IndexFile.put hf.storable (entriesOf_fits hr)
  have hhead : t.root.files (indexFilePath m.name) =
      some (utf8 (indexContent m' (entriesOf schema layout m.column bytes))) := by
    by_cases hin : ∃ m₁ ∈ l, m₁.name = m.name
    · obtain ⟨m₁, hm₁, hn⟩ := hin
      obtain rfl := hsame m₁ hm₁ hn
      exact h.written m₁ hm₁ m' _ (hf.named ▸ hput)
    · rw [h.kept _ fun m₁ hm₁ he => hin ⟨m₁, hm₁, (indexFilePath_inj.mp he).symm⟩, ← hname]
      exact hput.file
  refine ⟨h.catalog, h.indexes, h.faults, fun path hp => ?_, fun m₁ hm₁ m₂ old₂ hf₂ => ?_⟩
  · rw [h.kept path fun m₁ hm₁ => hp m₁ (List.mem_cons_of_mem _ hm₁)]
    exact update_of_ne (hname ▸ hp m (List.mem_cons_self ..)) _ _
  · by_cases hn : m₁.name = m.name
    · obtain rfl : m₁ = m := (List.mem_cons.mp hm₁).elim id fun hm₁ => hsame m₁ hm₁ hn
      rw [hf.unique hf₂]
      exact hhead
    · have hm₁ : m₁ ∈ l := (List.mem_cons.mp hm₁).resolve_left fun he => hn (congrArg _ he)
      exact h.written m₁ hm₁ m₂ old₂ (hf₂.putFile (by rw [hname]; simpa using hn))

/-- Indexes of the table `name`. -/
def IndexesOf (s : Database) (name : String) (l : List IndexMeta) : Prop :=
  ∀ m ∈ l, m.table = name ∧ s.indexes.indexes.find m.name = some m

theorem IndexesOf.same (h : IndexesOf s name (m :: l)) : ∀ m₁ ∈ l, m₁.name = m.name → m₁ = m := by
  intro m₁ hm₁ hn
  have hfind := (h m₁ (List.mem_cons_of_mem _ hm₁)).2
  rw [hn, (h m (List.mem_cons_self ..)).2] at hfind
  exact (Option.some.inj hfind).symm

theorem Sound.indexesForTable (h : Sound s) (name : String) :
    IndexesOf s name (s.indexes.indexesForTable name) := by
  intro m hm
  obtain ⟨hm, ht⟩ := List.mem_filter.mp hm
  obtain ⟨key, hkey⟩ := SortedMap.mem_values.mp hm
  obtain rfl := (h.indexes key m hkey).1
  exact ⟨by simpa using ht, hkey⟩

/-- All indexes of a list are built again, or none is. -/
theorem rebuildIndexes_spec (h : Sound s) (hq : s.root.faults = []) (hl : IndexesOf s name l)
    (hs : Stored s name schema layout bytes) :
    wp (Database.rebuildIndexes l)
      (fun _ t => (l = [] ∨ HeadersPass bytes) ∧ Rebuilt s t schema layout bytes l ∧ Sound t)
      (fun _ t => t = s ∧ l ≠ [] ∧ ¬ HeadersPass bytes) s := by
  induction l generalizing s with
  | nil =>
      exact ⟨.inl rfl, ⟨rfl, rfl, rfl, fun _ _ => rfl, fun m hm => by simp at hm⟩, h⟩
  | cons m l ih =>
      obtain ⟨rfl, hfind⟩ := hl m (List.mem_cons_self ..)
      unfold Database.rebuildIndexes
      rw [wp_bind]
      refine wp_mono (rebuildIndex_spec h hq hfind hs) ?_ ?_
      · rintro _ _ ⟨hp, m', old, hf, rfl⟩
        have hl' : IndexesOf (s.putIndex m' (entriesOf schema layout m.column bytes)) m.table l :=
          fun m₁ hm₁ => hl m₁ (List.mem_cons_of_mem _ hm₁)
        have hsound : Sound (s.putIndex m' (entriesOf schema layout m.column bytes)) :=
          h.putIndex hf.storable (entriesOf_fits hs.rows)
        refine wp_mono (ih hsound hq hl' hs.putIndex) ?_ ?_
        · rintro _ t ⟨-, hb, ht⟩
          exact ⟨.inr hp, hb.cons hf hs.rows hl.same, ht⟩
        · rintro _ t ⟨-, -, hn⟩
          exact absurd hp hn
      · rintro _ _ ⟨rfl, hn⟩
        exact ⟨rfl, List.cons_ne_nil _ _, hn⟩

theorem rebuildIndexesForTable_spec (h : Sound s) (hq : s.root.faults = [])
    (hs : Stored s name schema layout bytes) :
    wp (Database.rebuildIndexesForTable name)
      (fun _ t => (s.indexes.indexesForTable name = [] ∨ HeadersPass bytes) ∧
        Rebuilt s t schema layout bytes (s.indexes.indexesForTable name) ∧ Sound t)
      (fun _ t => t = s ∧ s.indexes.indexesForTable name ≠ [] ∧ ¬ HeadersPass bytes) s :=
  rebuildIndexes_spec h hq (h.indexesForTable name) hs

end Redbase.Database
