import Redbase.Query.Lemmas.Runs
import Redbase.Table.Lemmas.Overflow

/-!
# Runs that fill a table

A table with one slot in a page grows by one page with every insert; every such insert succeeds, and
so do the rebuilds of its indexes.
-/

namespace Redbase.Query

open Prog Bytes Page Record Files Table Index Database Function

variable {s t : Database} {name column index : String} {schema : TableSchema}
  {layout : SchemaLayout} {bytes data : List UInt8} {rows : Nat → List UInt8} {values : List Value}
  {input : InsertInput}

/-- A file of one-slot pages, where page `p` holds the row `rows p`. -/
structure Filled (bytes : List UInt8) (rows : Nat → List UInt8) : Prop where
  one : (fileHeader bytes).slotsPerPage = 1
  row : ∀ p, (fileHeader bytes).HasPage p →
    lookup (fileHeader bytes) (filePages bytes) ⟨p, 0⟩ = some (rows p)

/-- It has no free page. -/
theorem Filled.headersPass (h : Filled bytes rows) (hs : IsSaved bytes) : HeadersPass bytes := by
  have hiff := headersPass_iff hs
  obtain ⟨chain, hs⟩ := hs
  have hused : ∀ p, (fileHeader bytes).HasPage p →
      lookup (fileHeader bytes) (filePages bytes) ⟨p, 0⟩ ≠ none :=
    fun p hp => by rw [h.row p hp]; exact Option.some_ne_none _
  have hempty : chain = [] := by
    refine List.eq_nil_iff_forall_not_mem.mpr fun p hm => ?_
    obtain ⟨hp, hfree⟩ := (hs.wf.mem_iff p).mp hm
    exact hused p hp ((freeCount_one h.one hp).mp hfree)
  subst hempty
  exact hiff.mpr ⟨hs.wf.valid
    fun p hp => by simp at hp, fun p hp => hs.wf.readable_of_used h.one hp (hused p hp)⟩

/-- A served database with such a table. -/
structure Holding (s : Database) (name : String) (schema : TableSchema) (layout : SchemaLayout)
    (bytes : List UInt8) (rows : Nat → List UInt8) : Prop extends Filled bytes rows where
  served : Served s
  stored : Stored s name schema layout bytes

/-- A request that succeeds. -/
theorem Served.step_of_wp {request : Request} (h : Served s) {Q : Database → Prop}
    (hw : wp request.run (fun _ t => Q t) never s) : ∃ t, Served t ∧ Q t := by
  obtain ⟨_, t, hr, hq⟩ := exists_ok_of_wp hw
  exact ⟨t, h.step request hr, hq⟩

namespace Holding

theorem good (h : Holding s name schema layout bytes rows) : Good s := h.served.reachable.good

theorem headersPass (h : Holding s name schema layout bytes rows) : HeadersPass bytes :=
  h.toFilled.headersPass h.stored.rows.saved

/-- The insert into the table, without its indexes. -/
theorem wp_insert (h : Holding s name schema layout bytes rows)
    (he : encodeRow layout values = .ok data) (hn : (fileHeader bytes).numPages + 2 < 2 ^ 32) :
    wp (Database.withTable name (Session.onTable (Table.insert values)))
      (fun _ u => ∃ bytes', Wrote s u name schema layout bytes' ∧
        Filled bytes' (update rows ((fileHeader bytes).numPages + 1) data) ∧
        (fileHeader bytes').numPages = (fileHeader bytes).numPages + 1) never s := by
  refine wp_withTable h.good.faults h.stored (fun table _ ho => ?_) fun _ hvalid =>
    hvalid ((headersPass_iff h.stored.rows.saved).mp h.headersPass).1
  obtain ⟨chain, hok⟩ := ho.ok
  have hrows : Rows table (filePages bytes) chain rows := by
    refine ⟨hok, by rw [ho.header]; exact h.one, ?_⟩
    rw [ho.header]
    exact h.row
  rw [wp_onTable]
  refine wp_mono (hrows.insert (ho.layout ▸ he) (by rw [ho.header]; exact hn)) ?_
    fun _ _ => False.elim
  rintro _ table' ⟨hcount, hlayout, hschema, pages', chain', hrows'⟩
  rw [ho.header] at hcount hrows'
  obtain ⟨bytes', hwrote, hhdr, hpages⟩ := ho.wrote h.stored ⟨hrows'.ok, hschema, hlayout⟩
  refine ⟨bytes', hwrote, ⟨hhdr ▸ hrows'.one, ?_⟩, hhdr ▸ hcount⟩
  rw [hhdr, lookup_congr hpages]
  exact hrows'.row

theorem wp_executeInsert (h : Holding s name schema layout bytes rows)
    (hv : normalizeInsertInput name schema input = .ok values)
    (he : encodeRow layout values = .ok data) (hn : (fileHeader bytes).numPages + 2 < 2 ^ 32) :
    wp (QueryEngine.executeInsert ⟨name, input⟩)
      (fun _ t => ∃ bytes', Stored t name schema layout bytes' ∧
      Filled bytes' (update rows ((fileHeader bytes).numPages + 1) data) ∧
      (fileHeader bytes').numPages = (fileHeader bytes).numPages + 1 ∧
      t.catalog = s.catalog ∧ t.indexes = s.indexes) never s := by
  unfold QueryEngine.executeInsert
  rw [wp_bind]
  refine wp_loadSchema (fun schema' hfind => ?_) fun hnone => by
    rw [h.stored.listed] at hnone
    cases hnone
  obtain rfl := Option.some.inj (h.stored.listed.symm.trans hfind)
  rw [wp_bind, wp_check, hv]
  refine ⟨fun _ hval => ?_, fun e he => by cases he⟩
  cases hval
  simp only [wp_bind, wp_liftDatabase, wp_pure]
  refine wp_mono (h.wp_insert he hn) ?_ fun _ _ => False.elim
  rintro _ u ⟨bytes', hwrote, hfilled, hcount⟩
  have hsound := hwrote.sound h.stored h.good.sound
  refine wp_mono (rebuildIndexesForTable_spec hsound (hwrote.faults.trans h.good.faults)
    hwrote.stored) ?_ ?_
  · rintro _ t ⟨-, hb, -⟩
    refine ⟨bytes', hwrote.stored.congr (by rw [hb.catalog]) (hb.kept _ fun m _ => by simp),
      hfilled, hcount, ?_, ?_⟩
    · rw [hb.catalog, hwrote.catalogs.1]
    · rw [hb.indexes, hwrote.catalogs.2]
  · rintro _ t ⟨-, -, hno⟩
    exact hno (hfilled.headersPass hwrote.stored.rows.saved)

/-- One row more. -/
theorem insert (h : Holding s name schema layout bytes rows)
    (hv : normalizeInsertInput name schema input = .ok values)
    (he : encodeRow layout values = .ok data) (hn : (fileHeader bytes).numPages + 2 < 2 ^ 32) :
    ∃ t bytes', Holding t name schema layout bytes'
      (update rows ((fileHeader bytes).numPages + 1) data) ∧
      (fileHeader bytes').numPages = (fileHeader bytes).numPages + 1 ∧ t.catalog = s.catalog ∧
        t.indexes = s.indexes := by
  have hw : wp (Request.insert ⟨name, input⟩).run (fun _ t => ∃ bytes',
      Stored t name schema layout bytes' ∧
      Filled bytes' (update rows ((fileHeader bytes).numPages + 1) data) ∧
      (fileHeader bytes').numPages = (fileHeader bytes).numPages + 1 ∧
      t.catalog = s.catalog ∧ t.indexes = s.indexes) never s := by
    unfold Request.run
    rw [wp_bind]
    exact h.wp_executeInsert hv he hn
  obtain ⟨t, hserved, bytes', hstored, hfilled, hcount, hcatalogs⟩ := h.served.step_of_wp hw
  exact ⟨t, bytes', ⟨hfilled, hserved, hstored⟩, hcount, hcatalogs⟩

/-- The same row on any number of further pages. -/
theorem fill (h : Holding s name schema layout bytes fun _ => data)
    (hv : normalizeInsertInput name schema input = .ok values)
    (he : encodeRow layout values = .ok data) (n : Nat)
    (hn : (fileHeader bytes).numPages + n + 1 < 2 ^ 32) :
    ∃ t bytes', Holding t name schema layout bytes' (fun _ => data) ∧
      (fileHeader bytes').numPages = (fileHeader bytes).numPages + n ∧ t.indexes = s.indexes := by
  induction n with
  | zero => exact ⟨s, bytes, h, rfl, rfl⟩
  | succ n ih =>
      obtain ⟨t, bytes', ht, hcount, hindexes⟩ := ih (by omega)
      obtain ⟨u, bytes'', hu, hcount', -, hindexes'⟩ := ht.insert hv he (by omega)
      rw [update_eq_self] at hu
      exact ⟨u, bytes'', hu, by omega, hindexes'.trans hindexes⟩

/-- An index more. -/
theorem createIndex (h : Holding s name schema layout bytes rows)
    (hid : validateIdentifier index = .ok ())
    (hx : IndexedColumn layout column)
      (hcol : ∃ c, schema.columns.find? (fun item => item.name = column) = some c ∧
      c.columnType = .int32) (hfree : s.indexes.contains index = false) :
    ∃ t, Holding t name schema layout bytes rows ∧
      t.indexes.indexes.find index = some (newIndex index name column) := by
  have hi : Indexable s index name column schema layout bytes := ⟨hid, h.stored, hx⟩
  obtain ⟨c, hc, hint⟩ := hcol
  have hw : wp (Request.createIndex ⟨index, name, column⟩).run
      (fun _ t => Stored t name schema layout bytes ∧
      t.indexes.indexes.find index = some (newIndex index name column)) never s := by
    unfold Request.run QueryEngine.executeCreateIndex
    rw [wp_bind]
    refine wp_loadSchema (fun schema' hfind => ?_) fun hnone => by
      rw [h.stored.listed] at hnone
      cases hnone
    obtain rfl := Option.some.inj (h.stored.listed.symm.trans hfind)
    simp only [hc, hint, ne_eq, not_true_eq_false, if_false, wp_bind, wp_pure, wp_mapError]
    refine wp_mono (createIndex_writes h.good.sound h.good.faults hi) ?_ ?_
    · rintro _ t ⟨-, -, rfl, rfl⟩
      exact ⟨h.stored.addIndex.putIndex, find_addIndex_self (s := s)⟩
    · rintro _ t (⟨hyes, -⟩ | ⟨-, hno, -⟩)
      · rw [hfree] at hyes
        cases hyes
      · exact hno h.headersPass
  obtain ⟨t, hserved, hstored, hfind⟩ := h.served.step_of_wp hw
  exact ⟨t, ⟨h.toFilled, hserved, hstored⟩, hfind⟩

/-- A table without rows. -/
theorem createTable (hs : Served s) (hc : Creatable s schema layout) {header : RecordFileHeader}
    (hnew : RecordFileHeader.new layout.recordSize = .ok header) (one : header.slotsPerPage = 1)
    (rows : Nat → List UInt8) :
    ∃ t bytes, Holding t schema.name schema layout bytes rows ∧ (fileHeader bytes).numPages = 0 ∧
      t = s.addTable schema bytes := by
  have hw : wp (Request.createTable ⟨schema⟩).run (fun _ t => ∃ bytes,
      EmptyRecords bytes layout.recordSize ∧ t = s.addTable schema bytes) never s := by
    unfold Request.run QueryEngine.executeCreateTable
    rw [wp_liftDatabase]
    refine wp_mono (createTable_spec hs.reachable.good.faults schema) ?_ ?_
    · rintro _ t ⟨layout', bytes, hc', he, rfl⟩
      obtain rfl : layout' = layout := Except.ok.inj (hc'.compiled.symm.trans hc.compiled)
      exact ⟨bytes, he, rfl⟩
    · rintro _ t (⟨hno, -⟩ | ⟨layout', bytes, e, hc', he, -⟩)
      · exact hno ⟨layout, hc⟩
      · obtain rfl : layout' = layout := Except.ok.inj (hc'.compiled.symm.trans hc.compiled)
        rw [hnew] at he
        cases he
  obtain ⟨t, hserved, bytes, he, rfl⟩ := hs.step_of_wp hw
  obtain ⟨h, pages, hsaved, hsize, hn⟩ := he
  have hstored := hc.stored ⟨h, pages, hsaved, hsize, hn⟩
  have hhdr := fileHeader_eq hsaved
  have hslots : h.slotsPerPage = 1 := by
    have hfits : computeSlotsPerPage h.recordSize = .ok h.slotsPerPage := hsaved.wf.fits
    have hfits' : computeSlotsPerPage header.recordSize = .ok header.slotsPerPage :=
      (RecordFileHeader.new_eq_ok hnew).1
    rw [hsize, ← (RecordFileHeader.new_eq_ok hnew).2.1, hfits', one] at hfits
    exact (Except.ok.inj hfits).symm
  refine ⟨_, bytes, ⟨⟨hhdr ▸ hslots, fun p hp => ?_⟩, hserved, hstored⟩, hhdr ▸ hn, rfl⟩
  unfold RecordFileHeader.HasPage at hp
  rw [hhdr, hn] at hp
  omega

end Holding

end Redbase.Query
