import Redbase.Query.Refinement
import Redbase.Table.Lemmas.Acceptance

/-!
# Writes that are rejected

When a rejected `execute_insert`, `execute_update` or `execute_delete` leaves the rows of the tables
and the entries of the indexes as they were. The rows are written before the indexes are built anew,
and that reads the header of every page; one whose link does not fit is refused.
-/

namespace Redbase.Query

open Prog Bytes Page Record Files Table Index Database QueryEngine

variable {s t : Database} {name : String} {schema : TableSchema} {layout : SchemaLayout}
  {bytes bytes' : List UInt8} {values : List Value} {α : Type}

/-- The rows of every table and the file of every index are what they were. -/
structure SameContents (s t : Database) : Prop where
  catalog : t.catalog = s.catalog
  indexes : t.indexes = s.indexes
  rows : ∀ name, (t.root.files (tablePath name)).map liveRecords =
    (s.root.files (tablePath name)).map liveRecords
  entries : ∀ name, t.root.files (indexFilePath name) = s.root.files (indexFilePath name)

inductive Write where
  | insert (request : ExtendedInsertRequest)
  | update (request : UpdateRequest)
  | delete (request : DeleteRequest)

def Write.request : Write → Request
  | .insert request => .insert request
  | .update request => .update request
  | .delete request => .delete request

/-- The links that the request leaves fit: before it, every page with a free slot has an id below
`2^31`, and so has the page that an insert adds, unless its only slot is taken, and the page of
every row that a delete removes. -/
def Write.Fits (s : Database) : Write → Prop
  | .insert request => ∀ bytes, s.root.files (tablePath request.table) = some bytes →
      s.indexes.indexesForTable request.table = [] ∨ LinksHold (fileHeader bytes)
        (filePages bytes) ∧
        ((∃ rid, FreeSlot (fileHeader bytes) (filePages bytes) rid) ∨
          (fileHeader bytes).slotsPerPage = 1 ∨ (fileHeader bytes).numPages + 1 < 2 ^ 31)
  | .update _ => True
  | .delete request => ∀ schema layout bytes, Stored s request.table schema layout bytes →
      LinksHold (fileHeader bytes) (filePages bytes) ∧
        ∀ rid data, liveRecords bytes rid = some data →
          wanted schema layout request.filter data = true →
          rid.pageId < 2 ^ 31

theorem SameContents.refl (s : Database) : SameContents s s :=
  ⟨rfl, rfl, fun _ => rfl, fun _ => rfl⟩

theorem SameTable.sameContents (h : SameTable s t name schema layout bytes)
    (hs : Stored s name schema layout bytes) :
    SameContents s t := by
  obtain ⟨bytes', hw, hsame⟩ := h
  refine ⟨hw.catalogs.1, hw.catalogs.2, fun name' => ?_, fun _ => hw.files (Ne.symm (by simp))⟩
  rcases eq_or_ne name' name with rfl | hne
  · rw [hw.stored.file, hs.file, Option.map_some, Option.map_some, hsame.liveRecords_eq]
  · rw [hw.files (by simpa using hne)]

theorem headersPass_of_links (hs : IsSaved bytes)
    (hl : LinksHold (fileHeader bytes) (filePages bytes)) : HeadersPass bytes := by
  have hiff := headersPass_iff hs
  obtain ⟨chain, hs⟩ := hs
  have hsmall := hl.small hs.wf
  exact hiff.mpr ⟨hs.wf.valid hsmall, fun p hp => hs.wf.readable hsmall hp⟩

section Writes

variable {m : TableM DiskPageIo defaultBufferCapacity α}

/-- A method of the table that writes nothing where it fails, and leaves links that fit. -/
theorem withTable_links (h : Good s) (hs : Stored s name schema layout bytes)
    (hm : ∀ table chain, (fileHeader bytes).Valid → Opens table schema layout bytes →
      TableOk table (filePages bytes) chain →
      wp m (fun _ t => ∃ pages' chain', Continues table t pages' chain' ∧
          (s.indexes.indexesForTable name = [] ∨ t.file.header.Valid ∧
            AllReadable t.file.header pages'))
        (fun _ t => Unchanged table t (filePages bytes) chain) table) :
    wp (Database.withTable name (Session.onTable m))
      (fun _ t => ∃ bytes', Wrote s t name schema layout bytes' ∧
        (s.indexes.indexesForTable name = [] ∨ HeadersPass bytes'))
      (fun _ t => SameTable s t name schema layout bytes) s := by
  refine wp_withTable h.faults hs (fun table hvalid ho => ?_) fun _ _ =>
    ⟨bytes, Wrote.same hs, .refl bytes⟩
  obtain ⟨chain, hok⟩ := ho.ok
  rw [wp_onTable]
  refine wp_mono (hm table chain hvalid ho hok) ?_ ?_
  · rintro _ t ⟨pages', chain', hc, hlinks⟩
    obtain ⟨bytes', hw, hhdr, hpages⟩ := ho.wrote hs hc
    refine ⟨bytes', hw, hlinks.imp_right fun ⟨hv, hr⟩ =>
      (headersPass_iff hw.stored.rows.saved).mpr ?_⟩
    rw [hhdr]
    refine ⟨hv, fun p hp => ?_⟩
    rw [hpages p hp]
    exact hr p hp
  · intro _ t hu
    exact ho.wrote_same hs hok hu

/-- The rows are written, and then the indexes can be built anew. -/
theorem write_sameContents (h : Good s) (hs : Stored s name schema layout bytes)
    (hm : wp (Database.withTable name (Session.onTable m))
      (fun _ t => ∃ bytes', Wrote s t name schema layout bytes' ∧
        (s.indexes.indexesForTable name = [] ∨ HeadersPass bytes'))
      (fun _ t => SameTable s t name schema layout bytes) s) :
    wp (do
      let a ← QueryEngine.liftDatabase (Database.withTable name (Session.onTable m))
      QueryEngine.liftDatabase (Database.rebuildIndexesForTable name)
      return a) (fun _ _ => True) (fun _ t => SameContents s t) s := by
  simp only [wp_bind, wp_liftDatabase, wp_pure]
  refine wp_mono hm ?_ fun _ _ hsame => hsame.sameContents hs
  rintro a u ⟨bytes', hw, hpass⟩
  refine wp_mono (rebuildIndexesForTable_spec (hw.sound hs h.sound)
      (hw.faults.trans h.faults) hw.stored)
    (fun _ _ _ => trivial) ?_
  rintro _ t ⟨-, hsome, hno⟩
  rw [hw.catalogs.2] at hsome
  exact absurd (hpass.resolve_left hsome) hno

end Writes

theorem insert_sameContents (h : Good s) {request : ExtendedInsertRequest}
    (hf : Write.Fits s (.insert request)) :
    wp (QueryEngine.executeInsert request) (fun _ _ => True) (fun _ t => SameContents s t) s := by
  unfold QueryEngine.executeInsert
  rw [wp_bind]
  refine wp_loadSchema (fun schema hfind => ?_) fun _ => .refl s
  obtain ⟨layout, bytes, hs⟩ := h.sound.tables request.table schema hfind
  rw [wp_bind]
  refine wp_check.mpr ⟨fun values _ => ?_, fun _ _ => .refl s⟩
  refine write_sameContents h hs (m := Table.insert values)
    (withTable_links h hs fun table chain _ ho hok => ?_)
  rcases hf bytes hs.file with hnone | ⟨hl, hroom⟩
  · refine wp_mono (Table.insert_spec hok values) ?_ fun _ _ => id
    rintro _ t ⟨pages', chain', -, hc, -⟩
    exact ⟨pages', chain', hc, .inl hnone⟩
  · rw [← ho.header] at hl hroom
    refine wp_mono (insert_linksHold hok hl hroom values) ?_ fun _ _ => id
    rintro _ t ⟨pages', chain', hc, hl'⟩
    have hsmall := hl'.small hc.ok.holds.wf
    exact ⟨pages', chain', hc,
      .inr ⟨hc.ok.holds.wf.valid hsmall, fun p hp => hc.ok.holds.wf.readable hsmall hp⟩⟩

/-- Where an update reads every row, it can be read again. -/
theorem update_sameContents (h : Good s) (request : UpdateRequest) :
    wp (QueryEngine.executeUpdate request) (fun _ _ => True) (fun _ t => SameContents s t) s := by
  unfold QueryEngine.executeUpdate
  rw [wp_bind]
  refine wp_loadSchema (fun schema hfind => ?_) fun _ => .refl s
  obtain ⟨layout, bytes, hs⟩ := h.sound.tables request.table schema hfind
  rw [wp_bind]
  refine wp_check.mpr ⟨fun plan _ => ?_, fun _ _ => .refl s⟩
  refine write_sameContents h hs (m := Table.updateWhere _ _)
    (withTable_links h hs fun table chain hvalid ho hok => ?_)
  refine wp_mono (updateWhere_exact hok _ _) ?_ fun _ _ hu => hu.1
  rintro _ t ⟨-, -, -, pages', hu⟩
  refine ⟨pages', chain, hu.continues, .inr ⟨?_, hu.readable⟩⟩
  rw [hu.header, ho.header]
  exact hvalid

theorem delete_sameContents (h : Good s) {request : DeleteRequest}
    (hf : Write.Fits s (.delete request)) :
    wp (QueryEngine.executeDelete request) (fun _ _ => True) (fun _ t => SameContents s t) s := by
  unfold QueryEngine.executeDelete
  rw [wp_bind]
  refine wp_loadSchema (fun schema hfind => ?_) fun _ => .refl s
  obtain ⟨layout, bytes, hs⟩ := h.sound.tables request.table schema hfind
  rw [wp_bind]
  refine wp_check.mpr ⟨fun _ _ => ?_, fun _ _ => .refl s⟩
  obtain ⟨hl, hsmall⟩ := hf schema layout bytes hs
  refine write_sameContents h hs (m := Table.deleteWhere _)
    (withTable_links h hs fun table chain _ ho hok => ?_)
  rw [← ho.header] at hl
  refine wp_mono (deleteWhere_linksHold hok hl fun rid data hlook hwant => ?_) ?_ fun _ _ => id
  · rw [ho.header] at hlook
    rw [ho.schema, ho.layout] at hwant
    exact hsmall rid data hlook hwant
  · rintro _ t ⟨pages', chain', hc, hl'⟩
    have hsmall := hl'.small hc.ok.holds.wf
    exact ⟨pages', chain', hc,
      .inr ⟨hc.ok.holds.wf.valid hsmall, fun p hp => hc.ok.holds.wf.readable hsmall hp⟩⟩

/-- A write that fails in a reachable database leaves its contents, where the links that it leaves
fit. -/
theorem write_rejected (h : Reachable s) (write : Write) (hf : write.Fits s) {e : Stop QueryError}
    (hr : write.request.run s = .error e t) : SameContents s t := by
  have hw : wp write.request.run (fun _ _ => True) (fun _ t => SameContents s t) s := by
    cases write with
    | insert request =>
        unfold Write.request Request.run
        rw [wp_bind]
        exact wp_mono (insert_sameContents h.good hf) (fun _ _ _ => trivial) fun _ _ => id
    | update request =>
        unfold Write.request Request.run
        rw [wp_bind]
        exact wp_mono (update_sameContents h.good request) (fun _ _ _ => trivial) fun _ _ => id
    | delete request =>
        unfold Write.request Request.run
        rw [wp_bind]
        exact wp_mono (delete_sameContents h.good hf) (fun _ _ _ => trivial) fun _ _ => id
  exact (wp_error hr hw :)

/-- The update of a column of 4000 bytes. -/
def assignText (text : String) : UpdateRequest := ⟨"t", [⟨"b", .char text⟩], none⟩

theorem resolveUpdatePlan_assignText (text : String) :
    ∃ plan, resolveUpdatePlan "t" pagedSchema (assignText text) = .ok plan := ⟨_, rfl⟩

theorem not_fitting_assignText {text : String} (hlong : 4000 < (Text.utf8 text).length) :
    ¬ Fitting pagedLayout (pairs (assignText text).assignments) := by
  intro hfit
  have haccepts : (Text.utf8 text).length ≤ 4000 :=
    hfit.accepts ⟨"b", .char 4000, 4⟩ (by simp [pagedLayout]) _ rfl
  exact absurd hlong (Nat.not_lt.mpr haccepts)

theorem exists_longText : ∃ text, 4000 < (Text.utf8 text).length := by
  refine ⟨String.ofList (List.replicate 4001 'x'), ?_⟩
  rw [Text.utf8_ofList, List.length_flatMap, List.map_replicate, List.sum_replicate]
  decide

/-- A value that is too long for its column is found after the rows are read. -/
theorem write_rejected_tooLong :
    ∃ s t e bytes data text, Stored s "t" pagedSchema pagedLayout bytes ∧
      liveRecords bytes ⟨1, 0⟩ = some data ∧
      (∃ plan, resolveUpdatePlan "t" pagedSchema (assignText text) = .ok plan) ∧
      (Write.update (assignText text)).request.run s = .error e t ∧ SameContents s t ∧
      s.indexes.indexes.find "i" = some (newIndex "i" "t" "a") := by
  obtain ⟨text, hlong⟩ := exists_longText
  obtain ⟨s, bytes, data, hs, hcount, hfind, -⟩ := exists_indexed_row
  have hlive : liveRecords bytes ⟨1, 0⟩ = some data := hs.row 1 ⟨le_rfl, hcount.ge⟩
  have hw : wp (Write.update (assignText text)).request.run (fun _ _ => False)
      (fun _ _ => True) s := by
    unfold Write.request Request.run QueryEngine.executeUpdate
    simp only [wp_bind]
    refine wp_loadSchema (fun schema hlisted => ?_) fun _ => trivial
    obtain rfl := Option.some.inj (hs.stored.listed.symm.trans hlisted)
    refine wp_check.mpr ⟨fun plan hp => ?_, fun _ _ => trivial⟩
    rw [(resolveUpdatePlan_eq_ok hp).2, wp_liftDatabase]
    refine wp_withTable hs.good.faults hs.stored (fun table _ ho => ?_) fun _ _ => trivial
    obtain ⟨chain, hok⟩ := ho.ok
    rw [wp_onTable]
    have hr : AllReadable table.file.header (filePages bytes) := by
      rw [ho.header]
      exact ((headersPass_iff hs.stored.rows.saved).mp hs.headersPass).2
    have hfirst : (⟨⟨1, 0⟩, data⟩ : Record) ∈ selected table (filePages bytes) none := by
      rw [selected, mem_matching, ho.header]
      exact ⟨hlive, rfl⟩
    refine wp_mono (updateWhere_returnsIff hok hr none _) (fun _ _ hfits => ?_) fun _ _ _ => trivial
    have hfit := hfits.2 (List.ne_nil_of_mem hfirst)
    rw [ho.layout] at hfit
    exact absurd hfit (not_fitting_assignText hlong)
  obtain ⟨e, t, hr, -⟩ := exists_error_of_wp hw
  exact ⟨s, t, e, bytes, data, text, hs.stored, hlive, resolveUpdatePlan_assignText text, hr,
    write_rejected hs.served.reachable (.update (assignText text)) trivial hr, hfind⟩

/-! ## A delete that is half done -/

/-- Freeing a page with a large id is what no index can be built after. -/
theorem Holding.delete_all {rows : Nat → List UInt8} (h : Holding s name schema layout bytes rows)
    (hindexed : s.indexes.indexesForTable name ≠ []) (hlarge : 2 ^ 31 ≤ (fileHeader bytes).numPages)
    (hn : (fileHeader bytes).numPages + 2 < 2 ^ 32) :
    wp (QueryEngine.executeDelete ⟨name, none⟩) (fun _ _ => False)
      (fun _ t => ∃ bytes', t.root.files (tablePath name) = some bytes' ∧ ∀ rid,
        liveRecords bytes' rid = none) s := by
  unfold QueryEngine.executeDelete
  rw [wp_bind]
  refine wp_loadSchema (fun schema' hfind => ?_) fun hnone => by
    rw [h.stored.listed] at hnone
    cases hnone
  obtain rfl := Option.some.inj (h.stored.listed.symm.trans hfind)
  rw [wp_bind]
  refine wp_check.mpr ⟨fun _ _ => ?_, fun e he => by cases he⟩
  simp only [wp_bind, wp_liftDatabase, wp_pure]
  have hpass := (headersPass_iff h.stored.rows.saved).mp h.headersPass
  have hw : wp (Database.withTable name (Session.onTable (Table.deleteWhere none)))
      (fun _ u => ∃ bytes', Wrote s u name schema layout bytes' ∧
        (∀ rid, liveRecords bytes' rid = none) ∧ ¬ HeadersPass bytes') never s := by
    refine wp_withTable h.good.faults h.stored (fun table _ ho => ?_) fun _ hvalid => hvalid hpass.1
    obtain ⟨chain, hok⟩ := ho.ok
    rw [wp_onTable]
    refine wp_mono (deleteWhere_exact hok none (isFull_eq hok)) ?_ ?_
    · rintro n t ⟨-, -, -, -, pages', chain', hr⟩
      obtain ⟨bytes', hwrote, hhdr, hpages⟩ := ho.wrote h.stored hr.continues
      have hnone : ∀ rid, liveRecords bytes' rid = none := by
        intro rid
        rw [liveRecords_eq hhdr hpages, hr.entry, Option.filter_eq_none_iff]
        simp [wanted]
      refine ⟨bytes', hwrote, hnone, fun hpass' => ?_⟩
      obtain ⟨hvalid, hread⟩ := (headersPass_iff hwrote.stored.rows.saved).mp hpass'
      obtain ⟨saved, hsaved⟩ := hwrote.stored.rows.saved
      have hcount : (fileHeader bytes').numPages = (fileHeader bytes).numPages := by
        rw [hhdr, hr.numPages, ho.header]
      have hfree : FreeSlot (fileHeader bytes') (filePages bytes') ⟨2 ^ 31, 0⟩ := by
        refine ⟨⟨by decide, hcount ▸ hlarge⟩, ?_, hnone _⟩
        rw [hhdr, hr.continues.slots_eq hok, ho.header, h.one]
        exact Nat.one_pos
      obtain ⟨q, hq, hu⟩ := hsaved.wf.refused (hsaved.wf.mem_chain hfree) le_rfl
        (hcount ▸ hn) hvalid
      exact hu (hread q hq)
    · rintro _ t (⟨-, ⟨_, he, -⟩ | ⟨p, hp, hu⟩⟩ | ⟨hno, -⟩)
      · cases he
      · rw [ho.header] at hp hu
        exact hu (hpass.2 p hp)
      · refine hno (linksFit_of_nodup ?_)
        rw [List.map_map]
        refine (List.pairwise_map.mpr (pairwise_matching.imp_of_mem fun {a b} ha hb hab he => ?_))
        have hone : table.file.header.slotsPerPage = 1 := by rw [ho.header, h.one]
        have hsa := (hasPage_of_lookup (mem_matching.mp ha).1).2
        have hsb := (hasPage_of_lookup (mem_matching.mp hb).1).2
        rcases hab with hlt | ⟨-, hlt⟩
        · exact Nat.ne_of_lt hlt he
        · omega
  refine wp_mono hw ?_ fun _ _ => False.elim
  rintro n u ⟨bytes', hwrote, hnone, hno⟩
  refine wp_mono (rebuildIndexesForTable_spec (hwrote.sound h.stored h.good.sound)
    (hwrote.faults.trans h.good.faults)
    hwrote.stored) ?_ ?_
  · rintro _ t ⟨hpass', -⟩
    rw [hwrote.catalogs.2] at hpass'
    exact hno (hpass'.resolve_left hindexed)
  · rintro _ t ⟨rfl, -⟩
    exact ⟨bytes', hwrote.stored.file, hnone⟩

theorem delete_rejected_half :
    ∃ s t e, Reachable s ∧ (Write.delete ⟨"t", none⟩).request.run s = .error e t ∧
      ¬ SameContents s t := by
  obtain ⟨data, he⟩ : ∃ data, encodeRow pagedLayout [.int32 5, .char "x"] = .ok data := ⟨_, rfl⟩
  obtain ⟨s₀, bytes₀, hs₀, hcount₀, hfind⟩ := exists_indexed fun _ => data
  obtain ⟨s, bytes, hs, hcount, hindexes⟩ := hs₀.fill (normalizeInsertInput_paged 5 "x") he
    (2 ^ 31) (by omega)
  have hindexed : s.indexes.indexesForTable "t" ≠ [] := by
    rw [hindexes]
    exact List.ne_nil_of_mem
      (List.mem_filter.mpr ⟨SortedMap.mem_values.mpr ⟨"i", hfind⟩, by decide⟩)
  have hw : wp (Write.delete ⟨"t", none⟩).request.run (fun _ _ => False)
      (fun _ t => ∃ bytes', t.root.files (tablePath "t") = some bytes' ∧ ∀ rid,
        liveRecords bytes' rid = none) s := by
    unfold Write.request Request.run
    rw [wp_bind]
    exact wp_mono (hs.delete_all hindexed (by omega) (by omega))
      (fun _ _ => False.elim) fun _ _ => id
  obtain ⟨e, t, hr, bytes', hfile, hnone⟩ := exists_error_of_wp hw
  refine ⟨s, t, e, hs.served.reachable, hr, fun hsame => ?_⟩
  have hrows := hsame.rows "t"
  rw [hfile, hs.stored.file, Option.map_some, Option.map_some] at hrows
  have hrow : liveRecords bytes ⟨1, 0⟩ = some data := hs.row 1 ⟨le_rfl, by omega⟩
  rw [← Option.some.inj hrows, hnone] at hrow
  cases hrow

end Redbase.Query
