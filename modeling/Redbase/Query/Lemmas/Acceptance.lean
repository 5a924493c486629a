import Redbase.Query.Lemmas.Plans
import Redbase.Query.Inventory
import Redbase.Query.RejectedWrites
import Redbase.Table.Lemmas.Acceptance

/-!
# Requests that are carried out

Each request has one condition under which it returns, and in a database with room it is the
condition of the store.
-/

namespace Redbase.Query

open Prog Bytes Page Record Files Table Index Database QueryEngine

variable {s t : Database} {name : String} {schema : TableSchema} {layout : SchemaLayout}
  {bytes : List UInt8} {values : List Value} {filter : Option Expr} {assignments : List Assignment}
  {α : Type} {A : Prop}

/-! ## Rows -/

theorem Roomy.linksHold (hroom : Roomy s) (hs : Stored s name schema layout bytes) :
    LinksHold (fileHeader bytes) (filePages bytes) := by
  have hlt := hroom name schema layout bytes hs
  rintro rid ⟨hp, -⟩
  exact hp.2.trans_lt (Nat.lt_of_succ_lt hlt)

theorem Roomy.headersPass (hroom : Roomy s) (hs : Stored s name schema layout bytes) :
    HeadersPass bytes :=
  headersPass_of_links hs.rows.saved (hroom.linksHold hs)

theorem hasWanted_iff : (Relation.ofRecords schema layout (liveRecords bytes)).HasWanted filter ↔
    matchingRecords schema layout filter bytes ≠ [] := by
  constructor
  · rintro ⟨rid, row, hrow, hwants⟩
    obtain ⟨data, hdata, rfl⟩ := Option.map_eq_some_iff.mp hrow
    have hm : ⟨rid, data⟩ ∈ matchingRecords schema layout filter bytes :=
      mem_matching.mpr ⟨hdata, hwants⟩
    exact List.ne_nil_of_mem hm
  · intro hne
    obtain ⟨r, hr⟩ := List.exists_mem_of_ne_nil _ hne
    obtain ⟨hdata, hwants⟩ := mem_matching.mp hr
    exact ⟨r.rid, rowOf layout r.data, Option.map_eq_some_iff.mpr ⟨_, hdata, rfl⟩, hwants⟩

theorem assigned_eq_some (hn : (assignments.map Assignment.column).Nodup) {a : Assignment}
    (ha : a ∈ assignments) :
    assigned assignments a.column = some a.value := by
  induction assignments with
  | nil => cases ha
  | cons first rest ih =>
      rw [List.map_cons, List.nodup_cons] at hn
      rw [assigned, List.find?_cons]
      rcases List.mem_cons.mp ha with rfl | ha
      · simp
      · have hne : first.column ≠ a.column := fun he => hn.1 (he ▸ List.mem_map_of_mem ha)
        rw [decide_eq_false hne]
        exact ih hn.2 ha

/-- The assignments can be encoded just when their values fit. -/
theorem fitting_iff (hc : compileSchema schema = .ok layout) (h : AssignsTyped schema assignments) :
    Fitting layout (pairs assignments) ↔ AssignsFit schema assignments := by
  have hlast : ∀ a ∈ assignments, lastAssigned (pairs assignments) a.column = some a.value :=
    fun a ha => by
    rw [lastAssigned_pairs h.nodup, assigned_eq_some h.nodup ha]
  constructor
  · intro hfit a ha type htype
    obtain ⟨column, hcol, rfl⟩ := (typeOf_eq_some hc).mp htype
    obtain ⟨hm, hname⟩ := column_eq_ok hcol
    exact hfit.accepts column hm a.value (hname ▸ hlast a ha)
  · intro hfits
    refine ⟨fun pair hp => ?_, fun column hm value hvalue => ?_⟩
    · obtain ⟨a, ha, rfl⟩ := List.mem_map.mp hp
      obtain ⟨type, htype, -⟩ := h.typed a ha
      obtain ⟨column, hcol, -⟩ := (typeOf_eq_some hc).mp htype
      exact ⟨column, column_eq_ok hcol⟩
    · obtain ⟨pair, hp, hname, rfl⟩ := exists_of_lastAssigned hvalue
      obtain ⟨a, ha, rfl⟩ := List.mem_map.mp hp
      obtain ⟨type, htype, -⟩ := h.typed a ha
      obtain ⟨column', hcol, rfl⟩ := (typeOf_eq_some hc).mp htype
      obtain ⟨hm', hname'⟩ := column_eq_ok hcol
      have hsame : column' = column := by
        refine List.inj_on_of_nodup_map (compileSchema_laid hc).nodup hm' hm ?_
        exact hname'.trans hname
      subst hsame
      exact hfits a ha _ htype

/-! ## Writes -/

/-- What requests that all succeed keep, with room in every table. -/
structure Ready (s : Database) : Prop where
  good : Good s
  fresh : Fresh s
  tidy : Tidy s
  roomy : Roomy s

theorem Served.ready (h : Served s) (hroom : Roomy s) : Ready s :=
  ⟨h.reachable.good, h.fresh, h.tidy, hroom⟩

/-- A method of the table that returns when `A` holds, and then leaves few enough pages for its
indexes to be built. -/
theorem write_returnsIff {m : TableM DiskPageIo defaultBufferCapacity α} (h : Ready s)
    (hs : Stored s name schema layout bytes)
    (hm : ∀ table chain, Opens table schema layout bytes → TableOk table (filePages bytes) chain →
      AllReadable table.file.header (filePages bytes) → table.file.header.numPages + 1 < 2 ^ 31 →
      wp m (fun _ t => A ∧ ∃ pages' chain', Continues table t pages' chain' ∧
          t.file.header.numPages < 2 ^ 31)
        (fun _ _ => ¬ A) table) :
    ReturnsIff (do
      let a ← QueryEngine.liftDatabase (Database.withTable name (Session.onTable m))
      QueryEngine.liftDatabase (Database.rebuildIndexesForTable name)
      return a) A s := by
  have hpass := (headersPass_iff hs.rows.saved).mp (h.roomy.headersPass hs)
  simp only [ReturnsIff, wp_bind, wp_liftDatabase, wp_pure]
  have hw : wp (Database.withTable name (Session.onTable m))
      (fun _ u => A ∧ ∃ bytes', Wrote s u name schema layout bytes' ∧ HeadersPass bytes')
      (fun _ _ => ¬ A) s := by
    refine wp_withTable h.good.faults hs (fun table _ ho => ?_) fun _ hno => absurd hpass.1 hno
    obtain ⟨chain, hok⟩ := ho.ok
    rw [wp_onTable]
    refine wp_mono (hm table chain ho hok (ho.header ▸ hpass.2)
        (ho.header ▸ h.roomy name schema layout bytes hs)) ?_
      fun _ _ => id
    rintro a t ⟨hA, pages', chain', hc, hn⟩
    obtain ⟨bytes', hwrote, hhdr, -⟩ := ho.wrote hs hc
    refine ⟨hA, bytes', hwrote, headersPass_of_links hwrote.stored.rows.saved ?_⟩
    rintro rid ⟨hp, -⟩
    exact hp.2.trans_lt (hhdr ▸ hn)
  refine wp_mono hw ?_ fun _ _ => id
  rintro a u ⟨hA, bytes', hwrote, hpass'⟩
  refine wp_mono (rebuildIndexesForTable_spec (hwrote.sound hs h.good.sound)
      (hwrote.faults.trans h.good.faults) hwrote.stored)
    (fun _ _ _ => hA) ?_
  rintro _ t ⟨-, -, hno⟩
  exact absurd hpass' hno

/-- A request about a table that is not listed. -/
theorem relations_unlisted {relation : Relation} (hnone : s.catalog.tables.find name = none) :
    (storeOf s).relations name ≠ some relation := by
  rw [show (storeOf s).relations name = none from relationOf_unlisted hnone]
  exact nofun

theorem relations_stored (hs : Stored s name schema layout bytes) {relation : Relation} :
    (storeOf s).relations name = some relation ↔
      relation = .ofRecords schema layout (liveRecords bytes) := by
  rw [show (storeOf s).relations name = _ from relationOf_stored hs, Option.some.injEq, eq_comm]

theorem insert_returnsIff (h : Ready s) (request : ExtendedInsertRequest) :
    ReturnsIff (executeInsert request) (Accepts (storeOf s) (.insert request)) s := by
  unfold ReturnsIff executeInsert
  rw [wp_bind]
  refine wp_loadSchema (fun schema hfind => ?_) fun hnone haccept => ?_
  · obtain ⟨layout, bytes, hs⟩ := h.good.sound.tables request.table schema hfind
    have hiff : Accepts (storeOf s) (.insert request) ↔
        ∃ values, normalizeInsertInput request.table schema request.input = .ok values ∧
        ∃ data, encodeRow layout values = .ok data := by
      constructor
      · intro haccept
        cases haccept with
        | @insert _ relation values listed gives fits =>
            obtain rfl := (relations_stored hs).mp listed
            refine ⟨values, (normalizeInsertInput_ok_iff hs.compiled).mpr ⟨gives, ?_⟩,
              (encodeRow_ok_iff_schema hs.compiled).mpr fits⟩
            exact fits.imp fun _ _ => accepts_matchesType
      · rintro ⟨values, hv, hencode⟩
        exact .insert ((relations_stored hs).mpr rfl)
          ((normalizeInsertInput_ok_iff hs.compiled).mp hv).1
          ((encodeRow_ok_iff_schema hs.compiled).mp hencode)
    rw [hiff, wp_bind]
    refine wp_check.mpr ⟨fun values hv => ?_, fun e he => ?_⟩
    · refine wp_mono (write_returnsIff (A := ∃ data, encodeRow layout values = .ok data) h hs
        fun table chain ho hok hr hn => ?_) (fun _ _ hA => ⟨values, hv, hA⟩) fun _ _ hno => ?_
      · refine wp_mono (wp_and (Table.insert_returnsIff hok hr (by omega) values)
          (Table.insert_spec hok values)) ?_ ?_
        · rintro _ t ⟨hA, pages', chain', data, hc, -, -, -, hle⟩
          exact ⟨ho.layout ▸ hA, pages', chain', hc, by omega⟩
        · rintro _ _ ⟨hno, -⟩
          exact ho.layout ▸ hno
      · rintro ⟨values', hv', hA⟩
        obtain rfl := Except.ok.inj (hv.symm.trans hv')
        exact hno hA
    · rintro ⟨values, hv, -⟩
      rw [hv] at he
      cases he
  · cases haccept with
    | insert listed => exact relations_unlisted hnone listed

theorem update_returnsIff (h : Ready s) (request : UpdateRequest) :
    ReturnsIff (executeUpdate request) (Accepts (storeOf s) (.update request)) s := by
  unfold ReturnsIff executeUpdate
  rw [wp_bind]
  refine wp_loadSchema (fun schema hfind => ?_) fun hnone haccept => ?_
  · obtain ⟨layout, bytes, hs⟩ := h.good.sound.tables request.table schema hfind
    have hiff : Accepts (storeOf s) (.update request) ↔
        (∃ plan, resolveUpdatePlan request.table schema request = .ok plan) ∧
        ¬ Rejected layout request.filter ∧
        (matchingRecords schema layout request.filter bytes ≠ [] →
          Fitting layout (pairs request.assignments)) := by
      rw [rejected_iff hs.compiled, not_not, resolveUpdatePlan_ok_iff]
      constructor
      · intro haccept
        cases haccept with
        | @update _ relation listed filter assigns fits =>
            obtain rfl := (relations_stored hs).mp listed
            refine ⟨⟨validateFilter_of_typed filter, assigns⟩, filter, fun hne => ?_⟩
            exact (fitting_iff hs.compiled assigns).mpr (fits (hasWanted_iff.mpr hne))
      · rintro ⟨⟨-, assigns⟩, filter, hfits⟩
        refine .update ((relations_stored hs).mpr rfl) filter assigns fun hwanted => ?_
        exact (fitting_iff hs.compiled assigns).mp (hfits (hasWanted_iff.mp hwanted))
    rw [hiff, wp_bind]
    refine wp_check.mpr ⟨fun plan hp => ?_, fun e he => ?_⟩
    · have hpairs := (resolveUpdatePlan_eq_ok hp).2
      have hwrite := write_returnsIff (A := ¬ Rejected layout request.filter ∧
          (matchingRecords schema layout request.filter bytes ≠ [] →
            Fitting layout (pairs request.assignments)))
        (m := Table.updateWhere request.filter (pairs request.assignments)) h hs
          fun table chain ho hok hr hn => by
          have hsel : selected table (filePages bytes) request.filter =
              matchingRecords schema layout request.filter bytes := by
            rw [selected, ho.header, ho.schema, ho.layout, matchingRecords]
          have hw := Table.updateWhere_returnsIff hok hr request.filter (pairs request.assignments)
          rw [hsel, ho.layout] at hw
          refine wp_mono
            (wp_and hw (updateWhere_exact hok request.filter (pairs request.assignments))) ?_
            fun _ _ he => he.1
          rintro _ t ⟨hA, -, -, -, pages', hu⟩
          exact ⟨hA, pages', chain, hu.continues, hu.header ▸ Nat.lt_of_succ_lt hn⟩
      rw [← hpairs] at hwrite ⊢
      refine wp_mono hwrite (fun _ _ hA => ⟨⟨plan, hp⟩, hA⟩) fun _ _ hno hA => hno hA.2
    · rintro ⟨⟨plan, hp⟩, -⟩
      rw [hp] at he
      cases he
  · cases haccept with
    | update listed => exact relations_unlisted hnone listed

theorem delete_returnsIff (h : Ready s) (request : DeleteRequest) :
    ReturnsIff (executeDelete request) (Accepts (storeOf s) (.delete request)) s := by
  unfold ReturnsIff executeDelete
  rw [wp_bind]
  refine wp_loadSchema (fun schema hfind => ?_) fun hnone haccept => ?_
  · obtain ⟨layout, bytes, hs⟩ := h.good.sound.tables request.table schema hfind
    have hiff : Accepts (storeOf s) (.delete request) ↔
        resolveDeletePlan request.table schema request = .ok () ∧
        ¬ Rejected layout request.filter := by
      rw [rejected_iff hs.compiled, not_not, resolveDeletePlan]
      constructor
      · intro haccept
        cases haccept with
        | @delete _ relation listed filter =>
            obtain rfl := (relations_stored hs).mp listed
            exact ⟨validateFilter_of_typed filter, filter⟩
      · rintro ⟨-, filter⟩
        exact .delete ((relations_stored hs).mpr rfl) filter
    rw [hiff, wp_bind]
    refine wp_check.mpr ⟨fun _ hp => ?_, fun e he => ?_⟩
    · refine wp_mono (write_returnsIff (A := ¬ Rejected layout request.filter) h hs
          fun table chain ho hok hr hn => ?_)
        (fun _ _ hA => ⟨hp, hA⟩) fun _ _ hno hA => hno hA.2
      have hw := Table.deleteWhere_returnsIff hok (Nat.lt_of_succ_lt hn) request.filter
      rw [ho.layout] at hw
      refine wp_mono (wp_and hw (deleteWhere_exact hok request.filter (isFull_eq hok))) ?_
        fun _ _ he => he.1
      rintro _ t ⟨hA, -, -, -, -, pages', chain', hr⟩
      exact ⟨hA, pages', chain', hr.continues, hr.numPages ▸ Nat.lt_of_succ_lt hn⟩
    · rintro ⟨hp, -⟩
      rw [hp] at he
      cases he
  · cases haccept with
    | delete listed => exact relations_unlisted hnone listed

/-! ## Reads -/

/-- The rows of a selection may come from an index, but that makes no difference. -/
theorem select_eq_scan (h : Good s) (hfresh : Fresh s) (request : ExtendedSelectRequest) :
    executeSelect request s = scanSelect request s := by
  cases hl : resolveIndexLookup request.table request.filter s with
  | none =>
      unfold executeSelect scanSelect
      refine bind_congr_wp (wp_loadSchema (fun schema _ => ?_) fun _ => trivial)
      refine bind_congr_wp (wp_check.mpr ⟨fun _ _ => ?_, fun _ _ => trivial⟩)
      refine bind_congr_wp (wp_check.mpr ⟨fun plan _ => ?_, fun _ _ => trivial⟩)
      rw [get_bind, hl]
  | some plan =>
      unfold resolveIndexLookup at hl
      split at hl
      next column key hfilter => exact select_eq_scanSelect h hfresh hfilter
      next => cases hl

theorem select_returnsIff (h : Ready s) (request : ExtendedSelectRequest) :
    ReturnsIff (executeSelect request) (Accepts (storeOf s) (.select request)) s := by
  refine wp_congr (select_eq_scan h.good h.fresh request) ?_
  unfold scanSelect
  rw [wp_bind]
  refine wp_loadSchema (fun schema hfind => ?_) fun hnone haccept => ?_
  · obtain ⟨layout, bytes, hs⟩ := h.good.sound.tables request.table schema hfind
    have hiff : Accepts (storeOf s) (.select request) ↔
        validateFilter request.table schema request.filter = .ok () ∧
        (∃ plan, resolveSelectPlan request.table schema request = .ok plan) ∧
          ¬ Rejected layout request.filter := by
      rw [rejected_iff hs.compiled, not_not, resolveSelectPlan_ok_iff]
      constructor
      · intro haccept
        cases haccept with
        | @select _ relation listed filter projection orderBy limit =>
            obtain rfl := (relations_stored hs).mp listed
            exact ⟨validateFilter_of_typed filter, ⟨projection, orderBy, limit⟩, filter⟩
      · rintro ⟨-, ⟨projection, orderBy, limit⟩, filter⟩
        exact .select ((relations_stored hs).mpr rfl) filter projection orderBy limit
    rw [hiff, wp_bind]
    refine wp_check.mpr ⟨fun _ hv => ?_, fun e he hA => by rw [hA.1] at he; cases he⟩
    rw [wp_bind]
    refine wp_check.mpr ⟨fun plan hp => ?_, fun e he hA => ?_⟩
    · by_cases hrejected : Rejected layout request.filter
      · unfold selectRows
        rw [wp_bind, wp_liftDatabase]
        have hscan : wp (Database.withTable request.table (fetchRows request.filter none))
            (fun _ _ => ¬ Rejected layout request.filter)
            (fun _ _ => True) s := by
          unfold fetchRows
          refine wp_withTable h.good.faults hs (fun table _ ho => ?_) fun _ _ => trivial
          obtain ⟨chain, hok⟩ := ho.ok
          rw [wp_onTable]
          exact ho.layout ▸ Table.scan_accepts hok request.filter
        exact wp_mono hscan (fun _ _ haccept => absurd hrejected haccept)
          fun _ _ _ hA => hA.2.2 hrejected
      · exact wp_mono (selectRows_succeeds h.good.faults hs (h.roomy.headersPass hs) hrejected hp)
          (fun _ _ _ => ⟨hv, ⟨plan, hp⟩, hrejected⟩) fun _ _ => False.elim
    · obtain ⟨plan, hp⟩ := hA.2.1
      rw [hp] at he
      cases he
  · cases haccept with
    | select listed => exact relations_unlisted hnone listed

theorem describeTable_returnsIff (h : Good s) (table : String) :
    ReturnsIff (describeTable table) (Accepts (storeOf s) (.describeTable table)) s := by
  refine wp_mono (describeTable_spec h table) ?_ ?_
  · rintro _ _ ⟨-, relation, hlisted, -⟩
    exact .describeTable hlisted
  · rintro _ _ ⟨-, -, hnone⟩ haccept
    cases haccept with
    | describeTable listed => cases hnone.symm.trans listed

/-! ## Schema changes -/

theorem createTable_returnsIff (h : Ready s) (request : CreateTableRequest) :
    ReturnsIff (executeCreateTable request) (Accepts (storeOf s) (.createTable request)) s := by
  have hiff : Accepts (storeOf s) (.createTable request) ↔
      ∃ layout header, Creatable s request.schema layout ∧ RecordFileHeader.new layout.recordSize =
        .ok header := by
    constructor
    · intro haccept
      cases haccept with
      | createTable wellFormed new =>
          obtain ⟨layout, header, hc, hn⟩ := wellFormed_iff.mp wellFormed
          have hunlisted : s.catalog.tables.find request.schema.name = none := by
            cases hfind : s.catalog.tables.find request.schema.name with
            | none => rfl
            | some schema =>
                obtain ⟨relation, hrelation⟩ := h.good.exists_relation hfind
                cases hrelation.symm.trans new
          exact ⟨layout, header, ⟨hc, hunlisted, h.tidy.noFile hunlisted⟩, hn⟩
    · rintro ⟨layout, header, hc, hn⟩
      exact .createTable (wellFormed_iff.mpr ⟨layout, header, hc.compiled, hn⟩)
        (relationOf_unlisted hc.unlisted)
  unfold ReturnsIff executeCreateTable
  rw [hiff, wp_liftDatabase]
  refine wp_mono (createTable_spec h.good.faults request.schema) ?_ ?_
  · rintro _ _ ⟨layout, bytes, hc, he, -⟩
    obtain ⟨header, hn⟩ := EmptyRecords.fits he
    exact ⟨layout, header, hc, hn⟩
  · rintro _ _ (⟨hno, -⟩ | ⟨layout, bytes, e, hc, he, -⟩) ⟨layout', header, hc', hn⟩
    · exact hno ⟨layout', hc'⟩
    · obtain rfl := Except.ok.inj (hc.compiled.symm.trans hc'.compiled)
      rw [he] at hn
      cases hn

theorem dropTable_returnsIff (h : Good s) (request : DropTableRequest) :
    ReturnsIff (executeDropTable request) (Accepts (storeOf s) (.dropTable request)) s := by
  unfold ReturnsIff executeDropTable
  rw [wp_mapError]
  refine wp_mono (dropTable_spec h.sound h.faults request.table) ?_ ?_
  · rintro _ _ ⟨hlisted, -⟩
    obtain ⟨schema, hfind⟩ := SortedMap.contains_iff.mp hlisted
    obtain ⟨relation, hrelation⟩ := h.exists_relation hfind
    exact .dropTable hrelation
  · rintro _ _ ⟨hno, -, -⟩ haccept
    cases haccept with
    | dropTable listed =>
        refine relations_unlisted ?_ listed
        exact Option.not_isSome_iff_eq_none.mp (Bool.eq_false_iff.mp hno)

theorem createIndex_returnsIff (h : Ready s) (request : CreateIndexRequest) :
    ReturnsIff (executeCreateIndex request) (Accepts (storeOf s) (.createIndex request)) s := by
  have hiff : Accepts (storeOf s) (.createIndex request) ↔ s.indexes.contains request.name = false ∧
      ∃ schema layout bytes, Indexable s request.name request.table request.column schema
        layout bytes := by
    constructor
    · intro haccept
      cases haccept with
      | createIndex identifier listed column new =>
          have hlisted : s.catalog.tables.find request.table ≠ none :=
            fun hnone => relations_unlisted hnone listed
          obtain ⟨schema, hfind⟩ := Option.ne_none_iff_exists'.mp hlisted
          obtain ⟨layout, bytes, hs⟩ := h.good.sound.tables request.table schema hfind
          obtain rfl := (relations_stored hs).mp listed
          refine ⟨?_, schema, layout, bytes, identifier, hs, (typeOf_eq_some hs.compiled).mp column⟩
          exact Bool.eq_false_iff.mpr (Option.not_isSome_iff_eq_none.mpr new)
    · rintro ⟨hnew, schema, layout, bytes, hid, hs, hcol⟩
      refine .createIndex hid ((relations_stored hs).mpr rfl)
        ((typeOf_eq_some hs.compiled).mpr hcol) ?_
      exact Option.not_isSome_iff_eq_none.mp (Bool.eq_false_iff.mp hnew)
  unfold ReturnsIff executeCreateIndex
  rw [wp_bind]
  refine wp_loadSchema (fun schema hfind => ?_) fun hnone haccept => ?_
  · split
    next column hcolumn =>
      simp only [wp_bind, wp_ite, wp_throw, wp_mapError, wp_pure]
      split
      next hint =>
        intro haccept
        cases haccept with
        | createIndex _ listed typed _ =>
            obtain ⟨layout, bytes, hs⟩ := h.good.sound.tables request.table schema hfind
            obtain rfl := (relations_stored hs).mp listed
            have htype : schema.typeOf request.column = some .int32 := typed
            rw [TableSchema.typeOf, hcolumn] at htype
            exact hint (Option.some.inj htype)
      next =>
        rw [hiff]
        refine wp_mono (createIndex_spec h.good.sound h.good.faults request.name request.table
          request.column) ?_ ?_
        · rintro _ _ ⟨schema', layout, bytes, hi, hnew, -⟩
          exact ⟨hnew, schema', layout, bytes, hi⟩
        · rintro _ _ (⟨hno, -⟩ | ⟨schema', layout, bytes, hi, ⟨hold, -⟩ | ⟨-, hno, -⟩⟩)
            ⟨hnew, hindexable⟩
          · exact hno hindexable
          · rw [hnew] at hold
            cases hold
          · exact hno (h.roomy.headersPass hi.stored)
    next hcolumn =>
      intro haccept
      cases haccept with
      | createIndex _ listed typed _ =>
          obtain ⟨layout, bytes, hs⟩ := h.good.sound.tables request.table schema hfind
          obtain rfl := (relations_stored hs).mp listed
          obtain ⟨column, hfound, -⟩ := Option.map_eq_some_iff.mp typed
          exact hcolumn column hfound
  · cases haccept with
    | createIndex _ listed _ _ => exact relations_unlisted hnone listed

theorem dropIndex_returnsIff (h : Good s) (request : DropIndexRequest) :
    ReturnsIff (executeDropIndex request) (Accepts (storeOf s) (.dropIndex request)) s := by
  unfold ReturnsIff executeDropIndex
  rw [wp_mapError]
  refine wp_mono (dropIndex_spec h.sound h.faults request.name) ?_ ?_
  · rintro _ _ ⟨hlisted, -⟩
    obtain ⟨m, hfind⟩ := SortedMap.contains_iff.mp hlisted
    exact .dropIndex hfind
  · rintro _ _ ⟨hno, -, -⟩ haccept
    cases haccept with
    | dropIndex listed =>
        have hyes : s.indexes.contains request.name = true := SortedMap.contains_iff.mpr ⟨_, listed⟩
        rw [hno] at hyes
        cases hyes

/-- With room in every table, a request returns just when the abstract store accepts it. -/
theorem Request.returnsIff (h : Ready s) (request : Request) :
    ReturnsIff request.run (Accepts (storeOf s) request) s := by
  cases request with
  | createTable request => exact createTable_returnsIff h request
  | dropTable request => exact dropTable_returnsIff h.good request
  | createIndex request => exact createIndex_returnsIff h request
  | dropIndex request => exact dropIndex_returnsIff h.good request
  | insert request => exact (wp_bind _ _).mpr (insert_returnsIff h request)
  | update request => exact (wp_bind _ _).mpr (update_returnsIff h request)
  | delete request => exact (wp_bind _ _).mpr (delete_returnsIff h request)
  | select request => exact (wp_bind _ _).mpr (select_returnsIff h request)
  | showTables => exact Accepts.showTables
  | showIndexes => exact Accepts.showIndexes
  | describeTable table => exact (wp_bind _ _).mpr (describeTable_returnsIff h.good table)
  | reopen =>
      unfold Request.run QueryEngine.reopen ReturnsIff
      rw [wp_bind, wp_get, wp_bind, wp_check, h.good.reopen_eq]
      exact ⟨fun _ _ => .reopen, fun e he => by cases he⟩

end Redbase.Query
