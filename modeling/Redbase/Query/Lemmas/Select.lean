import Redbase.Query.Lemmas.Requests

/-!
# Reading the rows of a table

A scan and a lookup in a fresh index find the same rows, in the same order.
-/

namespace Redbase.Query

open Prog Page Record Files Table Index Database

variable {α : Type} {s t : Database} {name column : String} {schema : TableSchema}
  {layout : SchemaLayout} {bytes : List UInt8} {filter : Option Expr} {m : IndexMeta} {key : Int32}

/-- The rows of a file that satisfy a filter, in the order of their ids. -/
def rowsMatching (schema : TableSchema) (layout : SchemaLayout) (filter : Option Expr)
    (bytes : List UInt8) : List Row :=
  (matching (fileHeader bytes) (filePages bytes) (wanted schema layout filter) 0).map
    fun r => rowOf layout r.data

/-- A scan of a table that was opened. -/
theorem scan_opens {table : DiskTable} (ho : Opens table schema layout bytes)
    (filter : Option Expr) :
    wp (Table.scan filter)
      (fun rows t => Opens t schema layout bytes ∧ AllReadable (fileHeader bytes)
        (filePages bytes) ∧ rows = rowsMatching schema layout filter bytes)
      (fun _ t => Opens t schema layout bytes ∧
        (¬ AllReadable (fileHeader bytes) (filePages bytes) ∨ Rejected layout filter)) table := by
  refine ho.read (scan_reads filter) fun chain hok => wp_mono (Table.scan_spec hok filter) ?_ ?_
  · rintro rows t ⟨hu, hr, rfl⟩
    refine ⟨hu, ho.header ▸ hr, ?_⟩
    rw [selected, ho.header, ho.schema, ho.layout]
    rfl
  · rintro _ t ⟨hu, hf⟩
    refine ⟨hu, ?_⟩
    rw [ScanFails, ho.layout, ho.header] at hf
    rcases hf with hrej | ⟨p, hp, hun⟩
    · exact .inr hrej
    · exact .inl fun hr => hun (hr p hp)

/-- The rows are read if the filter is accepted and all pages can be read. -/
theorem scan_withTable (hq : s.root.faults = []) (hs : Stored s name schema layout bytes)
    (filter : Option Expr) :
    wp (Database.withTable name (QueryEngine.fetchRows filter none))
      (fun rows t => t = s ∧ HeadersPass bytes ∧ rows = rowsMatching schema layout filter bytes)
      (fun _ t => t = s ∧ (¬ HeadersPass bytes ∨ Rejected layout filter)) s := by
  have hpass := headersPass_iff hs.rows.saved
  unfold QueryEngine.fetchRows
  refine wp_withTable hq hs (fun table hv ho => ?_) fun _ hv =>
    ⟨rfl, .inl fun hp => hv (hpass.mp hp).1⟩
  rw [wp_onTable]
  refine wp_mono (scan_opens ho filter) ?_ ?_
  · rintro rows table' ⟨ho', hr, rfl⟩
    exact ⟨leave_clean ho' hs.file, hpass.mpr ⟨hv, hr⟩, rfl⟩
  · rintro _ table' ⟨ho', hf⟩
    exact ⟨leave_clean ho' hs.file, hf.imp_left fun hr hp => hr (hpass.mp hp).2⟩

/-- Rows that are looked up in an index; of which it is, is left open. -/
theorem lookup_withTable_reads (hq : s.root.faults = []) (hs : Stored s name schema layout bytes)
    (plan : IndexLookupPlan) :
    wp (Database.withTable name (QueryEngine.fetchRows filter (some plan))) (fun _ t => t = s)
      (fun _ t => t = s) s := by
  unfold QueryEngine.fetchRows
  refine wp_withTable hq hs (fun table _ ho => ?_) fun _ _ => rfl
  have hleave : Session.leave ⟨s, table⟩ name = s := leave_clean ho hs.file
  simp only [wp_bind, wp_onDatabase, wp_onTable, Database.lookupIndexEq, wp_get, wp_onRoot]
  refine wp_lift.mpr ⟨fun rids _ => ?_, fun _ _ => hleave⟩
  have hread := ho.read (rowsByRids_reads rids) (Q := fun _ => True) (E := True) fun chain hok =>
    wp_mono (rowsByRids_unchanged hok rids) (fun _ _ hu => ⟨hu, trivial⟩)
      fun _ _ hu => ⟨hu, trivial⟩
  exact wp_mono hread (fun _ _ ho' => leave_clean ho'.1 hs.file)
    fun _ _ ho' => leave_clean ho'.1 hs.file

/-- An index that is up to date finds the rows with the key. -/
theorem lookup_withTable (hq : s.root.faults = []) (hs : Stored s m.table schema layout bytes)
    (hi : Indexed s m) (hu : UpToDate s m) (filter : Option Expr) :
    wp (Database.withTable m.table (QueryEngine.fetchRows filter (some ⟨m.name, key⟩)))
      (fun rows t => t = s ∧ rows = rowsMatching schema layout (some (keyExpr m.column key)) bytes)
        never s := by
  obtain ⟨schema', layout', bytes', hs', hpass, hfile⟩ := hu
  obtain ⟨rfl, rfl, rfl⟩ := hs'.unique hs
  obtain ⟨schema', layout', bytes', hs', hx⟩ := hi.table
  obtain ⟨rfl, rfl, rfl⟩ := hs'.unique hs
  obtain ⟨hv, hr⟩ := (headersPass_iff hs.rows.saved).mp hpass
  have hlookup : lookupEq s.root m.name key =
    .ok (((records (fileHeader bytes) (filePages bytes)).filter fun r =>
      keyOf schema layout m.column r.data = key).map Record.rid) := by
    rw [lookupEq_content hi.storable (entriesOf_fits hs.rows) hfile, entriesOf,
      filter_sortEntries pairwise_matching]
  rw [← matching_keyExpr hs.compiled hx hs.rows.encoded] at hlookup
  unfold QueryEngine.fetchRows
  refine wp_withTable hq hs (fun table _ ho => ?_) fun _ hn => absurd hv hn
  simp only [wp_bind, wp_onDatabase, wp_onTable, Database.lookupIndexEq, wp_get, wp_onRoot,
    hlookup, wp_lift_ok]
  have hread := ho.read (rowsByRids_reads ((matching (fileHeader bytes) (filePages bytes)
    (wanted schema layout (some (keyExpr m.column key))) 0).map Record.rid))
    (Q := fun rows => rows = rowsMatching schema layout (some (keyExpr m.column key)) bytes)
    (E := False) fun chain hok => by
      refine wp_mono (rowsByRids_spec hok (by rw [ho.header]; exact hr) _ fun r hr => ?_) ?_
        fun _ _ => False.elim
      · rw [ho.header]
        exact (mem_matching.mp hr).1
      · rintro rows t ⟨hu, rfl⟩
        rw [ho.layout]
        exact ⟨hu, rfl⟩
  refine wp_mono hread ?_ fun _ _ hf => hf.2
  rintro rows t ⟨ho', rfl⟩
  exact ⟨leave_clean ho' hs.file, rfl⟩

/-! ## The whole request -/

/-- `execute_select`, where the rows are found by a scan in any case. -/
def scanSelect (request : ExtendedSelectRequest) : QueryM ProjectedSelectResult := do
  let schema ← QueryEngine.loadSchema request.table
  QueryEngine.check (validateFilter request.table schema request.filter)
  let plan ← QueryEngine.check (resolveSelectPlan request.table schema request)
  QueryEngine.selectRows request schema plan none

theorem select_reads (h : Good s) (request : ExtendedSelectRequest) :
    Reads (QueryEngine.executeSelect request) s := by
  unfold Reads QueryEngine.executeSelect
  rw [wp_bind]
  refine wp_loadSchema (fun schema hfind => ?_) fun _ => rfl
  obtain ⟨layout, bytes, hs⟩ := h.sound.tables request.table schema hfind
  rw [wp_bind]
  refine wp_check.mpr ⟨fun _ _ => ?_, fun _ _ => rfl⟩
  rw [wp_bind]
  refine wp_check.mpr ⟨fun plan _ => ?_, fun _ _ => rfl⟩
  rw [wp_bind, wp_get]
  unfold QueryEngine.selectRows
  rw [wp_bind, wp_liftDatabase]
  have hrest : ∀ rows, wp (do
      let rows ← QueryEngine.expect (applyOrderBy rows plan.orderBy)
      let rows ← QueryEngine.expect ((applyLimit rows plan.limit).mapM (projectRow plan.projection))
      return (⟨schema, plan.projection.columns, rows⟩ : ProjectedSelectResult)) (fun _ t =>
        t = s) (fun _ t => t = s) s := by
    intro rows
    cases h₁ : applyOrderBy rows plan.orderBy with
    | none => exact rfl
    | some rows' =>
        cases h₂ : (applyLimit rows' plan.limit).mapM (projectRow plan.projection) with
        | none => simp only [wp_bind, QueryEngine.expect, wp_pure, h₂, wp_throw]
        | some rows'' => simp only [wp_bind, QueryEngine.expect, wp_pure, h₂]
  cases resolveIndexLookup request.table request.filter s with
  | none =>
      refine wp_mono (scan_withTable h.faults hs request.filter) ?_ fun _ _ ht => ht.1
      rintro rows _ ⟨rfl, -⟩
      exact hrest rows
  | some lookup =>
      refine wp_mono (lookup_withTable_reads h.faults hs lookup) ?_ fun _ _ ht => ht
      rintro rows _ rfl
      exact hrest rows

/-! ## Fresh indexes -/

theorem findIndex_some (hs : Sound s) (hf : s.findIndex name column = some m) :
    m.table = name ∧ m.column = column ∧ s.indexes.indexes.find m.name = some m := by
  have hm := List.mem_of_find?_eq_some hf
  obtain ⟨ht, hfind⟩ := hs.indexesForTable name m hm
  exact ⟨ht, by simpa using List.find?_some hf, hfind⟩

/-- A lookup in an index gives what the scan gives. -/
theorem fetchRows_eq (h : Good s) (hfresh : Fresh s) (hf : s.findIndex name column = some m)
    (filter : Option Expr) :
    Database.withTable name (QueryEngine.fetchRows filter (some ⟨m.name, key⟩)) s =
      Database.withTable name (QueryEngine.fetchRows (some (keyExpr column key)) none) s := by
  obtain ⟨rfl, rfl, hfind⟩ := findIndex_some h.sound hf
  obtain ⟨-, hi⟩ := h.sound.indexes m.name m hfind
  have hu := hfresh m.name m hfind
  obtain ⟨schema, layout, bytes, hs, hx⟩ := hi.table
  obtain ⟨schema', layout', bytes', hs', hpass, -⟩ := hfresh m.name m hfind
  obtain ⟨rfl, rfl, rfl⟩ := hs'.unique hs
  have hlookup : wp (Database.withTable m.table (QueryEngine.fetchRows filter (some ⟨m.name, key⟩)))
      _ never s :=
    lookup_withTable h.faults hs hi hu filter
  obtain ⟨rows, t, hlookup, rfl, rfl⟩ := exists_ok_of_wp hlookup
  have hscan := scan_withTable h.faults hs (some (keyExpr m.column key))
  have hscan := wp_mono hscan (fun _ _ hq => hq) fun _ _ he =>
    he.2.elim (fun hn => hn hpass) (accepts_keyExpr hs.compiled hx)
  obtain ⟨rows, t', hrows, rfl, -, rfl⟩ := exists_ok_of_wp hscan
  rw [hlookup, hrows]

theorem resolveIndexLookup_eq (table : String) :
    resolveIndexLookup table (some (.cmpValue column .eq (.int32 key))) s =
      (s.findIndex table column).map fun m => ⟨m.name, key⟩ := rfl

theorem select_eq_scanSelect (h : Good s) (hfresh : Fresh s) {request : ExtendedSelectRequest}
    (hfilter : request.filter = some (.cmpValue column .eq (.int32 key))) :
    QueryEngine.executeSelect request s = scanSelect request s := by
  unfold QueryEngine.executeSelect scanSelect
  refine bind_congr_wp (wp_loadSchema (fun schema _ => ?_) fun _ => trivial)
  refine bind_congr_wp (wp_check.mpr ⟨fun _ _ => ?_, fun _ _ => trivial⟩)
  refine bind_congr_wp (wp_check.mpr ⟨fun plan _ => ?_, fun _ _ => trivial⟩)
  show QueryEngine.selectRows request schema plan
    (resolveIndexLookup request.table request.filter s) s = _
  rw [hfilter, resolveIndexLookup_eq]
  cases hf : s.findIndex request.table column with
  | none => rfl
  | some m =>
      have hrows : Database.withTable request.table
          (QueryEngine.fetchRows request.filter (some ⟨m.name, key⟩)) s = _ :=
        fetchRows_eq h hfresh hf request.filter
      rw [hfilter] at hrows
      unfold QueryEngine.selectRows
      simp only [Option.map_some, bind, EStateM.bind, QueryEngine.liftDatabase, mapError,
        hrows, hfilter]

end Redbase.Query
