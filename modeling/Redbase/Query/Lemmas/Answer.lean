import Redbase.Database.Lemmas.Inside
import Redbase.Query.Lemmas.Ordering
import Redbase.Query.Lemmas.Select

/-!
# The answer of a selection

The rows that a scan has read are those that satisfy the filter; they are sorted, cut off and shown
as the request asks for.
-/

namespace Redbase.Query

open Prog Record Table Database Selection

variable {s : Database} {name : String} {schema : TableSchema} {layout : SchemaLayout}
  {bytes data : List UInt8} {filter : Option Expr} {orderBy : List OrderBy}
  {keys : List OrderKeyPlan} {records picked : List Record} {request : ExtendedSelectRequest}
  {plan : SelectPlan}

/-! ## The rows -/

/-- The value of a cell has the type of its column. -/
theorem valueMatchesType_stored {columnType : ColumnType} {value : Value}
    (h : columnType.Accepts value) :
    valueMatchesType columnType value.stored = true := by
  cases columnType <;> cases value <;> first | rfl | exact absurd h id

theorem ofSchema_of_encodes {values : List Value} (hc : compileSchema schema = .ok layout)
    (he : Encodes layout data values) :
    OfSchema schema (rowOf layout data) := by
  rw [he.rowOf_eq, OfSchema]
  have hcells : List.Forall₂ (fun columnType value => valueMatchesType columnType value = true)
      (layout.columns.map LayoutColumn.columnType) (values.map Value.stored) := by
    rw [List.forall₂_map_left_iff, List.forall₂_map_right_iff]
    exact he.cells.imp fun _ _ hcell => valueMatchesType_stored hcell.accepts
  rw [(compileSchema_laid hc).types, List.forall₂_map_left_iff] at hcells
  exact hcells

/-- The records that satisfy the filter. -/
def matchingRecords (schema : TableSchema) (layout : SchemaLayout) (filter : Option Expr)
    (bytes : List UInt8) : List Record :=
  matching (fileHeader bytes) (filePages bytes) (wanted schema layout filter) 0

theorem ofSchema_of_mem (hs : Stored s name schema layout bytes) :
    ∀ r ∈ matchingRecords schema layout filter bytes, OfSchema schema (rowOf layout r.data) := by
  intro r hr
  obtain ⟨values, he⟩ := hs.rows.encoded _ _ (mem_matching.mp hr).1
  exact ofSchema_of_encodes hs.compiled he

/-- A scan returns the rows that satisfy the filter, also where calls on the directory can fail. -/
theorem fetchRows_returns (hs : Stored s name schema layout bytes) (filter : Option Expr) :
    wp (Database.withTable name (QueryEngine.fetchRows filter none))
      (fun rows _ => rows = rowsMatching schema layout filter bytes) (fun _ _ => True) s := by
  refine wp_withTable_returns hs fun t table _ ho => ?_
  unfold QueryEngine.fetchRows
  rw [wp_onTable]
  exact wp_mono (scan_opens ho filter) (fun _ _ h => h.2.2) fun _ _ _ => trivial

/-! ## Sorting -/

/-- The comparison of the plan is a total preorder on the records. -/
theorem preorders_recordOrder (hr : ∀ r ∈ records, OfSchema schema (rowOf layout r.data))
    (hk : ∀ key ∈ keys, key.index < schema.columns.length)
    (ho : orderOf schema orderBy = orderAt keys) :
    Preorders (recordOrder schema layout orderBy) records := by
  have hcmp : Std.TransCmp fun a b : {row // OfSchema schema row} => orderAt keys a.1 b.1 :=
    transCmp_orderAt hk
  constructor
  · intro a ha b hb
    unfold recordOrder
    rw [ho]
    exact hcmp.eq_swap (a := ⟨_, hr b hb⟩) (b := ⟨_, hr a ha⟩)
  · intro a ha b hb c hc
    unfold recordOrder
    rw [ho]
    exact hcmp.isLE_trans (a := ⟨_, hr a ha⟩) (b := ⟨_, hr b hb⟩) (c := ⟨_, hr c hc⟩)

theorem applyOrderBy_eq (hr : ∀ r ∈ records, OfSchema schema (rowOf layout r.data))
    (hk : ∀ key ∈ keys, key.index < schema.columns.length)
    (ho : orderOf schema orderBy = orderAt keys) :
    applyOrderBy (records.map fun r => rowOf layout r.data) keys =
      some ((sortBy (recordOrder schema layout orderBy) records).map
        fun r => rowOf layout r.data) := by
  have hcmp : ∀ a ∈ records, ∀ b ∈ records, compareRows (rowOf layout a.data)
      (rowOf layout b.data) keys = some (recordOrder schema layout orderBy a b) := by
    intro a ha b hb
    rw [compareRows_eq (hr a ha) (hr b hb) hk, recordOrder, ho]
  have hsort : (sortBy (recordOrder schema layout orderBy) records).map
      (fun r => rowOf layout r.data) =
      (records.map fun r => rowOf layout r.data).mergeSort fun lhs rhs =>
        ((compareRows lhs rhs keys).getD .eq).isLE := by
    refine List.map_mergeSort fun a ha b hb => ?_
    rw [hcmp a ha b hb]
    rfl
  unfold applyOrderBy
  split
  next hnil =>
    obtain rfl := List.isEmpty_iff.mp hnil
    rw [hsort, List.mergeSort_of_pairwise]
    exact List.pairwise_of_forall fun _ _ => rfl
  next =>
    rw [if_pos, hsort]
    simp only [List.all_eq_true, List.mem_map, forall_exists_index, and_imp,
      forall_apply_eq_imp_iff₂]
    intro a ha b hb
    rw [hcmp a ha b hb]
    rfl

theorem applyLimit_map (f : Record → Row) (records : List Record) (limit : Option Nat) :
    applyLimit (records.map f) limit = (cutOff records limit).map f := by
  cases limit with
  | none => rfl
  | some n => exact (List.map_take ..).symm

/-! ## Showing -/

theorem pairs_of_foundAt {names : List String} {resolved : List (Nat × ColumnSchema)}
    (h : List.Forall₂ (fun column item => FoundAt schema column item.1 item.2) names resolved) :
    (resolved.map Prod.snd).map ColumnSchema.name = names ∧
      ∀ pair ∈ (resolved.map Prod.fst).zip names, ∃ found, FoundAt schema pair.2 pair.1 found := by
  induction h with
  | nil => exact ⟨rfl, by simp⟩
  | @cons column item names resolved hfound _ ih =>
      obtain ⟨hnames, hpairs⟩ := ih
      simp only [List.map_cons, List.zip_cons_cons, List.forall_mem_cons, hnames,
        hfound.named, true_and]
      exact ⟨⟨_, hfound⟩, hpairs⟩

theorem resolveProjection_eq_ok {table : String} {projection : Projection} {shown : ProjectionPlan}
    (hc : compileSchema schema = .ok layout)
    (h : resolveProjection table schema projection = .ok shown) :
    shown.columns.map ColumnSchema.name = projection.names schema ∧
      ∃ pairs : List (Nat × String), pairs.map Prod.fst = shown.indices ∧
        pairs.map Prod.snd = projection.names schema ∧
        ∀ pair ∈ pairs, ∃ found, FoundAt schema pair.2 pair.1 found := by
  cases projection with
  | all =>
      cases h
      refine ⟨rfl, (List.range schema.columns.length).zip (schema.columns.map ColumnSchema.name),
        ?_, ?_, fun pair hp => ?_⟩
      · exact List.map_fst_zip (by simp)
      · exact List.map_snd_zip (by simp)
      · obtain ⟨i, hi, rfl⟩ := List.getElem_of_mem hp
        have hlt : i < schema.columns.length := by simpa using hi
        refine ⟨schema.columns[i], ?_⟩
        simp only [List.getElem_zip, List.getElem_range, List.getElem_map]
        exact foundAt_self hc hlt
  | columns names =>
      simp only [resolveProjection, bind_eq_ok, pure_eq_ok] at h
      obtain ⟨resolved, hr, rfl⟩ := h
      have hall := projectionColumns_eq_ok hr
      obtain ⟨hnames, hpairs⟩ := pairs_of_foundAt hall
      refine ⟨hnames, (resolved.map Prod.fst).zip names, ?_, ?_, hpairs⟩
      · exact List.map_fst_zip (by simp [hall.length_eq])
      · exact List.map_snd_zip (by simp [hall.length_eq])

/-- What is shown of a row. -/
theorem projectRow_eq {shown : ProjectionPlan} {pairs : List (Nat × String)} {row : Row}
    (hr : OfSchema schema row) (hfst : pairs.map Prod.fst = shown.indices)
    (hp : ∀ pair ∈ pairs, ∃ found, FoundAt schema pair.2 pair.1 found) :
    ∃ out, projectRow shown row = some out ∧
      out.values.map some = (pairs.map Prod.snd).map (Row.field schema row) := by
  obtain ⟨values, hm, hvalues⟩ := mapM_values hr hp
  refine ⟨⟨values⟩, ?_, ?_⟩
  · rw [projectRow, ← hfst, hm]
    rfl
  · rw [hvalues, List.map_map]
    rfl

theorem mapM_projectRow {shown : ProjectionPlan} {pairs : List (Nat × String)}
    (hr : ∀ r ∈ picked, OfSchema schema (rowOf layout r.data))
    (hfst : pairs.map Prod.fst = shown.indices)
    (hp : ∀ pair ∈ pairs, ∃ found, FoundAt schema pair.2 pair.1 found) :
    ∃ out, (picked.map fun r => rowOf layout r.data).mapM (projectRow shown) = some out ∧
      out.map (fun row => row.values.map some) =
        picked.map fun r => (pairs.map Prod.snd).map (Row.field schema (rowOf layout r.data)) := by
  induction picked with
  | nil => exact ⟨[], rfl, rfl⟩
  | cons r rest ih =>
      obtain ⟨hrow, hrest⟩ := List.forall_mem_cons.mp hr
      obtain ⟨first, hfirst, hvalues⟩ := projectRow_eq hrow hfst hp
      obtain ⟨out, hout, hothers⟩ := ih hrest
      refine ⟨first :: out, ?_, ?_⟩
      · rw [List.map_cons, List.mapM_cons, hfirst, hout]
        rfl
      · rw [List.map_cons, List.map_cons, hvalues, hothers]

/-! ## The request -/

theorem resolveSelectPlan_eq_ok (h : resolveSelectPlan request.table schema request = .ok plan) :
    resolveProjection request.table schema request.projection = .ok plan.projection ∧
      orderKeys request.table schema [] request.orderBy = .ok plan.orderBy ∧
        plan.limit = request.limit := by
  simp only [resolveSelectPlan, bind_eq_ok, pure_eq_ok] at h
  obtain ⟨projection, hp, orderBy, ho, limit, hl, rfl⟩ := h
  refine ⟨hp, ho, ?_⟩
  cases hlim : request.limit with
  | none =>
      rw [hlim] at hl
      exact (Except.ok.inj hl).symm
  | some n =>
      rw [hlim] at hl
      cases n with
      | zero => cases hl
      | succ n => exact (Except.ok.inj hl).symm

/-- The rows that were scanned are answered, and nothing of it panics. -/
theorem finish_spec (hs : Stored s request.table schema layout bytes)
    (hplan : resolveSelectPlan request.table schema request = .ok plan) (t : Database) :
    wp (do
        let rows ← QueryEngine.expect
          (applyOrderBy (rowsMatching schema layout request.filter bytes) plan.orderBy)
        let rows ← QueryEngine.expect
          ((applyLimit rows plan.limit).mapM (projectRow plan.projection))
        return (⟨schema, plan.projection.columns, rows⟩ : ProjectedSelectResult))
      (fun result u => u = t ∧ ∃ picked, IsAnswer schema layout (liveRecords bytes) request
        (matchingRecords schema layout request.filter bytes) picked result) never t := by
  obtain ⟨hproj, horder, hlimit⟩ := resolveSelectPlan_eq_ok hplan
  obtain ⟨hk, ho⟩ := orderKeys_eq_ok horder
  obtain ⟨hcolumns, pairs, hfst, hsnd, hpairs⟩ := resolveProjection_eq_ok hs.compiled hproj
  have hrows : ∀ r ∈ matchingRecords schema layout request.filter bytes,
      OfSchema schema (rowOf layout r.data) :=
    ofSchema_of_mem hs
  have hinOrder : (matchingRecords schema layout request.filter bytes).Pairwise
      fun a b => a.rid.Before b.rid :=
    pairwise_matching
  have hselected := selected_cutOff (preorders_recordOrder hrows hk ho) hinOrder
    nodup_matching request.limit
  obtain ⟨out, hout, hvalues⟩ :=
    mapM_projectRow (fun r hr => hrows r (hselected.subset r hr)) hfst hpairs
  have hsort : applyOrderBy (rowsMatching schema layout request.filter bytes) plan.orderBy =
      some ((sortBy (recordOrder schema layout request.orderBy)
        (matchingRecords schema layout request.filter bytes)).map fun r => rowOf layout r.data) :=
          applyOrderBy_eq hrows hk ho
  rw [hsort]
  simp only [QueryEngine.expect, wp_bind, wp_pure, applyLimit_map, hlimit, hout]
  rw [hsnd] at hvalues
  exact ⟨trivial, _, hinOrder, fun r => mem_matching, hrows, hselected, rfl, hcolumns, hvalues⟩

/-- A request that is accepted is answered in a database where all pages can be read. -/
theorem selectRows_succeeds (hq : s.root.faults = [])
    (hs : Stored s request.table schema layout bytes) (hpass : HeadersPass bytes)
    (hfilter : ¬ Rejected layout request.filter)
    (hplan : resolveSelectPlan request.table schema request = .ok plan) :
    wp (QueryEngine.selectRows request schema plan none) (fun _ t => t = s) never s := by
  unfold QueryEngine.selectRows
  rw [wp_bind, wp_liftDatabase]
  refine wp_mono (scan_withTable hq hs request.filter) ?_ fun _ _ h =>
    h.2.elim (absurd hpass) hfilter
  rintro rows _ ⟨rfl, -, rfl⟩
  exact wp_mono (finish_spec hs hplan _) (fun _ _ h => h.1) fun _ _ => id

theorem executeSelect_answers (hs : Stored s request.table schema layout bytes)
    (hscan : resolveIndexLookup request.table request.filter s = none) :
    wp (QueryEngine.executeSelect request)
      (fun result _ => ∃ picked, IsAnswer schema layout (liveRecords bytes) request
        (matchingRecords schema layout request.filter bytes) picked result)
          (fun _ _ => True) s := by
  unfold QueryEngine.executeSelect
  rw [wp_bind]
  refine wp_loadSchema (fun schema' hfind => ?_) fun _ => trivial
  obtain rfl : schema' = schema := Option.some.inj (hfind.symm.trans hs.listed)
  rw [wp_bind]
  refine wp_check.mpr ⟨fun _ _ => ?_, fun _ _ => trivial⟩
  rw [wp_bind]
  refine wp_check.mpr ⟨fun plan hplan => ?_, fun _ _ => trivial⟩
  simp only [wp_bind, wp_get, hscan]
  unfold QueryEngine.selectRows
  rw [wp_bind, wp_liftDatabase]
  refine wp_mono (fetchRows_returns hs request.filter) ?_ fun _ _ _ => trivial
  rintro rows t rfl
  exact wp_mono (finish_spec hs hplan t) (fun _ _ h => h.2) fun _ _ => False.elim

end Redbase.Query
