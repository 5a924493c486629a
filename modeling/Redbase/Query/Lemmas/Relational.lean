import Redbase.Query.Relational
import Redbase.Query.Lemmas.Answer
import Redbase.Query.Lemmas.Runs
import Redbase.Table.Lemmas.Writes

/-!
# The requests on the store of relations

Every request that succeeds has its effect on the store of the database.
-/

namespace Redbase.Query

open Prog Bytes Page Record Files Table Index Database Function

variable {α : Type} {s t u : Database} {name name' : String} {schema : TableSchema}
  {layout : SchemaLayout} {bytes bytes' data before after : List UInt8} {values : List Value}
  {st : RelationalStore}

/-! ## The relation of a table -/

theorem relationOf_stored (hs : Stored s name schema layout bytes) :
    relationOf s name = some (.ofRecords schema layout (liveRecords bytes)) := by
  have hlayout : (compileSchema schema).toOption = some layout := by
    rw [hs.compiled]
    rfl
  simp [relationOf, hs.listed, hlayout, hs.file]

theorem relationOf_unlisted (h : s.catalog.tables.find name = none) : relationOf s name = none := by
  unfold relationOf
  rw [h]
  rfl

theorem relationOf_congr (hc : t.catalog.tables.find name = s.catalog.tables.find name)
    (hf : t.root.files (tablePath name) = s.root.files (tablePath name)) :
    relationOf t name = relationOf s name := by
  unfold relationOf
  rw [hc, hf]

theorem Good.exists_relation (h : Good s) (hfind : s.catalog.tables.find name = some schema) :
    ∃ relation, relationOf s name = some relation := by
  obtain ⟨layout, bytes, hs⟩ := h.sound.tables name schema hfind
  exact ⟨_, relationOf_stored hs⟩

/-- The store after one relation is another one. -/
theorem storeOf_put {relation : Relation} (hname : relationOf t name = some relation)
    (hother : ∀ name', name' ≠ name → relationOf t name' = relationOf s name')
    (hi : t.indexes = s.indexes) :
    storeOf t = (storeOf s).put name relation := by
  unfold storeOf RelationalStore.put
  rw [hi]
  congr 1
  funext name'
  rcases eq_or_ne name' name with rfl | hne
  · rw [hname, update_self]
  · rw [hother name' hne, update_of_ne hne]

/-! ## Schema changes -/

theorem storeOf_addTable (hc : Creatable s schema layout)
    (he : EmptyRecords bytes layout.recordSize) :
    storeOf (s.addTable schema bytes) = (storeOf s).put schema.name ⟨schema, fun _ => none⟩ := by
  have hnone : (fun rid => (liveRecords bytes rid).map (rowOf layout)) = fun _ => none := by
    funext rid
    obtain ⟨h, pages, hsaved, -, hn⟩ := he
    have hno : liveRecords bytes rid = none := by
      unfold liveRecords
      refine lookup_of_invalid fun hv => ?_
      have hle := hv.1.2
      have hpos := hv.1.1
      rw [fileHeader_eq hsaved, hn] at hle
      omega
    rw [hno]
    rfl
  refine storeOf_put ?_ (fun name' hne => relationOf_congr (addTable_other hne).1
    (addTable_other hne).2) rfl
  rw [relationOf_stored (hc.stored he), Relation.ofRecords, hnone]

theorem storeOf_removeTable (h : Sound s) :
    storeOf (s.removeTable name) = (storeOf s).drop name := by
  unfold storeOf RelationalStore.drop
  congr 1
  · funext name'
    rcases eq_or_ne name' name with rfl | hne
    · rw [update_self]
      refine relationOf_unlisted ?_
      show (s.catalog.tables.erase name').find name' = none
      rw [SortedMap.find_erase, update_self]
    · rw [update_of_ne hne]
      exact relationOf_congr (removeTable_other hne).1 (removeTable_other hne).2
  · funext n
    show (s.eraseIndexes (s.indexes.indexesForTable name)).indexes.indexes.find n = _
    rw [find_eraseIndexes]
    cases hfind : s.indexes.indexes.find n with
    | none => simp [hfind]
    | some m =>
        obtain ⟨rfl, -⟩ := h.indexes n m hfind
        have hmem : m.name ∈ (s.indexes.indexesForTable name).map IndexMeta.name ↔
            m.table = name := by
          constructor
          · intro hm
            obtain ⟨m', hm', hname⟩ := List.mem_map.mp hm
            obtain ⟨ht, hfind'⟩ := h.indexesForTable name m' hm'
            rw [hname, hfind] at hfind'
            exact Option.some.inj hfind' ▸ ht
          · exact fun ht => List.mem_map_of_mem
              (mem_indexesForTable.mpr ⟨SortedMap.mem_values.mpr ⟨_, hfind⟩, ht⟩)
        by_cases ht : m.table = name
        · simp [hfind, hmem, ht, Option.filter_some]
        · simp [hfind, hmem, ht, Option.filter_some]

theorem storeOf_putIndex {m : IndexMeta} {entries : List IndexEntry} :
    storeOf (s.putIndex m entries) = storeOf s := by
  unfold storeOf
  congr 1
  funext name
  exact relationOf_congr rfl (Disk.files_put_of_ne (by simp) _)

theorem storeOf_addIndex {m : IndexMeta} :
    storeOf (s.addIndex m) =
      { storeOf s with indexes := update (storeOf s).indexes m.name (some m) } := by
  unfold storeOf
  congr 1
  · funext name
    exact relationOf_congr rfl (addIndex_files (by simp) (by simp))
  · exact find_addIndex

theorem storeOf_removeIndexFile :
    storeOf (s.removeIndexFile name) =
      { storeOf s with indexes := update (storeOf s).indexes name none } := by
  unfold storeOf
  congr 1
  · funext name'
    exact relationOf_congr rfl (removeIndexFile_files (by simp) (by simp))
  · exact SortedMap.find_erase ..

/-! ## Writing -/

/-- What a method leaves of the rows of a table: `R` for what it returns, `F` where it fails. -/
theorem withTable_leaves {m : TableM DiskPageIo defaultBufferCapacity α}
    {R : α → DiskTable → (Nat → PageData) → Prop}
    {F : DiskTable → (Nat → PageData) → Prop} (hq : s.root.faults = [])
    (hs : Stored s name schema layout bytes)
    (hm : ∀ table chain, Opens table schema layout bytes → TableOk table (filePages bytes) chain →
      wp m (fun a t => ∃ pages' chain', Continues table t pages' chain' ∧ R a t pages')
        (fun _ t => ∃ pages' chain', Continues table t pages' chain' ∧ F t pages') table) :
    wp (Database.withTable name (Session.onTable m))
      (fun a t => ∃ bytes' table pages', Wrote s t name schema layout bytes' ∧
        fileHeader bytes' = table.file.header ∧
        (∀ p, table.file.header.HasPage p → filePages bytes' p = pages' p) ∧ R a table pages')
      (fun _ t => t = s ∨ ∃ bytes' table pages', Wrote s t name schema layout bytes' ∧
        fileHeader bytes' = table.file.header ∧
          (∀ p, table.file.header.HasPage p → filePages bytes' p = pages' p) ∧
        F table pages') s := by
  refine wp_withTable hq hs (fun table _ ho => ?_) fun _ _ => .inl rfl
  obtain ⟨chain, hok⟩ := ho.ok
  rw [wp_onTable]
  refine wp_mono (hm table chain ho hok) ?_ ?_
  · rintro a t ⟨pages', chain', hc, hr⟩
    obtain ⟨bytes', hw, hhdr, hpages⟩ := ho.wrote hs hc
    exact ⟨bytes', t, pages', hw, hhdr, hpages, hr⟩
  · rintro e t ⟨pages', chain', hc, hf⟩
    obtain ⟨bytes', hw, hhdr, hpages⟩ := ho.wrote hs hc
    exact .inr ⟨bytes', t, pages', hw, hhdr, hpages, hf⟩

/-! ## Assignments -/

section Assignments

variable {table : String} {assignments : List Assignment} {plan : List NormalizedAssignment}
  {seen : List String}

/-- The assignments of a request as pairs. -/
def pairs (assignments : List Assignment) : List (String × Value) :=
  assignments.map fun a => (a.column, a.value)

theorem normalizeEach_eq_ok (h : normalizeEach table schema seen assignments = .ok plan) :
    (∀ a ∈ assignments, a.column ∉ seen) ∧ (assignments.map Assignment.column).Nodup ∧
      (plan.map fun a => (a.column, a.value)) = pairs assignments := by
  induction assignments generalizing seen plan with
  | nil =>
      cases h
      exact ⟨by simp, List.nodup_nil, rfl⟩
  | cons a rest ih =>
      simp only [normalizeEach, throw_bind, bind_eq_ok, throw_eq_ok, ite_eq_ok, pure_eq_ok,
        if_false_left] at h
      obtain ⟨hseen, _, -, -, others, hrest, rfl⟩ := h
      obtain ⟨hfresh, hnodup, hpairs⟩ := ih hrest
      refine ⟨List.forall_mem_cons.mpr
        ⟨hseen, fun b hb hm => hfresh b hb (List.mem_cons_of_mem _ hm)⟩, ?_, ?_⟩
      · refine List.nodup_cons.mpr ⟨fun hm => ?_, hnodup⟩
        obtain ⟨b, hb, he⟩ := List.mem_map.mp hm
        exact hfresh b hb (he ▸ List.mem_cons_self)
      · rw [List.map_cons, hpairs]
        rfl

theorem resolveUpdatePlan_eq_ok {request : UpdateRequest}
    (h : resolveUpdatePlan table schema request = .ok plan) :
    (request.assignments.map Assignment.column).Nodup ∧
      (plan.map fun a => (a.column, a.value)) = pairs request.assignments := by
  simp only [resolveUpdatePlan, normalizeAssignments, bind_eq_ok, ite_eq_ok, throw_eq_ok,
    if_false_left] at h
  obtain ⟨_, -, -, h⟩ := h
  exact (normalizeEach_eq_ok h).2

/-- Where no column is assigned twice, the last assignment is the only one. -/
theorem lastAssigned_pairs (h : (assignments.map Assignment.column).Nodup) (column : String) :
    lastAssigned (pairs assignments) column = assigned assignments column := by
  induction assignments with
  | nil => rfl
  | cons a rest ih =>
      obtain ⟨hfresh, hnodup⟩ := List.nodup_cons.mp h
      unfold pairs assigned at ih ⊢
      rw [List.map_cons, lastAssigned_cons, ih hnodup, List.find?_cons]
      by_cases he : a.column = column
      · have hnone : (rest.find? fun b => b.column = column) = none := by
          refine List.find?_eq_none.mpr fun b hb hc => hfresh ?_
          rw [he, ← of_decide_eq_true hc]
          exact List.mem_map_of_mem hb
        simp [he, hnone]
      · simp [he]

theorem zipWith_stored {columns : List LayoutColumn} {values values' : List Value}
    {pairs : List (String × Value)}
    (h : List.Forall₂ (Cell before) columns values) (h' : List.Forall₂ (Cell after) columns values')
    (hlen : after.length = before.length)
    (ha : ∀ column ∈ columns, ∀ value, lastAssigned pairs column.name = some value →
      Cell after column value)
    (hk : ∀ column ∈ columns, lastAssigned pairs column.name = none →
      slice after column.offset column.columnType.fixedLen =
        slice before column.offset column.columnType.fixedLen) :
    values'.map Value.stored =
      List.zipWith (fun column value =>
          ((lastAssigned pairs column.name).map Value.stored).getD value) columns
        (values.map Value.stored) := by
  induction h generalizing values' with
  | nil =>
      cases h'
      rfl
  | @cons column value columns values hcell _ ih =>
      cases h' with
      | @cons _ value' _ values' hcell' hrest' =>
          obtain ⟨hassign, hassigns⟩ := List.forall_mem_cons.mp ha
          obtain ⟨hkeep, hkeeps⟩ := List.forall_mem_cons.mp hk
          rw [List.map_cons, List.map_cons, List.zipWith_cons_cons, ih hrest' hassigns hkeeps]
          congr 1
          cases hl : lastAssigned pairs column.name with
          | some given => exact Except.ok.inj (hcell'.decode.symm.trans (hassign given hl).decode)
          | none =>
              have hsame : Cell after column value :=
                ⟨hlen ▸ hcell.inside, hcell.accepts, (hkeep hl).trans hcell.bytes_eq⟩
              exact Except.ok.inj (hcell'.decode.symm.trans hsame.decode)

/-- The row that is read back after an update. -/
theorem rowOf_assigns {values values' : List Value} (hc : compileSchema schema = .ok layout)
    (he : Encodes layout before values) (he' : Encodes layout after values')
    (hn : (assignments.map Assignment.column).Nodup)
    (ha : Assigns layout (pairs assignments) before after) :
    rowOf layout after = assignRow schema assignments (rowOf layout before) := by
  rw [he.rowOf_eq, he'.rowOf_eq, zipWith_stored he.cells he'.cells ha.length ha.assigned
    ha.kept, assignRow]
  congr 1
  have hnames :
      ∀ {γ : Type} (f : String → Value → Value) (g : γ → String) (l : List γ) (vs : List Value),
      List.zipWith (fun c v => f (g c) v) l vs = List.zipWith f (l.map g) vs := fun f g l vs => by
    rw [List.zipWith_map_left]
  simp only [lastAssigned_pairs hn]
  rw [hnames (fun n v => ((assigned assignments n).map Value.stored).getD v) LayoutColumn.name,
    hnames (fun n v => ((assigned assignments n).map Value.stored).getD v) ColumnSchema.name,
      (compileSchema_laid hc).names]

end Assignments

/-! ## Rows that are written -/

section Writes

variable {m : TableM DiskPageIo defaultBufferCapacity α} {filter : Option Expr}
  {assignments : List (String × Value)}

/-- The file of a table holds the pages that a method has left. -/
theorem liveRecords_eq {table : DiskTable} {pages : Nat → PageData}
    (hhdr : fileHeader bytes = table.file.header)
    (hpages : ∀ p, table.file.header.HasPage p → filePages bytes p = pages p) :
    liveRecords bytes = lookup table.file.header pages := by
  unfold liveRecords
  rw [hhdr]
  exact lookup_congr hpages

/-- The rows of a table were written, or they are what they were. -/
def SameTable (s t : Database) (name : String) (schema : TableSchema) (layout : SchemaLayout)
    (bytes : List UInt8) : Prop :=
  ∃ bytes', Wrote s t name schema layout bytes' ∧ SameRows bytes bytes'

theorem insert_writes (hq : s.root.faults = []) (hs : Stored s name schema layout bytes)
    (values : List Value) :
    wp (Database.withTable name (Session.onTable (Table.insert values)))
      (fun rid t => ∃ bytes' data, Wrote s t name schema layout bytes' ∧
        Encodes layout data values ∧
        liveRecords bytes rid = none ∧
          liveRecords bytes' = update (liveRecords bytes) rid (some data))
      (fun _ t => SameTable s t name schema layout bytes) s := by
  refine wp_mono (withTable_leaves hq hs
    (R := fun rid t pages' => ∃ data, Encodes layout data values ∧ liveRecords bytes rid = none ∧
      lookup t.file.header pages' = update (liveRecords bytes) rid (some data))
    (F := fun t pages' => t.file.header = fileHeader bytes ∧ pages' = filePages bytes)
      fun table chain ho hok => ?_) ?_ ?_
  · refine wp_mono (Table.insert_spec hok values) ?_ ?_
    · rintro rid t ⟨pages', chain', data, hc, henc, hnone, hl, -⟩
      rw [ho.header] at hnone hl
      exact ⟨pages', chain', hc, data, ho.layout ▸ henc, hnone, hl⟩
    · intro _ t hu
      exact ⟨_, chain, hu.continues hok, hu.file.header.trans ho.header, rfl⟩
  · rintro rid t ⟨bytes', table, pages', hw, hhdr, hpages, data, henc, hnone, hl⟩
    exact ⟨bytes', data, hw, henc, hnone, (liveRecords_eq hhdr hpages).trans hl⟩
  · rintro _ t (rfl | ⟨bytes', table, pages', hw, hhdr, hpages, hsame, rfl⟩)
    · exact ⟨bytes, Wrote.same hs, .refl bytes⟩
    · exact ⟨bytes', hw, hhdr.trans hsame, fun p hp => hpages p (hsame ▸ hp)⟩

/-- A row that an update selects has the assigned values, every other one is as before. -/
def UpdatedRows (schema : TableSchema) (layout : SchemaLayout) (filter : Option Expr)
    (assignments : List (String × Value)) (live live' : Rid → Option (List UInt8)) : Prop :=
  ∀ rid, match live rid with
    | none => live' rid = none
    | some before =>
        if wanted schema layout filter before then
          ∃ after, live' rid = some after ∧ Assigns layout assignments before after
        else live' rid = some before

theorem updateWhere_writes (hq : s.root.faults = []) (hs : Stored s name schema layout bytes)
    (filter : Option Expr) (assignments : List (String × Value)) :
    wp (Database.withTable name (Session.onTable (Table.updateWhere filter assignments)))
      (fun n t => ∃ bytes', Wrote s t name schema layout bytes' ∧
        n = (matchingRecords schema layout filter bytes).length ∧
        UpdatedRows schema layout filter assignments (liveRecords bytes) (liveRecords bytes'))
      (fun _ t => SameTable s t name schema layout bytes) s := by
  refine wp_mono (withTable_leaves hq hs
    (R := fun n t pages' => n = (matchingRecords schema layout filter bytes).length ∧
      UpdatedRows schema layout filter assignments (liveRecords bytes)
        (lookup t.file.header pages'))
    (F := fun t pages' => t.file.header = fileHeader bytes ∧ pages' = filePages bytes)
      fun table chain ho hok => ?_) ?_ ?_
  · refine wp_mono (updateWhere_exact hok filter assignments) ?_ ?_
    · rintro n t ⟨-, -, rfl, pages', hu⟩
      have hentry := hu.entry
      rw [ho.schema, ho.layout, ho.header] at hentry
      refine ⟨pages', chain, hu.continues, ?_, hentry⟩
      rw [selected, ho.schema, ho.layout, ho.header]
      rfl
    · rintro _ t ⟨hu, -⟩
      exact ⟨_, chain, hu.continues hok, hu.file.header.trans ho.header, rfl⟩
  · rintro n t ⟨bytes', table, pages', hw, hhdr, hpages, hn, hrows⟩
    exact ⟨bytes', hw, hn, liveRecords_eq hhdr hpages ▸ hrows⟩
  · rintro _ t (rfl | ⟨bytes', table, pages', hw, hhdr, hpages, hsame, rfl⟩)
    · exact ⟨bytes, Wrote.same hs, .refl bytes⟩
    · exact ⟨bytes', hw, hhdr.trans hsame, fun p hp => hpages p (hsame ▸ hp)⟩

theorem deleteWhere_writes (hq : s.root.faults = []) (hs : Stored s name schema layout bytes)
    (filter : Option Expr) :
    wp (Database.withTable name (Session.onTable (Table.deleteWhere filter)))
      (fun n t => ∃ bytes', Wrote s t name schema layout bytes' ∧
        n = (matchingRecords schema layout filter bytes).length ∧
        ∀ rid, liveRecords bytes' rid = (liveRecords bytes rid).filter fun before =>
          !wanted schema layout filter before)
      (fun _ _ => True) s := by
  refine wp_mono (withTable_leaves hq hs
    (R := fun n t pages' => n = (matchingRecords schema layout filter bytes).length ∧
      ∀ rid, lookup t.file.header pages' rid =
        (liveRecords bytes rid).filter fun before => !wanted schema layout filter before)
    (F := fun _ _ => True) fun table chain ho hok => ?_) ?_ fun _ _ _ => trivial
  · refine wp_mono (deleteWhere_exact hok filter (isFull_eq hok)) ?_ ?_
    · rintro n t ⟨-, -, -, rfl, pages', chain', hr⟩
      have hentry := hr.entry
      rw [ho.schema, ho.layout, ho.header] at hentry
      refine ⟨pages', chain', hr.continues, ?_, hentry⟩
      rw [selected, ho.schema, ho.layout, ho.header]
      rfl
    · rintro _ t (⟨hu, -⟩ | ⟨-, pages', chain', hc⟩)
      · exact ⟨_, chain, hu.continues hok, trivial⟩
      · exact ⟨pages', chain', hc, trivial⟩
  · rintro n t ⟨bytes', table, pages', hw, hhdr, hpages, hn, hrows⟩
    exact ⟨bytes', hw, hn, liveRecords_eq hhdr hpages ▸ hrows⟩

end Writes

/-! ## Requests -/

section Requests

variable {m : TableM DiskPageIo defaultBufferCapacity α}
  {R : α → (Rid → Option (List UInt8)) → Prop}

/-- The end of a request that writes: the rows that the method has left are those of the
relation. -/
theorem write_storeOf (h : Good s) (hs : Stored s name schema layout bytes)
    (hm : wp (Database.withTable name (Session.onTable m))
      (fun a t => ∃ bytes', Wrote s t name schema layout bytes' ∧ R a (liveRecords bytes'))
      (fun _ _ => True) s) :
    wp (do
      let a ← QueryEngine.liftDatabase (Database.withTable name (Session.onTable m))
      QueryEngine.liftDatabase (Database.rebuildIndexesForTable name)
      return a)
      (fun a t => ∃ bytes', RowsIn bytes' layout ∧ R a (liveRecords bytes') ∧
        storeOf t = (storeOf s).put name (.ofRecords schema layout (liveRecords bytes')))
      (fun _ _ => True) s := by
  simp only [wp_bind, wp_liftDatabase, wp_pure]
  refine wp_mono hm ?_ fun _ _ => id
  rintro a u ⟨bytes', hw, hr⟩
  have hsound := hw.sound hs h.sound
  refine wp_mono (rebuildIndexesForTable_spec hsound (hw.faults.trans h.faults) hw.stored) ?_
    fun _ _ _ => trivial
  rintro _ t ⟨-, hb, -⟩
  have htable : ∀ name', t.root.files (tablePath name') = u.root.files (tablePath name') :=
    fun name' => hb.kept _ fun m _ => by simp
  refine ⟨bytes', hw.stored.rows, hr, storeOf_put ?_ (fun name' hne => ?_)
    (hb.indexes.trans hw.catalogs.2)⟩
  · exact relationOf_stored (hw.stored.congr (by rw [hb.catalog]) (htable name))
  · refine relationOf_congr (by rw [hb.catalog, hw.catalogs.1]) ((htable name').trans (hw.files ?_))
    simpa using hne

theorem ofSchema_of_types (h : validateRowTypes name schema values = .ok ()) :
    OfSchema schema ⟨values⟩ := by
  obtain ⟨hlen, htypes⟩ := validateRowTypes_eq_ok.mp h
  exact List.forall₂_iff_zip.mpr ⟨hlen.symm, fun hm => htypes _ hm⟩

theorem normalizeInsertInput_gives {input : InsertInput} (hc : compileSchema schema = .ok layout)
    (h : normalizeInsertInput name schema input = .ok values) :
    input.Gives schema values ∧ OfSchema schema ⟨values⟩ := by
  cases input with
  | fullRow given =>
      simp only [normalizeInsertInput, bind_eq_ok, pure_eq_ok] at h
      obtain ⟨_, ht, rfl⟩ := h
      exact ⟨rfl, ofSchema_of_types ht⟩
  | named entries =>
      have hnd := (compileSchema_laid hc).nodup
      rw [(compileSchema_laid hc).names] at hnd
      obtain ⟨ht, hperm⟩ := (normalizeNamedInsert_eq_ok hnd).mp h
      exact ⟨hperm, ofSchema_of_types ht⟩

theorem insert_effect (h : Good s) (request : ExtendedInsertRequest) :
    wp (QueryEngine.executeInsert request)
        (fun rid t => ∃ relation values, (storeOf s).relations request.table = some relation ∧
        request.input.Gives relation.schema values ∧ OfSchema relation.schema ⟨values⟩ ∧
          relation.rows rid = none ∧
        storeOf t = (storeOf s).put request.table (relation.insert rid values))
          (fun _ _ => True) s := by
  unfold QueryEngine.executeInsert
  rw [wp_bind]
  refine wp_loadSchema (fun schema hfind => ?_) fun _ => trivial
  obtain ⟨layout, bytes, hs⟩ := h.sound.tables request.table schema hfind
  rw [wp_bind]
  refine wp_check.mpr ⟨fun values hv => ?_, fun _ _ => trivial⟩
  obtain ⟨hgives, hof⟩ := normalizeInsertInput_gives hs.compiled hv
  have hw :=
    write_storeOf h hs (R := fun rid live => ∃ data, Encodes layout data values ∧
      liveRecords bytes rid = none ∧
    live = update (liveRecords bytes) rid (some data)) (m := Table.insert values) (by
      refine wp_mono (insert_writes h.faults hs values) ?_ fun _ _ _ => trivial
      rintro rid t ⟨bytes', data, hw, henc, hnone, hl⟩
      exact ⟨bytes', hw, data, henc, hnone, hl⟩)
  refine wp_mono hw ?_ fun _ _ => id
  rintro rid t ⟨bytes', -, ⟨data, henc, hnone, hl⟩, hst⟩
  refine ⟨_, values, relationOf_stored hs, hgives, hof, ?_, ?_⟩
  · show (liveRecords bytes rid).map (rowOf layout) = none
    rw [hnone]
    rfl
  · rw [hst, hl]
    unfold Relation.insert Relation.ofRecords
    congr 2
    funext rid'
    rcases eq_or_ne rid' rid with rfl | hne
    · rw [update_self, update_self, Option.map_some, henc.rowOf_eq]
    · rw [update_of_ne hne, update_of_ne hne]

/-- The rows that an update leaves. -/
theorem update_rows (hc : compileSchema schema = .ok layout) {filter : Option Expr}
    {assignments : List Assignment} {live live' : Rid → Option (List UInt8)}
    (hn : (assignments.map Assignment.column).Nodup)
    (he : ∀ rid data, live rid = some data → ∃ values, Encodes layout data values)
    (he' : ∀ rid data, live' rid = some data → ∃ values, Encodes layout data values)
    (hu : UpdatedRows schema layout filter (pairs assignments) live live') :
    Relation.ofRecords schema layout live' = (Relation.ofRecords schema layout live).updateWhere
      filter assignments := by
  unfold Relation.updateWhere Relation.ofRecords
  congr 1
  funext rid
  have hrid := hu rid
  cases hl : live rid with
  | none =>
      rw [hl] at hrid
      simp only [hl, show live' rid = none from hrid, Option.map_none]
  | some before =>
      rw [hl] at hrid
      have hwants : (Relation.ofRecords schema layout live).wants filter (rowOf layout before) =
        wanted schema layout filter before := rfl
      simp only [Relation.ofRecords] at hwants
      simp only [hl, Option.map_some, hwants]
      cases hq : wanted schema layout filter before with
      | false =>
          simp only [hq] at hrid
          rw [show live' rid = some before from hrid]
          simp
      | true =>
          simp only [hq, if_true] at hrid
          obtain ⟨after, hafter, hassigns⟩ := hrid
          obtain ⟨values, henc⟩ := he rid before hl
          obtain ⟨values', henc'⟩ := he' rid after hafter
          rw [hafter, Option.map_some, rowOf_assigns hc henc henc' hn hassigns]
          simp

theorem counts_matching (filter : Option Expr) :
    (Relation.ofRecords schema layout (liveRecords bytes)).Counts filter
      (matchingRecords schema layout filter bytes).length := by
  refine ⟨(matchingRecords schema layout filter bytes).map Record.rid, nodup_rids_matching,
    List.length_map _, fun rid => ?_⟩
  rw [List.mem_map]
  constructor
  · rintro ⟨r, hr, rfl⟩
    obtain ⟨hl, hw⟩ := mem_matching.mp hr
    exact ⟨rowOf layout r.data, Option.map_eq_some_iff.mpr ⟨r.data, hl, rfl⟩, hw⟩
  · rintro ⟨row, hl, hw⟩
    obtain ⟨data, hdata, rfl⟩ := Option.map_eq_some_iff.mp hl
    exact ⟨⟨rid, data⟩, mem_matching.mpr ⟨hdata, hw⟩, rfl⟩

theorem update_effect (h : Good s) (request : UpdateRequest) :
    wp (QueryEngine.executeUpdate request)
        (fun n t => ∃ relation, (storeOf s).relations request.table = some relation ∧
        relation.Counts request.filter n ∧
        storeOf t = (storeOf s).put request.table
          (relation.updateWhere request.filter request.assignments))
      (fun _ _ => True) s := by
  unfold QueryEngine.executeUpdate
  rw [wp_bind]
  refine wp_loadSchema (fun schema hfind => ?_) fun _ => trivial
  obtain ⟨layout, bytes, hs⟩ := h.sound.tables request.table schema hfind
  rw [wp_bind]
  refine wp_check.mpr ⟨fun plan hp => ?_, fun _ _ => trivial⟩
  obtain ⟨hn, hpairs⟩ := resolveUpdatePlan_eq_ok hp
  rw [hpairs]
  have hw :=
    write_storeOf h hs (R :=
      fun n live => n = (matchingRecords schema layout request.filter bytes).length ∧
    UpdatedRows schema layout request.filter (pairs request.assignments) (liveRecords bytes) live)
    (m := Table.updateWhere request.filter (pairs request.assignments)) (by
      refine wp_mono (updateWhere_writes h.faults hs request.filter (pairs request.assignments)) ?_
        fun _ _ _ => trivial
      rintro n t ⟨bytes', hw, hn, hrows⟩
      exact ⟨bytes', hw, hn, hrows⟩)
  refine wp_mono hw ?_ fun _ _ => id
  rintro n t ⟨bytes', hrows, ⟨rfl, hu⟩, hst⟩
  have hrel : Relation.ofRecords schema layout (liveRecords bytes') = _ :=
    update_rows hs.compiled hn hs.rows.encoded hrows.encoded hu
  exact ⟨_, relationOf_stored hs, counts_matching _, hst.trans (congrArg _ hrel)⟩

theorem delete_rows {filter : Option Expr} {live live' : Rid → Option (List UInt8)}
    (hd : ∀ rid, live' rid = (live rid).filter fun before => !wanted schema layout filter before) :
    Relation.ofRecords schema layout live' =
      (Relation.ofRecords schema layout live).deleteWhere filter := by
  unfold Relation.deleteWhere Relation.ofRecords
  congr 1
  funext rid
  rw [hd rid, Option.filter_map]
  rfl

theorem delete_effect (h : Good s) (request : DeleteRequest) :
    wp (QueryEngine.executeDelete request)
        (fun n t => ∃ relation, (storeOf s).relations request.table = some relation ∧
        relation.Counts request.filter n ∧
        storeOf t = (storeOf s).put request.table (relation.deleteWhere request.filter))
          (fun _ _ => True) s := by
  unfold QueryEngine.executeDelete
  rw [wp_bind]
  refine wp_loadSchema (fun schema hfind => ?_) fun _ => trivial
  obtain ⟨layout, bytes, hs⟩ := h.sound.tables request.table schema hfind
  rw [wp_bind]
  refine wp_check.mpr ⟨fun _ _ => ?_, fun _ _ => trivial⟩
  have hw :=
    write_storeOf h hs (R :=
      fun n live => n = (matchingRecords schema layout request.filter bytes).length ∧
        ∀ rid, live rid =
    (liveRecords bytes rid).filter fun before => !wanted schema layout request.filter before)
    (m := Table.deleteWhere request.filter) (by
      refine wp_mono (deleteWhere_writes h.faults hs request.filter) ?_ fun _ _ _ => trivial
      rintro n t ⟨bytes', hw, hn, hrows⟩
      exact ⟨bytes', hw, hn, hrows⟩)
  refine wp_mono hw ?_ fun _ _ => id
  rintro n t ⟨bytes', -, ⟨rfl, hrows⟩, hst⟩
  exact ⟨_, relationOf_stored hs, counts_matching _, hst.trans (congrArg _ (delete_rows hrows))⟩

/-! ## Requests that read, and changes of the schema -/

/-- What holds anyway holds after a return. -/
theorem wp_of_fact {ε σ : Type} {m : EStateM ε σ α} {P : Prop} {s : σ} (hp : P) :
    wp m (fun _ _ => P) (fun _ _ => True) s :=
  wp_mono (wp_true m s) (fun _ _ _ => hp) fun _ _ _ => trivial

theorem select_listed (h : Good s) (request : ExtendedSelectRequest) :
    wp (QueryEngine.executeSelect request)
      (fun _ _ => ∃ relation, (storeOf s).relations request.table = some relation)
      (fun _ _ => True) s := by
  unfold QueryEngine.executeSelect
  rw [wp_bind]
  exact wp_loadSchema (fun schema hfind => wp_of_fact (h.exists_relation hfind)) fun _ => trivial

theorem describeTable_listed (h : Good s) (table : String) :
    wp (QueryEngine.describeTable table)
      (fun _ _ => ∃ relation, (storeOf s).relations table = some relation)
      (fun _ _ => True) s := by
  unfold QueryEngine.describeTable
  rw [wp_bind, wp_get, wp_bind]
  refine wp_check.mpr ⟨fun relation hr => wp_of_fact ?_, fun _ _ => trivial⟩
  simp only [mapError_eq_ok, Catalog.getRelation, bind_eq_ok] at hr
  obtain ⟨schema, hfind, -⟩ := hr
  exact h.exists_relation (getTableSchema_eq_ok.mp hfind)

theorem createIndex_effect (h : Good s) (request : CreateIndexRequest) :
    wp (QueryEngine.executeCreateIndex request)
      (fun _ t => Effect (storeOf s) (.createIndex request) (storeOf t))
      (fun _ _ => True) s := by
  unfold QueryEngine.executeCreateIndex
  rw [wp_bind]
  refine wp_loadSchema (fun schema hfind => ?_) fun _ => trivial
  split
  next column hcolumn =>
    simp only [wp_bind, wp_ite, wp_throw, wp_mapError, wp_pure]
    split
    next => trivial
    next hint =>
      refine wp_mono (createIndex_spec h.sound h.faults request.name request.table request.column)
        ?_ fun _ _ _ => trivial
      rintro m t ⟨schema', layout, bytes, hi, hnew, -, rfl, rfl⟩
      obtain rfl := Option.some.inj (hfind.symm.trans hi.stored.listed)
      rw [storeOf_putIndex, storeOf_addIndex]
      refine .createIndex (relationOf_stored hi.stored) ?_ ?_
      · have hname : column.name = request.column := by simpa using List.find?_some hcolumn
        rw [← hname, ← not_not.mp hint]
        exact List.mem_of_find?_eq_some hcolumn
      · cases hf : s.indexes.indexes.find request.name with
        | none => exact hf
        | some m =>
            have hyes : s.indexes.contains request.name = true := SortedMap.contains_iff.mpr ⟨m, hf⟩
            rw [hnew] at hyes
            cases hyes
  next => trivial

/-- A request that succeeds changes the abstract store as its effect says. -/
theorem Request.effect (h : Good s) (request : Request) :
    wp request.run (fun _ t => Effect (storeOf s) request (storeOf t)) (fun _ _ => True) s := by
  cases request with
  | createTable request =>
      unfold Request.run QueryEngine.executeCreateTable
      rw [wp_liftDatabase]
      refine wp_mono (createTable_spec h.faults request.schema) ?_ fun _ _ _ => trivial
      rintro _ _ ⟨layout, bytes, hc, he, rfl⟩
      rw [storeOf_addTable hc he]
      exact .createTable (relationOf_unlisted hc.unlisted)
  | dropTable request =>
      unfold Request.run QueryEngine.executeDropTable
      rw [wp_mapError]
      refine wp_mono (dropTable_spec h.sound h.faults request.table) ?_ fun _ _ _ => trivial
      rintro _ _ ⟨hlisted, rfl⟩
      obtain ⟨schema, hfind⟩ := SortedMap.contains_iff.mp hlisted
      obtain ⟨relation, hr⟩ := h.exists_relation hfind
      rw [storeOf_removeTable h.sound]
      exact .dropTable hr
  | createIndex request => exact createIndex_effect h request
  | dropIndex request =>
      unfold Request.run QueryEngine.executeDropIndex
      rw [wp_mapError]
      refine wp_mono (dropIndex_spec h.sound h.faults request.name) ?_ fun _ _ _ => trivial
      rintro _ _ ⟨hlisted, rfl⟩
      obtain ⟨m, hfind⟩ := SortedMap.contains_iff.mp hlisted
      rw [storeOf_removeIndexFile]
      exact .dropIndex hfind
  | insert request =>
      unfold Request.run
      rw [wp_bind]
      refine wp_mono (insert_effect h request) ?_ fun _ _ _ => trivial
      rintro rid t ⟨relation, values, hr, hgives, hof, hnew, hst⟩
      rw [wp_pure, hst]
      exact .insert hr hgives hof hnew
  | update request =>
      unfold Request.run
      rw [wp_bind]
      refine wp_mono (update_effect h request) ?_ fun _ _ _ => trivial
      rintro _ t ⟨relation, hr, -, hst⟩
      rw [wp_pure, hst]
      exact .update hr
  | delete request =>
      unfold Request.run
      rw [wp_bind]
      refine wp_mono (delete_effect h request) ?_ fun _ _ _ => trivial
      rintro _ t ⟨relation, hr, -, hst⟩
      rw [wp_pure, hst]
      exact .delete hr
  | select request =>
      unfold Request.run
      rw [wp_bind]
      refine wp_mono (wp_and (select_reads h request) (select_listed h request)) ?_
        fun _ _ _ => trivial
      rintro _ _ ⟨rfl, relation, hr⟩
      exact .select hr
  | showTables => exact .showTables
  | showIndexes => exact .showIndexes
  | describeTable table =>
      unfold Request.run
      rw [wp_bind]
      refine wp_mono (wp_and (describeTable_reads table s) (describeTable_listed h table)) ?_
        fun _ _ _ => trivial
      rintro _ _ ⟨rfl, relation, hr⟩
      exact .describeTable hr
  | reopen =>
      refine wp_mono (reopen_reads h) ?_ fun _ _ _ => trivial
      rintro _ _ rfl
      exact .reopen

end Requests

/-! ## Answers -/

section Answers

variable {request : ExtendedSelectRequest} {records picked : List Record}
  {result : ProjectedSelectResult}

/-- The rows of the records. -/
def idRow (layout : SchemaLayout) (r : Record) : Rid × Row := (r.rid, rowOf layout r.data)

/-- An answer in terms of the records is one in terms of the rows. -/
theorem IsAnswer.answers
    (h : IsAnswer schema layout (liveRecords bytes) request records picked result) :
    Answers (.ofRecords schema layout (liveRecords bytes)) request (records.map (idRow layout))
      (picked.map (idRow layout)) result := by
  have hinj : ∀ a ∈ records, ∀ b ∈ records, idRow layout a = idRow layout b → a = b := by
    intro a ha b hb he
    have hrid : a.rid = b.rid := congrArg Prod.fst he
    have hdata := ((h.mem_iff a).mp ha).1
    rw [hrid, ((h.mem_iff b).mp hb).1] at hdata
    cases a
    cases b
    cases hrid
    cases hdata
    rfl
  refine ⟨List.pairwise_map.mpr h.inOrder, fun item => ?_, ?_, h.schema_eq, h.columns_eq, ?_⟩
  · rw [List.mem_map]
    constructor
    · rintro ⟨r, hr, rfl⟩
      obtain ⟨hl, hw⟩ := (h.mem_iff r).mp hr
      refine ⟨?_, hw⟩
      show (liveRecords bytes r.rid).map (rowOf layout) = _
      rw [hl]
      rfl
    · rintro ⟨hl, hw⟩
      obtain ⟨rid, row⟩ := item
      obtain ⟨data, hdata, rfl⟩ := Option.map_eq_some_iff.mp hl
      exact ⟨⟨rid, data⟩, (h.mem_iff _).mpr ⟨hdata, hw⟩, rfl⟩
  · exact h.selected.map hinj (fun _ _ => rfl) fun _ _ => id
  · rw [h.rows_eq, List.map_map]
    rfl

theorem scanSelect_answers (hs : Stored s request.table schema layout bytes) :
    wp (scanSelect request)
      (fun result _ => ∃ picked, IsAnswer schema layout (liveRecords bytes) request
        (matchingRecords schema layout request.filter bytes) picked result)
          (fun _ _ => True) s := by
  unfold scanSelect
  rw [wp_bind]
  refine wp_loadSchema (fun schema' hfind => ?_) fun _ => trivial
  obtain rfl : schema' = schema := Option.some.inj (hfind.symm.trans hs.listed)
  rw [wp_bind]
  refine wp_check.mpr ⟨fun _ _ => ?_, fun _ _ => trivial⟩
  rw [wp_bind]
  refine wp_check.mpr ⟨fun plan hplan => ?_, fun _ _ => trivial⟩
  unfold QueryEngine.selectRows
  rw [wp_bind, wp_liftDatabase]
  refine wp_mono (fetchRows_returns hs request.filter) ?_ fun _ _ _ => trivial
  rintro rows t rfl
  exact wp_mono (finish_spec hs hplan t) (fun _ _ h => h.2) fun _ _ => False.elim

/-- Where the indexes are up to date, a selection is answered by the rows whichever way they are
found. -/
theorem select_answers (h : Good s) (hfresh : Fresh s) (request : ExtendedSelectRequest) :
    wp (QueryEngine.executeSelect request)
      (fun result t => t = s ∧ ∃ relation rows picked,
        (storeOf s).relations request.table = some relation ∧
        Answers relation request rows picked result) (fun _ _ => True) s := by
  cases hlisted : s.catalog.tables.find request.table with
  | none =>
      unfold QueryEngine.executeSelect
      rw [wp_bind]
      refine wp_loadSchema (fun schema hfind => ?_) fun _ => trivial
      rw [hlisted] at hfind
      cases hfind
  | some schema =>
      obtain ⟨layout, bytes, hs⟩ := h.sound.tables request.table schema hlisted
      have hanswer : wp (QueryEngine.executeSelect request)
          (fun result _ => ∃ picked, IsAnswer schema layout (liveRecords bytes) request
            (matchingRecords schema layout request.filter bytes) picked result)
              (fun _ _ => True) s := by
        cases hl : resolveIndexLookup request.table request.filter s with
        | none => exact executeSelect_answers hs hl
        | some plan =>
            unfold resolveIndexLookup at hl
            split at hl
            next column key hfilter =>
              exact wp_congr (select_eq_scanSelect h hfresh hfilter) (scanSelect_answers hs)
            next => cases hl
      refine wp_mono (wp_and (select_reads h request) hanswer) ?_ fun _ _ _ => trivial
      rintro result _ ⟨rfl, picked, ha⟩
      exact ⟨rfl, _, _, _, relationOf_stored hs, ha.answers⟩

end Answers

/-! ## What the catalogs say -/

section Catalogs

variable {columns : List LayoutColumn} {schemas : List ColumnSchema} {start stop : Nat}

/-- Every column begins where those before it end. -/
theorem Tiles.columns_eq (h : Tiles start columns stop)
    (hn : columns.map LayoutColumn.name = schemas.map ColumnSchema.name)
    (ht : columns.map LayoutColumn.columnType = schemas.map ColumnSchema.columnType) :
    columns = schemas.mapIdx (fun i column => ⟨column.name, column.columnType,
        start + ((schemas.take i).map fun column => column.columnType.fixedLen).sum⟩) ∧
      stop = start + (schemas.map fun column => column.columnType.fixedLen).sum := by
  induction columns generalizing start schemas with
  | nil =>
      obtain rfl : schemas = [] := by
        have hlen := congrArg List.length hn
        exact List.length_eq_zero_iff.mp (by simpa using hlen.symm)
      exact ⟨rfl, by simpa [Tiles] using h.symm⟩
  | cons column rest ih =>
      cases schemas with
      | nil => simp at hn
      | cons first others =>
          simp only [List.map_cons, List.cons.injEq] at hn ht
          obtain ⟨hoffset, hrest⟩ := h
          obtain ⟨hcolumns, hstop⟩ := ih hrest hn.2 ht.2
          refine ⟨?_, ?_⟩
          · rw [List.mapIdx_cons, hcolumns]
            congr 1
            · cases column
              cases hn.1
              cases ht.1
              simpa using hoffset
            · simp [ht.1, Nat.add_assoc]
          · rw [hstop, ht.1, List.map_cons, List.sum_cons, Nat.add_assoc]

theorem getAttributes_describes (hfind : s.catalog.tables.find name = some schema)
    (hname : schema.name = name) (hc : compileSchema schema = .ok layout) :
    ∃ relation attributes, s.catalog.getRelation name = .ok relation ∧
      s.catalog.getAttributes name = .ok attributes ∧
      Describes name schema ⟨relation, attributes⟩ := by
  have hlaid := compileSchema_laid hc
  obtain ⟨hcolumns, hsize⟩ := Tiles.columns_eq hlaid.tiles hlaid.names hlaid.types
  have hschema := getTableSchema_eq_ok.mpr hfind
  refine ⟨_, _, ?_, ?_, rfl, rfl⟩
  · simp only [Catalog.getRelation, hschema, hc, bind, Except.bind, hname, hsize, Nat.zero_add]
    rfl
  · simp only [Catalog.getAttributes, hschema, hc, bind, Except.bind, hname, hcolumns, Nat.zero_add,
      List.mapIdx_mapIdx]
    rfl

/-- A table is described by its schema, if it is listed. -/
theorem describeTable_spec (h : Good s) (name : String) :
    wp (QueryEngine.describeTable name)
      (fun result t => t = s ∧ ∃ relation, (storeOf s).relations name = some relation ∧
        Describes name relation.schema result)
      (fun e t => t = s ∧ e = .error (.unknownTable name) ∧
        (storeOf s).relations name = none) s := by
  unfold QueryEngine.describeTable
  rw [wp_bind, wp_get]
  cases hfind : s.catalog.tables.find name with
  | none =>
      have hno : s.catalog.getTableSchema name = .error (.tableNotFound name) := by
        unfold Catalog.getTableSchema
        rw [hfind]
        rfl
      rw [wp_bind]
      refine wp_check.mpr ⟨fun relation hr => ?_, fun e he => ?_⟩
      · simp [Catalog.getRelation, hno] at hr
      · simp only [Catalog.getRelation, hno, bind, Except.bind, Except.mapError] at he
        cases he
        exact ⟨rfl, rfl, relationOf_unlisted hfind⟩
  | some schema =>
      obtain ⟨layout, bytes, hs⟩ := h.sound.tables name schema hfind
      obtain ⟨relation, attributes, hrel, hattr, hdesc⟩ :=
        getAttributes_describes hfind hs.named hs.compiled
      rw [wp_bind, hrel, wp_check]
      refine ⟨fun r hr => ?_, fun e he => by cases he⟩
      obtain rfl : relation = r := Except.ok.inj hr
      rw [wp_bind, wp_get, wp_bind, hattr, wp_check]
      refine ⟨fun a ha => ?_, fun e he => by cases he⟩
      obtain rfl : attributes = a := Except.ok.inj ha
      exact ⟨rfl, _, relationOf_stored hs, hdesc⟩

/-- The tables that are shown are the relations, in the order of their names. -/
theorem showTables_spec (h : Good s) :
    (s.catalog.listTables).Pairwise (fun a b => Text.compareText a b = .lt) ∧
      ∀ name, name ∈ s.catalog.listTables ↔ ∃ relation, (storeOf s).relations name =
        some relation := by
  refine ⟨List.pairwise_map.mpr s.catalog.tables.sorted, fun name => ?_⟩
  unfold Catalog.listTables SortedMap.keys
  rw [List.mem_map]
  constructor
  · rintro ⟨⟨_, schema⟩, hm, rfl⟩
    exact h.exists_relation (SortedMap.find_eq_some_iff.mpr hm)
  · rintro ⟨relation, hr⟩
    cases hfind : s.catalog.tables.find name with
    | none =>
        have hno : (storeOf s).relations name = none := relationOf_unlisted hfind
        rw [hr] at hno
        cases hno
    | some schema => exact ⟨(name, schema), SortedMap.find_eq_some_iff.mp hfind, rfl⟩

/-- The indexes that are shown, in the order of their names. -/
theorem showIndexes_spec (h : Good s) :
    (s.listIndexes).Pairwise (fun a b => Text.compareText a.name b.name = .lt) ∧
      ∀ m, m ∈ s.listIndexes ↔ (storeOf s).indexes m.name = some m := by
  have hname : ∀ entry ∈ s.indexes.indexes.entries, entry.2.name = entry.1 := fun entry hm =>
    (h.sound.indexes entry.1 entry.2 (SortedMap.find_eq_some_iff.mpr hm)).1
  refine ⟨List.pairwise_map.mpr (s.indexes.indexes.sorted.imp_of_mem fun {a b} ha hb hlt => ?_),
    fun m => ?_⟩
  · rw [hname a ha, hname b hb]
    exact hlt
  · constructor
    · intro hm
      obtain ⟨key, hfind⟩ := SortedMap.mem_values.mp hm
      obtain ⟨rfl, -⟩ := h.sound.indexes key m hfind
      exact hfind
    · exact fun hfind => SortedMap.mem_values.mpr ⟨m.name, hfind⟩

end Catalogs

end Redbase.Query
