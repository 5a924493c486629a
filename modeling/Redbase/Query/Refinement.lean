import Redbase.Query.Lemmas.Relational
import Redbase.Query.Theorems

/-!
# The engine is a store of relations

Between the requests of a client and the files there are records, pages, a pool and catalogs; what
the client sees of them are relations.
-/

namespace Redbase.Query

open Prog Record Table Index Database QueryEngine

variable {s t : Database} {requests : List Request}

/-- Requests that all succeed do to the relations what their words say, one after the other; and so
does one request that succeeds after any others. -/
theorem history_evolves (h : History requests s) :
    Evolves requests (storeOf s) ∧
      ∀ s t request, Reachable s → request.run s = .ok () t →
        Effect (storeOf s) request (storeOf t) := by
  have hstep : ∀ s t request, Reachable s → Request.run request s = .ok () t →
      Effect (storeOf s) request (storeOf t) :=
    fun s t request hs hr => (wp_ok hr (request.effect hs.good) :)
  refine ⟨?_, hstep⟩
  induction h with
  | start h =>
      obtain rfl := start_eq h
      exact .start
  | step hs hr ih => exact .step ih (hstep _ _ _ hs.served.reachable hr)

theorem history_evolves_row :
    ∃ requests s relation, Evolves requests (storeOf s) ∧
      (storeOf s).relations "t" = some relation ∧
      relation.rows ⟨1, 0⟩ = some ⟨[.int32 5, .char "x"]⟩ := by
  obtain ⟨s, bytes, data, hs, hcount, -, he⟩ := exists_indexed_row
  obtain ⟨requests, h⟩ := hs.served.history
  refine ⟨requests, s, _, (history_evolves h).1, relationOf_stored hs.stored, ?_⟩
  show (liveRecords bytes ⟨1, 0⟩).map (rowOf pagedLayout) = _
  rw [liveRecords, hs.row 1 ⟨le_rfl, hcount.ge⟩, Option.map_some,
    (encodeRow_encodes compileSchema_paged he).rowOf_eq]
  rfl

/-- A selection, by an index or by a scan, shows the rows of its relation that the request asks
for. -/
theorem select_shows {request : ExtendedSelectRequest} {result : ProjectedSelectResult}
    (h : Served s) (hr : executeSelect request s = .ok result t) :
    t = s ∧ ∃ relation rows picked, (storeOf s).relations request.table = some relation ∧
      Answers relation request rows picked result :=
  (wp_ok hr (select_answers h.reachable.good h.fresh request) :)

/-- A selection by the index of the table. -/
def byIndexRequest : ExtendedSelectRequest :=
  ⟨"t", some (.cmpValue "a" .eq (.int32 5)), .columns ["b"], [], none⟩

theorem select_shows_indexed :
    ∃ s result relation rows picked,
      (resolveIndexLookup "t" byIndexRequest.filter s).isSome = true ∧
      executeSelect byIndexRequest s = .ok result s ∧ (storeOf s).relations "t" = some relation ∧
      Answers relation byIndexRequest rows picked result := by
  obtain ⟨s, bytes, data, hs, -, hfind, -⟩ := exists_indexed_row
  have hlisted : s.catalog.tables.find byIndexRequest.table = some pagedSchema := hs.stored.listed
  have hplan : resolveSelectPlan byIndexRequest.table pagedSchema byIndexRequest =
      .ok ⟨⟨[⟨"b", .char 4000⟩], [1]⟩, [], none⟩ := by
    decide
  have hfilter : ¬ Rejected pagedLayout byIndexRequest.filter := by
    rintro ⟨expr, he, hno⟩
    cases he
    exact hno _ rfl (by decide)
  have hw : wp (scanSelect byIndexRequest) (fun _ _ => True) never s := by
    unfold scanSelect
    rw [wp_bind]
    refine wp_loadSchema (fun schema hfind => ?_) fun hnone => by rw [hlisted] at hnone; cases hnone
    obtain rfl := Option.some.inj (hlisted.symm.trans hfind)
    rw [wp_bind]
    refine wp_check.mpr ⟨fun _ _ => ?_, fun e he => by cases he⟩
    rw [wp_bind]
    refine wp_check.mpr ⟨fun plan hp => ?_, fun e he => by rw [hplan] at he; cases he⟩
    exact wp_mono (selectRows_succeeds hs.good.faults hs.stored hs.headersPass hfilter hp)
      (fun _ _ _ => trivial) fun _ _ => id
  obtain ⟨result, t, hr, -⟩ := exists_ok_of_wp hw
  rw [← select_eq_scanSelect hs.good hs.served.fresh rfl] at hr
  obtain ⟨rfl, relation, rows, picked, hlisted, hanswer⟩ := select_shows hs.served hr
  refine ⟨t, result, relation, rows, picked, ?_, hr, hlisted, hanswer⟩
  rw [byIndexRequest, resolveIndexLookup_eq, Option.isSome_map, Database.findIndex,
    List.find?_isSome]
  exact ⟨newIndex "i" "t" "a",
    List.mem_filter.mpr ⟨SortedMap.mem_values.mpr ⟨"i", hfind⟩, by decide⟩, by decide⟩

/-- The requests that write return the id of the new row, and the number of rows that they have
changed. -/
theorem writes_report (h : Reachable s) :
    (∀ request rid t, executeInsert request s = .ok rid t → ∃ relation values,
      (storeOf s).relations request.table = some relation ∧ relation.rows rid = none ∧
        request.input.Gives relation.schema values ∧
        (storeOf t).relations request.table = some (relation.insert rid values)) ∧
    (∀ request n t, executeUpdate request s = .ok n t → ∃ relation,
      (storeOf s).relations request.table = some relation ∧
      relation.Counts request.filter n ∧
      (storeOf t).relations request.table =
        some (relation.updateWhere request.filter request.assignments)) ∧
    ∀ request n t, executeDelete request s = .ok n t →
      ∃ relation, (storeOf s).relations request.table = some relation ∧
      relation.Counts request.filter n ∧
      (storeOf t).relations request.table = some (relation.deleteWhere request.filter) := by
  refine ⟨fun request rid t hr => ?_, fun request n t hr => ?_, fun request n t hr => ?_⟩
  · obtain ⟨relation, values, hlisted, hgives, -, hnew, hst⟩ :=
      wp_ok hr (insert_effect h.good request)
    refine ⟨relation, values, hlisted, hnew, hgives, ?_⟩
    rw [hst]
    exact Function.update_self ..
  · obtain ⟨relation, hlisted, hn, hst⟩ := wp_ok hr (update_effect h.good request)
    refine ⟨relation, hlisted, hn, ?_⟩
    rw [hst]
    exact Function.update_self ..
  · obtain ⟨relation, hlisted, hn, hst⟩ := wp_ok hr (delete_effect h.good request)
    refine ⟨relation, hlisted, hn, ?_⟩
    rw [hst]
    exact Function.update_self ..

theorem writes_report_row :
    ∃ s t rid relation values, executeInsert ⟨"t", .named [⟨"b", .char "y"⟩, ⟨"a", .int32 7⟩]⟩
      s = .ok rid t ∧ (storeOf s).relations "t" = some relation ∧ relation.rows rid = none ∧
      InsertInput.Gives relation.schema (.named [⟨"b", .char "y"⟩, ⟨"a", .int32 7⟩]) values ∧
      (storeOf t).relations "t" = some (relation.insert rid values) := by
  obtain ⟨s, bytes, data, hs, hcount, -⟩ := exists_indexed_row
  obtain ⟨row, he⟩ : ∃ row, encodeRow pagedLayout [.int32 7, .char "y"] = .ok row := ⟨_, rfl⟩
  have hv : normalizeInsertInput "t" pagedSchema (.named [⟨"b", .char "y"⟩, ⟨"a", .int32 7⟩]) =
      .ok [.int32 7, .char "y"] := rfl
  obtain ⟨rid, t, hr, -⟩ := exists_ok_of_wp (hs.wp_executeInsert hv he (by omega))
  obtain ⟨relation, values, hlisted, hnew, hgives, hafter⟩ :=
    (writes_report hs.served.reachable).1 _ rid t hr
  exact ⟨s, t, rid, relation, values, hr, hlisted, hnew, hgives, hafter⟩

/-- The catalogs show the relations and the indexes of the store, each once and in the order of
their names, and describe the columns of a relation as they lie in a record. -/
theorem catalogs_show (h : Reachable s) :
    (∃ tables, showTables s = .ok tables s ∧
      tables.Pairwise (fun a b => Text.compareText a b = .lt) ∧
      ∀ name, name ∈ tables ↔ ∃ relation, (storeOf s).relations name = some relation) ∧
    (∃ indexes, showIndexes s = .ok indexes s ∧
      indexes.Pairwise (fun a b => Text.compareText a.name b.name = .lt) ∧
      ∀ m, m ∈ indexes ↔ (storeOf s).indexes m.name = some m) ∧
    ∀ name, (∃ relation result, (storeOf s).relations name = some relation ∧
        describeTable name s = .ok result s ∧ Describes name relation.schema result) ∨
      (storeOf s).relations name = none ∧
        describeTable name s = .error (.error (.unknownTable name)) s := by
  have hgood := h.good
  refine ⟨⟨_, rfl, showTables_spec hgood⟩, ⟨_, rfl, showIndexes_spec hgood⟩, fun name => ?_⟩
  have hw := describeTable_spec hgood name
  cases hr : describeTable name s with
  | ok result t =>
      obtain ⟨rfl, relation, hlisted, hd⟩ := wp_ok hr hw
      exact .inl ⟨relation, result, hlisted, rfl, hd⟩
  | error e t =>
      obtain ⟨rfl, rfl, hno⟩ := wp_error hr hw
      exact .inr ⟨hno, rfl⟩

theorem catalogs_show_row :
    ∃ s relation result, (storeOf s).relations "t" = some relation ∧
      describeTable "t" s = .ok result s ∧ Describes "t" relation.schema result ∧
      ∃ indexes, showIndexes s = .ok indexes s ∧ newIndex "i" "t" "a" ∈ indexes := by
  obtain ⟨s, bytes, data, hs, -, hfind, -⟩ := exists_indexed_row
  obtain ⟨-, ⟨indexes, hr, -, hmem⟩, hdescribe⟩ := catalogs_show hs.served.reachable
  obtain ⟨relation, result, hlisted, hdescribed, hd⟩ | ⟨hnone, -⟩ := hdescribe "t"
  · exact ⟨s, relation, result, hlisted, hdescribed, hd, indexes, hr, (hmem _).mpr hfind⟩
  · cases (relationOf_stored hs.stored).symm.trans hnone

end Redbase.Query
