import Redbase.Query.Lemmas.Answer
import Redbase.Query.Lemmas.Filling
import Redbase.Query.Lemmas.Naming

/-!
# The query engine as a whole
-/

namespace Redbase.Query

open Prog Page Record Files Table Index Database QueryEngine

variable {s t : Database}

/-! ## Indexes -/

/-- The entries of an index are the rows of its table, each once. -/
theorem entriesOf_spec {name column : String} {schema : TableSchema} {layout : SchemaLayout}
    {bytes : List UInt8} (hs : Stored s name schema layout bytes)
    (hx : IndexedColumn layout column) :
    (sortEntries (entriesOf schema layout column bytes)).Nodup ∧
      ∀ entry, entry ∈ sortEntries (entriesOf schema layout column bytes) ↔
        ∃ data, liveRecords bytes entry.rid = some data ∧
          Row.field schema (rowOf layout data) column = some (.int32 entry.key) := by
  have hperm := sortEntries_perm (entriesOf schema layout column bytes)
  refine ⟨hperm.nodup_iff.mpr ?_, fun entry => ?_⟩
  · refine (List.Nodup.of_map IndexEntry.rid ?_)
    rw [entriesOf, List.map_map]
    exact nodup_rids_matching
  · rw [hperm.mem_iff, entriesOf, List.mem_map]
    constructor
    · rintro ⟨r, hr, rfl⟩
      have hl := (mem_matching.mp hr).1
      obtain ⟨values, he⟩ := hs.rows.encoded _ _ hl
      exact ⟨r.data, hl, he.field_int32 hs.compiled hx⟩
    · rintro ⟨data, hl, hfield⟩
      obtain ⟨values, he⟩ := hs.rows.encoded _ _ hl
      rw [he.field_int32 hs.compiled hx] at hfield
      refine ⟨⟨entry.rid, data⟩, mem_matching.mpr ⟨hl, rfl⟩, ?_⟩
      obtain ⟨key, rid⟩ := entry
      have hkey : keyOf schema layout column data = key := by simpa using hfield
      rw [entryOf, hkey]

/-- After requests that all succeeded, a select that is answered from an index gives what the scan
gives, and the file of every index lists the live records of its table, which is in the catalog. -/
theorem indexes_agree (h : Served s) :
    (∀ request column key, request.filter = some (.cmpValue column .eq (.int32 key)) →
      executeSelect request s = scanSelect request s) ∧
    ∀ m ∈ s.listIndexes, ∃ schema layout bytes entries,
      s.catalog.tables.find m.table = some schema ∧ compileSchema schema = .ok layout ∧
      s.root.files (tablePath m.table) = some bytes ∧
        loadIndexFile s.root m.name = .ok (m, entries) ∧ entries.Nodup ∧
      ∀ entry, entry ∈ entries ↔ ∃ data, liveRecords bytes entry.rid = some data ∧
        Row.field schema (rowOf layout data) m.column = some (.int32 entry.key) := by
  have hgood := h.reachable.good
  refine ⟨fun request column key hfilter => ?_, fun m hm => ?_⟩
  · exact select_eq_scanSelect hgood h.fresh hfilter
  · obtain ⟨key, hfind⟩ := SortedMap.mem_values.mp hm
    obtain ⟨rfl, hi⟩ := hgood.sound.indexes key m hfind
    obtain ⟨schema, layout, bytes, hs, hpass, hfile⟩ := h.fresh m.name m hfind
    obtain ⟨schema', layout', bytes', hs', hx⟩ := hi.table
    obtain ⟨rfl, rfl, rfl⟩ := hs'.unique hs
    have hload := loadIndexFile_content hi.storable (entriesOf_fits hs.rows) hfile
    exact ⟨schema, layout, bytes, _, hs.listed, hs.compiled, hs.file, hload, entriesOf_spec hs hx⟩

/-! ## A small database -/

/-- A table whose rows need a page each. -/
def pagedSchema : TableSchema := ⟨"t", [⟨"a", .int32⟩, ⟨"b", .char 4000⟩]⟩

def pagedLayout : SchemaLayout := ⟨[⟨"a", .int32, 0⟩, ⟨"b", .char 4000, 4⟩], 4004⟩

theorem compileSchema_paged : compileSchema pagedSchema = .ok pagedLayout := by rfl

theorem indexedColumn_paged : IndexedColumn pagedLayout "a" := ⟨⟨"a", .int32, 0⟩, by rfl, rfl⟩

/-- The table without rows. -/
theorem exists_paged (rows : Nat → List UInt8) :
    ∃ s bytes, Holding s "t" pagedSchema pagedLayout bytes rows ∧
      (fileHeader bytes).numPages = 0 ∧
      s = Database.addTable ⟨Disk.empty, .empty, .empty⟩ pagedSchema bytes := by
  have hstart : Served ⟨Disk.empty, .empty, .empty⟩ := .start rfl
  have hc : Creatable ⟨Disk.empty, .empty, .empty⟩ pagedSchema pagedLayout :=
    ⟨compileSchema_paged, rfl, rfl⟩
  have hnew : RecordFileHeader.new pagedLayout.recordSize = .ok ⟨4004, 1, -1, 0⟩ := by decide
  exact Holding.createTable hstart hc hnew rfl rows

/-- The table and an index on its column `a`. -/
theorem exists_indexed (rows : Nat → List UInt8) :
    ∃ s bytes, Holding s "t" pagedSchema pagedLayout bytes rows ∧
      (fileHeader bytes).numPages = 0 ∧
      s.indexes.indexes.find "i" = some (newIndex "i" "t" "a") := by
  obtain ⟨s, bytes, hs, hcount, hadd⟩ := exists_paged rows
  have hfree : s.indexes.contains "i" = false := by
    rw [hadd]
    rfl
  obtain ⟨t, ht, hfind⟩ := hs.createIndex (by rfl) indexedColumn_paged
    ⟨⟨"a", .int32⟩, by rfl, rfl⟩ hfree
  exact ⟨t, bytes, ht, hcount, hfind⟩

theorem normalizeInsertInput_paged (key : Int32) (text : String) :
    normalizeInsertInput "t" pagedSchema (.fullRow [.int32 key, .char text]) =
      .ok [.int32 key, .char text] := rfl

/-- The table with one row. -/
theorem exists_indexed_row :
    ∃ s bytes data, Holding s "t" pagedSchema pagedLayout bytes (fun _ => data) ∧
      (fileHeader bytes).numPages = 1 ∧
      s.indexes.indexes.find "i" = some (newIndex "i" "t" "a") ∧
        encodeRow pagedLayout [.int32 5, .char "x"] = .ok data := by
  obtain ⟨data, he⟩ : ∃ data, encodeRow pagedLayout [.int32 5, .char "x"] = .ok data := ⟨_, rfl⟩
  obtain ⟨s, bytes, hs, hcount, hfind⟩ := exists_indexed fun _ => data
  obtain ⟨t, bytes', ht, hcount', -, hindexes⟩ :=
    hs.insert (normalizeInsertInput_paged 5 "x") he (by omega)
  rw [Function.update_eq_self] at ht
  exact ⟨t, bytes', data, ht, by omega, hindexes ▸ hfind, he⟩

theorem indexes_agree_five :
    ∃ s, Served s ∧
      executeSelect ⟨"t", some (.cmpValue "a" .eq (.int32 5)), .all, [], none⟩ s =
        scanSelect ⟨"t", some (.cmpValue "a" .eq (.int32 5)), .all, [], none⟩ s ∧
      ∃ m entries, m ∈ s.listIndexes ∧ loadIndexFile s.root "i" = .ok (m, entries) ∧
        ⟨5, ⟨1, 0⟩⟩ ∈ entries := by
  obtain ⟨s, bytes, data, hs, hcount, hfind, he⟩ := exists_indexed_row
  have hmem : newIndex "i" "t" "a" ∈ s.listIndexes := SortedMap.mem_values.mpr ⟨"i", hfind⟩
  obtain ⟨hselect, hindexes⟩ := indexes_agree hs.served
  obtain ⟨schema, layout, bytes', entries, hlisted, hcompiled, hfile, hload, -, hentries⟩ :=
    hindexes _ hmem
  obtain rfl := Option.some.inj (hs.stored.listed.symm.trans hlisted)
  obtain rfl := Except.ok.inj (hs.stored.compiled.symm.trans hcompiled)
  obtain rfl := Option.some.inj (hs.stored.file.symm.trans hfile)
  refine ⟨s, hs.served, hselect _ "a" 5 rfl, _, entries, hmem, hload,
    (hentries _).mpr ⟨data, ?_, ?_⟩⟩
  · exact hs.row 1 ⟨le_rfl, hcount.ge⟩
  · rw [(encodeRow_encodes compileSchema_paged he).rowOf_eq]
    rfl

/-! ## Selections -/

/-- A selection by a scan shows the rows that its request asks for. The order of the request is that
of `compare_rows` under its keys, and `compare_rows` is a total preorder on the rows of a schema. -/
theorem select_exact {schema : TableSchema} {layout : SchemaLayout} {bytes : List UInt8}
    {request : ExtendedSelectRequest} {result : ProjectedSelectResult}
    (hs : Stored s request.table schema layout bytes)
    (hscan : resolveIndexLookup request.table request.filter s = none)
    (hr : executeSelect request s = .ok result t) :
    (∃ rows picked, IsAnswer schema layout (liveRecords bytes) request rows picked result) ∧
      (∀ keys, resolveOrderBy request.table schema request.orderBy = .ok keys →
        ∀ a b, OfSchema schema a → OfSchema schema b →
          compareRows a b keys = some (orderOf schema request.orderBy a b)) ∧
      ∀ keys, (∀ key ∈ keys, key.index < schema.columns.length) → ComparesTotally schema keys := by
  obtain ⟨picked, hanswer⟩ := wp_ok hr (executeSelect_answers hs hscan)
  refine ⟨⟨_, picked, hanswer⟩, fun keys hkeys a b ha hb => ?_, fun keys hk =>
    ⟨orderAt keys, ?_, transCmp_orderAt hk⟩⟩
  · obtain ⟨hk, ho⟩ := orderKeys_eq_ok hkeys
    rw [ho]
    exact compareRows_eq ha hb hk
  · exact fun a b ha hb => compareRows_eq ha hb hk

/-- The table with the rows of `l`, a page each. -/
theorem exists_rows (l : List (Int32 × String)) (hl : l.length < 2 ^ 31)
    (he : ∀ row ∈ l, ∃ data, encodeRow pagedLayout [.int32 row.1, .char row.2] = .ok data) :
    ∃ s bytes rows, Holding s "t" pagedSchema pagedLayout bytes rows ∧
      (fileHeader bytes).numPages = l.length ∧
      ∀ i row, l[i]? = some row →
        encodeRow pagedLayout [.int32 row.1, .char row.2] = .ok (rows (i + 1)) := by
  induction l using List.reverseRecOn with
  | nil =>
      obtain ⟨s, bytes, hs, hcount, -⟩ := exists_indexed fun _ => []
      exact ⟨s, bytes, _, hs, hcount, by simp⟩
  | append_singleton l row ih =>
      rw [List.length_append, List.length_singleton] at hl
      obtain ⟨s, bytes, rows, hs, hcount, hrows⟩ := ih (by omega)
        fun row hm => he row (by simp [hm])
      obtain ⟨data, hd⟩ := he row (by simp)
      obtain ⟨t, bytes', ht, hcount', -⟩ :=
        hs.insert (normalizeInsertInput_paged row.1 row.2) hd (by omega)
      refine ⟨t, bytes', _, ht, ?_, fun i row' hi => ?_⟩
      · rw [hcount', hcount, List.length_append, List.length_singleton]
      · rcases Nat.lt_or_ge i l.length with hlt | hge
        · rw [List.getElem?_append_left hlt] at hi
          rw [hcount, Function.update_of_ne (by omega)]
          exact hrows i row' hi
        · rw [List.getElem?_append_right hge, List.getElem?_singleton] at hi
          split at hi
          next h0 =>
            obtain rfl := Option.some.inj hi
            rw [show i + 1 = (fileHeader bytes).numPages + 1 by omega, Function.update_self]
            exact hd
          next => cases hi

/-- The first two of the rows after the first, in the order of a column that is not shown. -/
def topTwoRequest : ExtendedSelectRequest :=
  ⟨"t", some (.cmpValue "a" .gt (.int32 1)), .columns ["a"], [⟨"b", .desc⟩], some 2⟩

def fourRows : List (Int32 × String) := [(1, "z"), (2, "x"), (3, "y"), (4, "y")]

theorem executeSelect_topTwo {bytes : List UInt8} {rows : Nat → List UInt8}
    (hs : Holding s "t" pagedSchema pagedLayout bytes rows) :
    ∃ result t, executeSelect topTwoRequest s = .ok result t := by
  have hlisted : s.catalog.tables.find topTwoRequest.table = some pagedSchema := hs.stored.listed
  have hplan : resolveSelectPlan topTwoRequest.table pagedSchema topTwoRequest =
      .ok ⟨⟨[⟨"a", .int32⟩], [0]⟩, [⟨1, .desc⟩], some 2⟩ := by
    decide
  have hfilter : ¬ Rejected pagedLayout topTwoRequest.filter := by
    rintro ⟨_, ⟨⟩, hv⟩
    exact hv _ rfl (by decide)
  have hw : wp (executeSelect topTwoRequest) (fun _ _ => True) never s := by
    unfold executeSelect
    rw [wp_bind]
    refine wp_loadSchema (fun schema hfind => ?_) fun hnone => by rw [hlisted] at hnone; cases hnone
    obtain rfl := Option.some.inj (hlisted.symm.trans hfind)
    rw [wp_bind]
    refine wp_check.mpr ⟨fun _ _ => ?_, fun e he => by cases he⟩
    rw [wp_bind]
    refine wp_check.mpr ⟨fun plan hp => ?_, fun e he => by rw [hplan] at he; cases he⟩
    simp only [wp_bind, wp_get]
    exact wp_mono (selectRows_succeeds hs.good.faults hs.stored hs.headersPass hfilter hp)
      (fun _ _ _ => trivial) fun _ _ => id
  obtain ⟨result, t, hrun, -⟩ := exists_ok_of_wp hw
  exact ⟨result, t, hrun⟩

/-- The first row is left out by the filter and the second one by the limit; the other two are equal
in the order of the request. -/
theorem select_exact_tie :
    ∃ s t bytes result,
      (∀ i row, fourRows[i]? = some row → ∃ data, liveRecords bytes ⟨i + 1, 0⟩ = some data ∧
        encodeRow pagedLayout [.int32 row.1, .char row.2] = .ok data) ∧
      Stored s "t" pagedSchema pagedLayout bytes ∧ executeSelect topTwoRequest s = .ok result t ∧
      result.rows = [⟨[.int32 3]⟩, ⟨[.int32 4]⟩] := by
  have hencode : ∀ row ∈ fourRows, ∃ data, encodeRow pagedLayout [.int32 row.1, .char row.2] =
      .ok data := by
    simp only [fourRows, List.forall_mem_cons, List.not_mem_nil, false_implies,
      implies_true, and_true]
    exact ⟨⟨_, rfl⟩, ⟨_, rfl⟩, ⟨_, rfl⟩, _, rfl⟩
  obtain ⟨s, bytes, rows, hs, hcount, hrows⟩ := exists_rows fourRows (by decide) hencode
  have hcount : (fileHeader bytes).numPages = 4 := hcount
  have hlive : ∀ p, 1 ≤ p → p ≤ 4 → liveRecords bytes ⟨p, 0⟩ = some (rows p) := fun p h₁ h₄ =>
    hs.row p ⟨h₁, hcount ▸ h₄⟩
  have hrow : ∀ i row, fourRows[i]? = some row →
      rowOf pagedLayout (rows (i + 1)) = ⟨[.int32 row.1, Value.stored (.char row.2)]⟩ :=
        fun i row hi =>
    (encodeRow_encodes compileSchema_paged (hrows i row hi)).rowOf_eq
  have h₁ : rowOf pagedLayout (rows 1) = ⟨[.int32 1, .char "z"]⟩ := hrow 0 _ rfl
  have h₂ : rowOf pagedLayout (rows 2) = ⟨[.int32 2, .char "x"]⟩ := hrow 1 _ rfl
  have h₃ : rowOf pagedLayout (rows 3) = ⟨[.int32 3, .char "y"]⟩ := hrow 2 _ rfl
  have h₄ : rowOf pagedLayout (rows 4) = ⟨[.int32 4, .char "y"]⟩ := hrow 3 _ rfl
  obtain ⟨result, t, hrun⟩ := executeSelect_topTwo hs
  obtain ⟨⟨found, picked, hanswer⟩, -⟩ := select_exact hs.stored rfl hrun
  refine ⟨s, t, bytes, result, fun i row hi => ?_, hs.stored, hrun, ?_⟩
  · obtain ⟨hlt, -⟩ := List.getElem?_eq_some_iff.mp hi
    exact ⟨_, hlive (i + 1) (by omega) hlt, hrows i row hi⟩
  have hwanted : ∀ p, 1 ≤ p → p ≤ 4 →
      (wanted pagedSchema pagedLayout topTwoRequest.filter (rows p) = true ↔ p ≠ 1) := by
    intro p hp₁ hp₄
    unfold wanted
    obtain rfl | rfl | rfl | rfl : p = 1 ∨ p = 2 ∨ p = 3 ∨ p = 4 := by omega
    · rw [h₁]
      decide
    · rw [h₂]
      decide
    · rw [h₃]
      decide
    · rw [h₄]
      decide
  -- the rows of the pages 2 to 4 are found, and no others
  have hfound : ∀ r, r ∈ found ↔ r = ⟨⟨2, 0⟩, rows 2⟩ ∨ r = ⟨⟨3, 0⟩, rows 3⟩ ∨
      r = ⟨⟨4, 0⟩, rows 4⟩ := by
    intro r
    rw [hanswer.mem_iff]
    constructor
    · obtain ⟨⟨p, slot⟩, data⟩ := r
      rintro ⟨hl, hw⟩
      obtain ⟨⟨hp₁, hp₄⟩, hslot⟩ : (fileHeader bytes).HasPage p ∧
          slot < (fileHeader bytes).slotsPerPage :=
        hasPage_of_lookup hl
      rw [hs.one, Nat.lt_one_iff] at hslot
      subst hslot
      rw [hcount] at hp₄
      obtain rfl := Option.some.inj ((hlive p hp₁ hp₄).symm.trans hl)
      have hne := (hwanted p hp₁ hp₄).mp hw
      obtain rfl | rfl | rfl : p = 2 ∨ p = 3 ∨ p = 4 := by omega
      · exact Or.inl rfl
      · exact Or.inr (Or.inl rfl)
      · exact Or.inr (Or.inr rfl)
    · rintro (rfl | rfl | rfl)
      · exact ⟨hlive 2 (by decide) (by decide), (hwanted 2 (by decide) (by decide)).mpr (by decide)⟩
      · exact ⟨hlive 3 (by decide) (by decide), (hwanted 3 (by decide) (by decide)).mpr (by decide)⟩
      · exact ⟨hlive 4 (by decide) (by decide), (hwanted 4 (by decide) (by decide)).mpr (by decide)⟩
  have hpicked := hanswer.selected.eq_pair (by simp) ((hfound _).mpr (Or.inr (Or.inl rfl)))
    ((hfound _).mpr (Or.inr (Or.inr rfl))) (fun hbefore => ?_) fun r hr => ?_
  · have hshown : result.rows.map (fun row => row.values.map some) =
        [[some (.int32 3)], [some (.int32 4)]] := by
      rw [hanswer.rows_eq, hpicked]
      show [[Row.field pagedSchema (rowOf pagedLayout (rows 3)) "a"],
        [Row.field pagedSchema (rowOf pagedLayout (rows 4)) "a"]] = _
      rw [h₃, h₄]
      rfl
    have hinj : Function.Injective fun row : ProjectedRow => row.values.map some := by
      rintro ⟨_⟩ ⟨_⟩ he
      exact congrArg ProjectedRow.mk (List.map_injective_iff.mpr (Option.some_injective _) he)
    exact List.map_injective_iff.mpr hinj hshown
  · rcases hbefore with hlt | ⟨-, hback⟩
    · have htie : recordOrder pagedSchema pagedLayout topTwoRequest.orderBy ⟨⟨4, 0⟩, rows 4⟩
          ⟨⟨3, 0⟩, rows 3⟩ = .eq := by
        unfold recordOrder
        rw [h₄, h₃]
        decide
      rw [htie] at hlt
      cases hlt
    · simp [Rid.Before] at hback
  · rintro hne₃ hne₄
    obtain rfl : r = ⟨⟨2, 0⟩, rows 2⟩ := by
      rcases (hfound r).mp hr with h | h | h
      · exact h
      · exact absurd h hne₃
      · exact absurd h hne₄
    unfold recordOrder
    rw [h₂, h₃, h₄]
    decide

/-! ## Named inserts -/

/-- A named insert succeeds just for the columns of the table in any order, each once and with a
value of its type. It gives the row in the order of the columns, whatever the order of the entries,
and so gives every row that a full insert accepts. -/
theorem namedInsert_eq_fullRow {schema : TableSchema} {layout : SchemaLayout}
    (h : compileSchema schema = .ok layout) (table : String) :
    (∀ entries, (∃ values, normalizeNamedInsert table schema entries = .ok values) ↔
      (entries.map NamedValue.column).Perm (schema.columns.map ColumnSchema.name) ∧
        ∀ entry ∈ entries, ∀ column ∈ schema.columns, column.name = entry.column →
          valueMatchesType column.columnType entry.value = true) ∧
    (∀ entries values, normalizeNamedInsert table schema entries = .ok values →
      validateRowTypes table schema values = .ok () ∧ entries.Perm (naming schema values) ∧
        ∀ entries', entries'.Perm entries →
          normalizeNamedInsert table schema entries' = .ok values) ∧
    ∀ values, validateRowTypes table schema values = .ok () →
      ∀ entries, entries.Perm (naming schema values) → normalizeNamedInsert table schema entries =
        .ok values := by
  have hnd : (schema.columns.map ColumnSchema.name).Nodup :=
    (compileSchema_laid h).names ▸ (compileSchema_laid h).nodup
  refine ⟨fun entries => ⟨?_, ?_⟩, fun entries values hv => ?_, fun values hv entries hperm => ?_⟩
  · rintro ⟨values, hv⟩
    obtain ⟨hrow, hperm⟩ := (normalizeNamedInsert_eq_ok hnd).mp hv
    obtain ⟨hlen, htypes⟩ := validateRowTypes_eq_ok.mp hrow
    refine ⟨naming_columns hlen ▸ hperm.map NamedValue.column,
      fun entry he column hcolumn hname => ?_⟩
    obtain ⟨named, hm, hsame⟩ := mem_naming.mp (hperm.mem_iff.mp he)
    obtain rfl : named = column := List.inj_on_of_nodup_map hnd (List.of_mem_zip hm).1 hcolumn
      (hsame.trans hname.symm)
    exact htypes _ hm
  · rintro ⟨hcolumns, htypes⟩
    obtain ⟨values, hlen, hperm⟩ := exists_naming hcolumns
    refine ⟨values, (normalizeNamedInsert_eq_ok hnd).mpr
      ⟨validateRowTypes_eq_ok.mpr ⟨hlen, fun item hm => ?_⟩, hperm⟩⟩
    have hgiven : ⟨item.1.name, item.2⟩ ∈ entries :=
      hperm.mem_iff.mpr (mem_naming.mpr ⟨item.1, hm, rfl⟩)
    exact htypes _ hgiven item.1 (List.of_mem_zip hm).1 rfl
  · obtain ⟨hrow, hperm⟩ := (normalizeNamedInsert_eq_ok hnd).mp hv
    exact ⟨hrow, hperm, fun entries' hperm' => (normalizeNamedInsert_eq_ok hnd).mpr
      ⟨hrow, hperm'.trans hperm⟩⟩
  · exact (normalizeNamedInsert_eq_ok hnd).mpr ⟨hv, hperm⟩

/-- The columns of a table the other way round. -/
theorem namedInsert_eq_fullRow_swapped :
    normalizeNamedInsert "t" pagedSchema [⟨"b", .char "x"⟩, ⟨"a", .int32 5⟩] =
      .ok [.int32 5, .char "x"] := by
  refine (namedInsert_eq_fullRow compileSchema_paged "t").2.2 [.int32 5, .char "x"] rfl _ ?_
  exact List.Perm.swap ..

/-! ## Reopening -/

/-- After any requests, the engine that is opened again answers as before: the catalogs are read
back as they were saved, and the files of the tables have the record sizes of their schemas. -/
theorem reopen_same (h : Reachable s) :
    (∃ t, QueryEngine.open s.root = .ok t ∧
      answer (showTables t) = answer (showTables s) ∧
        answer (showIndexes t) = answer (showIndexes s) ∧
      (∀ table, answer (describeTable table t) = answer (describeTable table s)) ∧
      ∀ request, answer (executeSelect request t) = answer (executeSelect request s)) ∧
    (∀ d d', s.catalog.save d = .ok () d' → Catalog.load d' = .ok s.catalog) ∧
    (∀ d d', s.indexes.save d = .ok () d' → IndexCatalog.load d' = .ok s.indexes) ∧
    ∀ name schema, s.catalog.tables.find name = some schema →
      ∃ layout bytes, compileSchema schema = .ok layout ∧
      s.root.files (tablePath name) = some bytes ∧
        (fileHeader bytes).recordSize = layout.recordSize := by
  have hgood := h.good
  refine ⟨⟨s, hgood.reopen_eq, rfl, rfl, fun _ => rfl, fun _ => rfl⟩, fun d d' hsave => ?_,
    fun d d' hsave => ?_, fun name schema hfind => ?_⟩
  · exact Catalog.load_content hgood.sound.catalog_storable (Catalog.save_files hsave)
  · exact IndexCatalog.load_content hgood.sound.indexes_storable (indexes_save_files hsave)
  · obtain ⟨layout, bytes, hs⟩ := hgood.sound.tables name schema hfind
    exact ⟨layout, bytes, hs.compiled, hs.file, hs.rows.size⟩

theorem reopen_same_row :
    ∃ s t bytes, Served s ∧ QueryEngine.open s.root = .ok t ∧
      answer (executeSelect ⟨"t", none, .all, [], none⟩ t) =
        answer (executeSelect ⟨"t", none, .all, [], none⟩ s) ∧
      s.root.files (tablePath "t") = some bytes ∧ (fileHeader bytes).recordSize = 4004 := by
  obtain ⟨s, bytes, data, hs, -⟩ := exists_indexed_row
  obtain ⟨⟨t, hopen, -, -, -, hselect⟩, -, -, hsizes⟩ := reopen_same hs.served.reachable
  obtain ⟨layout, bytes', hcompiled, hfile, hsize⟩ := hsizes "t" pagedSchema hs.stored.listed
  obtain rfl : layout = pagedLayout := Except.ok.inj (hcompiled.symm.trans compileSchema_paged)
  exact ⟨s, t, bytes', hs.served, hopen, hselect _, hfile, hsize⟩

end Redbase.Query
