import Redbase.Table.Lemmas.Writes
import Redbase.Index.Lemmas.File

/-!
# The entries of an index

An index on an `Int32` column has one entry for each row, with the value of the column there. The
rows that a lookup finds are those that a scan for the key selects.
-/

namespace Redbase.Table

open Prog Bytes Page Record Index

set_option linter.dupNamespace false

variable {I : Type} [ReliableIo I] {cap : Nat} {s : Table I cap} {pages : Nat → PageData}
  {chain : List Nat} {schema : TableSchema} {layout : SchemaLayout} {values : List Value}
  {data : List UInt8} {column : String} {index : Nat} {h : RecordFileHeader} {key : Int32}

/-- A column that can be indexed. -/
def IndexedColumn (layout : SchemaLayout) (column : String) : Prop :=
  ∃ c, layout.column column = .ok c ∧ c.columnType = .int32

/-- The value of an `Int32` column in an encoded row. -/
def keyOf (schema : TableSchema) (layout : SchemaLayout) (column : String) (data : List UInt8) :
    Int32 :=
  match Row.field schema (rowOf layout data) column with
  | some (.int32 key) => key
  | _ => 0

/-- The entry of a record. -/
def entryOf (schema : TableSchema) (layout : SchemaLayout) (column : String) (record : Record) :
    IndexEntry :=
  ⟨keyOf schema layout column record.data, record.rid⟩

/-! ## Keys -/

theorem lookup_zip {names : List String} {values : List Value} {name : String}
    (h : names.findIdx? (fun n => n = name) = some index) :
    (names.zip values).lookup name = values[index]? := by
  induction names generalizing values index with
  | nil => cases h
  | cons first rest ih =>
      rw [List.findIdx?_cons] at h
      cases values with
      | nil => rfl
      | cons value values =>
          rw [List.zip_cons_cons]
          by_cases he : first = name
          · subst he
            obtain rfl : 0 = index := by simpa using h
            rw [List.lookup_cons_self]
            rfl
          · have hne : (name == first) = false := beq_false_of_ne (Ne.symm he)
            rw [List.lookup_cons, hne]
            simp only [he, decide_false, Bool.false_eq_true, if_false, Option.map_eq_some_iff] at h
            obtain ⟨i, hi, rfl⟩ := h
            exact ih hi

/-- A row has the value of a column at the index of the column. -/
theorem Row.field_eq (hc : compileSchema schema = .ok layout)
    (hi : layout.columnIndex column = .ok index) (row : Row) :
    Row.field schema row column = row.values[index]? := by
  rw [Row.field, ← (compileSchema_laid hc).names]
  refine lookup_zip ?_
  rcases columnIndex_eq layout column with ⟨i, hi', hf, -⟩ | ⟨he, -⟩
  · rw [hi] at hi'
    cases hi'
    rw [List.findIdx?_map]
    exact hf
  · rw [hi] at he
    cases he

theorem Encodes.field_int32 (he : Encodes layout data values)
    (hc : compileSchema schema = .ok layout) (hx : IndexedColumn layout column) :
    Row.field schema (rowOf layout data) column =
      some (.int32 (keyOf schema layout column data)) := by
  obtain ⟨c, hcol, htype⟩ := hx
  obtain ⟨value, hcell, hfield⟩ := he.field_eq hc hcol
  have ha := hcell.accepts
  rw [htype] at ha
  cases value with
  | int32 key =>
      rw [← he.rowOf_eq] at hfield
      rw [keyOf, hfield]
      rfl
  | float32 bits => exact ha.elim
  | char text => exact ha.elim

theorem IndexedColumn.columnIndex (hx : IndexedColumn layout column) :
    ∃ index, layout.columnIndex column = .ok index := by
  obtain ⟨c, hcol, -⟩ := hx
  obtain ⟨hm, hname⟩ := column_eq_ok hcol
  rcases columnIndex_eq layout column with ⟨index, hi, -⟩ | ⟨-, hno⟩
  · exact ⟨index, hi⟩
  · exact absurd ⟨c, hm, hname⟩ hno

/-! ## Building an index -/

theorem mapM_indexEntry (hc : compileSchema schema = .ok layout) (hx : IndexedColumn layout column)
    (hi : layout.columnIndex column = .ok index) (henc : Encoded layout h pages)
    (records : List Record) (hl : ∀ r ∈ records, lookup h pages r.rid = some r.data) :
    records.mapM (Table.indexEntry layout index) =
      .ok (records.map (entryOf schema layout column)) := by
  induction records with
  | nil => rfl
  | cons r rest ih =>
      obtain ⟨hr, hrest⟩ := List.forall_mem_cons.mp hl
      obtain ⟨values, he⟩ := henc _ _ hr
      have hentry : Table.indexEntry layout index r = .ok (entryOf schema layout column r) := by
        unfold Table.indexEntry
        rw [henc.decode hr, bind_eq_ok]
        refine ⟨_, rfl, ?_⟩
        rw [← Row.field_eq hc hi, he.field_int32 hc hx]
        rfl
      rw [List.mapM_cons, hentry, ih hrest]
      rfl

/-- The entries of an index are those of the rows, when every page can be read. -/
theorem indexEntries_spec (hs : TableOk s pages chain) (hx : IndexedColumn s.layout column) :
    wp (Table.indexEntriesForInt32Column column)
      (fun entries t => Unchanged s t pages chain ∧ AllReadable s.file.header pages ∧
        entries = (selected s pages none).map (entryOf s.schema s.layout column))
      (fun _ t => Unchanged s t pages chain ∧ ¬ AllReadable s.file.header pages) s := by
  obtain ⟨index, hi⟩ := hx.columnIndex
  unfold Table.indexEntriesForInt32Column
  simp only [wp_bind, wp_get, hi, wp_check_ok]
  refine wp_mono (collectRecords_spec hs none) ?_ ?_
  · rintro records t ⟨hu, -, hr, rfl⟩
    rw [mapM_indexEntry hs.compiled hx hi hs.encoded _ fun r hr => (mem_matching.mp hr).1]
    exact ⟨hu, hr, rfl⟩
  · rintro _ t ⟨hu, ⟨e, he, -⟩ | ⟨p, hp, hbad⟩⟩
    · cases he
    · exact ⟨hu, fun hr => hbad (hr p hp)⟩

/-! ## Looking a key up -/

/-- The filter that asks for one key. -/
abbrev keyExpr (column : String) (key : Int32) : Expr := .cmpValue column .eq (.int32 key)

theorem Tiles.mem_le {columns : List LayoutColumn} {start stop : Nat} (h : Tiles start columns stop)
    {c : LayoutColumn} (hc : c ∈ columns) : c.offset + c.columnType.fixedLen ≤ stop := by
  induction columns generalizing start with
  | nil => simp at hc
  | cons c' rest ih =>
      rcases List.mem_cons.mp hc with rfl | hc
      · rw [h.1]
        exact h.2.le
      · exact ih h.2 hc

/-- A column of the layout is inside of the record. -/
theorem scanField_inside (hc : compileSchema schema = .ok layout) {c : LayoutColumn}
    (hm : c ∈ layout.columns) :
    checked 64 (c.offset + c.columnType.fixedLen) = some (c.offset + c.columnType.fixedLen) ∧
      c.offset + c.columnType.fixedLen ≤ layout.recordSize := by
  have hl := compileSchema_laid hc
  have hle := hl.tiles.mem_le hm
  exact ⟨checked_of_lt (hle.trans_lt hl.stop_lt), hle⟩

theorem accepts_keyExpr (hc : compileSchema schema = .ok layout)
    (hx : IndexedColumn layout column) :
    ¬ Rejected layout (some (keyExpr column key)) := by
  obtain ⟨c, hcol, hint⟩ := hx
  have hfield : scanField c = .int32 c.offset := by rw [scanField, hint]
  have hcompile : compileExpr layout (keyExpr column key) =
      .ok (.clause (.fieldEqualsValue (.int32 c.offset) .eq (.int32 key))) := by
    have hvalue : scanValue c (.int32 key) = .ok (.int32 key) := by
      unfold scanValue
      rw [hint]
      rfl
    simp only [compileExpr, bind_eq_ok, pure_eq_ok]
    exact ⟨c, hcol, .int32 key, hvalue, by rw [hfield]⟩
  obtain ⟨hend, hle⟩ := scanField_inside hc (column_eq_ok hcol).1
  rw [hint] at hend hle
  have hvalid : (ScanFieldRef.int32 c.offset).validateForRecord layout.recordSize = .ok () := by
    simp only [ScanFieldRef.validateForRecord, ScanFieldRef.int32]
    have hend : checked 64 (c.offset + 4) = some (c.offset + 4) := hend
    have hle : ¬ c.offset + 4 > layout.recordSize := Nat.not_lt.mpr hle
    rw [hend]
    simp only [if_neg hle]
    rfl
  rintro ⟨_, ⟨⟩, hr⟩
  refine hr _ hcompile ?_
  simp only [LogicFilter.validateForRecord, PredicateClause.validateForRecord,
    PredicateClause.fieldEqualsValue, hvalid]
  rfl

theorem wanted_keyExpr (he : Encodes layout data values) (hc : compileSchema schema = .ok layout)
    (hx : IndexedColumn layout column) :
    wanted schema layout (some (keyExpr column key)) data =
      decide (keyOf schema layout column data = key) := by
  have hf := he.field_int32 hc hx
  rw [Bool.eq_iff_iff, decide_eq_true_iff]
  simp only [wanted, Expr.eval, hf]
  show (some (compare (keyOf schema layout column data) key).isEq == some true) = true ↔ _
  rw [beq_iff_eq, Option.some.injEq, Ordering.isEq_iff_eq_eq]
  exact Std.LawfulEqOrd.compare_eq_iff_eq

/-- A scan for a key selects the rows with this key. -/
theorem matching_keyExpr (hc : compileSchema schema = .ok layout) (hx : IndexedColumn layout column)
    (henc : Encoded layout h pages) :
    matching h pages (wanted schema layout (some (keyExpr column key))) 0 =
      (records h pages).filter fun r => keyOf schema layout column r.data = key := by
  unfold records matching
  rw [List.filter_filter]
  refine List.filter_congr fun r hr => ?_
  obtain ⟨k, -, hk⟩ := List.mem_filterMap.mp hr
  obtain ⟨values, he⟩ := henc _ _ (recordAt_eq_some hk).2
  rw [wanted_keyExpr he hc hx, Bool.and_true]

theorem notAfter_antisymm {a b : IndexEntry} (hab : a.notAfter b = true)
    (hba : b.notAfter a = true) : a = b := by
  obtain ⟨akey, apage, aslot⟩ := a
  obtain ⟨bkey, bpage, bslot⟩ := b
  simp only [IndexEntry.notAfter, decide_eq_true_eq] at hab hba
  simp only [IndexEntry.mk.injEq, Rid.mk.injEq]
  grind

/-- The entries with the key are those of the rows with the key, in the order of the rows. -/
theorem filter_sortEntries {records : List Record}
    (hp : records.Pairwise fun a b => a.rid.Before b.rid) :
    ((sortEntries (records.map (entryOf schema layout column))).filter fun entry =>
        entry.key = key).map IndexEntry.rid =
      (records.filter fun r => keyOf schema layout column r.data = key).map Record.rid := by
  have hentries : (sortEntries (records.map (entryOf schema layout column))).filter
      (fun entry => entry.key = key) =
      (records.filter fun r => keyOf schema layout column r.data = key).map
        (entryOf schema layout column) := by
    refine List.Perm.eq_of_pairwise (fun _ _ _ _ => notAfter_antisymm)
      ((sortEntries_pairwise _).filter _) ?_ ?_
    · refine List.pairwise_map.mpr ((hp.filter _).imp_of_mem fun {a b} ha hb hab => ?_)
      have hka : keyOf schema layout column a.data = key := by simpa using (List.mem_filter.mp ha).2
      have hkb : keyOf schema layout column b.data = key := by simpa using (List.mem_filter.mp hb).2
      simp only [IndexEntry.notAfter, entryOf, hka, hkb, decide_eq_true_eq]
      exact Or.inr ⟨trivial, hab.imp_right fun h => ⟨h.1, Nat.le_of_lt h.2⟩⟩
    · refine ((sortEntries_perm _).filter _).trans ?_
      rw [List.filter_map]
      exact List.Perm.refl _
  rw [hentries, List.map_map]
  rfl

end Redbase.Table
