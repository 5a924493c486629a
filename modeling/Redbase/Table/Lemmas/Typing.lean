import Redbase.Table.Typing
import Redbase.Table.Lemmas.Index
import Redbase.Record.Lemmas.Agreement

/-!
# What the compilers accept

A schema compiles just when it is well formed, as far as its rows can be counted. An expression
compiles to a filter that fits in a record just when it is well typed, and then it has a value on
every row.
-/

namespace Redbase.Table

open Prog Bytes Text Record

variable {schema : TableSchema} {layout : SchemaLayout} {column column' : LayoutColumn}
  {name : String} {type : ColumnType} {value : Value} {op : ScanCompOp} {filter : LogicFilter}
  {filters : List LogicFilter}

/-! ## Schemas -/

theorem compileColumns_eq_ok {seenNames : List String} {start : Nat} {columns : List ColumnSchema}
    (hs : start < 2 ^ 64) :
    (∃ r, compileColumns seenNames start columns = .ok r) ↔
      (∀ column ∈ columns, validateIdentifier column.name = .ok () ∧ column.name ∉ seenNames ∧
        0 < column.columnType.fixedLen) ∧ (columns.map ColumnSchema.name).Nodup ∧
        start + (columns.map fun column => column.columnType.fixedLen).sum < 2 ^ 64 := by
  induction columns generalizing seenNames start with
  | nil => simpa [compileColumns] using hs
  | cons column rest ih =>
      rw [List.forall_mem_cons, List.map_cons, List.nodup_cons, List.map_cons, List.sum_cons,
        ← Nat.add_assoc]
      constructor
      · rintro ⟨r, h⟩
        obtain ⟨hid, hseen, hpos, hlt, columns, recordSize, hrest, -⟩ := compileColumns_cons h
        obtain ⟨hall, hnodup, hsum⟩ := (ih hlt).mp ⟨_, hrest⟩
        refine ⟨⟨⟨hid, hseen, hpos⟩, fun c hc => ?_⟩, ⟨fun hm => ?_, hnodup⟩, hsum⟩
        · obtain ⟨hid, hnew, hpos⟩ := hall c hc
          exact ⟨hid, fun hm => hnew (List.mem_cons_of_mem _ hm), hpos⟩
        · obtain ⟨c, hc, hname⟩ := List.mem_map.mp hm
          exact (hall c hc).2.1 (hname ▸ List.mem_cons_self)
      · rintro ⟨⟨⟨hid, hseen, hpos⟩, hall⟩, ⟨hnew, hnodup⟩, hsum⟩
        have hlt : start + column.columnType.fixedLen < 2 ^ 64 := by omega
        have hrest : ∀ c ∈ rest, validateIdentifier c.name = .ok () ∧
            c.name ∉ column.name :: seenNames ∧ 0 < c.columnType.fixedLen := by
          intro c hc
          obtain ⟨hid, hseen, hpos⟩ := hall c hc
          refine ⟨hid, fun hm => ?_, hpos⟩
          rcases List.mem_cons.mp hm with he | hm
          · exact hnew (he ▸ List.mem_map_of_mem hc)
          · exact hseen hm
        obtain ⟨⟨columns, recordSize⟩, hr⟩ := (ih hlt).mpr ⟨hrest, hnodup, hsum⟩
        refine ⟨(⟨column.name, column.columnType, start⟩ :: columns, recordSize), ?_⟩
        unfold compileColumns
        simp only [throw_bind, bind_eq_ok, throw_eq_ok, ite_eq_ok, if_false_left, pure_eq_ok,
          checked_of_lt hlt]
        exact ⟨(), hid, hseen, Nat.pos_iff_ne_zero.mp hpos, _, hr, rfl⟩

theorem Tiles.sum_eq {columns : List LayoutColumn} {start stop : Nat}
    (h : Tiles start columns stop) :
    stop = start + (columns.map fun column => column.columnType.fixedLen).sum := by
  induction columns generalizing start with
  | nil => exact (Nat.add_zero start).symm ▸ h.symm
  | cons column rest ih =>
      rw [ih h.2, List.map_cons, List.sum_cons, Nat.add_assoc]

theorem recordSize_eq (hc : compileSchema schema = .ok layout) :
    layout.recordSize = schema.rowSize := by
  have hl := compileSchema_laid hc
  have htypes := congrArg (fun types => (types.map ColumnType.fixedLen).sum) hl.types
  simp only [List.map_map] at htypes
  rw [hl.tiles.sum_eq, Nat.zero_add]
  exact htypes

theorem compileSchema_eq_ok :
    (∃ layout, compileSchema schema = .ok layout) ↔ validateIdentifier schema.name = .ok () ∧
      schema.columns ≠ [] ∧
      (∀ column ∈ schema.columns, validateIdentifier column.name = .ok () ∧
        0 < column.columnType.fixedLen) ∧
      (schema.columns.map ColumnSchema.name).Nodup ∧ schema.rowSize < 2 ^ 64 := by
  have hcolumns := @compileColumns_eq_ok [] 0 schema.columns (by decide)
  simp only [List.not_mem_nil, not_false_eq_true, true_and, Nat.zero_add] at hcolumns
  rw [TableSchema.rowSize, ← hcolumns]
  simp only [compileSchema, throw_bind, bind_eq_ok, throw_eq_ok, ite_eq_ok, pure_eq_ok,
    if_false_left, List.isEmpty_iff]
  constructor
  · rintro ⟨layout, _, hid, hne, r, hr, -⟩
    exact ⟨hid, hne, r, hr⟩
  · rintro ⟨hid, hne, r, hr⟩
    exact ⟨_, (), hid, hne, r, hr, rfl⟩

theorem exists_header_iff {size : Nat} : (∃ header, RecordFileHeader.new size = .ok header) ↔
    0 < size ∧ recordPageHeaderSize + 1 + size ≤ Page.pageDataSize := by
  rw [← fitsInPage_one]
  constructor
  · rintro ⟨header, h⟩
    simp only [RecordFileHeader.new, throw_bind, bind_eq_ok, throw_eq_ok, ite_eq_ok, if_false_left]
      at h
    obtain ⟨_, n, hn, -⟩ := h
    obtain ⟨hs, hpos, hle⟩ := computeSlotsPerPage_eq_ok hn
    exact ⟨hs, FitsInPage.mono hle hpos⟩
  · rintro ⟨hs, hone⟩
    obtain ⟨n, hn, -⟩ := computeSlotsPerPage_of_fits hs hone Nat.one_pos
    refine ⟨⟨size, n, recordPageListEnd, 0⟩, ?_⟩
    simp only [RecordFileHeader.new, hs.ne', if_false, hn]
    rfl

/-- A schema compiles to rows of a size that a page has room for just when it is well formed. -/
theorem wellFormed_iff :
    schema.WellFormed ↔ ∃ layout header, compileSchema schema = .ok layout ∧
      RecordFileHeader.new layout.recordSize = .ok header := by
  constructor
  · intro hw
    have hlt : schema.rowSize < 2 ^ 64 :=
      lt_of_le_of_lt (Nat.le_add_left _ _) (hw.fits.trans_lt (by decide))
    obtain ⟨layout, hc⟩ := compileSchema_eq_ok.mpr ⟨hw.name, hw.nonempty,
      fun column hc => ⟨hw.identifiers column hc, hw.positive column hc⟩, hw.nodup, hlt⟩
    refine ⟨layout, ?_⟩
    have hpos : 0 < schema.rowSize := by
      obtain ⟨column, rest, hcons⟩ := List.exists_cons_of_ne_nil hw.nonempty
      have hfirst := hw.positive column (hcons ▸ List.mem_cons_self)
      rw [TableSchema.rowSize, hcons, List.map_cons, List.sum_cons]
      omega
    obtain ⟨header, hn⟩ := exists_header_iff.mpr ⟨hpos, hw.fits⟩
    exact ⟨header, hc, recordSize_eq hc ▸ hn⟩
  · rintro ⟨layout, header, hc, hn⟩
    obtain ⟨hname, hne, hcolumns, hnodup, -⟩ := compileSchema_eq_ok.mp ⟨layout, hc⟩
    obtain ⟨-, hfits⟩ := exists_header_iff.mp ⟨header, hn⟩
    exact ⟨hname, hne, fun column hm => (hcolumns column hm).1, hnodup,
      fun column hm => (hcolumns column hm).2, recordSize_eq hc ▸ hfits⟩

/-! ## Columns -/

theorem find_type {schemas : List ColumnSchema} {columns : List LayoutColumn}
    (hn : columns.map LayoutColumn.name = schemas.map ColumnSchema.name)
    (ht : columns.map LayoutColumn.columnType = schemas.map ColumnSchema.columnType)
    (name : String) :
    (schemas.find? fun item => item.name = name).map ColumnSchema.columnType =
      (columns.find? fun item => item.name = name).map LayoutColumn.columnType := by
  induction columns generalizing schemas with
  | nil =>
      cases schemas with
      | nil => rfl
      | cons item schemas => simp at hn
  | cons first rest ih =>
      cases schemas with
      | nil => simp at hn
      | cons item schemas =>
          simp only [List.map_cons, List.cons.injEq] at hn ht
          rw [List.find?_cons, List.find?_cons, hn.1]
          split
          next => simp [ht.1]
          next => exact ih hn.2 ht.2

/-- The type of a column is that of its place in the layout. -/
theorem typeOf_eq_some (hc : compileSchema schema = .ok layout) :
    schema.typeOf name = some type ↔ ∃ column, layout.column name = .ok column ∧
      column.columnType = type := by
  have hl := compileSchema_laid hc
  rw [TableSchema.typeOf, find_type hl.names hl.types]
  unfold SchemaLayout.column
  cases layout.columns.find? fun column => column.name = name with
  | some column => simp
  | none => simp

/-! ## Comparisons -/

theorem scanField_fits (hc : compileSchema schema = .ok layout)
    (hn : layout.column name = .ok column) :
    (scanField column).validateForRecord layout.recordSize = .ok () := by
  obtain ⟨hm, -⟩ := column_eq_ok hn
  obtain ⟨hlt, hle⟩ := scanField_inside hc hm
  have hpos := (compileSchema_laid hc).positive column hm
  rw [ScanFieldRef.validateForRecord_iff, scanField_offset, scanField_length]
  refine ⟨checked_lt hlt, hle, ?_⟩
  unfold scanField
  cases htype : column.columnType with
  | int32 => exact ⟨fun _ => rfl, fun h => (by cases h)⟩
  | float32 => exact ⟨fun _ => rfl, fun h => (by cases h)⟩
  | char len =>
      rw [htype] at hpos
      exact ⟨fun h => absurd rfl h, fun _ => Nat.pos_iff_ne_zero.mp hpos⟩

/-- A constant is compiled when the column can store it, and then it can be compared with the
column. -/
theorem scanValue_cases (column : LayoutColumn) (value : Value) :
    (column.columnType.Accepts value ∧ ∃ constant, scanValue column value = .ok constant ∧
        validateValueAgainstField (scanField column) constant = .ok ()) ∨
      (¬ column.columnType.Accepts value ∧ ∃ e, scanValue column value = .error e) := by
  unfold scanValue scanField
  cases column.columnType <;> cases value
  case int32.int32 number => exact .inl ⟨trivial, _, rfl, rfl⟩
  case float32.float32 bits => exact .inl ⟨trivial, _, rfl, rfl⟩
  case char.char len text =>
    by_cases hlen : (utf8 text).length > len
    · exact .inr ⟨Nat.not_le.mpr hlen, _, if_pos hlen⟩
    · refine .inl ⟨Nat.not_lt.mp hlen, _, if_neg hlen, ?_⟩
      simp only [validateValueAgainstField, ScanFieldRef.bytes, length_overwrite,
        List.length_replicate, if_true]
      rfl
  all_goals exact .inr ⟨not_false, _, rfl⟩

theorem scanField_same_iff : ((scanField column).fieldType = (scanField column').fieldType ∧
    (scanField column).length = (scanField column').length) ↔
      column.columnType = column'.columnType := by
  unfold scanField
  cases column.columnType <;> cases column'.columnType <;>
    simp [ScanFieldRef.int32, ScanFieldRef.float32, ScanFieldRef.bytes]

theorem fieldComparesField_iff {lhs rhs : ScanFieldRef} {n : Nat}
    (hl : lhs.validateForRecord n = .ok ()) (hr : rhs.validateForRecord n = .ok ()) :
    (PredicateClause.fieldComparesField lhs op rhs).validateForRecord n = .ok () ↔
      (op ≠ .noOp → lhs.fieldType = rhs.fieldType ∧ lhs.length = rhs.length) := by
  unfold PredicateClause.fieldComparesField
  by_cases hop : op = .noOp
  · simp [PredicateClause.validateForRecord, hop]
  · simp only [PredicateClause.validateForRecord, hop, if_false, bind_eq_ok, ite_eq_ok, throw_eq_ok,
      if_false_left, not_or, not_not, ne_eq, not_false_eq_true, forall_const]
    constructor
    · rintro ⟨_, -, _, -, hsame, -⟩
      exact hsame
    · intro hsame
      exact ⟨(), hl, (), hr, hsame, rfl⟩

/-! ## Expressions -/

/-- An expression that compiles to a filter for the records of the layout. -/
def Compiles (layout : SchemaLayout) (expr : Expr) : Prop :=
  ∃ filter, compileExpr layout expr = .ok filter ∧
    filter.validateForRecord layout.recordSize = .ok ()

theorem compileExprs_nil_iff {exprs : List Expr} (h : compileExprs layout exprs = .ok filters) :
    filters = [] ↔ exprs = [] := by
  cases exprs with
  | nil =>
      simp only [compileExprs, pure_eq_ok] at h
      simp [← h]
  | cons expr rest =>
      simp only [compileExprs, bind_eq_ok, pure_eq_ok] at h
      obtain ⟨filter, -, filters', -, rfl⟩ := h
      simp

theorem compileExprs_eq_ok {exprs : List Expr} :
    (∃ filters, compileExprs layout exprs = .ok filters ∧
        LogicFilter.validateEach layout.recordSize filters = .ok ()) ↔
      ∀ expr ∈ exprs, Compiles layout expr := by
  induction exprs with
  | nil => simp [compileExprs, LogicFilter.validateEach]
  | cons expr rest ih =>
      rw [List.forall_mem_cons, ← ih]
      simp only [compileExprs, bind_eq_ok, pure_eq_ok]
      constructor
      · rintro ⟨_, ⟨filter, hf, filters, hfs, rfl⟩, hv⟩
        simp only [LogicFilter.validateEach, bind_eq_ok] at hv
        obtain ⟨_, hv, hvs⟩ := hv
        exact ⟨⟨filter, hf, hv⟩, filters, hfs, hvs⟩
      · rintro ⟨⟨filter, hf, hv⟩, filters, hfs, hvs⟩
        refine ⟨filter :: filters, ⟨filter, hf, filters, hfs, rfl⟩, ?_⟩
        simp only [LogicFilter.validateEach, bind_eq_ok]
        exact ⟨(), hv, hvs⟩

theorem compiles_cmpValue (hc : compileSchema schema = .ok layout) :
    Compiles layout (.cmpValue name op value) ↔ ∃ type, schema.typeOf name = some type ∧
      type.Accepts value := by
  simp only [Compiles, compileExpr, bind_eq_ok, pure_eq_ok, typeOf_eq_some hc]
  constructor
  · rintro ⟨_, ⟨column, hn, constant, hs, rfl⟩, -⟩
    obtain ⟨ha, -⟩ | ⟨-, e, he⟩ := scanValue_cases column value
    · exact ⟨_, ⟨column, hn, rfl⟩, ha⟩
    · rw [hs] at he
      cases he
  · rintro ⟨_, ⟨column, hn, rfl⟩, ha⟩
    obtain ⟨-, constant, hs, hv⟩ | ⟨hno, -⟩ := scanValue_cases column value
    · refine ⟨_, ⟨column, hn, constant, hs, rfl⟩, ?_⟩
      simp only [LogicFilter.validateForRecord, PredicateClause.validateForRecord,
        PredicateClause.fieldEqualsValue, scanField_fits hc hn, hv]
      split <;> rfl
    · exact absurd ha hno

theorem compiles_cmpColumns {lhs rhs : String} (hc : compileSchema schema = .ok layout) :
    Compiles layout (.cmpColumns lhs op rhs) ↔
      ∃ type type', schema.typeOf lhs = some type ∧ schema.typeOf rhs = some type' ∧
        (op ≠ .noOp → type = type') := by
  simp only [Compiles, compileExpr, bind_eq_ok, pure_eq_ok, typeOf_eq_some hc]
  constructor
  · rintro ⟨_, ⟨left, hl, right, hr, rfl⟩, hv⟩
    refine ⟨_, _, ⟨left, hl, rfl⟩, ⟨right, hr, rfl⟩, fun hop => scanField_same_iff.mp ?_⟩
    exact (fieldComparesField_iff (scanField_fits hc hl) (scanField_fits hc hr)).mp hv hop
  · rintro ⟨_, _, ⟨left, hl, rfl⟩, ⟨right, hr, rfl⟩, hsame⟩
    refine ⟨_, ⟨left, hl, right, hr, rfl⟩, ?_⟩
    exact (fieldComparesField_iff (scanField_fits hc hl) (scanField_fits hc hr)).mpr fun hop =>
      scanField_same_iff.mpr (hsame hop)

theorem validateLogicChildren_iff {children : List LogicFilter} {nodeName : String}
    {rest : Except RecordError Unit} :
    validateLogicChildren children nodeName rest = .ok () ↔ children ≠ [] ∧ rest = .ok () := by
  simp only [validateLogicChildren, ite_eq_ok, throw_eq_ok, if_false_left, List.isEmpty_iff, ne_eq]

/-- The children of a node are compiled one after the other; there must be one. -/
theorem children_compile {children : List Expr} :
    (∃ filters, compileExprs layout children = .ok filters ∧ filters ≠ [] ∧
      LogicFilter.validateEach layout.recordSize filters = .ok ()) ↔
      children ≠ [] ∧ ∀ child ∈ children, Compiles layout child := by
  rw [← compileExprs_eq_ok]
  constructor
  · rintro ⟨filters, hfs, hne, hv⟩
    have hiff := compileExprs_nil_iff hfs
    exact ⟨fun hnil => hne (hiff.mpr hnil), filters, hfs, hv⟩
  · rintro ⟨hne, filters, hfs, hv⟩
    exact ⟨filters, hfs, fun hnil => hne ((compileExprs_nil_iff hfs).mp hnil), hv⟩

theorem compiles_and {children : List Expr} :
    Compiles layout (.and children) ↔ children ≠ [] ∧
      ∀ child ∈ children, Compiles layout child := by
  rw [← children_compile]
  simp only [Compiles, compileExpr, bind_eq_ok, mapError_eq_ok, LogicFilter.mkAnd, ite_eq_ok,
    throw_eq_ok, pure_eq_ok, if_false_left, List.isEmpty_iff]
  constructor
  · rintro ⟨_, ⟨filters, hfs, hne, rfl⟩, hv⟩
    simp only [LogicFilter.validateForRecord, validateLogicChildren_iff] at hv
    exact ⟨filters, hfs, hne, hv.2⟩
  · rintro ⟨filters, hfs, hne, hv⟩
    refine ⟨_, ⟨filters, hfs, hne, rfl⟩, ?_⟩
    simp only [LogicFilter.validateForRecord, validateLogicChildren_iff]
    exact ⟨hne, hv⟩

theorem compiles_or {children : List Expr} :
    Compiles layout (.or children) ↔ children ≠ [] ∧ ∀ child ∈ children, Compiles layout child := by
  rw [← children_compile]
  simp only [Compiles, compileExpr, bind_eq_ok, mapError_eq_ok, LogicFilter.mkOr, ite_eq_ok,
    throw_eq_ok, pure_eq_ok, if_false_left, List.isEmpty_iff]
  constructor
  · rintro ⟨_, ⟨filters, hfs, hne, rfl⟩, hv⟩
    simp only [LogicFilter.validateForRecord, validateLogicChildren_iff] at hv
    exact ⟨filters, hfs, hne, hv.2⟩
  · rintro ⟨filters, hfs, hne, hv⟩
    refine ⟨_, ⟨filters, hfs, hne, rfl⟩, ?_⟩
    simp only [LogicFilter.validateForRecord, validateLogicChildren_iff]
    exact ⟨hne, hv⟩

theorem compiles_not {child : Expr} : Compiles layout (.not child) ↔ Compiles layout child := by
  simp only [Compiles, compileExpr, bind_eq_ok, pure_eq_ok, LogicFilter.negate]
  constructor
  · rintro ⟨_, ⟨filter, hf, rfl⟩, hv⟩
    exact ⟨filter, hf, by simpa only [LogicFilter.validateForRecord] using hv⟩
  · rintro ⟨filter, hf, hv⟩
    exact ⟨_, ⟨filter, hf, rfl⟩, by simpa only [LogicFilter.validateForRecord] using hv⟩

mutual

/-- An expression compiles just when it is well typed. -/
theorem compiles_iff (hc : compileSchema schema = .ok layout) (expr : Expr) :
    Compiles layout expr ↔ expr.WellTyped schema := by
  cases expr with
  | cmpValue column op value => rw [compiles_cmpValue hc, Expr.WellTyped.cmpValue_iff]
  | cmpColumns lhs op rhs => rw [compiles_cmpColumns hc, Expr.WellTyped.cmpColumns_iff]
  | and children => rw [compiles_and, Expr.WellTyped.and_iff, compiles_iff_each hc children]
  | or children => rw [compiles_or, Expr.WellTyped.or_iff, compiles_iff_each hc children]
  | not child => rw [compiles_not, Expr.WellTyped.not_iff, compiles_iff hc child]

theorem compiles_iff_each (hc : compileSchema schema = .ok layout) (exprs : List Expr) :
    (∀ expr ∈ exprs, Compiles layout expr) ↔ ∀ expr ∈ exprs, expr.WellTyped schema := by
  cases exprs with
  | nil => simp
  | cons expr rest =>
      rw [List.forall_mem_cons, List.forall_mem_cons, compiles_iff hc expr,
        compiles_iff_each hc rest]

end

theorem rejected_iff (hc : compileSchema schema = .ok layout) (filter : Option Expr) :
    Rejected layout filter ↔ ¬ FilterTyped schema filter := by
  simp only [Rejected, FilterTyped, not_forall, ← compiles_iff hc, Compiles, not_exists, not_and,
    exists_prop, ne_eq]

/-! ## Values -/

mutual

/-- A well-typed expression has a value where every column has one. -/
theorem Expr.WellTyped.eval {field : String → Option Value}
    (hf : ∀ name type, schema.typeOf name = some type → ∃ value, field name = some value)
    (expr : Expr) (h : expr.WellTyped schema) : ∃ b, expr.eval field = some b := by
  cases expr with
  | cmpValue column op value =>
      obtain ⟨type, known, -⟩ := cmpValue_iff.mp h
      obtain ⟨lhs, hl⟩ := hf _ _ known
      simp [Expr.eval, hl]
  | cmpColumns lhs op rhs =>
      obtain ⟨type, type', known, known', -⟩ := cmpColumns_iff.mp h
      obtain ⟨left, hl⟩ := hf _ _ known
      obtain ⟨right, hr⟩ := hf _ _ known'
      simp [Expr.eval, hl, hr]
  | and children =>
      obtain ⟨bs, hb⟩ := WellTyped.evalEach hf children (and_iff.mp h).2
      simp [Expr.eval, hb]
  | or children =>
      obtain ⟨bs, hb⟩ := WellTyped.evalEach hf children (or_iff.mp h).2
      simp [Expr.eval, hb]
  | not child =>
      obtain ⟨b, hb⟩ := WellTyped.eval hf child (not_iff.mp h)
      simp [Expr.eval, hb]

theorem Expr.WellTyped.evalEach {field : String → Option Value}
    (hf : ∀ name type, schema.typeOf name = some type → ∃ value, field name = some value)
    (exprs : List Expr) (h : ∀ expr ∈ exprs, expr.WellTyped schema) :
    ∃ bs, Expr.evalEach field exprs = some bs := by
  cases exprs with
  | nil => exact ⟨[], rfl⟩
  | cons expr rest =>
      obtain ⟨hexpr, hrest⟩ := List.forall_mem_cons.mp h
      obtain ⟨b, hb⟩ := WellTyped.eval hf expr hexpr
      obtain ⟨bs, hbs⟩ := WellTyped.evalEach hf rest hrest
      simp [Expr.evalEach, hb, hbs]

end

end Redbase.Table
