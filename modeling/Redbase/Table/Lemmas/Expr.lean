import Redbase.Table.Lemmas.Codec
import Redbase.Record.Lemmas.Filter

/-!
# Compiled expressions

A filter compares ranges of bytes. On an encoded row it answers what the expression means on the
values that are read back.
-/

namespace Redbase.Table

open Prog Bytes Text Record

variable {schema : TableSchema} {layout : SchemaLayout} {columns : List LayoutColumn}
  {column column' : LayoutColumn} {values : List Value} {value value' : Value} {bytes : List UInt8}
  {op : ScanCompOp} {constant : ScanValue} {field : String → Option Value}

theorem compareOrdering_eq (ordering : Ordering) (op : ScanCompOp) :
    compareOrdering ordering op = meaning op ordering := by
  cases op <;> cases ordering <;> rfl

/-! ## Comparisons of bytes -/

theorem scanField_length (column : LayoutColumn) :
    (scanField column).length = column.columnType.fixedLen := by
  unfold scanField
  cases column.columnType <;> rfl

theorem scanField_offset (column : LayoutColumn) : (scanField column).offset = column.offset := by
  unfold scanField
  cases column.columnType <;> rfl

theorem Cell.fieldBytes (h : Cell bytes column value)
    (hv : (scanField column).validateForRecord bytes.length = .ok ()) :
    fieldBytes bytes (scanField column) = .ok (column.columnType.image value) := by
  simp only [Record.fieldBytes, hv, scanField_length, scanField_offset, h.bytes_eq]
  rfl

/-- Texts padded to one length compare as the texts without their trailing NULs. -/
theorem compare_image_char {len : Nat} {left right : String} (hl : (utf8 left).length ≤ len)
    (hr : (utf8 right).length ≤ len) :
    compare (pad len (utf8 left)) (pad len (utf8 right)) = compareText (trimNul left)
      (trimNul right) := by
  rw [compare_pad hl hr, compareText, utf8_trimNul, utf8_trimNul]

theorem compareFieldToValue_image (ha : column.columnType.Accepts value)
    (hs : scanValue column value' = .ok constant) :
    compareFieldToValue (column.columnType.image value) (scanField column).fieldType constant =
      .ok (compareValues value.stored value'.stored) := by
  unfold scanValue at hs
  unfold scanField
  cases hc : column.columnType <;> rw [hc] at ha hs <;> cases value <;> try exact ha.elim
  all_goals cases value' <;> simp only [throw_eq_ok, pure_eq_ok, ite_eq_ok, if_false_left] at hs
  case int32.int32.int32 left right =>
    subst hs
    simp only [ScanFieldRef.int32, ColumnType.image, compareFieldToValue, int32OfBytes_i32Bytes]
    rfl
  case float32.float32.float32 left right =>
    subst hs
    simp only [ScanFieldRef.float32, ColumnType.image, compareFieldToValue, float32OfBytes_u32Bytes]
    rfl
  case char.char.char len left right =>
    obtain ⟨hlen, rfl⟩ := hs
    have hlen := Nat.not_lt.mp hlen
    simp only [ScanFieldRef.bytes, ColumnType.image, ColumnType.fixedLen, compareFieldToValue,
      overwrite_zeros hlen, compare_image_char ha hlen]
    rfl

theorem compareFields_image (ha : column.columnType.Accepts value)
    (ha' : column'.columnType.Accepts value')
    (ht : (scanField column).fieldType = (scanField column').fieldType)
    (hl : (scanField column).length = (scanField column').length) :
    compareFields (column.columnType.image value)
      (scanField column).fieldType (column'.columnType.image value') =
      compareValues value.stored value'.stored := by
  rw [scanField_length, scanField_length] at hl
  unfold scanField at ht ⊢
  cases hc : column.columnType <;> rw [hc] at ha ht hl <;> cases value <;> try exact ha.elim
  all_goals cases hc' : column'.columnType <;> rw [hc'] at ha' ht hl <;> cases value' <;>
    try exact ha'.elim
  all_goals try cases ht
  case int32.int32.int32.int32 =>
    simp only [ScanFieldRef.int32, ColumnType.image, compareFields, int32OfBytes_i32Bytes]
    rfl
  case float32.float32.float32.float32 =>
    simp only [ScanFieldRef.float32, ColumnType.image, compareFields, float32OfBytes_u32Bytes]
    rfl
  case char.char.char.char len left len' right =>
    obtain rfl : len = len' := hl
    simp only [ScanFieldRef.bytes, ColumnType.image, ColumnType.fixedLen, compareFields,
      compare_image_char ha ha']
    rfl

/-! ## Clauses -/

theorem matches_noOp {clause : PredicateClause} (h : clause.compOp = .noOp) :
    clause.matches bytes = .ok true := by
  simp only [PredicateClause.matches, PredicateClause.validateForRecord, h, if_true]
  rfl

theorem validate_lhs {clause : PredicateClause} {recordSize : Nat} (h : clause.compOp ≠ .noOp)
    (hv : clause.validateForRecord recordSize = .ok ()) :
    clause.lhs.validateForRecord recordSize = .ok () := by
  simp only [PredicateClause.validateForRecord, h, if_false, bind_eq_ok] at hv
  obtain ⟨_, hl, -⟩ := hv
  exact hl

theorem fieldEqualsValue_matches (hc : Cell bytes column value)
    (hs : scanValue column value' = .ok constant)
    (hv : (PredicateClause.fieldEqualsValue (scanField column) op constant).validateForRecord
      bytes.length = .ok ()) :
    (PredicateClause.fieldEqualsValue (scanField column) op constant).matches bytes =
      .ok (meaning op (compareValues value.stored value'.stored)) := by
  by_cases hop : op = .noOp
  · subst hop
    exact matches_noOp rfl
  · have hl := validate_lhs hop hv
    simp only [PredicateClause.matches, bind_eq_ok]
    refine ⟨(), hv, ?_⟩
    simp only [PredicateClause.fieldEqualsValue] at hl ⊢
    simp only [hop, if_false, hc.fieldBytes hl, bind_eq_ok]
    exact ⟨_, rfl, _, compareFieldToValue_image hc.accepts hs, by rw [compareOrdering_eq]; rfl⟩

theorem fieldComparesField_matches (hc : Cell bytes column value) (hc' : Cell bytes column' value')
    (hv : (PredicateClause.fieldComparesField (scanField column) op
        (scanField column')).validateForRecord
      bytes.length = .ok ()) :
    (PredicateClause.fieldComparesField (scanField column) op (scanField column')).matches bytes =
      .ok (meaning op (compareValues value.stored value'.stored)) := by
  by_cases hop : op = .noOp
  · subst hop
    exact matches_noOp rfl
  · have hl := validate_lhs hop hv
    have hvr := hv
    unfold PredicateClause.fieldComparesField at hl hvr
    simp only [PredicateClause.matches, bind_eq_ok]
    refine ⟨(), hv, ?_⟩
    simp only [PredicateClause.fieldComparesField, PredicateClause.validateForRecord, hop,
      if_false, bind_eq_ok, ite_eq_ok, throw_eq_ok, if_false_left, not_or, not_not] at hl hvr ⊢
    obtain ⟨_, -, _, hr, ⟨ht, hlen⟩, -⟩ := hvr
    refine ⟨_, hc.fieldBytes hl, _, hc'.fieldBytes hr, ?_⟩
    rw [compareFields_image hc.accepts hc'.accepts ht hlen, compareOrdering_eq]
    rfl

/-! ## Expressions -/

theorem find_cell (h : List.Forall₂ (Cell bytes) columns values) {name : String}
    (hf : columns.find? (fun column => column.name = name) = some column) :
    ∃ value, Cell bytes column value ∧
      ((columns.map LayoutColumn.name).zip (values.map Value.stored)).lookup name =
        some value.stored := by
  induction h with
  | nil => cases hf
  | @cons first value columns values hc _ ih =>
      rw [List.find?_cons] at hf
      simp only [List.map_cons, List.zip_cons_cons]
      by_cases he : first.name = name
      · obtain rfl : first = column := by simpa [he] using hf
        rw [← he, List.lookup_cons_self]
        exact ⟨value, hc, rfl⟩
      · have hne : (name == first.name) = false := beq_false_of_ne (Ne.symm he)
        rw [List.lookup_cons, hne]
        exact ih (by simpa [he] using hf)

/-- On an encoded row the columns have the values that are read back. -/
theorem Encodes.field_eq (h : Encodes layout bytes values) (hc : compileSchema schema = .ok layout)
    {name : String} (hn : layout.column name = .ok column) :
    ∃ value, Cell bytes column value ∧ Row.field schema ⟨values.map Value.stored⟩ name =
      some value.stored := by
  have hf : layout.columns.find? (fun column => column.name = name) = some column := by
    unfold SchemaLayout.column at hn
    split at hn
    next he =>
      rw [pure_eq_ok] at hn
      exact hn ▸ he
    next => cases hn
  rw [Row.field, ← (compileSchema_laid hc).names]
  exact find_cell h.cells hf

theorem mkAnd_eq_ok {children : List LogicFilter} {filter : LogicFilter}
    (h : LogicFilter.mkAnd children = .ok filter) : filter = .and children := by
  simp only [LogicFilter.mkAnd, ite_eq_ok, throw_eq_ok, pure_eq_ok, if_false_left] at h
  exact h.2.symm

theorem mkOr_eq_ok {children : List LogicFilter} {filter : LogicFilter}
    (h : LogicFilter.mkOr children = .ok filter) : filter = .or children := by
  simp only [LogicFilter.mkOr, ite_eq_ok, throw_eq_ok, pure_eq_ok, if_false_left] at h
  exact h.2.symm

mutual

/-- A compiled expression that validates answers on an encoded row what it means there. -/
theorem compileExpr_matches (he : Encodes layout bytes values)
    (hc : compileSchema schema = .ok layout) (expr : Expr) {filter : LogicFilter}
    (hf : compileExpr layout expr = .ok filter)
    (hv : filter.validateForRecord bytes.length = .ok ()) :
    ∃ b, expr.eval (Row.field schema ⟨values.map Value.stored⟩) = some b ∧
      filter.matches bytes = .ok b := by
  cases expr with
  | cmpValue name op value =>
      simp only [compileExpr, bind_eq_ok, pure_eq_ok] at hf
      obtain ⟨column, hn, constant, hs, rfl⟩ := hf
      obtain ⟨lhs, hcell, hfield⟩ := he.field_eq hc hn
      refine ⟨meaning op (compareValues lhs.stored value.stored), ?_, ?_⟩
      · simp only [Expr.eval, hfield]
        rfl
      · simp only [LogicFilter.matches, bind_eq_ok]
        simp only [LogicFilter.validateForRecord] at hv ⊢
        exact ⟨(), hv, fieldEqualsValue_matches hcell hs hv⟩
  | cmpColumns lhs op rhs =>
      simp only [compileExpr, bind_eq_ok, pure_eq_ok] at hf
      obtain ⟨column, hn, column', hn', rfl⟩ := hf
      obtain ⟨left, hcell, hfield⟩ := he.field_eq hc hn
      obtain ⟨right, hcell', hfield'⟩ := he.field_eq hc hn'
      refine ⟨meaning op (compareValues left.stored right.stored), ?_, ?_⟩
      · simp only [Expr.eval, hfield, hfield']
        rfl
      · simp only [LogicFilter.matches, bind_eq_ok]
        simp only [LogicFilter.validateForRecord] at hv ⊢
        exact ⟨(), hv, fieldComparesField_matches hcell hcell' hv⟩
  | and children =>
      simp only [compileExpr, bind_eq_ok, mapError_eq_ok] at hf
      obtain ⟨filters, hfs, hand⟩ := hf
      obtain rfl := mkAnd_eq_ok hand
      have hve : LogicFilter.validateEach bytes.length filters = .ok () := by
        simp only [LogicFilter.validateForRecord] at hv
        exact validateLogicChildren_eq_ok hv
      obtain ⟨bs, hev, hm, -⟩ := compileExprs_matches he hc children hfs hve
      refine ⟨bs.all id, ?_, ?_⟩
      · simp only [Expr.eval, hev]
        rfl
      · simp only [LogicFilter.matches, bind_eq_ok]
        exact ⟨(), hv, hm⟩
  | or children =>
      simp only [compileExpr, bind_eq_ok, mapError_eq_ok] at hf
      obtain ⟨filters, hfs, hor⟩ := hf
      obtain rfl := mkOr_eq_ok hor
      have hve : LogicFilter.validateEach bytes.length filters = .ok () := by
        simp only [LogicFilter.validateForRecord] at hv
        exact validateLogicChildren_eq_ok hv
      obtain ⟨bs, hev, -, hm⟩ := compileExprs_matches he hc children hfs hve
      refine ⟨bs.any id, ?_, ?_⟩
      · simp only [Expr.eval, hev]
        rfl
      · simp only [LogicFilter.matches, bind_eq_ok]
        exact ⟨(), hv, hm⟩
  | not child =>
      simp only [compileExpr, bind_eq_ok, pure_eq_ok] at hf
      obtain ⟨filter', hf, rfl⟩ := hf
      have hv' : filter'.validateForRecord bytes.length = .ok () := by
        simpa only [LogicFilter.negate, LogicFilter.validateForRecord] using hv
      obtain ⟨b, hev, hm⟩ := compileExpr_matches he hc child hf hv'
      refine ⟨!b, ?_, ?_⟩
      · simp only [Expr.eval, hev]
        rfl
      · simp only [LogicFilter.negate, LogicFilter.matches, bind_eq_ok]
        exact ⟨(), hv, b, hm, rfl⟩

/-- The loops stop at the first child that decides; the others are not evaluated, but have a
value. -/
theorem compileExprs_matches (he : Encodes layout bytes values)
    (hc : compileSchema schema = .ok layout) (exprs : List Expr) {filters : List LogicFilter}
    (hf : compileExprs layout exprs = .ok filters)
    (hv : LogicFilter.validateEach bytes.length filters = .ok ()) :
    ∃ bs, Expr.evalEach (Row.field schema ⟨values.map Value.stored⟩) exprs = some bs ∧
      LogicFilter.andMatches bytes filters = .ok (bs.all id) ∧
      LogicFilter.orMatches bytes filters = .ok (bs.any id) := by
  cases exprs with
  | nil =>
      simp only [compileExprs, pure_eq_ok] at hf
      subst hf
      exact ⟨[], rfl, rfl, rfl⟩
  | cons expr rest =>
      simp only [compileExprs, bind_eq_ok, pure_eq_ok] at hf
      obtain ⟨filter, hf, filters, hfs, rfl⟩ := hf
      simp only [LogicFilter.validateEach, bind_eq_ok] at hv
      obtain ⟨_, hv, hvs⟩ := hv
      obtain ⟨b, hev, hm⟩ := compileExpr_matches he hc expr hf hv
      obtain ⟨bs, hevs, hand, hor⟩ := compileExprs_matches he hc rest hfs hvs
      refine ⟨b :: bs, ?_, ?_, ?_⟩
      · simp only [Expr.evalEach, hev, hevs]
        rfl
      · simp only [LogicFilter.andMatches, hm, hand, bind_eq_ok]
        exact ⟨b, rfl, by cases b <;> rfl⟩
      · simp only [LogicFilter.orMatches, hm, hor, bind_eq_ok]
        exact ⟨b, rfl, by cases b <;> rfl⟩

end

end Redbase.Table
