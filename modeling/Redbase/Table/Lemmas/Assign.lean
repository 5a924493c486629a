import Redbase.Table.Writes

/-!
# Assignments on encoded rows

Whether a row can be encoded after the assignments does not depend on the row; where it can, the
assigned columns hold the assigned values and the others the bytes they held.
-/

namespace Redbase.Table

open Prog Bytes Text Page Record

set_option linter.dupNamespace false

variable {schema : TableSchema} {layout : SchemaLayout} {columns : List LayoutColumn}
  {column : LayoutColumn} {values : List Value} {value : Value} {bytes data : List UInt8}
  {assignments : List (String × Value)} {name : String}

/-! ## Values read back -/

theorem ColumnType.Accepts.stored {type : ColumnType} (h : type.Accepts value) :
    type.Accepts value.stored := by
  cases type <;> cases value <;> try exact h
  case char.char len text =>
    show (utf8 (trimNul text)).length ≤ len
    rw [utf8_trimNul]
    exact Nat.le_trans (length_trimZeros_le _) h

theorem ColumnType.image_stored {type : ColumnType} (h : type.Accepts value) :
    type.image value.stored = type.image value := by
  cases type <;> cases value <;> first | exact h.elim | rfl | skip
  case char.char len text =>
    show pad len (utf8 (trimNul text)) = pad len (utf8 text)
    rw [utf8_trimNul, pad_trimZeros h]

theorem encodeValue_ok {target : List UInt8} (h : column.columnType.Accepts value) :
    ∃ bytes, encodeValue target column value = .ok bytes := by
  unfold encodeValue
  cases hc : column.columnType <;> cases value <;> rw [hc] at h <;> try exact h.elim
  case int32.int32 => exact ⟨_, rfl⟩
  case float32.float32 => exact ⟨_, rfl⟩
  case char.char => exact ⟨_, if_neg (Nat.not_lt.mpr h)⟩

/-- A row is encoded when each value can be stored in its column. -/
theorem encodeValues_ok (h : List.Forall₂ (fun c v => c.columnType.Accepts v) columns values)
    (target : List UInt8) :
    ∃ bytes, encodeValues target (columns.zip values) = .ok bytes := by
  induction h generalizing target with
  | nil => exact ⟨_, rfl⟩
  | cons hv _ ih =>
      obtain ⟨target', ht⟩ := encodeValue_ok hv
      obtain ⟨bytes, hb⟩ := ih target'
      exact ⟨bytes, by rw [List.zip_cons_cons, encodeValues, bind_eq_ok]; exact ⟨target', ht, hb⟩⟩

theorem encodeRow_ok_iff (hc : compileSchema schema = .ok layout) :
    (∃ bytes, encodeRow layout values = .ok bytes) ↔
      List.Forall₂ (fun c v => c.columnType.Accepts v) layout.columns values := by
  constructor
  · rintro ⟨bytes, he⟩
    exact (encodeRow_encodes hc he).cells.imp fun _ _ hcell => hcell.accepts
  · intro h
    obtain ⟨bytes, hb⟩ := encodeValues_ok h (List.replicate layout.recordSize 0)
    exact ⟨bytes, by rw [encodeRow, if_neg (not_not.mpr h.length_eq.symm), hb]⟩

/-! ## The last assignment -/

theorem lastAssigned_cons (a : String × Value) :
    lastAssigned (a :: assignments) name =
      (lastAssigned assignments name).or (if a.1 = name then some a.2 else none) := by
  unfold lastAssigned
  rw [List.reverse_cons, List.find?_append]
  cases assignments.reverse.find? fun a => a.1 = name with
  | some b => rfl
  | none =>
      by_cases h : a.1 = name <;> simp [h]

/-- The value of a column after the assignments. -/
def newValue (assignments : List (String × Value)) (column : LayoutColumn) (value : Value) :
    Value :=
  (lastAssigned assignments column.name).getD value

theorem newValue_cons (a : String × Value) (column : LayoutColumn) (value : Value) :
    newValue (a :: assignments) column value =
      newValue assignments column (if a.1 = column.name then a.2 else value) := by
  unfold newValue
  rw [lastAssigned_cons]
  cases lastAssigned assignments column.name with
  | some v => rfl
  | none => by_cases h : a.1 = column.name <;> simp [h]

/-! ## Assigning -/

theorem zipWith_right (hlen : values.length = columns.length) {f : LayoutColumn → Value → Value}
    (h : ∀ column ∈ columns, ∀ value, f column value = value) :
    List.zipWith f columns values = values := by
  induction columns generalizing values with
  | nil =>
      rw [List.length_eq_zero_iff.mp hlen]
      rfl
  | cons column rest ih =>
      cases values with
      | nil => cases hlen
      | cons value values =>
          obtain ⟨hf, hrest⟩ := List.forall_mem_cons.mp h
          rw [List.zipWith_cons_cons, hf, ih (Nat.succ.inj hlen) hrest]

theorem zipWith_zipWith (f g : LayoutColumn → Value → Value) (columns : List LayoutColumn)
    (values : List Value) :
    List.zipWith f columns (List.zipWith g columns values) = List.zipWith (fun c v => f c (g c v))
      columns values := by
  induction columns generalizing values with
  | nil => rfl
  | cons column rest ih =>
      cases values with
      | nil => rfl
      | cons value values =>
          rw [List.zipWith_cons_cons, List.zipWith_cons_cons, List.zipWith_cons_cons, ih]

/-- One assignment, as a change of every value. -/
theorem set_eq_zipWith (hn : (columns.map LayoutColumn.name).Nodup)
    (hlen : values.length = columns.length) {index : Nat}
    (hi : columns.findIdx? (fun column => column.name = name) = some index) (value : Value) :
    values.set index value = List.zipWith (fun column v => if name = column.name then value else v)
      columns values := by
  induction columns generalizing values index with
  | nil => cases hi
  | cons column rest ih =>
      cases values with
      | nil => cases hlen
      | cons first values =>
          obtain ⟨hfresh, hn⟩ := List.nodup_cons.mp hn
          rw [List.findIdx?_cons] at hi
          rw [List.zipWith_cons_cons]
          by_cases he : column.name = name
          · subst he
            obtain rfl : 0 = index := by simpa using hi
            rw [List.set_cons_zero, if_pos rfl, zipWith_right (Nat.succ.inj hlen)
              fun c hm _ => if_neg fun hname => ?_]
            exact hfresh (List.mem_map.mpr ⟨c, hm, hname.symm⟩)
          · simp only [he, decide_false, Bool.false_eq_true, if_false, Option.map_eq_some_iff] at hi
            obtain ⟨i, hi, rfl⟩ := hi
            rw [List.set_cons_succ, ih hn (Nat.succ.inj hlen) hi, if_neg (Ne.symm he)]

/-- The names are those of columns. -/
def Known (layout : SchemaLayout) (assignments : List (String × Value)) : Prop :=
  ∀ a ∈ assignments, ∃ column ∈ layout.columns, column.name = a.1

theorem columnIndex_eq (layout : SchemaLayout) (name : String) :
    (∃ index, layout.columnIndex name = .ok index ∧
      layout.columns.findIdx? (fun c => c.name = name) = some index ∧
      ∃ column ∈ layout.columns, column.name = name) ∨
    (layout.columnIndex name = .error (.columnNotFound name) ∧ ¬ ∃ column ∈ layout.columns,
      column.name = name) := by
  unfold SchemaLayout.columnIndex
  cases h : layout.columns.findIdx? (fun column => column.name = name) with
  | some index =>
      refine Or.inl ⟨index, rfl, rfl, ?_⟩
      obtain ⟨hlt, hname⟩ := List.findIdx?_eq_some_iff_getElem.mp h
      exact ⟨_, List.getElem_mem hlt, by simpa using hname.1⟩
  | none =>
      refine Or.inr ⟨rfl, ?_⟩
      rintro ⟨column, hm, hname⟩
      have := List.findIdx?_eq_none_iff.mp h column hm
      simp [hname] at this

theorem assign_eq (hn : (layout.columns.map LayoutColumn.name).Nodup)
    (hlen : values.length = layout.columns.length) (hk : Known layout assignments) :
    Table.assign layout values assignments =
      .ok (List.zipWith (newValue assignments) layout.columns values) := by
  induction assignments generalizing values with
  | nil =>
      rw [zipWith_right (f := newValue []) hlen fun _ _ _ => rfl]
      rfl
  | cons a rest ih =>
      obtain ⟨hfirst, hrest⟩ := List.forall_mem_cons.mp hk
      rcases columnIndex_eq layout a.1 with ⟨index, hi, hfind, -⟩ | ⟨-, hno⟩
      · rw [Table.assign, hi]
        show Table.assign layout _ rest = _
        have hnew : newValue (a :: rest) = fun c v =>
            newValue rest c (if a.1 = c.name then a.2 else v) := by
          funext c v
          exact newValue_cons a c v
        rw [ih (by simpa using hlen) hrest, set_eq_zipWith hn hlen hfind, zipWith_zipWith, hnew]
      · exact absurd hfirst hno

theorem assign_error (hk : ¬ Known layout assignments) (values : List Value) :
    ∃ e, Table.assign layout values assignments = .error e := by
  induction assignments generalizing values with
  | nil => exact absurd (fun _ hm => by cases hm) hk
  | cons a rest ih =>
      rcases columnIndex_eq layout a.1 with ⟨index, hi, -, hcol⟩ | ⟨he, -⟩
      · have hrest : ¬ Known layout rest := fun hr => hk (List.forall_mem_cons.mpr ⟨hcol, hr⟩)
        obtain ⟨e, he⟩ := ih hrest (values.set index a.2)
        exact ⟨e, by rw [Table.assign, hi]; exact he⟩
      · exact ⟨_, by rw [Table.assign, he]; rfl⟩

/-! ## Encoding again -/

/-- Every column can store what the assignments leave in it. -/
structure Fitting (layout : SchemaLayout) (assignments : List (String × Value)) : Prop where
  known : Known layout assignments
  accepts : ∀ column ∈ layout.columns, ∀ value, lastAssigned assignments column.name = some value →
    column.columnType.Accepts value

theorem column_eq_ok (h : layout.column name = .ok column) :
    column ∈ layout.columns ∧ column.name = name := by
  unfold SchemaLayout.column at h
  split at h
  next he =>
    rw [pure_eq_ok] at h
    subst h
    exact ⟨List.mem_of_find?_eq_some he, by simpa using List.find?_some he⟩
  next => cases h

theorem exists_of_lastAssigned (h : lastAssigned assignments name = some value) :
    ∃ a ∈ assignments, a.1 = name ∧ a.2 = value := by
  obtain ⟨a, ha, rfl⟩ := Option.map_eq_some_iff.mp h
  exact ⟨a, List.mem_reverse.mp (List.mem_of_find?_eq_some ha),
    by simpa using List.find?_some ha, rfl⟩

theorem Assignable.fitting (ha : Assignable layout assignments)
    (hc : compileSchema schema = .ok layout) :
    Fitting layout assignments := by
  refine ⟨fun a hm => ?_, fun column hm value hv => ?_⟩
  · obtain ⟨column, -, hcol, -⟩ := ha a hm
    exact ⟨column, column_eq_ok hcol⟩
  · obtain ⟨a, hma, hname, rfl⟩ := exists_of_lastAssigned hv
    obtain ⟨column', bytes, hcol, henc⟩ := ha a hma
    obtain ⟨hm', hname'⟩ := column_eq_ok hcol
    have hsame : column' = column := by
      exact List.inj_on_of_nodup_map (compileSchema_laid hc).nodup hm' hm (hname'.trans hname)
    exact hsame ▸ (encodeValue_eq_ok henc).1

/-- The values read back from an encoded row can be encoded after the assignments just when these
fit. -/
theorem forall₂_newValue (h : List.Forall₂ (Cell data) columns values) :
    List.Forall₂ (fun c v => c.columnType.Accepts v) columns
        (List.zipWith (newValue assignments) columns (values.map Value.stored)) ↔
      ∀ column ∈ columns, ∀ value, lastAssigned assignments column.name = some value →
        column.columnType.Accepts value := by
  induction h with
  | nil => simp
  | @cons column value columns values hc _ ih =>
      rw [List.map_cons, List.zipWith_cons_cons, List.forall₂_cons, ih, List.forall_mem_cons]
      refine and_congr_left fun _ => ?_
      unfold newValue
      cases lastAssigned assignments column.name with
      | none => simpa using hc.accepts.stored
      | some v => simp

/-- The cells after the assignments. -/
theorem assigns_of_cells {after : List UInt8} (h : List.Forall₂ (Cell data) columns values)
    (h' : List.Forall₂ (Cell after) columns
      (List.zipWith (newValue assignments) columns (values.map Value.stored))) :
    ∀ column ∈ columns, (∀ value, lastAssigned assignments column.name = some value →
        Cell after column value) ∧
      (lastAssigned assignments column.name = none →
        slice after column.offset column.columnType.fixedLen =
          slice data column.offset column.columnType.fixedLen) := by
  induction h with
  | nil => simp
  | @cons column value columns values hc _ ih =>
      rw [List.map_cons, List.zipWith_cons_cons, List.forall₂_cons] at h'
      refine List.forall_mem_cons.mpr ⟨⟨fun v hv => ?_, fun hnone => ?_⟩, ih h'.2⟩
      · have := h'.1
        rwa [newValue, hv] at this
      · have := h'.1
        rw [newValue, hnone] at this
        rw [this.bytes_eq, hc.bytes_eq]
        exact ColumnType.image_stored hc.accepts

/-- What the body of the loop of `update_where` makes of a record: it fails for every record, or
none. -/
theorem reencode_cases (hc : compileSchema schema = .ok layout) (he : Encodes layout data values)
    (assignments : List (String × Value)) :
    (Fitting layout assignments ∧ ∃ values' bytes,
        Table.assign layout (values.map Value.stored) assignments = .ok values' ∧
        encodeRow layout values' = .ok bytes ∧ Encodes layout bytes values' ∧
          Assigns layout assignments data bytes) ∨
      (¬ Fitting layout assignments ∧
        ∃ e, (do encodeRow layout (← Table.assign layout (values.map Value.stored) assignments)) =
          .error e) := by
  have hn := (compileSchema_laid hc).nodup
  have hlen : (values.map Value.stored).length = layout.columns.length := by
    rw [List.length_map, he.cells.length_eq]
  by_cases hk : Known layout assignments
  · have ha := assign_eq hn hlen hk
    have hcells : _ ↔ ∀ column ∈ layout.columns, ∀ value,
        lastAssigned assignments column.name = some value →
        column.columnType.Accepts value := forall₂_newValue he.cells
    have hiff := (encodeRow_ok_iff hc).trans hcells
    by_cases hacc : ∀ column ∈ layout.columns, ∀ value, lastAssigned assignments
        column.name = some value → column.columnType.Accepts value
    · obtain ⟨bytes, hb⟩ := hiff.mpr hacc
      have henc := encodeRow_encodes hc hb
      have hassign := assigns_of_cells he.cells henc.cells
      exact Or.inl ⟨⟨hk, hacc⟩, _, bytes, ha, hb, henc, henc.length.trans he.length.symm,
        fun c hm => (hassign c hm).1, fun c hm => (hassign c hm).2⟩
    · refine Or.inr ⟨fun hf => hacc hf.accepts, ?_⟩
      rw [ha]
      cases hrow : encodeRow layout
        (List.zipWith (newValue assignments) layout.columns (values.map Value.stored)) with
      | ok bytes => exact absurd (hiff.mp ⟨bytes, hrow⟩) hacc
      | error e => exact ⟨e, hrow⟩
  · obtain ⟨e, hee⟩ := assign_error hk (values.map Value.stored)
    exact Or.inr ⟨fun hf => hk hf.known, e, by rw [hee]; rfl⟩

end Redbase.Table
