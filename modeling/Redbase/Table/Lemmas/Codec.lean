import Redbase.Table.Codec
import Redbase.Table.Expr
import Redbase.Lib.Lines

/-!
# Encoded rows

The columns of a compiled layout tile the record. So each value of an encoded row is found, whole,
in the range of its column.
-/

namespace Redbase.Table

open Prog Bytes Text Record

variable {schema : TableSchema} {layout : SchemaLayout} {columns : List LayoutColumn}
  {column : LayoutColumn} {values : List Value} {value : Value} {bytes target : List UInt8}
  {start stop : Nat} {name : String}

/-! ## Identifiers -/

/-- The parts of an identifier end no field. -/
theorem isField_of_identifier (h : validateIdentifier name = .ok ()) : IsField name := by
  unfold validateIdentifier at h
  split at h
  next hid =>
    obtain ⟨-, hall⟩ := hid
    have hchars : utf8 name = name.toList.flatMap String.utf8EncodeChar := by
      rw [← utf8_ofList, String.ofList_toList]
    rw [hchars, List.all_eq_true] at hall
    have hno : ∀ c : Char, c = '\t' ∨ c = '\n' ∨ c = '\r' → c ∉ name.toList := by
      intro c hc hm
      have hbyte := fun b hb => hall b (List.mem_flatMap.mpr ⟨c, hm, hb⟩)
      rcases hc with rfl | rfl | rfl
      · exact absurd (hbyte 9 (by decide)) (by decide)
      · exact absurd (hbyte 10 (by decide)) (by decide)
      · exact absurd (hbyte 13 (by decide)) (by decide)
    intro c hm
    exact ⟨fun hc => hno c (Or.inl hc) hm, fun hc => hno c (Or.inr (Or.inl hc)) hm,
      fun hc => hno c (Or.inr (Or.inr hc)) hm⟩
  next => cases h

/-! ## One value -/

/-- A value that a column of the type can store. -/
def ColumnType.Accepts : ColumnType → Value → Prop
  | .int32, .int32 _ => True
  | .float32, .float32 _ => True
  | .char len, .char text => (utf8 text).length ≤ len
  | _, _ => False

/-- The bytes of a value in a column of the type. -/
def ColumnType.image : ColumnType → Value → List UInt8
  | _, .int32 number => i32Bytes number.toInt
  | _, .float32 bits => u32Bytes bits.toNat
  | type, .char text => pad type.fixedLen (utf8 text)

theorem ColumnType.length_image {type : ColumnType} (h : type.Accepts value) :
    (type.image value).length = type.fixedLen := by
  cases type <;> cases value <;> first | exact h.elim | exact length_pad h | simp [image, fixedLen]

theorem Int32.isI32 (n : Int32) : IsI32 n.toInt := ⟨n.le_toInt, n.toInt_lt⟩

theorem int32OfBytes_i32Bytes (n : Int32) : int32OfBytes (i32Bytes n.toInt) = n := by
  rw [int32OfBytes, i32OfBytes_i32Bytes (Int32.isI32 n), Int32.ofInt_toInt]

theorem float32OfBytes_u32Bytes (b : UInt32) : float32OfBytes (u32Bytes b.toNat) = b := by
  rw [float32OfBytes, leNat_u32Bytes b.toNat_lt, UInt32.ofNat_toNat]

/-- `column` holds `value` in `bytes`. -/
structure Cell (bytes : List UInt8) (column : LayoutColumn) (value : Value) : Prop where
  inside : column.offset + column.columnType.fixedLen ≤ bytes.length
  accepts : column.columnType.Accepts value
  bytes_eq : slice bytes column.offset column.columnType.fixedLen = column.columnType.image value

theorem encodeValue_eq_ok (h : encodeValue target column value = .ok bytes) :
    column.columnType.Accepts value ∧
      bytes = overwrite target column.offset (column.columnType.image value) := by
  unfold encodeValue at h
  cases hc : column.columnType <;> cases value <;>
    simp only [hc, throw_eq_ok, pure_eq_ok, ite_eq_ok, if_false_left] at h
  case int32.int32 => exact ⟨trivial, h.symm⟩
  case float32.float32 => exact ⟨trivial, h.symm⟩
  case char.char len text =>
    obtain ⟨hlen, rfl⟩ := h
    have hlen := Nat.not_lt.mp hlen
    exact ⟨hlen, overwrite_zeros_overwrite hlen⟩

theorem Cell.decode (h : Cell bytes column value) :
    decodeValue bytes column = .ok value.stored := by
  obtain ⟨hin, ha, hb⟩ := h
  have hraw : sliceAt bytes column.offset column.columnType.fixedLen =
      .ok (column.columnType.image value) := by
    rw [sliceAt, if_pos hin, hb]
    rfl
  simp only [decodeValue, hraw, bind_eq_ok]
  refine ⟨_, rfl, ?_⟩
  cases hc : column.columnType <;> cases value <;> rw [hc] at ha <;> try exact ha.elim
  case int32.int32 number =>
    simp only [ColumnType.image, int32OfBytes_i32Bytes]
    rfl
  case float32.float32 bits =>
    simp only [ColumnType.image, float32OfBytes_u32Bytes]
    rfl
  case char.char len text =>
    simp only [ColumnType.image, ColumnType.fixedLen, fromUtf8_trimZeros_pad]
    rfl

/-! ## The layout -/

/-- The columns cover the bytes from `start` to `stop`, one after the other. -/
def Tiles : Nat → List LayoutColumn → Nat → Prop
  | start, [], stop => start = stop
  | start, column :: rest, stop =>
      column.offset = start ∧ Tiles (start + column.columnType.fixedLen) rest stop

theorem Tiles.le (h : Tiles start columns stop) : start ≤ stop := by
  induction columns generalizing start with
  | nil => exact Nat.le_of_eq h
  | cons column rest ih => exact Nat.le_trans (Nat.le_add_right _ _) (ih h.2)

/-- What `compile_schema` checked of the columns from `start` on. -/
structure Laid (start : Nat) (schemas : List ColumnSchema) (columns : List LayoutColumn)
    (stop : Nat) : Prop where
  tiles : Tiles start columns stop
  names : columns.map LayoutColumn.name = schemas.map ColumnSchema.name
  types : columns.map LayoutColumn.columnType = schemas.map ColumnSchema.columnType
  nodup : (columns.map LayoutColumn.name).Nodup
  identifiers : ∀ column ∈ columns, validateIdentifier column.name = .ok ()
  positive : ∀ column ∈ columns, 0 < column.columnType.fixedLen
  stop_lt : stop < 2 ^ 64

theorem compileColumns_cons {seenNames : List String} {schemaColumn : ColumnSchema}
    {rest : List ColumnSchema} {r : List LayoutColumn × Nat}
    (h : compileColumns seenNames start (schemaColumn :: rest) = .ok r) :
    validateIdentifier schemaColumn.name = .ok () ∧ schemaColumn.name ∉ seenNames ∧
      0 < schemaColumn.columnType.fixedLen ∧ start + schemaColumn.columnType.fixedLen < 2 ^ 64 ∧
      ∃ columns recordSize,
        compileColumns (schemaColumn.name :: seenNames)
          (start + schemaColumn.columnType.fixedLen) rest =
          .ok (columns, recordSize) ∧
        r = (⟨schemaColumn.name, schemaColumn.columnType, start⟩ :: columns, recordSize) := by
  unfold compileColumns at h
  simp only [throw_bind, bind_eq_ok, throw_eq_ok, ite_eq_ok, if_false_left] at h
  obtain ⟨_, hname, hseen, hlen, h⟩ := h
  split at h
  next next hnext =>
    obtain rfl := checked_eq_some hnext
    simp only [bind_eq_ok, pure_eq_ok] at h
    obtain ⟨⟨columns, recordSize⟩, hrest, rfl⟩ := h
    exact ⟨hname, hseen, Nat.pos_of_ne_zero hlen, checked_lt hnext, columns, recordSize, hrest, rfl⟩
  next => cases h

theorem compileColumns_laid {seenNames : List String} {schemas : List ColumnSchema}
    (hs : start < 2 ^ 64) (h : compileColumns seenNames start schemas = .ok (columns, stop)) :
    Laid start schemas columns stop ∧ ∀ column ∈ columns, column.name ∉ seenNames := by
  induction schemas generalizing seenNames start columns with
  | nil =>
      obtain ⟨rfl, rfl⟩ : [] = columns ∧ start = stop := by simpa [compileColumns] using h
      exact ⟨⟨rfl, rfl, rfl, List.nodup_nil, by simp, by simp, hs⟩, by simp⟩
  | cons schemaColumn rest ih =>
      obtain ⟨hname, hseen, hlen, hlt, columns', stop', hrest, he⟩ := compileColumns_cons h
      obtain ⟨rfl, rfl⟩ := Prod.mk.inj he
      obtain ⟨hl, hfresh⟩ := ih hlt hrest
      have hnew : schemaColumn.name ∉ columns'.map LayoutColumn.name := by
        intro hm
        obtain ⟨column, hc, hn⟩ := List.mem_map.mp hm
        exact hfresh column hc (hn ▸ List.mem_cons_self)
      refine ⟨⟨⟨rfl, hl.tiles⟩, ?_, ?_, List.nodup_cons.mpr ⟨hnew, hl.nodup⟩, ?_, ?_,
        hl.stop_lt⟩, ?_⟩
      · exact congrArg _ hl.names
      · exact congrArg _ hl.types
      · exact List.forall_mem_cons.mpr ⟨hname, hl.identifiers⟩
      · exact List.forall_mem_cons.mpr ⟨hlen, hl.positive⟩
      · exact List.forall_mem_cons.mpr
          ⟨hseen, fun column hc hm => hfresh column hc (List.mem_cons_of_mem _ hm)⟩

theorem compileSchema_laid (h : compileSchema schema = .ok layout) :
    Laid 0 schema.columns layout.columns layout.recordSize := by
  simp only [compileSchema, throw_bind, bind_eq_ok, throw_eq_ok, ite_eq_ok, pure_eq_ok,
    if_false_left] at h
  obtain ⟨_, -, -, ⟨columns, recordSize⟩, hc, rfl⟩ := h
  exact (compileColumns_laid (by decide) hc).1

/-! ## Rows -/

/-- The bytes are those of a row: its values in the columns of the layout. -/
structure Encodes (layout : SchemaLayout) (bytes : List UInt8) (values : List Value) : Prop where
  length : bytes.length = layout.recordSize
  cells : List.Forall₂ (Cell bytes) layout.columns values

/-- Writing the columns from `start` on leaves what is before them. -/
theorem encodeValues_spec (hlen : values.length = columns.length)
    (ht : Tiles start columns stop) (hstop : stop ≤ target.length)
    (h : encodeValues target (columns.zip values) = .ok bytes) :
    bytes.length = target.length ∧
      (∀ off n, off + n ≤ start → slice bytes off n = slice target off n) ∧
      List.Forall₂ (Cell bytes) columns values := by
  induction columns generalizing start values target with
  | nil =>
      obtain rfl := List.length_eq_zero_iff.mp hlen
      obtain rfl : target = bytes := by simpa [encodeValues] using h
      exact ⟨rfl, fun _ _ _ => rfl, .nil⟩
  | cons column rest ih =>
      cases values with
      | nil => cases hlen
      | cons value values =>
          obtain ⟨rfl, hrest⟩ := ht
          simp only [List.zip_cons_cons, encodeValues, bind_eq_ok] at h
          obtain ⟨target', hv, h⟩ := h
          obtain ⟨ha, rfl⟩ := encodeValue_eq_ok hv
          have hle := hrest.le
          have himage := ColumnType.length_image ha
          obtain ⟨hl, hbefore, hcells⟩ := ih (Nat.succ.inj hlen) hrest (by simpa using hstop) h
          rw [length_overwrite] at hl
          refine ⟨hl, fun off n hoff => ?_, .cons ⟨by omega, ha, ?_⟩ hcells⟩
          · rw [hbefore off n (by omega), slice_overwrite_of_disjoint _ _ (Or.inl hoff)]
          · rw [hbefore _ _ (Nat.le_refl _), ← himage]
            exact slice_overwrite_self (by omega)

theorem encodeRow_encodes (hc : compileSchema schema = .ok layout)
    (h : encodeRow layout values = .ok bytes) :
    Encodes layout bytes values := by
  simp only [encodeRow, ite_eq_ok, throw_eq_ok, if_false_left, not_not] at h
  obtain ⟨hlen, h⟩ := h
  obtain ⟨hl, -, hcells⟩ := encodeValues_spec hlen (compileSchema_laid hc).tiles (by simp) h
  exact ⟨by simpa using hl, hcells⟩

theorem mapM_decodeValue (h : List.Forall₂ (Cell bytes) columns values) :
    columns.mapM (fun column => decodeValue bytes column) = .ok (values.map Value.stored) := by
  induction h with
  | nil => rfl
  | cons hc _ ih =>
      rw [List.mapM_cons, hc.decode]
      simp only [ih]
      rfl

/-- An encoded row is read back, its texts without their trailing NULs. -/
theorem Encodes.decode (h : Encodes layout bytes values) (rid : Rid) :
    decodeRecord layout ⟨rid, bytes⟩ = .ok ⟨values.map Value.stored⟩ := by
  simp only [decodeRecord, bind_eq_ok, pure_eq_ok]
  exact ⟨_, mapM_decodeValue h.cells, rfl⟩

end Redbase.Table
