import Redbase.Table.Expr
import Redbase.Table.Lemmas.Codec

/-!
# Well-formed schemas and well-typed expressions

The columns of an expression are columns of the schema, and what they are compared with is of their
type. The source has no type checker: the names are checked first, then every comparison when it is
compiled, and the compiled filter once more for the size of a record.
-/

namespace Redbase.Table

open Record

/-- The bytes of a row. -/
def TableSchema.rowSize (schema : TableSchema) : Nat :=
  (schema.columns.map fun column => column.columnType.fixedLen).sum

/-- A schema of a table: names that are identifiers, columns of different names, and rows that fit
in a page. -/
structure TableSchema.WellFormed (schema : TableSchema) : Prop where
  name : validateIdentifier schema.name = .ok ()
  nonempty : schema.columns ≠ []
  identifiers : ∀ column ∈ schema.columns, validateIdentifier column.name = .ok ()
  nodup : (schema.columns.map ColumnSchema.name).Nodup
  positive : ∀ column ∈ schema.columns, 0 < column.columnType.fixedLen
  fits : recordPageHeaderSize + 1 + schema.rowSize ≤ Page.pageDataSize

/-- The type of a column. -/
def TableSchema.typeOf (schema : TableSchema) (column : String) : Option ColumnType :=
  (schema.columns.find? fun item => item.name = column).map ColumnSchema.columnType

/-- Two columns of different types can only be compared by the operator that looks at neither; a
node has children. -/
inductive Expr.WellTyped (schema : TableSchema) : Expr → Prop
  | cmpValue {column : String} {op : ScanCompOp} {value : Value} {type : ColumnType}
      (known : schema.typeOf column = some type) (accepts : type.Accepts value) :
      WellTyped schema (.cmpValue column op value)
  | cmpColumns {lhs rhs : String} {op : ScanCompOp} {type type' : ColumnType}
      (known : schema.typeOf lhs = some type)
      (known' : schema.typeOf rhs = some type') (same : op ≠ .noOp → type = type') :
      WellTyped schema (.cmpColumns lhs op rhs)
  | and {children : List Expr} (nonempty : children ≠ [])
      (each : ∀ child ∈ children, WellTyped schema child) :
      WellTyped schema (.and children)
  | or {children : List Expr} (nonempty : children ≠ [])
      (each : ∀ child ∈ children, WellTyped schema child) :
      WellTyped schema (.or children)
  | not {child : Expr} (typed : WellTyped schema child) : WellTyped schema (.not child)

/-- An optional filter; where there is none, there is nothing to check. -/
def FilterTyped (schema : TableSchema) (filter : Option Expr) : Prop :=
  ∀ expr, filter = some expr → expr.WellTyped schema

/-! ## Inversion -/

namespace Expr.WellTyped

variable {schema : TableSchema} {column lhs rhs : String} {op : ScanCompOp} {value : Value}
  {children : List Expr} {child : Expr}

theorem cmpValue_iff : WellTyped schema (.cmpValue column op value) ↔
    ∃ type, schema.typeOf column = some type ∧ type.Accepts value := by
  constructor
  · intro h
    cases h with
    | cmpValue known accepts => exact ⟨_, known, accepts⟩
  · rintro ⟨type, known, accepts⟩
    exact .cmpValue known accepts

theorem cmpColumns_iff : WellTyped schema (.cmpColumns lhs op rhs) ↔
    ∃ type type', schema.typeOf lhs = some type ∧ schema.typeOf rhs = some type' ∧
      (op ≠ .noOp → type = type') := by
  constructor
  · intro h
    cases h with
    | cmpColumns known known' same => exact ⟨_, _, known, known', same⟩
  · rintro ⟨type, type', known, known', same⟩
    exact .cmpColumns known known' same

theorem and_iff :
    WellTyped schema (.and children) ↔ children ≠ [] ∧
      ∀ child ∈ children, WellTyped schema child := by
  constructor
  · intro h
    cases h with
    | and nonempty each => exact ⟨nonempty, each⟩
  · rintro ⟨nonempty, each⟩
    exact .and nonempty each

theorem or_iff :
    WellTyped schema (.or children) ↔ children ≠ [] ∧
      ∀ child ∈ children, WellTyped schema child := by
  constructor
  · intro h
    cases h with
    | or nonempty each => exact ⟨nonempty, each⟩
  · rintro ⟨nonempty, each⟩
    exact .or nonempty each

theorem not_iff : WellTyped schema (.not child) ↔ WellTyped schema child := by
  constructor
  · intro h
    cases h with
    | not typed => exact typed
  · exact .not

end Expr.WellTyped

end Redbase.Table
