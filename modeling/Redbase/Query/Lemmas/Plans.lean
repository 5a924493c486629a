import Redbase.Query.Acceptance
import Redbase.Query.Lemmas.Naming
import Redbase.Query.Lemmas.Ordering
import Redbase.Table.Lemmas.Typing

/-!
# The plans that can be resolved

A request about the columns of a table has a plan just when it names columns of the schema, each
once where that matters, and its values are of their types.
-/

namespace Redbase.Query

open Prog Record Table

variable {schema : TableSchema} {layout : SchemaLayout} {table column name : String}
  {names seen : List String} {type : ColumnType} {index : Nat} {found : ColumnSchema}

/-! ## Columns -/

theorem requireColumn_iff :
    requireColumn schema table name = .ok () ↔ ∃ type, schema.typeOf name = some type := by
  rw [requireColumn_eq_ok, TableSchema.typeOf]
  cases hf : schema.columns.find? fun item => item.name = name with
  | none =>
      have hno := List.find?_eq_none.mp hf
      simpa using hno
  | some item =>
      have hm := List.mem_of_find?_eq_some hf
      have hname : item.name = name := by simpa using List.find?_some hf
      simp only [Option.map_some, Option.some.injEq, exists_eq', iff_true]
      exact List.mem_map.mpr ⟨item, hm, hname⟩

theorem find?_zipIdx_fst {α : Type} (p : α → Bool) (l : List α) (n : Nat) :
    ((l.zipIdx n).find? fun item => p item.1).map Prod.fst = l.find? p := by
  induction l generalizing n with
  | nil => rfl
  | cons a rest ih =>
      rw [List.zipIdx_cons, List.find?_cons, List.find?_cons]
      cases p a with
      | true => rfl
      | false => exact ih (n + 1)

/-- A column is resolved just when it has a type. -/
theorem resolveSchemaColumn_iff :
    (∃ index, resolveSchemaColumn schema table name = .ok (index, found)) ↔
      schema.columns.find? (fun item => item.name = name) = some found := by
  rw [← find?_zipIdx_fst _ _ 0]
  unfold resolveSchemaColumn
  cases schema.columns.zipIdx.find? fun item => item.1.name = name with
  | none => simp
  | some item =>
      obtain ⟨c, i⟩ := item
      simp

theorem typeOf_iff_resolves :
    schema.typeOf name = some type ↔ ∃ index found, resolveSchemaColumn schema table name =
      .ok (index, found) ∧ found.columnType = type := by
  rw [TableSchema.typeOf, Option.map_eq_some_iff, exists_comm]
  refine exists_congr fun found => ?_
  rw [← @resolveSchemaColumn_iff schema table, exists_and_right]

/-! ## Lists of columns -/

/-- Names that are different from each other and from those that were seen before. -/
def Unseen (seen names : List String) : Prop := (∀ name ∈ names, name ∉ seen) ∧ names.Nodup

theorem unseen_nil_left : Unseen [] names ↔ names.Nodup := by simp [Unseen]

theorem unseen_cons {rest : List String} :
    Unseen seen (name :: rest) ↔ name ∉ seen ∧ Unseen (name :: seen) rest := by
  rw [Unseen, Unseen, List.forall_mem_cons, List.nodup_cons]
  simp only [List.mem_cons, not_or]
  constructor
  · rintro ⟨⟨hname, hrest⟩, hnew, hnodup⟩
    exact ⟨hname, fun other hm => ⟨fun he => hnew (he ▸ hm), hrest other hm⟩, hnodup⟩
  · rintro ⟨hname, hrest, hnodup⟩
    exact ⟨⟨hname, fun other hm => (hrest other hm).2⟩, fun hm => (hrest name hm).1 rfl, hnodup⟩

theorem projectionColumns_ok_iff :
    (∃ resolved, projectionColumns table schema seen names = .ok resolved) ↔
      Unseen seen names ∧ ∀ name ∈ names, ∃ type, schema.typeOf name = some type := by
  induction names generalizing seen with
  | nil => simp [projectionColumns, Unseen]
  | cons name rest ih =>
      rw [unseen_cons, List.forall_mem_cons]
      simp only [projectionColumns, throw_bind, bind_eq_ok, throw_eq_ok, ite_eq_ok, pure_eq_ok,
        if_false_left]
      constructor
      · rintro ⟨_, hname, ⟨index, found⟩, hfound, others, hrest, rfl⟩
        obtain ⟨hunseen, hknown⟩ := ih.mp ⟨others, hrest⟩
        exact ⟨⟨hname, hunseen⟩, ⟨_, typeOf_iff_resolves.mpr ⟨index, found, hfound, rfl⟩⟩, hknown⟩
      · rintro ⟨⟨hname, hunseen⟩, ⟨type, htype⟩, hknown⟩
        obtain ⟨index, found, hfound, -⟩ := (@typeOf_iff_resolves schema table name type).mp htype
        obtain ⟨others, hrest⟩ := ih.mpr ⟨hunseen, hknown⟩
        exact ⟨_, hname, _, hfound, others, hrest, rfl⟩

theorem orderKeys_ok_iff {orderBy : List OrderBy} :
    (∃ keys, orderKeys table schema seen orderBy = .ok keys) ↔
      Unseen seen (orderBy.map OrderBy.column) ∧ ∀ name ∈ orderBy.map OrderBy.column, ∃ type,
        schema.typeOf name = some type := by
  induction orderBy generalizing seen with
  | nil => simp [orderKeys, Unseen]
  | cons item rest ih =>
      rw [List.map_cons, unseen_cons, List.forall_mem_cons]
      simp only [orderKeys, throw_bind, bind_eq_ok, throw_eq_ok, ite_eq_ok, pure_eq_ok,
        if_false_left]
      constructor
      · rintro ⟨_, hname, ⟨index, found⟩, hfound, others, hrest, rfl⟩
        obtain ⟨hunseen, hknown⟩ := ih.mp ⟨others, hrest⟩
        exact ⟨⟨hname, hunseen⟩, ⟨_, typeOf_iff_resolves.mpr ⟨index, found, hfound, rfl⟩⟩, hknown⟩
      · rintro ⟨⟨hname, hunseen⟩, ⟨type, htype⟩, hknown⟩
        obtain ⟨index, found, hfound, -⟩ :=
          (@typeOf_iff_resolves schema table item.column type).mp htype
        obtain ⟨others, hrest⟩ := ih.mpr ⟨hunseen, hknown⟩
        exact ⟨_, hname, _, hfound, others, hrest, rfl⟩

theorem normalizeEach_ok_iff {assignments : List Assignment} :
    (∃ plan, normalizeEach table schema seen assignments = .ok plan) ↔
      Unseen seen (assignments.map Assignment.column) ∧
      ∀ a ∈ assignments, ∃ type, schema.typeOf a.column = some type ∧
        valueMatchesType type a.value = true := by
  induction assignments generalizing seen with
  | nil => simp [normalizeEach, Unseen]
  | cons a rest ih =>
      rw [List.map_cons, unseen_cons, List.forall_mem_cons]
      simp only [normalizeEach, throw_bind, bind_eq_ok, throw_eq_ok, ite_eq_ok, pure_eq_ok,
        if_false_left, Bool.not_eq_false]
      constructor
      · rintro ⟨_, hname, ⟨index, found⟩, hfound, hvalue, others, hrest, rfl⟩
        obtain ⟨hunseen, htyped⟩ := ih.mp ⟨others, hrest⟩
        exact ⟨⟨hname, hunseen⟩,
          ⟨_, typeOf_iff_resolves.mpr ⟨index, found, hfound, rfl⟩, hvalue⟩, htyped⟩
      · rintro ⟨⟨hname, hunseen⟩, ⟨type, htype, hvalue⟩, htyped⟩
        obtain ⟨index, found, hfound, rfl⟩ :=
          (@typeOf_iff_resolves schema table a.column type).mp htype
        obtain ⟨others, hrest⟩ := ih.mpr ⟨hunseen, htyped⟩
        exact ⟨_, hname, _, hfound, hvalue, others, hrest, rfl⟩

/-! ## Plans -/

theorem resolveUpdatePlan_ok_iff {request : UpdateRequest} :
    (∃ plan, resolveUpdatePlan table schema request = .ok plan) ↔
      validateFilter table schema request.filter = .ok () ∧
        AssignsTyped schema request.assignments := by
  have heach := @normalizeEach_ok_iff schema table [] request.assignments
  rw [unseen_nil_left] at heach
  simp only [resolveUpdatePlan, normalizeAssignments, bind_eq_ok, throw_eq_ok, ite_eq_ok,
    if_false_left, List.isEmpty_iff]
  constructor
  · rintro ⟨plan, _, hfilter, hne, hplan⟩
    obtain ⟨hnodup, htyped⟩ := heach.mp ⟨plan, hplan⟩
    exact ⟨hfilter, hne, hnodup, htyped⟩
  · rintro ⟨hfilter, hne, hnodup, htyped⟩
    obtain ⟨plan, hplan⟩ := heach.mpr ⟨hnodup, htyped⟩
    exact ⟨plan, (), hfilter, hne, hplan⟩

theorem resolveProjection_ok_iff {projection : Projection} :
    (∃ plan, resolveProjection table schema projection = .ok plan) ↔ projection.Known schema := by
  cases projection with
  | all => exact iff_of_true ⟨_, rfl⟩ trivial
  | columns names =>
      have hcolumns := @projectionColumns_ok_iff schema table names []
      rw [unseen_nil_left] at hcolumns
      simp only [resolveProjection, bind_eq_ok, pure_eq_ok]
      constructor
      · rintro ⟨_, resolved, hresolved, -⟩
        obtain ⟨hnodup, hknown⟩ := hcolumns.mp ⟨resolved, hresolved⟩
        exact ⟨hnodup, hknown⟩
      · rintro ⟨hnodup, hknown⟩
        obtain ⟨resolved, hresolved⟩ := hcolumns.mpr ⟨hnodup, hknown⟩
        exact ⟨_, resolved, hresolved, rfl⟩

theorem normalizeLimit_ok_iff {limit : Option Nat} :
    (∃ l, normalizeLimit table limit = .ok l) ↔ limit ≠ some 0 := by
  rcases limit with _ | _ | n <;> simp [normalizeLimit]

theorem resolveSelectPlan_ok_iff {request : ExtendedSelectRequest} :
    (∃ plan, resolveSelectPlan table schema request = .ok plan) ↔
      request.projection.Known schema ∧ NamesColumns schema (request.orderBy.map OrderBy.column) ∧
        request.limit ≠ some 0 := by
  have hkeys := @orderKeys_ok_iff schema table [] request.orderBy
  rw [unseen_nil_left] at hkeys
  rw [← @resolveProjection_ok_iff schema table, ← @normalizeLimit_ok_iff table]
  simp only [resolveSelectPlan, resolveOrderBy, bind_eq_ok, pure_eq_ok]
  constructor
  · rintro ⟨_, projection, hp, keys, hk, limit, hl, -⟩
    obtain ⟨hnodup, hknown⟩ := hkeys.mp ⟨keys, hk⟩
    exact ⟨⟨projection, hp⟩, ⟨hnodup, hknown⟩, limit, hl⟩
  · rintro ⟨⟨projection, hp⟩, ⟨hnodup, hknown⟩, limit, hl⟩
    obtain ⟨keys, hk⟩ := hkeys.mpr ⟨hnodup, hknown⟩
    exact ⟨_, projection, hp, keys, hk, limit, hl, rfl⟩

/-! ## Filters -/

mutual

/-- The columns of a well-typed expression pass the first check. -/
theorem validateExprColumns_of_wellTyped (expr : Expr) (h : expr.WellTyped schema) :
    validateExprColumns table schema expr = .ok () := by
  cases expr with
  | cmpValue column op value =>
      obtain ⟨type, known, -⟩ := Expr.WellTyped.cmpValue_iff.mp h
      exact requireColumn_iff.mpr ⟨type, known⟩
  | cmpColumns lhs op rhs =>
      obtain ⟨type, type', known, known', -⟩ := Expr.WellTyped.cmpColumns_iff.mp h
      simp only [validateExprColumns, bind_eq_ok]
      exact ⟨(), requireColumn_iff.mpr ⟨type, known⟩, requireColumn_iff.mpr ⟨type', known'⟩⟩
  | and children => exact validateExprsColumns_of_wellTyped children (Expr.WellTyped.and_iff.mp h).2
  | or children => exact validateExprsColumns_of_wellTyped children (Expr.WellTyped.or_iff.mp h).2
  | not child => exact validateExprColumns_of_wellTyped child (Expr.WellTyped.not_iff.mp h)

theorem validateExprsColumns_of_wellTyped (exprs : List Expr)
    (h : ∀ expr ∈ exprs, expr.WellTyped schema) :
    validateExprsColumns table schema exprs = .ok () := by
  cases exprs with
  | nil => rfl
  | cons expr rest =>
      obtain ⟨hexpr, hrest⟩ := List.forall_mem_cons.mp h
      simp only [validateExprsColumns, bind_eq_ok]
      exact ⟨(), validateExprColumns_of_wellTyped expr hexpr,
        validateExprsColumns_of_wellTyped rest hrest⟩

end

theorem validateFilter_of_typed {filter : Option Expr} (h : FilterTyped schema filter) :
    validateFilter table schema filter = .ok () := by
  cases filter with
  | none => rfl
  | some expr => exact validateExprColumns_of_wellTyped expr (h expr rfl)

/-! ## Rows -/

theorem accepts_matchesType {value : Value} (h : type.Accepts value) :
    valueMatchesType type value = true := by
  cases type <;> cases value <;> first | rfl | exact h.elim

/-- The values of a request are taken just when it gives them and each is of the type of its
column. -/
theorem normalizeInsertInput_ok_iff {input : InsertInput} {values : List Value}
    (hc : compileSchema schema = .ok layout) :
    normalizeInsertInput table schema input = .ok values ↔ input.Gives schema values ∧
      List.Forall₂ (fun column value => valueMatchesType column.columnType value = true)
        schema.columns values := by
  have hnodup : (schema.columns.map ColumnSchema.name).Nodup :=
    (compileSchema_laid hc).names ▸ (compileSchema_laid hc).nodup
  have htypes : validateRowTypes table schema values = .ok () ↔
      List.Forall₂ (fun column value => valueMatchesType column.columnType value = true)
        schema.columns values := by
    rw [validateRowTypes_eq_ok, List.forall₂_iff_zip, eq_comm]
    refine and_congr_right fun hlen => ?_
    exact Prod.forall
  cases input with
  | fullRow given =>
      simp only [normalizeInsertInput, bind_eq_ok, pure_eq_ok, InsertInput.Gives]
      constructor
      · rintro ⟨_, hv, rfl⟩
        exact ⟨rfl, htypes.mp hv⟩
      · rintro ⟨rfl, hv⟩
        exact ⟨(), htypes.mpr hv, rfl⟩
  | named entries =>
      rw [normalizeInsertInput, normalizeNamedInsert_eq_ok hnodup, htypes, and_comm]
      rfl

/-- A row is encoded just when every column can store its value. -/
theorem encodeRow_ok_iff_schema {values : List Value} (hc : compileSchema schema = .ok layout) :
    (∃ bytes, encodeRow layout values = .ok bytes) ↔
      List.Forall₂ (fun column value => column.columnType.Accepts value) schema.columns values := by
  rw [encodeRow_ok_iff hc]
  have hl : List.Forall₂ (fun type value => ColumnType.Accepts type value)
      (layout.columns.map LayoutColumn.columnType) values ↔
      List.Forall₂ (fun type value => ColumnType.Accepts type value)
        (schema.columns.map ColumnSchema.columnType) values := by
    rw [(compileSchema_laid hc).types]
  rwa [List.forall₂_map_left_iff, List.forall₂_map_left_iff] at hl

end Redbase.Query
