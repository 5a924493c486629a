import Redbase.Database.Lemmas.Catalog

/-!
# What a catalog file declares

The rows of a file that is loaded are blocks: the name of a table, its columns and an end.
-/

namespace Redbase.Database

open Prog Text Page Files Table

variable {catalog : Catalog} {d : Disk} {row : List String} {rows : List (List String)}
  {table : TableSchema} {column : ColumnSchema} {blocks : List TableSchema}
  {tables : SortedMap String TableSchema compareText}

namespace Catalog

/-! ## Blocks -/

/-- The row declares the column. -/
inductive ColumnRow : List String → ColumnSchema → Prop
  | int32 (name : String) : ColumnRow ["column", name, "int32"] ⟨name, .int32⟩
  | float32 (name : String) : ColumnRow ["column", name, "float32"] ⟨name, .float32⟩
  | char {name len : String} {n : Nat} (h : parseUnsigned 64 len = some n) :
      ColumnRow ["column", name, "char", len] ⟨name, .char n⟩

/-- The rows are the blocks of these tables, one after the other. -/
inductive Declares : List (List String) → List TableSchema → Prop
  | nil : Declares [] []
  | block {name : String} {rows rest : List (List String)} {columns : List ColumnSchema}
      {tables : List TableSchema}
      (hcolumns : List.Forall₂ ColumnRow rows columns) (hrest : Declares rest tables) :
      Declares (["table", name] :: (rows ++ ["end"] :: rest)) (⟨name, columns⟩ :: tables)

/-- The name in a row that opens a block. -/
def openedName : List String → Option String
  | [tag, name] => if tag = "table" then some name else none
  | _ => none

theorem ColumnRow.openedName (h : ColumnRow row column) : Catalog.openedName row = none := by
  cases h with
  | int32 => rfl
  | float32 => rfl
  | char => rfl

theorem Declares.openedNames (h : Declares rows blocks) :
    rows.filterMap openedName = blocks.map TableSchema.name := by
  induction h with
  | nil => rfl
  | @block name rows rest columns tables hcolumns hrest ih =>
      have hnone : rows.filterMap openedName = [] := by
        induction hcolumns with
        | nil => rfl
        | cons hrow _ ih => rw [List.filterMap_cons, hrow.openedName, ih]
      have hopen : openedName ["table", name] = some name := rfl
      have hend : openedName ["end"] = none := rfl
      rw [List.filterMap_cons, hopen, List.filterMap_append, hnone, List.nil_append,
        List.filterMap_cons, hend, ih, List.map_cons]

/-! ## The loop of `load` -/

namespace Draft

variable {draft next : Draft}

theorem pushColumn_eq_ok {name : String} {columnType : ColumnType}
    (h : draft.pushColumn name columnType = .ok next) :
    ∃ table, draft.currentTable = some table ∧
      next = ⟨draft.tables, some ⟨table.name, table.columns ++ [⟨name, columnType⟩]⟩⟩ := by
  unfold pushColumn at h
  cases hc : draft.currentTable with
  | none => simp [hc] at h
  | some table =>
      rw [hc] at h
      exact ⟨table, rfl, (pure_eq_ok.mp h).symm⟩

/-- A row opens a block, adds a column to the open one, or closes it. -/
theorem addFields_cases (h : draft.addFields row = .ok next) :
    (∃ name, row = ["table", name] ∧ draft.currentTable = none ∧
        next = ⟨draft.tables, some ⟨name, []⟩⟩) ∨
      (∃ table column, ColumnRow row column ∧ draft.currentTable = some table ∧
        next = ⟨draft.tables, some ⟨table.name, table.columns ++ [column]⟩⟩) ∨
      ∃ table layout, row = ["end"] ∧ draft.currentTable = some table ∧
        compileSchema table = .ok layout ∧ next = ⟨draft.tables.insert table.name table, none⟩ := by
  unfold addFields at h
  split at h
  next tag =>
    simp only [ite_eq_ok, throw_eq_ok, if_false_right] at h
    obtain ⟨rfl, h⟩ := h
    cases hc : draft.currentTable with
    | none => simp [hc] at h
    | some table =>
        simp only [hc, bind_eq_ok, pure_eq_ok] at h
        obtain ⟨layout, hl, rfl⟩ := h
        exact Or.inr (Or.inr ⟨table, layout, rfl, rfl, hl, rfl⟩)
  next tag name =>
    simp only [ite_eq_ok, throw_eq_ok, if_false_right, if_false_left, pure_eq_ok] at h
    obtain ⟨rfl, hc, rfl⟩ := h
    exact Or.inl ⟨name, rfl, by simpa using hc, rfl⟩
  next tag name kind =>
    simp only [ite_eq_ok, throw_eq_ok, if_false_right] at h
    split at h
    next hk =>
      obtain ⟨rfl, rfl⟩ := hk
      obtain ⟨table, hc, rfl⟩ := pushColumn_eq_ok h
      exact Or.inr (Or.inl ⟨table, _, .int32 name, hc, rfl⟩)
    next =>
      obtain ⟨⟨rfl, rfl⟩, h⟩ := h
      obtain ⟨table, hc, rfl⟩ := pushColumn_eq_ok h
      exact Or.inr (Or.inl ⟨table, _, .float32 name, hc, rfl⟩)
  next tag name kind len =>
    simp only [ite_eq_ok, throw_eq_ok, if_false_right, if_false_left] at h
    obtain ⟨⟨rfl, rfl⟩, -, h⟩ := h
    cases hp : parseUnsigned 64 len with
    | none => simp [hp] at h
    | some n =>
        rw [hp] at h
        obtain ⟨table, hc, rfl⟩ := pushColumn_eq_ok h
        exact Or.inr (Or.inl ⟨table, _, .char hp, hc, rfl⟩)
  next => cases h

/-- What was accepted are blocks; a block that was open at the start is closed. -/
theorem addRows_declares (h : draft.addRows rows = .ok ⟨tables, none⟩) :
    (draft.currentTable = none → ∃ blocks, Declares rows blocks ∧ Compiled blocks ∧
        tables = insertAll draft.tables blocks) ∧
      ∀ table, draft.currentTable = some table → ∃ lines columns rest blocks, rows = lines ++
        ["end"] :: rest ∧ List.Forall₂ ColumnRow lines columns ∧ Declares rest blocks ∧
        Compiled (⟨table.name, table.columns ++ columns⟩ :: blocks) ∧
        tables = insertAll draft.tables (⟨table.name, table.columns ++ columns⟩ :: blocks) := by
  induction rows generalizing draft with
  | nil =>
      obtain rfl := pure_eq_ok.mp h
      exact ⟨fun _ => ⟨[], .nil, List.forall_mem_nil _, rfl⟩, by rintro table ⟨⟩⟩
  | cons row rest ih =>
      rw [addRows, bind_eq_ok] at h
      obtain ⟨next, hrow, hrest⟩ := h
      obtain ⟨hclosed, hopen⟩ := ih hrest
      obtain ⟨name, rfl, hc, rfl⟩ | ⟨table, column, hcolumn, hc, rfl⟩ | ⟨table, layout, rfl,
          hc, hl, rfl⟩ :=
        addFields_cases hrow
      · obtain ⟨lines, columns, rest', blocks, rfl, hlines, hd, hcompiled, rfl⟩ := hopen _ rfl
        refine ⟨fun _ => ⟨_, .block hlines hd, hcompiled, rfl⟩, fun table' hc' => ?_⟩
        rw [hc] at hc'
        cases hc'
      · obtain ⟨lines, columns, rest', blocks, rfl, hlines, hd, hcompiled, rfl⟩ := hopen _ rfl
        refine ⟨fun hnone => ?_, fun table' hc' => ?_⟩
        · rw [hc] at hnone
          cases hnone
        · rw [hc] at hc'
          cases hc'
          simp only [List.append_assoc, List.singleton_append] at hcompiled ⊢
          exact ⟨row :: lines, column :: columns, rest', blocks, rfl, .cons hcolumn hlines, hd,
            hcompiled, rfl⟩
      · obtain ⟨blocks, hd, hcompiled, rfl⟩ := hclosed rfl
        refine ⟨fun hnone => ?_, fun table' hc' => ?_⟩
        · rw [hc] at hnone
          cases hnone
        · rw [hc] at hc'
          cases hc'
          refine ⟨[], [], rest, blocks, rfl, .nil, hd, ?_, ?_⟩
          · rw [List.append_nil]
            exact List.forall_mem_cons.mpr ⟨⟨layout, hl⟩, hcompiled⟩
          · rw [List.append_nil]
            rfl

end Draft

end Catalog

end Redbase.Database
