import Redbase.Database.Catalog
import Redbase.Table.Lemmas.Codec
import Redbase.Index.Lemmas.Catalog

/-!
# The catalog of the tables is read back

What `save` writes, `load` reads, when every schema in it compiles.
-/

namespace Redbase.Database

open Prog Text Page Files Table Index Function

variable {catalog : Catalog} {d : Disk} {name : String} {schema : TableSchema}
  {layout : SchemaLayout}

/-! ## Compiled schemas -/

theorem compileSchema_name (h : compileSchema schema = .ok layout) :
    validateIdentifier schema.name = .ok () := by
  simp only [compileSchema, throw_bind, bind_eq_ok, throw_eq_ok, ite_eq_ok, pure_eq_ok,
    if_false_left] at h
  obtain ⟨_, hname, -⟩ := h
  exact hname

theorem compileColumns_checked {seenNames : List String} {start : Nat} {columns : List ColumnSchema}
    {r : List LayoutColumn × Nat} (h : compileColumns seenNames start columns = .ok r) :
    ∀ column ∈ columns, validateIdentifier column.name = .ok () ∧
      column.columnType.fixedLen < 2 ^ 64 := by
  induction columns generalizing seenNames start r with
  | nil => simp
  | cons column rest ih =>
      obtain ⟨hname, -, -, hlt, columns', stop, hrest, -⟩ := compileColumns_cons h
      exact List.forall_mem_cons.mpr
        ⟨⟨hname, Nat.lt_of_le_of_lt (Nat.le_add_left _ _) hlt⟩, ih hrest⟩

theorem compileSchema_columns (h : compileSchema schema = .ok layout) :
    ∀ column ∈ schema.columns, validateIdentifier column.name = .ok () ∧
      column.columnType.fixedLen < 2 ^ 64 := by
  simp only [compileSchema, throw_bind, bind_eq_ok, throw_eq_ok, ite_eq_ok, pure_eq_ok,
    if_false_left] at h
  obtain ⟨_, -, -, r, hc, -⟩ := h
  exact compileColumns_checked hc

/-! ## The lines of a table -/

namespace Catalog

theorem isField_catalogHeader : IsField catalogHeader := by decide

theorem columnRow_isField (h : compileSchema schema = .ok layout) {column : ColumnSchema}
    (hm : column ∈ schema.columns) :
    ∀ s ∈ columnRow column, IsField s := by
  have hname := isField_of_identifier (compileSchema_columns h column hm).1
  have htag : IsField "column" := by decide
  have hint : IsField "int32" := by decide
  have hfloat : IsField "float32" := by decide
  have hchar : IsField "char" := by decide
  unfold columnRow
  split
  · simpa using ⟨htag, hname, hint⟩
  · simpa using ⟨htag, hname, hfloat⟩
  · simpa using ⟨htag, hname, hchar, isField_toString _⟩

theorem tableRows_isField (h : compileSchema schema = .ok layout) :
    ∀ row ∈ tableRows schema, ∀ s ∈ row, IsField s := by
  have htag : IsField "table" := by decide
  have hend : IsField "end" := by decide
  have hname := isField_of_identifier (compileSchema_name h)
  refine List.forall_mem_cons.mpr ⟨by simpa using ⟨htag, hname⟩, fun row hr => ?_⟩
  rcases List.mem_append.mp hr with hr | hr
  · obtain ⟨column, hm, rfl⟩ := List.mem_map.mp hr
    exact columnRow_isField h hm
  · obtain rfl := List.mem_singleton.mp hr
    simpa using hend

theorem joinFields_tableRow_ne : ∀ row ∈ tableRows schema, joinFields row ≠ "" := by
  refine List.forall_mem_cons.mpr ⟨joinFields_ne_empty (by decide), fun row hr => ?_⟩
  rcases List.mem_append.mp hr with hr | hr
  · obtain ⟨column, -, rfl⟩ := List.mem_map.mp hr
    unfold columnRow
    split <;> exact joinFields_ne_empty (by decide)
  · obtain rfl := List.mem_singleton.mp hr
    exact joinFields_ne_empty (by decide)

theorem tableRow_ne_nil : ∀ row ∈ tableRows schema, row ≠ [] := by
  refine List.forall_mem_cons.mpr ⟨List.cons_ne_nil _ _, fun row hr => ?_⟩
  rcases List.mem_append.mp hr with hr | hr
  · obtain ⟨column, -, rfl⟩ := List.mem_map.mp hr
    unfold columnRow
    split <;> exact List.cons_ne_nil _ _
  · obtain rfl := List.mem_singleton.mp hr
    exact List.cons_ne_nil _ _

/-- The tables, each under its name; of a repeated name the last one stays. -/
def insertAll (tables : SortedMap String TableSchema compareText) (blocks : List TableSchema) :
    SortedMap String TableSchema compareText :=
  blocks.foldl (fun tables table => tables.insert table.name table) tables

/-- The schemas compile. -/
def Compiled (blocks : List TableSchema) : Prop :=
  ∀ table ∈ blocks, ∃ layout, compileSchema table = .ok layout

namespace Draft

/-- The fields of the rows are added one after the other. -/
def addRows (draft : Draft) : List (List String) → Except TableError Draft
  | [] => return draft
  | row :: rest => do addRows (← draft.addFields row) rest

theorem addRows_append (draft : Draft) (rows rows' : List (List String)) :
    draft.addRows (rows ++ rows') = draft.addRows rows >>= fun draft => draft.addRows rows' := by
  induction rows generalizing draft with
  | nil => rfl
  | cons row rest ih =>
      rw [List.cons_append, addRows, addRows]
      cases draft.addFields row with
      | error e => rfl
      | ok next => exact ih next

/-- Blank lines do not count. -/
theorem addLines_eq (draft : Draft) (lines : List String) :
    draft.addLines lines = draft.addRows ((lines.filter fun line => line ≠ "").map fields) := by
  induction lines generalizing draft with
  | nil => rfl
  | cons line rest ih =>
      rw [addLines]
      by_cases hblank : line = ""
      · rw [if_pos hblank, ih, List.filter_cons, if_neg (by simpa using hblank)]
      · rw [if_neg hblank, List.filter_cons, if_pos (by simpa using hblank), List.map_cons, addRows]
        cases draft.addFields (fields line) with
        | error e => rfl
        | ok next => exact ih next

/-- The lines of rows are read as the rows. -/
theorem fields_lines {rows : List (List String)} (hne : ∀ row ∈ rows, joinFields row ≠ "")
    (hnil : ∀ row ∈ rows, row ≠ []) (hf : ∀ row ∈ rows, ∀ s ∈ row, IsField s) :
    ((rows.map joinFields).filter fun line => line ≠ "").map fields = rows := by
  have hall : (rows.map joinFields).filter (fun line => line ≠ "") = rows.map joinFields := by
    refine List.filter_eq_self.mpr fun line hm => ?_
    obtain ⟨row, hr, rfl⟩ := List.mem_map.mp hm
    simpa using hne row hr
  rw [hall, List.map_map]
  conv_rhs => rw [← List.map_id rows]
  exact List.map_congr_left fun row hr => fields_joinFields (hnil row hr) (hf row hr)

theorem addFields_columnRow (draft : Draft) {table : TableSchema} {column : ColumnSchema}
    (ht : draft.currentTable = some table) (hlen : column.columnType.fixedLen < 2 ^ 64) :
    draft.addFields (columnRow column) =
      .ok { draft with
        currentTable := some { table with columns := table.columns ++ [column] } } := by
  obtain ⟨name, columnType⟩ := column
  cases columnType with
  | int32 => simp [columnRow, addFields, pushColumn, ht, pure, Except.pure]
  | float32 => simp [columnRow, addFields, pushColumn, ht, pure, Except.pure]
  | char len =>
      have hparse : parseUnsigned 64 (toString len) = some len := parseUnsigned_toString hlen
      rw [Nat.toString_eq_repr] at hparse
      simp [columnRow, addFields, pushColumn, ht, hparse, pure, Except.pure]

theorem addRows_columns (draft : Draft) {table : TableSchema} {columns : List ColumnSchema}
    (ht : draft.currentTable = some table)
    (hlen : ∀ column ∈ columns, column.columnType.fixedLen < 2 ^ 64) :
    draft.addRows (columns.map columnRow) =
      .ok { draft with
        currentTable := some { table with columns := table.columns ++ columns } } := by
  induction columns generalizing draft table with
  | nil =>
      obtain ⟨tables, currentTable⟩ := draft
      obtain rfl : currentTable = some table := ht
      simp [addRows, pure, Except.pure]
  | cons column rest ih =>
      obtain ⟨hfirst, hrest⟩ := List.forall_mem_cons.mp hlen
      rw [List.map_cons, addRows, addFields_columnRow draft ht hfirst]
      show addRows _ _ = _
      rw [ih _ rfl hrest, List.append_assoc]
      rfl

/-- The lines of a table add the table. -/
theorem addRows_table (tables : SortedMap String TableSchema compareText)
    (h : compileSchema schema = .ok layout) :
    (⟨tables, none⟩ : Draft).addRows (tableRows schema) =
      .ok ⟨tables.insert schema.name schema, none⟩ := by
  have hlen : ∀ column ∈ schema.columns, column.columnType.fixedLen < 2 ^ 64 := fun column hm =>
    (compileSchema_columns h column hm).2
  have htable : (⟨tables, none⟩ : Draft).addFields ["table", schema.name] =
      .ok ⟨tables, some ⟨schema.name, []⟩⟩ := rfl
  have hend : (⟨tables, some schema⟩ : Draft).addFields ["end"] =
      .ok ⟨tables.insert schema.name schema, none⟩ := by
    show (do let _ ← compileSchema schema; return _ : Except TableError Draft) = _
    rw [h]
    rfl
  rw [tableRows, addRows, htable]
  show addRows _ _ = _
  rw [addRows_append, addRows_columns _ rfl hlen]
  show addRows ⟨tables, some schema⟩ [["end"]] = _
  rw [addRows, hend]
  rfl

theorem addRows_tables {blocks : List TableSchema}
    (tables : SortedMap String TableSchema compareText) (h : Compiled blocks) :
    (⟨tables, none⟩ : Draft).addRows (blocks.flatMap tableRows) =
      .ok ⟨insertAll tables blocks, none⟩ := by
  induction blocks generalizing tables with
  | nil => rfl
  | cons table rest ih =>
      obtain ⟨⟨layout, hc⟩, hrest⟩ := List.forall_mem_cons.mp h
      rw [List.flatMap_cons, addRows_append, addRows_table tables hc]
      exact ih _ hrest

end Draft

/-! ## The whole file -/

/-- Every table is listed under its name, and its schema compiles. -/
def Storable (catalog : Catalog) : Prop :=
  ∀ name schema, catalog.tables.find name = some schema → schema.name = name ∧
    ∃ layout, compileSchema schema = .ok layout

/-- The rows of a catalog file after its header. -/
def rowsOf (content : String) : List (List String) :=
  ((lines content).tail.filter fun line => line ≠ "").map fields

/-- The file that declares the tables. -/
def declaring (blocks : List TableSchema) : String :=
  fileText ([catalogHeader] :: blocks.flatMap tableRows)

section Declaring

variable {blocks : List TableSchema}

theorem mem_tableRows (h : Compiled blocks) {row : List String}
    (hr : row ∈ blocks.flatMap tableRows) :
    joinFields row ≠ "" ∧ row ≠ [] ∧ ∀ s ∈ row, IsField s := by
  obtain ⟨table, hm, hrow⟩ := List.mem_flatMap.mp hr
  obtain ⟨layout, hl⟩ := h table hm
  exact ⟨joinFields_tableRow_ne row hrow, tableRow_ne_nil row hrow, tableRows_isField hl row hrow⟩

theorem lines_declaring (h : Compiled blocks) :
    lines (declaring blocks) = catalogHeader :: (blocks.flatMap tableRows).map joinFields := by
  have hall : ∀ row ∈ [catalogHeader] :: blocks.flatMap tableRows, ∀ s ∈ row, IsField s :=
    List.forall_mem_cons.mpr
      ⟨by simpa using isField_catalogHeader, fun row hr => (mem_tableRows h hr).2.2⟩
  rw [declaring, lines_fileText hall, List.map_cons, joinFields_singleton]

theorem rowsOf_declaring (h : Compiled blocks) :
    rowsOf (declaring blocks) = blocks.flatMap tableRows := by
  rw [rowsOf, lines_declaring h, List.tail_cons]
  exact Draft.fields_lines (fun row hr => (mem_tableRows h hr).1)
    (fun row hr => (mem_tableRows h hr).2.1)
    fun row hr => (mem_tableRows h hr).2.2

theorem load_lines {header : String} {rest : List String} {content : String}
    (hd : d.readToString catalogPath = .ok content) (hlines : lines content = header :: rest) :
    load d = .ok catalog ↔ header = catalogHeader ∧
      (⟨SortedMap.empty, none⟩ : Draft).addRows (rowsOf content) = .ok ⟨catalog.tables, none⟩ := by
  unfold load
  rw [if_neg (by simp [Disk.pathExists_of_read hd]), hd]
  simp only [Except.mapError, bind_eq_ok]
  constructor
  · rintro ⟨_, ⟨⟩, h⟩
    rw [hlines] at h
    simp only [ite_eq_ok, throw_eq_ok, if_false_left, ne_eq, not_not, bind_eq_ok, pure_eq_ok] at h
    obtain ⟨hheader, ⟨tables, currentTable⟩, hadd, hc, rfl⟩ := h
    rw [Draft.addLines_eq] at hadd
    obtain rfl : currentTable = none := by simpa using hc
    refine ⟨hheader, ?_⟩
    rw [rowsOf, hlines]
    exact hadd
  · rintro ⟨hheader, hadd⟩
    refine ⟨content, rfl, ?_⟩
    rw [hlines]
    simp only [ite_eq_ok, throw_eq_ok, if_false_left, ne_eq, not_not, bind_eq_ok, pure_eq_ok]
    rw [rowsOf, hlines, List.tail_cons, ← Draft.addLines_eq] at hadd
    exact ⟨hheader, _, hadd, by simp, rfl⟩

theorem load_no_lines {content : String} (hd : d.readToString catalogPath = .ok content)
    (hlines : lines content = []) (hl : load d = .ok catalog) : catalog = empty := by
  unfold load at hl
  rw [if_neg (by simp [Disk.pathExists_of_read hd]), hd] at hl
  simp only [Except.mapError, bind_eq_ok] at hl
  obtain ⟨_, ⟨⟩, hl⟩ := hl
  rw [hlines] at hl
  exact (pure_eq_ok.mp hl).symm

/-- Compiled tables that are declared are loaded. -/
theorem load_declaring (h : Compiled blocks)
    (hd : d.files catalogPath = some (utf8 (declaring blocks))) :
    load d = .ok ⟨insertAll SortedMap.empty blocks⟩ := by
  rw [load_lines (Disk.readToString_of_write hd) (lines_declaring h), rowsOf_declaring h]
  exact ⟨rfl, Draft.addRows_tables _ h⟩

end Declaring

/-- What was saved is loaded. -/
theorem load_content (hc : catalog.Storable)
    (hd : d.files catalogPath = some (utf8 catalog.content)) :
    load d = .ok catalog := by
  have hm : ∀ entry ∈ catalog.tables.entries, entry.2.name = entry.1 ∧
      ∃ layout, compileSchema entry.2 = .ok layout :=
    fun entry he => hc entry.1 entry.2 (SortedMap.find_eq_some_iff.mpr he)
  have hcompiled : Compiled catalog.tables.values := by
    intro table ht
    obtain ⟨name, hfind⟩ := SortedMap.mem_values.mp ht
    exact (hc name table hfind).2
  have hvalues : insertAll SortedMap.empty catalog.tables.values = catalog.tables := by
    conv_rhs => rw [← SortedMap.foldl_insert_empty catalog.tables]
    rw [insertAll, SortedMap.values, List.foldl_map]
    refine List.foldl_ext _ _ _ fun tables entry he => ?_
    rw [(hm entry he).1]
  rw [load_declaring hcompiled hd, hvalues]

theorem save_files {d' : Disk} (h : catalog.save d = .ok () d') :
    d'.files catalogPath = some (utf8 catalog.content) := by
  refine wp_ok h (Q := fun _ t => t.files catalogPath = some (utf8 catalog.content))
    (E := fun _ _ => True) ?_
  unfold save
  rw [wp_mapError]
  exact Disk.write_files

/-- Before anything is saved there is no table. -/
theorem load_none (hd : d.files catalogPath = none) : load d = .ok empty := by
  unfold load
  rw [if_pos]
  · rfl
  · rw [Disk.pathExists, hd]
    rfl

end Catalog

end Redbase.Database
