import Redbase.Query.Plan
import Redbase.Table.Lemmas.Codec
import Mathlib.Data.List.Perm.Basic
import Mathlib.Data.List.Nodup

/-!
# Values under the names of their columns

A named insert is read in two passes: the entries are collected under their columns, and then taken
out in the order of the schema.
-/

namespace Redbase.Query

open Prog Record Index Table Database

variable {schema : TableSchema} {layout : SchemaLayout} {table : String} {entries : List NamedValue}
  {entry : NamedValue} {values ordered : List Value} {value : Value} {columns : List ColumnSchema}
  {column : ColumnSchema} {seen found : List (String × Value)} {name : String}

/-- The values of a row, each under the name of its column. -/
def naming (schema : TableSchema) (values : List Value) : List NamedValue :=
  (schema.columns.zip values).map fun item => ⟨item.1.name, item.2⟩

/-! ## Bindings -/

theorem lookup_cons_of_ne {key : String} {bound : Value} (h : name ≠ key) :
    ((key, bound) :: found).lookup name = found.lookup name := by
  have hbeq : (name == key) = false := beq_eq_false_iff_ne.mpr h
  rw [List.lookup_cons, hbeq]

theorem lookup_eq_some_iff_mem (h : (found.map Prod.fst).Nodup) :
    found.lookup name = some value ↔ (name, value) ∈ found := by
  induction found with
  | nil => simp
  | cons head rest ih =>
      obtain ⟨key, bound⟩ := head
      obtain ⟨hnew, hrest⟩ := List.nodup_cons.mp h
      by_cases hkey : name = key
      · subst hkey
        have hno : (name, value) ∉ rest := fun hm => hnew (List.mem_map.mpr ⟨_, hm, rfl⟩)
        simp [hno, eq_comm]
      · rw [lookup_cons_of_ne hkey, ih hrest]
        simp [hkey]

theorem lookup_filter_ne {key : String} (h : name ≠ key) :
    (found.filter fun entry => entry.1 ≠ key).lookup name = found.lookup name := by
  induction found with
  | nil => rfl
  | cons head rest ih =>
      obtain ⟨bound, value⟩ := head
      by_cases hbound : bound = key
      · subst hbound
        rw [List.filter_cons, if_neg (by simp), ih, lookup_cons_of_ne h]
      · rw [List.filter_cons, if_pos (by simp [hbound])]
        simp only [List.lookup_cons, ih]

/-! ## The two passes -/

theorem requireColumn_eq_ok :
    requireColumn schema table name = .ok () ↔ name ∈ schema.columns.map ColumnSchema.name := by
  simp [requireColumn]

theorem namedValues_cons {rest : List NamedValue} :
    namedValues table schema seen (entry :: rest) = .ok found ↔
      entry.column ∈ schema.columns.map ColumnSchema.name ∧ seen.lookup entry.column = none ∧
        namedValues table schema ((entry.column, entry.value) :: seen) rest = .ok found := by
  rw [namedValues, bind_eq_ok]
  simp only [bind_eq_ok, throw_eq_ok, ite_eq_ok]
  cases hl : seen.lookup entry.column with
  | none =>
      constructor
      · rintro ⟨_, hc, h⟩
        exact ⟨requireColumn_eq_ok.mp hc, rfl, h⟩
      · rintro ⟨hc, -, h⟩
        exact ⟨(), requireColumn_eq_ok.mpr hc, h⟩
  | some value => simp

theorem namedValues_eq_ok :
    namedValues table schema seen entries = .ok found ↔
      (∀ entry ∈ entries, entry.column ∈ schema.columns.map ColumnSchema.name ∧
          seen.lookup entry.column = none) ∧
        (entries.map NamedValue.column).Nodup ∧
        found = (entries.map fun entry => (entry.column, entry.value)).reverse ++ seen := by
  induction entries generalizing seen with
  | nil =>
      rw [namedValues, pure_eq_ok, eq_comm (a := seen)]
      simp
  | cons entry rest ih =>
      have hcons (name : String) : ((entry.column, entry.value) :: seen).lookup name = none ↔
          name ≠ entry.column ∧ seen.lookup name = none := by
        by_cases hname : name = entry.column
        · simp [hname]
        · rw [lookup_cons_of_ne hname, and_iff_right hname]
      rw [namedValues_cons, ih, List.forall_mem_cons, List.map_cons, List.nodup_cons, List.map_cons,
        List.reverse_cons, List.append_assoc]
      simp only [hcons]
      constructor
      · rintro ⟨hc, hfree, hrest, hnd, hfound⟩
        refine ⟨⟨⟨hc, hfree⟩, fun e he => ⟨(hrest e he).1, (hrest e he).2.2⟩⟩, ⟨?_, hnd⟩, hfound⟩
        intro hm
        obtain ⟨e, he, heq⟩ := List.mem_map.mp hm
        exact (hrest e he).2.1 heq
      · rintro ⟨⟨⟨hc, hfree⟩, hrest⟩, ⟨hnew, hnd⟩, hfound⟩
        refine ⟨hc, hfree, fun e he => ⟨(hrest e he).1, ?_, (hrest e he).2⟩, hnd, hfound⟩
        rintro heq
        exact hnew (List.mem_map.mpr ⟨e, he, heq⟩)

theorem orderedValues_cons {rest : List ColumnSchema} :
    orderedValues table found (column :: rest) = .ok ordered ↔
      ∃ value others, found.lookup column.name = some value ∧
        valueMatchesType column.columnType value = true ∧
        orderedValues table (found.filter fun entry => entry.1 ≠ column.name) rest = .ok others ∧
        ordered = value :: others := by
  rw [orderedValues]
  cases hl : found.lookup column.name with
  | none => simp
  | some value =>
      simp only [bind_eq_ok, throw_eq_ok, ite_eq_ok, pure_eq_ok]
      constructor
      · intro h
        split at h
        next =>
          obtain ⟨_, ⟨⟩, -⟩ := h
        next hv =>
          obtain ⟨others, ho, rfl⟩ := h
          exact ⟨value, others, rfl, by simpa using hv, ho, rfl⟩
      · rintro ⟨_, others, ⟨⟩, hv, ho, rfl⟩
        rw [if_neg (by simp [hv])]
        exact ⟨others, ho, rfl⟩

/-- Over distinct columns the bindings that were taken out do not matter. -/
theorem orderedValues_eq_ok (bound : String → Option Value)
    (h : (columns.map ColumnSchema.name).Nodup)
    (hb : ∀ column ∈ columns, found.lookup column.name = bound column.name) :
    orderedValues table found columns = .ok ordered ↔
      List.Forall₂ (fun column value => bound column.name = some value ∧
        valueMatchesType column.columnType value = true) columns ordered := by
  induction columns generalizing found ordered with
  | nil =>
      rw [orderedValues, pure_eq_ok, List.forall₂_nil_left_iff]
      exact eq_comm
  | cons column rest ih =>
      obtain ⟨hnew, hrest⟩ := List.nodup_cons.mp h
      obtain ⟨hcolumn, hothers⟩ := List.forall_mem_cons.mp hb
      have hkept : ∀ c ∈ rest, (found.filter fun entry => entry.1 ≠ column.name).lookup c.name =
          bound c.name := by
        intro c hc
        have hne : c.name ≠ column.name := fun heq => hnew (heq ▸ List.mem_map_of_mem hc)
        rw [lookup_filter_ne hne, hothers c hc]
      rw [orderedValues_cons, List.forall₂_cons_left_iff, hcolumn]
      simp only [ih hrest hkept]
      constructor
      · rintro ⟨value, others, hl, hv, ho, rfl⟩
        exact ⟨value, others, ⟨hl, hv⟩, ho, rfl⟩
      · rintro ⟨value, others, ⟨hl, hv⟩, ho, rfl⟩
        exact ⟨value, others, hl, hv, ho, rfl⟩

theorem validateTypes_eq_ok {items : List (ColumnSchema × Value)} :
    validateTypes table items = .ok () ↔
      ∀ item ∈ items, valueMatchesType item.1.columnType item.2 = true := by
  induction items with
  | nil => simp [validateTypes]
  | cons item rest ih =>
      obtain ⟨column, value⟩ := item
      rw [validateTypes, List.forall_mem_cons]
      by_cases hv : valueMatchesType column.columnType value = true
      · simp [hv, ih]
      · simp [hv]

theorem validateRowTypes_eq_ok :
    validateRowTypes table schema values = .ok () ↔ values.length = schema.columns.length ∧
      ∀ item ∈ schema.columns.zip values, valueMatchesType item.1.columnType item.2 = true := by
  simp only [validateRowTypes, throw_bind, throw_eq_ok, ite_eq_ok, if_false_left,
    validateTypes_eq_ok, ne_eq, not_not]

/-! ## Permutations of a naming -/

theorem naming_columns (h : values.length = schema.columns.length) :
    (naming schema values).map NamedValue.column = schema.columns.map ColumnSchema.name := by
  have hzip : (schema.columns.zip values).map Prod.fst = schema.columns :=
    List.map_fst_zip (Nat.le_of_eq h.symm)
  rw [naming, List.map_map]
  conv_rhs => rw [← hzip, List.map_map]
  rfl

theorem mem_naming : entry ∈ naming schema values ↔
    ∃ column, (column, entry.value) ∈ schema.columns.zip values ∧ column.name = entry.column := by
  rw [naming, List.mem_map]
  constructor
  · rintro ⟨⟨column, value⟩, hm, rfl⟩
    exact ⟨column, hm, rfl⟩
  · rintro ⟨column, hm, hname⟩
    refine ⟨_, hm, ?_⟩
    rw [hname]

theorem lookup_bindings (h : (entries.map NamedValue.column).Nodup) :
    (entries.map fun entry => (entry.column, entry.value)).reverse.lookup name = some value ↔
      ⟨name, value⟩ ∈ entries := by
  have hkeys :
      ((entries.map fun entry => (entry.column, entry.value)).reverse.map Prod.fst).Nodup := by
    rw [List.map_reverse, List.map_map, List.nodup_reverse]
    exact h
  rw [lookup_eq_some_iff_mem hkeys, List.mem_reverse, List.mem_map]
  constructor
  · rintro ⟨entry, hm, heq⟩
    obtain ⟨rfl, rfl⟩ := Prod.mk.inj heq
    exact hm
  · intro hm
    exact ⟨_, hm, rfl⟩

theorem normalizeNamedInsert_cells (hnd : (schema.columns.map ColumnSchema.name).Nodup) :
    normalizeNamedInsert table schema entries = .ok values ↔
      (∀ entry ∈ entries, entry.column ∈ schema.columns.map ColumnSchema.name) ∧
        (entries.map NamedValue.column).Nodup ∧
        List.Forall₂ (fun column value => ⟨column.name, value⟩ ∈ entries ∧
          valueMatchesType column.columnType value = true) schema.columns values := by
  have hordered (found : List (String × Value)) :
      orderedValues table found schema.columns = .ok values ↔
      List.Forall₂ (fun column value => found.lookup column.name = some value ∧
        valueMatchesType column.columnType value = true) schema.columns values :=
    orderedValues_eq_ok (fun name => found.lookup name) hnd fun _ _ => rfl
  rw [normalizeNamedInsert, bind_eq_ok]
  simp only [namedValues_eq_ok, List.append_nil, List.lookup_nil, and_true, hordered]
  constructor
  · rintro ⟨_, ⟨hc, hdistinct, rfl⟩, hv⟩
    simp only [lookup_bindings hdistinct] at hv
    exact ⟨hc, hdistinct, hv⟩
  · rintro ⟨hc, hdistinct, hv⟩
    refine ⟨_, ⟨hc, hdistinct, rfl⟩, ?_⟩
    simp only [lookup_bindings hdistinct]
    exact hv

/-- A named insert gives the row whose naming it is, up to the order of the entries. -/
theorem normalizeNamedInsert_eq_ok (hnd : (schema.columns.map ColumnSchema.name).Nodup) :
    normalizeNamedInsert table schema entries = .ok values ↔
      validateRowTypes table schema values = .ok () ∧ entries.Perm (naming schema values) := by
  rw [normalizeNamedInsert_cells hnd, validateRowTypes_eq_ok, List.forall₂_iff_zip]
  constructor
  · rintro ⟨hc, hdistinct, hlen, hcells⟩
    refine ⟨⟨hlen.symm, fun item hm => (hcells hm).2⟩, ?_⟩
    have hnaming : (naming schema values).Nodup :=
      List.Nodup.of_map NamedValue.column (naming_columns hlen.symm ▸ hnd)
    refine (List.perm_ext_iff_of_nodup (List.Nodup.of_map _ hdistinct) hnaming).mpr
      fun entry => ⟨fun he => ?_, fun he => ?_⟩
    · -- the entry and the cell of its column are both bound to the name
      have hcolumn := hc entry he
      rw [← naming_columns hlen.symm] at hcolumn
      obtain ⟨named, hnamed, hname⟩ := List.mem_map.mp hcolumn
      obtain ⟨column, hm, hsame⟩ := mem_naming.mp hnamed
      have hgiven := (hcells hm).1
      rw [hsame] at hgiven
      obtain rfl : named = entry := List.inj_on_of_nodup_map hdistinct hgiven he hname
      exact hnamed
    · obtain ⟨column, hm, hname⟩ := mem_naming.mp he
      have hgiven := (hcells hm).1
      rw [hname] at hgiven
      exact hgiven
  · rintro ⟨⟨hlen, htypes⟩, hperm⟩
    have hcolumns : (entries.map NamedValue.column).Perm (schema.columns.map ColumnSchema.name) :=
      naming_columns hlen ▸ hperm.map NamedValue.column
    refine ⟨fun entry he => hcolumns.mem_iff.mp (List.mem_map_of_mem he),
      hcolumns.nodup_iff.mpr hnd, hlen.symm, ?_⟩
    intro column value hm
    exact ⟨hperm.mem_iff.mpr (mem_naming.mpr ⟨column, hm, rfl⟩), htypes _ hm⟩

theorem map_zip_names {sorted : List NamedValue}
    (h : List.Forall₂ (fun entry column => entry.column = ColumnSchema.name column)
      sorted columns) :
    (columns.zip (sorted.map NamedValue.value)).map
      (fun item => (⟨item.1.name, item.2⟩ : NamedValue)) = sorted := by
  induction h with
  | nil => rfl
  | cons hname _ ih =>
      rw [List.map_cons, List.zip_cons_cons, List.map_cons, ih, ← hname]

/-- Entries for all columns, each once, are a naming up to their order. -/
theorem exists_naming
    (h : (entries.map NamedValue.column).Perm (schema.columns.map ColumnSchema.name)) :
    ∃ values, values.length = schema.columns.length ∧ entries.Perm (naming schema values) := by
  have hcomp : Relation.Comp (List.Forall₂ fun (entry : NamedValue) name => entry.column = name)
      List.Perm entries
      (schema.columns.map ColumnSchema.name) := by
    refine ⟨_, ?_, h⟩
    rw [List.forall₂_map_right_iff]
    exact List.forall₂_same.mpr fun _ _ => rfl
  rw [List.forall₂_comp_perm_eq_perm_comp_forall₂] at hcomp
  obtain ⟨sorted, hperm, hnames⟩ := hcomp
  rw [List.forall₂_map_right_iff] at hnames
  have hlen : sorted.length = schema.columns.length := hnames.length_eq
  have hnaming : naming schema (sorted.map NamedValue.value) = sorted := map_zip_names hnames
  refine ⟨sorted.map NamedValue.value, by rw [List.length_map, hlen], ?_⟩
  rw [hnaming]
  exact hperm

end Redbase.Query
