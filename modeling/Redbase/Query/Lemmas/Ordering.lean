import Redbase.Query.Meaning
import Redbase.Table.Lemmas.Index

/-!
# The order of rows

Rows of one schema are compared column by column; on them the comparison is a total preorder. The
columns of a request are found by their names, those of a plan by their places.
-/

namespace Redbase.Query

open Prog Record Table

/-! ## Values -/

section Values

variable {columnType : ColumnType} {a b c : Value}

theorem compareValues_swap (a b : Value) : compareValues b a = (compareValues a b).swap := by
  cases a <;> cases b <;> simp only [compareValues, totalCmp, Ordering.swap_eq]
  · exact Std.OrientedOrd.eq_swap
  · exact Std.OrientedOrd.eq_swap
  · exact Std.OrientedCmp.eq_swap

theorem compareText_trans {x y z : String} (hxy : (Text.compareText x y).isLE = true)
    (hyz : (Text.compareText y z).isLE = true) : (Text.compareText x z).isLE = true :=
  Std.TransCmp.isLE_trans hxy hyz

theorem compareValues_trans (ha : valueMatchesType columnType a = true)
    (hb : valueMatchesType columnType b = true) (hc : valueMatchesType columnType c = true)
    (hab : (compareValues a b).isLE = true) (hbc : (compareValues b c).isLE = true) :
    (compareValues a c).isLE = true := by
  cases columnType <;> cases a <;> cases ha <;> cases b <;> cases hb <;> cases c <;> cases hc
  · exact Std.TransOrd.isLE_trans hab hbc
  · exact Std.TransOrd.isLE_trans hab hbc
  · exact compareText_trans hab hbc

end Values

/-! ## Rows -/

section Rows

variable {schema : TableSchema} {row a b c : Row} {index : Nat} {keys : List OrderKeyPlan}

theorem OfSchema.value (h : OfSchema schema row) (hi : index < schema.columns.length) :
    ∃ value, row.values[index]? = some value ∧
      valueMatchesType (schema.columns[index]).columnType value = true := by
  have hlt : index < row.values.length := h.length_eq ▸ hi
  exact ⟨row.values[index], List.getElem?_eq_getElem hlt, List.Forall₂.get h hi hlt⟩

/-- How two rows compare at one place. -/
def compareAt (key : OrderKeyPlan) (a b : Row) : Ordering :=
  match a.values[key.index]?, b.values[key.index]? with
  | some lhs, some rhs => key.direction.apply (compareValues lhs rhs)
  | _, _ => .eq

/-- `compare_rows` where it does not panic. -/
def orderAt : List OrderKeyPlan → Row → Row → Ordering
  | [] => fun _ _ => .eq
  | key :: rest => compareLex (compareAt key) (orderAt rest)

theorem compareRows_eq (ha : OfSchema schema a) (hb : OfSchema schema b)
    (hk : ∀ key ∈ keys, key.index < schema.columns.length) :
    compareRows a b keys = some (orderAt keys a b) := by
  induction keys with
  | nil => rfl
  | cons key rest ih =>
      obtain ⟨hkey, hrest⟩ := List.forall_mem_cons.mp hk
      obtain ⟨lhs, hlhs, -⟩ := ha.value hkey
      obtain ⟨rhs, hrhs, -⟩ := hb.value hkey
      have hat : compareAt key a b = key.direction.apply (compareValues lhs rhs) := by
        rw [compareAt, hlhs, hrhs]
      have hvalue : compareRowValueAt a b key.index = some (compareValues lhs rhs) := by
        rw [compareRowValueAt, hlhs, hrhs]
        rfl
      simp only [compareRows, hvalue, Option.bind_eq_bind, Option.bind_some, ih hrest, orderAt,
        compareLex, hat]
      cases key.direction <;> cases compareValues lhs rhs <;> rfl

/-- At one place rows of the schema are compared by a total preorder. -/
theorem transCmp_compareAt {key : OrderKeyPlan} (hk : key.index < schema.columns.length) :
    Std.TransCmp fun a b : {row // OfSchema schema row} => compareAt key a.1 b.1 where
  eq_swap {a b} := by
    obtain ⟨lhs, hlhs, -⟩ := a.2.value hk
    obtain ⟨rhs, hrhs, -⟩ := b.2.value hk
    simp only [compareAt, hlhs, hrhs, compareValues_swap lhs rhs]
    cases key.direction <;> cases compareValues lhs rhs <;> rfl
  isLE_trans {a b c} hab hbc := by
    obtain ⟨x, hx, htx⟩ := a.2.value hk
    obtain ⟨y, hy, hty⟩ := b.2.value hk
    obtain ⟨z, hz, htz⟩ := c.2.value hk
    simp only [compareAt, hx, hy] at hab
    simp only [compareAt, hy, hz] at hbc
    simp only [compareAt, hx, hz]
    cases hd : key.direction with
    | asc =>
        rw [hd] at hab hbc
        exact compareValues_trans htx hty htz hab hbc
    | desc =>
        rw [hd] at hab hbc
        simp only [SortDirection.apply, ← compareValues_swap] at hab hbc ⊢
        exact compareValues_trans htz hty htx hbc hab

theorem transCmp_orderAt (hk : ∀ key ∈ keys, key.index < schema.columns.length) :
    Std.TransCmp fun a b : {row // OfSchema schema row} => orderAt keys a.1 b.1 := by
  induction keys with
  | nil => exact { eq_swap := rfl, isLE_trans := fun _ _ => rfl }
  | cons key rest ih =>
      obtain ⟨hkey, hrest⟩ := List.forall_mem_cons.mp hk
      have : Std.TransCmp fun a b : {row // OfSchema schema row} => compareAt key a.1 b.1 :=
        transCmp_compareAt hkey
      have := ih hrest
      exact inferInstanceAs
        (Std.TransCmp (compareLex (fun a b : {row // OfSchema schema row} => compareAt key a.1 b.1)
        fun a b => orderAt rest a.1 b.1))

end Rows

/-! ## Columns -/

section Columns

variable {schema : TableSchema} {layout : SchemaLayout} {table column : String}
  {columns seen : List String} {index : Nat} {found : ColumnSchema} {orderBy : List OrderBy}
  {keys : List OrderKeyPlan} {resolved : List (Nat × ColumnSchema)}

/-- The column `found` is at `index`, and rows have its value there. -/
structure FoundAt (schema : TableSchema) (column : String) (index : Nat) (found : ColumnSchema) :
    Prop where
  lt : index < schema.columns.length
  named : found.name = column
  field : ∀ row, Row.field schema row column = row.values[index]?

theorem foundAt_of_findIdx? (h : schema.columns.findIdx? (fun c => c.name = column) = some index)
    (hlt : index < schema.columns.length) :
    FoundAt schema column index schema.columns[index] where
  lt := hlt
  named := by
    obtain ⟨_, hname, -⟩ := List.findIdx?_eq_some_iff_getElem.mp h
    exact of_decide_eq_true hname
  field row := by
    rw [Row.field]
    refine lookup_zip ?_
    rw [List.findIdx?_map]
    exact h

theorem resolveSchemaColumn_eq_ok
    (h : resolveSchemaColumn schema table column = .ok (index, found)) :
    FoundAt schema column index found := by
  unfold resolveSchemaColumn at h
  cases hf : schema.columns.zipIdx.find? fun item => item.1.name = column with
  | none =>
      rw [hf] at h
      cases h
  | some item =>
      rw [hf] at h
      obtain ⟨c, i⟩ := item
      cases h
      have hidx : schema.columns.findIdx? (fun c => c.name = column) = some index := by
        rw [List.findIdx?_eq_fst_find?_zipIdx, hf]
        rfl
      obtain ⟨hlt, hget⟩ :=
        List.getElem?_eq_some_iff.mp
          (List.mem_zipIdx_iff_getElem?.mp (List.mem_of_find?_eq_some hf))
      have hat := foundAt_of_findIdx? hidx hlt
      rw [hget] at hat
      exact hat

/-- Every column is found at its place. -/
theorem foundAt_self (hc : compileSchema schema = .ok layout)
    (hlt : index < schema.columns.length) :
    FoundAt schema schema.columns[index].name index schema.columns[index] := by
  have hnd := (compileSchema_laid hc).nodup
  rw [(compileSchema_laid hc).names, List.nodup_iff_injective_get] at hnd
  refine foundAt_of_findIdx?
    (List.findIdx?_eq_some_iff_getElem.mpr ⟨hlt, decide_eq_true rfl, fun j hj he => ?_⟩) hlt
  have hjlt : j < schema.columns.length := Nat.lt_trans hj hlt
  have hsame := @hnd ⟨j, by simpa using hjlt⟩ ⟨index, by simpa using hlt⟩ (by simpa using he)
  exact Nat.ne_of_lt hj (congrArg Fin.val hsame)

/-- The keys of the plan and the names of the request order the rows alike. -/
theorem orderKeys_eq_ok (h : orderKeys table schema seen orderBy = .ok keys) :
    (∀ key ∈ keys, key.index < schema.columns.length) ∧ orderOf schema orderBy = orderAt keys := by
  induction orderBy generalizing seen keys with
  | nil =>
      cases h
      exact ⟨by simp, rfl⟩
  | cons item rest ih =>
      simp only [orderKeys, throw_bind, bind_eq_ok, throw_eq_ok, ite_eq_ok, pure_eq_ok,
        if_false_left] at h
      obtain ⟨-, ⟨index, found⟩, hfound, others, hrest, rfl⟩ := h
      obtain ⟨hlt, hothers⟩ := ih hrest
      have hat := resolveSchemaColumn_eq_ok hfound
      refine ⟨List.forall_mem_cons.mpr ⟨hat.lt, hlt⟩, ?_⟩
      have hfield : (fun a b => item.direction.apply (compareField schema item.column a b)) =
          compareAt ⟨index, item.direction⟩ := by
        funext a b
        rw [compareField, compareAt, hat.field, hat.field]
        cases a.values[index]? <;> cases b.values[index]? <;> cases item.direction <;> rfl
      rw [orderOf, orderAt, hothers, hfield]

/-- What a row shows at a list of places. -/
theorem mapM_values {row : Row} (hr : OfSchema schema row) {pairs : List (Nat × String)}
    (hp : ∀ pair ∈ pairs, ∃ found, FoundAt schema pair.2 pair.1 found) :
    ∃ values, (pairs.map Prod.fst).mapM (fun index => row.values[index]?) = some values ∧
      values.map some = pairs.map fun pair => Row.field schema row pair.2 := by
  induction pairs with
  | nil => exact ⟨[], rfl, rfl⟩
  | cons pair rest ih =>
      obtain ⟨⟨found, hfound⟩, hrest⟩ := List.forall_mem_cons.mp hp
      obtain ⟨values, hm, hvalues⟩ := ih hrest
      obtain ⟨value, hv, -⟩ := hr.value hfound.lt
      refine ⟨value :: values, ?_, ?_⟩
      · rw [List.map_cons, List.mapM_cons, hv, hm]
        rfl
      · rw [List.map_cons, List.map_cons, hvalues, hfound.field, hv]

theorem projectionColumns_eq_ok (h : projectionColumns table schema seen columns = .ok resolved) :
    List.Forall₂ (fun column item => FoundAt schema column item.1 item.2) columns resolved := by
  induction columns generalizing seen resolved with
  | nil =>
      cases h
      exact .nil
  | cons column rest ih =>
      simp only [projectionColumns, throw_bind, bind_eq_ok, throw_eq_ok, ite_eq_ok, pure_eq_ok,
        if_false_left] at h
      obtain ⟨-, item, hitem, others, hrest, rfl⟩ := h
      exact .cons (resolveSchemaColumn_eq_ok hitem) (ih hrest)

end Columns

end Redbase.Query
