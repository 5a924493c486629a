import Redbase.Database.Lemmas.IndexSchema

/-!
# Writing to a table of the database

A method that writes leaves a table of the same schema; the files of its indexes are then written
anew.
-/

namespace Redbase.Database

open Prog Bytes Text Page Record Files Table Index Function

set_option linter.dupNamespace false

variable {s t u : Database} {name name' : String} {schema : TableSchema} {layout : SchemaLayout}
  {bytes bytes' : List UInt8} {m : IndexMeta} {α : Type} {l : List IndexMeta}

/-! ## The rows of a file -/

/-- The two files have the same header and the same data pages. -/
structure SameRows (bytes bytes' : List UInt8) : Prop where
  header : fileHeader bytes' = fileHeader bytes
  pages : ∀ p, (fileHeader bytes).HasPage p → filePages bytes' p = filePages bytes p

namespace SameRows

theorem refl (bytes : List UInt8) : SameRows bytes bytes := ⟨rfl, fun _ _ => rfl⟩

theorem liveRecords_eq (h : SameRows bytes bytes') : liveRecords bytes' = liveRecords bytes := by
  unfold liveRecords
  rw [h.header, lookup_congr h.pages]

end SameRows

/-! ## One table -/

/-- A table of the database was written. -/
structure Wrote (s t : Database) (name : String) (schema : TableSchema) (layout : SchemaLayout)
    (bytes' : List UInt8) :
    Prop where
  eq : t = s.putTable name bytes'
  stored : Stored t name schema layout bytes'

namespace Wrote

theorem same (hs : Stored s name schema layout bytes) : Wrote s s name schema layout bytes := by
  refine ⟨?_, hs⟩
  rw [Database.putTable, Disk.put_self hs.file]

theorem sound (h : Wrote s t name schema layout bytes') (hs : Stored s name schema layout bytes)
    (hsound : Sound s) :
    Sound t := by
  rw [h.eq]
  exact hsound.putTable hs h.stored.rows

theorem faults (h : Wrote s t name schema layout bytes') : t.root.faults = s.root.faults := by
  rw [h.eq]
  rfl

theorem catalogs (h : Wrote s t name schema layout bytes') :
    t.catalog = s.catalog ∧ t.indexes = s.indexes := by
  rw [h.eq]
  exact ⟨rfl, rfl⟩

theorem files (h : Wrote s t name schema layout bytes') {path : String}
    (hp : path ≠ tablePath name) :
    t.root.files path = s.root.files path := by
  rw [h.eq]
  exact Disk.files_put_of_ne hp _

end Wrote

/-- What a method leaves of the table it was called on. -/
theorem Opens.wrote {table table' : DiskTable} {pages' : Nat → PageData} {chain' : List Nat}
    (ho : Opens table schema layout bytes) (hs : Stored s name schema layout bytes)
    (hc : Continues table table' pages' chain') :
    ∃ bytes', Wrote s (Session.leave ⟨s, table'⟩ name) name schema layout bytes' ∧
      fileHeader bytes' = table'.file.header ∧ ∀ p, table'.file.header.HasPage p →
        filePages bytes' p = pages' p := by
  obtain ⟨bytes', hleave, hstored, hhdr, hpages⟩ :=
    leave_stored hs hc.ok (hc.layout.trans ho.layout)
  exact ⟨bytes', ⟨hleave, hleave ▸ hstored⟩, hhdr, hpages⟩

/-- A method that changed nothing. -/
theorem Opens.wrote_same {table table' : DiskTable} {chain : List Nat}
    (ho : Opens table schema layout bytes) (hs : Stored s name schema layout bytes)
    (hok : TableOk table (filePages bytes) chain)
    (hu : Unchanged table table' (filePages bytes) chain) :
    ∃ bytes', Wrote s (Session.leave ⟨s, table'⟩ name) name schema layout bytes' ∧
      SameRows bytes bytes' := by
  obtain ⟨bytes', hw, hhdr, hpages⟩ := ho.wrote hs (hu.continues hok)
  have hsame : table'.file.header = fileHeader bytes := hu.file.header.trans ho.header
  rw [hsame] at hhdr hpages
  exact ⟨bytes', hw, hhdr, hpages⟩

/-- A method that keeps the table in order, whether it returns or throws. -/
abbrev KeepsTable (bytes : List UInt8) (m : TableM DiskPageIo defaultBufferCapacity α) : Prop :=
  ∀ table chain, TableOk table (filePages bytes) chain →
    wp m (fun _ t => ∃ pages' chain', Continues table t pages' chain')
      (fun _ t => ∃ pages' chain', Continues table t pages' chain') table

theorem keepsTable_insert (values : List Value) : KeepsTable bytes (Table.insert values) := by
  intro table chain hok
  refine wp_mono (Table.insert_spec hok values) ?_ fun _ t hu => ⟨_, _, Unchanged.continues hu hok⟩
  rintro _ t ⟨pages', chain', _, hc, -⟩
  exact ⟨pages', chain', hc⟩

theorem keepsTable_updateWhere (expr : Option Expr) (assignments : List (String × Value)) :
    KeepsTable bytes (Table.updateWhere expr assignments) :=
      fun _ _ hok => updateWhere_spec hok expr assignments

theorem keepsTable_deleteWhere (expr : Option Expr) : KeepsTable bytes (Table.deleteWhere expr) :=
  fun _ _ hok => deleteWhere_spec hok expr

theorem withTable_wrote {m : TableM DiskPageIo defaultBufferCapacity α} (hq : s.root.faults = [])
    (hs : Stored s name schema layout bytes) (hm : KeepsTable bytes m) :
    wp (Database.withTable name (Session.onTable m))
      (fun _ t => ∃ bytes', Wrote s t name schema layout bytes')
      (fun _ t => ∃ bytes', Wrote s t name schema layout bytes') s := by
  refine wp_withTable hq hs (fun table _ ho => ?_) fun _ _ => ⟨bytes, Wrote.same hs⟩
  obtain ⟨chain, hok⟩ := ho.ok
  have hleft : ∀ t, (∃ pages' chain', Continues table t pages' chain') →
      ∃ bytes', Wrote s (Session.leave ⟨s, t⟩ name) name schema layout bytes' := by
    rintro t ⟨pages', chain', hc⟩
    obtain ⟨bytes', hw, -⟩ := ho.wrote hs hc
    exact ⟨bytes', hw⟩
  rw [wp_onTable]
  exact wp_mono (hm table chain hok) (fun _ => hleft) fun _ => hleft

/-! ## Its indexes -/

/-- When the indexes of a written table are rebuilt, all indexes are up to date. -/
theorem Fresh.rewrite (hs : Stored s name schema layout bytes) (hsound : Sound s) (h : Fresh s)
    (hw : Wrote s u name schema layout bytes')
    (hp : s.indexes.indexesForTable name = [] ∨ HeadersPass bytes')
    (hb : Rebuilt u t schema layout bytes' (s.indexes.indexesForTable name)) : Fresh t := by
  intro n m hfind
  rw [hb.indexes, hw.catalogs.2] at hfind
  obtain ⟨rfl, hi⟩ := hsound.indexes n m hfind
  obtain ⟨schema', layout', bytes₀, hs', hpass, hfile⟩ := h m.name m hfind
  have hcatalog : t.catalog.tables.find m.table = s.catalog.tables.find m.table := by
    rw [hb.catalog, hw.catalogs.1]
  by_cases ht : m.table = name
  · obtain rfl := ht
    obtain ⟨rfl, rfl, rfl⟩ := hs'.unique hs
    have hmem : m ∈ s.indexes.indexesForTable m.table :=
      mem_indexesForTable.mpr ⟨SortedMap.mem_values.mpr ⟨_, hfind⟩, rfl⟩
    have htable : t.root.files (tablePath m.table) = u.root.files (tablePath m.table) :=
      hb.kept _ fun m _ => by simp
    refine ⟨schema, layout, bytes', hw.stored.congr (by rw [hb.catalog]) htable,
      hp.resolve_left (List.ne_nil_of_mem hmem), ?_⟩
    refine hb.written m hmem m (entriesOf schema layout m.column bytes)
      ⟨rfl, hi.storable, entriesOf_fits hs.rows, ?_⟩
    rw [hw.files (Ne.symm (by simp))]
    exact hfile
  · refine (h m.name m hfind).congr hcatalog ?_ ?_
    · rw [hb.kept _ fun m _ => by simp, hw.files (by simpa using ht)]
    · rw [hb.kept _ fun m₁ hm₁ he => ?_, hw.files (Ne.symm (by simp))]
      obtain ⟨hm₁, hother⟩ := hsound.indexesForTable name m₁ hm₁
      rw [← indexFilePath_inj.mp he, hfind] at hother
      obtain rfl := Option.some.inj hother
      exact ht hm₁

end Redbase.Database
