import Redbase.Table.Lemmas.Table

/-!
# Runs of an open table

A client's operations on one table whose file was created for its schema. Every state of a run is an
open table; operations that only read leave its rows alone, also over a reopening.
-/

namespace Redbase.Table

open Prog Bytes Page Record Function

set_option linter.dupNamespace false

/-- One operation. `reopen` drops the table and opens its file again, with a pool of any positive
capacity. -/
inductive Op where
  | insert (values : List Value)
  | scan (expr : Option Expr)
  | rowsByRids (rids : List Rid)
  | updateWhere (expr : Option Expr) (assignments : List (String × Value))
  | deleteWhere (expr : Option Expr)
  | reopen (cap : Nat) (pos : 0 < cap)

/-- The operations that do not write. -/
def Op.Reads : Op → Prop
  | .scan _ | .rowsByRids _ | .reopen _ _ => True
  | _ => False

/-- An open table, with the capacity of its pool. -/
structure Opened (I : Type) where
  cap : Nat
  table : Table I cap

section Step

variable {I : Type} [PageIo I]

def Opened.after {α : Type} (s : Opened I) (m : TableM I s.cap α) : Opened I :=
  ⟨s.cap, final (m s.table)⟩

/-- The table is dropped and its bytes are opened. A failure leaves no table; the old one stands
in. -/
def Opened.reopen (s : Opened I) (cap : Nat) : Opened I :=
  match s.table.drop with
  | none => s
  | some io =>
      match PageFile.open io with
      | .error _ _ => s
      | .ok pageFile _ =>
          match RecordFile.open pageFile cap with
          | .error _ => s
          | .ok file => ⟨cap, { s.table with file }⟩

def step (s : Opened I) : Op → Opened I
  | .insert values => s.after (Table.insert values)
  | .scan expr => s.after (Table.scan expr)
  | .rowsByRids rids => s.after (Table.rowsByRids rids)
  | .updateWhere expr assignments => s.after (Table.updateWhere expr assignments)
  | .deleteWhere expr => s.after (Table.deleteWhere expr)
  | .reopen cap _ => s.reopen cap

end Step

section Reliable

variable {I : Type} [ReliableIo I] {schema : TableSchema} {layout : SchemaLayout} {s t u : Opened I}
  {pages pages' : Nat → PageData} {chain chain' : List Nat}

/-- The runs on a file that was created for the schema on an empty page file. -/
inductive Run (schema : TableSchema) : Opened I → Prop
  | create {pageFile : PageFile I} {cap : Nat} {layout : SchemaLayout} {file : RecordFile I cap}
      (pos : 0 < cap) : Represents pageFile Store.empty → compileSchema schema = .ok layout →
        RecordFile.create pageFile cap layout.recordSize = .ok file →
          Run schema ⟨cap, schema, layout, file⟩
  | step {s : Opened I} (op : Op) : Run schema s → Run schema (step s op)

/-- `t` is an open table with the schema of `s`, in a pool that may be another one. -/
structure Follows (s t : Opened I) (pages : Nat → PageData) (chain : List Nat) : Prop where
  ok : TableOk t.table pages chain
  schema : t.table.schema = s.table.schema
  layout : t.table.layout = s.table.layout

/-- `t` holds the records of `s` and is at `pages`. -/
structure Rereads (s t : Opened I) (pages pages' : Nat → PageData) (chain : List Nat) : Prop extends
    Follows s t pages' chain where
  lookup : lookup t.table.file.header pages' = lookup s.table.file.header pages

theorem Follows.trans (h₁ : Follows s t pages chain) (h₂ : Follows t u pages' chain') :
    Follows s u pages' chain' :=
  ⟨h₂.ok, h₂.schema.trans h₁.schema, h₂.layout.trans h₁.layout⟩

theorem Rereads.refl (hs : TableOk s.table pages chain) : Rereads s s pages pages chain :=
  ⟨⟨hs, rfl, rfl⟩, rfl⟩

theorem Unchanged.rereads (hs : TableOk s.table pages chain) {table : Table I s.cap}
    (hu : Unchanged s.table table pages chain) : Rereads s ⟨s.cap, table⟩ pages pages chain :=
  ⟨⟨hs.unchanged hu, hu.schema, hu.layout⟩, by rw [hu.file.header]⟩

/-! ## Steps -/

theorem reopen_rereads (hs : TableOk s.table pages chain) {cap : Nat} (pos : 0 < cap) :
    ∃ pages', Rereads s (s.reopen cap) pages pages' chain := by
  have hsame : ∃ pages', Rereads s s pages pages' chain := ⟨pages, .refl hs⟩
  obtain ⟨io, pages', hdrop, hp, hsaved⟩ := drop_spec hs.holds
  obtain ⟨pageFile, io', hopen, hcases⟩ := hsaved.open_cases pos rfl
  have hd : s.table.drop = some io := hdrop
  unfold Opened.reopen
  simp only [hd, hopen]
  rcases hcases with ⟨-, file, hfile, hhdr, hhold, -⟩ | ⟨-, e, left, he, -⟩
  · simp only [hfile]
    have hl : lookup file.header pages' = lookup s.table.file.header pages := by
      rw [hhdr, lookup_congr_pages hp]
    refine ⟨pages', ⟨⟨hhold, hs.compiled, ?_, fun rid data hr => ?_⟩, rfl, rfl⟩, hl⟩
    · show file.header.recordSize = _
      rw [hhdr]
      exact hs.size
    · exact hs.encoded rid data (hl ▸ hr)
  · simp only [he]
    exact hsame

/-- A method that keeps the table one, however it ends. -/
theorem after_follows {α : Type} {m : TableM I s.cap α}
    (hm : wp m (fun _ t => ∃ pages' chain', Continues s.table t pages' chain')
      (fun _ t => ∃ pages' chain', Continues s.table t pages' chain') s.table) :
    ∃ pages' chain', Follows s (s.after m) pages' chain' := by
  obtain ⟨pages', chain', hc⟩ :=
    wp_final (R := fun t => ∃ pages' chain', Continues s.table t pages' chain') hm
  exact ⟨pages', chain', hc.ok, hc.schema, hc.layout⟩

theorem after_rereads {α : Type} {m : TableM I s.cap α} (hs : TableOk s.table pages chain)
    (hm : wp m (fun _ t => Unchanged s.table t pages chain)
      (fun _ t => Unchanged s.table t pages chain) s.table) :
    ∃ pages', Rereads s (s.after m) pages pages' chain :=
  ⟨pages, (wp_final (R := fun t => Unchanged s.table t pages chain) hm).rereads hs⟩

/-- Reading changes no record. -/
theorem step_rereads (hs : TableOk s.table pages chain) {op : Op} (hop : op.Reads) :
    ∃ pages', Rereads s (step s op) pages pages' chain := by
  cases op with
  | scan expr =>
      exact after_rereads hs (wp_mono (scan_spec hs expr) (fun _ _ h => h.1) fun _ _ h => h.1)
  | rowsByRids rids => exact after_rereads hs (rowsByRids_unchanged hs rids)
  | reopen cap pos => exact reopen_rereads hs pos
  | _ => exact hop.elim

theorem step_follows (hs : TableOk s.table pages chain) (op : Op) :
    ∃ pages' chain', Follows s (step s op) pages' chain' := by
  have hread : op.Reads → ∃ pages' chain', Follows s (step s op) pages' chain' := by
    intro hop
    obtain ⟨pages', ht⟩ := step_rereads hs hop
    exact ⟨pages', chain, ht.toFollows⟩
  cases op with
  | insert values =>
      refine after_follows (wp_mono (insert_spec hs values) ?_ ?_)
      · rintro rid t ⟨pages', chain', -, hc, -⟩
        exact ⟨pages', chain', hc⟩
      · intro _ t hu
        exact ⟨pages, chain, hu.continues hs⟩
  | updateWhere expr assignments => exact after_follows (updateWhere_spec hs expr assignments)
  | deleteWhere expr => exact after_follows (deleteWhere_spec hs expr)
  | _ => exact hread trivial

/-! ## Runs -/

theorem Run.ok (hr : Run schema s) :
    s.table.schema = schema ∧ ∃ pages chain, TableOk s.table pages chain := by
  induction hr with
  | @create pageFile cap layout file pos hp hc hf =>
      rcases Record.create_spec (Represents.plain hp fun _ => Bytes.Block.zero _) pos
        layout.recordSize with
        ⟨e, io, -, he⟩ | ⟨file', pages, hf', hh, hsize, hn⟩
      · rw [hf] at he
        cases he
      · obtain rfl : file = file' := Except.ok.inj (hf.symm.trans hf')
        refine ⟨rfl, pages, [], hh, hc, hsize, fun rid data hl => ?_⟩
        rw [lookup_of_invalid] at hl
        · cases hl
        · rintro ⟨⟨h₁, h₂⟩, -⟩
          change _ ≤ file.header.numPages at h₂
          omega
  | step op _ ih =>
      obtain ⟨hschema, pages, chain, hs⟩ := ih
      obtain ⟨pages', chain', ht⟩ := step_follows hs op
      exact ⟨ht.schema.trans hschema, pages', chain', ht.ok⟩

/-- The records are the same after any number of reads. -/
theorem reads_rereads (hs : TableOk s.table pages chain) {ops : List Op}
    (hops : ∀ op ∈ ops, op.Reads) :
    ∃ pages', Rereads s (ops.foldl step s) pages pages' chain := by
  induction ops generalizing s pages with
  | nil => exact ⟨pages, .refl hs⟩
  | cons op rest ih =>
      obtain ⟨hop, hrest⟩ := List.forall_mem_cons.mp hops
      obtain ⟨pages', h₁⟩ := step_rereads hs hop
      obtain ⟨pages'', h₂⟩ := ih h₁.ok hrest
      exact ⟨pages'', h₁.toFollows.trans h₂.toFollows, h₂.lookup.trans h₁.lookup⟩

end Reliable

end Redbase.Table
