import Redbase.Table.Table
import Redbase.Table.Lemmas.Expr
import Redbase.Record.Lemmas.Lifetime
import Redbase.Record.Lemmas.Scan

/-!
# The methods of a table

Every record of a table is an encoded row. Each method keeps this, whether it returns or fails; a
scan answers with the rows of the records that its expression is true of.
-/

namespace Redbase.Table

open Prog Bytes Text Page Record Function

set_option linter.dupNamespace false

variable {I : Type} [ReliableIo I] {cap : Nat} {s t : Table I cap} {pages pages' : Nat → PageData}
  {chain chain' : List Nat} {h : RecordFileHeader} {schema : TableSchema} {layout : SchemaLayout}
  {expr : Option Expr} {rid : Rid} {values : List Value}

/-- Every record is an encoded row. -/
def Encoded (layout : SchemaLayout) (h : RecordFileHeader) (pages : Nat → PageData) : Prop :=
  ∀ rid data, lookup h pages rid = some data → ∃ values, Encodes layout data values

/-- An open table: its file holds `pages`, and its records are rows of its schema. -/
structure TableOk (s : Table I cap) (pages : Nat → PageData) (chain : List Nat) : Prop where
  holds : Holds s.file pages chain
  compiled : compileSchema s.schema = .ok s.layout
  size : s.file.header.recordSize = s.layout.recordSize
  encoded : Encoded s.layout s.file.header pages

/-- `t` is `s`, whatever its pool has cached. -/
structure Unchanged (s t : Table I cap) (pages : Nat → PageData) (chain : List Nat) : Prop where
  file : Kept s.file t.file pages chain
  schema : t.schema = s.schema
  layout : t.layout = s.layout

theorem TableOk.unchanged (hs : TableOk s pages chain) (hu : Unchanged s t pages chain) :
    TableOk t pages chain where
  holds := hu.file.holds
  compiled := by rw [hu.schema, hu.layout]; exact hs.compiled
  size := by rw [hu.file.header, hu.layout]; exact hs.size
  encoded := by rw [hu.file.header, hu.layout]; exact hs.encoded

theorem Unchanged.trans {u : Table I cap} (h₁ : Unchanged s t pages chain)
    (h₂ : Unchanged t u pages chain) :
    Unchanged s u pages chain where
  file := ⟨h₂.file.holds, h₂.file.header.trans h₁.file.header, h₂.file.fileId.trans h₁.file.fileId⟩
  schema := h₂.schema.trans h₁.schema
  layout := h₂.layout.trans h₁.layout

/-! ## Rows -/

/-- The row that the bytes of a record encode. -/
def rowOf (layout : SchemaLayout) (data : List UInt8) : Row :=
  ⟨(layout.columns.mapM fun column => decodeValue data column).toOption.getD []⟩

theorem Encodes.rowOf_eq {data : List UInt8} (he : Encodes layout data values) :
    rowOf layout data = ⟨values.map Value.stored⟩ := by
  rw [rowOf, mapM_decodeValue he.cells]
  rfl

theorem Encoded.decode {record : Record} (he : Encoded layout h pages)
    (hr : lookup h pages record.rid = some record.data) :
    decodeRecord layout record = .ok (rowOf layout record.data) := by
  obtain ⟨values, hv⟩ := he _ _ hr
  rw [hv.rowOf_eq]
  exact hv.decode record.rid

/-- Whether an expression is true of a row; every row is wanted where there is none. -/
def wanted (schema : TableSchema) (layout : SchemaLayout) (expr : Option Expr) (data : List UInt8) :
    Bool :=
  match expr with
  | none => true
  | some expr => expr.eval (Row.field schema (rowOf layout data)) == some true

/-- An expression that `scan` does not accept. -/
def Rejected (layout : SchemaLayout) (expr : Option Expr) : Prop :=
  ∃ e, expr = some e ∧
    ∀ filter, compileExpr layout e = .ok filter →
      filter.validateForRecord layout.recordSize ≠ .ok ()

/-! ## Scanning -/

section Check

variable {α : Type} {Q : α → Table I cap → Prop} {E : Stop TableError → Table I cap → Prop}

omit [ReliableIo I] in
@[simp] theorem wp_check_ok [PageIo I] (a : α) : wp (Table.check (.ok a)) Q E s ↔ Q a s := Iff.rfl

end Check

theorem scanPredicate_spec (hs : TableOk s pages chain) (expr : Option Expr) :
    wp (Table.scanPredicate expr)
      (fun predicate t => t = s ∧ ¬ Rejected s.layout expr ∧ ∀ rid data,
        lookup s.file.header pages rid = some data →
        predicate data = .ok (wanted s.schema s.layout expr data))
      (fun _ t => t = s ∧ Rejected s.layout expr) s := by
  cases expr with
  | none => exact ⟨rfl, fun ⟨_, he, _⟩ => (by cases he), fun _ _ _ => rfl⟩
  | some expr =>
      unfold Table.scanPredicate
      simp only [wp_bind, wp_get]
      cases hf : compileExpr s.layout expr with
      | error e =>
          refine ⟨rfl, expr, rfl, fun filter hc => ?_⟩
          rw [hf] at hc
          cases hc
      | ok filter =>
          simp only [wp_check_ok]
          cases hv : filter.validateForRecord s.file.header.recordSize with
          | error e =>
              have hscan : s.file.scanWithLogic filter = .error e := by
                rw [RecordFile.scanWithLogic, hv]
                rfl
              rw [hscan]
              refine ⟨rfl, expr, rfl, fun filter' hc => ?_⟩
              rw [hf] at hc
              cases hc
              rw [← hs.size, hv]
              intro hc
              cases hc
          | ok _ =>
              have hscan : s.file.scanWithLogic filter =
                  .ok (s.file.scanWith fun bytes => filter.matches bytes) := by
                rw [RecordFile.scanWithLogic, hv]
                rfl
              rw [hscan]
              refine ⟨rfl, ?_, fun rid data hl => ?_⟩
              · rintro ⟨e, he, hno⟩
                cases he
                exact hno filter hf (hs.size ▸ hv)
              obtain ⟨values, he⟩ := hs.encoded rid data hl
              obtain ⟨b, heval, hm⟩ := compileExpr_matches he hs.compiled expr hf
                (by rw [he.length, ← hs.size]; exact hv)
              show filter.matches data = _
              rw [hm, wanted, he.rowOf_eq, heval]
              cases b <;> rfl

/-- The loop of `scan` from position `k` on. -/
theorem scanRows_spec {sc : RecordScan I cap} {q : List UInt8 → Bool} {fileId fuel k : Nat}
    (hs : Scanning sc h pages chain q) (he : Encoded layout h pages) (hi : sc.file.fileId = fileId)
    (ha : At sc k) (hk : k ≤ h.total) (hfuel : h.total < fuel + k) :
    wp (Table.scanRows layout fuel)
      (fun l t => Scanned t h pages chain fileId k ∧ l = (matching h pages q k).map
        fun r => rowOf layout r.data)
      (fun _ t => Stuck t h pages chain fileId) sc := by
  induction fuel generalizing k sc with
  | zero => omega
  | succ fuel ih =>
      unfold Table.scanRows
      simp only [wp_bind, wp_mapError]
      refine wp_mono (nextRecord_spec hs hi ha hk) ?_ fun _ _ => id
      rintro r t ⟨ht, hti, hfound⟩
      cases r with
      | none =>
          refine ⟨⟨ht.holds, ht.header, hti, hfound.2⟩, ?_⟩
          rw [hfound.1]
          rfl
      | some r =>
          obtain ⟨k', hk', hle, hat, hread, hrest⟩ := hfound
          have hlive : lookup h pages r.rid = some r.data :=
            (mem_matching_from (hrest ▸ List.mem_cons_self)).1
          simp only [he.decode hlive, wp_bind, wp_lift_ok, wp_pure]
          refine wp_mono (ih ht hti hat hle (by omega)) ?_ fun _ _ => id
          rintro l u ⟨hu, rfl⟩
          refine ⟨⟨hu.holds, hu.header, hu.fileId, hread.trans hu.read⟩, ?_⟩
          rw [hrest]
          rfl

/-- Why a scan fails. -/
def ScanFails (s : Table I cap) (pages : Nat → PageData) (expr : Option Expr) : Prop :=
  Rejected s.layout expr ∨ ∃ p, Unreadable s.file.header pages p

/-- The records that a scan with `expr` visits, in order. -/
abbrev selected (s : Table I cap) (pages : Nat → PageData) (expr : Option Expr) : List Record :=
  matching s.file.header pages (wanted s.schema s.layout expr) 0

/-- A scan answers with the rows it selects; it fails when the expression or a page is refused. -/
theorem scan_spec (hs : TableOk s pages chain) (expr : Option Expr) :
    wp (Table.scan expr)
      (fun rows t => Unchanged s t pages chain ∧
        (∀ p, s.file.header.HasPage p → Readable s.file.header (pages p)) ∧
        rows = (selected s pages expr).map fun r => rowOf s.layout r.data)
      (fun _ t => Unchanged s t pages chain ∧ ScanFails s pages expr) s := by
  unfold Table.scan Table.scanning
  simp only [wp_bind]
  refine wp_mono (scanPredicate_spec hs expr) ?_ ?_
  · rintro predicate s ⟨rfl, -, hp⟩
    have hsc : Scanning (s.file.scanWith predicate) s.file.header pages chain
        (wanted s.schema s.layout expr) :=
      ⟨hs.holds, rfl, hp⟩
    simp only [wp_get, wp_zoom]
    refine wp_mono (scanRows_spec hsc hs.encoded rfl (at_scanWith s.file predicate) (Nat.zero_le _)
      (Nat.lt_succ_self _)) ?_ ?_
    · rintro rows t ⟨⟨ht, hh, hi, hr⟩, rfl⟩
      exact ⟨⟨⟨ht, hh, hi⟩, rfl, rfl⟩, fun p hp => hr.readable hs.holds.wf.fits hp, rfl⟩
    · rintro _ t ⟨ht, hh, hi, hu⟩
      exact ⟨⟨⟨ht, hh, hi⟩, rfl, rfl⟩, Or.inr hu⟩
  · rintro _ _ ⟨rfl, hr⟩
    exact ⟨⟨⟨hs.holds, rfl, rfl⟩, rfl, rfl⟩, Or.inl hr⟩

theorem collectRecords_spec (hs : TableOk s pages chain) (expr : Option Expr) :
    wp (Table.collectRecords expr)
      (fun records t => Unchanged s t pages chain ∧ ¬ Rejected s.layout expr ∧
        (∀ p, s.file.header.HasPage p → Readable s.file.header (pages p)) ∧
          records = selected s pages expr)
      (fun _ t => Unchanged s t pages chain ∧ ScanFails s pages expr) s := by
  unfold Table.collectRecords Table.scanning
  simp only [wp_bind]
  refine wp_mono (scanPredicate_spec hs expr) ?_ ?_
  · rintro predicate _ ⟨rfl, haccept, hp⟩
    simp only [wp_zoom, wp_mapError]
    refine wp_mono (collect_spec hs.holds hp) ?_ ?_
    · rintro records t ⟨hk, hr, rfl⟩
      exact ⟨⟨hk, rfl, rfl⟩, haccept, hr, rfl⟩
    · rintro _ t ⟨hk, hu⟩
      exact ⟨⟨hk, rfl, rfl⟩, Or.inr hu⟩
  · rintro _ _ ⟨rfl, hr⟩
    exact ⟨⟨⟨hs.holds, rfl, rfl⟩, rfl, rfl⟩, Or.inl hr⟩

/-! ## Changing rows -/

/-- `t` is an open table with the schema of `s`. -/
structure Continues (s t : Table I cap) (pages : Nat → PageData) (chain : List Nat) : Prop where
  ok : TableOk t pages chain
  schema : t.schema = s.schema
  layout : t.layout = s.layout

theorem Unchanged.continues (hu : Unchanged s t pages chain) (hs : TableOk s pages chain) :
    Continues s t pages chain := ⟨hs.unchanged hu, hu.schema, hu.layout⟩

theorem Continues.trans {u : Table I cap} (h₁ : Continues s t pages chain)
    (h₂ : Continues t u pages' chain') :
    Continues s u pages' chain' := ⟨h₂.ok, h₂.schema.trans h₁.schema, h₂.layout.trans h₁.layout⟩

omit [ReliableIo I] in
@[simp] theorem wp_liftFile [PageIo I] {α : Type} {m : RecordM I cap α} {Q : α → Table I cap → Prop}
    {E : Stop TableError → Table I cap → Prop} :
    wp (Table.liftFile m) Q E s ↔
      wp m (fun a file => Q a { s with file })
        (fun e file => E (recordError e) { s with file }) s.file := by
  unfold Table.liftFile
  rw [wp_mapError, wp_zoom]

/-- A method of the file that changes one record, to an encoded row or to none. -/
theorem TableOk.stepped (hs : TableOk s pages chain) {file : RecordFile I cap}
    {entry : Option (List UInt8)} (hh : Holds file pages' chain')
    (hst : Stepped s.file file pages pages' rid entry)
    (he : ∀ data, entry = some data → ∃ values, Encodes s.layout data values) :
    Continues s { s with file } pages' chain' := by
  refine ⟨⟨hh, hs.compiled, hst.layout.size.trans hs.size, fun rid' data hl => ?_⟩, rfl, rfl⟩
  change lookup file.header pages' rid' = some data at hl
  rw [hst.lookup] at hl
  rcases eq_or_ne rid' rid with rfl | hne
  · rw [update_self] at hl
    exact he data hl
  · rw [update_of_ne hne] at hl
    exact hs.encoded rid' data hl

/-- An inserted row is encoded in a new record. -/
theorem insert_spec (hs : TableOk s pages chain) (values : List Value) :
    wp (Table.insert values)
      (fun rid t => ∃ pages' chain' bytes, Continues s t pages' chain' ∧
        Encodes s.layout bytes values ∧ lookup s.file.header pages rid = none ∧
        lookup t.file.header pages' = update (lookup s.file.header pages) rid (some bytes) ∧
        t.file.header.numPages ≤ s.file.header.numPages + 1)
      (fun _ t => Unchanged s t pages chain) s := by
  unfold Table.insert
  simp only [wp_bind, wp_get]
  cases he : encodeRow s.layout values with
  | error e => exact ⟨⟨hs.holds, rfl, rfl⟩, rfl, rfl⟩
  | ok bytes =>
      have henc := encodeRow_encodes hs.compiled he
      simp only [wp_check_ok, wp_liftFile]
      refine wp_mono (Record.insert_spec hs.holds (henc.length.trans hs.size.symm)) ?_ ?_
      · rintro rid file ⟨pages', chain', hh, hst, hnone, hle⟩
        exact ⟨pages', chain', bytes, hs.stepped hh hst fun data hd =>
          ⟨values, Option.some.inj hd ▸ henc⟩, henc, hnone,
          hst.lookup, hle⟩
      · rintro _ file ⟨hk, -⟩
        exact ⟨hk, rfl, rfl⟩

theorem updateRecords_spec (hs : TableOk s pages chain) (assignments : List (String × Value))
    (records : List Record) :
    wp (Table.updateRecords assignments records)
      (fun _ t => ∃ pages' chain', Continues s t pages' chain')
      (fun _ t => ∃ pages' chain', Continues s t pages' chain') s := by
  induction records generalizing s pages chain with
  | nil => exact ⟨pages, chain, hs, rfl, rfl⟩
  | cons record rest ih =>
      have hsame : ∃ pages' chain', Continues s s pages' chain' := ⟨pages, chain, hs, rfl, rfl⟩
      unfold Table.updateRecords
      simp only [wp_bind, wp_get]
      cases decodeRecord s.layout record with
      | error e => exact hsame
      | ok row =>
          rw [wp_lift_ok]
          cases Table.assign s.layout row.values assignments with
          | error e => exact hsame
          | ok values =>
              rw [wp_check_ok]
              cases he : encodeRow s.layout values with
              | error e => exact hsame
              | ok bytes =>
                  have henc := encodeRow_encodes hs.compiled he
                  simp only [wp_check_ok, wp_liftFile, wp_pure]
                  refine wp_mono (update_spec hs.holds (henc.length.trans hs.size.symm)) ?_ ?_
                  · rintro _ file ⟨pages', hh, hst, -⟩
                    have hc := hs.stepped hh hst fun data hd => ⟨values, Option.some.inj hd ▸ henc⟩
                    refine wp_mono (ih hc.ok) ?_ ?_
                    · rintro _ t ⟨pages'', chain'', ht⟩
                      exact ⟨pages'', chain'', hc.trans ht⟩
                    · rintro _ t ⟨pages'', chain'', ht⟩
                      exact ⟨pages'', chain'', hc.trans ht⟩
                  · rintro _ file ⟨hk, -⟩
                    have hu : Unchanged s { s with file } pages chain := ⟨hk, rfl, rfl⟩
                    exact ⟨pages, chain, hu.continues hs⟩

theorem deleteRecords_spec (hs : TableOk s pages chain) (records : List Record) :
    wp (Table.deleteRecords records) (fun _ t => ∃ pages' chain', Continues s t pages' chain')
      (fun _ t => ∃ pages' chain', Continues s t pages' chain') s := by
  induction records generalizing s pages chain with
  | nil => exact ⟨pages, chain, hs, rfl, rfl⟩
  | cons record rest ih =>
      unfold Table.deleteRecords
      simp only [wp_bind, wp_liftFile, wp_pure]
      refine wp_mono (delete_spec hs.holds) ?_ ?_
      · rintro _ file ⟨pages', chain', hh, hst, -, -⟩
        have hc := hs.stepped hh hst fun data hd => by cases hd
        refine wp_mono (ih hc.ok) ?_ ?_
        · rintro _ t ⟨pages'', chain'', ht⟩
          exact ⟨pages'', chain'', hc.trans ht⟩
        · rintro _ t ⟨pages'', chain'', ht⟩
          exact ⟨pages'', chain'', hc.trans ht⟩
      · rintro _ file ⟨hk, -⟩
        have hu : Unchanged s { s with file } pages chain := ⟨hk, rfl, rfl⟩
        exact ⟨pages, chain, hu.continues hs⟩

theorem updateWhere_spec (hs : TableOk s pages chain) (expr : Option Expr)
    (assignments : List (String × Value)) :
    wp (Table.updateWhere expr assignments)
      (fun _ t => ∃ pages' chain', Continues s t pages' chain')
      (fun _ t => ∃ pages' chain', Continues s t pages' chain') s := by
  unfold Table.updateWhere
  rw [wp_bind]
  refine wp_mono (collectRecords_spec hs expr) ?_ ?_
  · rintro records t ⟨hu, -, -⟩
    have hc := hu.continues hs
    refine wp_mono (updateRecords_spec hc.ok assignments records) ?_ ?_
    · exact fun _ u ⟨pages', chain', h⟩ => ⟨pages', chain', hc.trans h⟩
    · exact fun _ u ⟨pages', chain', h⟩ => ⟨pages', chain', hc.trans h⟩
  · rintro _ t ⟨hu, -⟩
    exact ⟨pages, chain, hu.continues hs⟩

theorem deleteWhere_spec (hs : TableOk s pages chain) (expr : Option Expr) :
    wp (Table.deleteWhere expr) (fun _ t => ∃ pages' chain', Continues s t pages' chain')
      (fun _ t => ∃ pages' chain', Continues s t pages' chain') s := by
  unfold Table.deleteWhere
  rw [wp_bind]
  refine wp_mono (collectRecords_spec hs expr) ?_ ?_
  · rintro records t ⟨hu, -, -⟩
    have hc := hu.continues hs
    refine wp_mono (deleteRecords_spec hc.ok records) ?_ ?_
    · exact fun _ u ⟨pages', chain', h⟩ => ⟨pages', chain', hc.trans h⟩
    · exact fun _ u ⟨pages', chain', h⟩ => ⟨pages', chain', hc.trans h⟩
  · rintro _ t ⟨hu, -⟩
    exact ⟨pages, chain, hu.continues hs⟩

/-! ## Looking rows up -/

/-- Live records on pages that can be read are found. -/
theorem rowsByRids_spec (hs : TableOk s pages chain)
    (hr : ∀ p, s.file.header.HasPage p → Readable s.file.header (pages p)) (records : List Record)
    (hlive : ∀ r ∈ records, lookup s.file.header pages r.rid = some r.data) :
    wp (Table.rowsByRids (records.map Record.rid))
      (fun rows t => Unchanged s t pages chain ∧ rows = records.map fun r =>
        rowOf s.layout r.data) never s := by
  induction records generalizing s with
  | nil => exact ⟨⟨⟨hs.holds, rfl, rfl⟩, rfl, rfl⟩, rfl⟩
  | cons r rest ih =>
      have hl := hlive r List.mem_cons_self
      rw [List.map_cons]
      unfold Table.rowsByRids
      simp only [wp_bind, wp_liftFile, wp_get, wp_pure]
      refine wp_mono (get_spec hs.holds) ?_ ?_
      · rintro r' file ⟨hk, hrid, hl'⟩
        rw [hl, Option.some.injEq] at hl'
        have hrec : r' = r := by
          cases r'
          cases r
          cases hrid
          cases hl'
          rfl
        subst hrec
        have hu : Unchanged s { s with file } pages chain := ⟨hk, rfl, rfl⟩
        have hs' := hs.unchanged hu
        rw [hs.encoded.decode hl, wp_lift_ok]
        refine wp_mono (ih hs' ?_ ?_) ?_ fun _ _ => id
        · exact hk.header ▸ hr
        · exact fun x hx => hk.header ▸ hlive x (List.mem_cons_of_mem _ hx)
        · rintro rows t ⟨ht, rfl⟩
          exact ⟨hu.trans ht, rfl⟩
      · rintro e file ⟨-, ⟨-, hnone⟩ | ⟨hp, hu⟩⟩
        · rw [hl] at hnone
          cases hnone
        · exact hu (hr _ hp)

/-- Looking rows up changes no record, whatever is looked up. -/
theorem rowsByRids_unchanged (hs : TableOk s pages chain) (rids : List Rid) :
    wp (Table.rowsByRids rids) (fun _ t => Unchanged s t pages chain)
      (fun _ t => Unchanged s t pages chain) s := by
  induction rids generalizing s with
  | nil => exact ⟨⟨hs.holds, rfl, rfl⟩, rfl, rfl⟩
  | cons rid rest ih =>
      unfold Table.rowsByRids
      simp only [wp_bind, wp_liftFile, wp_get, wp_pure]
      refine wp_mono (get_spec hs.holds) ?_ ?_
      · rintro r file ⟨hk, rfl, hl⟩
        have hu : Unchanged s { s with file } pages chain := ⟨hk, rfl, rfl⟩
        rw [hs.encoded.decode hl, wp_lift_ok]
        refine wp_mono (ih (hs.unchanged hu)) ?_ ?_
        · exact fun _ t ht => hu.trans ht
        · exact fun _ t ht => hu.trans ht
      · rintro e file ⟨hk, -⟩
        exact ⟨hk, rfl, rfl⟩

end Redbase.Table
