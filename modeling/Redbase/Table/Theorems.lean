import Redbase.Table.Lemmas.Overflow
import Redbase.Record.Theorems

/-!
# Rows and filters keep their meaning

A row that is encoded is decoded again, its texts without their trailing NULs, and a compiled filter
answers on the encoded row what its expression means on the decoded one.
-/

namespace Redbase.Table

open Prog Bytes Text Page Record Function

set_option linter.dupNamespace false

variable {schema : TableSchema} {layout : SchemaLayout} {values : List Value} {bytes : List UInt8}

/-! ## Rows -/

theorem stored_eq_self {value : Value} :
    value.stored = value ↔ ∀ text, value = .char text → text.toList.getLast? ≠ some '\x00' := by
  cases value with
  | int32 number => simp [Value.stored]
  | float32 bits => simp [Value.stored]
  | char text => simp [Value.stored, trimNul_eq_self]

theorem map_stored_eq_self : values.map Value.stored = values ↔
    ∀ text, Value.char text ∈ values → text.toList.getLast? ≠ some '\x00' := by
  induction values with
  | nil => simp
  | cons value rest ih =>
      rw [List.map_cons, List.cons.injEq, ih, stored_eq_self]
      constructor
      · rintro ⟨hv, hrest⟩ text hm
        rcases List.mem_cons.mp hm with rfl | hm
        · exact hv text rfl
        · exact hrest text hm
      · intro h
        exact ⟨fun text he => h text (he ▸ List.mem_cons_self), fun text hm =>
          h text (List.mem_cons_of_mem _ hm)⟩

section Insert

variable {I : Type} [ReliableIo I] {cap cap' : Nat} {pages pages' : Nat → PageData} {rid : Rid}

omit [ReliableIo I] in
/-- A new record is the one record more that a scan without an expression visits. -/
theorem selected_perm {s : Table I cap} {t : Table I cap'}
    (hnone : lookup s.file.header pages rid = none)
    (hl : lookup t.file.header pages' = update (lookup s.file.header pages) rid (some bytes)) :
    (selected t pages' none).Perm (⟨rid, bytes⟩ :: selected s pages none) := by
  have hnot : (⟨rid, bytes⟩ : Record) ∉ selected s pages none := by
    rw [mem_matching]
    rintro ⟨hs, -⟩
    rw [hnone] at hs
    cases hs
  refine (List.perm_ext_iff_of_nodup nodup_matching
    (List.nodup_cons.mpr ⟨hnot, nodup_matching⟩)).mpr ?_
  intro r
  rw [List.mem_cons, mem_matching, mem_matching, hl]
  rcases eq_or_ne r.rid rid with he | hne
  · rw [he, update_self]
    cases r
    subst he
    simp [hnone, wanted, eq_comm]
  · rw [update_of_ne hne]
    have hr : r ≠ ⟨rid, bytes⟩ := fun h => hne (congrArg Record.rid h)
    simp [hr, wanted]

/-- What is inserted is in every scan until the next write, and nothing else is new there. -/
theorem scan_after_insert {s : Opened I} {s' t : Table I s.cap} {rows rows' : List Row}
    {ops : List Op} (hrun : Run schema s) (hscan : Table.scan none s.table = .ok rows s')
    (hins : Table.insert values s' = .ok rid t) (hops : ∀ op ∈ ops, op.Reads)
    {v : Table I (ops.foldl step ⟨s.cap, t⟩).cap}
    (hlater : Table.scan none (ops.foldl step ⟨s.cap, t⟩).table = .ok rows' v) :
    rows'.Perm (⟨values.map Value.stored⟩ :: rows) := by
  obtain ⟨-, pages, chain, hs⟩ := hrun.ok
  obtain ⟨hu, -, rfl⟩ := wp_ok hscan (scan_spec hs none)
  obtain ⟨pages₁, chain₁, bytes, hc, henc, hnone, hl, -⟩ :=
    wp_ok hins (insert_spec (hs.unchanged hu) values)
  obtain ⟨pages₂, hr⟩ := reads_rereads (s := ⟨s.cap, t⟩) hc.ok hops
  obtain ⟨-, -, rfl⟩ := wp_ok hlater (scan_spec hr.ok none)
  rw [hu.file.header] at hnone hl
  have hperm := selected_perm (s := s.table) hnone (hr.lookup.trans hl)
  have hrow := henc.rowOf_eq
  rw [hu.layout] at hrow
  rw [hr.layout, hc.layout, hu.layout]
  have hmap := hperm.map fun r => rowOf s.table.layout r.data
  rwa [List.map_cons, hrow] at hmap

end Insert

/-- An encoded row is decoded to the row without the trailing NULs of its texts; the two are one
unless a text ends in NUL. So is what is inserted the row that later scans show. -/
theorem row_round_trip (hc : compileSchema schema = .ok layout)
    (he : encodeRow layout values = .ok bytes) :
    (∀ rid, decodeRecord layout ⟨rid, bytes⟩ = .ok ⟨values.map Value.stored⟩) ∧
      (values.map Value.stored = values ↔ ∀ text, Value.char text ∈ values →
        text.toList.getLast? ≠ some '\x00') ∧
      ∀ (I : Type) [ReliableIo I] (s : Opened I), Run schema s →
        ∀ rows s', Table.scan none s.table = .ok rows s' →
        ∀ rid t, Table.insert values s' = .ok rid t → ∀ ops : List Op, (∀ op ∈ ops, op.Reads) →
          ∀ rows' u, Table.scan none (ops.foldl step ⟨s.cap, t⟩).table = .ok rows' u →
            rows'.Perm (⟨values.map Value.stored⟩ :: rows) := by
  refine ⟨(encodeRow_encodes hc he).decode, map_stored_eq_self, ?_⟩
  intro I _ s hrun rows s' hscan rid t hins ops hops rows' u hlater
  exact scan_after_insert hrun hscan hins hops hlater

/-- A table with an `Int32` and a `Char(2)` column. -/
def pairSchema : TableSchema := ⟨"t", [⟨"a", .int32⟩, ⟨"b", .char 2⟩]⟩

def pairLayout : SchemaLayout := ⟨[⟨"a", .int32, 0⟩, ⟨"b", .char 2, 4⟩], 6⟩

theorem compileSchema_pair : compileSchema pairSchema = .ok pairLayout := by rfl

theorem row_round_trip_pair :
    decodeRecord pairLayout ⟨⟨1, 0⟩, [5, 0, 0, 0, 120, 0]⟩ = .ok ⟨[.int32 5, .char "x"]⟩ := by
  have he : encodeRow pairLayout [.int32 5, .char "x"] = .ok [5, 0, 0, 0, 120, 0] := by rfl
  have h := row_round_trip compileSchema_pair he
  have hs := h.2.1.mpr fun text hm => by
    obtain rfl : text = "x" := by simpa using hm
    decide
  rw [h.1, hs]

/-- A text that ends in NUL is not read back. -/
theorem row_round_trip_nul :
    ¬ ∀ schema layout values bytes, compileSchema schema = .ok layout →
      encodeRow layout values = .ok bytes →
      ∀ rid, decodeRecord layout ⟨rid, bytes⟩ = .ok ⟨values⟩ := by
  intro h
  have he : encodeRow pairLayout [.int32 5, .char "x\x00"] = .ok [5, 0, 0, 0, 120, 0] := by rfl
  have hd := h _ _ _ _ compileSchema_pair he ⟨1, 0⟩
  rw [(encodeRow_encodes compileSchema_pair he).decode] at hd
  revert hd
  decide

/-! ## Filters -/

/-- A compiled filter that validates answers on an encoded row what its expression means on the
decoded row. -/
theorem compileExpr_correct {expr : Expr} {filter : LogicFilter}
    (hc : compileSchema schema = .ok layout) (he : encodeRow layout values = .ok bytes)
    (hf : compileExpr layout expr = .ok filter)
    (hv : filter.validateForRecord layout.recordSize = .ok ()) (rid : Rid) :
    ∃ row b, decodeRecord layout ⟨rid, bytes⟩ = .ok row ∧
      expr.eval (Row.field schema row) = some b ∧ filter.matches bytes = .ok b := by
  have henc := encodeRow_encodes hc he
  obtain ⟨b, heval, hm⟩ := compileExpr_matches henc hc expr hf (henc.length ▸ hv)
  exact ⟨_, b, henc.decode rid, heval, hm⟩

/-- `not (a < 7 and b = "x\0")` is false of the row `5, "x"`. -/
theorem compileExpr_correct_pair :
    ∃ row b, decodeRecord pairLayout ⟨⟨1, 0⟩, [5, 0, 0, 0, 120, 0]⟩ = .ok row ∧
      (Expr.not (.and [.cmpValue "a" .lt (.int32 7), .cmpValue "b" .eq (.char "x\x00")])).eval
        (Row.field pairSchema row) = some b ∧
      (LogicFilter.negate (.and [.clause (.fieldEqualsValue (.int32 0) .lt (.int32 7)),
        .clause (.fieldEqualsValue (.bytes 4 2) .eq (.bytes [120, 0]))])).matches [5, 0, 0, 0, 120,
          0] = .ok b := by
  have he : encodeRow pairLayout [.int32 5, .char "x"] = .ok [5, 0, 0, 0, 120, 0] := by rfl
  exact compileExpr_correct compileSchema_pair he rfl rfl ⟨1, 0⟩

/-! ## Updates and deletions -/

section Writes

variable {I : Type} [ReliableIo I] {s : Opened I} {expr : Option Expr}

/-- In every state, an update and a deletion with a filter that compiles touch exactly the rows that
the filter was true of before, just when the filter is accepted and the page headers pass their
checks; a deletion also frees pages on its way, and these have to pass it then. Below `2^31` pages
all do. -/
theorem where_exact (hr : Run schema s)
    (hc : ∀ e, expr = some e → ∃ filter, compileExpr s.table.layout e = .ok filter) :
    (∀ assignments, Assignable s.table.layout assignments →
      (UpdatesExactly s.table expr assignments ↔ FilterAccepted s.table expr ∧
        HeadersValid s.table.file)) ∧
    (DeletesExactly s.table expr ↔ FilterAccepted s.table expr ∧ HeadersValid s.table.file ∧
      LinksFit s.table.file.header.firstFreePage (isFull s.table)
        ((selectedRows s.table expr).map Record.rid)) ∧
    (s.table.file.header.numPages < 2 ^ 31 → HeadersValid s.table.file ∧
      LinksFit s.table.file.header.firstFreePage (isFull s.table)
        ((selectedRows s.table expr).map Record.rid)) := by
  obtain ⟨-, pages, chain, hs⟩ := hr.ok
  refine ⟨fun _ ha => updatesExactly_iff hs hc ha, deletesExactly_iff hs hc, fun hn => ?_⟩
  have hsmall : Small chain := fun p hp => Nat.lt_of_le_of_lt (hs.holds.wf.mem_hasPage hp).2 hn
  refine ⟨hs.holds.headersValid_iff.mpr fun p hp => hs.holds.wf.readable hsmall hp, ?_⟩
  rw [selectedRows_eq hs]
  refine linksFit_of_small ?_ fun rid hm => ?_
  · exact Int.le_trans (by decide : recordPageFull ≤ recordPageListEnd)
      (hs.holds.wf.valid hsmall).end_le
  · obtain ⟨r, hr, rfl⟩ := List.mem_map.mp hm
    exact Nat.lt_of_le_of_lt (hasPage_of_lookup (listed_selected.live r hr)).1.2 hn

theorem Run.layout_eq (hr : Run schema s) (hc : compileSchema schema = .ok layout) :
    s.table.layout = layout := by
  obtain ⟨hschema, pages, chain, hs⟩ := hr.ok
  have h := hs.compiled
  rw [hschema, hc] at h
  exact (Except.ok.inj h).symm

/-- A new table. -/
theorem exists_run {header : RecordFileHeader} (hc : compileSchema schema = .ok layout)
    (hn : RecordFileHeader.new layout.recordSize = .ok header) :
    ∃ s : Opened DiskPageIo, Run schema s ∧ s.table.file.header.numPages = 0 := by
  obtain ⟨pageFile, file, hp, hf, hcount⟩ := exists_new hn
  exact ⟨_, .create Nat.one_pos hp hc hf, hcount⟩

/-- `a = 5` -/
def fiveExpr : Expr := .cmpValue "a" .eq (.int32 5)

theorem assignable_six : Assignable pairLayout [("a", .int32 6)] := by
  rintro a ha
  obtain rfl := List.mem_singleton.mp ha
  exact ⟨⟨"a", .int32, 0⟩, [6, 0, 0, 0, 0, 0], by rfl, by rfl⟩

/-- An insert adds at most one page. -/
theorem step_insert_numPages {s : Opened DiskPageIo} (hr : Run schema s) (values : List Value) :
    (step s (.insert values)).table.file.header.numPages ≤ s.table.file.header.numPages + 1 := by
  obtain ⟨-, pages, chain, hs⟩ := hr.ok
  refine wp_final (R := fun t => t.file.header.numPages ≤ _) (wp_mono (insert_spec hs values) ?_ ?_)
  · rintro rid t ⟨pages', chain', bytes, -, -, -, -, hle⟩
    exact hle
  · intro _ t hu
    rw [hu.file.header]
    exact Nat.le_succ _

/-- The rows `5, "x"` and `7, "y"`. -/
def twoRows (s : Opened DiskPageIo) : Opened DiskPageIo :=
  step (step s (.insert [.int32 5, .char "x"])) (.insert [.int32 7, .char "y"])

/-- One of two rows is updated so that it is no longer selected, and it is deleted. -/
theorem where_exact_one_of_two :
    ∃ s : Opened DiskPageIo, Run pairSchema s ∧
      UpdatesExactly (twoRows s).table (some fiveExpr) [("a", .int32 6)] ∧
      DeletesExactly (twoRows s).table (some fiveExpr) := by
  have hn : RecordFileHeader.new pairLayout.recordSize = .ok ⟨6, 666, -1, 0⟩ := by decide
  obtain ⟨s, run, hcount⟩ := exists_run compileSchema_pair hn
  have run₁ := run.step (.insert [.int32 5, .char "x"])
  have run₂ : Run pairSchema (twoRows s) := run₁.step (.insert [.int32 7, .char "y"])
  have hgrows₁ := step_insert_numPages run [.int32 5, .char "x"]
  have hgrows₂ : (twoRows s).table.file.header.numPages ≤ _ :=
    step_insert_numPages run₁ [.int32 7, .char "y"]
  have hlayout := run₂.layout_eq compileSchema_pair
  have hcompile : compileExpr pairLayout fiveExpr =
      .ok (.clause (.fieldEqualsValue (.int32 0) .eq (.int32 5))) :=
    rfl
  have hfilter : ∀ e, some fiveExpr = some e → ∃ filter, compileExpr (twoRows s).table.layout e =
      .ok filter := by
    rintro e ⟨⟩
    rw [hlayout]
    exact ⟨_, hcompile⟩
  have h := where_exact run₂ hfilter
  have haccept : FilterAccepted (twoRows s).table (some fiveExpr) := by
    rintro e filter ⟨⟩ hf
    rw [hlayout, hcompile] at hf
    cases hf
    obtain ⟨-, pages', chain', ht⟩ := run₂.ok
    rw [ht.size, hlayout]
    decide
  obtain ⟨hheaders, hlinks⟩ := h.2.2 (by omega)
  exact ⟨s, run, (h.1 _ (hlayout ▸ assignable_six)).mpr ⟨haccept, hheaders⟩,
    h.2.1.mpr ⟨haccept, hheaders, hlinks⟩⟩

/-- `a = b` -/
def mixedExpr : Expr := .cmpColumns "a" .eq "b"

/-- A comparison of an `Int32` with a `Char` column compiles, but a scan does not accept it. -/
theorem where_mixed :
    ∃ s : Opened DiskPageIo, Run pairSchema s ∧
      (∃ filter, compileExpr s.table.layout mixedExpr = .ok filter) ∧
      Assignable s.table.layout [("a", .int32 6)] ∧ ¬ UpdatesExactly s.table (some mixedExpr)
        [("a", .int32 6)] ∧
      ¬ DeletesExactly s.table (some mixedExpr) := by
  have hn : RecordFileHeader.new pairLayout.recordSize = .ok ⟨6, 666, -1, 0⟩ := by decide
  obtain ⟨s, run, -⟩ := exists_run compileSchema_pair hn
  obtain ⟨-, pages, chain, hs⟩ := run.ok
  have hlayout := run.layout_eq compileSchema_pair
  have hassign : Assignable s.table.layout [("a", .int32 6)] := hlayout ▸ assignable_six
  have hmixed : compileExpr s.table.layout mixedExpr =
      .ok (.clause (.fieldComparesField (.int32 0) .eq (.bytes 4 2))) := by
    rw [hlayout]
    rfl
  have hcompile : ∀ e, some mixedExpr = some e → ∃ filter, compileExpr s.table.layout e =
      .ok filter := by
    rintro e ⟨⟩
    exact ⟨_, hmixed⟩
  have hrefused : ¬ FilterAccepted s.table (some mixedExpr) := fun ha => by
    have hv := ha _ _ rfl hmixed
    rw [hs.size, hlayout] at hv
    revert hv
    decide
  exact ⟨s, run, ⟨_, hmixed⟩, hassign,
    fun h => hrefused ((updatesExactly_iff hs hcompile hassign).mp h).1,
    fun h => hrefused ((deletesExactly_iff hs hcompile).mp h).1⟩

/-- A table whose rows need a page each. -/
def blobSchema : TableSchema := ⟨"t", [⟨"v", .char 4000⟩]⟩

def blobLayout : SchemaLayout := ⟨[⟨"v", .char 4000, 0⟩], 4000⟩

theorem compileSchema_blob : compileSchema blobSchema = .ok blobLayout := by rfl

/-- `v = "b"` -/
def blobExpr : Expr := .cmpValue "v" .eq (.char "b")

theorem blobExpr_accepted : ¬ Rejected blobLayout (some blobExpr) := by
  rintro ⟨_, ⟨⟩, hv⟩
  refine hv _ rfl ?_
  decide +kernel

theorem exists_blobs :
    ∃ a b, encodeRow blobLayout [.char "a"] = .ok a ∧ encodeRow blobLayout [.char "b"] = .ok b ∧
      wanted blobSchema blobLayout (some blobExpr) a = false ∧
        wanted blobSchema blobLayout (some blobExpr) b = true := by
  obtain ⟨a, ha⟩ : ∃ bytes, encodeRow blobLayout [.char "a"] = .ok bytes := ⟨_, rfl⟩
  obtain ⟨b, hb⟩ : ∃ bytes, encodeRow blobLayout [.char "b"] = .ok bytes := ⟨_, rfl⟩
  refine ⟨a, b, ha, hb, ?_, ?_⟩
  · unfold wanted
    rw [(encodeRow_encodes compileSchema_blob ha).rowOf_eq]
    rfl
  · unfold wanted
    rw [(encodeRow_encodes compileSchema_blob hb).rowOf_eq]
    rfl

/-- A run that ends with the rows `"a"` on the pages below `2^31` and the rows `"b"` on the next
two. -/
theorem exists_blob_rows {a b : List UInt8} (ha : encodeRow blobLayout [.char "a"] = .ok a)
    (hb : encodeRow blobLayout [.char "b"] = .ok b) :
    ∃ (s : Opened DiskPageIo) (pages : Nat → PageData) (chain : List Nat), Run blobSchema s ∧
      s.table.file.header.numPages = 2 ^ 31 + 1 ∧
      Rows s.table pages chain (update (update (fun _ => a) (2 ^ 31) b) (2 ^ 31 + 1) b) := by
  have hn : RecordFileHeader.new blobLayout.recordSize = .ok ⟨4000, 1, -1, 0⟩ := by decide
  obtain ⟨s, run, hcount⟩ := exists_run compileSchema_blob hn
  have hlayout := run.layout_eq compileSchema_blob
  obtain ⟨-, pages, chain, hs⟩ := run.ok
  have hrows : Rows s.table pages chain fun _ => a := by
    refine ⟨hs, ?_, fun p hp => ?_⟩
    · have hfits : computeSlotsPerPage s.table.file.header.recordSize =
          .ok s.table.file.header.slotsPerPage :=
        hs.holds.wf.fits
      rw [hs.size, hlayout] at hfits
      exact (Except.ok.inj (hfits.symm.trans (by decide : computeSlotsPerPage 4000 = .ok 1)))
    · unfold RecordFileHeader.HasPage at hp
      omega
  obtain ⟨s₁, pages₁, chain₁, run₁, hcount₁, hl₁, hrows₁⟩ :=
    hrows.run_fill run (hlayout ▸ ha) (2 ^ 31 - 1) (by omega)
  obtain ⟨s₂, pages₂, chain₂, run₂, hcount₂, hl₂, hrows₂⟩ :=
    hrows₁.run_insert run₁ ((hl₁.trans hlayout) ▸ hb) (by omega)
  obtain ⟨s₃, pages₃, chain₃, run₃, hcount₃, -, hrows₃⟩ :=
    hrows₂.run_insert run₂ ((hl₂.trans (hl₁.trans hlayout)) ▸ hb) (by omega)
  rw [show s₁.table.file.header.numPages + 1 = 2 ^ 31 by omega] at hrows₃
  rw [show s₂.table.file.header.numPages + 1 = 2 ^ 31 + 1 by omega] at hrows₃
  exact ⟨s₃, pages₃, chain₃, run₃, by omega, hrows₃⟩

/-- A deletion frees two pages with ids from `2^31` on; the rows that are left can no longer be
updated or deleted. -/
theorem where_refused :
    ∃ s : Opened DiskPageIo, Run blobSchema s ∧
      ∀ assignments, Assignable s.table.layout assignments →
      ¬ UpdatesExactly s.table none assignments ∧ ¬ DeletesExactly s.table none := by
  obtain ⟨a, b, ha, hb, hwa, hwb⟩ := exists_blobs
  obtain ⟨s, pages, chain, run, hcount, hrows⟩ := exists_blob_rows ha hb
  have hschema := run.ok.1
  have hlayout := run.layout_eq compileSchema_blob
  have haccept : ¬ Rejected s.table.layout (some blobExpr) := hlayout ▸ blobExpr_accepted
  have hw := hrows.delete_two (p := 2 ^ 31) (q := 2 ^ 31 + 1) (by omega)
    ⟨by omega, by omega⟩ ⟨by omega, by omega⟩ le_rfl (by omega) (by omega) haccept fun r _ => by
      rw [hschema, hlayout, update_apply, update_apply]
      by_cases hq : r = 2 ^ 31 + 1
      · simp [hq, hwb]
      · by_cases hp : r = 2 ^ 31
        · simp [hp, hwb]
        · rw [if_neg hq, if_neg hp, hwa]
          simp only [Bool.false_eq_true, hp, hq, or_self]
  obtain ⟨pages', chain', hs', p, hp, hu⟩ :=
    wp_final (R := fun t => ∃ pages' chain', TableOk t pages' chain' ∧
    ∃ r, Unreadable t.file.header pages' r) (wp_mono hw (fun _ _ h => h.2) fun _ _ => False.elim)
  refine ⟨_, run.step (.deleteWhere (some blobExpr)),
    fun assignments hassign => ⟨fun h => ?_, fun h => ?_⟩⟩
  · exact hu (hs'.holds.headersValid_iff.mp
      ((updatesExactly_iff hs' (fun _ he => by cases he) hassign).mp h).2 p hp)
  · exact hu (hs'.holds.headersValid_iff.mp
      ((deletesExactly_iff hs' fun _ he => by cases he).mp h).2.1 p hp)

end Writes

end Redbase.Table
