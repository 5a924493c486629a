import Redbase.Table.Lemmas.Writes
import Redbase.Record.Lemmas.Overflow

/-!
# Tables of one-slot pages

A run that fills the pages of a table until their ids no longer fit into the links, and frees two of
the last pages.
-/

namespace Redbase.Table

open Prog Bytes Text Page Record Function

set_option linter.dupNamespace false

variable {I : Type} [ReliableIo I] {schema : TableSchema} {layout : SchemaLayout} {s t : Opened I}
  {cap : Nat} {pages pages' : Nat → PageData} {chain chain' : List Nat} {expr : Option Expr}
  {values : List Value} {bytes : List UInt8}

/-! ## Links that fit -/

/-- The links fit when no page is freed twice. -/
theorem linksFit_of_nodup {first : Int} {full : Nat → Bool} {rids : List Rid}
    (h : (rids.map Rid.pageId).Nodup) :
    LinksFit first full rids := by
  induction rids generalizing first full with
  | nil => trivial
  | cons rid rest ih =>
      obtain ⟨hfresh, hrest⟩ := List.nodup_cons.mp h
      rw [LinksFit]
      split
      · exact ⟨fun _ other ho he => hfresh (List.mem_map.mpr ⟨other, ho, he⟩), ih hrest⟩
      · exact ih hrest

/-- The links fit when the ids are small. -/
theorem linksFit_of_small {first : Int} {full : Nat → Bool} {rids : List Rid}
    (hf : recordPageFull ≤ first) (h : ∀ rid ∈ rids, rid.pageId < 2 ^ 31) :
    LinksFit first full rids := by
  induction rids generalizing first full with
  | nil => trivial
  | cons rid rest ih =>
      obtain ⟨hlt, hrest⟩ := List.forall_mem_cons.mp h
      rw [LinksFit]
      split
      · refine ⟨fun hbad => absurd hf (Int.not_le.mpr hbad), ih ?_ hrest⟩
        rw [asI32_of_lt hlt]
        exact Int.le_trans (by decide) (Int.natCast_nonneg _)
      · exact ih hf hrest

/-! ## Filling the table -/

/-- A table of one-slot pages, where page `p` holds the row `rows p`. -/
structure Rows (s : Table I cap) (pages : Nat → PageData) (chain : List Nat)
    (rows : Nat → List UInt8) : Prop where
  ok : TableOk s pages chain
  one : s.file.header.slotsPerPage = 1
  row : ∀ p, s.file.header.HasPage p → lookup s.file.header pages ⟨p, 0⟩ = some (rows p)

variable {rows : Nat → List UInt8}

theorem Rows.full {s : Table I cap} (h : Rows s pages chain rows) : Full s.file.header pages :=
  ⟨h.one, fun p hp => by rw [h.row p hp]; exact Option.some_ne_none _⟩

/-- One row more is one page more. -/
theorem Rows.insert {s : Table I cap} (h : Rows s pages chain rows)
    (he : encodeRow s.layout values = .ok bytes) (hn : s.file.header.numPages + 2 < 2 ^ 32) :
    wp (Table.insert values)
      (fun _ t => t.file.header.numPages = s.file.header.numPages + 1 ∧ t.layout = s.layout ∧
        t.schema = s.schema ∧
        ∃ pages' chain', Rows t pages' chain'
          (update rows (s.file.header.numPages + 1) bytes)) never s := by
  have henc := encodeRow_encodes h.ok.compiled he
  unfold Table.insert
  simp only [wp_bind, wp_get, he, wp_check_ok, wp_liftFile]
  refine wp_mono (insert_full h.ok.holds h.full (henc.length.trans h.ok.size.symm) hn) ?_
    fun _ _ => False.elim
  rintro _ file ⟨rfl, hcount, pages', chain', hh, hst, hfull⟩
  have hc := h.ok.stepped hh hst fun data hd => ⟨values, Option.some.inj hd ▸ henc⟩
  refine ⟨hcount, trivial, trivial, pages', chain', hc.ok, hfull.one, fun p hp => ?_⟩
  show lookup file.header pages' _ = _
  rw [hst.lookup]
  rcases eq_or_ne p (s.file.header.numPages + 1) with rfl | hne
  · rw [update_self, update_self]
  · rw [update_of_ne (by rintro ⟨⟩; exact hne rfl), update_of_ne hne]
    refine h.row p ?_
    change file.header.HasPage p at hp
    unfold RecordFileHeader.HasPage at hp ⊢
    omega

/-- A run that inserts one row more. -/
theorem Rows.run_insert (h : Rows s.table pages chain rows) (hr : Run schema s)
    (he : encodeRow s.table.layout values = .ok bytes)
    (hn : s.table.file.header.numPages + 2 < 2 ^ 32) :
    ∃ (t : Opened I) (pages' : Nat → PageData) (chain' : List Nat), Run schema t ∧
      t.table.file.header.numPages = s.table.file.header.numPages + 1 ∧
      t.table.layout = s.table.layout ∧
      Rows t.table pages' chain' (update rows (s.table.file.header.numPages + 1) bytes) := by
  obtain ⟨_, t, ht, hcount, hlayout, -, pages', chain', hrows⟩ := exists_ok_of_wp (h.insert he hn)
  have hstep : step s (.insert values) = ⟨s.cap, t⟩ := by
    show s.after _ = _
    unfold Opened.after
    rw [ht]
    rfl
  have hrun := hr.step (.insert values)
  rw [hstep] at hrun
  exact ⟨⟨s.cap, t⟩, pages', chain', hrun, hcount, hlayout, hrows⟩

/-- A run that fills any number of pages with one row. -/
theorem Rows.run_fill (h : Rows s.table pages chain fun _ => bytes) (hr : Run schema s)
    (he : encodeRow s.table.layout values = .ok bytes) (n : Nat)
    (hn : s.table.file.header.numPages + n + 1 < 2 ^ 32) :
    ∃ (t : Opened I) (pages' : Nat → PageData) (chain' : List Nat), Run schema t ∧
      t.table.file.header.numPages = s.table.file.header.numPages + n ∧
      t.table.layout = s.table.layout ∧ Rows t.table pages' chain' fun _ => bytes := by
  induction n with
  | zero => exact ⟨s, pages, chain, hr, rfl, rfl, h⟩
  | succ n ih =>
      obtain ⟨t, pages, chain, ht, hcount, hlayout, hrows⟩ := ih (by omega)
      obtain ⟨u, pages', chain', hu, hcount', hlayout', hrows'⟩ :=
        hrows.run_insert ht (hlayout ▸ he) (by omega)
      rw [update_eq_self] at hrows'
      exact ⟨u, pages', chain', hu, by omega, hlayout'.trans hlayout, hrows'⟩

/-! ## Freeing two pages -/

/-- A deletion that selects the rows of two pages with large ids leaves a page that is refused. -/
theorem Rows.delete_two {s : Table I cap} {p q : Nat} (h : Rows s pages chain rows) (hpq : p ≠ q)
    (hp : s.file.header.HasPage p) (hq : s.file.header.HasPage q) (hlp : 2 ^ 31 ≤ p)
    (hlq : 2 ^ 31 ≤ q)
    (hn : s.file.header.numPages + 2 < 2 ^ 32) (haccept : ¬ Rejected s.layout expr)
    (hwant : ∀ r, s.file.header.HasPage r →
      (wanted s.schema s.layout expr (rows r) = true ↔ r = p ∨ r = q)) :
    wp (Table.deleteWhere expr)
      (fun _ t => t.layout = s.layout ∧ ∃ pages' chain', TableOk t pages' chain' ∧ ∃ r,
        Unreadable t.file.header pages' r)
      never s := by
  have hslot : ∀ {rid : Rid} {data}, lookup s.file.header pages rid = some data →
      rid = ⟨rid.pageId, 0⟩ := by
    intro rid data hl
    have := (hasPage_of_lookup hl).2
    rw [h.one] at this
    cases rid
    congr
    exact Nat.lt_one_iff.mp this
  have hsel : ∀ r, r ∈ selected s pages expr ↔
      lookup s.file.header pages r.rid = some r.data ∧ (r.rid = ⟨p, 0⟩ ∨ r.rid = ⟨q, 0⟩) := by
    intro r
    rw [selected, mem_matching]
    refine and_congr_right fun hl => ?_
    have hrid := hslot hl
    have hhas := (hasPage_of_lookup hl).1
    rw [hrid, h.row _ hhas, Option.some.injEq] at hl
    rw [← hl, hwant _ hhas, hrid]
    simp
  have hnodup : (((selected s pages expr).map Record.rid).map Rid.pageId).Nodup := by
    refine List.Nodup.map_on (fun a ha b hb he => ?_) listed_selected.nodup
    obtain ⟨x, hx, rfl⟩ := List.mem_map.mp ha
    obtain ⟨y, hy, rfl⟩ := List.mem_map.mp hb
    rw [hslot ((hsel x).mp hx).1, hslot ((hsel y).mp hy).1, he]
  have hread : AllReadable s.file.header pages := fun r hr =>
    h.ok.holds.wf.readable_of_used h.one hr (h.full.used r hr)
  refine wp_mono (deleteWhere_exact h.ok expr (isFull_eq h.ok)) ?_ ?_
  · rintro n t ⟨-, -, -, -, pages', chain', hrem⟩
    have hhas : ∀ r, t.file.header.HasPage r ↔ s.file.header.HasPage r := fun r => by
      unfold RecordFileHeader.HasPage
      rw [hrem.numPages]
    have hfree : ∀ r, t.file.header.HasPage r →
        (lookup t.file.header pages' ⟨r, 0⟩ = none ↔ r = p ∨ r = q) := by
      intro r hr
      by_cases hm : (⟨r, 0⟩ : Rid) ∈ (selected s pages expr).map Record.rid
      · obtain ⟨x, hx, hxr⟩ := List.mem_map.mp hm
        have h₁ := ((hsel x).mp hx).2
        rw [← hxr, hrem.gone x hx]
        rw [hxr] at h₁
        simpa using h₁
      · rw [hrem.kept _ hm, h.row r ((hhas r).mp hr)]
        refine iff_of_false (Option.some_ne_none _) fun hpq' => hm ?_
        refine List.mem_map.mpr ⟨⟨⟨r, 0⟩, rows r⟩, (hsel _).mpr ⟨h.row r ((hhas r).mp hr), ?_⟩, rfl⟩
        simpa using hpq'
    have ht := hrem.continues.ok
    have hsize : t.file.header.recordSize = s.file.header.recordSize := by
      rw [ht.size, hrem.continues.layout, h.ok.size]
    have hone : t.file.header.slotsPerPage = 1 := by
      have hfits : computeSlotsPerPage _ = .ok t.file.header.slotsPerPage := ht.holds.wf.fits
      have hfits' : computeSlotsPerPage _ = .ok s.file.header.slotsPerPage := h.ok.holds.wf.fits
      rw [hsize, hfits', h.one] at hfits
      exact (Except.ok.inj hfits).symm
    exact ⟨hrem.continues.layout, pages', chain', ht, ht.holds.wf.unreadable_of_free hone
      (hrem.numPages ▸ hn) hpq
      ((hhas p).mpr hp) ((hhas q).mpr hq) hfree hlp hlq⟩
  · rintro _ t (⟨-, hrej | ⟨r, hr, hu⟩⟩ | ⟨hno, -⟩)
    · exact haccept hrej
    · exact hu (hread r hr)
    · exact hno (linksFit_of_nodup hnodup)

end Redbase.Table
