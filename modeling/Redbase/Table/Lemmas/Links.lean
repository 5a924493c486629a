import Redbase.Record.Lemmas.Occupancy
import Redbase.Table.Lemmas.Overflow

/-!
# Links that fit

A page with a free slot is linked to. Where the ids of these pages fit into a link, the header of
every page passes its check, and the writes to a table keep it so unless they free a page with a
larger id.
-/

namespace Redbase.Record

open Prog Bytes Page Linked

variable {h : RecordFileHeader} {pages : Nat → PageData} {chain : List Nat} {rid : Rid} {p : Nat}

/-- A slot of the file that holds no record. -/
def FreeSlot (h : RecordFileHeader) (pages : Nat → PageData) (rid : Rid) : Prop :=
  h.HasPage rid.pageId ∧ rid.slotId < h.slotsPerPage ∧ lookup h pages rid = none

/-- The ids of the pages with a free slot fit into a link. -/
def LinksHold (h : RecordFileHeader) (pages : Nat → PageData) : Prop :=
  ∀ rid, FreeSlot h pages rid → rid.pageId < 2 ^ 31

/-- The chain has the pages with a free slot. -/
theorem WellFormed.mem_chain_iff (hw : WellFormed h pages chain) :
    p ∈ chain ↔ ∃ slot, FreeSlot h pages ⟨p, slot⟩ := by
  rw [hw.mem_iff, freeCount, Bitmap.count_pos_iff]
  constructor
  · rintro ⟨hp, slot, hslot, hfree⟩
    refine ⟨slot, hp, hslot, ?_⟩
    rw [show lookup h pages ⟨p, slot⟩ = _ from lookup_of_hasPage hp hslot]
    exact if_pos hfree
  · rintro ⟨slot, hp, hslot, hnone⟩
    refine ⟨hp, slot, hslot, ?_⟩
    rw [show lookup h pages ⟨p, slot⟩ = _ from lookup_of_hasPage hp hslot] at hnone
    cases hfree : freeAt h (pages p) slot with
    | true => exact hfree
    | false =>
        simp only [hfree] at hnone
        cases hnone

theorem WellFormed.mem_chain (hw : WellFormed h pages chain) (hf : FreeSlot h pages rid) :
    rid.pageId ∈ chain :=
  hw.mem_chain_iff.mpr ⟨rid.slotId, hf⟩

theorem LinksHold.small (hl : LinksHold h pages) (hw : WellFormed h pages chain) : Small chain := by
  intro p hm
  obtain ⟨slot, hf⟩ := hw.mem_chain_iff.mp hm
  exact hl _ hf

/-- A link to a page with a larger id is refused, in the header of the file or in that of a page. -/
theorem WellFormed.refused (hw : WellFormed h pages chain) (hm : p ∈ chain) (hp : 2 ^ 31 ≤ p)
    (hn : h.numPages + 2 < 2 ^ 32) (hv : h.Valid) : ∃ q, Unreadable h pages q := by
  have hlink : asI32 p < recordPageFull := by
    have hle := (hw.mem_hasPage hm).2
    unfold asI32 recordPageFull
    rw [if_neg (Nat.not_lt.mpr hp)]
    omega
  by_contra hno
  have hlinks : ∀ q ∈ chain, recordPageFull ≤ (headerOf (pages q)).nextFreePage := by
    intro q hq
    by_contra hlt
    exact hno ⟨q, hw.mem_hasPage hq, fun hr => hlt hr.next_ge⟩
  have htail := (hw.links.forall_link_iff (P := (recordPageFull ≤ ·)) (by decide)).mp hlinks
  have hchain := hw.links
  cases chain with
  | nil => cases hm
  | cons q rest =>
      rcases List.mem_cons.mp hm with rfl | hm
      · have hend := hv.end_le
        rw [hchain.head_eq] at hend
        exact absurd (Int.le_trans (by decide : recordPageFull ≤ recordPageListEnd) hend)
          (Int.not_le.mpr hlink)
      · exact absurd (htail p hm) (Int.not_le.mpr hlink)

end Redbase.Record

namespace Redbase.Table

open Prog Bytes Page Record Function

variable {I : Type} [ReliableIo I] {cap : Nat} {s t : Table I cap} {pages pages' : Nat → PageData}
  {chain chain' : List Nat} {expr : Option Expr}

theorem Continues.slots_eq (h : Continues s t pages' chain') (hs : TableOk s pages chain) :
    t.file.header.slotsPerPage = s.file.header.slotsPerPage := by
  have hfits : computeSlotsPerPage s.file.header.recordSize = .ok s.file.header.slotsPerPage :=
    hs.holds.wf.fits
  have hfits' : computeSlotsPerPage t.file.header.recordSize = .ok t.file.header.slotsPerPage :=
    h.ok.holds.wf.fits
  rw [h.ok.size, h.layout, ← hs.size, hfits] at hfits'
  exact (Except.ok.inj hfits').symm

/-- Where a page is free, a new row adds none. -/
theorem insert_numPages (hs : TableOk s pages chain) (values : List Value) :
    wp (Table.insert values)
      (fun _ t => chain ≠ [] → t.file.header.numPages = s.file.header.numPages)
      (fun _ _ => True) s := by
  by_cases hc : chain = []
  · exact wp_mono (wp_true _ _) (fun _ _ _ hne => absurd hc hne) fun _ _ _ => trivial
  unfold Table.insert
  simp only [wp_bind, wp_get]
  cases he : encodeRow s.layout values with
  | error e => trivial
  | ok bytes =>
      simp only [wp_check_ok, wp_liftFile]
      exact wp_mono (insert_listed hs.holds hc) (fun _ _ hn _ => hn) fun _ _ _ => trivial

/-- The page of a new row is free unless the row is in its only slot. -/
theorem insert_linksHold (hs : TableOk s pages chain) (hl : LinksHold s.file.header pages)
    (hroom : (∃ rid, FreeSlot s.file.header pages rid) ∨ s.file.header.slotsPerPage = 1 ∨
      s.file.header.numPages + 1 < 2 ^ 31) (values : List Value) :
    wp (Table.insert values) (fun _ t => ∃ pages' chain', Continues s t pages' chain' ∧
        LinksHold t.file.header pages')
      (fun _ t => Unchanged s t pages chain) s := by
  refine wp_mono (wp_and (Table.insert_spec hs values) (insert_numPages hs values)) ?_
    fun _ _ h => h.1
  rintro new t ⟨⟨pages', chain', data, hc, -, hnone, hlook, hle⟩, hnum⟩
  refine ⟨pages', chain', hc, ?_⟩
  intro rid ⟨hp, hslot, hfree⟩
  have hslots := hc.slots_eq hs
  have hne : rid ≠ new := by
    intro he
    rw [he, hlook, update_self] at hfree
    cases hfree
  rw [hlook, update_of_ne hne] at hfree
  by_cases hold : s.file.header.HasPage rid.pageId
  · exact hl rid ⟨hold, hslots ▸ hslot, hfree⟩
  -- The page of the free slot is new, so there was no free page before.
  have hgrown : t.file.header.numPages ≠ s.file.header.numPages := by
    unfold RecordFileHeader.HasPage at hp hold
    omega
  have hnil : ∀ rid, ¬ FreeSlot s.file.header pages rid := fun rid hf =>
    hgrown (hnum (List.ne_nil_of_mem (hs.holds.wf.mem_chain hf)))
  rcases hroom with ⟨free, hf⟩ | hone | hlt
  · exact absurd hf (hnil free)
  · have hsome : lookup t.file.header pages' new = some data := by rw [hlook, update_self]
    obtain ⟨hnew, hslot'⟩ := hasPage_of_lookup hsome
    have hnotOld : ¬ s.file.header.HasPage new.pageId :=
      fun hhas => hnil new ⟨hhas, hslots ▸ hslot', hnone⟩
    refine absurd (?_ : rid = new) hne
    obtain ⟨page, slot⟩ := rid
    obtain ⟨page', slot'⟩ := new
    unfold RecordFileHeader.HasPage at hp hnew hold hnotOld
    simp only [Rid.mk.injEq] at *
    omega
  · unfold RecordFileHeader.HasPage at hp
    omega

/-- A delete frees the pages of the rows that it removes. -/
theorem deleteWhere_linksHold (hs : TableOk s pages chain) (hl : LinksHold s.file.header pages)
    (hsmall : ∀ rid data, lookup s.file.header pages rid = some data →
      wanted s.schema s.layout expr data = true → rid.pageId < 2 ^ 31) :
    wp (Table.deleteWhere expr) (fun _ t => ∃ pages' chain', Continues s t pages' chain' ∧
        LinksHold t.file.header pages')
      (fun _ t => Unchanged s t pages chain) s := by
  have hvalid := hs.holds.wf.valid (hl.small hs.holds.wf)
  have hw := deleteWhere_exact hs expr (isFull_eq hs)
  refine wp_mono hw ?_ ?_
  · rintro n t ⟨-, -, -, -, pages', chain', hr⟩
    refine ⟨pages', chain', hr.continues, ?_⟩
    intro rid ⟨hp, hslot, hfree⟩
    have hp' : s.file.header.HasPage rid.pageId := by
      unfold RecordFileHeader.HasPage at hp ⊢
      rw [← hr.numPages]
      exact hp
    rw [hr.entry] at hfree
    cases hlook : lookup s.file.header pages rid with
    | none => exact hl rid ⟨hp', hr.continues.slots_eq hs ▸ hslot, hlook⟩
    | some data =>
        rw [hlook] at hfree
        refine hsmall rid data hlook ?_
        simpa using hfree
  · rintro _ t (⟨hu, -⟩ | ⟨hno, -⟩)
    · exact hu
    · refine absurd (linksFit_of_small ?_ fun rid hm => ?_) hno
      · exact Int.le_trans (by decide : recordPageFull ≤ recordPageListEnd) hvalid.end_le
      · obtain ⟨r, hr, rfl⟩ := List.mem_map.mp hm
        obtain ⟨hlive, hwant⟩ := mem_matching.mp hr
        exact hsmall _ _ hlive hwant

end Redbase.Table
