import Redbase.Page.Lemmas.Layout
import Redbase.Record.Lemmas.Layout
import Redbase.Lib.Chain

/-!
# What holds of a record file

The data pages are described by `PageOk`; the chain of the pages with a free slot is threaded
through their headers. `lookup` is what the file is for: a finite map from record ids to bytes.
-/

namespace Redbase.Record

open Prog Bytes Page Function Linked

variable {h h' : RecordFileHeader} {bytes bytes' : PageData} {pages : Nat → PageData}
  {chain : List Nat}

/-! ## One page -/

structure PageOk (h : RecordFileHeader) (bytes : PageData) : Prop where
  numSlots : (headerOf bytes).numSlots = h.slotsPerPage
  numFree : (headerOf bytes).numFreeSlots = freeCount h bytes
  full : freeCount h bytes = 0 → (headerOf bytes).nextFreePage = recordPageFull
  zero : ∀ s < h.slotsPerPage, freeAt h bytes s = true →
    slotBytes h bytes s = List.replicate h.recordSize 0

/-- Two headers of files with the same layout of their pages. -/
structure SameLayout (h h' : RecordFileHeader) : Prop where
  size : h'.recordSize = h.recordSize
  slots : h'.slotsPerPage = h.slotsPerPage

namespace SameLayout

theorem refl (h : RecordFileHeader) : SameLayout h h := ⟨rfl, rfl⟩

theorem freeAt_eq (hs : SameLayout h h') : freeAt h' = freeAt h := by
  unfold freeAt
  rw [hs.slots]

theorem freeCount_eq (hs : SameLayout h h') : freeCount h' = freeCount h := by
  unfold freeCount
  rw [hs.slots]

theorem slotBytes_eq (hs : SameLayout h h') : slotBytes h' = slotBytes h := by
  unfold slotBytes recordStart
  rw [hs.slots, hs.size]

theorem fits (hs : SameLayout h h') (hf : h.Fits) : h'.Fits := by
  unfold RecordFileHeader.Fits
  rw [hs.slots, hs.size]
  exact hf

theorem pageOk (hs : SameLayout h h') (hp : PageOk h bytes) : PageOk h' bytes where
  numSlots := hp.numSlots.trans hs.slots.symm
  numFree := by rw [hs.freeCount_eq]; exact hp.numFree
  full := by rw [hs.freeCount_eq]; exact hp.full
  zero := by rw [hs.slots, hs.size, hs.freeAt_eq, hs.slotBytes_eq]; exact hp.zero

end SameLayout

/-- `bytes'` differs from `bytes` by slot `s`, which is marked as `isFree` says and holds `data`. -/
structure Stores (h : RecordFileHeader) (bytes bytes' : PageData) (s : Nat) (isFree : Bool)
    (data : List UInt8) : Prop where
  slot_lt : s < h.slotsPerPage
  free : freeAt h bytes' = update (freeAt h bytes) s isFree
  slots : slotBytes h bytes' = update (slotBytes h bytes) s data

/-- The free slots stay zero when a slot is used, or freed and cleared. -/
theorem Stores.zero {s : Nat} {isFree : Bool} {data : List UInt8}
    (hst : Stores h bytes bytes' s isFree data) (hp : PageOk h bytes)
    (hd : isFree = true → data = List.replicate h.recordSize 0) :
    ∀ t < h.slotsPerPage, freeAt h bytes' t = true →
      slotBytes h bytes' t = List.replicate h.recordSize 0 := by
  intro t ht hfree
  rw [hst.free] at hfree
  rw [hst.slots]
  rcases eq_or_ne t s with rfl | hne
  · rw [update_self] at hfree ⊢
    exact hd hfree
  · rw [update_of_ne hne] at hfree ⊢
    exact hp.zero t ht hfree

/-! ## The file -/

/-- `p` is a data page of the file. -/
def RecordFileHeader.HasPage (h : RecordFileHeader) (p : Nat) : Prop := 1 ≤ p ∧ p ≤ h.numPages

instance (h : RecordFileHeader) (p : Nat) : Decidable (h.HasPage p) :=
  inferInstanceAs (Decidable (_ ∧ _))

/-- The free-page chain, from the link `link`. -/
abbrev FreePages (pages : Nat → PageData) : Int → List Nat → Prop :=
  Chain (fun p => (headerOf (pages p)).nextFreePage) asI32 recordPageListEnd

structure WellFormed (h : RecordFileHeader) (pages : Nat → PageData) (chain : List Nat) : Prop where
  fits : h.Fits
  links : FreePages pages h.firstFreePage chain
  nodup : chain.Nodup
  mem_iff : ∀ p, p ∈ chain ↔ h.HasPage p ∧ 0 < freeCount h (pages p)
  page : ∀ p, h.HasPage p → PageOk h (pages p)

/-- The bytes stored under a record id. -/
def lookup (h : RecordFileHeader) (pages : Nat → PageData) (rid : Rid) : Option (List UInt8) :=
  if h.HasPage rid.pageId ∧ rid.slotId < h.slotsPerPage ∧
    freeAt h (pages rid.pageId) rid.slotId = false then
    some (slotBytes h (pages rid.pageId) rid.slotId)
  else none

/-- Only the data pages count. -/
theorem lookup_congr {pages' : Nat → PageData} (hp : ∀ p, h.HasPage p → pages' p = pages p) :
    lookup h pages' = lookup h pages := by
  funext rid
  unfold lookup
  by_cases hhas : h.HasPage rid.pageId
  · rw [hp _ hhas]
  · simp [hhas]

theorem lookup_stores {p s : Nat} {isFree : Bool} {data : List UInt8} (hp : h.HasPage p)
    (hs : Stores h (pages p) bytes' s isFree data) (hl : SameLayout h h')
    (hn : h'.numPages = h.numPages) :
    lookup h' (update pages p bytes') =
      update (lookup h pages) ⟨p, s⟩ (if isFree then none else some data) := by
  have hhas : h'.HasPage = h.HasPage := by
    unfold RecordFileHeader.HasPage
    rw [hn]
  funext rid
  simp only [lookup, hhas, hl.slots, hl.freeAt_eq, hl.slotBytes_eq]
  rcases eq_or_ne rid ⟨p, s⟩ with rfl | hne
  · rw [update_self, update_self, hs.free, hs.slots, update_self, update_self]
    cases isFree <;> simp [hp, hs.slot_lt]
  · rw [update_of_ne hne]
    rcases eq_or_ne rid.pageId p with hpage | hpage
    · have hslot : rid.slotId ≠ s := by
        rintro rfl
        exact hne (by cases rid; cases hpage; rfl)
      rw [hpage, update_self, hs.free, hs.slots, update_of_ne hslot, update_of_ne hslot,
        lookup, hpage]
    · rw [update_of_ne hpage]
      rfl

theorem hasPage_succ (hn : h'.numPages = h.numPages + 1) (q : Nat) :
    h'.HasPage q ↔ q = h.numPages + 1 ∨ h.HasPage q := by
  unfold RecordFileHeader.HasPage
  omega

theorem not_hasPage_succ (h : RecordFileHeader) : ¬ h.HasPage (h.numPages + 1) := by
  unfold RecordFileHeader.HasPage
  omega

/-- A new page stores nothing yet. -/
theorem lookup_allocate (hl : SameLayout h h') (hn : h'.numPages = h.numPages + 1)
    (hfree : ∀ s < h.slotsPerPage, freeAt h bytes' s = true) :
    lookup h' (update pages (h.numPages + 1) bytes') = lookup h pages := by
  funext rid
  unfold lookup
  rw [hl.slots, hl.freeAt_eq, hl.slotBytes_eq]
  rcases eq_or_ne rid.pageId (h.numPages + 1) with hpage | hpage
  · rw [hpage, update_self, if_neg, if_neg]
    · exact fun hc => not_hasPage_succ h hc.1
    · rintro ⟨-, hs, hused⟩
      rw [hfree _ hs] at hused
      cases hused
  · rw [update_of_ne hpage]
    refine if_congr ?_ rfl rfl
    rw [hasPage_succ hn]
    simp [hpage]

/-! ## Changes of the chain -/

namespace WellFormed

variable {p : Nat}

/-- The other pages are not touched. -/
theorem page_update (hw : WellFormed h pages chain) (hl : SameLayout h h') (hb : PageOk h bytes')
    {q : Nat} (hq : q = p ∨ h.HasPage q) : PageOk h' (update pages p bytes' q) := by
  rcases eq_or_ne q p with rfl | hne
  · rw [update_self]
    exact hl.pageOk hb
  · rw [update_of_ne hne]
    exact hl.pageOk (hw.page q (hq.resolve_left hne))

/-- A page keeps its link, and its place in the chain or outside of it. -/
theorem keep (hw : WellFormed h pages chain) (hp : h.HasPage p) (hb : PageOk h bytes')
    (hnext : (headerOf bytes').nextFreePage = (headerOf (pages p)).nextFreePage)
    (hfree : 0 < freeCount h bytes' ↔ 0 < freeCount h (pages p)) :
    WellFormed h (update pages p bytes') chain where
  fits := hw.fits
  links := hw.links.congr fun q _ => by
    rcases eq_or_ne q p with rfl | hne
    · rw [update_self, hnext]
    · rw [update_of_ne hne]
  nodup := hw.nodup
  mem_iff q := by
    rw [hw.mem_iff]
    rcases eq_or_ne q p with rfl | hne
    · rw [update_self, hfree]
    · rw [update_of_ne hne]
  page q hq := hw.page_update (SameLayout.refl h) hb (Or.inr hq)

/-- The head of the chain has become full. -/
theorem pop {rest : List Nat} (hw : WellFormed h pages (p :: rest)) (hb : PageOk h bytes')
    (hfull : freeCount h bytes' = 0) :
    WellFormed { h with firstFreePage := (headerOf (pages p)).nextFreePage }
      (update pages p bytes') rest where
  fits := hw.fits
  links := hw.links.tail.congr fun q hq => by
    rw [update_of_ne]
    rintro rfl
    exact (List.nodup_cons.mp hw.nodup).1 hq
  nodup := (List.nodup_cons.mp hw.nodup).2
  mem_iff q := by
    show _ ↔ h.HasPage q ∧ 0 < freeCount h (update pages p bytes' q)
    rcases eq_or_ne q p with rfl | hne
    · rw [update_self, hfull]
      simp [(List.nodup_cons.mp hw.nodup).1]
    · rw [update_of_ne hne, ← hw.mem_iff, List.mem_cons]
      simp [hne]
  page q hq := by
    have hl : SameLayout h { h with firstFreePage := (headerOf (pages p)).nextFreePage } :=
      ⟨rfl, rfl⟩
    exact hw.page_update hl hb (Or.inr hq)

/-- A page that was not in the chain becomes its head: it was full, or it is new. -/
theorem push (hw : WellFormed h pages chain) (hl : SameLayout h h') (hout : p ∉ chain)
    (hhead : h'.firstFreePage = asI32 p) (hhas : ∀ q, h'.HasPage q ↔ q = p ∨ h.HasPage q)
    (hb : PageOk h bytes') (hnext : (headerOf bytes').nextFreePage = h.firstFreePage)
    (hfree : 0 < freeCount h bytes') : WellFormed h' (update pages p bytes') (p :: chain) where
  fits := hl.fits hw.fits
  links := by
    rw [hhead]
    refine .cons ?_
    simp only [update_self, hnext]
    exact hw.links.congr fun q hq => by
      rw [update_of_ne]
      rintro rfl
      exact hout hq
  nodup := List.nodup_cons.mpr ⟨hout, hw.nodup⟩
  mem_iff q := by
    rw [hl.freeCount_eq, hhas, List.mem_cons]
    rcases eq_or_ne q p with rfl | hne
    · simp [hfree]
    · rw [update_of_ne hne, hw.mem_iff]
      simp [hne]
  page q hq := hw.page_update hl hb ((hhas q).mp hq)

end WellFormed

/-! ## Any file -/

/-- The data of a page that the bytes of a page file mark as used. -/
def pageIn (bytes : List UInt8) (p : Nat) : Option PageData :=
  if p < (FileHeader.read (headerAt bytes)).numPages ∧ (pageAt bytes p).nextFree = pageUsed then
    some (pageAt bytes p).data
  else none

/-- The record of a slot that is marked used, on a data page whose header passes its checks. -/
def recordIn (h : RecordFileHeader) (pages : Nat → Option PageData) (rid : Rid) : Option Record :=
  if h.HasPage rid.pageId then (pages rid.pageId).bind fun bytes => (getFrom h rid bytes).toOption
  else none

end Redbase.Record
