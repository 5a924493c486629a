import Redbase.Page.Lemmas.Faults

/-!
# What failed calls cannot damage

`Remembers s v free` says that the pages in `v`, with their data, are in the file `s`, and that its
free list is `free`. A failed read may have changed the buffer of a page that needs no write-back;
then the buffer does not show the page as in use, or it shows its data. A free page has its link in
the buffer.
-/

namespace Redbase.Page

open Prog Bytes PageFile ByteIo Function Linked

variable {I : Type} [ByteIo I] {s t u : PageFile I} {p q : Nat} {v v' : Nat → Option PageData}
  {free free' : List Nat}

/-! ## The free list -/

/-- The free list of the file is `free`; the ids in it are never taken for the mark of a page in
use. -/
structure Stacked (s : PageFile I) (free : List Nat) : Prop where
  chain : Chain (fun p => (s.kept p).nextFree) asI32 freeListEnd s.header.firstFreePage free
  nodup : free.Nodup
  page : ∀ p ∈ free, p < s.header.numPages ∧ s.Within p ∧ asI32 p ≠ pageUsed
  buffer : ∀ p ∈ free, s.loadedPageId = some p → s.loadedPage.nextFree = (s.kept p).nextFree
  stored : s.headerDirty = false →
    (FileHeader.read (headerAt (content s.io))).firstFreePage = s.header.firstFreePage

namespace Stacked

theorem link_ne_used (h : Stacked s free) (hp : p ∈ free) : (s.kept p).nextFree ≠ pageUsed := by
  rcases h.chain.link_cases hp with he | ⟨q, hq, he⟩
  · rw [he]
    decide
  · rw [he]
    exact (h.page q hq).2.2

/-- A free page is shown with the link it is stored with. -/
theorem image_link (h : Stacked s free) (hp : p ∈ free) :
    (s.image p).nextFree = (s.kept p).nextFree := by
  by_cases hl : s.loadedPageId = some p
  · rw [PageFile.image, if_pos hl, h.buffer p hp hl]
  · rw [s.kept_eq_image hl]

theorem not_mem (h : Stacked s free) (hu : (s.image p).nextFree = pageUsed) : p ∉ free :=
  fun hp => h.link_ne_used hp (h.image_link hp ▸ hu)

theorem of_same (h : Stacked s free) (hs : Same s t)
    (hb : ∀ p ∈ free, t.loadedPageId = some p → t.loadedPage.nextFree = (s.kept p).nextFree) :
    Stacked t free where
  chain := by
    rw [hs.header]
    exact h.chain.congr fun p _ => by rw [hs.kept]
  nodup := h.nodup
  page p hp := by
    obtain ⟨hlt, hw, hne⟩ := h.page p hp
    exact ⟨hs.header ▸ hlt, hs.within hw, hne⟩
  buffer p hp hl := by rw [hs.kept, hb p hp hl]
  stored hd := by
    rw [hs.fileHeader, hs.header]
    exact h.stored (hs.headerDirty ▸ hd)

theorem of_failure (h : Stacked s free) {e : PageStoreError} (hf : LoadFailure s p e t)
    (hok : ∀ u b r, FailedRead s p u b → s.loadedPageId = some r → ShowsAs (s.kept r) b) :
    Stacked t free := by
  refine h.of_same hf.same fun q hq hl => ?_
  rw [hf.loadedPageId] at hl
  rcases hf.buffer with hb | ⟨u, hr⟩
  · rw [hb, h.buffer q hq hl]
  · exact (hok u _ q hr hl).2 (h.link_ne_used hq)

theorem of_resident (h : Stacked s free) (hr : Resident s p t) : Stacked t free := by
  refine h.of_same hr.same fun q hq hl => ?_
  rw [hr.loadedPageId, Option.some.injEq] at hl
  rw [hr.loadedPage, hl, h.image_link hq]

/-- One page was changed; its new link makes the chain of `free'`. -/
theorem of_edited (h : Stacked s free) {b : PageBuf} (he : Edited s p b t)
    (hn : s.header.numPages ≤ t.header.numPages)
    (hst : t.headerDirty = false → s.headerDirty = false ∧ t.header = s.header)
    (hsub : ∀ q ∈ free', q ≠ p → q ∈ free) (hp : p ∈ free' → asI32 p ≠ pageUsed)
    (hchain : Chain (update (fun q => (s.kept q).nextFree) p b.nextFree) asI32 freeListEnd
      t.header.firstFreePage free')
    (hnodup : free'.Nodup) : Stacked t free' where
  chain := by
    refine hchain.congr fun q hq => ?_
    rcases eq_or_ne q p with rfl | hne
    · rw [update_self, he.kept_self]
    · obtain ⟨hlt, hw, -⟩ := h.page q (hsub q hq hne)
      rw [update_of_ne hne, (he.others q hlt hw).2.1 hne]
  nodup := hnodup
  page q hq := by
    rcases eq_or_ne q p with rfl | hne
    · exact ⟨he.lt, he.within, hp hq⟩
    · obtain ⟨hlt, hw, hne'⟩ := h.page q (hsub q hq hne)
      exact ⟨Nat.lt_of_lt_of_le hlt hn, (he.others q hlt hw).1, hne'⟩
  buffer q _ hl := by
    rw [he.loadedPageId, Option.some.injEq] at hl
    rw [← hl, he.kept_self, he.loadedPage]
  stored hd := by
    obtain ⟨hd', hh⟩ := hst hd
    rw [he.fileHeader, hh]
    exact h.stored hd'

/-- The free pages are not those written. -/
theorem of_write (h : Stacked s free) {b : PageBuf} (he : Edited s p b t) (hh : t.header = s.header)
    (hd : t.headerDirty = s.headerDirty) (hu : (s.image p).nextFree = pageUsed) :
    Stacked t free := by
  have hp := h.not_mem hu
  refine h.of_edited he (hh ▸ Nat.le_refl _) (fun hf => ⟨hd ▸ hf, hh⟩) (fun q hq _ => hq)
    (fun hm => absurd hm hp) ?_ h.nodup
  rw [hh]
  refine h.chain.congr fun q hq => update_of_ne ?_ _ _
  rintro rfl
  exact hp hq

theorem of_dispose (h : Stacked s free) {b : PageBuf} (he : Edited s p b t)
    (hd : t.headerDirty = true) (hh : t.header = { s.header with firstFreePage := asI32 p })
    (hb : b.nextFree = s.header.firstFreePage) (hu : (s.image p).nextFree = pageUsed)
    (hp : asI32 p ≠ pageUsed) : Stacked t (p :: free) := by
  have hnot := h.not_mem hu
  refine h.of_edited he (hh ▸ Nat.le_refl _) (fun hf => ?_) (fun q hq hne => ?_) (fun _ => hp) ?_
    (List.nodup_cons.mpr ⟨hnot, h.nodup⟩)
  · cases hd.symm.trans hf
  · exact (List.mem_cons.mp hq).resolve_left hne
  · rw [hh, hb]
    exact h.chain.push hnot

/-- The head of the list is the page that `allocate_page` takes; without one the file grows. -/
theorem firstFree_eq (h : Stacked s free) (hs : Sane s) :
    s.header.firstFreePage = freeListEnd ∧ free = [] ∨
      ∃ p rest, free = p :: rest ∧ s.header.firstFreePage ≠ freeListEnd ∧
        asU32 s.header.firstFreePage = p := by
  cases hf : free with
  | nil => exact Or.inl ⟨(hf ▸ h.chain).eq_nil, rfl⟩
  | cons p rest =>
      have he := (hf ▸ h.chain).head_eq
      have hlt := (h.page p (hf ▸ List.mem_cons_self)).1
      refine Or.inr ⟨p, rest, rfl, ?_, ?_⟩
      · rw [he]
        exact asI32_ne_end hlt hs.count
      · rw [he, asU32_asI32 (hs.lt_pageId hlt)]

theorem of_allocated (h : Stacked s free) (hs : Sane s) {b : PageBuf} (he : Edited s p b t)
    (ha : Allocated s p t) (hd : t.headerDirty = true) : Stacked t free.tail := by
  have hdirty : t.headerDirty = false → s.headerDirty = false ∧ t.header = s.header := fun hf => by
    cases hd.symm.trans hf
  have hn := (ha.header_bounds hs).2.2
  cases ha with
  | recycled hne hp hlt hh =>
      rcases h.firstFree_eq hs with ⟨hend, -⟩ | ⟨q, rest, rfl, -, hq⟩
      · exact absurd hend hne
      · obtain rfl : p = q := hp.trans hq
        have hnot := (List.nodup_cons.mp h.nodup).1
        refine h.of_edited he hn hdirty (fun r hr _ => List.mem_cons_of_mem _ hr)
          (fun hm => absurd hm hnot) ?_ h.nodup.tail
        rw [hh, h.image_link List.mem_cons_self]
        exact h.chain.pop h.nodup _
  | grown hend hp _ hh _ =>
      rcases h.firstFree_eq hs with ⟨-, rfl⟩ | ⟨q, rest, -, hne, -⟩
      · refine h.of_edited he hn hdirty (fun r hr _ => hr) (fun hm => by cases hm) ?_ List.nodup_nil
        rw [hh, hend]
        exact .nil
      · exact absurd hend hne

/-- A page that is handed out was free, or the file grows by it. -/
theorem handedOut (h : Stacked s free) (hs : Sane s) (ha : Allocated s p t) :
    p ∈ free ∨ p = s.header.numPages := by
  cases ha with
  | recycled hne hp _ _ =>
      rcases h.firstFree_eq hs with ⟨hend, -⟩ | ⟨q, rest, rfl, -, hq⟩
      · exact absurd hend hne
      · rw [hp, hq]
        exact Or.inl List.mem_cons_self
  | grown _ hp _ _ _ => exact Or.inr hp

theorem of_flushing (h : Stacked s free) (hf : Flushing s t) : Stacked t free where
  chain := by
    rw [hf.header]
    exact h.chain.congr fun p _ => by rw [hf.kept]
  nodup := h.nodup
  page p hp := by
    obtain ⟨hlt, hw, hne⟩ := h.page p hp
    exact ⟨hf.header ▸ hlt, hf.within hw, hne⟩
  buffer p hp hl := by
    rw [hf.loadedPageId] at hl
    rw [hf.loadedPage, hf.kept, h.buffer p hp hl]
  stored hd := by
    rcases hf.fileHeader with ⟨he, hd'⟩ | he
    · rw [he, hf.header]
      exact h.stored (hd' ▸ hd)
    · rw [he, hf.header]

end Stacked

/-! ## The pages in use -/

structure Remembers (s : PageFile I) (v : Nat → Option PageData) (free : List Nat) : Prop where
  sane : Sane s
  extent : (content s.io).length ≤ fileHeaderSize + s.header.numPages * pageSize
  listed : s.headerDirty = false →
    (content s.io).length ≤ fileHeaderSize +
      (FileHeader.read (headerAt (content s.io))).numPages * pageSize
  page : ∀ p d, v p = some d →
    p < s.header.numPages ∧ s.Within p ∧ (s.kept p).data = d ∧ (s.kept p).nextFree = pageUsed
  buffer : ∀ p d, v p = some d → s.loadedPageId = some p → s.loadedPage.nextFree = pageUsed →
    s.loadedPage.data = d
  stacked : Stacked s free

/-- What is stored of the pages in `v` is what it was, or what `v` says. -/
def Spares (v : Nat → Option PageData) (s t : PageFile I) : Prop :=
  ∀ p d, v p = some d →
    pageAt (content t.io) p = pageAt (content s.io) p ∨ (pageAt (content t.io) p).data = d

namespace Remembers

theorem image (h : Remembers s v free) {d : PageData} (hp : v p = some d)
    (hu : (s.image p).nextFree = pageUsed) : (s.image p).data = d := by
  by_cases hl : s.loadedPageId = some p
  · rw [PageFile.image, if_pos hl] at hu ⊢
    exact h.buffer p d hp hl hu
  · rw [← s.kept_eq_image hl]
    exact (h.page p d hp).2.2.1

theorem spares (h : Remembers s v free)
    (hs : ∀ p < s.header.numPages, s.Within p →
      pageAt (content t.io) p = pageAt (content s.io) p ∨ pageAt (content t.io) p = s.kept p) :
    Spares v s t := fun p d hp => by
  obtain ⟨hlt, hw, hd, -⟩ := h.page p d hp
  rcases hs p hlt hw with he | he
  · exact Or.inl he
  · exact Or.inr (he ▸ hd)

/-- A page in use is not on the free list. -/
theorem eq_none (h : Remembers s v free) (hp : p ∈ free) : v p = none := by
  rw [Option.eq_none_iff_forall_ne_some]
  intro d hd
  exact h.stacked.link_ne_used hp (h.page p d hd).2.2.2

/-- No page in use is handed out. -/
theorem handedOut (h : Remembers s v free) (ha : Allocated s p t) : v p = none := by
  rcases h.stacked.handedOut h.sane ha with hp | rfl
  · exact h.eq_none hp
  · rw [Option.eq_none_iff_forall_ne_some]
    intro d hd
    exact Nat.lt_irrefl _ (h.page _ d hd).1

theorem of_same (h : Remembers s v free) (hs : Same s t) (ht : Sane t) (hl : Stacked t free)
    (hb : ∀ p d, v p = some d → t.loadedPageId = some p → t.loadedPage.nextFree = pageUsed →
      t.loadedPage.data = d) : Remembers t v free where
  sane := ht
  extent := by
    rw [hs.length, hs.header]
    exact h.extent
  listed hd := by
    rw [hs.length, hs.fileHeader]
    exact h.listed (hs.headerDirty ▸ hd)
  page p d hp := by
    rw [hs.header, hs.kept]
    obtain ⟨hlt, hw, hk⟩ := h.page p d hp
    exact ⟨hlt, hs.within hw, hk⟩
  buffer := hb
  stacked := hl

theorem of_io (h : Remembers s v free) {io : I} (hio : content io = content s.io) :
    Remembers { s with io } v free := by
  have hs := Same.of_io hio
  refine h.of_same hs (h.sane.of_same hs fun p hp => ?_)
    (h.stacked.of_same hs h.stacked.buffer) h.buffer
  obtain ⟨hlt, hw⟩ := h.sane.loaded p hp
  exact ⟨hlt, hs.within hw⟩

theorem of_wroteBack (h : Remembers s v free) (hw : WroteBack s t) : Remembers t v free := by
  refine h.of_same hw.same (hw.sane h.sane) (h.stacked.of_same hw.same fun p hp hl => ?_)
    fun p d hp hl hu => ?_
  · rw [hw.loadedPageId] at hl
    rw [hw.loadedPage, h.stacked.buffer p hp hl]
  · rw [hw.loadedPageId] at hl
    rw [hw.loadedPage] at hu ⊢
    exact h.buffer p d hp hl hu

/-- The page count may have been raised for a page that the file does not have. -/
theorem raise (h : Remembers s v free) (hn : s.header.numPages + 1 < 2 ^ 32) :
    Remembers { s with header := { s.header with numPages := s.header.numPages + 1 } } v free where
  sane := ⟨hn, h.sane.link, h.sane.header, fun p hp => by
    obtain ⟨hlt, hw⟩ := h.sane.loaded p hp
    exact ⟨Nat.lt_succ_of_lt hlt, hw⟩⟩
  extent := Nat.le_trans h.extent (Nat.add_le_add_left (Nat.mul_le_mul_right _ (Nat.le_succ _)) _)
  listed := h.listed
  page p d hp := by
    obtain ⟨hlt, hk⟩ := h.page p d hp
    exact ⟨Nat.lt_succ_of_lt hlt, hk⟩
  buffer := h.buffer
  stacked := ⟨h.stacked.chain, h.stacked.nodup, fun p hp => by
    obtain ⟨hlt, hk⟩ := h.stacked.page p hp
    exact ⟨Nat.lt_succ_of_lt hlt, hk⟩, h.stacked.buffer, h.stacked.stored⟩

theorem of_resident (h : Remembers s v free) (hr : Resident s p t) : Remembers t v free := by
  refine h.of_same hr.same (hr.sane h.sane) (h.stacked.of_resident hr) fun q d hq hl hu => ?_
  rw [hr.loadedPageId, Option.some.injEq] at hl
  rw [hr.loadedPage] at hu ⊢
  exact h.image (hl ▸ hq) hu

theorem of_failure (h : Remembers s v free) {e : PageStoreError} (hf : LoadFailure s p e t)
    (hok : ∀ u b r, FailedRead s p u b → s.loadedPageId = some r → ShowsAs (s.kept r) b) :
    Remembers t v free := by
  refine h.of_same hf.same (hf.sane h.sane) (h.stacked.of_failure hf hok) fun q d hq hl hu => ?_
  rw [hf.loadedPageId] at hl
  rcases hf.buffer with hb | ⟨u, hr⟩
  · rw [hb] at hu ⊢
    exact h.buffer q d hq hl hu
  · obtain ⟨-, -, hd, hk⟩ := h.page q d hq
    rw [(hok u _ q hr hl).1 hk hu, hd]

theorem of_pageFailure (h : Remembers s v free) {e : PageStoreError} (hf : PageFailure s p e t)
    (hok : ∀ u b r, FailedRead s p u b → s.loadedPageId = some r → ShowsAs (s.kept r) b) :
    Remembers t v free ∧ Spares v s t := by
  rcases hf with hf | ⟨hr, -⟩
  · exact ⟨h.of_failure hf hok, h.spares fun p _ _ => hf.same.stored p⟩
  · exact ⟨h.of_resident hr, h.spares fun p _ _ => hr.same.stored p⟩

/-- The page that was changed holds what `v'` says of it. -/
theorem of_edited (h : Remembers s v free) {b : PageBuf} (he : Edited s p b t) (ht : Sane t)
    (hl : Stacked t free') (hn : s.header.numPages ≤ t.header.numPages)
    (hd : t.headerDirty = false → s.headerDirty = false)
    (hp : ∀ d, v' p = some d → b.data = d ∧ b.nextFree = pageUsed)
    (ho : ∀ q d, q ≠ p → v' q = some d → v q = some d) : Remembers t v' free' where
  sane := ht
  extent := by
    rcases he.extent with hl | ⟨-, hl⟩
    · rw [hl]
      exact Nat.le_trans h.extent (Nat.add_le_add_left (Nat.mul_le_mul_right _ hn) _)
    · exact Nat.le_of_eq hl
  listed hdirty := by
    rcases he.extent with hl | ⟨hc, -⟩
    · rw [hl, he.fileHeader]
      exact h.listed (hd hdirty)
    · rw [hdirty] at hc
      cases hc
  page q d hq := by
    rcases eq_or_ne q p with rfl | hne
    · rw [he.kept_self]
      exact ⟨he.lt, he.within, hp d hq⟩
    · obtain ⟨hlt, hw, hk⟩ := h.page q d (ho q d hne hq)
      obtain ⟨hw', hk', -⟩ := he.others q hlt hw
      rw [hk' hne]
      exact ⟨Nat.lt_of_lt_of_le hlt hn, hw', hk⟩
  buffer q d hq hl _ := by
    rw [he.loadedPageId, Option.some.injEq] at hl
    rw [he.loadedPage]
    exact (hp d (hl ▸ hq)).1
  stacked := hl

theorem of_flushing (h : Remembers s v free) (hf : Flushing s t) : Remembers t v free where
  sane := hf.sane h.sane
  extent := by
    rw [hf.length, hf.header]
    exact h.extent
  listed hd := by
    rw [hf.length]
    rcases hf.fileHeader with ⟨he, hd'⟩ | he
    · rw [he]
      exact h.listed (hd' ▸ hd)
    · rw [he]
      exact h.extent
  page p d hp := by
    rw [hf.header, hf.kept]
    obtain ⟨hlt, hw, hk⟩ := h.page p d hp
    exact ⟨hlt, hf.within hw, hk⟩
  buffer p d hp hl hu := by
    rw [hf.loadedPageId] at hl
    rw [hf.loadedPage] at hu ⊢
    exact h.buffer p d hp hl hu
  stacked := h.stacked.of_flushing hf

/-- A file that was closed properly is opened with its pages. -/
theorem reopen (h : Remembers s v free) (hf : Flushing s t)
    (hpages : ∀ p, pageAt (content t.io) p = s.kept p)
    (hhead : FileHeader.read (headerAt (content t.io)) = s.header ∨
      s.headerDirty = false ∧ headerAt (content t.io) = headerAt (content s.io))
    (ho : Opened (content t.io) u) : Remembers u v free := by
  have hfree : u.header.firstFreePage = s.header.firstFreePage := by
    rw [ho.header]
    rcases hhead with he | ⟨hd, he⟩
    · rw [he]
    · rw [he]
      exact h.stacked.stored hd
  have hlisted : (content s.io).length ≤
      fileHeaderSize + (FileHeader.read (headerAt (content t.io))).numPages * pageSize := by
    rcases hhead with he | ⟨hd, he⟩
    · rw [he]
      exact h.extent
    · rw [he]
      exact h.listed hd
  have hinside : ∀ p, s.Within p → p < u.header.numPages ∧ u.Within p := by
    intro p hw
    rw [ho.header, Within, ho.content, hf.length]
    refine ⟨?_, hw⟩
    simp only [Within, fileHeaderSize, pageSize] at hw hlisted
    omega
  have hnone : ∀ p, u.loadedPageId ≠ some p := by
    intro p hl
    rw [ho.loadedPageId] at hl
    cases hl
  have hkept : ∀ p, u.kept p = s.kept p := fun p => (ho.kept p).trans (hpages p)
  refine ⟨ho.sane, ?_, fun _ => ?_, fun p d hp => ?_, fun p d _ hl => absurd hl (hnone p), ?_⟩
  · rw [ho.content, ho.header, hf.length]
    exact hlisted
  · rw [ho.content, hf.length]
    exact hlisted
  · obtain ⟨-, hw, hk⟩ := h.page p d hp
    obtain ⟨hlt, hw'⟩ := hinside p hw
    rw [hkept]
    exact ⟨hlt, hw', hk⟩
  · refine ⟨?_, h.stacked.nodup, fun p hp => ?_, fun p _ hl => absurd hl (hnone p), fun _ => ?_⟩
    · rw [hfree]
      exact h.stacked.chain.congr fun p _ => by rw [hkept]
    · obtain ⟨-, hw, hne⟩ := h.stacked.page p hp
      obtain ⟨hlt, hw'⟩ := hinside p hw
      exact ⟨hlt, hw', hne⟩
    · rw [ho.content, ho.header]

end Remembers

/-! ## Runs -/

variable {h : List (Op × Reply)}

theorem AllocateFailure.remembers (hm : Remembers s v free) {e : PageStoreError}
    (hf : AllocateFailure s e t) {change : PageData → PageData}
    (hok : Leaves ShowsAs s (.allocate change)) :
    Remembers t v free ∧ Spares v s t := by
  cases hf with
  | load hne hf =>
      refine ⟨hm.of_failure hf (hok _ ?_), hm.spares fun p _ _ => hf.same.stored p⟩
      rw [loads, if_pos hne]
      rfl
  | write hio => exact ⟨hm.of_io hio, hm.spares fun p _ _ => (Same.of_io hio).stored p⟩
  | full hw => exact ⟨hm.of_wroteBack hw, hm.spares fun p _ _ => hw.same.stored p⟩
  | @grow _ u _ _ hn hw _ hio =>
      have hu := hm.of_wroteBack hw
      have hr := hu.raise (hw.same.header ▸ hn)
      rw [hw.same.header] at hr
      exact ⟨hr.of_io hio, hm.spares fun p _ _ => (hw.same.trans (Same.of_io hio)).stored p⟩

/-- A guard's page after the guard's change. -/
theorem Remembers.of_guard (hm : Remembers s v free) {b : PageBuf} {d : PageData}
    (he : Edited s p b t) (ht : Sane t) (hl : Stacked (t.setPageData d) free')
    (hn : s.header.numPages ≤ t.header.numPages)
    (hd : t.headerDirty = false → s.headerDirty = false) (hu : b.nextFree = pageUsed)
    (hv : ∀ q, v' q = if q = p then some d else v q) :
    Remembers (t.setPageData d) v' free' ∧ Spares v s (t.setPageData d) := by
  have hE := he.setPageData d
  refine ⟨hm.of_edited hE ⟨ht.count, ht.link, ht.header, ht.loaded⟩ hl hn hd (fun d' hp => ?_)
    fun q d' hq hv' => ?_, hm.spares fun q hq hw => (hE.others q hq hw).2.2⟩
  · rw [hv, if_pos rfl, Option.some.injEq] at hp
    rw [← hp, PageBuf.data_writeData, PageBuf.nextFree_writeData]
    exact ⟨rfl, hu⟩
  · rwa [hv, if_neg hq] at hv'

theorem step_remembers (hm : Remembers s (lastData h) (disposed h)) (op : Op)
    (hclose : op = .reopen → ∃ t, flush s = .ok () t) (hok : Sparing s op) :
    Remembers (step s op).1 (lastData ((op, (step s op).2) :: h))
        (disposed ((op, (step s op).2) :: h)) ∧
      Spares (lastData h) s (step s op).1 := by
  cases op with
  | allocate change =>
      have hspec := allocatePage_faulty hm.sane
      simp only [wp] at hspec
      simp only [step]
      cases ha : allocatePage s with
      | ok g t =>
          simp only [ha] at hspec
          obtain ⟨b, hu, -, he, hall, hd, -⟩ := hspec
          obtain ⟨hcount, hlink, hn⟩ := hall.header_bounds hm.sane
          have hl := hm.stacked.of_allocated hm.sane (he.setPageData (change g.data))
            (hall.congr rfl rfl) hd
          refine hm.of_guard he (he.sane hcount hlink) hl hn (fun hd' => ?_) hu fun q => rfl
          rw [hd] at hd'
          cases hd'
      | error e t =>
          simp only [ha] at hspec
          exact hspec.remembers hm hok.1
  | read p =>
      have hspec := readPage_faulty (p := p) hm.sane
      simp only [wp] at hspec
      simp only [step]
      cases hr : readPage p s with
      | ok g t =>
          simp only [hr] at hspec
          exact ⟨hm.of_resident hspec.1, hm.spares fun q _ _ => hspec.1.same.stored q⟩
      | error e t =>
          simp only [hr] at hspec
          exact hm.of_pageFailure hspec (hok.1 p rfl)
  | write p change =>
      have hspec := writePage_faulty (p := p) hm.sane
      simp only [wp] at hspec
      simp only [step]
      cases hw : writePage p s with
      | ok g t =>
          simp only [hw] at hspec
          obtain ⟨he, hh, hd, hu, hg⟩ := hspec
          have hs := he.sane (hh ▸ hm.sane.count) (hh ▸ hm.sane.link)
          have hl := hm.stacked.of_write (he.setPageData (change g.data)) hh hd hu
          exact hm.of_guard he hs hl (hh ▸ Nat.le_refl _) (fun hf => hd ▸ hf) hu fun q => rfl
      | error e t =>
          simp only [hw] at hspec
          exact hm.of_pageFailure hspec (hok.1 p rfl)
  | dispose p =>
      have hspec := disposePage_faulty (p := p) hm.sane
      simp only [wp] at hspec
      simp only [step]
      cases hw : disposePage p s with
      | ok _ t =>
          simp only [hw] at hspec
          obtain ⟨b, he, hd, hh, hb, hlt, hu⟩ := hspec
          have hs := he.sane (hh ▸ hm.sane.count) (hh ▸ isI32_asI32 (hm.sane.lt_pageId hlt))
          have hl := hm.stacked.of_dispose he hd hh hb hu hok.2
          refine ⟨hm.of_edited he hs hl (hh ▸ Nat.le_refl _) (fun hf => ?_) (fun d hp => ?_)
            fun q d hq hv => ?_, hm.spares fun q hq hw => (he.others q hq hw).2.2⟩
          · cases hd.symm.trans hf
          · simp [unitReply, lastData] at hp
          · simpa [unitReply, lastData, hq] using hv
      | error e t =>
          simp only [hw] at hspec
          exact hm.of_pageFailure hspec (hok.1 p rfl)
  | flush =>
      have hspec := flush_faulty hm.sane
      simp only [wp] at hspec
      simp only [step]
      cases hw : flush s with
      | ok _ t =>
          simp only [hw] at hspec
          exact ⟨hm.of_flushing hspec.1, hm.spares fun q _ _ => hspec.1.stored q⟩
      | error e t =>
          simp only [hw] at hspec
          exact ⟨hm.of_flushing hspec.2, hm.spares fun q _ _ => hspec.2.stored q⟩
  | reopen =>
      obtain ⟨t, ht⟩ := hclose rfl
      obtain ⟨hf, hpages, hhead⟩ := wp_ok ht (flush_faulty hm.sane)
      have hdrop : s.drop = t.io := by rw [PageFile.drop, ht]; rfl
      have hopen := open_faulty t.io
      simp only [wp] at hopen
      simp only [step, hdrop]
      cases ho : PageFile.open t.io with
      | ok u _ =>
          simp only [ho] at hopen
          refine ⟨hm.reopen hf hpages hhead hopen, hm.spares fun q _ _ => Or.inr ?_⟩
          rw [hopen.content, hpages]
      | error e _ => exact ⟨hm, hm.spares fun q _ _ => Or.inl rfl⟩

theorem FaultyRun.remembers {io : I} (hr : FaultyRun Sparing io h s) :
    Remembers s (lastData h) (disposed h) := by
  induction hr with
  | create hc =>
      obtain ⟨hs, hh, hl, hread, hlen⟩ := create_faulty hc
      refine ⟨hs, ?_, fun _ => ?_, fun _ _ hp => (by cases hp), fun _ _ hp => (by cases hp), ?_⟩
      · exact hlen ▸ Nat.le_add_right _ _
      · exact hlen ▸ Nat.le_add_right _ _
      · refine ⟨?_, List.nodup_nil, fun p hp => (by cases hp),
          fun p hp => (by cases hp), fun _ => ?_⟩
        · rw [hh]
          exact .nil
        · rw [hread]
  | step op _ hclose hok ih => exact (step_remembers ih op hclose hok).1

end Redbase.Page
