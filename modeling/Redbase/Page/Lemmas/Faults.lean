import Redbase.Page.Faults
import Redbase.Page.Lemmas.Refinement

/-!
# What the calls of a page file leave behind when I/O may fail

`kept s p` is page `p` as the next write-back leaves it stored. Whether it returns or fails, a call
that loads or writes back keeps every page; a failed read leaves only the buffer changed.
-/

namespace Redbase.Page

open Prog Bytes PageFile ByteIo

variable {I : Type} [ByteIo I] {s t u : PageFile I} {p q : Nat}

/-- Page `p` lies inside the stored bytes. -/
def PageFile.Within (s : PageFile I) (p : Nat) : Prop :=
  fileHeaderSize + p * pageSize + pageSize ≤ (content s.io).length

theorem FaultyRun.mono {I : Type} [PageIo I] {ok ok' : PageFile I → Op → Prop} {io : I}
    {s : PageFile I} {h : List (Op × Reply)} (hr : FaultyRun ok io h s)
    (hm : ∀ s op, ok s op → ok' s op) :
    FaultyRun ok' io h s := by
  induction hr with
  | create hc => exact .create hc
  | step op _ hclose hok ih => exact ih.step op hclose (hm _ _ hok)

/-- What holds of a page file whatever calls have failed. -/
structure Sane (s : PageFile I) : Prop where
  count : s.header.numPages < 2 ^ 32
  link : IsI32 s.header.firstFreePage
  header : fileHeaderSize ≤ (content s.io).length
  loaded : ∀ p, s.loadedPageId = some p → p < s.header.numPages ∧ s.Within p

/-- `t` has the header and the pages of `s`; a stored page that changed was written back. -/
structure Same (s t : PageFile I) : Prop where
  header : t.header = s.header
  length : (content t.io).length = (content s.io).length
  fileHeader : headerAt (content t.io) = headerAt (content s.io)
  headerDirty : t.headerDirty = s.headerDirty
  kept : ∀ p, t.kept p = s.kept p
  stored : ∀ p, pageAt (content t.io) p = pageAt (content s.io) p ∨
    pageAt (content t.io) p = s.kept p

theorem Same.refl (s : PageFile I) : Same s s :=
  ⟨rfl, rfl, rfl, rfl, fun _ => rfl, fun _ => Or.inl rfl⟩

theorem Same.trans (h : Same s t) (h' : Same t u) : Same s u where
  header := h'.header.trans h.header
  length := h'.length.trans h.length
  fileHeader := h'.fileHeader.trans h.fileHeader
  headerDirty := h'.headerDirty.trans h.headerDirty
  kept p := (h'.kept p).trans (h.kept p)
  stored p := by
    rcases h'.stored p with he | he
    · rw [he]
      exact h.stored p
    · exact Or.inr (he.trans (h.kept p))

theorem Same.within (h : Same s t) (hp : s.Within p) : t.Within p := by
  rw [Within, h.length]
  exact hp

/-- Only the `PageIo` has changed, and its bytes have not. -/
theorem Same.of_io {io : I} (hio : content io = content s.io) : Same s { s with io } where
  header := rfl
  length := congrArg List.length hio
  fileHeader := congrArg headerAt hio
  headerDirty := rfl
  kept p := by simp only [PageFile.kept, hio]
  stored p := Or.inl (by simp only [hio])

theorem Sane.of_same (h : Sane s) (hs : Same s t)
    (hl : ∀ p, t.loadedPageId = some p → p < s.header.numPages ∧ t.Within p) : Sane t where
  count := hs.header ▸ h.count
  link := hs.header ▸ h.link
  header := hs.length ▸ h.header
  loaded := hs.header ▸ hl

theorem Sane.lt_pageId (h : Sane s) (hp : p < s.header.numPages) : p < 2 ^ 32 :=
  Nat.lt_trans hp h.count

/-! ## Writing back -/

/-- `t` is `s` after its resident page was written back, which may not have been needed. -/
structure WroteBack (s t : PageFile I) : Prop where
  eq : t = { s with io := t.io, loadedPageDirty := t.loadedPageDirty }
  clean : ∀ p, s.loadedPageId = some p → t.loadedPageDirty = false
  same : Same s t
  pages : ∀ p, pageAt (content t.io) p = s.kept p

theorem flushLoadedPage_faulty (h : Sane s) :
    wp flushLoadedPage (fun _ t => WroteBack s t)
      (fun e t => (∃ e', e = .io e') ∧ t = { s with io := t.io } ∧
        content t.io = content s.io) s := by
  unfold flushLoadedPage
  simp only [wp_bind, wp_get]
  cases hl : s.loadedPageId with
  | none =>
      refine ⟨rfl, fun p hp => ?_, Same.refl s, fun p => ?_⟩
      · rw [hl] at hp
        cases hp
      · simp [PageFile.kept, hl]
  | some p =>
      obtain ⟨hp, hw⟩ := h.loaded p hl
      simp only [wp_bind, wp_get, wp_ite, wp_pure]
      split
      next hd => exact ⟨rfl, fun _ _ => hd, Same.refl s, fun q => by simp [PageFile.kept, hd]⟩
      next hd =>
        rw [Bool.not_eq_false] at hd
        rw [pageOffset_eq (h.lt_pageId hp)]
        simp only [wp_lift_ok, liftIo, wp_mapError, wp_zoom, wp_modify]
        refine wp_mono (write_spec s.io s.loadedPage _) (fun _ io hio => ?_) fun e io hio => ?_
        · have hpages : ∀ q, pageAt (content io) q = s.kept q := fun q => by
            rw [hio, pageAt_writeAt hw, PageFile.kept, hl]
            simp only [Option.some.injEq, hd, and_true, eq_comm]
          refine ⟨rfl, fun _ _ => rfl,
            ⟨rfl, ?_, ?_, rfl, fun q => ?_, fun q => Or.inr (hpages q)⟩, hpages⟩
          · rw [hio, length_writeAt hw]
          · rw [hio, headerAt_writeAt hw]
          · rw [PageFile.kept, if_neg (by simp)]
            exact hpages q
        · exact ⟨⟨e, rfl⟩, by rw [hl], hio⟩

theorem WroteBack.sane (hw : WroteBack s t) (h : Sane s) : Sane t :=
  h.of_same hw.same fun p hp => by
    rw [hw.eq] at hp
    exact ⟨(h.loaded p hp).1, hw.same.within (h.loaded p hp).2⟩

theorem WroteBack.loadedPageId (hw : WroteBack s t) : t.loadedPageId = s.loadedPageId := by
  rw [hw.eq]

theorem WroteBack.loadedPage (hw : WroteBack s t) : t.loadedPage = s.loadedPage := by rw [hw.eq]

/-! ## Loading -/

/-- A page that is not resident is shown as it is stored. -/
theorem PageFile.kept_eq_image (s : PageFile I) (hl : s.loadedPageId ≠ some p) :
    s.kept p = s.image p := by
  rw [kept, image, if_neg hl, if_neg fun h => hl h.1]

/-- Page `p` is resident; the other fields are those of `s`. -/
structure Resident (s : PageFile I) (p : Nat) (t : PageFile I) : Prop where
  same : Same s t
  lt : p < s.header.numPages
  within : t.Within p
  loadedPageId : t.loadedPageId = some p
  loadedPage : t.loadedPage = s.image p

/-- `load_page(p)` fails: the id is out of range, or the write-back fails, or the read does. -/
inductive LoadFailure (s : PageFile I) (p : Nat) : PageStoreError → PageFile I → Prop
  | outOfRange : s.header.numPages ≤ p → LoadFailure s p (.invalidPageId p) s
  | write {e : IoError} {io : I} : content io = content s.io → LoadFailure s p (.io e) { s with io }
  | read {e : IoError} {u : PageFile I} {io : I} {b : PageBuf} : WroteBack s u →
      content io = content u.io →
      FailedRead s p u b → LoadFailure s p (.io e) { u with io, loadedPage := b }

theorem loadPage_faulty (h : Sane s) :
    wp (loadPage p) (fun _ t => Resident s p t) (fun e t => LoadFailure s p e t) s := by
  unfold loadPage ensurePageIdInRange
  simp only [wp_bind, wp_get, wp_ite, wp_throw, wp_pure]
  split
  next hp => exact .outOfRange hp
  next hp =>
    split
    next hl =>
      exact ⟨Same.refl s, Nat.not_le.mp hp, (h.loaded p hl).2, hl, by rw [image, if_pos hl]⟩
    next hl =>
      have hlt := Nat.not_le.mp hp
      have hoff := pageOffset_eq (h.lt_pageId hlt)
      refine wp_mono (wp_run (flushLoadedPage_faulty h)) ?_ ?_
      · rintro _ u ⟨hf, hw⟩
        rw [hoff]
        simp only [readLoadedPage, wp_mapError, wp_zoom, wp_modify, wp_lift_ok]
        refine wp_mono (wp_run (read_spec u.io u.loadedPage _)) ?_ ?_
        · rintro _ ⟨io, b⟩ ⟨-, hio, hb⟩
          have hin : Within u p := by
            have hlen := congrArg List.length hb
            simp only [Block.length_eq, length_slice, pageSize, fileHeaderSize] at hlen
            simp only [Within, pageSize, fileHeaderSize]
            omega
          have hb' : b = s.image p := by
            ext1
            rw [← s.kept_eq_image hl, ← hw.pages p, pageAt_bytes hin]
            exact hb
          have hsame :
              Same u { u with
                io, loadedPageId := some p, loadedPage := b, loadedPageDirty := false } :=
            ⟨rfl, congrArg List.length hio, congrArg headerAt hio, rfl, fun q => ?_,
              fun q => Or.inl (congrArg (pageAt · q) hio)⟩
          · exact ⟨hw.same.trans hsame, hlt, hsame.within hin, rfl, hb'⟩
          · rw [PageFile.kept, if_neg (by simp), hw.same.kept, ← hw.pages]
            exact congrArg (pageAt · q) hio
        · rintro e ⟨io, b⟩ ⟨hr, hio⟩
          exact .read hw hio ⟨hlt, hl, hf, _, e, io, hoff, hr⟩
      · rintro _ u ⟨-, ⟨e, rfl⟩, hu, hio⟩
        rw [hu]
        exact .write hio

theorem LoadFailure.same {e : PageStoreError} (hf : LoadFailure s p e t) : Same s t := by
  cases hf with
  | outOfRange _ => exact Same.refl s
  | write hio => exact Same.of_io hio
  | @read _ u io b hw hio _ =>
      have hu : ∀ q, ¬ (u.loadedPageId = some q ∧ u.loadedPageDirty = true) := fun q hq => by
        rw [hw.clean q (hw.loadedPageId ▸ hq.1)] at hq
        cases hq.2
      refine hw.same.trans ⟨rfl, congrArg List.length hio, congrArg headerAt hio, rfl, fun q => ?_,
        fun q => Or.inl (congrArg (pageAt · q) hio)⟩
      rw [kept, if_neg (hu q), kept, if_neg (hu q)]
      exact congrArg (pageAt · q) hio

theorem LoadFailure.loadedPageId {e : PageStoreError} (hf : LoadFailure s p e t) :
    t.loadedPageId = s.loadedPageId := by
  cases hf with
  | outOfRange _ => rfl
  | write _ => rfl
  | read hw _ _ => exact hw.loadedPageId

/-- After a failure the buffer is as before or holds what the failed read has left. -/
theorem LoadFailure.buffer {e : PageStoreError} (hf : LoadFailure s p e t) :
    t.loadedPage = s.loadedPage ∨ ∃ u, FailedRead s p u t.loadedPage := by
  cases hf with
  | outOfRange _ => exact Or.inl rfl
  | write _ => exact Or.inl rfl
  | @read _ u _ _ _ _ hr => exact Or.inr ⟨u, hr⟩

theorem LoadFailure.sane {e : PageStoreError} (hf : LoadFailure s p e t) (h : Sane s) : Sane t :=
  h.of_same hf.same fun q hq => by
    obtain ⟨hlt, hw⟩ := h.loaded q (hf.loadedPageId ▸ hq)
    exact ⟨hlt, hf.same.within hw⟩

theorem Resident.sane (hr : Resident s p t) (h : Sane s) : Sane t :=
  h.of_same hr.same fun q hq => by
    rw [hr.loadedPageId, Option.some.injEq] at hq
    exact hq ▸ ⟨hr.lt, hr.within⟩

theorem Leaves.of_loads {R : PageBuf → PageBuf → Prop} {op : Op} (h : loads s op = none) :
    Leaves R s op := fun p hp => by
  rw [h] at hp
  cases hp

/-- The resident page is not read again. -/
theorem Leaves.of_resident {R : PageBuf → PageBuf → Prop} {op : Op}
    (h : loads s op = s.loadedPageId) :
    Leaves R s op := fun p hp u b r hf => by
  rw [h] at hp
  exact absurd hp hf.notLoaded

/-- A load whose write-back fails does not come to its read. -/
theorem Leaves.of_flush {R : PageBuf → PageBuf → Prop} {op : Op}
    (h : returned (flushLoadedPage s) = none) : Leaves R s op := fun p _ u b r hf => by
  rw [hf.wroteBack] at h
  cases h

/-! ## Changing a page -/

/-- In `t` page `p` is resident and dirty with the bytes `b`; every other page is that of `s`. -/
structure Edited (s : PageFile I) (p : Nat) (b : PageBuf) (t : PageFile I) : Prop where
  loadedPageId : t.loadedPageId = some p
  dirty : t.loadedPageDirty = true
  loadedPage : t.loadedPage = b
  lt : p < t.header.numPages
  fileHeader : headerAt (content t.io) = headerAt (content s.io)
  header : fileHeaderSize ≤ (content t.io).length
  within : t.Within p
  others : ∀ q < s.header.numPages, s.Within q → t.Within q ∧ (q ≠ p → t.kept q = s.kept q) ∧
    (pageAt (content t.io) q = pageAt (content s.io) q ∨ pageAt (content t.io) q = s.kept q)
  extent : (content t.io).length = (content s.io).length ∨ t.headerDirty = true ∧
    (content t.io).length = fileHeaderSize + t.header.numPages * pageSize

theorem Edited.kept_self {b : PageBuf} (he : Edited s p b t) : t.kept p = b := by
  rw [kept, if_pos ⟨he.loadedPageId, he.dirty⟩, he.loadedPage]

theorem Resident.edit (hr : Resident s p t) (h : Sane s) {header : FileHeader} {headerDirty : Bool}
    (b : PageBuf) (hn : header.numPages = s.header.numPages) :
    Edited s p b { t with header, headerDirty, loadedPage := b, loadedPageDirty := true } where
  loadedPageId := hr.loadedPageId
  dirty := rfl
  loadedPage := rfl
  lt := hn ▸ hr.lt
  fileHeader := hr.same.fileHeader
  header := hr.same.length ▸ h.header
  within := hr.within
  others q _ hw := by
    refine ⟨hr.same.within hw, fun hq => ?_, hr.same.stored q⟩
    have hne : ¬ (t.loadedPageId = some q ∧ t.loadedPageDirty = true) := fun hc => by
      rw [hr.loadedPageId, Option.some.injEq] at hc
      exact hq hc.1.symm
    rw [← hr.same.kept q, kept, kept, if_neg hne, if_neg]
    rw [hr.loadedPageId, Option.some.injEq]
    exact fun hc => hq hc.1.symm
  extent := Or.inl hr.same.length

/-- A change through the guard. -/
theorem Edited.setPageData {b : PageBuf} (he : Edited s p b t) (d : PageData) :
    Edited s p (b.write pageHeaderSize d.bytes) (t.setPageData d) where
  loadedPageId := he.loadedPageId
  dirty := he.dirty
  loadedPage := by rw [PageFile.setPageData, he.loadedPage]
  lt := he.lt
  fileHeader := he.fileHeader
  header := he.header
  within := he.within
  others q hq hw := by
    obtain ⟨hin, hk, hs⟩ := he.others q hq hw
    refine ⟨hin, fun hne => ?_, hs⟩
    have hc : ¬ (t.loadedPageId = some q ∧ t.loadedPageDirty = true) := fun hc => by
      rw [he.loadedPageId, Option.some.injEq] at hc
      exact hne hc.1.symm
    rw [← hk hne, kept, kept, if_neg hc]
    exact if_neg hc
  extent := he.extent

theorem Edited.sane {b : PageBuf} (he : Edited s p b t) (hc : t.header.numPages < 2 ^ 32)
    (hl : IsI32 t.header.firstFreePage) : Sane t :=
  ⟨hc, hl, he.header, fun q hq => by
    rw [he.loadedPageId, Option.some.injEq] at hq
    exact hq ▸ ⟨he.lt, he.within⟩⟩

/-! ## The operations -/

/-- An operation on page `p` fails: `p` cannot be loaded, or is not in use. -/
def PageFailure (s : PageFile I) (p : Nat) (e : PageStoreError) (t : PageFile I) : Prop :=
  LoadFailure s p e t ∨ Resident s p t ∧ (s.image p).nextFree ≠ pageUsed

theorem PageFailure.header {e : PageStoreError} (hf : PageFailure s p e t) :
    t.header = s.header := by
  rcases hf with hf | ⟨hr, -⟩
  · exact hf.same.header
  · exact hr.same.header

theorem Resident.currentPageHeader (hr : Resident s p t) :
    t.currentPageHeader.nextFree = (s.image p).nextFree := by
  rw [PageFile.currentPageHeader, hr.loadedPage, PageBuf.nextFree]

theorem Resident.pageData (hr : Resident s p t) : t.pageData = (s.image p).data := by
  rw [PageFile.pageData, hr.loadedPage, PageBuf.data]

theorem loadUsed_faulty (h : Sane s) :
    wp (loadPage p)
      (fun _ u => wp (ensureCurrentPageIsUsed p)
        (fun _ t => Resident s p t ∧ (s.image p).nextFree = pageUsed) (PageFailure s p) u)
      (PageFailure s p) s := by
  refine wp_mono (loadPage_faulty h) (fun _ t hr => ?_) fun _ _ hf => Or.inl hf
  unfold ensureCurrentPageIsUsed
  simp only [wp_bind, wp_get, wp_ite, wp_throw, wp_pure, hr.currentPageHeader]
  split
  next hne => exact Or.inr ⟨hr, hne⟩
  next he => exact ⟨hr, not_not.mp he⟩

theorem readPage_faulty (h : Sane s) :
    wp (readPage p) (fun g t => Resident s p t ∧ (s.image p).nextFree = pageUsed ∧
        g.data = (s.image p).data)
      (PageFailure s p) s := by
  unfold readPage
  simp only [wp_bind, wp_get, wp_pure]
  refine wp_mono (loadUsed_faulty h) (fun _ u hload => wp_mono hload ?_ fun _ _ => id) fun _ _ => id
  rintro _ t ⟨hr, hu⟩
  exact ⟨hr, hu, hr.pageData⟩

theorem writePage_faulty (h : Sane s) :
    wp (writePage p) (fun g t => Edited s p (s.image p) t ∧ t.header = s.header ∧
        t.headerDirty = s.headerDirty ∧ (s.image p).nextFree = pageUsed ∧ g = ⟨p, (s.image p).data⟩)
      (PageFailure s p) s := by
  unfold writePage
  simp only [wp_bind, wp_get, wp_modify, wp_pure]
  refine wp_mono (loadUsed_faulty h) (fun _ u hload => wp_mono hload ?_ fun _ _ => id) fun _ _ => id
  rintro _ t ⟨hr, hu⟩
  have he : Edited s p (s.image p) { t with loadedPage := s.image p, loadedPageDirty := true } :=
    hr.edit h (s.image p) (congrArg (·.numPages) hr.same.header)
  rw [← hr.loadedPage] at he ⊢
  exact ⟨he, hr.same.header, hr.same.headerDirty, hr.loadedPage ▸ hu, rfl⟩

theorem disposePage_faulty (h : Sane s) :
    wp (disposePage p) (fun _ t => ∃ b, Edited s p b t ∧ t.headerDirty = true ∧
        t.header = { s.header with firstFreePage := asI32 p } ∧
          b.nextFree = s.header.firstFreePage ∧
        p < s.header.numPages ∧ (s.image p).nextFree = pageUsed)
      (PageFailure s p) s := by
  unfold disposePage
  simp only [wp_bind]
  refine wp_mono (loadPage_faulty h) (fun _ t hr => ?_) fun _ _ hf => Or.inl hf
  simp only [wp_get, wp_ite, wp_bind, wp_throw, wp_modify, writeCurrentPageHeader,
    hr.currentPageHeader]
  split
  next hne => exact Or.inr ⟨hr, hne⟩
  next he =>
    refine ⟨_, hr.edit h _ (congrArg (·.numPages) hr.same.header), trivial, ?_, ?_, hr.lt,
      not_not.mp he⟩
    · simp only [PageFile.setPageData, hr.same.header]
    · simp only [PageFile.setPageData, hr.same.header]
      exact PageBuf.nextFree_writeHeader _ h.link

/-- `allocate_page` hands out page `p`: from the free list, or by growing the file. -/
inductive Allocated (s : PageFile I) (p : Nat) (t : PageFile I) : Prop
  | recycled : s.header.firstFreePage ≠ freeListEnd → p = asU32 s.header.firstFreePage →
      p < s.header.numPages → t.header = { s.header with firstFreePage := (s.image p).nextFree } →
      Allocated s p t
  | grown : s.header.firstFreePage = freeListEnd → p = s.header.numPages → p + 1 < 2 ^ 32 →
      t.header = { s.header with numPages := p + 1 } →
      (content t.io).length = fileHeaderSize + (p + 1) * pageSize → Allocated s p t

/-- `allocate_page` fails: the free page cannot be loaded, or the resident page not written back, or
the 32 bits of the page count are exhausted, or the file cannot grow. -/
inductive AllocateFailure (s : PageFile I) : PageStoreError → PageFile I → Prop
  | load {e : PageStoreError} {t : PageFile I} : s.header.firstFreePage ≠ freeListEnd →
      LoadFailure s (asU32 s.header.firstFreePage) e t → AllocateFailure s e t
  | write {e : IoError} {io : I} : content io = content s.io →
      AllocateFailure s (.io e) { s with io }
  | full {t : PageFile I} : WroteBack s t → AllocateFailure s (.corrupted "page count overflow") t
  | grow {e : IoError} {u : PageFile I} {io : I} : s.header.firstFreePage = freeListEnd →
      s.header.numPages + 1 < 2 ^ 32 → WroteBack s u → GrowthFails s → content io = content u.io →
      AllocateFailure s (.io e)
        { u with io, header := { s.header with numPages := s.header.numPages + 1 } }

/-- A failed allocation does not change the size of the file. -/
theorem AllocateFailure.length {e : PageStoreError} (hf : AllocateFailure s e t) :
    (content t.io).length = (content s.io).length := by
  cases hf with
  | load _ hl => exact hl.same.length
  | write hio => exact congrArg List.length hio
  | full hw => exact hw.same.length
  | grow _ _ hw _ hio => exact (congrArg List.length hio).trans hw.same.length

theorem Allocated.header_bounds (ha : Allocated s p t) (h : Sane s) :
    t.header.numPages < 2 ^ 32 ∧ IsI32 t.header.firstFreePage ∧
      s.header.numPages ≤ t.header.numPages := by
  cases ha with
  | recycled _ _ _ he =>
      rw [he]
      exact ⟨h.count, PageBuf.nextFree_isI32 _, Nat.le_refl _⟩
  | grown _ hp hlt he _ =>
      rw [he]
      exact ⟨hlt, h.link, hp ▸ Nat.le_succ _⟩

theorem Allocated.congr (ha : Allocated s p t) (hh : u.header = t.header) (hio : u.io = t.io) :
    Allocated s p u := by
  cases ha with
  | recycled h₁ h₂ h₃ h₄ => exact .recycled h₁ h₂ h₃ (hh.trans h₄)
  | grown h₁ h₂ h₃ h₄ h₅ => exact .grown h₁ h₂ h₃ (hh.trans h₄) (hio ▸ h₅)

/-- The file grows by a page after the write-back. -/
theorem WroteBack.grow (hw : WroteBack s u) (h : Sane s) {io : I} {b : PageBuf}
    {header : FileHeader}
    (hio : content io = resize (content u.io)
      (fileHeaderSize + (s.header.numPages + 1) * pageSize) 0) :
    Edited s s.header.numPages b
      { u with io, header := { header with numPages := s.header.numPages + 1 }, headerDirty := true,
               loadedPageId := some s.header.numPages, loadedPage := b,
               loadedPageDirty := true } where
  loadedPageId := rfl
  dirty := rfl
  loadedPage := rfl
  lt := Nat.lt_succ_self _
  fileHeader := by
    simp only [hio]
    rw [headerAt_resize (hw.same.length ▸ h.header) (Nat.le_add_right _ _), hw.same.fileHeader]
  header := by simp [hio]
  within := by
    simp only [PageFile.Within, hio, length_resize, fileHeaderSize, pageSize]
    omega
  others q hq hin := by
    have hle : fileHeaderSize + q * pageSize + pageSize ≤
        fileHeaderSize + (s.header.numPages + 1) * pageSize := by
      simp only [fileHeaderSize, pageSize]
      omega
    have hstored : pageAt (content io) q = s.kept q := by
      rw [hio, pageAt_resize (hw.same.within hin) hle, hw.pages]
    refine ⟨?_, fun hne => ?_, Or.inr hstored⟩
    · simp only [PageFile.Within, hio, length_resize]
      exact hle
    · rw [kept, if_neg]
      · exact hstored
      · exact fun hc => hne (Option.some.inj hc.1).symm
  extent := Or.inr ⟨rfl, by simp only [hio, length_resize]⟩

theorem allocateFree_faulty (h : Sane s) (hne : s.header.firstFreePage ≠ freeListEnd) :
    wp allocateFree (fun p t => ∃ b, b.nextFree = pageUsed ∧ b.data = Block.zero _ ∧
        Edited s p b { t with headerDirty := true, loadedPageDirty := true } ∧ Allocated s p t)
      (AllocateFailure s) s := by
  unfold allocateFree
  simp only [wp_bind, wp_get]
  refine wp_mono (loadPage_faulty h) (fun _ t hr => ?_) fun _ _ hf => .load hne hf
  simp only [wp_modify, writeCurrentPageHeader, wp_pure, PageFile.setPageData, hr.currentPageHeader,
    hr.same.header]
  refine ⟨_, (fresh_page t.loadedPage).1, (fresh_page t.loadedPage).2, hr.edit h _ rfl, ?_⟩
  exact .recycled hne rfl hr.lt rfl

theorem allocateNew_faulty (h : Sane s) (he : s.header.firstFreePage = freeListEnd) :
    wp allocateNew (fun p t => ∃ b, b.nextFree = pageUsed ∧ b.data = Block.zero _ ∧
        Edited s p b { t with headerDirty := true, loadedPageDirty := true } ∧ Allocated s p t)
      (AllocateFailure s) s := by
  unfold allocateNew
  simp only [wp_bind, wp_get]
  refine wp_mono (wp_run (flushLoadedPage_faulty h)) ?_ ?_
  · rintro _ u ⟨hf, hw⟩
    rw [hw.same.header]
    cases hc : checked 32 (s.header.numPages + 1) with
    | none => exact .full hw
    | some n =>
        have hn := checked_eq_some hc
        have hlt := checked_lt hc
        subst hn
        simp only [wp_bind, wp_modify, liftIo, wp_mapError, wp_zoom,
          writeCurrentPageHeader, wp_pure, hw.same.header]
        refine wp_mono (wp_run (setLen_spec u.io _)) ?_ ?_
        · rintro _ io ⟨-, hio⟩
          refine ⟨(Block.zero _).write 0 PageHeader.used.encode,
            PageBuf.nextFree_writeHeader _ (by unfold IsI32 PageHeader.used; decide),
            by rw [PageBuf.data_writeHeader, PageBuf.data_zero], ?_,
            .grown he rfl hlt rfl (by rw [hio, length_resize])⟩
          exact hw.grow h hio
        · rintro e io ⟨hr, hio⟩
          exact .grow he hlt hw ⟨u, _, e, io, hf, hw.same.header ▸ hc, hr⟩ hio
  · rintro _ u ⟨-, ⟨e, rfl⟩, hu, hio⟩
    rw [hu]
    exact .write hio

/-- A growth that goes through does not fail. -/
theorem not_growthFails (h : (returned (allocateNew s)).isSome) : ¬ GrowthFails s := by
  rintro ⟨u, n, e, io, hf, hc, hr⟩
  have hw : wp allocateNew (fun _ _ => False) (fun _ _ => True) s := by
    unfold allocateNew
    simp only [wp_bind, wp_get]
    refine wp_of_ok hf ?_
    rw [hc]
    simp only [wp_bind, wp_modify, liftIo, wp_mapError, wp_zoom]
    exact wp_of_error hr trivial
  obtain ⟨e, t, he, -⟩ := exists_error_of_wp hw
  rw [he] at h
  cases h

theorem allocatePage_faulty (h : Sane s) :
    wp allocatePage (fun g t => ∃ b, b.nextFree = pageUsed ∧ b.data = Block.zero _ ∧
        Edited s g.pageId b t ∧
        Allocated s g.pageId t ∧ t.headerDirty = true ∧ g.data = Block.zero _)
      (AllocateFailure s) s := by
  unfold allocatePage
  simp only [wp_bind, wp_get, wp_ite, wp_modify, wp_pure]
  have hdone : ∀ p (t : PageFile I), (∃ b, b.nextFree = pageUsed ∧ b.data = Block.zero _ ∧
      Edited s p b { t with headerDirty := true, loadedPageDirty := true } ∧ Allocated s p t) →
      ∃ b, PageBuf.nextFree b = pageUsed ∧ PageBuf.data b = Block.zero _ ∧
        Edited s p b { t with headerDirty := true, loadedPageDirty := true } ∧
        Allocated s p { t with headerDirty := true, loadedPageDirty := true } ∧ True ∧
        pageData { t with headerDirty := true, loadedPageDirty := true } = Block.zero _ := by
    rintro p t ⟨b, hb, hz, he, ha⟩
    refine ⟨b, hb, hz, he, ha.congr rfl rfl, trivial, ?_⟩
    rw [← hz, ← he.loadedPage]
    rfl
  split
  next hne => exact wp_mono (allocateFree_faulty h hne) hdone fun _ _ => id
  next he => exact wp_mono (allocateNew_faulty h (not_not.mp he)) hdone fun _ _ => id

/-! ## Flushing and reopening -/

/-- `t` is `s` after a flush that may have stopped on the way. -/
structure Flushing (s t : PageFile I) : Prop where
  eq : t = { s with io := t.io, loadedPageDirty := t.loadedPageDirty, headerDirty := t.headerDirty }
  length : (content t.io).length = (content s.io).length
  kept : ∀ p, t.kept p = s.kept p
  stored : ∀ p, pageAt (content t.io) p = pageAt (content s.io) p ∨
    pageAt (content t.io) p = s.kept p
  fileHeader : headerAt (content t.io) = headerAt (content s.io) ∧ t.headerDirty = s.headerDirty ∨
    FileHeader.read (headerAt (content t.io)) = s.header

theorem Flushing.header (hf : Flushing s t) : t.header = s.header := by rw [hf.eq]

theorem Flushing.loadedPageId (hf : Flushing s t) : t.loadedPageId = s.loadedPageId := by rw [hf.eq]

theorem Flushing.loadedPage (hf : Flushing s t) : t.loadedPage = s.loadedPage := by rw [hf.eq]

theorem Flushing.within (hf : Flushing s t) (hp : s.Within p) : t.Within p := by
  rw [Within, hf.length]
  exact hp

theorem Flushing.sane (hf : Flushing s t) (h : Sane s) : Sane t where
  count := hf.header ▸ h.count
  link := hf.header ▸ h.link
  header := hf.length ▸ h.header
  loaded p hp := by
    obtain ⟨hlt, hw⟩ := h.loaded p (hf.loadedPageId ▸ hp)
    exact ⟨hf.header ▸ hlt, hf.within hw⟩

theorem flushHeader_faulty (h : Sane s) :
    wp flushHeader
      (fun _ t => t = { s with io := t.io, headerDirty := false } ∧
        (content t.io).length = (content s.io).length ∧
        (∀ p, pageAt (content t.io) p = pageAt (content s.io) p) ∧
        (s.headerDirty = false ∧ headerAt (content t.io) = headerAt (content s.io) ∨
          FileHeader.read (headerAt (content t.io)) = s.header))
      (fun e t => (∃ e', e = .io e') ∧ t = { s with io := t.io } ∧
        content t.io = content s.io) s := by
  unfold flushHeader
  simp only [wp_bind, wp_get, wp_ite, wp_pure]
  split
  next hd =>
    refine ⟨?_, trivial, fun _ => trivial, Or.inl ⟨hd, trivial⟩⟩
    rw [← hd]
  next =>
    simp only [liftIo, wp_mapError, wp_zoom, wp_modify]
    refine wp_mono (write_spec s.io _ 0) (fun _ io hio => ?_)
      fun e io hio => ⟨⟨e, rfl⟩, trivial, hio⟩
    refine ⟨trivial, ?_, fun p => ?_, Or.inr ?_⟩
    · rw [hio, length_writeAt (by simpa using h.header)]
    · rw [hio, pageAt_writeAt_zero h.header]
    · rw [hio, headerAt_writeAt_zero h.header, FileHeader.read_encode h.link h.count]

theorem flush_faulty (h : Sane s) :
    wp flush
      (fun _ t => Flushing s t ∧ (∀ p, pageAt (content t.io) p = s.kept p) ∧
        (FileHeader.read (headerAt (content t.io)) = s.header ∨
          s.headerDirty = false ∧ headerAt (content t.io) = headerAt (content s.io)))
      (fun e t => (∃ e', e = .io e') ∧ Flushing s t) s := by
  unfold flush
  simp only [wp_bind]
  refine wp_mono (flushLoadedPage_faulty h) ?_ ?_
  · rintro _ u hw
    refine wp_mono (flushHeader_faulty (hw.sane h)) ?_ ?_
    · rintro _ v ⟨hv, hlen, hpages, hhead⟩
      have hfile : headerAt (content v.io) = headerAt (content s.io) ∧ s.headerDirty = false ∨
          FileHeader.read (headerAt (content v.io)) = s.header := by
        rcases hhead with ⟨hd, he⟩ | he
        · exact Or.inl ⟨he.trans hw.same.fileHeader, hw.same.headerDirty ▸ hd⟩
        · exact Or.inr (he.trans hw.same.header)
      have hf : ∀ io, content io = content v.io → Flushing s { v with io } ∧
          ∀ p, pageAt (content io) p = s.kept p := fun io hio => by
        have hp : ∀ p, pageAt (content io) p = s.kept p := fun p => by rw [hio, hpages, hw.pages]
        refine ⟨⟨?_, ?_, fun p => ?_, fun p => Or.inr (hp p), ?_⟩, hp⟩
        · rw [hv, hw.eq]
        · simp only [hio, hlen, hw.same.length]
        · rw [hv, kept]
          split
          next hc =>
            rw [← hw.same.kept p, kept, if_pos hc]
          next => exact hp p
        · simp only [hio]
          rcases hfile with ⟨he, hd⟩ | he
          · refine Or.inl ⟨he, ?_⟩
            rw [hv, hd]
          · exact Or.inr he
      simp only [liftIo, wp_mapError, wp_zoom]
      refine wp_mono (sync_spec v.io) (fun _ io hio => ?_) fun e io hio => ⟨⟨e, rfl⟩, (hf io hio).1⟩
      refine ⟨(hf io hio).1, (hf io hio).2, ?_⟩
      simp only [hio]
      exact hfile.symm.imp_right And.symm
    · rintro _ v ⟨he, hv, hio⟩
      refine ⟨he, ?_⟩
      rw [hv]
      have hs := hw.same.trans (Same.of_io hio)
      exact ⟨by rw [hw.eq], hs.length, hs.kept, hs.stored, Or.inl ⟨hs.fileHeader, hs.headerDirty⟩⟩
  · rintro _ u ⟨he, hu, hio⟩
    have hs := Same.of_io hio
    rw [hu]
    exact ⟨he, rfl, hs.length, hs.kept, hs.stored, Or.inl ⟨hs.fileHeader, hs.headerDirty⟩⟩

theorem readHeaderBuf_faulty (io : I) :
    wp readHeaderBuf (fun buf t => content t = content io ∧
        buf.bytes = slice (content io) 0 pageSize)
      (fun e t => (∃ e', e = .io e') ∧ content t = content io) io := by
  have hread := read_spec io (Block.zero _) 0
  unfold wp at hread
  unfold wp readHeaderBuf
  cases hr : PageIo.readExactAt 0 (io, Block.zero pageSize) with
  | ok _ t =>
      rw [hr] at hread
      exact hread
  | error e t =>
      rw [hr] at hread
      exact ⟨⟨e, rfl⟩, hread⟩

/-- The bytes that `PageFile::open` does not reject. -/
structure Openable (c : List UInt8) : Prop where
  header : (FileHeader.read (headerAt c)).Valid
  length : fileHeaderSize + (FileHeader.read (headerAt c)).numPages * pageSize ≤ c.length

theorem FileHeader.decode_eq (buf : PageBuf) :
    FileHeader.decode buf = .ok (FileHeader.read buf) ∧ (FileHeader.read buf).Valid ∨
      (∃ e, FileHeader.decode buf = .error e) ∧ ¬ (FileHeader.read buf).Valid := by
  simp only [FileHeader.decode]
  cases hv : (FileHeader.read buf).validate with
  | ok _ => exact Or.inl ⟨rfl, FileHeader.validate_eq_ok_iff.mp hv⟩
  | error e =>
      refine Or.inr ⟨⟨e, rfl⟩, fun h => ?_⟩
      rw [FileHeader.validate_eq_ok_iff.mpr h] at hv
      cases hv

/-- `t` has just been opened from bytes that are not rejected. -/
structure Opened (c : List UInt8) (t : PageFile I) : Prop where
  openable : Openable c
  header : t.header = FileHeader.read (headerAt c)
  content : content t.io = c
  loadedPageId : t.loadedPageId = none
  headerDirty : t.headerDirty = false

theorem Opened.sane {c : List UInt8} (ho : Opened c t) : Sane t where
  count := ho.header ▸ (FileHeader.read_bounds _).2
  link := ho.header ▸ (FileHeader.read_bounds _).1
  header := by
    rw [ho.content]
    exact Nat.le_trans (Nat.le_add_right _ _) ho.openable.length
  loaded p hp := by
    rw [ho.loadedPageId] at hp
    cases hp

theorem Opened.kept {c : List UInt8} (ho : Opened c t) (p : Nat) : t.kept p = pageAt c p := by
  rw [PageFile.kept, if_neg (by simp [ho.loadedPageId]), ho.content]

theorem open_faulty (io : I) :
    wp PageFile.open (fun t _ => Opened (content io) t)
      (fun e _ => (∃ e', e = .io e') ∨ ¬ Openable (content io)) io := by
  unfold PageFile.open
  simp only [wp_bind, wp_mapError, wp_ite, wp_throw]
  refine wp_mono (len_spec io) ?_ fun e _ _ => Or.inl ⟨e, rfl⟩
  rintro _ io₁ ⟨rfl, hio₁⟩
  split
  next hlt =>
    refine Or.inr fun ho => Nat.not_le.mpr hlt ?_
    exact Nat.le_trans (Nat.le_add_right _ _) ho.length
  next hle =>
    rw [Nat.not_lt] at hle
    refine wp_mono (readHeaderBuf_faulty io₁) ?_ fun _ _ h => Or.inl h.1
    rintro buf io₂ ⟨hio₂, hbuf⟩
    have he : buf = headerAt (content io) := by
      ext1
      rw [headerAt_bytes hle, hbuf, hio₁]
    rcases FileHeader.decode_eq buf with ⟨hd, hv⟩ | ⟨⟨e, hd⟩, hv⟩
    · simp only [hd, wp_lift_ok, wp_get, wp_pure]
      split
      next hlt => exact Or.inr fun ho => Nat.not_le.mpr hlt (he ▸ ho.length)
      next hge =>
        refine ⟨⟨he ▸ hv, he ▸ Nat.not_lt.mp hge⟩, by rw [he], hio₂.trans hio₁, rfl, rfl⟩
    · simp only [hd, wp_lift_error]
      exact Or.inr fun ho => hv (he ▸ ho.header)

/-- Without failures the bytes that are not rejected are opened. -/
theorem open_reliable {I : Type} [ReliableIo I] (io : I) (h : Openable (content io)) :
    wp PageFile.open (fun t _ => Opened (content io) t) never io := by
  have hle : fileHeaderSize ≤ (content io).length := Nat.le_trans (Nat.le_add_right _ _) h.length
  unfold PageFile.open
  simp only [wp_bind, wp_mapError, wp_ite, wp_throw]
  refine wp_mono (len_ok io) ?_ fun _ _ => False.elim
  rintro _ io₁ ⟨rfl, hio₁⟩
  rw [if_neg (Nat.not_lt.mpr hle)]
  obtain ⟨_, ⟨io₂, buf⟩, hread, hio₂, hbuf⟩ := exists_ok_of_wp (read_ok io₁ (Block.zero pageSize)
    (show 0 + pageSize ≤ (content io₁).length by simpa [hio₁] using hle))
  have he : buf = headerAt (content io) := by
    ext1
    rw [headerAt_bytes hle, hbuf, hio₁]
  refine wp_of_ok (a := buf) (t := io₂) (by rw [readHeaderBuf, hread]) ?_
  simp only [he, FileHeader.decode_encode h.header rfl, wp_lift_ok, wp_get, wp_pure]
  rw [if_neg (Nat.not_lt.mpr h.length)]
  exact ⟨h, rfl, hio₂.trans hio₁, rfl, rfl⟩

/-- A file that has just been created. -/
theorem create_faulty {io : I} (hc : create io = .ok () s) :
    Sane s ∧ s.header = FileHeader.new ∧ s.loadedPageId = none ∧
      FileHeader.read (headerAt (content s.io)) = s.header ∧
        (content s.io).length = fileHeaderSize := by
  have hw : wp (do liftIo (PageIo.setLen fileHeaderSize); flush)
      (fun _ (s : PageFile I) => Sane s ∧ s.header = FileHeader.new ∧ s.loadedPageId = none ∧
        FileHeader.read (headerAt (content s.io)) = s.header ∧
          (content s.io).length = fileHeaderSize)
      (fun _ _ => True)
      { io, header := FileHeader.new, headerDirty := true, loadedPageId := none,
        loadedPageDirty := false, loadedPage := Block.zero _ } := by
    simp only [wp_bind, liftIo, wp_mapError, wp_zoom]
    refine wp_mono (setLen_spec io _) (fun _ io' hio => ?_) fun _ _ _ => trivial
    have hsane : Sane
        { io := io', header := FileHeader.new, headerDirty := true, loadedPageId := none,
          loadedPageDirty := false, loadedPage := Block.zero _ } := by
      refine ⟨(by decide : 0 < 2 ^ 32), (by decide : IsI32 freeListEnd), ?_,
        fun p hp => by cases hp⟩
      rw [hio, length_resize]
    refine wp_mono (flush_faulty hsane) ?_ fun _ _ _ => trivial
    rintro _ t ⟨hf, -, hh⟩
    refine ⟨hf.sane hsane, hf.header, hf.loadedPageId, ?_, ?_⟩
    · rcases hh with he | ⟨hd, -⟩
      · exact he.trans hf.header.symm
      · cases hd
    · rw [hf.length, hio, length_resize]
  have hs := wp_ok hc hw
  exact hs

end Redbase.Page
