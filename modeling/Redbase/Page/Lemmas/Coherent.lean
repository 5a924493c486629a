import Redbase.Page.Lemmas.Layout

/-!
# The write-back cache of one page

A file in use differs from its stored bytes by the resident page and the header. `Coherent` relates
the two, `image` is what the file shows, and each operation is described by its effect on `image`.
-/

namespace Redbase.Page

open Prog Bytes PageFile ByteIo

variable {I : Type} [ByteIo I] {s t : PageFile I} {p q : Nat}

/-- Page `p` as the file shows it: the resident bytes if it is resident, else the stored ones. -/
def PageFile.image (s : PageFile I) (p : Nat) : PageBuf :=
  if s.loadedPageId = some p then s.loadedPage else pageAt (content s.io) p

/-- What is not dirty is stored. -/
structure Coherent (s : PageFile I) : Prop where
  length : fileHeaderSize + s.header.numPages * pageSize ≤ (content s.io).length
  loaded : ∀ p, s.loadedPageId = some p → p < s.header.numPages
  clean : s.loadedPageDirty = false → ∀ p, s.loadedPageId = some p →
    pageAt (content s.io) p = s.loadedPage
  stored : s.headerDirty = false → FileHeader.read (headerAt (content s.io)) = s.header
  count : s.header.numPages < 2 ^ 32

theorem Coherent.page_le (h : Coherent s) (hp : p < s.header.numPages) :
    fileHeaderSize + p * pageSize + pageSize ≤ (content s.io).length := by
  have := h.length
  simp only [fileHeaderSize, pageSize] at this ⊢
  omega

theorem Coherent.header_le (h : Coherent s) : fileHeaderSize ≤ (content s.io).length :=
  Nat.le_trans (Nat.le_add_right _ _) h.length

/-! ## Writing back -/

/-- `io` holds every page as `s` shows it. -/
structure Stored (s : PageFile I) (io : I) : Prop where
  length : (content io).length = (content s.io).length
  header : headerAt (content io) = headerAt (content s.io)
  pages : ∀ p < s.header.numPages, pageAt (content io) p = s.image p

theorem Coherent.writeBack (h : Coherent s) {io : I} (hs : Stored s io) (d : Bool) :
    Coherent { s with io, loadedPageDirty := d } where
  length := hs.length ▸ h.length
  loaded := h.loaded
  clean _ p hp := by rw [hs.pages p (h.loaded p hp), image, if_pos hp]
  stored hd := hs.header ▸ h.stored hd
  count := h.count

theorem Stored.image_eq {io : I} (hs : Stored s io) (d : Bool) (hp : p < s.header.numPages) :
    image { s with io, loadedPageDirty := d } p = s.image p := by
  rw [image]
  split
  next h => rw [image, if_pos h]
  next => exact hs.pages p hp

theorem flushLoadedPage_spec {I : Type} [ReliableIo I] {s : PageFile I} (h : Coherent s) :
    wp flushLoadedPage (fun _ t => ∃ io d, t = { s with io, loadedPageDirty := d } ∧ Stored s io ∧
      (s.loadedPageId ≠ none → d = false)) never s := by
  unfold flushLoadedPage
  simp only [wp_bind, wp_get]
  cases hl : s.loadedPageId with
  | none =>
      refine ⟨s.io, s.loadedPageDirty,
        by rw [← hl], ⟨rfl, rfl, fun p _ => ?_⟩, fun hc => absurd rfl hc⟩
      rw [image, if_neg (by simp [hl])]
  | some p =>
      have hp := h.loaded p hl
      have hple := h.page_le hp
      simp only [wp_bind, wp_get, wp_ite, wp_pure]
      split
      next hd =>
        refine ⟨s.io, s.loadedPageDirty, by rw [← hl], ⟨rfl, rfl, fun q _ => ?_⟩, fun _ => hd⟩
        rw [image]
        split
        next hq => exact h.clean hd q hq
        next => rfl
      next =>
        rw [pageOffset_eq (Nat.lt_trans hp h.count)]
        simp only [wp_lift_ok, liftIo, wp_mapError, wp_zoom, wp_modify]
        refine wp_mono (write_ok s.io s.loadedPage _) (fun _ io hio => ?_) fun _ _ => False.elim
        refine ⟨io, false, by rw [← hl], ⟨?_, ?_, fun q _ => ?_⟩, fun _ => rfl⟩
        · rw [hio, length_writeAt hple]
        · rw [hio, headerAt_writeAt hple]
        · rw [hio, pageAt_writeAt hple, image, hl]
          simp only [Option.some.injEq, eq_comm]

theorem flushHeader_spec {I : Type} [ReliableIo I] {s : PageFile I} (h : Coherent s)
    (hf : IsI32 s.header.firstFreePage) :
    wp flushHeader (fun _ t => ∃ io, t = { s with io, headerDirty := false } ∧
      (content io).length = (content s.io).length ∧
      FileHeader.read (headerAt (content io)) = s.header ∧
      ∀ p, pageAt (content io) p = pageAt (content s.io) p) never s := by
  unfold flushHeader
  simp only [wp_bind, wp_get, wp_ite, wp_pure]
  split
  next hd =>
    refine ⟨s.io, ?_, rfl, h.stored hd, fun _ => rfl⟩
    cases s
    simp only at hd
    rw [hd]
  next =>
    simp only [liftIo, wp_mapError, wp_zoom, wp_modify]
    refine wp_mono (write_ok s.io _ 0) (fun _ io hio => ?_) fun _ _ => False.elim
    refine ⟨io, rfl, ?_, ?_, fun p => ?_⟩
    · rw [hio, length_writeAt (by simpa using h.header_le)]
    · rw [hio, headerAt_writeAt_zero h.header_le, FileHeader.read_encode hf h.count]
    · rw [hio, pageAt_writeAt_zero h.header_le]

/-- After a flush the stored bytes are the file: the header, and every page as it is shown. -/
structure Flushed (s t : PageFile I) : Prop where
  coherent : Coherent t
  header : t.header = s.header
  headerDirty : t.headerDirty = false
  image : ∀ p < s.header.numPages, t.image p = s.image p
  pages : ∀ p < s.header.numPages, pageAt (content t.io) p = s.image p

theorem Flushed.self (h : Flushed s t) : Flushed t t where
  coherent := h.coherent
  header := rfl
  headerDirty := h.headerDirty
  image _ _ := rfl
  pages p hp := by
    rw [h.header] at hp
    rw [h.pages p hp, h.image p hp]

theorem flush_spec {I : Type} [ReliableIo I] {s : PageFile I} (h : Coherent s)
    (hf : IsI32 s.header.firstFreePage) :
    wp flush (fun _ t => Flushed s t) never s := by
  unfold flush
  simp only [wp_bind]
  refine wp_mono (flushLoadedPage_spec h) ?_ fun _ _ => False.elim
  rintro _ _ ⟨io, d, rfl, hs, _⟩
  refine wp_mono (flushHeader_spec (h.writeBack hs d) hf) ?_ fun _ _ => False.elim
  rintro _ _ ⟨io', rfl, hlen, hhdr, hpages⟩
  simp only [liftIo, wp_mapError, wp_zoom]
  refine wp_mono (sync_ok io') (fun _ io'' hio => ?_) fun _ _ => False.elim
  have hp : ∀ p < s.header.numPages, pageAt (content io'') p = s.image p := fun p hp => by
    rw [hio, hpages, hs.pages p hp]
  refine ⟨⟨?_, h.loaded, fun _ p hl => ?_, fun _ => by rw [hio, hhdr], h.count⟩, rfl, rfl,
    fun p hlt => ?_, hp⟩
  · rw [hio, hlen]
    exact (h.writeBack hs d).length
  · rw [hp p (h.loaded p hl), PageFile.image, if_pos hl]
  · rw [PageFile.image]
    split
    next hl => rw [PageFile.image, if_pos hl]
    next => exact hp p hlt

/-! ## Making a page resident -/

/-- `t` is `s` with page `p` resident; every other page is stored as `s` shows it. -/
structure Loaded (s : PageFile I) (p : Nat) (t : PageFile I) : Prop where
  eq : t = { s with io := t.io, loadedPageId := some p, loadedPage := s.image p,
                    loadedPageDirty := t.loadedPageDirty }
  length : (content t.io).length = (content s.io).length
  stored : headerAt (content t.io) = headerAt (content s.io)
  others : ∀ q < s.header.numPages, q ≠ p → pageAt (content t.io) q = s.image q
  clean : t.loadedPageDirty = false → pageAt (content t.io) p = s.image p

theorem Loaded.header (h : Loaded s p t) : t.header = s.header := by rw [h.eq]

theorem Loaded.headerDirty (h : Loaded s p t) : t.headerDirty = s.headerDirty := by rw [h.eq]

theorem Loaded.loadedPageId (h : Loaded s p t) : t.loadedPageId = some p := by rw [h.eq]

theorem Loaded.loadedPage (h : Loaded s p t) : t.loadedPage = s.image p := by rw [h.eq]

/-- Changing the resident page and the header keeps the file coherent. -/
theorem Loaded.update (h : Loaded s p t) (hc : Coherent s) (hp : p < s.header.numPages)
    {hd : FileHeader} {dirty : Bool} (b : PageBuf) (hn : hd.numPages = s.header.numPages)
    (hs : dirty = false → hd = s.header ∧ s.headerDirty = false) :
    Coherent
      { t with header := hd, headerDirty := dirty, loadedPage := b, loadedPageDirty := true } where
  length := by simpa only [hn, h.length] using hc.length
  loaded q hq := by
    rw [h.loadedPageId, Option.some.injEq] at hq
    exact hq ▸ hn ▸ hp
  clean hf := by cases hf
  stored hf := by
    obtain ⟨rfl, hd'⟩ := hs hf
    simpa only [h.stored] using hc.stored hd'
  count := by simpa only [hn] using hc.count

theorem Loaded.image_update (h : Loaded s p t) {hd : FileHeader} {dirty dirty' : Bool} (b : PageBuf)
    (hq : q < s.header.numPages) :
    image { t with header := hd, headerDirty := dirty, loadedPage := b, loadedPageDirty := dirty' }
      q = if q = p then b else s.image q := by
  simp only [image, h.loadedPageId, Option.some.injEq, eq_comm (a := p)]
  split
  next => rfl
  next hqp => exact h.others q hq hqp

theorem Loaded.image_eq (h : Loaded s p t) (hq : q < s.header.numPages) :
    t.image q = s.image q := by
  rw [h.eq, image]
  simp only [Option.some.injEq]
  split
  next e => rw [e]
  next e => exact h.others q hq (Ne.symm e)

theorem Loaded.coherent (h : Loaded s p t) (hc : Coherent s) (hp : p < s.header.numPages) :
    Coherent t where
  length := by rw [h.header, h.length]; exact hc.length
  loaded q hq := by
    rw [h.loadedPageId, Option.some.injEq] at hq
    rw [h.header, ← hq]
    exact hp
  clean hd q hq := by
    rw [h.loadedPageId, Option.some.injEq] at hq
    rw [← hq, h.clean hd, h.loadedPage]
  stored hd := by
    rw [h.headerDirty] at hd
    rw [h.stored, h.header]
    exact hc.stored hd
  count := by rw [h.header]; exact hc.count

theorem loadPage_spec {I : Type} [ReliableIo I] {s : PageFile I} (h : Coherent s)
    (hp : p < s.header.numPages) :
    wp (loadPage p) (fun _ t => Loaded s p t) never s := by
  unfold loadPage ensurePageIdInRange
  simp only [wp_bind, wp_get, wp_ite, wp_throw, wp_pure, if_neg (Nat.not_le.mpr hp)]
  split
  next hl =>
    have himg : s.image p = s.loadedPage := by rw [image, if_pos hl]
    refine ⟨?_, rfl, rfl, fun q _ hqp => ?_, fun hd => ?_⟩
    · cases s
      simp only at hl himg
      rw [himg, hl]
    · rw [image, if_neg (by rw [hl]; simpa using Ne.symm hqp)]
    · rw [himg, h.clean hd p hl]
  next hl =>
    refine wp_mono (flushLoadedPage_spec h) ?_ fun _ _ => False.elim
    rintro _ _ ⟨io, d, rfl, hs, _⟩
    have hple := hs.length ▸ h.page_le hp
    rw [pageOffset_eq (Nat.lt_trans hp h.count)]
    simp only [wp_lift_ok, readLoadedPage, wp_mapError, wp_zoom, wp_modify]
    refine wp_mono (read_ok io s.loadedPage hple) (fun _ u hu => ?_) fun _ _ => False.elim
    have hpage : u.2 = s.image p := by
      ext1
      rw [hu.2, ← hs.pages p hp, pageAt_bytes hple]
    exact {
      eq := by rw [hpage]
      length := by rw [hu.1, hs.length]
      stored := by rw [hu.1, hs.header]
      others := fun q hq _ => by rw [hu.1, hs.pages q hq]
      clean := fun _ => by rw [hu.1, hs.pages p hp] }

/-- An id that is out of range is rejected before anything else. -/
theorem loadPage_out_of_range (hp : s.header.numPages ≤ p) :
    wp (loadPage p) (fun _ _ => False) (fun e t => e = .invalidPageId p ∧ t = s) s := by
  unfold loadPage ensurePageIdInRange
  simp only [wp_bind, wp_get, wp_ite, wp_throw, if_pos (ge_iff_le.mpr hp), and_self]

/-! ## Growing the file -/

/-- `t` is `s` with one more page, resident, marked as used and zero. -/
structure Grown (s t : PageFile I) : Prop where
  coherent : Coherent t
  header : t.header = { s.header with numPages := s.header.numPages + 1 }
  image_new : t.image s.header.numPages = (Block.zero _).write 0 PageHeader.used.encode
  image : ∀ q < s.header.numPages, t.image q = s.image q
  loadedPageId : t.loadedPageId = some s.header.numPages

theorem allocateNew_spec {I : Type} [ReliableIo I] {s : PageFile I} (h : Coherent s)
    (hn : s.header.numPages + 1 < 2 ^ 32) :
    wp allocateNew (fun p t => p = s.header.numPages ∧
      Grown s { t with headerDirty := true, loadedPageDirty := true }) never s := by
  unfold allocateNew
  simp only [wp_bind, wp_get]
  refine wp_mono (flushLoadedPage_spec h) ?_ fun _ _ => False.elim
  rintro _ _ ⟨io, d, rfl, hs, _⟩
  simp only [checked_of_lt hn, wp_bind, wp_modify, liftIo, wp_mapError, wp_zoom,
    writeCurrentPageHeader, wp_pure]
  refine wp_mono (setLen_ok io _) (fun _ io' hio => ?_) fun _ _ => False.elim
  have hlen := h.length
  have hpages : ∀ q < s.header.numPages, pageAt (content io') q = s.image q := fun q hq => by
    have hq' := hs.length ▸ h.page_le hq
    rw [hio, pageAt_resize hq', hs.pages q hq]
    simp only [fileHeaderSize, pageSize] at hlen hq' ⊢
    omega
  refine ⟨trivial, ⟨?_, fun q hq => ?_, fun hf => ?_, fun hf => ?_, hn⟩, rfl, ?_,
    fun q hq => ?_, rfl⟩
  · simp only [hio, length_resize, Nat.le_refl]
  · simp only [Option.some.injEq] at hq
    simp only [← hq]
    omega
  · cases hf
  · cases hf
  · simp only [PageFile.image, if_true]
  · have hne : s.header.numPages ≠ q := by omega
    simp only [PageFile.image, Option.some.injEq, if_neg hne]
    exact hpages q hq

end Redbase.Page
