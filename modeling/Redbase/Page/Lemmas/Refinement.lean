import Redbase.Page.Store

/-!
# The page file implements the store

Each operation of the page file, started in a file that represents a store, ends in one that
represents the store after the operation of the same name.
-/

namespace Redbase.Page

open Prog Bytes PageFile ByteIo Linked

variable {I : Type} [ReliableIo I] {s t : PageFile I} {st st' : Store} {p : Nat}

/-- The resident page is `p` and will be written back: what a `PageWriteGuard` holds. -/
def Guarded (s : PageFile I) (p : Nat) : Prop := s.loadedPageId = some p ∧ s.loadedPageDirty = true

theorem Represents.of_update (h : Represents s st) (hl : Loaded s p t) (hp : p < s.header.numPages)
    {hd : FileHeader} {dirty : Bool} {b : PageBuf} (hn : hd.numPages = s.header.numPages)
    (hs : dirty = false → hd = s.header ∧ s.headerDirty = false) (hst : st'.numPages = st.numPages)
    (hchain : Chain (Function.update (fun q => (s.image q).nextFree) p b.nextFree) link freeListEnd
      hd.firstFreePage st'.free)
    (hsmall : ∀ q ∈ st'.free, q < 2 ^ 31)
    (hpage : ∀ q, st'.InUse q →
      (if q = p then b else s.image q).nextFree = pageUsed ∧
      (if q = p then b else s.image q).data = st'.data q) :
    Represents
      { t with header := hd, headerDirty := dirty, loadedPage := b, loadedPageDirty := true }
      st' := by
  have hlt : ∀ q < st'.numPages, q < s.header.numPages := fun q hq => by
    rw [h.numPages, ← hst]
    exact hq
  refine ⟨hl.update h.coherent hp b hn hs, by rw [hn, h.numPages, hst], ?_, hsmall, ?_, ?_⟩
  · refine hchain.congr fun q hq => ?_
    rw [hl.image_update b (hlt q (st'.free_lt q hq)), Function.update_apply]
    split <;> rfl
  · intro q hq
    rw [hl.image_update b (hlt q hq.1)]
    exact (hpage q hq).1
  · intro q hq
    rw [hl.image_update b (hlt q hq.1)]
    exact (hpage q hq).2

theorem Represents.of_loaded (h : Represents s st) (hl : Loaded s p t)
    (hp : p < s.header.numPages) :
    Represents t st :=
  h.congr (hl.coherent h.coherent hp) hl.header fun _ hq => hl.image_eq hq

/-! ## Reading and writing -/

theorem currentPageHeader_of_loaded (hl : Loaded s p t) :
    t.currentPageHeader.nextFree = (s.image p).nextFree := by
  rw [currentPageHeader, hl.loadedPage, PageBuf.nextFree]

theorem pageData_of_loaded (hl : Loaded s p t) : t.pageData = (s.image p).data := by
  rw [pageData, hl.loadedPage, PageBuf.data]

/-- What `load_page` and the check of the page header leave for a page in use. -/
theorem loadPage_used_spec (h : Represents s st) :
    wp (loadPage p)
      (fun _ u => wp (ensureCurrentPageIsUsed p) (fun _ t => st.InUse p ∧ Loaded s p t)
        (fun e t => Represents t st ∧ ¬ st.InUse p ∧ e = .invalidPageId p) u)
      (fun e t => Represents t st ∧ ¬ st.InUse p ∧ e = .invalidPageId p) s := by
  by_cases hp : p < s.header.numPages
  · refine wp_mono (loadPage_spec h.coherent hp) (fun _ t hl => ?_) fun _ _ => False.elim
    unfold ensureCurrentPageIsUsed
    simp only [wp_bind, wp_get, wp_ite, wp_throw, wp_pure, currentPageHeader_of_loaded hl]
    split
    next hne => exact ⟨h.of_loaded hl hp, fun hu => hu.2 ((h.free_iff hp).mpr hne), trivial⟩
    next he => exact ⟨⟨h.numPages ▸ hp, fun hf => he ((h.free_iff hp).mp hf)⟩, hl⟩
  · refine wp_mono (loadPage_out_of_range (Nat.le_of_not_lt hp)) (fun _ _ => False.elim) ?_
    rintro _ _ ⟨rfl, rfl⟩
    exact ⟨h, fun hu => hp (h.lt_numPages hu), rfl⟩

theorem readPage_spec (h : Represents s st) :
    wp (readPage p) (fun g t => Represents t st ∧ st.InUse p ∧ g = ⟨p, st.data p⟩)
      (fun e t => Represents t st ∧ ¬ st.InUse p ∧ e = .invalidPageId p) s := by
  unfold readPage
  simp only [wp_bind, wp_get, wp_pure]
  refine wp_mono (loadPage_used_spec h) (fun _ u hload => wp_mono hload ?_ fun _ _ => id)
    fun _ _ => id
  rintro _ t ⟨hu, hl⟩
  refine ⟨h.of_loaded hl (h.lt_numPages hu), hu, ?_⟩
  rw [pageData_of_loaded hl, h.data p hu]

theorem writePage_spec (h : Represents s st) :
    wp (writePage p)
      (fun g t => Represents t st ∧ Guarded t p ∧ st.InUse p ∧ g = ⟨p, st.data p⟩)
      (fun e t => Represents t st ∧ ¬ st.InUse p ∧ e = .invalidPageId p) s := by
  unfold writePage
  simp only [wp_bind, wp_get, wp_modify, wp_pure]
  refine wp_mono (loadPage_used_spec h) (fun _ u hload => wp_mono hload ?_ fun _ _ => id)
    fun _ _ => id
  rintro _ t ⟨hu, hl⟩
  have hp := h.lt_numPages hu
  have hR : Represents { t with header := s.header, headerDirty := s.headerDirty,
                                loadedPage := s.image p, loadedPageDirty := true } st := by
    refine h.of_update hl hp rfl (fun hd => ⟨rfl, hd⟩) rfl ?_ h.small fun q hq => ?_
    · rw [Function.update_eq_self]
      exact h.chain
    · have he : (if q = p then s.image p else s.image q) = s.image q := by
        split
        next e => rw [e]
        next => rfl
      rw [he]
      exact ⟨h.used q hq, h.data q hq⟩
  refine ⟨?_, ⟨hl.loadedPageId, rfl⟩, hu, ?_⟩
  · rw [hl.eq] at hR ⊢
    exact hR
  · rw [← h.data p hu, ← pageData_of_loaded hl]
    rfl

/-- A change through a `PageWriteGuard`. -/
theorem Represents.setPageData (h : Represents s st) (hg : Guarded s p) (d : PageData) :
    Represents (s.setPageData d) (st.write p d) ∧ Guarded (s.setPageData d) p := by
  have himg : ∀ q, (s.setPageData d).image q =
      if q = p then s.loadedPage.write pageHeaderSize d.bytes else s.image q := fun q => by
    simp only [image, PageFile.setPageData, hg.1, Option.some.injEq, eq_comm (a := p)]
    split <;> rfl
  have hres : s.image p = s.loadedPage := by rw [image, if_pos hg.1]
  have hlink : ∀ q, ((s.setPageData d).image q).nextFree = (s.image q).nextFree := fun q => by
    rw [himg]
    split
    next e => rw [PageBuf.nextFree_writeData, e, hres]
    next => rfl
  refine ⟨⟨⟨h.coherent.length, h.coherent.loaded, fun hd => ?_, h.coherent.stored,
      h.coherent.count⟩,
    h.numPages, h.chain.congr fun q _ => hlink q, h.small, fun q hq => ?_, fun q hq => ?_⟩, hg⟩
  · have hd' : s.loadedPageDirty = false := hd
    rw [hg.2] at hd'
    cases hd'
  · rw [hlink]
    exact h.used q hq
  · rw [himg, Store.write_data, Function.update_apply]
    split
    next => exact PageBuf.data_writeData _ d
    next => exact h.data q hq

/-! ## Allocating -/

/-- The page header and the zero data of a page just allocated. -/
theorem fresh_page (b : PageBuf) :
    PageBuf.nextFree ((b.write 0 PageHeader.used.encode).write pageHeaderSize
      (Block.zero pageDataSize).bytes) = pageUsed ∧
    PageBuf.data ((b.write 0 PageHeader.used.encode).write pageHeaderSize
      (Block.zero pageDataSize).bytes) = Block.zero _ := by
  have hi : IsI32 PageHeader.used.nextFree := by unfold IsI32 PageHeader.used; decide
  refine ⟨?_, PageBuf.data_writeData _ _⟩
  rw [PageBuf.nextFree_writeData, PageBuf.nextFree_writeHeader _ hi]
  rfl

theorem allocateFree_spec (h : Represents s st) (hne : s.header.firstFreePage ≠ freeListEnd) :
    wp allocateFree (fun q t => q = st.nextId ∧ t.loadedPageId = some q ∧
      Represents { t with headerDirty := true, loadedPageDirty := true } st.allocate) never s := by
  rcases h.firstFree_eq with ⟨he, _⟩ | ⟨q, free, hf, he⟩
  · exact absurd he hne
  · have hnext : st.nextId = q := by simp [Store.nextId, hf]
    have hfree : st.allocate.free = free := by simp [Store.allocate, hf]
    have hq31 := h.small q (by simp [hf])
    have hq : q < s.header.numPages := h.numPages ▸ st.free_lt q (by simp [hf])
    have hid : asU32 s.header.firstFreePage = q := by
      rw [he, link, asU32]
      omega
    unfold allocateFree
    simp only [wp_bind, wp_get, hid]
    refine wp_mono (loadPage_spec h.coherent hq) (fun _ t hl => ?_) fun _ _ => False.elim
    simp only [wp_modify, writeCurrentPageHeader, wp_pure, PageFile.setPageData,
      currentPageHeader_of_loaded hl, hl.header, hl.loadedPage]
    refine ⟨hnext.symm, hl.loadedPageId, h.of_update hl hq rfl (by simp) ?_ ?_ ?_ fun r hr => ?_⟩
    · simp [Store.allocate, hf]
    · rw [hfree]
      exact (hf ▸ h.chain).pop (hf ▸ st.free_nodup) _
    · intro r hr
      exact h.small r (by rw [hfree] at hr; simp [hf, hr])
    · rcases (st.inUse_allocate r).mp hr with hr' | hr'
      · rw [if_pos (hr'.trans hnext), hr']
        refine ⟨(fresh_page _).1, ?_⟩
        rw [(fresh_page _).2, Store.allocate_data, Function.update_self]
      · have hrq : r ≠ q := fun e => hr'.2 (by simp [hf, e])
        rw [if_neg hrq, Store.allocate_data, Function.update_of_ne (hnext ▸ hrq)]
        exact ⟨h.used r hr', h.data r hr'⟩

theorem allocateNew_store (h : Represents s st) (hf : st.free = [])
    (hg : Grown s t) : Represents t st.allocate := by
  have hnext : st.nextId = s.header.numPages := by simp [Store.nextId, hf, h.numPages]
  have hnil : st.allocate.free = [] := by simp [Store.allocate, hf]
  refine ⟨hg.coherent, ?_, ?_, fun q hq => ?_, fun q hq => ?_, fun q hq => ?_⟩
  · rw [hg.header, Store.allocate, h.numPages]
    simp [hf]
  · have he := (hf ▸ h.chain).eq_nil
    rw [hnil, hg.header, he]
    exact .nil
  · rw [hnil] at hq
    cases hq
  · rcases (st.inUse_allocate q).mp hq with hq' | hq'
    · rw [hq', hnext, hg.image_new]
      exact PageBuf.nextFree_writeHeader _ (by unfold IsI32 PageHeader.used; decide)
    · rw [hg.image q (h.lt_numPages hq')]
      exact h.used q hq'
  · rw [Store.allocate_data, Function.update_apply]
    rcases (st.inUse_allocate q).mp hq with hq' | hq'
    · rw [if_pos hq', hq', hnext, hg.image_new, PageBuf.data_writeHeader, PageBuf.data_zero]
    · have hne : q ≠ st.nextId := fun e => st.not_inUse_nextId (e ▸ hq')
      rw [if_neg hne, hg.image q (h.lt_numPages hq')]
      exact h.data q hq'

/-- When the 32 bits of the page count are exhausted nothing has changed. -/
theorem allocateNew_full (h : Coherent s) (hn : s.header.numPages + 1 = 2 ^ 32) :
    wp allocateNew (fun _ _ => False)
      (fun _ t => ∃ io d, t = { s with io, loadedPageDirty := d } ∧ Stored s io) s := by
  unfold allocateNew
  simp only [wp_bind, wp_get]
  refine wp_mono (flushLoadedPage_spec h) ?_ fun _ _ => False.elim
  rintro _ _ ⟨io, d, rfl, hs, _⟩
  have hc : checked 32 (s.header.numPages + 1) = none := if_neg (by omega)
  simp only [hc, wp_throw]
  exact ⟨io, d, rfl, hs⟩

theorem allocateNew_overflow (h : Represents s st) (hn : s.header.numPages + 1 = 2 ^ 32) :
    wp allocateNew (fun _ _ => False) (fun _ t => Represents t st) s := by
  refine wp_mono (allocateNew_full h.coherent hn) (fun _ _ => False.elim) ?_
  rintro _ _ ⟨io, d, rfl, hs⟩
  exact h.congr (h.coherent.writeBack hs d) rfl fun p hp => hs.image_eq d hp

theorem allocatePage_spec (h : Represents s st) :
    wp allocatePage
      (fun g t => g = ⟨st.nextId, Block.zero _⟩ ∧ Represents t st.allocate ∧ Guarded t st.nextId)
      (fun _ t => Represents t st ∧ st.free = [] ∧ st.numPages + 1 = 2 ^ 32) s := by
  unfold allocatePage
  simp only [wp_bind, wp_get, wp_ite, wp_modify, wp_pure]
  have hdone : ∀ q (t : PageFile I), t.loadedPageId = some q → q = st.nextId →
      Represents { t with headerDirty := true, loadedPageDirty := true } st.allocate →
      (⟨q, pageData { t with headerDirty := true, loadedPageDirty := true }⟩ : PageGuard) =
          ⟨st.nextId, Block.zero _⟩ ∧
        Represents { t with headerDirty := true, loadedPageDirty := true } st.allocate ∧
        Guarded { t with headerDirty := true, loadedPageDirty := true } st.nextId := by
    rintro q t hl rfl hr
    refine ⟨?_, hr, hl, rfl⟩
    have hd := hr.data st.nextId ((st.inUse_allocate _).mpr (Or.inl rfl))
    rw [image, if_pos hl, Store.allocate_data, Function.update_self] at hd
    rw [← hd]
    rfl
  split
  next hne =>
    refine wp_mono (allocateFree_spec h hne) ?_ fun _ _ => False.elim
    rintro q t ⟨hq, hl, hr⟩
    exact hdone q t hl hq hr
  next he =>
    have hf : st.free = [] := by
      rcases h.firstFree_eq with ⟨_, hf⟩ | ⟨q, free, _, hq⟩
      · exact hf
      · rw [hq, link] at he
        simp only [freeListEnd] at he
        omega
    have hcount := h.coherent.count
    by_cases hn : s.header.numPages + 1 < 2 ^ 32
    · refine wp_mono (allocateNew_spec h.coherent hn) ?_ fun _ _ => False.elim
      rintro q t ⟨rfl, hg⟩
      refine hdone _ t hg.loadedPageId ?_ (allocateNew_store h hf hg)
      simp [Store.nextId, hf, h.numPages]
    · have hn' : s.header.numPages + 1 = 2 ^ 32 := by omega
      refine wp_mono (allocateNew_overflow h hn') (fun _ _ => False.elim) fun _ t ht => ?_
      exact ⟨ht, hf, h.numPages ▸ hn'⟩

/-! ## Disposing -/

theorem disposePage_spec (h : Represents s st) (hp31 : p < st.numPages → p < 2 ^ 31) :
    wp (disposePage p) (fun _ t => ∃ hu : st.InUse p, Represents t (st.dispose p hu))
      (fun e t => Represents t st ∧ (p < st.numPages ∧ p ∈ st.free ∧ e = .pageAlreadyFree p ∨
        st.numPages ≤ p ∧ e = .invalidPageId p)) s := by
  unfold disposePage
  simp only [wp_bind]
  by_cases hp : p < s.header.numPages
  · refine wp_mono (loadPage_spec h.coherent hp) (fun _ t hl => ?_) fun _ _ => False.elim
    simp only [wp_get, wp_ite, wp_bind, wp_throw, wp_modify, writeCurrentPageHeader,
      currentPageHeader_of_loaded hl, PageFile.setPageData, hl.header, hl.loadedPage]
    split
    next hne =>
      exact ⟨h.of_loaded hl hp, Or.inl ⟨h.numPages ▸ hp, (h.free_iff hp).mpr hne, trivial⟩⟩
    next he =>
      have hu : st.InUse p := ⟨h.numPages ▸ hp, fun hf => he ((h.free_iff hp).mp hf)⟩
      refine ⟨hu, h.of_update hl hp rfl (by simp) rfl ?_ ?_ fun q hq => ?_⟩
      · rw [PageBuf.nextFree_writeHeader _ h.link_isI32, asI32_of_lt (hp31 hu.1)]
        exact h.chain.push hu.2
      · intro q hq
        rcases List.mem_cons.mp hq with rfl | hq
        · exact hp31 hu.1
        · exact h.small q hq
      · obtain ⟨hq, hqp⟩ := (st.inUse_dispose hu q).mp hq
        rw [if_neg hqp]
        exact ⟨h.used q hq, h.data q hq⟩
  · have hge := Nat.le_of_not_lt hp
    refine wp_mono (loadPage_out_of_range hge) (fun _ _ => False.elim) ?_
    rintro _ _ ⟨rfl, rfl⟩
    exact ⟨h, Or.inr ⟨h.numPages ▸ hge, rfl⟩⟩

/-- A page that cannot be disposed of changes nothing. -/
theorem disposePage_error (h : Coherent s) :
    wp (disposePage p) (fun _ _ => True)
      (fun _ t => t.header = s.header ∧ ∀ q < s.header.numPages, t.image q = s.image q) s := by
  unfold disposePage
  simp only [wp_bind]
  by_cases hp : p < s.header.numPages
  · refine wp_mono (loadPage_spec h hp) (fun _ t hl => ?_) fun _ _ => False.elim
    simp only [wp_get, wp_ite, wp_bind, wp_throw, wp_modify, writeCurrentPageHeader]
    split
    next => exact ⟨hl.header, fun q hq => hl.image_eq hq⟩
    next => trivial
  · refine wp_mono (loadPage_out_of_range (Nat.le_of_not_lt hp)) (fun _ _ => False.elim) ?_
    rintro _ _ ⟨-, rfl⟩
    exact ⟨rfl, fun _ _ => rfl⟩

/-! ## Creating and reopening -/

theorem flush_store_spec (h : Represents s st) :
    wp flush (fun _ t => Represents t st ∧ Flushed s t) never s :=
  wp_mono (flush_spec h.coherent h.link_isI32)
    (fun _ _ hf => ⟨h.congr hf.coherent hf.header hf.image, hf⟩) fun _ _ => False.elim

/-- A flushed file can be opened from its bytes alone. -/
theorem open_spec (h : Represents s st) (hf : Flushed s t) {io : I}
    (hio : content io = content t.io) :
    wp PageFile.open (fun u _ => Represents u st) never io := by
  have hlen : fileHeaderSize + s.header.numPages * pageSize ≤ (content t.io).length := by
    rw [← hf.header]
    exact hf.coherent.length
  have hhead : FileHeader.read (headerAt (content t.io)) = s.header := by
    rw [hf.coherent.stored hf.headerDirty, hf.header]
  unfold PageFile.open
  simp only [wp_bind, wp_mapError]
  refine wp_mono (len_ok io) ?_ fun _ _ => False.elim
  rintro _ io₁ ⟨rfl, hio₁⟩
  simp only [wp_ite, wp_throw, wp_bind]
  rw [if_neg (by rw [hio]; exact Nat.not_lt.mpr (Nat.le_trans (Nat.le_add_right _ _) hlen))]
  have hle : 0 + pageSize ≤ (content io₁).length := by
    rw [hio₁, hio]
    simp only [fileHeaderSize, pageSize] at hlen ⊢
    omega
  obtain ⟨_, ⟨io₂, buf⟩, hread, hio₂, hbuf⟩ :=
    exists_ok_of_wp (read_ok io₁ (Block.zero pageSize) hle)
  have hbuf' : buf = headerAt (content t.io) := by
    ext1
    rw [headerAt_bytes (Nat.le_trans (Nat.le_add_right _ _) hlen), hbuf, hio₁, hio]
  have hdec : FileHeader.decode buf = .ok s.header :=
    FileHeader.decode_encode h.header_valid (hbuf' ▸ hhead)
  refine wp_of_ok (a := buf) (t := io₂) (by rw [readHeaderBuf, hread]) ?_
  simp only [hdec, wp_lift_ok, wp_get, wp_pure]
  rw [if_neg (by rw [hio]; exact Nat.not_lt.mpr hlen)]
  have hcont : content io₂ = content t.io := by rw [hio₂, hio₁, hio]
  have himg : ∀ p < s.header.numPages, pageAt (content io₂) p = s.image p := fun p hp => by
    rw [hcont, hf.pages p hp]
  refine h.congr ⟨?_, ?_, ?_, fun _ => ?_, h.coherent.count⟩ rfl fun p hp => ?_
  · rw [hcont]
    exact hlen
  · rintro p ⟨⟩
  · rintro _ p ⟨⟩
  · rw [hcont, hhead]
  · rw [image, if_neg (by simp)]
    exact himg p hp

theorem create_spec (io : I) :
    ∃ s : PageFile I, create io = .ok () s ∧ Represents s Store.empty := by
  have hw : wp (do liftIo (PageIo.setLen fileHeaderSize); flush)
      (fun _ (s : PageFile I) => Represents s Store.empty) never
      { io, header := FileHeader.new, headerDirty := true, loadedPageId := none,
        loadedPageDirty := false, loadedPage := Block.zero _ } := by
    simp only [wp_bind, liftIo, wp_mapError, wp_zoom]
    refine wp_mono (setLen_ok io _) (fun _ io' hio => ?_) fun _ _ => False.elim
    refine wp_mono (flush_store_spec (?_ : Represents _ Store.empty)) (fun _ _ h => h.1)
      fun _ _ => False.elim
    refine ⟨⟨?_, ?_, ?_, ?_, ?_⟩, rfl, .nil, ?_, ?_, ?_⟩
    · simp [hio, FileHeader.new]
    · rintro p ⟨⟩
    · rintro _ p ⟨⟩
    · rintro ⟨⟩
    · simp [FileHeader.new]
    · simp [Store.empty]
    · simp [Store.InUse, Store.empty]
    · simp [Store.InUse, Store.empty]
  obtain ⟨_, s, he, hr⟩ := exists_ok_of_wp hw
  exact ⟨s, he, hr⟩

end Redbase.Page
