import Redbase.Page.Faults
import Redbase.Page.Lemmas.Refinement

/-!
# A page file as its contents

Whatever is stored in a page file, also where its free list makes no sense: a call that allocates
nothing reads or replaces the data of a page in use, and leaves every other page as it was.
-/

namespace Redbase.Page

open Prog Bytes PageFile ByteIo Function

variable {I : Type} [ReliableIo I] {s t : PageFile I} {p : Nat}

/-- What holds of an open file, whatever its pages say. -/
structure Steady (s : PageFile I) : Prop where
  coherent : Coherent s
  link : IsI32 s.header.firstFreePage

/-- The same pages under the same header. -/
structure SamePages (s t : PageFile I) : Prop where
  header : t.header = s.header
  image : ∀ p < s.header.numPages, t.image p = s.image p

theorem SamePages.refl (s : PageFile I) : SamePages s s := ⟨rfl, fun _ _ => rfl⟩

theorem contents_of_inUse (h : s.InUse p) : s.contents p = some (s.image p).data := if_pos h

theorem contents_of_not_inUse (h : ¬ s.InUse p) : s.contents p = none := if_neg h

theorem SamePages.inUse_iff (h : SamePages s t) (p : Nat) : t.InUse p ↔ s.InUse p := by
  unfold PageFile.InUse
  rw [h.header]
  exact and_congr_right fun hp => by rw [h.image p hp]

theorem SamePages.contents (h : SamePages s t) : t.contents = s.contents := by
  funext p
  by_cases hp : s.InUse p
  · rw [contents_of_inUse hp, contents_of_inUse ((h.inUse_iff p).mpr hp), h.image p hp.1]
  · rw [contents_of_not_inUse hp, contents_of_not_inUse fun hp' => hp ((h.inUse_iff p).mp hp')]

theorem SamePages.steady (h : SamePages s t) (hs : Steady s) (hc : Coherent t) : Steady t :=
  ⟨hc, by rw [h.header]; exact hs.link⟩

theorem Loaded.samePages (h : Loaded s p t) : SamePages s t := ⟨h.header, fun _ hq => h.image_eq hq⟩

/-- What `load_page` and the check of the page header leave. -/
theorem loadPage_contents (h : Steady s) (p : Nat) :
    wp (loadPage p)
      (fun _ u => wp (ensureCurrentPageIsUsed p) (fun _ t => s.InUse p ∧ Loaded s p t)
        (fun e t => (Steady t ∧ SamePages s t) ∧ ¬ s.InUse p ∧ e = .invalidPageId p) u)
      (fun e t => (Steady t ∧ SamePages s t) ∧ ¬ s.InUse p ∧ e = .invalidPageId p) s := by
  by_cases hp : p < s.header.numPages
  · refine wp_mono (loadPage_spec h.coherent hp) (fun _ t hl => ?_) fun _ _ => False.elim
    have ht : Steady t := hl.samePages.steady h (hl.coherent h.coherent hp)
    unfold ensureCurrentPageIsUsed
    simp only [wp_bind, wp_get, wp_ite, wp_throw, wp_pure, currentPageHeader_of_loaded hl]
    split
    next hne => exact ⟨⟨ht, hl.samePages⟩, fun hu => hne hu.2, trivial⟩
    next he => exact ⟨⟨hp, not_not.mp he⟩, hl⟩
  · refine wp_mono (loadPage_out_of_range (Nat.le_of_not_lt hp)) (fun _ _ => False.elim) ?_
    rintro _ _ ⟨rfl, rfl⟩
    exact ⟨⟨h, .refl _⟩, fun hu => hp hu.1, rfl⟩

theorem readPage_contents (h : Steady s) (p : Nat) :
    wp (readPage p) (fun g t => (Steady t ∧ SamePages s t) ∧ s.InUse p ∧ g.data = (s.image p).data)
      (fun e t => (Steady t ∧ SamePages s t) ∧ ¬ s.InUse p ∧ e = .invalidPageId p) s := by
  unfold readPage
  simp only [wp_bind, wp_get, wp_pure]
  refine wp_mono (loadPage_contents h p) (fun _ u hload => wp_mono hload ?_ fun _ _ => id)
    fun _ _ => id
  rintro _ t ⟨hu, hl⟩
  exact ⟨⟨hl.samePages.steady h (hl.coherent h.coherent hu.1), hl.samePages⟩, hu,
    pageData_of_loaded hl⟩

/-- The file `t` is `s` with other data in page `p`, which is resident and will be written back. -/
structure Rewritten (s : PageFile I) (p : Nat) (d : PageData) (t : PageFile I) : Prop where
  steady : Steady t
  header : t.header = s.header
  image : ∀ q < s.header.numPages, t.image q = if q = p then (s.image p).write pageHeaderSize
    d.bytes else s.image q

theorem Rewritten.inUse_iff {d : PageData} (h : Rewritten s p d t) (q : Nat) :
    t.InUse q ↔ s.InUse q := by
  unfold PageFile.InUse
  rw [h.header]
  refine and_congr_right fun hq => ?_
  rw [h.image q hq]
  split
  next he => rw [he, PageBuf.nextFree_writeData]
  next => rfl

theorem Rewritten.contents {d : PageData} (h : Rewritten s p d t) (hu : s.InUse p) :
    t.contents = update s.contents p (some d) := by
  funext q
  rcases eq_or_ne q p with rfl | hne
  · rw [update_self, contents_of_inUse ((h.inUse_iff q).mpr hu), h.image q hu.1, if_pos rfl,
      PageBuf.data_writeData]
  · rw [update_of_ne hne]
    by_cases hq : s.InUse q
    · rw [contents_of_inUse hq, contents_of_inUse ((h.inUse_iff q).mpr hq),
        h.image q hq.1, if_neg hne]
    · rw [contents_of_not_inUse hq, contents_of_not_inUse fun hq' => hq ((h.inUse_iff q).mp hq')]

theorem writePage_contents (h : Steady s) (p : Nat) (d : PageData) :
    wp (do let _ ← writePage p; modify (setPageData d))
      (fun _ t => s.InUse p ∧ Rewritten s p d t)
      (fun e t => (Steady t ∧ SamePages s t) ∧ ¬ s.InUse p ∧ e = .invalidPageId p) s := by
  unfold writePage
  simp only [wp_bind, wp_get, wp_modify, wp_pure]
  refine wp_mono (loadPage_contents h p) (fun _ u hload => wp_mono hload ?_ fun _ _ => id)
    fun _ _ => id
  rintro _ t ⟨hu, hl⟩
  have hc : Coherent { t with header := s.header, headerDirty := s.headerDirty,
                              loadedPage := (s.image p).write pageHeaderSize d.bytes,
                              loadedPageDirty := true } :=
    hl.update h.coherent hu.1 _ rfl fun hd => ⟨rfl, hd⟩
  have he : setPageData d { t with loadedPageDirty := true } =
      { t with header := s.header, headerDirty := s.headerDirty,
               loadedPage := (s.image p).write pageHeaderSize d.bytes,
               loadedPageDirty := true } := by
    rw [hl.eq]
    rfl
  rw [he]
  exact ⟨hu, ⟨hc, h.link⟩, rfl, fun q hq => hl.image_update _ hq⟩

theorem flush_contents (h : Steady s) : wp flush (fun _ t => Steady t ∧ SamePages s t) never s :=
  wp_mono (flush_spec h.coherent h.link) (fun _ _ hf =>
    have hs : SamePages s _ := ⟨hf.header, hf.image⟩
    ⟨hs.steady h hf.coherent, hs⟩) fun _ _ => id

/-! ## Handing out a page -/

/-- The file `t` is `s` after page `p` was handed out, zero and marked as used. -/
structure HandedOut (s : PageFile I) (p : Nat) (t : PageFile I) : Prop where
  steady : Steady t
  page_lt : p < t.header.numPages
  numPages_le : s.header.numPages ≤ t.header.numPages
  page : (t.image p).nextFree = pageUsed ∧ (t.image p).data = Block.zero _
  others : ∀ q, q ≠ p → q < t.header.numPages → q < s.header.numPages ∧ t.image q = s.image q

theorem HandedOut.contents (h : HandedOut s p t) :
    t.contents = update s.contents p (some (Block.zero _)) := by
  funext q
  rcases eq_or_ne q p with rfl | hne
  · rw [update_self, contents_of_inUse ⟨h.page_lt, h.page.1⟩, h.page.2]
  · rw [update_of_ne hne]
    by_cases hq : s.InUse q
    · obtain ⟨-, himage⟩ := h.others q hne (Nat.lt_of_lt_of_le hq.1 h.numPages_le)
      have hq' : t.InUse q := ⟨Nat.lt_of_lt_of_le hq.1 h.numPages_le, himage ▸ hq.2⟩
      rw [contents_of_inUse hq, contents_of_inUse hq', himage]
    · rw [contents_of_not_inUse hq, contents_of_not_inUse]
      rintro ⟨hlt, hused⟩
      obtain ⟨hlt', himage⟩ := h.others q hne hlt
      exact hq ⟨hlt', himage ▸ hused⟩

theorem Grown.handedOut (hg : Grown s t) (h : Steady s) : HandedOut s s.header.numPages t := by
  have hnum : t.header.numPages = s.header.numPages + 1 := by rw [hg.header]
  have hused : IsI32 PageHeader.used.nextFree := by
    unfold IsI32 PageHeader.used
    decide
  refine ⟨⟨hg.coherent, ?_⟩, ?_, ?_, ⟨?_, ?_⟩, fun q hne hq => ?_⟩
  · rw [hg.header]
    exact h.link
  · rw [hnum]
    exact Nat.lt_succ_self _
  · rw [hnum]
    exact Nat.le_succ _
  · rw [hg.image_new]
    exact PageBuf.nextFree_writeHeader _ hused
  · rw [hg.image_new, PageBuf.data_writeHeader, PageBuf.data_zero]
  · rw [hnum] at hq
    have hlt : q < s.header.numPages := by omega
    exact ⟨hlt, hg.image q hlt⟩

theorem allocateFree_contents (h : Steady s) :
    wp allocateFree
      (fun p t => p = asU32 s.header.firstFreePage ∧
        HandedOut s p { t with headerDirty := true, loadedPageDirty := true })
      (fun _ t => Steady t ∧ SamePages s t) s := by
  unfold allocateFree
  simp only [wp_bind, wp_get]
  by_cases hp : asU32 s.header.firstFreePage < s.header.numPages
  · refine wp_mono (loadPage_spec h.coherent hp) (fun _ t hl => ?_) fun _ _ => False.elim
    simp only [wp_modify, writeCurrentPageHeader, wp_pure, PageFile.setPageData,
      currentPageHeader_of_loaded hl, hl.header, hl.loadedPage]
    refine ⟨trivial, ⟨hl.update h.coherent hp _ rfl (by simp), PageBuf.nextFree_isI32 _⟩, hp,
      Nat.le_refl _, ?_, fun q hne hq => ⟨hq, ?_⟩⟩
    · rw [hl.image_update _ hp, if_pos rfl]
      exact fresh_page _
    · rw [hl.image_update _ hq, if_neg hne]
  · refine wp_mono (loadPage_out_of_range (Nat.le_of_not_lt hp)) (fun _ _ => False.elim) ?_
    rintro _ _ ⟨-, rfl⟩
    exact ⟨h, .refl _⟩

theorem allocateNew_contents (h : Steady s) :
    wp allocateNew
      (fun p t => p = s.header.numPages ∧
        HandedOut s p { t with headerDirty := true, loadedPageDirty := true })
      (fun _ t => Steady t ∧ SamePages s t) s := by
  by_cases hn : s.header.numPages + 1 < 2 ^ 32
  · refine wp_mono (allocateNew_spec h.coherent hn) ?_ fun _ _ => False.elim
    rintro _ t ⟨rfl, hg⟩
    exact ⟨rfl, hg.handedOut h⟩
  · have hn' : s.header.numPages + 1 = 2 ^ 32 := by
      have := h.coherent.count
      omega
    refine wp_mono (allocateNew_full h.coherent hn') (fun _ _ => False.elim) ?_
    rintro _ t ⟨io, d, rfl, hs⟩
    exact ⟨⟨h.coherent.writeBack hs d, h.link⟩, rfl, fun p hp => hs.image_eq d hp⟩

/-- The page that is handed out is the head of the free list, or the page after the last one. -/
theorem allocatePage_contents (h : Steady s) :
    wp allocatePage (fun g t => g.pageId = nextPageId s ∧ HandedOut s (nextPageId s) t ∧
        t.loadedPageDirty = true)
      (fun _ t => Steady t ∧ SamePages s t) s := by
  unfold allocatePage
  simp only [wp_bind, wp_get, wp_ite, wp_modify, wp_pure]
  split
  next hne =>
    have hid : nextPageId s = asU32 s.header.firstFreePage := if_pos hne
    refine wp_mono (allocateFree_contents h) ?_ fun _ _ => id
    rintro p t ⟨rfl, ht⟩
    exact ⟨hid.symm, hid ▸ ht, trivial⟩
  next he =>
    have hid : nextPageId s = s.header.numPages := if_neg he
    refine wp_mono (allocateNew_contents h) ?_ fun _ _ => id
    rintro p t ⟨rfl, ht⟩
    exact ⟨hid.symm, hid ▸ ht, trivial⟩

end Redbase.Page
