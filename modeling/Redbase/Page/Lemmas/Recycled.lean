import Redbase.Page.Recycled
import Redbase.Page.Lemmas.Faults

/-!
# Following the free list of an opened file

`Walked` is the invariant of the allocations on a file whose free list is clear: the pages handed
out so far are those the list has come to, and every other page of the image is untouched.
Conversely, without failures, allocations come to every page of the list.
-/

namespace Redbase.Page

open Prog Bytes PageFile ByteIo

section Walk

variable {I : Type} [ByteIo I] {s t u : PageFile I} {c : List UInt8} {l : List Nat} {p : Nat}

/-- From `link` on the list comes to no page twice, to none of `l` and to none that is marked as
used. -/
def ClearFrom (c : List UInt8) (l : List Nat) (link : Int) : Prop :=
  ∀ k, (freeLinks c k link).Nodup ∧
    ∀ p ∈ freeLinks c k link, p ∉ l ∧ (pageAt c p).nextFree ≠ pageUsed

theorem freeListClear_iff :
    FreeListClear c ↔ ClearFrom c [] (FileHeader.read (headerAt c)).firstFreePage := by
  simp [FreeListClear, ClearFrom]

theorem freeLinks_succ {link : Int} (hl : link ≠ freeListEnd)
    (hp : asU32 link < (FileHeader.read (headerAt c)).numPages) (k : Nat) :
    freeLinks c (k + 1) link = asU32 link :: freeLinks c k (pageAt c (asU32 link)).nextFree := by
  rw [freeLinks, if_neg]
  simp [hl, hp]

theorem ClearFrom.tail {link : Int} (h : ClearFrom c l link) (hl : link ≠ freeListEnd)
    (hp : asU32 link < (FileHeader.read (headerAt c)).numPages) :
    asU32 link ∉ l ∧ (pageAt c (asU32 link)).nextFree ≠ pageUsed ∧
      ClearFrom c (asU32 link :: l) (pageAt c (asU32 link)).nextFree := by
  have hk : ∀ k, (asU32 link :: freeLinks c k (pageAt c (asU32 link)).nextFree).Nodup ∧
      ∀ p ∈ asU32 link :: freeLinks c k (pageAt c (asU32 link)).nextFree,
        p ∉ l ∧ (pageAt c p).nextFree ≠ pageUsed := fun k => by
    rw [← freeLinks_succ hl hp]
    exact h (k + 1)
  obtain ⟨hmem, hused⟩ := (hk 0).2 _ (List.mem_cons_self ..)
  refine ⟨hmem, hused, fun k => ?_⟩
  obtain ⟨hnodup, hall⟩ := hk k
  obtain ⟨hnot, hrest⟩ := List.nodup_cons.mp hnodup
  refine ⟨hrest, fun p hp => ?_⟩
  obtain ⟨hpl, hpu⟩ := hall p (List.mem_cons_of_mem _ hp)
  refine ⟨fun hc => ?_, hpu⟩
  rcases List.mem_cons.mp hc with rfl | hc
  · exact hnot hp
  · exact hpl hc

/-- The allocations on a file opened with the bytes `c` have handed out the pages `l` of its free
list. -/
structure Walked (c : List UInt8) (l : List Nat) (t : PageFile I) : Prop where
  sane : Sane t
  count : (FileHeader.read (headerAt c)).numPages ≤ t.header.numPages
  listed : t.header.firstFreePage ≠ freeListEnd →
    t.header.numPages = (FileHeader.read (headerAt c)).numPages
  ahead : ClearFrom c l t.header.firstFreePage
  unused : ∀ p ∈ l, (pageAt c p).nextFree ≠ pageUsed
  rest : ∀ p < (FileHeader.read (headerAt c)).numPages, t.Within p ∧
    (p ∉ l → t.loadedPageId ≠ some p ∧ pageAt (content t.io) p = pageAt c p)

theorem Openable.within (h : Openable c) (hc : content s.io = c)
    (hp : p < (FileHeader.read (headerAt c)).numPages) : s.Within p := by
  have hlen := h.length
  simp only [PageFile.Within, hc, fileHeaderSize, pageSize] at hlen ⊢
  omega

theorem Opened.walked (h : Opened c s) (hc : FreeListClear c) : Walked c [] s where
  sane := h.sane
  count := Nat.le_of_eq (congrArg (·.numPages) h.header.symm)
  listed _ := congrArg (·.numPages) h.header
  ahead := by
    rw [h.header]
    exact freeListClear_iff.mp hc
  unused p hp := by cases hp
  rest p hp := by
    refine ⟨h.openable.within h.content hp, fun _ => ⟨?_, ?_⟩⟩
    · simp [h.loadedPageId]
    · rw [h.content]

theorem Walked.keepsUsed (h : Walked c l t) : KeepsUsed c t := by
  intro p hp hu
  have hl : p ∉ l := fun hl => h.unused p hl hu
  obtain ⟨hid, hpage⟩ := (h.rest p hp).2 hl
  exact ⟨by rw [PageFile.image, if_neg hid, hpage], hpage⟩

theorem Same.stored_eq (h : Same s t) (hl : s.loadedPageId ≠ some p) :
    pageAt (content t.io) p = pageAt (content s.io) p := by
  rcases h.stored p with he | he
  · exact he
  · rw [he, PageFile.kept, if_neg fun hc => hl hc.1]

/-- Pages may be written back and the count may grow. -/
theorem Walked.of_same (h : Walked c l s) (hs : Sane t) (hid : t.loadedPageId = s.loadedPageId)
    (hn : s.header.numPages ≤ t.header.numPages)
    (hf : t.header.firstFreePage = s.header.firstFreePage)
    (hg : s.header.firstFreePage ≠ freeListEnd → t.header.numPages = s.header.numPages)
    (hlen : (content t.io).length = (content s.io).length)
    (hp : ∀ p, s.loadedPageId ≠ some p → pageAt (content t.io) p = pageAt (content s.io) p) :
    Walked c l t where
  sane := hs
  count := Nat.le_trans h.count hn
  listed hne := by
    rw [hf] at hne
    rw [hg hne, h.listed hne]
  ahead := by
    rw [hf]
    exact h.ahead
  unused := h.unused
  rest p hlt := by
    obtain ⟨hw, hrest⟩ := h.rest p hlt
    refine ⟨?_, fun hl => ?_⟩
    · rw [PageFile.Within, hlen]
      exact hw
    · obtain ⟨hne, hpage⟩ := hrest hl
      rw [hid, hp p hne]
      exact ⟨hne, hpage⟩

theorem AllocateFailure.walked {e : PageStoreError} (h : Walked c l s)
    (hf : AllocateFailure s e t) :
    Walked c l t := by
  have hsame : Same s t → Sane t → t.loadedPageId = s.loadedPageId → Walked c l t := by
    intro hs hsane hid
    exact h.of_same hsane hid (Nat.le_of_eq (congrArg (·.numPages) hs.header.symm))
      (congrArg (·.firstFreePage) hs.header) (fun _ => congrArg (·.numPages) hs.header) hs.length
      fun p hp => hs.stored_eq hp
  cases hf with
  | load _ hl => exact hsame hl.same (hl.sane h.sane) hl.loadedPageId
  | @write _ io hio =>
      have hs : Same s { s with io } := Same.of_io hio
      exact hsame hs (h.sane.of_same hs fun p hp =>
          ⟨(h.sane.loaded p hp).1, hs.within (h.sane.loaded p hp).2⟩)
        rfl
  | full hw => exact hsame hw.same (hw.sane h.sane) hw.loadedPageId
  | @grow _ w io he hlt hw _ hio =>
      have hlen : (content io).length = (content s.io).length :=
        (congrArg List.length hio).trans hw.same.length
      refine h.of_same ⟨hlt, h.sane.link, hlen ▸ h.sane.header, fun p hp => ?_⟩ hw.loadedPageId
        (Nat.le_succ _) rfl (fun hne => absurd he hne) hlen fun p hp => ?_
      · obtain ⟨hn, hin⟩ := h.sane.loaded p (hw.loadedPageId ▸ hp)
        refine ⟨Nat.lt_succ_of_lt hn, ?_⟩
        simp only [PageFile.Within, hlen]
        exact hin
      · simp only [hio]
        exact hw.same.stored_eq hp

/-- What is stored of a page that is neither resident nor edited does not change. -/
theorem Edited.stored_eq {b : PageBuf} {q : Nat} (he : Edited s p b t) (hq : q < s.header.numPages)
    (hw : s.Within q) (hl : s.loadedPageId ≠ some q) :
    pageAt (content t.io) q = pageAt (content s.io) q := by
  rcases (he.others q hq hw).2.2 with h | h
  · exact h
  · rw [h, PageFile.kept, if_neg fun hc => hl hc.1]

/-- A page is handed out: the next one of the list, which is free, or a new one. -/
theorem Allocated.walked {b : PageBuf} (h : Walked c l s) (he : Edited s p b t)
    (ha : Allocated s p t) :
    (s.header.numPages ≤ p ∨
      (s.image p).nextFree ≠ pageUsed ∧ (pageAt (content s.io) p).nextFree ≠ pageUsed) ∧
      ∃ l', Walked c l' t := by
  have hsane : Sane t := he.sane (ha.header_bounds h.sane).1 (ha.header_bounds h.sane).2.1
  have hn := (ha.header_bounds h.sane).2.2
  have hrest : ∀ q < (FileHeader.read (headerAt c)).numPages, t.Within q ∧
      (q ∉ l → q ≠ p → t.loadedPageId ≠ some q ∧ pageAt (content t.io) q = pageAt c q) := by
    intro q hq
    obtain ⟨hw, hkeep⟩ := h.rest q hq
    have hlt := Nat.lt_of_lt_of_le hq h.count
    refine ⟨(he.others q hlt hw).1, fun hl hne => ⟨?_, ?_⟩⟩
    · rw [he.loadedPageId, Ne, Option.some.injEq]
      exact Ne.symm hne
    · rw [he.stored_eq hlt hw (hkeep hl).1, (hkeep hl).2]
  cases ha with
  | grown hend hp hlt hh hlen =>
      refine ⟨Or.inl (Nat.le_of_eq hp.symm), l, hsane, Nat.le_trans h.count hn,
        fun hne => ?_, ?_, h.unused, fun q hq => ⟨(hrest q hq).1, fun hl => (hrest q hq).2 hl ?_⟩⟩
      · rw [hh] at hne
        exact absurd hend hne
      · rw [hh]
        exact h.ahead
      · rw [hp]
        exact Nat.ne_of_lt (Nat.lt_of_lt_of_le hq h.count)
  | recycled hne hp hlt hh =>
      rw [h.listed hne, hp] at hlt
      obtain ⟨hmem, hused, hahead⟩ := h.ahead.tail hne hlt
      rw [← hp] at hlt hmem hused hahead
      obtain ⟨-, hkeep⟩ := h.rest p hlt
      obtain ⟨hid, hpage⟩ := hkeep hmem
      have himg : s.image p = pageAt c p := by rw [PageFile.image, if_neg hid, hpage]
      refine ⟨Or.inr ⟨himg ▸ hused, hpage ▸ hused⟩, p :: l, hsane, Nat.le_trans h.count hn,
        fun _ => ?_, ?_, fun q hq => ?_, fun q hq => ⟨(hrest q hq).1, fun hl => ?_⟩⟩
      · rw [hh]
        exact h.listed hne
      · rw [hh, himg]
        exact hahead
      · rcases List.mem_cons.mp hq with rfl | hq
        · exact hused
        · exact h.unused q hq
      · simp only [List.mem_cons, not_or] at hl
        exact (hrest q hq).2 hl.2 hl.1

theorem Walked.allocate (h : Walked c l t) (change : PageData → PageData) :
    HandsOutFree t ∧ ∃ l', Walked c l' (step t (.allocate change)).1 := by
  have hstep : ∀ change, (∀ p d, (step t (.allocate change)).2 = .allocated p d →
      t.header.numPages ≤ p ∨
      (t.image p).nextFree ≠ pageUsed ∧ (pageAt (content t.io) p).nextFree ≠ pageUsed) ∧
      ∃ l', Walked c l' (step t (.allocate change)).1 := by
    intro change
    have hspec := allocatePage_faulty h.sane
    cases hr : allocatePage t with
    | error e u =>
        simp only [step, hr, guardReply]
        refine ⟨fun p d hc => ?_, l, (wp_error hr hspec).walked h⟩
        cases hc
    | ok g u =>
        obtain ⟨b, -, -, he, ha, -⟩ := wp_ok hr hspec
        obtain ⟨hfree, hw⟩ := Allocated.walked h (he.setPageData (change g.data)) (ha.congr rfl rfl)
        simp only [step, hr, guardReply, Reply.allocated.injEq]
        refine ⟨?_, hw⟩
        rintro p d ⟨rfl, -⟩
        exact hfree
  exact ⟨fun change => (hstep change).1, (hstep change).2⟩

theorem Allocating.walked (ha : Allocating s t) (h : ∃ l, Walked c l s) : ∃ l, Walked c l t := by
  induction ha with
  | start => exact h
  | step change _ ih =>
      obtain ⟨l, hl⟩ := ih
      exact (hl.allocate change).2

end Walk

theorem FreeListClear.neverRecycles {c : List UInt8} (hc : FreeListClear c) : NeverRecycles c := by
  intro I _ io io' s t hio hopen ha
  have ho : Opened (content io) s := (wp_ok hopen (open_faulty io) :)
  rw [hio] at ho
  obtain ⟨l, hl⟩ := ha.walked ⟨[], ho.walked hc⟩
  exact ⟨(hl.allocate id).1, hl.keepsUsed⟩

/-! ## Without failures -/

section Reliable

variable {I : Type} [ReliableIo I] {s : PageFile I} {c : List UInt8} {l : List Nat}

/-- The head of the list is handed out and its link becomes the new head. -/
structure Recycled (s : PageFile I) (p : Nat) (t : PageFile I) : Prop where
  coherent : Coherent t
  header : t.header = { s.header with firstFreePage := (s.image p).nextFree }
  used : (t.image p).nextFree = pageUsed
  others : ∀ q < s.header.numPages, q ≠ p → t.image q = s.image q

theorem Loaded.recycled {t : PageFile I} {p : Nat} (hl : Loaded s p t) (h : Coherent s)
    (hp : p < s.header.numPages) {b : PageBuf} (hb : b.nextFree = pageUsed) :
    Recycled s p { t with header := { s.header with firstFreePage := (s.image p).nextFree },
                          headerDirty := true, loadedPage := b, loadedPageDirty := true } where
  coherent := hl.update h hp b rfl fun hc => by cases hc
  header := rfl
  used := by rw [hl.image_update b hp, if_pos rfl, hb]
  others q hq hne := by rw [hl.image_update b hq, if_neg hne]

theorem step_recycles (h : Coherent s) (hne : s.header.firstFreePage ≠ freeListEnd)
    (hp : asU32 s.header.firstFreePage < s.header.numPages) (change : PageData → PageData) :
    ∃ t, step s (.allocate change) = (t, .allocated (asU32 s.header.firstFreePage) (Block.zero _)) ∧
      Recycled s (asU32 s.header.firstFreePage) t := by
  have hspec : wp allocatePage (fun g t => g = ⟨asU32 s.header.firstFreePage, Block.zero _⟩ ∧
      ∀ d, Recycled s (asU32 s.header.firstFreePage) (t.setPageData d)) never s := by
    unfold allocatePage allocateFree
    simp only [wp_bind, wp_get, wp_ite, wp_modify, if_pos hne]
    refine wp_mono (loadPage_spec h hp) (fun _ t hl => ?_) fun _ _ => False.elim
    simp only [wp_modify, writeCurrentPageHeader, wp_pure, PageFile.setPageData,
      PageGuard.mk.injEq, true_and, currentPageHeader_of_loaded hl, hl.header]
    refine ⟨(fresh_page _).2, fun d => hl.recycled h hp ?_⟩
    rw [PageBuf.nextFree_writeData]
    exact (fresh_page _).1
  obtain ⟨g, t, hok, rfl, hrec⟩ := exists_ok_of_wp hspec
  refine ⟨t.setPageData (change (Block.zero _)), ?_, hrec _⟩
  simp only [step, hok, guardReply]

/-- The pages of `l` are in use and every other page is shown as the bytes `c` have it. -/
structure Reached (c : List UInt8) (l : List Nat) (s : PageFile I) : Prop where
  coherent : Coherent s
  numPages : s.header.numPages = (FileHeader.read (headerAt c)).numPages
  used : ∀ p ∈ l, (s.image p).nextFree = pageUsed
  rest : ∀ p < s.header.numPages, p ∉ l → s.image p = pageAt c p

theorem Recycled.reached {t : PageFile I} {p : Nat} (hr : Recycled s p t) (h : Reached c l s)
    (hl : ∀ q ∈ l, q < s.header.numPages) (hp : p ∉ l) : Reached c (p :: l) t where
  coherent := hr.coherent
  numPages := by
    rw [hr.header]
    exact h.numPages
  used q hq := by
    rcases List.mem_cons.mp hq with rfl | hq
    · exact hr.used
    · have hne : q ≠ p := fun he => hp (he ▸ hq)
      rw [hr.others q (hl q hq) hne, h.used q hq]
  rest q hlt hq := by
    rw [hr.header] at hlt
    simp only [List.mem_cons, not_or] at hq
    rw [hr.others q hlt hq.1, h.rest q hlt hq.2]

/-- When no allocation recycles a page in use, the list is clear as far as `k` more allocations see
it. -/
theorem Reached.clear (h : Reached c l s) (hl : ∀ p ∈ l, p < s.header.numPages)
    (hfree : ∀ t, Allocating s t → HandsOutFree t) (k : Nat) :
    (freeLinks c k s.header.firstFreePage).Nodup ∧ ∀ p ∈ freeLinks c k s.header.firstFreePage,
      p ∉ l ∧ (pageAt c p).nextFree ≠ pageUsed := by
  induction k generalizing s l with
  | zero => simp [freeLinks]
  | succ k ih =>
      by_cases hstop : s.header.firstFreePage = freeListEnd ∨
          (FileHeader.read (headerAt c)).numPages ≤ asU32 s.header.firstFreePage
      · simp [freeLinks, hstop]
      · obtain ⟨hne, hlt⟩ := not_or.mp hstop
        rw [← h.numPages, Nat.not_le] at hlt
        obtain ⟨t, hstep, hrec⟩ := step_recycles h.coherent hne hlt id
        have hreply := congrArg (·.2) hstep
        have hunused : (s.image (asU32 s.header.firstFreePage)).nextFree ≠ pageUsed := by
          rcases hfree s .start id _ _ hreply with hge | ⟨hu, -⟩
          · exact absurd hlt (Nat.not_lt.mpr hge)
          · exact hu
        have hmem : asU32 s.header.firstFreePage ∉ l := fun hm => hunused (h.used _ hm)
        have himg := h.rest _ hlt hmem
        have ht := hrec.reached h hl hmem
        have hlater : ∀ u, Allocating t u → HandsOutFree u := fun u hu => by
          have hs : (step s (.allocate id)).1 = t := by rw [hstep]
          rw [← hs] at hu
          exact hfree u hu.head
        have hbound : ∀ q ∈ asU32 s.header.firstFreePage :: l, q < t.header.numPages := by
          rw [hrec.header]
          intro q hq
          rcases List.mem_cons.mp hq with rfl | hq
          · exact hlt
          · exact hl q hq
        obtain ⟨hnodup, hall⟩ := ih ht hbound hlater
        rw [hrec.header, himg] at hnodup hall
        rw [freeLinks_succ hne (h.numPages ▸ hlt)]
        refine ⟨List.nodup_cons.mpr ⟨fun hc => (hall _ hc).1 (List.mem_cons_self ..), hnodup⟩, ?_⟩
        intro q hq
        rcases List.mem_cons.mp hq with rfl | hq
        · exact ⟨hmem, himg ▸ hunused⟩
        · exact ⟨fun hc => (hall q hq).1 (List.mem_cons_of_mem _ hc), (hall q hq).2⟩

theorem not_freeListClear {header : FileHeader} {p : Nat}
    (hh : FileHeader.read (headerAt c) = header) (hne : header.firstFreePage ≠ freeListEnd)
    (hid : asU32 header.firstFreePage = p) (hlt : p < header.numPages)
    (hu : (pageAt c p).nextFree = pageUsed) : ¬ FreeListClear c := by
  subst hh hid
  intro h
  obtain ⟨-, hused, -⟩ := (freeListClear_iff.mp h).tail hne hlt
  exact hused hu

/-- On a well-formed chain the links give the pages of the chain. -/
theorem freeLinks_eq_take {next : Nat → Int} {link : Int}
    (hch : Linked.Chain next Page.link freeListEnd link l)
    (hl : ∀ p ∈ l, p < 2 ^ 31 ∧ p < (FileHeader.read (headerAt c)).numPages ∧
      (pageAt c p).nextFree = next p) (k : Nat) : freeLinks c k link = l.take k := by
  induction hch generalizing k with
  | nil => cases k <;> simp [freeLinks]
  | @cons p l _ ih =>
      obtain ⟨hsmall, hlt, hnext⟩ := hl p (List.mem_cons_self ..)
      have hid : asU32 (Page.link p) = p := by
        rw [Page.link, asU32]
        omega
      have hne : Page.link p ≠ freeListEnd := by
        simp only [Page.link, freeListEnd]
        omega
      cases k with
      | zero => rfl
      | succ k =>
          rw [freeLinks_succ hne (hid.symm ▸ hlt), hid, hnext, List.take_succ_cons,
            ih fun q hq => hl q (List.mem_cons_of_mem _ hq)]

/-- What a flush leaves can be opened, and its free list is clear. -/
theorem Flushed.freeListClear {t : PageFile I} {st : Store} (hf : Flushed s t)
    (h : Represents s st) :
    Openable (content t.io) ∧ FreeListClear (content t.io) := by
  have hread : FileHeader.read (headerAt (content t.io)) = s.header := by
    rw [hf.coherent.stored hf.headerDirty, hf.header]
  have hlen := hf.coherent.length
  rw [hf.header] at hlen
  have hlt : ∀ p ∈ st.free, p < s.header.numPages := fun p hp => h.numPages ▸ st.free_lt p hp
  have htake := freeLinks_eq_take (c := content t.io) h.chain fun p hp => by
    rw [hread, hf.pages p (hlt p hp)]
    exact ⟨h.small p hp, hlt p hp, rfl⟩
  refine ⟨⟨hread ▸ h.header_valid, hread ▸ hlen⟩, fun k => ?_⟩
  rw [hread, htake k]
  refine ⟨st.free_nodup.sublist (List.take_sublist ..), fun p hp => ?_⟩
  have hp := List.mem_of_mem_take hp
  rw [hf.pages p (hlt p hp)]
  exact (h.free_iff (hlt p hp)).mp hp

theorem Represents.sane {st : Store} (h : Represents s st) : Sane s where
  count := h.coherent.count
  link := h.link_isI32
  header := h.coherent.header_le
  loaded p hp := ⟨h.coherent.loaded p hp, h.coherent.page_le (h.coherent.loaded p hp)⟩

theorem step_flush_stored {st : Store} (h : Represents s st) :
    FileHeader.read (headerAt (content (step s .flush).1.io)) = (step s .flush).1.header := by
  obtain ⟨_, t, hok, -, hf⟩ := exists_ok_of_wp (flush_store_spec h)
  simp only [step, hok, unitReply]
  exact hf.coherent.stored hf.headerDirty

/-- Loading another page writes the resident one back. -/
theorem readPage_stores {st : Store} {p : Nat} (h : Represents s st) (hu : st.InUse p) :
    wp (readPage p) (fun _ t => Loaded s p t) never s := by
  unfold readPage
  simp only [wp_bind, wp_get, wp_pure]
  refine wp_mono (loadPage_used_spec h) (fun _ u hload => ?_) fun _ _ he => he.2.1 hu
  exact wp_mono hload (fun _ _ ht => ht.2) fun _ _ he => he.2.1 hu

/-- A free page is handed out and another page is read: the page is stored, the file header is
not. -/
theorem header_stale {st : Store} {p q : Nat} {free : List Nat} (h : Represents s st)
    (hd : FileHeader.read (headerAt (content s.io)) = s.header) (hp : st.free = p :: free)
    (hq : st.InUse q) (change : PageData → PageData) :
    FileHeader.read (headerAt (content (step (step s (.allocate change)).1 (.read q)).1.io)) =
      s.header ∧ Openable (content (step (step s (.allocate change)).1 (.read q)).1.io) ∧
      pageAt (content (step (step s (.allocate change)).1 (.read q)).1.io) p =
        (step s (.allocate change)).1.image p ∧
      s.header.firstFreePage ≠ freeListEnd ∧ asU32 s.header.firstFreePage = p ∧
      p < s.header.numPages := by
  have hid : st.nextId = p := by simp [Store.nextId, hp]
  have hpf : p ∈ st.free := by simp [hp]
  obtain ⟨g, t, halloc, ⟨rfl, ht, hguard⟩, b, -, -, he, -⟩ := exists_ok_of_wp
    (wp_mono (wp_and (allocatePage_spec h) (allocatePage_faulty h.sane)) (fun _ _ hg => hg)
      fun _ _ hc => by simp [hp] at hc)
  obtain ⟨hu, -⟩ := ht.setPageData hguard (change (Block.zero _))
  have hstep : (step s (.allocate change)).1 = t.setPageData (change (Block.zero _)) := by
    simp only [step, halloc, guardReply]
  have hqp : q ≠ p := fun hc => hq.2 (hc ▸ hpf)
  have hq' : (st.allocate.write st.nextId (change (Block.zero _))).InUse q := by
    rw [Store.inUse_write, Store.inUse_allocate]
    exact Or.inr hq
  obtain ⟨g', v, hread, hl⟩ := exists_ok_of_wp (readPage_stores hu hq')
  have hn : (t.setPageData (change (Block.zero _))).header.numPages = s.header.numPages := by
    rw [hu.numPages, h.numPages]
    simp [Store.write, Store.allocate, hp]
  have hlt : p < (t.setPageData (change (Block.zero _))).header.numPages := by
    rw [hn, h.numPages]
    exact st.free_lt p hpf
  have hheader : FileHeader.read (headerAt (content v.io)) = s.header := by
    rw [hl.stored, ← hd]
    exact congrArg FileHeader.read he.fileHeader
  have hvalid := h.header_valid
  have hlen := hu.coherent.length
  rw [hstep]
  simp only [step, hread]
  have hlink : s.header.firstFreePage = link p := (hp ▸ h.chain).head_eq
  have hsmall := h.small p hpf
  refine ⟨hheader, ⟨hheader ▸ hvalid, ?_⟩, hl.others p hlt (Ne.symm hqp), ?_, ?_, hn ▸ hlt⟩
  · rw [hheader, hl.length, ← hn]
    exact hlen
  · rw [hlink]
    simp only [link, freeListEnd]
    omega
  · rw [hlink, link, asU32]
    omega

theorem Opened.reached (h : Opened c s) : Reached c [] s where
  coherent := by
    refine ⟨?_, fun p hp => ?_, fun _ p hp => ?_, fun _ => ?_, h.sane.count⟩
    · rw [h.content, h.header]
      exact h.openable.length
    · rw [h.loadedPageId] at hp
      cases hp
    · rw [h.loadedPageId] at hp
      cases hp
    · rw [h.content, h.header]
  numPages := congrArg (·.numPages) h.header
  used p hp := by cases hp
  rest p _ _ := by rw [PageFile.image, if_neg (by simp [h.loadedPageId]), h.content]

end Reliable

theorem NeverRecycles.freeListClear {c : List UInt8} (h : NeverRecycles c) (hc : Openable c) :
    FreeListClear c := by
  obtain ⟨s, io, hopen, ho⟩ := exists_ok_of_wp (open_reliable (DiskPageIo.mk c) hc)
  have hclear := ho.reached.clear (fun p hp => by cases hp) fun t ht => (h _ _ _ s t rfl hopen ht).1
  rw [ho.header] at hclear
  exact freeListClear_iff.mpr hclear

end Redbase.Page
