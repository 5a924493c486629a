import Redbase.Page.Links
import Redbase.Page.Lemmas.Recycled

/-!
# The free list with wrapped links

`FreeListed` is the free list of a file whose ids may have any value below the page count: the links
are the ids as signed numbers. Following a link never goes wrong; its sign is seen where it is
compared.
-/

namespace Redbase.Page

open Prog Bytes PageFile ByteIo Linked

variable {I : Type} [ReliableIo I] {s t : PageFile I} {p q : Nat} {l ps : List Nat}

/-- The free list holds the pages `l`, and a page id is stored as `asI32` gives it. -/
structure FreeListed (s : PageFile I) (l : List Nat) : Prop where
  coherent : Coherent s
  chain : Chain (fun p => (s.image p).nextFree) asI32 freeListEnd s.header.firstFreePage l
  nodup : l.Nodup
  lt : ∀ p ∈ l, p < s.header.numPages

theorem Coherent.lt_pageId (h : Coherent s) (hp : p < s.header.numPages) : p < 2 ^ 32 :=
  Nat.lt_trans hp h.count

theorem FreeListed.isI32 (h : FreeListed s l) : IsI32 s.header.firstFreePage := by
  cases l with
  | nil =>
      rw [h.chain.eq_nil]
      decide
  | cons p l =>
      rw [h.chain.head_eq]
      exact isI32_asI32 (h.coherent.lt_pageId (h.lt p (List.mem_cons_self ..)))

/-- Page `p` was disposed of. -/
structure Disposed (s : PageFile I) (p : Nat) (t : PageFile I) : Prop where
  coherent : Coherent t
  header : t.header = { s.header with firstFreePage := asI32 p }
  link : (t.image p).nextFree = s.header.firstFreePage
  others : ∀ q < s.header.numPages, q ≠ p → t.image q = s.image q

theorem disposePage_coherent (h : Coherent s) (hi : IsI32 s.header.firstFreePage)
    (hp : p < s.header.numPages) :
    wp (disposePage p) (fun _ t => (s.image p).nextFree = pageUsed ∧ Disposed s p t)
      (fun e _ => (s.image p).nextFree ≠ pageUsed ∧ e = .pageAlreadyFree p) s := by
  unfold disposePage
  simp only [wp_bind, wp_get, wp_ite, wp_throw, wp_modify]
  refine wp_mono (loadPage_spec h hp) (fun _ t hl => ?_) fun _ _ => False.elim
  simp only [currentPageHeader_of_loaded hl, writeCurrentPageHeader, wp_modify,
    PageFile.setPageData, hl.header]
  split
  next hne => exact ⟨hne, trivial⟩
  next he =>
    refine ⟨not_not.mp he, hl.update h hp _ rfl (by simp), rfl, ?_, fun q hq hne => ?_⟩
    · rw [hl.image_update _ hp, if_pos rfl]
      exact PageBuf.nextFree_writeHeader _ hi
    · rw [hl.image_update _ hq, if_neg hne]

theorem readPage_coherent (h : Coherent s) (hp : p < s.header.numPages) :
    wp (readPage p) (fun _ _ => (s.image p).nextFree = pageUsed)
      (fun e _ => (s.image p).nextFree ≠ pageUsed ∧ e = .invalidPageId p) s := by
  unfold readPage ensureCurrentPageIsUsed
  simp only [wp_bind, wp_get, wp_ite, wp_throw, wp_pure]
  refine wp_mono (loadPage_spec h hp) (fun _ t hl => ?_) fun _ _ => False.elim
  simp only [currentPageHeader_of_loaded hl]
  split
  next hne => exact ⟨hne, trivial⟩
  next he => exact not_not.mp he

/-- Page `p` is answered as a free page just when its link is not the mark of a page in use. -/
theorem reported_iff (h : Coherent s) (hi : IsI32 s.header.firstFreePage)
    (hp : p < s.header.numPages) :
    ((step s (.dispose p)).2 = .failed (.pageAlreadyFree p) ∧
        (step s (.read p)).2 = .failed (.invalidPageId p)) ↔
      (s.image p).nextFree ≠ pageUsed := by
  have hd := disposePage_coherent h hi hp
  have hr := readPage_coherent h hp
  constructor
  · rintro ⟨hdispose, -⟩
    cases hs : disposePage p s with
    | ok _ t => simp [step, unitReply, hs] at hdispose
    | error e t => exact (wp_error hs hd).1
  · intro hne
    constructor
    · cases hs : disposePage p s with
      | ok _ t => exact absurd (wp_ok hs hd).1 hne
      | error e t => simp only [step, unitReply, hs, (wp_error hs hd).2]
    · cases hs : readPage p s with
      | ok _ t => exact absurd (wp_ok hs hr) hne
      | error e t => simp only [step, hs, (wp_error hs hr).2]

theorem step_dispose (h : FreeListed s l) (hp : s.InUse p) :
    ∃ t, step s (.dispose p) = (t, .done) ∧ Disposed s p t := by
  obtain ⟨hlt, hu⟩ := hp
  have hd := disposePage_coherent h.coherent h.isI32 hlt
  cases hs : disposePage p s with
  | ok _ t => exact ⟨t, by simp only [step, unitReply, hs], (wp_ok hs hd).2⟩
  | error e t => exact absurd hu (wp_error hs hd).1

theorem FreeListed.push (h : FreeListed s l) (hd : Disposed s p t) (hp : p < s.header.numPages)
    (hl : p ∉ l) :
    FreeListed t (p :: l) where
  coherent := hd.coherent
  chain := by
    rw [hd.header]
    refine .cons ?_
    rw [hd.link]
    refine h.chain.congr fun q hq => ?_
    have hne : q ≠ p := fun he => hl (he ▸ hq)
    rw [hd.others q (h.lt q hq) hne]
  nodup := List.nodup_cons.mpr ⟨hl, h.nodup⟩
  lt q hq := by
    rw [hd.header]
    rcases List.mem_cons.mp hq with rfl | hq
    · exact hp
    · exact h.lt q hq

theorem steps_dispose (h : FreeListed s l) (hu : ∀ p ∈ ps, s.InUse p) (hl : ∀ p ∈ ps, p ∉ l)
    (hn : ps.Nodup) :
    (steps s (ps.map .dispose)).2 = (ps.map fun _ => Reply.done) ∧
      FreeListed (steps s (ps.map .dispose)).1 (ps.reverse ++ l) ∧
      (steps s (ps.map .dispose)).1.header.numPages = s.header.numPages := by
  induction ps generalizing s l with
  | nil => exact ⟨rfl, h, rfl⟩
  | cons p ps ih =>
      obtain ⟨hp, hps⟩ := List.forall_mem_cons.mp hu
      obtain ⟨hpl, hpsl⟩ := List.forall_mem_cons.mp hl
      obtain ⟨hnot, hn⟩ := List.nodup_cons.mp hn
      obtain ⟨t, hstep, hd⟩ := step_dispose h hp
      have hne : ∀ q ∈ ps, q ≠ p := fun q hq he => hnot (he ▸ hq)
      have hnum : t.header.numPages = s.header.numPages := congrArg (·.numPages) hd.header
      obtain ⟨hdone, hlisted, hcount⟩ := ih (h.push hd hp.1 hpl)
        (fun q hq => by
          obtain ⟨hlt, hused⟩ := hps q hq
          refine ⟨hnum ▸ hlt, ?_⟩
          rw [hd.others q hlt (hne q hq)]
          exact hused)
        (fun q hq hc => by
          rcases List.mem_cons.mp hc with rfl | hc
          · exact hnot hq
          · exact hpsl q hq hc) hn
      simp only [List.map_cons, steps, hstep, hdone, List.reverse_cons, List.append_assoc,
        List.cons_append, List.nil_append, true_and]
      exact ⟨hlisted, hcount.trans hnum⟩

/-- The head of the list is handed out, whatever its sign. -/
theorem FreeListed.pop (h : FreeListed s (p :: l)) (change : PageData → PageData) :
    ∃ t, step s (.allocate change) = (t, .allocated p (Block.zero _)) ∧ FreeListed t l := by
  have hlt := h.lt p (List.mem_cons_self ..)
  have hfirst := h.chain.head_eq
  have hid : asU32 s.header.firstFreePage = p := by
    rw [hfirst, asU32_asI32 (h.coherent.lt_pageId hlt)]
  obtain ⟨t, hstep, hrec⟩ := step_recycles h.coherent (hfirst ▸ asI32_ne_end hlt h.coherent.count)
    (hid ▸ hlt) change
  rw [hid] at hstep hrec
  obtain ⟨hnot, hn⟩ := List.nodup_cons.mp h.nodup
  have hl : ∀ q ∈ l, q < s.header.numPages := fun q hq => h.lt q (List.mem_cons_of_mem _ hq)
  refine ⟨t, hstep, hrec.coherent, ?_, hn, fun q hq => ?_⟩
  · rw [hrec.header]
    refine h.chain.tail.congr fun q hq => ?_
    have hne : q ≠ p := fun he => hnot (he ▸ hq)
    rw [hrec.others q (hl q hq) hne]
  · rw [hrec.header]
    exact hl q hq

theorem FreeListed.handsOut (h : FreeListed s ps.reverse) : HandsOut s ps := by
  have hrun : ∀ (l : List Nat) (s : PageFile I), FreeListed s l →
      ∀ changes : List (PageData → PageData),
      changes.length = l.length →
        (steps s (changes.map .allocate)).2 = l.map fun p => .allocated p (Block.zero _) := by
    intro l
    induction l with
    | nil =>
        intro s _ changes hlen
        rw [List.length_eq_zero_iff.mp hlen]
        rfl
    | cons p l ih =>
        intro s h changes hlen
        cases changes with
        | nil => cases hlen
        | cons change changes =>
            obtain ⟨t, hstep, ht⟩ := h.pop change
            simp only [List.map_cons, steps, hstep]
            rw [ih t ht changes (Nat.succ.inj hlen)]
  intro changes hlen
  exact hrun _ s h changes (by rw [hlen, List.length_reverse])

/-! ## Closing and opening -/

theorem FreeListed.valid_iff (h : FreeListed s l) : s.header.Valid ↔ ∀ p ∈ l.head?, p < 2 ^ 31 := by
  cases l with
  | nil =>
      have hfirst := h.chain.eq_nil
      simp [FileHeader.Valid, hfirst]
  | cons p l =>
      have hlt := h.lt p (List.mem_cons_self ..)
      have hsmall := h.coherent.lt_pageId hlt
      have hcount := h.coherent.count
      have hfirst := h.chain.head_eq
      simp only [FileHeader.Valid, hfirst, asU32_asI32 hsmall, List.head?_cons, Option.mem_some_iff,
        forall_eq']
      constructor
      · rintro ⟨hend, -⟩
        unfold asI32 freeListEnd at hend
        split at hend <;> omega
      · intro hp
        rw [asI32_of_lt hp]
        unfold freeListEnd
        omega

/-- What was flushed is opened just when the head of the list is below `2^31`; the list is the same
then. -/
theorem FreeListed.open_iff (h : FreeListed s l) (hf : Flushed s t) {io : I}
    (hio : content io = content t.io) :
    (∃ u io', PageFile.open io = .ok u io') ↔ ∀ p ∈ l.head?, p < 2 ^ 31 := by
  rw [← h.valid_iff]
  have hread := hf.coherent.stored hf.headerDirty
  rw [hf.header] at hread
  have hlen := hf.coherent.length
  rw [hf.header] at hlen
  constructor
  · rintro ⟨u, io', ho⟩
    have hopened : Opened (content io) u := (wp_ok ho (open_faulty io) :)
    have hvalid := hopened.openable.header
    rwa [hio, hread] at hvalid
  · intro hv
    have hopenable : Openable (content io) := by
      rw [hio]
      exact ⟨hread ▸ hv, hread ▸ hlen⟩
    obtain ⟨u, io', ho, -⟩ := exists_ok_of_wp (open_reliable io hopenable)
    exact ⟨u, io', ho⟩

theorem FreeListed.reopen (h : FreeListed s l) (hf : Flushed s t) {u : PageFile I} {c : List UInt8}
    (ho : Opened c u) (hc : c = content t.io) : FreeListed u l := by
  subst hc
  have hr := ho.reached
  have hread := hf.coherent.stored hf.headerDirty
  rw [hf.header] at hread
  have hheader : u.header = s.header := ho.header.trans hread
  have himg : ∀ q < s.header.numPages, u.image q = s.image q := fun q hq => by
    rw [hr.rest q (hheader ▸ hq) (by simp), hf.pages q hq]
  refine ⟨hr.coherent, ?_, h.nodup, fun q hq => hheader ▸ h.lt q hq⟩
  rw [hheader]
  exact h.chain.congr fun q hq => by rw [himg q (h.lt q hq)]

theorem asI32_eq_used_iff (hp : p < 2 ^ 32) : asI32 p = pageUsed ↔ p = 2 ^ 32 - 2 := by
  unfold asI32 pageUsed
  split <;> omega

/-- What becomes of the pages of a list depends on the head and on the one id that is the mark of a
page in use. -/
theorem FreeListed.survives_iff (h : FreeListed s ps.reverse) :
    ((∀ p ∈ ps, (step s (.dispose p)).2 = .failed (.pageAlreadyFree p) ∧
        (step s (.read p)).2 = .failed (.invalidPageId p)) ∧ HandsOut s ps ∧
      ∃ t, flush s = .ok () t ∧ ∀ io : I, content io = content t.io →
        ∃ u io', PageFile.open io = .ok u io' ∧
        HandsOut u ps) ↔ (∀ p ∈ ps.getLast?, p < 2 ^ 31) ∧ ∀ p ∈ ps, p ≠ 2 ^ 32 - 2 := by
  obtain ⟨_, t, hflush, hf⟩ := exists_ok_of_wp (flush_spec h.coherent h.isI32)
  have hopen : ∀ io : I, content io = content t.io →
      ((∃ u io', PageFile.open io = .ok u io') ↔ ∀ p ∈ ps.getLast?, p < 2 ^ 31) := fun io hio => by
    rw [h.open_iff hf hio, List.head?_reverse]
  have hlt : ∀ p ∈ ps, p < s.header.numPages := fun p hp => h.lt p (List.mem_reverse.mpr hp)
  have hreported : (∀ p ∈ ps, (step s (.dispose p)).2 = .failed (.pageAlreadyFree p) ∧
      (step s (.read p)).2 = .failed (.invalidPageId p)) ↔
        ∀ p ∈ ps.reverse.tail, p ≠ 2 ^ 32 - 2 := by
    have hlinks := h.chain.forall_link_iff (P := (· ≠ pageUsed)) (by decide)
    have hids : ∀ p ∈ ps.reverse.tail, (asI32 p ≠ pageUsed ↔ p ≠ 2 ^ 32 - 2) := fun p hp =>
      not_congr (asI32_eq_used_iff (h.coherent.lt_pageId (h.lt p (List.mem_of_mem_tail hp))))
    rw [forall₂_congr hids] at hlinks
    rw [← hlinks]
    simp only [List.mem_reverse]
    exact forall₂_congr fun p hp => reported_iff h.coherent h.isI32 (hlt p hp)
  rw [hreported]
  constructor
  · rintro ⟨htail, -, t', hflush', hreopen⟩
    rw [hflush] at hflush'
    cases hflush'
    obtain ⟨u, io', ho, -⟩ := hreopen t.io rfl
    have hlast := (hopen t.io rfl).mp ⟨u, io', ho⟩
    refine ⟨hlast, fun p hp => ?_⟩
    rw [← List.head?_reverse] at hlast
    rw [← List.mem_reverse] at hp
    cases hr : ps.reverse with
    | nil => simp [hr] at hp
    | cons q l =>
        rw [hr] at hp hlast htail
        rcases List.mem_cons.mp hp with rfl | hp
        · have hsmall := hlast p rfl
          omega
        · exact htail p hp
  · rintro ⟨hlast, hids⟩
    refine ⟨fun p hp => hids p (List.mem_reverse.mp (List.mem_of_mem_tail hp)),
      h.handsOut, t, hflush, fun io hio => ?_⟩
    obtain ⟨u, io', ho⟩ := (hopen io hio).mpr hlast
    have hopened : Opened (content io) u := (wp_ok ho (open_faulty io) :)
    exact ⟨u, io', ho, (h.reopen hf hopened hio).handsOut⟩

/-! ## Files of any size -/

theorem Coherent.setPageData (h : Coherent s) (hd : s.loadedPageDirty = true) (d : PageData) :
    Coherent (s.setPageData d) where
  length := h.length
  loaded := h.loaded
  clean hc := by
    rw [show (s.setPageData d).loadedPageDirty = true from hd] at hc
    cases hc
  stored := h.stored
  count := h.count

/-- The file grows by a page in use. -/
theorem step_grows (h : Coherent s) (he : s.header.firstFreePage = freeListEnd)
    (hn : s.header.numPages + 1 < 2 ^ 32) (change : PageData → PageData) :
    Coherent (step s (.allocate change)).1 ∧
      (step s (.allocate change)).1.header = { s.header with numPages := s.header.numPages + 1 } ∧
      ∀ p ≤ s.header.numPages, (p < s.header.numPages → s.InUse p) →
        (step s (.allocate change)).1.InUse p := by
  have hspec : wp allocatePage (fun _ t => Grown s t ∧ t.loadedPageDirty = true) never s := by
    unfold allocatePage
    simp only [wp_bind, wp_get, wp_ite, wp_modify, wp_pure, he, ne_eq, not_true, if_false]
    exact wp_mono (allocateNew_spec h hn) (fun _ _ hg => ⟨hg.2, trivial⟩) fun _ _ => False.elim
  obtain ⟨g, t, hok, hg, hdirty⟩ := exists_ok_of_wp hspec
  have hstep : (step s (.allocate change)).1 = t.setPageData (change g.data) := by
    simp only [step, hok, guardReply]
  have hlink : ∀ q, ((t.setPageData (change g.data)).image q).nextFree = (t.image q).nextFree :=
    fun q => by
    by_cases hq : t.loadedPageId = some q
    · have hnew : (t.setPageData (change g.data)).image q =
          t.loadedPage.write pageHeaderSize (change g.data).bytes := if_pos hq
      have hold : t.image q = t.loadedPage := if_pos hq
      rw [hnew, hold, PageBuf.nextFree_writeData]
    · have hnew : (t.setPageData (change g.data)).image q = pageAt (content t.io) q := if_neg hq
      have hold : t.image q = pageAt (content t.io) q := if_neg hq
      rw [hnew, hold]
  rw [hstep]
  refine ⟨hg.coherent.setPageData hdirty _, hg.header, fun p hp hu => ⟨?_, ?_⟩⟩
  · rw [show (t.setPageData (change g.data)).header = _ from hg.header]
    exact Nat.lt_succ_of_le hp
  · rw [hlink]
    rcases Nat.lt_or_eq_of_le hp with hlt | rfl
    · rw [hg.image p hlt]
      exact (hu hlt).2
    · rw [hg.image_new]
      exact PageBuf.nextFree_writeHeader _ (by unfold IsI32 PageHeader.used; decide)

theorem steps_grow (h : Coherent s) (he : s.header.firstFreePage = freeListEnd) (n : Nat)
    (hn : s.header.numPages + n < 2 ^ 32) (hu : ∀ p < s.header.numPages, s.InUse p) :
    Coherent (steps s (List.replicate n (.allocate id))).1 ∧
      (steps s (List.replicate n (.allocate id))).1.header =
        { s.header with numPages := s.header.numPages + n } ∧
      ∀ p < s.header.numPages + n, (steps s (List.replicate n (.allocate id))).1.InUse p := by
  induction n generalizing s with
  | zero => exact ⟨h, rfl, hu⟩
  | succ n ih =>
      obtain ⟨hc, hh, hused⟩ := step_grows h he (by omega) id
      have hnum : (step s (.allocate id)).1.header.numPages = s.header.numPages + 1 := by rw [hh]
      obtain ⟨hc', hh', hused'⟩ := ih hc (by rw [hh]; exact he) (by rw [hnum]; omega) fun p hp =>
        hused p (by omega) (hu p)
      rw [hnum] at hused'
      rw [List.replicate_succ, steps]
      refine ⟨hc', ?_, fun p hp => hused' p (by omega)⟩
      rw [hh', hh]
      simp only [FileHeader.mk.injEq, true_and]
      omega

/-- A file with `n` pages, all of them in use. -/
theorem exists_filled {n : Nat} (hn : n < 2 ^ 32) :
    ∃ s : PageFile DiskPageIo, PageFile.create ⟨[]⟩ = .ok () s ∧
      Coherent (steps s (List.replicate n (.allocate id))).1 ∧
      (steps s (List.replicate n (.allocate id))).1.header = ⟨freeListEnd, n⟩ ∧
      ∀ p < n, (steps s (List.replicate n (.allocate id))).1.InUse p := by
  obtain ⟨s, hs, hrep⟩ := create_spec (DiskPageIo.mk [])
  have hheader : s.header = ⟨freeListEnd, 0⟩ := (create_faulty hs).2.1
  obtain ⟨hc, hh, hu⟩ := steps_grow hrep.coherent (by rw [hheader]) n (by simpa [hheader] using hn)
    (by simp [hheader])
  simp only [hheader, Nat.zero_add] at hh hu
  exact ⟨s, hs, hc, hh, hu⟩

end Redbase.Page
