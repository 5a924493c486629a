import Redbase.Page.Lemmas.Faults

/-!
# The free list when calls fail

`Threaded s free` says that the free list of the file `s` is `free`, read off the links alone. It
survives every failed call that leaves the page count and the link of the resident page.
-/

namespace Redbase.Page

open Prog Bytes PageFile ByteIo Linked Function

variable {I : Type} [ByteIo I] {s t u : PageFile I} {p q : Nat} {free free' : List Nat}

structure Threaded (s : PageFile I) (free : List Nat) : Prop where
  sane : Sane s
  length : fileHeaderSize + s.header.numPages * pageSize ≤ (content s.io).length
  stored : s.headerDirty = false → FileHeader.read (headerAt (content s.io)) = s.header
  buffer : ∀ p, s.loadedPageId = some p → s.loadedPage.nextFree = (s.kept p).nextFree
  chain : Chain (fun p => (s.kept p).nextFree) link freeListEnd s.header.firstFreePage free
  nodup : free.Nodup
  small : ∀ p ∈ free, p < s.header.numPages ∧ p < 2 ^ 31
  used : ∀ p < s.header.numPages, p ∉ free → (s.kept p).nextFree = pageUsed

namespace Threaded

theorem within (h : Threaded s free) (hp : p < s.header.numPages) : s.Within p := by
  have := h.length
  simp only [Within, fileHeaderSize, pageSize] at this ⊢
  omega

/-- A page is shown with the link it is stored with. -/
theorem image_link (h : Threaded s free) (p : Nat) :
    (s.image p).nextFree = (s.kept p).nextFree := by
  by_cases hl : s.loadedPageId = some p
  · rw [PageFile.image, if_pos hl, h.buffer p hl]
  · rw [s.kept_eq_image hl]

theorem firstFree_eq (h : Threaded s free) :
    s.header.firstFreePage = freeListEnd ∧ free = [] ∨
      ∃ p rest, free = p :: rest ∧ s.header.firstFreePage = link p := by
  cases hf : free with
  | nil => exact Or.inl ⟨(hf ▸ h.chain).eq_nil, rfl⟩
  | cons p rest => exact Or.inr ⟨p, rest, rfl, (hf ▸ h.chain).head_eq⟩

theorem nextPageId_eq (h : Threaded s free) : nextPageId s = free.headD s.header.numPages := by
  rcases h.firstFree_eq with ⟨he, rfl⟩ | ⟨p, rest, rfl, he⟩
  · rw [nextPageId, if_neg (not_not.mpr he)]
    rfl
  · have hp := (h.small p (by simp)).2
    rw [nextPageId, if_pos, he, link, asU32, List.headD_cons]
    · omega
    · rw [he, link]
      simp only [freeListEnd]
      omega

/-- A free page's header holds a link, never the mark of a page in use. -/
theorem mem_iff (h : Threaded s free) (hp : p < s.header.numPages) :
    p ∈ free ↔ (s.kept p).nextFree ≠ pageUsed := by
  constructor
  · intro hf
    rcases h.chain.link_cases hf with he | ⟨b, _, he⟩
    · rw [he]
      decide
    · rw [he, link]
      simp only [pageUsed]
      omega
  · intro hne
    by_contra hf
    exact hne (h.used p hp hf)

theorem of_same (h : Threaded s free) (hs : Same s t) (ht : Sane t)
    (hb : ∀ p, t.loadedPageId = some p → t.loadedPage.nextFree = (s.kept p).nextFree) :
    Threaded t free where
  sane := ht
  length := by
    rw [hs.length, hs.header]
    exact h.length
  stored hd := by
    rw [hs.fileHeader, hs.header]
    exact h.stored (hs.headerDirty ▸ hd)
  buffer p hp := by rw [hs.kept, hb p hp]
  chain := by
    rw [hs.header]
    exact h.chain.congr fun p _ => by rw [hs.kept]
  nodup := h.nodup
  small p hp := hs.header ▸ h.small p hp
  used p hp hf := by
    rw [hs.kept]
    exact h.used p (hs.header ▸ hp) hf

theorem of_io (h : Threaded s free) {io : I} (hio : content io = content s.io) :
    Threaded { s with io } free := by
  have hs := Same.of_io hio
  refine h.of_same hs (h.sane.of_same hs fun p hp => ?_) h.buffer
  obtain ⟨hlt, hw⟩ := h.sane.loaded p hp
  exact ⟨hlt, hs.within hw⟩

theorem of_wroteBack (h : Threaded s free) (hw : WroteBack s t) : Threaded t free := by
  refine h.of_same hw.same (hw.sane h.sane) fun p hl => ?_
  rw [hw.loadedPageId] at hl
  rw [hw.loadedPage, h.buffer p hl]

theorem of_resident (h : Threaded s free) (hr : Resident s p t) : Threaded t free := by
  refine h.of_same hr.same (hr.sane h.sane) fun q hl => ?_
  rw [hr.loadedPageId, Option.some.injEq] at hl
  rw [hr.loadedPage, hl, h.image_link]

theorem of_failure (h : Threaded s free) {e : PageStoreError} (hf : LoadFailure s p e t)
    (hok : ∀ u b r, FailedRead s p u b → s.loadedPageId = some r →
      b.nextFree = (s.kept r).nextFree) :
    Threaded t free := by
  refine h.of_same hf.same (hf.sane h.sane) fun q hl => ?_
  rw [hf.loadedPageId] at hl
  rcases hf.buffer with hb | ⟨u, hr⟩
  · rw [hb, h.buffer q hl]
  · exact hok u _ q hr hl

theorem of_pageFailure (h : Threaded s free) {e : PageStoreError} (hf : PageFailure s p e t)
    (hok : ∀ u b r, FailedRead s p u b → s.loadedPageId = some r →
      b.nextFree = (s.kept r).nextFree) :
    Threaded t free := by
  rcases hf with hf | ⟨hr, -⟩
  · exact h.of_failure hf hok
  · exact h.of_resident hr

/-- One page was changed; its new link makes the chain of `free'`. -/
theorem of_edited (h : Threaded s free) {b : PageBuf} (he : Edited s p b t) (ht : Sane t)
    (hn : t.header.numPages = s.header.numPages ∨ t.headerDirty = true ∧ p = s.header.numPages ∧
      t.header.numPages = p + 1 ∧
        (content t.io).length = fileHeaderSize + t.header.numPages * pageSize)
    (hst : t.headerDirty = false → s.headerDirty = false ∧ t.header = s.header)
    (hchain : Chain (update (fun q => (s.kept q).nextFree) p b.nextFree) link freeListEnd
      t.header.firstFreePage free')
    (hnodup : free'.Nodup) (hsmall : ∀ q ∈ free', q < t.header.numPages ∧ q < 2 ^ 31)
    (hused : ∀ q < t.header.numPages, q ∉ free' →
      (if q = p then b else s.kept q).nextFree = pageUsed) :
    Threaded t free' := by
  have hkept : ∀ q < t.header.numPages, t.kept q = if q = p then b else s.kept q := fun q hq => by
    split
    next e => rw [e, he.kept_self]
    next hne =>
      have hqs : q < s.header.numPages := by
        rcases hn with hn | ⟨-, hp, hn, -⟩ <;> omega
      exact (he.others q hqs (h.within hqs)).2.1 hne
  refine ⟨ht, ?_, fun hd => ?_, fun q hq => ?_, ?_, hnodup, hsmall, fun q hq hf => ?_⟩
  · rcases hn with hn | ⟨-, -, -, hl⟩
    · rcases he.extent with hl | ⟨-, hl⟩
      · rw [hn, hl]
        exact h.length
      · exact Nat.le_of_eq hl.symm
    · exact Nat.le_of_eq hl.symm
  · obtain ⟨hd', hh⟩ := hst hd
    rw [he.fileHeader, hh]
    exact h.stored hd'
  · rw [he.loadedPageId, Option.some.injEq] at hq
    rw [← hq, he.kept_self, he.loadedPage]
  · refine hchain.congr fun q hq => ?_
    rw [hkept q (hsmall q hq).1, update_apply]
    split <;> rfl
  · rw [hkept q hq]
    exact hused q hq hf

/-- The link of a page in use stays what it is. -/
theorem of_write (h : Threaded s free) {b : PageBuf} (he : Edited s p b t)
    (hh : t.header = s.header) (hd : t.headerDirty = s.headerDirty)
    (hb : b.nextFree = (s.image p).nextFree) :
    Threaded t free := by
  have hlink : ∀ q, (if q = p then b else s.kept q).nextFree = (s.kept q).nextFree := fun q => by
    split
    next e => rw [hb, h.image_link, e]
    next => rfl
  refine h.of_edited he (he.sane (hh ▸ h.sane.count) (hh ▸ h.sane.link)) (Or.inl (hh ▸ rfl))
    (fun hf => ⟨hd ▸ hf, hh⟩) ?_ h.nodup (fun q hq => hh ▸ h.small q hq) fun q hq hf => ?_
  · rw [hh]
    refine h.chain.congr fun q _ => ?_
    rw [update_apply]
    split
    next e => rw [hb, h.image_link, e]
    next => rfl
  · rw [hlink]
    exact h.used q (hh ▸ hq) hf

theorem of_dispose (h : Threaded s free) {b : PageBuf} (he : Edited s p b t)
    (hd : t.headerDirty = true) (hh : t.header = { s.header with firstFreePage := asI32 p })
    (hb : b.nextFree = s.header.firstFreePage) (hlt : p < s.header.numPages)
    (hu : (s.image p).nextFree = pageUsed) (hp : p < 2 ^ 31) :
    Threaded t (p :: free) := by
  have hn : p ∉ free := fun hf => (h.mem_iff hlt).mp hf (h.image_link p ▸ hu)
  refine h.of_edited he (he.sane (hh ▸ h.sane.count) (hh ▸ isI32_asI32 (h.sane.lt_pageId hlt)))
    (Or.inl (hh ▸ rfl)) (fun hf => by cases hd.symm.trans hf) ?_ (List.nodup_cons.mpr ⟨hn, h.nodup⟩)
    (fun q hq => ?_) fun q hq hf => ?_
  · rw [hh, hb, asI32_of_lt hp]
    exact h.chain.push hn
  · rw [hh]
    rcases List.mem_cons.mp hq with rfl | hq
    · exact ⟨hlt, hp⟩
    · exact h.small q hq
  · rw [List.mem_cons, not_or] at hf
    rw [if_neg hf.1]
    exact h.used q (by rw [hh] at hq; exact hq) hf.2

theorem of_allocated (h : Threaded s free) {b : PageBuf} (he : Edited s p b t)
    (ha : Allocated s p t) (hd : t.headerDirty = true) (hb : b.nextFree = pageUsed) :
    Threaded t free.tail := by
  have hdirty : t.headerDirty = false → s.headerDirty = false ∧ t.header = s.header := fun hf => by
    cases hd.symm.trans hf
  obtain ⟨hcount, hlink, -⟩ := ha.header_bounds h.sane
  have ht := he.sane hcount hlink
  cases ha with
  | recycled hne hp hlt hh =>
      rcases h.firstFree_eq with ⟨hend, -⟩ | ⟨q, rest, rfl, hq⟩
      · exact absurd hend hne
      · have hq31 := (h.small q (by simp)).2
        have hpq : p = q := by
          rw [hp, hq, link, asU32]
          omega
        subst hpq
        refine h.of_edited he ht (Or.inl (hh ▸ rfl)) hdirty ?_ h.nodup.tail (fun r hr => ?_)
          fun r hr hf => ?_
        · rw [hh, h.image_link]
          exact h.chain.pop h.nodup _
        · rw [hh]
          exact h.small r (List.mem_of_mem_tail hr)
        · split
          next => exact hb
          next hne =>
            refine h.used r (by rw [hh] at hr; exact hr) fun hm => ?_
            rcases List.mem_cons.mp hm with e | hm
            · exact hne e
            · exact hf hm
  | grown hend hp hlt hh hlen =>
      rcases h.firstFree_eq with ⟨-, rfl⟩ | ⟨q, rest, -, hq⟩
      · refine h.of_edited he ht (Or.inr ⟨hd, hp, by rw [hh], by rw [hh, hlen]⟩) hdirty ?_
          List.nodup_nil
          (fun q hq => by cases hq) fun q hq _ => ?_
        · rw [hh, hend]
          exact .nil
        · split
          next => exact hb
          next hne =>
            have hq' : q < p + 1 := by rw [hh] at hq; exact hq
            exact h.used q (by omega) (List.not_mem_nil)
      · rw [hq, link] at hend
        simp only [freeListEnd] at hend
        omega

theorem of_flushing (h : Threaded s free) (hf : Flushing s t) : Threaded t free where
  sane := hf.sane h.sane
  length := by
    rw [hf.length, hf.header]
    exact h.length
  stored hd := by
    rcases hf.fileHeader with ⟨he, hd'⟩ | he
    · rw [he, hf.header]
      exact h.stored (hd' ▸ hd)
    · rw [he, hf.header]
  buffer p hp := by
    rw [hf.loadedPageId] at hp
    rw [hf.loadedPage, hf.kept, h.buffer p hp]
  chain := by
    rw [hf.header]
    exact h.chain.congr fun p _ => by rw [hf.kept]
  nodup := h.nodup
  small p hp := hf.header ▸ h.small p hp
  used p hp hn := by
    rw [hf.kept]
    exact h.used p (hf.header ▸ hp) hn

/-- A flush leaves the header stored. -/
theorem read_header (h : Threaded s free)
    (hh : FileHeader.read (headerAt (content t.io)) = s.header ∨
      s.headerDirty = false ∧ headerAt (content t.io) = headerAt (content s.io)) :
    FileHeader.read (headerAt (content t.io)) = s.header := by
  rcases hh with he | ⟨hd, he⟩
  · exact he
  · rw [he]
    exact h.stored hd

/-- What a flush has written is opened again. -/
theorem openable (h : Threaded s free) {c : List UInt8} (hl : c.length = (content s.io).length)
    (hh : FileHeader.read (headerAt c) = s.header) : Openable c where
  header := by
    rw [hh]
    rcases h.firstFree_eq with ⟨he, -⟩ | ⟨p, rest, rfl, he⟩
    · rw [FileHeader.Valid, he]
      exact ⟨Int.le_refl _, fun hne => absurd rfl hne⟩
    · obtain ⟨hlt, hp⟩ := h.small p (by simp)
      rw [FileHeader.Valid, he, link, asU32]
      simp only [freeListEnd]
      omega
  length := by
    rw [hh, hl]
    exact h.length

theorem reopen (h : Threaded s free) {c : List UInt8} (hl : c.length = (content s.io).length)
    (hh : FileHeader.read (headerAt c) = s.header) (hpages : ∀ p, pageAt c p = s.kept p)
    (ho : Opened c t) : Threaded t free where
  sane := ho.sane
  length := by
    rw [ho.content, hl, ho.header, hh]
    exact h.length
  stored _ := by rw [ho.content, ho.header]
  buffer p hp := by
    rw [ho.loadedPageId] at hp
    cases hp
  chain := by
    rw [ho.header, hh]
    exact h.chain.congr fun p _ => by rw [ho.kept, hpages]
  nodup := h.nodup
  small p hp := by
    rw [ho.header, hh]
    exact h.small p hp
  used p hp hn := by
    rw [ho.kept, hpages]
    rw [ho.header, hh] at hp
    exact h.used p hp hn

end Threaded

/-! ## Runs -/

variable {h : List (Op × Reply)}

/-- The pages the file has grown to. -/
def pageCount : List (Op × Reply) → Nat
  | [] => 0
  | (.allocate _, .allocated _ _) :: h => if disposed h = [] then pageCount h + 1 else pageCount h
  | _ :: h => pageCount h

/-- The history says which pages are free and how many pages there are. -/
structure Accounts (s : PageFile I) (h : List (Op × Reply)) : Prop where
  threaded : Threaded s (disposed h)
  numPages : s.header.numPages = pageCount h

theorem AllocateFailure.threaded (hm : Threaded s free) {e : PageStoreError}
    (hf : AllocateFailure s e t) {change : PageData → PageData}
    (hok : Orderly s (.allocate change)) :
    Threaded t free ∧ t.header = s.header := by
  cases hf with
  | load hne hf =>
      refine ⟨hm.of_failure hf (hok.1 _ ?_), hf.same.header⟩
      rw [loads, if_pos hne]
      rfl
  | write hio => exact ⟨hm.of_io hio, rfl⟩
  | full hw => exact ⟨hm.of_wroteBack hw, hw.same.header⟩
  | grow he _ _ hg _ => exact absurd hg (hok.2 he)

theorem Allocated.numPages_eq (ha : Allocated s p t) (ht : Threaded s (disposed h))
    (hn : s.header.numPages = pageCount h) :
    t.header.numPages = if disposed h = [] then pageCount h + 1 else pageCount h := by
  rcases ht.firstFree_eq with ⟨he, hnil⟩ | ⟨q, rest, hcons, hq⟩
  · cases ha with
    | recycled hne _ _ _ => exact absurd he hne
    | grown _ hp _ hh _ => rw [hh, hp, hn, if_pos hnil]
  · cases ha with
    | recycled _ _ _ hh => rw [hh, hn, if_neg (by simp [hcons])]
    | grown he _ _ _ _ =>
        rw [hq, link] at he
        simp only [freeListEnd] at he
        omega

theorem step_accounts (hm : Accounts s h) (op : Op)
    (hclose : op = .reopen → ∃ t, flush s = .ok () t) (hok : Orderly s op) :
    Accounts (step s op).1 ((op, (step s op).2) :: h) := by
  obtain ⟨ht, hn⟩ := hm
  cases op with
  | allocate change =>
      have hspec := allocatePage_faulty ht.sane
      simp only [wp] at hspec
      simp only [step]
      cases ha : allocatePage s with
      | ok g t =>
          simp only [ha] at hspec
          obtain ⟨b, hu, -, he, hall, hd, -⟩ := hspec
          have hT := ht.of_allocated (he.setPageData (change g.data)) (hall.congr rfl rfl) hd
            ((PageBuf.nextFree_writeData _ _).trans hu)
          exact ⟨hT, hall.numPages_eq ht hn⟩
      | error e t =>
          simp only [ha] at hspec
          obtain ⟨hT, hh⟩ := hspec.threaded ht hok
          exact ⟨hT, (congrArg (·.numPages) hh).trans hn⟩
  | read p =>
      have hspec := readPage_faulty (p := p) ht.sane
      simp only [wp] at hspec
      simp only [step]
      cases hr : readPage p s with
      | ok g t =>
          simp only [hr] at hspec
          exact ⟨ht.of_resident hspec.1, (congrArg (·.numPages) hspec.1.same.header).trans hn⟩
      | error e t =>
          simp only [hr] at hspec
          exact ⟨ht.of_pageFailure hspec (hok.1 p rfl),
            (congrArg (·.numPages) hspec.header).trans hn⟩
  | write p change =>
      have hspec := writePage_faulty (p := p) ht.sane
      simp only [wp] at hspec
      simp only [step]
      cases hw : writePage p s with
      | ok g t =>
          simp only [hw] at hspec
          obtain ⟨he, hh, hd, hu, hg⟩ := hspec
          have hT := ht.of_write (he.setPageData (change g.data)) hh hd
            (PageBuf.nextFree_writeData _ _)
          exact ⟨hT, (congrArg (·.numPages) hh).trans hn⟩
      | error e t =>
          simp only [hw] at hspec
          exact ⟨ht.of_pageFailure hspec (hok.1 p rfl),
            (congrArg (·.numPages) hspec.header).trans hn⟩
  | dispose p =>
      have hspec := disposePage_faulty (p := p) ht.sane
      simp only [wp] at hspec
      simp only [step]
      cases hw : disposePage p s with
      | ok _ t =>
          simp only [hw] at hspec
          obtain ⟨b, he, hd, hh, hb, hlt, hu⟩ := hspec
          exact ⟨ht.of_dispose he hd hh hb hlt hu hok.2, (congrArg (·.numPages) hh).trans hn⟩
      | error e t =>
          simp only [hw] at hspec
          exact ⟨ht.of_pageFailure hspec (hok.1 p rfl),
            (congrArg (·.numPages) hspec.header).trans hn⟩
  | flush =>
      have hspec := flush_faulty ht.sane
      simp only [wp] at hspec
      simp only [step]
      cases hw : flush s with
      | ok _ t =>
          simp only [hw] at hspec
          exact ⟨ht.of_flushing hspec.1, (congrArg (·.numPages) hspec.1.header).trans hn⟩
      | error e t =>
          simp only [hw] at hspec
          exact ⟨ht.of_flushing hspec.2, (congrArg (·.numPages) hspec.2.header).trans hn⟩
  | reopen =>
      obtain ⟨t, hflush⟩ := hclose rfl
      obtain ⟨hf, hpages, hhead⟩ := wp_ok hflush (flush_faulty ht.sane)
      have hdrop : s.drop = t.io := by rw [PageFile.drop, hflush]; rfl
      have hopen := open_faulty t.io
      simp only [wp] at hopen
      simp only [step, hdrop]
      cases ho : PageFile.open t.io with
      | ok u _ =>
          simp only [ho] at hopen
          have hread := ht.read_header hhead
          refine ⟨ht.reopen hf.length hread hpages hopen, ?_⟩
          exact (congrArg (·.numPages) (hopen.header.trans hread)).trans hn
      | error e _ => exact ⟨ht, hn⟩

theorem FaultyRun.accounts {io : I} (hr : FaultyRun Orderly io h s) : Accounts s h := by
  induction hr with
  | create hc =>
      obtain ⟨hs, hh, hl, hread, hlen⟩ := create_faulty hc
      refine ⟨⟨hs, ?_, fun _ => hread, fun p hp => ?_, ?_, List.nodup_nil,
        fun p hp => (by cases hp), ?_⟩, ?_⟩
      · rw [hh, hlen]
        exact Nat.le_refl _
      · rw [hl] at hp
        cases hp
      · rw [hh]
        exact .nil
      · rw [hh]
        intro p hp
        cases hp
      · rw [hh]
        rfl
  | step op _ hclose hok ih => exact step_accounts ih op hclose hok

/-- Steps that neither hand out a page nor take one back leave no trace. -/
theorem disposed_idle {k : List (Op × Reply)} (hk : ∀ x ∈ k, Idle x) :
    disposed (k ++ h) = disposed h ∧ pageCount (k ++ h) = pageCount h := by
  induction k with
  | nil => exact ⟨rfl, rfl⟩
  | cons x k ih =>
      obtain ⟨hd, hc⟩ := ih fun y hy => hk y (List.mem_cons_of_mem _ hy)
      have hx := hk x List.mem_cons_self
      obtain ⟨op, r⟩ := x
      rw [List.cons_append]
      cases op <;> cases r <;> first | exact hx.elim | exact ⟨hd, hc⟩

theorem Accounts.nextPageId_eq (hm : Accounts s h) :
    nextPageId s = (disposed h).headD (pageCount h) := by
  rw [hm.threaded.nextPageId_eq, hm.numPages]

theorem Allocated.eq_nextPageId (ha : Allocated s p t) : p = nextPageId s := by
  cases ha with
  | recycled hne hp _ _ => rw [nextPageId, if_pos hne, hp]
  | grown he hp _ _ _ => rw [nextPageId, if_neg (not_not.mpr he), hp]

end Redbase.Page
