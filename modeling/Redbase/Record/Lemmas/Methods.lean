import Redbase.Record.Lemmas.Pages
import Redbase.Record.Lemmas.Client

/-!
# The methods of the record file

Each method changes one entry of the map from record ids to bytes, or none, and keeps the pages and
their chain well formed.
-/

namespace Redbase.Record

open Prog Bytes Page Buffer BufferPoolState Function RecordFile Linked

variable {I : Type} [ReliableIo I] {cap : Nat} {s t : RecordFile I cap} {pages : Nat → PageData}
  {chain : List Nat} {h : RecordFileHeader} {p : Nat} {rid : Rid} {data : List UInt8}

/-- The record file `s` holds `pages`: page 0 with its header, and the data pages. -/
structure Holds (s : RecordFile I cap) (pages : Nat → PageData) (chain : List Nat) : Prop where
  quiet : Quiet s.pool s.fileId (s.header.numPages + 1) pages
  wf : WellFormed s.header pages chain
  stored : s.headerDirty = false →
    RecordFileHeader.read ((pages 0).read 0 recordFileHeaderSize) = s.header

/-- `t` is `s` after the entry of `rid` became `entry`. -/
structure Stepped (s t : RecordFile I cap) (pages pages' : Nat → PageData) (rid : Rid)
    (entry : Option (List UInt8)) : Prop where
  layout : SameLayout s.header t.header
  fileId : t.fileId = s.fileId
  lookup : lookup t.header pages' = update (lookup s.header pages) rid entry

/-- `t` holds what `s` holds: a call that failed, or only read. -/
structure Kept (s t : RecordFile I cap) (pages : Nat → PageData) (chain : List Nat) : Prop where
  holds : Holds t pages chain
  header : t.header = s.header
  fileId : t.fileId = s.fileId

/-- A data page that the methods refuse to read. -/
def Unreadable (h : RecordFileHeader) (pages : Nat → PageData) (p : Nat) : Prop :=
  h.HasPage p ∧ ¬ Readable h (pages p)

/-! ## The chain -/

/-- The ids in the chain are positive as `i32`. -/
def Small (chain : List Nat) : Prop := ∀ p ∈ chain, p < 2 ^ 31

theorem WellFormed.mem_hasPage (hw : WellFormed h pages chain) (hp : p ∈ chain) : h.HasPage p :=
  ((hw.mem_iff p).mp hp).1

theorem WellFormed.readable (hw : WellFormed h pages chain) (hs : Small chain) (hp : h.HasPage p) :
    Readable h (pages p) where
  toPageOk := hw.page p hp
  next_ge := by
    rcases Nat.eq_zero_or_pos (freeCount h (pages p)) with h0 | hpos
    · rw [(hw.page p hp).full h0]
    · rcases hw.links.link_cases ((hw.mem_iff p).mpr ⟨hp, hpos⟩) with he | ⟨q, hq, he⟩
      · rw [he]
        decide
      · rw [he, asI32_of_lt (hs q hq)]
        exact Int.le_trans (by decide) (Int.natCast_nonneg q)

theorem Readable.congr {h' : RecordFileHeader} {pages' : Nat → PageData} (hr : Readable h (pages p))
    (hp : PageOk h' (pages' p))
    (hnext : (headerOf (pages' p)).nextFreePage = (headerOf (pages p)).nextFreePage) :
    Readable h' (pages' p) := ⟨hp, hnext ▸ hr.next_ge⟩

theorem Holds.count_lt (hh : Holds s pages chain) : s.header.numPages + 1 < 2 ^ 32 :=
  hh.quiet.count_lt

theorem Holds.page_lt (_ : Holds s pages chain) (hp : s.header.HasPage p) :
    p < s.header.numPages + 1 :=
  Nat.lt_succ_of_le hp.2

/-- The head of the chain, or the end mark. -/
theorem WellFormed.first_cases (hw : WellFormed h pages chain) (hcount : h.numPages + 1 < 2 ^ 32) :
    (h.firstFreePage = recordPageListEnd ∧ chain = []) ∨
      ∃ p rest, chain = p :: rest ∧ h.firstFreePage = asI32 p ∧
        h.firstFreePage ≠ recordPageListEnd ∧ asU32 h.firstFreePage = p := by
  have hlinks := hw.links
  cases hc : chain with
  | nil => exact Or.inl ⟨(hc ▸ hlinks).eq_nil, rfl⟩
  | cons p rest =>
      have hle := (hw.mem_hasPage (hc ▸ List.mem_cons_self : p ∈ chain)).2
      have he : h.firstFreePage = asI32 p := (hc ▸ hlinks).head_eq
      refine Or.inr ⟨p, rest, rfl, he, ?_, ?_⟩
      · rw [he]
        intro hend
        rw [show recordPageListEnd = asI32 (2 ^ 32 - 1) by decide] at hend
        have := asI32_inj (by omega) (by omega) hend
        omega
      · rw [he, asU32_asI32 (by omega)]

theorem Holds.first_cases (hh : Holds s pages chain) :
    (s.header.firstFreePage = recordPageListEnd ∧ chain = []) ∨
      ∃ p rest, chain = p :: rest ∧ s.header.firstFreePage = asI32 p ∧
        s.header.firstFreePage ≠ recordPageListEnd ∧
        asU32 s.header.firstFreePage = p := hh.wf.first_cases hh.count_lt

theorem Holds.first_isI32 (hh : Holds s pages chain) : IsI32 s.header.firstFreePage := by
  rcases hh.first_cases with ⟨he, -⟩ | ⟨p, rest, rfl, he, -, -⟩
  · rw [he]
    exact recordPageListEnd_isI32
  · have hle := (hh.wf.mem_hasPage List.mem_cons_self).2
    have hcount := hh.count_lt
    rw [he]
    exact isI32_asI32 (by omega)

/-- Page 0 is not a data page. -/
theorem WellFormed.zero_not_hasPage (h : RecordFileHeader) : ¬ h.HasPage 0 := by
  rintro ⟨hle, -⟩
  omega

/-- A page that is refused stays as it is. -/
theorem Holds.refusedPage {α : Type} {body : PageM α} {Q : α → RecordFile I cap → Prop}
    {E : Stop RecordError → RecordFile I cap → Prop} (hh : Holds s pages chain)
    (hu : Unreadable s.header pages p)
    (hbody : ∀ page e, readPageHeader page.header page.bytes = .error e →
      wp body (fun _ _ => False) (fun _ t => t = page) page)
    (hE : ∀ e t, Kept s t pages chain → E e t) :
    wp (withPageMut (getPageMut s.fileId p) fun _ => body) Q E s := by
  refine wp_changePage hh.quiet (hh.page_lt hu.1) ?_
  refine wp_mono (hbody _ _ ((hh.wf.page p hu.1).readPageHeader_error hu.2))
    (fun _ _ => False.elim) ?_
  rintro e _ rfl pool hq
  rw [update_eq_self] at hq
  exact hE _ _ ⟨⟨hq, hh.wf, hh.stored⟩, rfl, rfl⟩

/-! ## Inserting -/

theorem lookup_of_free {s : Nat} (hf : freeAt h (pages p) s = true) :
    lookup h pages ⟨p, s⟩ = none :=
  if_neg fun hc => by
    rw [hf] at hc
    cases hc.2.2

/-- The file after a new page got the id `h.numPages + 1`. -/
structure PageAdded (h : RecordFileHeader) (pages : Nat → PageData) (t : OpenPage) : Prop where
  wf : WellFormed t.header (update pages (h.numPages + 1) t.bytes) [h.numPages + 1]
  layout : SameLayout h t.header
  numPages : t.header.numPages = h.numPages + 1
  lookup : lookup t.header (update pages (h.numPages + 1) t.bytes) = lookup h pages
  readable : Readable t.header t.bytes
  dirty : t.headerDirty = true

theorem Allocated.added {t : OpenPage} (ha : Allocated h (h.numPages + 1) t)
    (hw : WellFormed h pages []) :
    PageAdded h pages t := by
  have hl : SameLayout h t.header := by
    rw [ha.header]
    exact ⟨rfl, rfl⟩
  have hn : t.header.numPages = h.numPages + 1 := by rw [ha.header]
  have hfirst : h.firstFreePage = recordPageListEnd := hw.links.eq_nil
  refine ⟨?_, hl, hn, lookup_allocate hl hn ha.all_free, ⟨hl.pageOk ha.ok, ?_⟩, ha.dirty⟩
  · refine hw.push hl (by simp) ?_ (fun q => hasPage_succ hn q) ha.ok
      (ha.next.trans hfirst.symm) ha.free
    rw [ha.header]
  · rw [ha.next]
    decide

theorem allocateDataPage_spec (hh : Holds s pages []) :
    wp allocateDataPage
      (fun _ t => ∃ pages', Holds t pages' [s.header.numPages + 1] ∧ SameLayout s.header t.header ∧
        t.fileId = s.fileId ∧ lookup t.header pages' = lookup s.header pages ∧
        t.header.numPages = s.header.numPages + 1)
      (fun _ t => Kept s t pages [] ∧ s.header.numPages + 2 = 2 ^ 32) s := by
  unfold allocateDataPage
  simp only [wp_bind, wp_get]
  refine wp_newPage hh.quiet (fun hE _ _ hq => ⟨⟨⟨hq, hh.wf, hh.stored⟩, rfl, rfl⟩, hE⟩) ?_
  refine wp_mono (allocateIn_spec hh.wf.fits hh.count_lt _) ?_ fun _ _ => False.elim
  intro _ t ha pool hq
  have hadd := ha.added hh.wf
  refine ⟨_, ⟨?_, hadd.wf, fun hd => ?_⟩, hadd.layout, rfl, hadd.lookup, hadd.numPages⟩
  · rw [hadd.numPages]
    exact hq
  · rw [hadd.dirty] at hd
    cases hd

/-- The file after a record went to slot `slot` of the page `p` at the head of the chain. -/
structure HeadFilled (h : RecordFileHeader) (pages : Nat → PageData) (dirty : Bool) (p : Nat)
    (rest : List Nat) (slot : Nat) (data : List UInt8) (t : OpenPage) (chain' : List Nat) :
    Prop where
  wf : WellFormed t.header (update pages p t.bytes) chain'
  chain : chain' = p :: rest ∨ chain' = rest
  layout : SameLayout h t.header
  numPages : t.header.numPages = h.numPages
  lookup : lookup t.header (update pages p t.bytes) = update (lookup h pages) ⟨p, slot⟩ (some data)
  readable : Readable t.header t.bytes
  clean : t.headerDirty = false → t.header = h ∧ dirty = false

theorem Inserted.filled {rest : List Nat} {slot : Nat} {dirty : Bool} {t : OpenPage}
    (hi : Inserted h (pages p) dirty slot data t) (hw : WellFormed h pages (p :: rest))
    (hr : Readable h (pages p)) :
    ∃ chain', HeadFilled h pages dirty p rest slot data t chain' := by
  obtain ⟨hp, hpos⟩ := (hw.mem_iff p).mp List.mem_cons_self
  rcases Nat.eq_zero_or_pos (freeCount h t.bytes) with h0 | hmore
  · obtain ⟨hhdr, hdirty⟩ := hi.full h0
    have hl : SameLayout h t.header := by
      rw [hhdr]
      exact ⟨rfl, rfl⟩
    have hn : t.header.numPages = h.numPages := by rw [hhdr]
    refine ⟨rest, ?_, Or.inr rfl, hl, hn, lookup_stores hp hi.stores hl hn,
      ⟨hl.pageOk hi.ok, ?_⟩, fun hd => ?_⟩
    · rw [hhdr]
      exact hw.pop hi.ok h0
    · rw [hi.ok.full h0]
    · rw [hdirty] at hd
      cases hd
  · obtain ⟨hnext, hhdr, hdirty⟩ := hi.more hmore
    have hl : SameLayout h t.header := by
      rw [hhdr]
      exact SameLayout.refl _
    have hn : t.header.numPages = h.numPages := by rw [hhdr]
    refine ⟨p :: rest, ?_, Or.inl rfl, hl, hn, lookup_stores hp hi.stores hl hn,
      ⟨hl.pageOk hi.ok, ?_⟩, fun hd => ?_⟩
    · rw [hhdr]
      exact hw.keep hp hi.ok hnext (iff_of_true hmore hpos)
    · rw [hnext]
      exact hr.next_ge
    · exact ⟨hhdr, hdirty ▸ hd⟩

theorem insertHead_spec {rest : List Nat} (hh : Holds s pages (p :: rest))
    (hr : Readable s.header (pages p)) (hd : data.length = s.header.recordSize) :
    wp (withPageMut (getPageMut s.fileId p) fun _ => insertInto p data)
      (fun rid t => ∃ pages' chain', Holds t pages' chain' ∧
        Stepped s t pages pages' rid (some data) ∧
        lookup s.header pages rid = none ∧ (chain' = p :: rest ∨ chain' = rest) ∧
        t.header.numPages = s.header.numPages) never s := by
  obtain ⟨hp, hpos⟩ := (hh.wf.mem_iff p).mp List.mem_cons_self
  refine wp_changePage hh.quiet (hh.page_lt hp) ?_
  refine wp_mono (insertInto_spec hh.wf.fits hr hpos hd p) ?_ fun _ _ => False.elim
  rintro _ t ⟨slot, rfl, hi⟩ pool hq
  have hp0 : p ≠ 0 := by
    rintro rfl
    exact WellFormed.zero_not_hasPage _ hp
  obtain ⟨chain', hf⟩ := hi.filled hh.wf hr
  refine ⟨_, chain', ⟨?_, hf.wf, fun hd => ?_⟩, ⟨hf.layout, rfl, hf.lookup⟩,
    lookup_of_free hi.was_free, hf.chain, hf.numPages⟩
  · rw [hf.numPages]
    exact hq
  · obtain ⟨hhdr, hdirty⟩ := hf.clean hd
    rw [update_of_ne hp0.symm, hhdr]
    exact hh.stored hdirty

omit [ReliableIo I] in
/-- Two steps of which the first changes no entry. -/
theorem Stepped.trans_left {u : RecordFile I cap} {pages' pages'' : Nat → PageData}
    {entry : Option (List UInt8)} (hl : SameLayout s.header t.header) (hf : t.fileId = s.fileId)
    (he : Record.lookup t.header pages' = Record.lookup s.header pages)
    (hs : Stepped t u pages' pages'' rid entry) : Stepped s u pages pages'' rid entry where
  layout := ⟨hs.layout.size.trans hl.size, hs.layout.slots.trans hl.slots⟩
  fileId := hs.fileId.trans hf
  lookup := he ▸ hs.lookup

theorem ensureRecordLength_eq (h : RecordFileHeader) (n : Nat) :
    ensureRecordLength h n = if n = h.recordSize then .ok ()
    else .error (.sizeMismatch h.recordSize n) := by
  unfold ensureRecordLength
  by_cases he : n = h.recordSize
  · rw [if_pos he, if_neg (not_not.mpr he)]
    rfl
  · rw [if_neg he, if_pos he]
    rfl

omit [ReliableIo I] in
/-- Bytes of another length are refused. -/
theorem insert_wrongLength [PageIo I] (hd : data.length ≠ s.header.recordSize) :
    wp (RecordFile.insert data) (fun _ _ => False)
      (fun e t => e = .error (.sizeMismatch s.header.recordSize data.length) ∧ t = s) s := by
  unfold RecordFile.insert
  simp only [wp_bind, wp_get, ensureRecordLength_eq, if_neg hd]
  exact ⟨rfl, rfl⟩

omit [ReliableIo I] in
theorem update_wrongLength [PageIo I] (hd : data.length ≠ s.header.recordSize) :
    wp (RecordFile.update rid data) (fun _ _ => False)
      (fun e t => e = .error (.sizeMismatch s.header.recordSize data.length) ∧ t = s) s := by
  unfold RecordFile.update
  simp only [wp_bind, wp_get, ensureRecordLength_eq, if_neg hd]
  exact ⟨rfl, rfl⟩

/-- A new record gets a free slot of the first page of the chain, or of a new page. -/
theorem insert_spec (hh : Holds s pages chain) (hd : data.length = s.header.recordSize) :
    wp (RecordFile.insert data)
      (fun rid t => ∃ pages' chain', Holds t pages' chain' ∧
        Stepped s t pages pages' rid (some data) ∧
        lookup s.header pages rid = none ∧ t.header.numPages ≤ s.header.numPages + 1)
      (fun _ t => Kept s t pages chain ∧
        (s.header.numPages + 2 = 2 ^ 32 ∨ ∃ p, Unreadable s.header pages p)) s := by
  unfold RecordFile.insert
  simp only [wp_bind, wp_get, ensureRecordLength_eq, if_pos hd, wp_check_ok, wp_ite]
  rcases hh.first_cases with ⟨he, rfl⟩ | ⟨p, rest, rfl, -, hne, hp⟩
  · rw [if_pos he]
    refine wp_mono (allocateDataPage_spec hh) ?_ fun _ _ ht => ⟨ht.1, Or.inl ht.2⟩
    rintro _ t ⟨pages', ht, hl, hf, hlook, hn⟩
    rcases ht.first_cases with ⟨-, hnil⟩ | ⟨p, rest, hc, -, -, hp⟩
    · cases hnil
    · cases hc
      obtain ⟨hhas, hpos⟩ := (ht.wf.mem_iff _).mp List.mem_cons_self
      have hr : Readable t.header (pages' (s.header.numPages + 1)) := by
        refine ⟨ht.wf.page _ hhas, ?_⟩
        rw [ht.wf.links.tail.eq_nil]
        decide
      rw [hp]
      refine wp_mono (insertHead_spec ht hr (hd.trans hl.size.symm)) ?_ fun _ _ => False.elim
      rintro rid u ⟨pages'', chain', hu, hst, hnone, -, hn'⟩
      exact ⟨pages'', chain', hu, hst.trans_left hl hf hlook, hlook ▸ hnone,
        Nat.le_of_eq (hn'.trans hn)⟩
  · rw [if_neg hne, hp]
    have hhas := hh.wf.mem_hasPage List.mem_cons_self
    by_cases hr : Readable s.header (pages p)
    · refine wp_mono (insertHead_spec hh hr hd) ?_ fun _ _ => False.elim
      rintro rid t ⟨pages', chain', ht, hst, hnone, -, hn⟩
      exact ⟨pages', chain', ht, hst, hnone, Nat.le_succ_of_le (Nat.le_of_eq hn)⟩
    · exact hh.refusedPage ⟨hhas, hr⟩ (fun page e he => insertInto_refused he _ _)
        fun _ _ hk => ⟨hk, Or.inr ⟨p, hhas, hr⟩⟩

/-! ## Record ids -/

theorem validateRid_eq (h : RecordFileHeader) (rid : Rid) :
    validateRid h rid =
      if h.HasPage rid.pageId ∧ rid.slotId < h.slotsPerPage then .ok ()
      else .error (.invalidRid rid) := by
  unfold validateRid
  by_cases hv : h.HasPage rid.pageId ∧ rid.slotId < h.slotsPerPage
  · obtain ⟨⟨h₁, h₂⟩, h₃⟩ := id hv
    rw [if_pos hv, if_neg (by simp only [headerPageId]; omega)]
    exact if_neg (Nat.not_le.mpr h₃)
  · rw [if_neg hv]
    by_cases h₁ : rid.pageId = headerPageId ∨ rid.pageId > h.numPages
    · rw [if_pos h₁]
      rfl
    · rw [if_neg h₁]
      refine if_pos (Nat.not_lt.mp fun h₂ => hv ⟨⟨?_, ?_⟩, h₂⟩)
      · simp only [headerPageId] at h₁
        omega
      · omega

/-- Why a record id is refused. -/
def Refused (rid : Rid) (e : Stop RecordError) : Prop :=
  e = .error (.invalidRid rid) ∨ e = .error (.emptySlot rid)

/-- Why a call on a record id fails: there is no such record, or its page is refused. -/
def Denied (h : RecordFileHeader) (pages : Nat → PageData) (rid : Rid) (e : Stop RecordError) :
    Prop :=
  Refused rid e ∧ lookup h pages rid = none ∨ Unreadable h pages rid.pageId

/-- The entry of an id inside the file. -/
theorem lookup_of_hasPage (hp : h.HasPage rid.pageId) (hs : rid.slotId < h.slotsPerPage) :
    lookup h pages rid = if freeAt h (pages rid.pageId) rid.slotId then none
      else some (slotBytes h (pages rid.pageId) rid.slotId) := by
  unfold lookup
  cases freeAt h (pages rid.pageId) rid.slotId <;> simp [hp, hs]

theorem hasPage_of_lookup (hl : lookup h pages rid = some data) :
    h.HasPage rid.pageId ∧ rid.slotId < h.slotsPerPage := by
  unfold lookup at hl
  split at hl
  next hlive => exact ⟨hlive.1, hlive.2.1⟩
  next => cases hl

theorem lookup_of_invalid (hv : ¬ (h.HasPage rid.pageId ∧ rid.slotId < h.slotsPerPage)) :
    lookup h pages rid = none := if_neg fun hc => hv ⟨hc.1, hc.2.1⟩

theorem denied_of_free (hv : h.HasPage rid.pageId ∧ rid.slotId < h.slotsPerPage)
    (hfree : freeAt h (pages rid.pageId) rid.slotId = true) :
    Denied h pages rid (.error (.emptySlot rid)) := by
  refine Or.inl ⟨Or.inr rfl, ?_⟩
  rw [lookup_of_hasPage hv.1 hv.2, hfree]
  rfl

theorem get_spec (hh : Holds s pages chain) :
    wp (RecordFile.get rid)
      (fun r t => Kept s t pages chain ∧ r.rid = rid ∧ lookup s.header pages rid = some r.data)
      (fun e t => Kept s t pages chain ∧ Denied s.header pages rid e) s := by
  unfold RecordFile.get
  simp only [wp_bind, wp_get, validateRid_eq]
  by_cases hv : s.header.HasPage rid.pageId ∧ rid.slotId < s.header.slotsPerPage
  · simp only [if_pos hv, wp_check_ok]
    refine wp_withPage hh.quiet (hh.page_lt hv.1) fun pool hq => ?_
    have hold : Kept s { s with pool } pages chain := ⟨⟨hq, hh.wf, hh.stored⟩, rfl, rfl⟩
    by_cases hr : Readable s.header (pages rid.pageId)
    · rw [hr.getFrom hh.wf.fits hv.2]
      cases hfree : freeAt s.header (pages rid.pageId) rid.slotId with
      | true => exact ⟨hold, denied_of_free hv hfree⟩
      | false =>
          refine ⟨hold, rfl, ?_⟩
          rw [lookup_of_hasPage hv.1 hv.2, hfree]
          rfl
    · rw [Record.getFrom, (hh.wf.page _ hv.1).readPageHeader_error hr]
      exact ⟨hold, Or.inr ⟨hv.1, hr⟩⟩
  · simp only [if_neg hv, wp_check_error]
    exact ⟨⟨hh, rfl, rfl⟩, Or.inl ⟨Or.inl rfl, lookup_of_invalid hv⟩⟩

theorem update_spec (hh : Holds s pages chain) (hd : data.length = s.header.recordSize) :
    wp (RecordFile.update rid data)
      (fun _ t => ∃ pages', Holds t pages' chain ∧ Stepped s t pages pages' rid (some data) ∧
        lookup s.header pages rid ≠ none ∧ t.header = s.header ∧
        ∀ p, (headerOf (pages' p)).nextFreePage = (headerOf (pages p)).nextFreePage)
      (fun e t => Kept s t pages chain ∧ Denied s.header pages rid e) s := by
  unfold RecordFile.update
  simp only [wp_bind, wp_get, ensureRecordLength_eq, if_pos hd, wp_check_ok, validateRid_eq]
  by_cases hv : s.header.HasPage rid.pageId ∧ rid.slotId < s.header.slotsPerPage
  · simp only [if_pos hv, wp_check_ok]
    by_cases hr : Readable s.header (pages rid.pageId)
    · refine wp_changePage hh.quiet (hh.page_lt hv.1) ?_
      have hp0 : (0 : Nat) ≠ rid.pageId :=
        fun he => WellFormed.zero_not_hasPage s.header (he ▸ hv.1)
      refine wp_mono (updateIn_spec hh.wf.fits hr hv.2 hd) ?_ ?_
      · rintro _ t ⟨hused, hst, hok, hnext, hcount, hhdr, hdirty⟩ pool hq
        have hn : t.header.numPages = s.header.numPages := by rw [hhdr]
        refine ⟨_, ⟨by rw [hn]; exact hq, ?_, fun hd => ?_⟩, ⟨?_, rfl, ?_⟩, ?_, hhdr, fun p => ?_⟩
        · rw [hhdr]
          exact hh.wf.keep hv.1 hok hnext (by rw [hcount])
        · rw [update_of_ne hp0, hhdr]
          exact hh.stored (hdirty ▸ hd)
        · rw [hhdr]
          exact SameLayout.refl _
        · rw [hhdr]
          exact lookup_stores hv.1 hst (SameLayout.refl _) rfl
        · rw [lookup_of_hasPage hv.1 hv.2, hused]
          simp
        · rcases eq_or_ne p rid.pageId with rfl | hne
          · rw [update_self, hnext]
          · rw [update_of_ne hne]
      · rintro _ _ ⟨hfree, rfl, rfl⟩ pool hq
        rw [update_eq_self] at hq
        exact ⟨⟨⟨hq, hh.wf, hh.stored⟩, rfl, rfl⟩, denied_of_free hv hfree⟩
    · exact hh.refusedPage ⟨hv.1, hr⟩ (fun page e he => updateIn_refused he _ _)
        fun _ _ hk => ⟨hk, Or.inr ⟨hv.1, hr⟩⟩
  · simp only [if_neg hv, wp_check_error]
    exact ⟨⟨hh, rfl, rfl⟩, Or.inl ⟨Or.inl rfl, lookup_of_invalid hv⟩⟩

/-- What `delete` does to the chain: a page that was full becomes its head. -/
structure Freed (h h' : RecordFileHeader) (pages pages' : Nat → PageData) (p : Nat) : Prop where
  readable : Readable h (pages p)
  others : ∀ q ≠ p, pages' q = pages q
  free : 0 < freeCount h (pages' p)
  more : 0 < freeCount h (pages p) →
    h' = h ∧ (headerOf (pages' p)).nextFreePage = (headerOf (pages p)).nextFreePage
  full : freeCount h (pages p) = 0 →
    h' = { h with firstFreePage := asI32 p } ∧ (headerOf (pages' p)).nextFreePage = h.firstFreePage

theorem Freed.numPages {h' : RecordFileHeader} {pages' : Nat → PageData}
    (hf : Freed h h' pages pages' p) :
    h'.numPages = h.numPages := by
  rcases Nat.eq_zero_or_pos (freeCount h (pages p)) with h0 | hpos
  · rw [(hf.full h0).1]
  · rw [(hf.more hpos).1]

theorem delete_spec (hh : Holds s pages chain) :
    wp (delete rid)
      (fun _ t => ∃ pages' chain', Holds t pages' chain' ∧ Stepped s t pages pages' rid none ∧
        lookup s.header pages rid ≠ none ∧ Freed s.header t.header pages pages' rid.pageId)
      (fun e t => Kept s t pages chain ∧ Denied s.header pages rid e) s := by
  unfold delete
  simp only [wp_bind, wp_get, validateRid_eq]
  by_cases hv : s.header.HasPage rid.pageId ∧ rid.slotId < s.header.slotsPerPage
  · simp only [if_pos hv, wp_check_ok]
    by_cases hr : Readable s.header (pages rid.pageId)
    · refine wp_changePage hh.quiet (hh.page_lt hv.1) ?_
      have hp0 : (0 : Nat) ≠ rid.pageId :=
        fun he => WellFormed.zero_not_hasPage s.header (he ▸ hv.1)
      refine wp_mono (deleteIn_spec hh.wf.fits hr hv.2 hh.first_isI32) ?_ ?_
      · rintro _ t hdel pool hq
        have hsome : lookup s.header pages rid ≠ none := by
          rw [lookup_of_hasPage hv.1 hv.2, hdel.was_used]
          simp
        rcases Nat.eq_zero_or_pos (freeCount s.header (pages rid.pageId)) with h0 | hpos
        · obtain ⟨hnext, hhdr, hdirty⟩ := hdel.full h0
          have hl : SameLayout s.header t.header := by
            rw [hhdr]
            exact ⟨rfl, rfl⟩
          have hn : t.header.numPages = s.header.numPages := by rw [hhdr]
          have hout : rid.pageId ∉ chain := fun hm => by
            have := ((hh.wf.mem_iff _).mp hm).2
            omega
          refine ⟨_, rid.pageId :: chain, ⟨?_, ?_, fun hd => ?_⟩,
            ⟨hl, rfl, lookup_stores hv.1 hdel.stores hl hn⟩,
            hsome, hr, fun q hq => update_of_ne hq _ _, ?_, fun hpos => absurd hpos (by omega),
              fun _ => ⟨hhdr, ?_⟩⟩
          · rw [hn]
            exact hq
          · refine hh.wf.push hl hout (by rw [hhdr]) (fun q => ?_) hdel.ok hnext hdel.free
            unfold RecordFileHeader.HasPage
            rw [hn]
            constructor
            · exact Or.inr
            · rintro (rfl | hq)
              · exact hv.1
              · exact hq
          · rw [hdirty] at hd
            cases hd
          · rw [update_self]
            exact hdel.free
          · rw [update_self, hnext]
        · obtain ⟨hnext, hhdr, hdirty⟩ := hdel.more hpos
          have hl : SameLayout s.header t.header := by
            rw [hhdr]
            exact SameLayout.refl _
          have hn : t.header.numPages = s.header.numPages := by rw [hhdr]
          refine ⟨_, chain, ⟨?_, ?_, fun hd => ?_⟩,
            ⟨hl, rfl, lookup_stores hv.1 hdel.stores hl hn⟩, hsome,
            hr, fun q hq => update_of_ne hq _ _, ?_, fun _ =>
              ⟨hhdr, ?_⟩, fun h0 => absurd hpos (by omega)⟩
          · rw [hn]
            exact hq
          · rw [hhdr]
            exact hh.wf.keep hv.1 hdel.ok hnext (iff_of_true hdel.free hpos)
          · rw [update_of_ne hp0, hhdr]
            exact hh.stored (hdirty ▸ hd)
          · rw [update_self]
            exact hdel.free
          · rw [update_self, hnext]
      · rintro _ _ ⟨hfree, rfl, rfl⟩ pool hq
        rw [update_eq_self] at hq
        exact ⟨⟨⟨hq, hh.wf, hh.stored⟩, rfl, rfl⟩, denied_of_free hv hfree⟩
    · exact hh.refusedPage ⟨hv.1, hr⟩ (fun page e he => deleteIn_refused he _)
        fun _ _ hk => ⟨hk, Or.inr ⟨hv.1, hr⟩⟩
  · simp only [if_neg hv, wp_check_error]
    exact ⟨⟨hh, rfl, rfl⟩, Or.inl ⟨Or.inl rfl, lookup_of_invalid hv⟩⟩

end Redbase.Record
