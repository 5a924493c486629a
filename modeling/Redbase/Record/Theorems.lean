import Redbase.Record.Lemmas.Further
import Redbase.Record.Lemmas.Overflow
import Redbase.Record.Lemmas.Occupancy
import Redbase.Record.Lemmas.Agreement
import Redbase.Record.Live

/-!
# The record file is a finite map

For every run on a `PageIo` that behaves as a byte array: what the operations answer, what a flush
leaves on disk, how the free-page chain and the bitmaps are kept, and what a scan yields. What the
filters of the scans mean, and that they agree.
-/

namespace Redbase.Record

open Prog Bytes Page Buffer RecordFile ByteIo Linked

variable {I : Type} [ReliableIo I] {pageFile : PageFile I} {recordSize : Nat}
  {h : List (Op × Reply)} {s : Opened I}

theorem Run.implements (hp : Represents pageFile Store.empty) (hr : Run pageFile recordSize h s) :
    s.file.header.numPages < 2 ^ 31 ∧ ∃ pages chain, Implements s recordSize h pages chain := by
  induction hr with
  | create pos hc =>
      obtain ⟨hn, hi⟩ := create_implements hp pos hc
      exact ⟨by rw [hn]; decide, hi⟩
  | @step h s op _ hn ih =>
      obtain ⟨hlt, pages, chain, hi⟩ := ih
      exact ⟨hn, (step_simulates hi hlt op).kept⟩

/-! ## The layout of a page -/

/-- What the layout of the data pages of a file gives. -/
structure PageLayout (h : RecordFileHeader) : Prop where
  ranges : ∀ slot < h.slotsPerPage, recordRange h slot = .ok (recordStart h slot)
  apart : (pageParts h).Pairwise fun a b => a.2 ≤ b.1
  inside : ∀ a ∈ pageParts h, a.1 < a.2 ∧ a.2 ≤ pageDataSize
  initializes : ∀ header p, ∃ t, initializePage header h.slotsPerPage h.recordSize p = .ok () t
  byte : ∀ slot < h.slotsPerPage, ∀ bytes, slot / 8 < (bitmap bytes h.slotsPerPage).length
  marks : ∀ p : OpenPage, p.header = h → ∀ slot < h.slotsPerPage, ∀ isFree other,
    slotIsFree (bitmap (p.markSlot slot isFree).bytes h.slotsPerPage) other =
      if other = slot then isFree else slotIsFree (bitmap p.bytes h.slotsPerPage) other
  keeps : ∀ p : OpenPage, p.header = h → ∀ slot isFree i,
    (i < recordPageHeaderSize ∨ recordPageHeaderSize + bitmapBytes h.slotsPerPage ≤ i) →
      (p.markSlot slot isFree).bytes.bytes[i]? = p.bytes.bytes[i]?

theorem RecordFileHeader.Fits.pageLayout {h : RecordFileHeader} (hf : h.Fits) : PageLayout h where
  ranges _ hs := hf.recordRange_eq hs
  apart := pageParts_pairwise h
  inside _ ha := hf.pageParts_inside ha
  initializes header p := by
    have hw : wp (initializePage header h.slotsPerPage h.recordSize) (fun _ _ => True) never p := by
      unfold initializePage
      simp only [wp_bind, wp_modify, wp_ite, wp_throw, wp_pure]
      rw [if_neg (Nat.not_lt.mpr hf.le)]
      trivial
    obtain ⟨_, t, he, -⟩ := exists_ok_of_wp hw
    exact ⟨t, he⟩
  byte slot hs bytes := by
    rw [length_bitmap hf]
    exact byte_lt_bitmapBytes hs
  marks p hp slot hs isFree other := by
    subst hp
    have hfree : freeAt p.header (markedSlot p.header p.bytes slot isFree) other = _ :=
      congrFun (freeAt_markedSlot hf hs isFree) other
    rw [Function.update_apply] at hfree
    exact hfree
  keeps p hp slot isFree i hi := by
    subst hp
    exact getElem?_markedSlot hf isFree hi

/-- `compute_slots_per_page` accepts the record sizes of which one record fits beside a bitmap of
one byte, and gives the largest number of records that fit. With this number the header of a page,
its bitmap and its slots do not overlap, and a slot is marked without touching anything else. -/
theorem computeSlotsPerPage_layout (recordSize : Nat) :
    ((∃ n, computeSlotsPerPage recordSize = .ok n) ↔
        0 < recordSize ∧ recordPageHeaderSize + 1 + recordSize ≤ pageDataSize) ∧
      ∀ n, computeSlotsPerPage recordSize = .ok n →
        FitsInPage recordSize n ∧ (∀ m, FitsInPage recordSize m → m ≤ n) ∧
          ∀ h : RecordFileHeader, h.recordSize = recordSize → h.slotsPerPage = n →
            PageLayout h := by
  rw [← fitsInPage_one]
  refine ⟨⟨?_, ?_⟩, fun n hn => ?_⟩
  · rintro ⟨n, hn⟩
    obtain ⟨hs, hpos, hle⟩ := computeSlotsPerPage_eq_ok hn
    exact ⟨hs, FitsInPage.mono hle hpos⟩
  · rintro ⟨hs, hone⟩
    obtain ⟨n, hn, -⟩ := computeSlotsPerPage_of_fits hs hone Nat.one_pos
    exact ⟨n, hn⟩
  · obtain ⟨hs, hpos, hle⟩ := computeSlotsPerPage_eq_ok hn
    obtain ⟨n', hn', hmax⟩ := computeSlotsPerPage_of_fits hs hle hpos
    obtain rfl := Except.ok.inj (hn.symm.trans hn')
    refine ⟨hle, hmax, ?_⟩
    rintro h rfl rfl
    exact RecordFileHeader.Fits.pageLayout hn

/-- Records of 16 bytes: 253 slots take the page to its last byte. -/
theorem computeSlotsPerPage_layout_full :
    FitsInPage 16 253 ∧ ¬ FitsInPage 16 254 ∧
      recordRange ⟨16, 253, -1, 0⟩ 252 = .ok (pageDataSize - 16) := by
  have hn : computeSlotsPerPage 16 = .ok 253 := by decide
  obtain ⟨hfit, hmax, hlayout⟩ := (computeSlotsPerPage_layout 16).2 253 hn
  refine ⟨hfit, fun h => absurd (hmax 254 h) (by decide), ?_⟩
  exact (hlayout ⟨16, 253, -1, 0⟩ rfl rfl).ranges 252 (by decide)

/-! ## The answers -/

/-- The bytes in the `PageIo` alone, opened with a new pool, hold the map that the history says. -/
def Durable (recordSize : Nat) (h : List (Op × Reply)) (s : Opened I) : Prop :=
  ∃ file, s.file.pool.files s.file.fileId = some file ∧
    ∀ io : I, content io = content file.io → ∀ cap > 0, ∃ pageFile io' file', PageFile.open io =
      .ok pageFile io' ∧ RecordFile.open pageFile cap = .ok file' ∧
        ∀ rid, Answers recordSize h (step ⟨cap, file'⟩ (.get rid)).2 (.get rid)

/-- After any run every operation answers as the map of its history does, none of them reports a
corrupted file or a pool without frames, and what was flushed is on disk. -/
theorem run_map (hp : Represents pageFile Store.empty) (hr : Run pageFile recordSize h s)
    (op : Op) :
    Answers recordSize h (step s op).2 op ∧ (op = .flush → Durable recordSize h (step s op).1) := by
  obtain ⟨hn, pages, chain, hi⟩ := hr.implements hp
  refine ⟨(step_simulates hi hn op).answers, ?_⟩
  rintro rfl
  obtain ⟨_, t, he, pages', ht, hpages, hhdr, hf, file, hfile, -, hsaved⟩ :=
    exists_ok_of_wp (flush_spec hi.holds)
  have hstep : (step s .flush).1 = ⟨s.cap, t⟩ := by
    show (s.reply _ _).1 = _
    unfold Opened.reply
    rw [he]
  rw [hstep]
  refine ⟨file, hfile, fun io hio cap hc => ?_⟩
  have hsmall : Small chain := hi.small hn
  obtain ⟨pageFile, io', hopen, file', hfile', hhdr', hold⟩ := hsaved.open hsmall hc hio
  have hi' : Implements ⟨cap, file'⟩ recordSize h pages' chain := by
    refine ⟨hold, ?_, ?_⟩
    · rw [hhdr', hhdr, hi.size]
    · rw [hhdr', hhdr, lookup_congr_pages hpages, hi.entries]
  have hn' : file'.header.numPages < 2 ^ 31 := by rw [hhdr', hhdr]; exact hn
  exact ⟨pageFile, io', file', hopen, hfile',
    fun rid => (step_simulates hi' hn' (.get rid)).answers⟩

/-- A new file, with a pool of one frame. -/
theorem exists_new {header : RecordFileHeader} (hn : RecordFileHeader.new recordSize = .ok header) :
    ∃ (pageFile : PageFile DiskPageIo) (file : RecordFile DiskPageIo 1),
      Represents pageFile Store.empty ∧
      RecordFile.create pageFile 1 recordSize = .ok file ∧ file.header.numPages = 0 := by
  obtain ⟨pageFile, -, hp⟩ := Page.create_spec (DiskPageIo.mk [])
  rcases create_spec (Represents.plain hp fun _ => Block.zero _) Nat.one_pos recordSize with
    ⟨e, io, he, -⟩ | ⟨file, pages, hc, -, -, hcount⟩
  · rw [hn] at he
    cases he
  · exact ⟨pageFile, file, hp, hc, hcount⟩

/-- A file for records of four bytes. -/
theorem exists_created :
    ∃ (pageFile : PageFile DiskPageIo) (s : Opened DiskPageIo), Represents pageFile Store.empty ∧
      Run pageFile 4 [] s ∧ s.file.header.numPages = 0 := by
  have hn : RecordFileHeader.new 4 = .ok ⟨4, 989, -1, 0⟩ := by decide
  obtain ⟨pageFile, file, hp, hc, hcount⟩ := exists_new hn
  exact ⟨pageFile, ⟨1, file⟩, hp, Run.create Nat.one_pos hc, hcount⟩

/-- A record is inserted, the file is reopened, and the record is there. -/
theorem run_map_reopen :
    ∃ (pageFile : PageFile DiskPageIo) (h : List (Op × Reply)) (s : Opened DiskPageIo) (rid : Rid),
      Run pageFile 4 h s ∧ h.length = 2 ∧ (step s (.get rid)).2 = .got ⟨rid, [1, 2, 3, 4]⟩ := by
  obtain ⟨pageFile, s, hp, run, hn⟩ := exists_created
  obtain ⟨hlt, pages, chain, hi⟩ := run.implements hp
  have h₁ := step_simulates hi hlt (.insert [1, 2, 3, 4])
  have hlt₁ : (step s (.insert [1, 2, 3, 4])).1.file.header.numPages < 2 ^ 31 := by
    have := h₁.grows
    omega
  have run₁ := run.step (.insert [1, 2, 3, 4]) hlt₁
  obtain ⟨pages₁, chain₁, hi₁⟩ := h₁.kept
  have h₂ := step_simulates hi₁ hlt₁ (.reopen 2 Nat.two_pos)
  have run₂ := run₁.step (.reopen 2 Nat.two_pos) (by have := h₁.grows; have := h₂.grows; omega)
  obtain ⟨rid, hr, -⟩ := h₁.answers
  have hget := (run_map hp run₂ (.get rid)).1
  refine ⟨pageFile, _, _, rid, run₂, rfl, ?_⟩
  rw [show (step (step s (.insert [1, 2, 3, 4])).1 (.reopen 2 Nat.two_pos)).2 = .done
    from h₂.answers, hr] at hget
  simpa only [Answers, OnLive, stored, Function.update_self] using hget

/-! ## The pages -/

/-- The data pages and their chain, as they are shown. -/
structure PagesOk {cap : Nat} (s : RecordFile I cap) (pages : Nat → PageData) (chain : List Nat) :
    Prop where
  shown : ∀ p ≤ s.header.numPages, shows s p = some (pages p)
  links : Chain (fun p => (headerOf (pages p)).nextFreePage) link recordPageListEnd
    s.header.firstFreePage chain
  nodup : chain.Nodup
  mem_iff : ∀ p, p ∈ chain ↔ s.header.HasPage p ∧ 0 < (headerOf (pages p)).numFreeSlots
  full : ∀ p, s.header.HasPage p → (headerOf (pages p)).numFreeSlots = 0 →
    (headerOf (pages p)).nextFreePage = recordPageFull
  numSlots : ∀ p, s.header.HasPage p → (headerOf (pages p)).numSlots = s.header.slotsPerPage
  count : ∀ p, s.header.HasPage p → (headerOf (pages p)).numFreeSlots =
    (List.range s.header.slotsPerPage).countP (slotIsFree (bitmap (pages p) s.header.slotsPerPage))
  zero : ∀ p, s.header.HasPage p → ∀ slot < s.header.slotsPerPage,
    slotIsFree (bitmap (pages p) s.header.slotsPerPage) slot = true →
      (pages p).read (recordStart s.header slot) s.header.recordSize =
        List.replicate s.header.recordSize 0

theorem Holds.pagesOk {cap : Nat} {s : RecordFile I cap} {pages : Nat → PageData} {chain : List Nat}
    (hh : Holds s pages chain) (hs : Small chain) : PagesOk s pages chain where
  shown _ hp := hh.shows hp
  links := hh.wf.links.congr_ptr fun p hp => (asI32_of_lt (hs p hp)).symm
  nodup := hh.wf.nodup
  mem_iff p := by
    rw [hh.wf.mem_iff]
    refine and_congr_right fun hp => ?_
    rw [(hh.wf.page p hp).numFree]
  full p hp h0 := (hh.wf.page p hp).full ((hh.wf.page p hp).numFree ▸ h0)
  numSlots p hp := (hh.wf.page p hp).numSlots
  count p hp := (hh.wf.page p hp).numFree
  zero p hp := (hh.wf.page p hp).zero

/-- In every run the chain of the pages with a free slot, their counters, their bitmaps and their
free slots are kept, and `insert` never reports a corrupted page. -/
theorem run_pages (hp : Represents pageFile Store.empty) (hr : Run pageFile recordSize h s) :
    (∃ pages chain, PagesOk s.file pages chain) ∧
      ∀ data message t, RecordFile.insert data s.file ≠ .error (.error (.corrupted message)) t := by
  obtain ⟨hn, pages, chain, hi⟩ := hr.implements hp
  refine ⟨⟨pages, chain, hi.holds.pagesOk (hi.small hn)⟩, fun data message t he => ?_⟩
  have ha := (step_simulates hi hn (.insert data)).answers
  have hstep : (step s (.insert data)).2 = .failed (.error (.corrupted message)) := by
    show (s.reply _ _).2 = _
    unfold Opened.reply
    rw [he]
  rw [hstep, Answers] at ha
  split at ha
  next => obtain ⟨_, ⟨⟩, -⟩ := ha
  next => cases ha

/-- A data page with a free slot is the chain. -/
theorem run_pages_one :
    ∃ (pageFile : PageFile DiskPageIo) (h : List (Op × Reply)) (s : Opened DiskPageIo),
      Run pageFile 4 h s ∧ h.length = 1 ∧ ∃ pages chain, PagesOk s.file pages chain := by
  obtain ⟨pageFile, s, hp, run, hn⟩ := exists_created
  obtain ⟨hlt, pages, chain, hi⟩ := run.implements hp
  have h₁ := step_simulates hi hlt (.insert [1, 2, 3, 4])
  have run₁ := run.step (.insert [1, 2, 3, 4]) (by have := h₁.grows; omega)
  exact ⟨pageFile, _, _, run₁, rfl, (run_pages hp run₁).1⟩

/-! ## The number of pages -/

theorem Run.dense (hp : Represents pageFile Store.empty) (hr : Run pageFile recordSize h s) :
    Dense s.file.header h := by
  induction hr with
  | create pos hc =>
      have hn := (create_implements hp pos hc).1
      exact ⟨Nat.zero_le _, fun n hs => by rw [hn] at hs; cases hs⟩
  | @step h s op hr hn ih =>
      obtain ⟨hlt, pages, chain, hi⟩ := hr.implements hp
      exact hi.step_dense hlt ih op

/-- After any run the file has as many data pages as the largest number of records that were live at
once needs, and a step adds a page only when it inserts and every slot is taken. -/
theorem run_numPages (hp : Represents pageFile Store.empty) (hr : Run pageFile recordSize h s) :
    s.file.header.numPages = (peak h + s.file.header.slotsPerPage - 1) /
      s.file.header.slotsPerPage ∧
      ∀ op, (step s op).1.file.header.numPages ≠ s.file.header.numPages →
        (∃ data, op = .insert data) ∧ liveRids h = s.file.header.slots := by
  obtain ⟨-, pages, chain, hi⟩ := hr.implements hp
  refine ⟨(hr.dense hp).numPages_eq hi.holds.wf.fits.slots_pos, fun op hgrow => ?_⟩
  by_cases hc : chain = []
  · subst hc
    refine ⟨?_, hi.slots_taken⟩
    by_contra hno
    exact hgrow (hi.step_numPages op fun _ data hop => hno ⟨data, hop⟩)
  · exact absurd (hi.step_numPages op fun hn => absurd hn hc) hgrow

/-- One record is inserted and deleted: the peak is 1, and there is one page. -/
theorem run_numPages_one :
    ∃ (pageFile : PageFile DiskPageIo) (h : List (Op × Reply)) (s : Opened DiskPageIo),
      Run pageFile 4 h s ∧ h.length = 2 ∧ liveRids h = ∅ ∧ peak h = 1 ∧
        s.file.header.numPages = 1 := by
  obtain ⟨pageFile, s, hp, run, hn⟩ := exists_created
  obtain ⟨hlt, pages, chain, hi⟩ := run.implements hp
  have h₁ := step_simulates hi hlt (.insert [1, 2, 3, 4])
  have hlt₁ : (step s (.insert [1, 2, 3, 4])).1.file.header.numPages < 2 ^ 31 := by
    have := h₁.grows
    omega
  have run₁ := run.step (.insert [1, 2, 3, 4]) hlt₁
  obtain ⟨pages₁, chain₁, hi₁⟩ := h₁.kept
  obtain ⟨rid, hr, -⟩ := h₁.answers
  have h₂ := step_simulates hi₁ hlt₁ (.delete rid)
  have run₂ := run₁.step (.delete rid) (by have := h₁.grows; have := h₂.grows; omega)
  have hdone : (step (step s (.insert [1, 2, 3, 4])).1 (.delete rid)).2 = .done := by
    simpa only [Answers, OnLive, hr, stored, Function.update_self] using h₂.answers
  have hlive : liveRids ((.delete rid, (step (step s (.insert [1, 2, 3, 4])).1 (.delete rid)).2) ::
      [(.insert [1, 2, 3, 4], (step s (.insert [1, 2, 3, 4])).2)]) = ∅ := by
    rw [hdone, hr]
    simp [liveRids]
  have hpeak : peak ((.delete rid, (step (step s (.insert [1, 2, 3, 4])).1 (.delete rid)).2) ::
      [(.insert [1, 2, 3, 4], (step s (.insert [1, 2, 3, 4])).2)]) = 1 := by
    rw [peak, hlive, hr]
    simp [peak, liveRids]
  refine ⟨pageFile, _, _, run₂, rfl, hlive, hpeak, ?_⟩
  have hpages := (run_numPages hp run₂).1
  obtain ⟨-, pages₂, chain₂, hi₂⟩ := run₂.implements hp
  have hpos := hi₂.holds.wf.fits.slots_pos
  rw [hpeak, Nat.add_sub_cancel_left, Nat.div_self hpos] at hpages
  exact hpages

/-! ## Scans -/

/-- In every state, a scan with a filter that is accepted yields exactly the live records that the
filter selects, in order, and then `None` for ever, just when every page header passes its check;
below `2^31` pages every one does. -/
theorem trace_scan {hist : List (Op × Reply)} (hp : Represents pageFile Store.empty)
    (ht : Trace pageFile recordSize hist s) (call : ScanCall) (sc : RecordScan I s.cap)
    (hs : s.file.startScan call = .ok sc) :
    (sc.Exact recordSize hist ↔ HeadersValid s.file) ∧
      (s.file.header.numPages < 2 ^ 31 → HeadersValid s.file) := by
  obtain ⟨pages, chain, hi⟩ := ht.implements hp
  rw [hi.exact_iff hs, hi.holds.headersValid_iff]
  exact ⟨Iff.rfl, hi.readable⟩

/-- A new file of one-slot pages. -/
theorem exists_one_slot :
    ∃ (pageFile : PageFile DiskPageIo) (s : Opened DiskPageIo) (pages : Nat → PageData)
        (chain : List Nat),
      Represents pageFile Store.empty ∧ Trace pageFile 4000 [] s ∧
        Implements s 4000 [] pages chain ∧
      Full s.file.header pages ∧ s.file.header.numPages = 0 := by
  have hn : RecordFileHeader.new 4000 = .ok ⟨4000, 1, -1, 0⟩ := by decide
  obtain ⟨pageFile, file, hp, hc, hcount⟩ := exists_new hn
  obtain ⟨-, pages, chain, hi⟩ := create_implements hp Nat.one_pos hc
  refine ⟨pageFile, ⟨1, file⟩, pages, chain, hp, .create Nat.one_pos hc, hi,
    ⟨?_, fun p hhas => ?_⟩, hcount⟩
  · have hfits : computeSlotsPerPage file.header.recordSize = .ok file.header.slotsPerPage :=
      hi.holds.wf.fits
    rw [show file.header.recordSize = 4000 from hi.size] at hfits
    exact (Except.ok.inj (hfits.symm.trans (by decide : computeSlotsPerPage 4000 = .ok 1)))
  · obtain ⟨hfirst, hlast⟩ : 1 ≤ p ∧ p ≤ file.header.numPages := hhas
    omega

/-- Of the records on three pages the one in the middle is deleted. -/
theorem trace_scan_freed :
    ∃ (pageFile : PageFile DiskPageIo) (h : List (Op × Reply)) (s : Opened DiskPageIo),
      Trace pageFile 4000 h s ∧ stored h ⟨1, 0⟩ ≠ none ∧ stored h ⟨2, 0⟩ = none ∧
        stored h ⟨3, 0⟩ ≠ none ∧ s.file.scan.Exact 4000 h := by
  obtain ⟨pageFile, s, pages, chain, hp, trace, hi, hf, hcount⟩ := exists_one_slot
  obtain ⟨h, s', pages', chain', trace', hi', hf', hcount'⟩ := trace.grow hi hf 3 (by omega)
  have hhas : ∀ p, 1 ≤ p → p ≤ 3 → s'.file.header.HasPage p := fun p h₁ h₃ => ⟨h₁, by omega⟩
  obtain ⟨pages'', chain'', hi'', -, hn, hl⟩ :=
    hi'.free hf'.one (hhas 2 (by omega) (by omega)) (hf'.used 2 (hhas 2 (by omega) (by omega)))
  have hscan := trace_scan hp (trace'.step (.delete ⟨2, 0⟩)) .scan _ rfl
  refine ⟨pageFile, _, _, trace'.step (.delete ⟨2, 0⟩), ?_, ?_, ?_,
    hscan.1.mpr (hscan.2 (by omega))⟩
  · rw [← hi''.entries, hl, Function.update_of_ne (by simp)]
    exact hf'.used 1 (hhas 1 (by omega) (by omega))
  · rw [← hi''.entries, hl, Function.update_self]
  · rw [← hi''.entries, hl, Function.update_of_ne (by simp)]
    exact hf'.used 3 (hhas 3 (by omega) (by omega))

/-- After two one-slot pages with ids from `2^31` on are freed, a scan no longer yields the records
that are left. -/
theorem scan_refused :
    ∃ (pageFile : PageFile DiskPageIo) (h : List (Op × Reply)) (s : Opened DiskPageIo),
      Represents pageFile Store.empty ∧ Trace pageFile 4000 h s ∧ ¬ s.file.scan.Exact 4000 h := by
  obtain ⟨pageFile, s, pages, chain, hp, trace, hi, hf, hcount⟩ := exists_one_slot
  obtain ⟨h, s', pages', chain', ht, hi', p, hhas, hu⟩ := exists_unreadable trace hi hf hcount
  have hs : s'.file.startScan .scan = .ok s'.file.scan := rfl
  exact ⟨pageFile, h, s', hp, ht, fun he => hu ((hi'.exact_iff hs).mp he p hhas)⟩

/-! ## Filters -/

/-- An accepted filter answers with its value on every record of the size it was accepted for, and
never stops a scan; one that is refused fails on every such record, as its validation does. -/
theorem logicFilter_exact (filter : LogicFilter) (n : Nat) :
    (filter.validateForRecord n = .ok () → Computes n filter.matches filter.denote) ∧
      (∀ e, filter.validateForRecord n = .error e →
        ∀ record, record.length = n → filter.matches record = .error e) ∧
      ∀ {I : Type} [PageIo I] {cap : Nat} (file : RecordFile I cap) (sc : RecordScan I cap),
        file.scanWithLogic filter = .ok sc →
          ∀ k e, thrown (RecordScan.calls k sc) = some e → ¬ FilterError e := by
  refine ⟨LogicFilter.computes, ?_, ?_⟩
  · rintro e he record rfl
    exact LogicFilter.matches_error he
  · intro I _ cap file sc hs k e he
    obtain ⟨_, hv, hsc⟩ := bind_eq_ok.mp hs
    obtain rfl := Except.ok.inj hsc
    have hd := (LogicFilter.computes hv).decides
    have hagree : Agree file.header.recordSize (file.scanWith fun bytes => filter.matches bytes)
        (file.scanWith fun bytes => filter.matches bytes) := ⟨rfl, rfl, hd, fun _ _ => rfl⟩
    exact (alike_returned (calls_alike hagree k)).2.2 e he

/-- `not (a < 7 and a = b)` on two numbers. -/
theorem logicFilter_exact_not :
    let filter : LogicFilter := .not (.and [.clause (.fieldEqualsValue (.int32 0) .lt (.int32 7)),
      .clause (.fieldComparesField (.int32 0) .eq (.int32 4))])
    Computes 8 filter.matches filter.denote ∧
      ∀ record, record.length = 7 → filter.matches record = .error (.predicateOutOfBounds 4 4 7) :=
  ⟨(logicFilter_exact _ 8).1 rfl, (logicFilter_exact _ 7).2.1 _ rfl⟩

/-- A predicate and the clause that says the same are accepted for the same record sizes and then
select the same records, and so are a list of clauses, the `All` of it and the `And` of its clauses;
the scans with them yield the same records. -/
theorem filters_agree :
    (∀ offset op number, (ScanPredicate.int32 offset op number).Corresponds
        (.fieldEqualsValue (.int32 offset) op (.int32 number))) ∧
      (∀ offset op bits, (ScanPredicate.float32 offset op bits).Corresponds
        (.fieldEqualsValue (.float32 offset) op (.float32 bits))) ∧
      (∀ offset length op bytes, (ScanPredicate.bytes offset length op bytes).Corresponds
        (.fieldEqualsValue (.bytes offset length) op (.bytes bytes))) ∧
      (∀ clauses ≠ [], ∃ filter, CompoundPredicate.and clauses = .ok filter ∧
        (∀ n, LogicFilter.validateForRecord n (.all filter) = filter.validateForRecord n ∧
          LogicFilter.validateForRecord n (.and (clauses.map .clause)) =
            filter.validateForRecord n) ∧
        ∀ record, LogicFilter.matches record (.all filter) = filter.matches record ∧
          LogicFilter.matches record (.and (clauses.map .clause)) = filter.matches record) ∧
      ∀ {I : Type} [PageIo I] {cap : Nat} (file : RecordFile I cap),
        (∀ p clause, ScanPredicate.Corresponds p clause →
          SameScan (file.scanWithPredicate p) (file.scanWithFilter ⟨[clause]⟩)) ∧
        ∀ clauses ≠ [], file.scanWithLogic (.all ⟨clauses⟩) = file.scanWithFilter ⟨clauses⟩ ∧
          file.scanWithLogic (.and (clauses.map .clause)) = file.scanWithFilter ⟨clauses⟩ := by
  refine ⟨fun offset op number => corresponds_value (.int32 offset) op (.int32 number),
    fun offset op bits => corresponds_value (.float32 offset) op (.float32 bits),
    fun offset length op bytes => corresponds_value (.bytes offset length) op (.bytes bytes),
    fun clauses hne => ⟨⟨clauses⟩, if_neg (by simpa using hne),
      fun n => ⟨rfl, validate_and_clauses hne n⟩,
      fun record => ⟨matches_all_clauses ⟨clauses⟩ record, matches_and_clauses hne record⟩⟩, ?_⟩
  intro I _ cap file
  exact ⟨fun p clause h => sameScan_of_corresponds h file,
    fun clauses hne => ⟨scanWithLogic_all file ⟨clauses⟩, scanWithLogic_and file hne⟩⟩

/-! ## Page files with further pages -/

section Further

variable {cap : Nat} {s t : RecordFile I cap} {file : PageFile I} {pages : Nat → PageData}
  {chain : List Nat} {l : List Record}

/-- Every record that was inserted is found, as long as an insert that needs a page gets the one
after the last declared page. -/
theorem inserts_found (hf : Reachable file) (ho : RecordFile.open file cap = .ok s)
    (hp : DataPages s.header file.contents pages chain) (hr : Inserts TakesNext s l t) :
    ∀ r ∈ l, Finds t r := by
  have hopened := open_serving hf.steady ho
  have hserves := hr.serves ⟨_, _, _, _, stocked_of_open hf.steady ho hp, by simp⟩
  exact fun r hr => hserves.finds hopened.1.cap_pos hr

end Further

theorem inserts_found_one :
    ∃ (file : PageFile DiskPageIo) (s t : RecordFile DiskPageIo 1) (rid : Rid), Reachable file ∧
      RecordFile.open file 1 = .ok s ∧ RecordFile.insert [1, 2, 3, 4] s = .ok rid t ∧
      Finds t ⟨rid, [1, 2, 3, 4]⟩ := by
  have hn : 0 < 2 ^ 31 := by decide
  obtain ⟨file, s, pages, hf, ho, hhdr, hq, hp⟩ := exists_opened hn
  have hlen : ([1, 2, 3, 4] : List UInt8).length = s.header.recordSize := by rw [hhdr]; rfl
  have hi := insert_goes_next hq hp.wf.fits hp.wf.links.eq_nil (by simp [hhdr]) (by decide) hlen
  obtain ⟨rid, t, ht, -⟩ := exists_ok_of_wp hi
  have hnext : TakesNext s [1, 2, 3, 4] := by
    intro _ _ pageFile hfile
    have hheader := hq.header
    rw [headers, hfile, Option.map_some, Option.some.injEq] at hheader
    rw [nextPageId, hheader, hhdr]
    rfl
  exact ⟨file, s, t, rid, hf, ho, ht, inserts_found hf ho hp (.inserted _ .start hnext ht) _
    List.mem_cons_self⟩

/-- The page file has one page more than is declared: the record goes to page 2, and is out of
range. -/
theorem insert_not_found :
    ∃ (file : PageFile DiskPageIo) (s t : RecordFile DiskPageIo 1) (pages : Nat → PageData)
        (rid : Rid),
      Reachable file ∧ RecordFile.open file 1 = .ok s ∧ DataPages s.header file.contents pages [] ∧
      RecordFile.insert [1, 2, 3, 4] s = .ok rid t ∧ ¬ Finds t ⟨rid, [1, 2, 3, 4]⟩ := by
  have hn : 1 < 2 ^ 31 := by decide
  obtain ⟨file, s, pages, hf, ho, hhdr, hq, hp⟩ := exists_opened hn
  have hlen : ([1, 2, 3, 4] : List UInt8).length = s.header.recordSize := by rw [hhdr]; rfl
  have hi := insert_goes_next hq hp.wf.fits hp.wf.links.eq_nil (by simp [hhdr]) (by decide) hlen
  obtain ⟨rid, t, ht, hpage, hnum⟩ := exists_ok_of_wp hi
  refine ⟨file, s, t, pages, rid, hf, ho, hp, ht, not_finds_of_gt ?_⟩
  show t.header.numPages < rid.pageId
  rw [hnum, hpage, hhdr]
  decide

end Redbase.Record
