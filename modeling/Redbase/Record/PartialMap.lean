import Redbase.Record.Lemmas.Contents

/-!
# A file of any bytes is a partial map

Whatever is wrong with the pages, what a file shows under its record ids is changed as a map is, and
a scan that goes through shows all of it.
-/

namespace Redbase.Record

open Prog Bytes Page Buffer RecordFile Function

variable {I : Type} [ReliableIo I] {cap : Nat} {pageFile : PageFile I} {file : RecordFile I cap}
  {s : Opened I} {hd : FileHeader} {pages : Nat → Option PageData}

theorem shows_eq {t : RecordFile I cap} (hs : Serving t.pool t.fileId hd pages) : shows t = pages :=
  funext hs.shows

theorem headersValid_iff {t : RecordFile I cap} (hs : Serving t.pool t.fileId hd pages) :
    HeadersValid t ↔ ∀ p, t.header.HasPage p → Passing t.header pages p := by
  unfold HeadersValid Passing
  simp only [shows_eq hs, readPageHeader_eq_ok]
  refine forall₂_congr fun p _ => exists_congr fun bytes => ?_
  constructor
  · rintro ⟨_, hb, hp, -⟩
    exact ⟨hb, hp⟩
  · rintro ⟨hb, hp⟩
    exact ⟨_, hb, hp, rfl⟩

theorem held_of_recordIn {t : RecordFile I cap} (hs : Serving t.pool t.fileId hd pages)
    (rid : Rid) :
    held t rid = (recordIn t.header pages rid).map Record.data := by
  rw [held, shows_eq hs]

/-- The file is open, and its pages can be read just where those of `file` could. -/
structure Keeps (file : RecordFile I cap) (s : Opened I) : Prop where
  tidy : ∃ hd pages, Serving s.file.pool s.file.fileId hd pages ∧ Tidy s.file.header pages
  size : s.file.header.recordSize = file.header.recordSize
  readable : HeadersValid s.file ↔ HeadersValid file
  pos : 0 < s.cap

theorem isI32_of_read {bytes : PageData} {h : RecordFileHeader}
    (hr : RecordFileHeader.read (bytes.read 0 recordFileHeaderSize) = h) :
    IsI32 h.firstFreePage := by
  rw [← hr]
  refine i32OfBytes_isI32 ?_
  rw [length_slice, bytes.length_read (by decide)]
  rfl

theorem keeps_of_open (hp : Page.Reachable pageFile) (ho : RecordFile.open pageFile cap = .ok file)
    (hn : file.header.numPages < 2 ^ 31) (hc : Counted file) : Keeps file ⟨cap, file⟩ := by
  obtain ⟨hopened, -⟩ := open_serving hp.steady ho
  have hs := hopened.serving
  have hv := hopened.checked.valid
  obtain ⟨bytes, hb, hread⟩ := hopened.checked.stored
  refine ⟨⟨_, _, hs, hv.fits, hn, ⟨?_, isI32_of_read hread⟩, fun p bytes hpage hb hpass => ?_, ?_⟩,
    rfl, .rfl, hopened.cap_pos⟩
  · have hend := hv.end_le
    simp only [recordPageListEnd, recordPageFull] at hend ⊢
    omega
  · exact hc p bytes _ hpage ((congrFun (shows_eq hs) p).trans hb)
      (readPageHeader_eq_ok.mpr ⟨hpass, rfl⟩)
  · rw [hb]
    exact Option.some_ne_none _

theorem Reset.readable {h h' : RecordFileHeader} {pages' : Nat → Option PageData}
    (hr : Reset h h' pages pages') :
    (∀ p, h'.HasPage p → Passing h' pages' p) ↔ ∀ p, h.HasPage p → Passing h pages p := by
  refine forall_congr' fun p => ?_
  have hpage : h'.HasPage p ↔ h.HasPage p := by
    unfold RecordFileHeader.HasPage
    rw [hr.numPages]
  rw [hpage]
  exact forall_congr' fun hin => hr.passing p hin

/-- A step that leaves the records `m`. -/
theorem Keeps.moves {s : Opened I} {t : RecordFile I s.cap} {m : Rid → Option Record}
    (hk : Keeps file s) (hs : Serving s.file.pool s.file.fileId hd pages)
    (hm : Moves s.file t hd pages m) :
    Keeps file ⟨s.cap, t⟩ ∧ held t = fun rid => (m rid).map Record.data := by
  obtain ⟨pages', ht, hr, rfl⟩ := hm
  refine ⟨⟨⟨hd, pages', ht, hr.tidy⟩, hr.layout.size.trans hk.size, ?_, hk.pos⟩,
    funext (held_of_recordIn ht)⟩
  show HeadersValid t ↔ _
  rw [headersValid_iff ht, hr.readable, ← headersValid_iff hs, hk.readable]

/-- What one operation answers, and what it leaves. -/
structure Steps (file : RecordFile I cap) (s : Opened I) (op : Op) (t : Opened I) (r : Reply) :
    Prop where
  keeps : Keeps file t
  answers : MapStep file.header.recordSize (HeadersValid file) (held s.file) op r (held t.file)

theorem Steps.of_held {op : Op} {r : Reply} {t : RecordFile I s.cap} {m : Rid → Option (List UInt8)}
    (ht : Keeps file ⟨s.cap, t⟩ ∧ held t = m)
    (ha : MapStep file.header.recordSize (HeadersValid file) (held s.file) op r m) :
    Steps file s op ⟨s.cap, t⟩ r := by
  refine ⟨ht.1, ?_⟩
  rw [ht.2]
  exact ha

theorem data_update (m : Rid → Option Record) (rid : Rid) (r : Option Record) :
    (fun rid' => (update m rid r rid').map Record.data) =
      update (fun rid' => (m rid').map Record.data) rid (r.map Record.data) := by
  funext rid'
  rcases eq_or_ne rid' rid with rfl | hne
  · rw [update_self, update_self]
  · rw [update_of_ne hne, update_of_ne hne]

theorem Keeps.step (hk : Keeps file s) (op : Op) (hop : Stays op) :
    Steps file s op (step s op).1 (step s op).2 := by
  obtain ⟨hd, pages, hs, ht⟩ := hk.tidy
  have hheld : held s.file = fun rid => (recordIn s.file.header pages rid).map Record.data :=
    funext (held_of_recordIn hs)
  have hnone : ∀ rid, held s.file rid = none ↔
      recordIn s.file.header pages rid = none := fun rid => by
    rw [hheld]
    exact Option.map_eq_none_iff
  have hread : ∀ t, ReadOn s.file t hd pages → Keeps file ⟨s.cap, t⟩ ∧ held t = held s.file :=
    fun t hr => by
    rw [hheld]
    exact hk.moves hs (.of_readOn ht hr)
  have hmoved : ∀ t rid r, Moves s.file t hd pages (update (recordIn s.file.header pages) rid r) →
      Keeps file ⟨s.cap, t⟩ ∧ held t = update (held s.file) rid (r.map Record.data) :=
        fun t rid r hm => by
    rw [hheld, ← data_update]
    exact hk.moves hs hm
  cases op with
  | insert data => exact hop.elim
  | reopen cap pos => exact hop.elim
  | get rid =>
      refine reply_of_wp (R := Steps file s (.get rid)) (get_serving hs ht.fits rid) ?_ ?_
      · rintro r t ⟨hr, hrec⟩
        obtain rfl := rid_of_recordIn ht.fits hrec
        exact .of_held (hread t hr)
          (.got (by rw [hheld]; exact congrArg (Option.map Record.data) hrec))
      · rintro e t ⟨hr, -, hrec⟩
        exact .of_held (hread t hr) (.notGot ((hnone rid).mpr (hrec hk.pos)))
  | update rid data =>
      refine reply_of_wp (R := Steps file s (.update rid data))
        (update_map hs ht hk.pos rid data) ?_ ?_
      · rintro _ t ⟨hlen, hrec, hm⟩
        exact .of_held (hmoved t rid _ hm)
          (.updated (fun h => hrec ((hnone rid).mp h)) (hlen.trans hk.size))
      · rintro e t ⟨hr, hrec⟩
        exact .of_held (hread t hr)
          (.notUpdated fun hlen => (hnone rid).mpr (hrec (hlen.trans hk.size.symm)))
  | delete rid =>
      refine reply_of_wp (R := Steps file s (.delete rid)) (delete_map hs ht hk.pos rid) ?_ ?_
      · rintro _ t ⟨hrec, hm⟩
        exact .of_held (hmoved t rid _ hm) (.deleted fun h => hrec ((hnone rid).mp h))
      · rintro e t ⟨hr, hrec⟩
        exact .of_held (hread t hr) (.notDeleted ((hnone rid).mpr hrec))
  | flush =>
      refine reply_of_wp (R := Steps file s .flush) (flush_map hs ht hk.pos) ?_
        fun _ _ => False.elim
      intro _ t hm
      have ht := hk.moves hs hm
      rw [← hheld] at ht
      exact .of_held ht .flushed
  | scan =>
      have hw := collect_map hs ht.fits hk.pos
      unfold Record.step Opened.scan
      cases hr : RecordScan.collect s.file.scan with
      | ok l t =>
          obtain ⟨hrt, hl⟩ := wp_ok hr hw
          have hall := hk.readable.mp ((headersValid_iff hs).mpr hl.all)
          refine .of_held (hread _ hrt) (.scanned hall hl.inOrder fun record => ?_)
          rw [hl.mem_iff, hheld]
          constructor
          · intro hrec
            exact congrArg (Option.map Record.data) hrec
          · intro hrec
            obtain ⟨⟨rid, data⟩, hr, hdata⟩ := Option.map_eq_some_iff.mp hrec
            have hrid := rid_of_recordIn ht.fits hr
            cases record
            cases hrid
            cases hdata
            exact hr
      | error e t =>
          obtain ⟨hrt, hno⟩ := wp_error hr hw
          exact .of_held (hread _ hrt)
            (.notScanned fun hv => hno ((headersValid_iff hs).mp (hk.readable.mpr hv)))

theorem Calls.keeps {s₀ s : Opened I} (hr : Calls (fun _ op => Stays op) s₀ s)
    (hk : Keeps file s₀) : Keeps file s := by
  induction hr with
  | start => exact hk
  | step op _ hop ih => exact (ih.step op hop).keeps

/-- Every run of reads, updates, deletes, scans and flushes on a file of any bytes is one of a
partial map: what the file showed when it was opened, changed as the operations say. A scan goes
through if and only if every page could be read when the file was opened. -/
theorem opened_partialMap (hp : Page.Reachable pageFile)
    (ho : RecordFile.open pageFile cap = .ok file) (hn : file.header.numPages < 2 ^ 31)
    (hc : Counted file) (hr : Calls (fun _ op => Stays op) ⟨cap, file⟩ s) (op : Op)
    (hop : Stays op) :
    MapStep file.header.recordSize (HeadersValid file)
      (held s.file) op (step s op).2 (held (step s op).1.file) :=
  ((hr.keeps (keeps_of_open hp ho hn hc)).step op hop).answers

theorem MapStep.got_of_found {size : Nat} {readable : Prop} {m m' : Rid → Option (List UInt8)}
    {rid : Rid} {r : Reply} (h : MapStep size readable m (.get rid) r m') (hm : m rid ≠ none) :
    ∃ data, r = .got ⟨rid, data⟩ := by
  cases h with
  | got => exact ⟨_, rfl⟩
  | notGot hnone => exact absurd hnone hm

theorem MapStep.failed_of_stuck {size : Nat} {readable : Prop} {m m' : Rid → Option (List UInt8)}
    {r : Reply} (h : MapStep size readable m .scan r m') (hno : ¬ readable) :
    ∃ e, r = .failed e := by
  cases h with
  | scanned hall => exact absurd hall hno
  | notScanned => exact ⟨_, rfl⟩

/-- One record to a page: page 1 holds one, and page 2 is no data page. -/
def brokenHeader : RecordFileHeader := ⟨4004, 1, -1, 2⟩

def brokenPages : Nat → PageData
  | 0 => (Block.zero _).write 0 brokenHeader.encode
  | 1 => (Block.zero _).write 0 (RecordPageHeader.encode ⟨recordPageFull, 1, 0⟩)
  | _ => Block.zero _

theorem exists_broken :
    ∃ (pageFile : PageFile DiskPageIo) (file : RecordFile DiskPageIo 1), Page.Reachable pageFile ∧
      RecordFile.open pageFile 1 = .ok file ∧ file.header = brokenHeader ∧
        ∀ p < 3, shows file p = some (brokenPages p) := by
  obtain ⟨pageFile, hreach, hp⟩ := exists_pages brokenPages (n := 2) (by decide)
  have hstored : RecordFileHeader.read ((brokenPages 0).read 0 recordFileHeaderSize) =
      brokenHeader := by
    rw [brokenPages, Block.read_write_part _ (by decide) (by decide)]
    rfl
  have haccepted : brokenHeader.validate = .ok () := by decide
  obtain ⟨file, ho, hh, -⟩ :=
    open_valid hp (le_refl _) Nat.one_pos hstored (RecordFileHeader.validate_eq_ok_iff.mp haccepted)
  refine ⟨pageFile, file, hreach, ho, hh, fun p hlt => ?_⟩
  rw [shows_eq (open_serving hreach.steady ho).1.serving, hp.contents, if_pos hlt]

theorem headerOf_brokenPages : headerOf (brokenPages 1) = ⟨recordPageFull, 1, 0⟩ :=
  headerOf_writeHeader ⟨recordPageFull_isI32, by decide, by decide⟩

theorem not_passes_zero (h : RecordFileHeader) (hs : h.slotsPerPage ≠ 0) :
    ¬ (headerOf (Block.zero pageDataSize)).Passes h.slotsPerPage := by
  intro hp
  have hnum := hp.numSlots
  unfold headerOf at hnum
  rw [Block.read_zero] at hnum
  exact hs hnum.symm

/-- The record of page 1 is read, and a scan fails at page 2. -/
theorem opened_partialMap_broken :
    ∃ (pageFile : PageFile DiskPageIo) (file : RecordFile DiskPageIo 1) (data : List UInt8)
        (e : Stop RecordError),
      RecordFile.open pageFile 1 = .ok file ∧
        (step ⟨1, file⟩ (.get ⟨1, 0⟩)).2 = .got ⟨⟨1, 0⟩, data⟩ ∧
        (step ⟨1, file⟩ .scan).2 = .failed e := by
  obtain ⟨pageFile, file, hreach, ho, hh, hshows⟩ := exists_broken
  have hn : file.header.numPages < 2 ^ 31 := by
    rw [hh]
    decide
  have hc : Counted file := by
    intro p bytes header hp hb hr
    obtain ⟨hpass, rfl⟩ := readPageHeader_eq_ok.mp hr
    obtain ⟨hpos, hle⟩ := hp
    rw [hh] at hle
    obtain rfl | rfl : p = 1 ∨ p = 2 := by
      have hle : p ≤ 2 := hle
      omega
    · rw [hshows 1 (by decide), Option.some.injEq] at hb
      rw [← hb, headerOf_brokenPages]
      exact Nat.zero_le _
    · rw [hshows 2 (by decide), Option.some.injEq] at hb
      rw [← hb, hh] at hpass
      exact absurd hpass (not_passes_zero _ (by decide))
  have hf : file.header.Fits := (open_serving hreach.steady ho).1.checked.valid.fits
  have hused : UsedSlot file.header (brokenPages 1) ⟨1, 0⟩ := by
    rw [hh]
    refine ⟨headerOf_brokenPages ▸ ⟨rfl, Nat.zero_le _, le_refl _⟩, by decide, ?_⟩
    have hbits : bitmap (brokenPages 1) 1 = [0] := by
      rw [bitmap, brokenPages, Block.read_write_of_disjoint _ (Or.inr (by decide)), Block.read_zero]
      rfl
    rw [freeAt, brokenHeader, hbits]
    rfl
  have hin : file.header.HasPage 1 := by
    rw [hh]
    decide
  have hfound : held file ⟨1, 0⟩ ≠ none := fun hnone =>
    (recordIn_ne_none_iff hf hin (hshows 1 (by decide))).mpr hused (Option.map_eq_none_iff.mp hnone)
  have hstuck : ¬ HeadersValid file := by
    intro hv
    obtain ⟨bytes, header, hb, hr⟩ := hv 2 (by rw [hh]; decide)
    rw [hshows 2 (by decide), Option.some.injEq] at hb
    obtain ⟨hpass, -⟩ := readPageHeader_eq_ok.mp hr
    rw [← hb, hh] at hpass
    exact not_passes_zero _ (by decide) hpass
  have hget := opened_partialMap hreach ho hn hc .start (.get ⟨1, 0⟩) trivial
  have hscan := opened_partialMap hreach ho hn hc .start .scan trivial
  obtain ⟨data, hdata⟩ := hget.got_of_found hfound
  obtain ⟨e, he⟩ := hscan.failed_of_stuck hstuck
  exact ⟨pageFile, file, data, e, ho, hdata, he⟩

end Redbase.Record
