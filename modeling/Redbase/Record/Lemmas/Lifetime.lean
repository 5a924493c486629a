import Redbase.Record.Lemmas.Methods
import Redbase.Buffer.Lemmas.Reading

/-!
# Flushing, dropping, creating and opening a record file

`Saved` says that the bytes of a `PageIo` alone hold a record file; a flush or a drop leaves it so,
and a file that is opened from such bytes is the file that was dropped.
-/

namespace Redbase.Record

open Prog Bytes Page Buffer BufferPoolState Function RecordFile ByteIo

variable {I : Type} [ReliableIo I] {cap n : Nat} {s : RecordFile I cap} {pages : Nat → PageData}
  {chain : List Nat} {h : RecordFileHeader} {file : PageFile I} {io : I}

/-- A page file that shows `n` pages, all of them in use. -/
structure Plain (file : PageFile I) (n : Nat) (pages : Nat → PageData) : Prop where
  valid : LawfulPageStore.Valid file
  header : file.header = ⟨freeListEnd, n⟩
  contents : ∀ p, file.contents p = if p < n then some (pages p) else none

theorem Represents.plain_of_free {st : Store} (hp : Represents file st) (hf : st.free = []) :
    Plain file st.numPages st.data := by
  refine ⟨⟨_, hp⟩, ?_, fun p => ?_⟩
  · have hn := hp.numPages
    have he := (hf ▸ hp.chain).eq_nil
    cases hx : file.header
    rw [hx] at hn he
    cases hn
    cases he
    rfl
  · rw [hp.contents_eq]
    simp [Store.view, Store.InUse, hf]

theorem Represents.plain (hp : Represents file Store.empty) (pages : Nat → PageData) :
    Plain file 0 pages := by
  have hplain := Represents.plain_of_free hp rfl
  refine ⟨hplain.valid, hplain.header, fun p => ?_⟩
  rw [hplain.contents]
  simp [Store.empty]

/-- The bytes of `io` alone hold the `n` pages: whatever is opened with these bytes shows them. -/
def OnDisk (io : I) (n : Nat) (pages : Nat → PageData) : Prop :=
  ∀ io' : I, content io' = content io →
    wp PageFile.open (fun file _ => Plain file n pages) never io'

theorem Plain.onDisk (hp : Plain file n pages) {t : PageFile I} (hf : Flushed file t) :
    OnDisk t.io n pages := by
  intro io' hio
  obtain ⟨st, hst⟩ := hp.valid
  refine wp_mono (open_spec hst hf hio) ?_ fun _ _ => False.elim
  intro u _ hu
  refine ⟨⟨st, hu⟩, (hst.header_eq hu rfl rfl).trans hp.header, fun p => ?_⟩
  rw [hu.contents_eq, ← hst.contents_eq, hp.contents]

/-- `Drop` of a page file writes back what is not stored yet. -/
theorem Plain.drop (hp : Plain file n pages) : OnDisk file.drop n pages := by
  obtain ⟨st, hst⟩ := hp.valid
  obtain ⟨_, t, he, -, hf⟩ := exists_ok_of_wp (flush_store_spec hst)
  rw [PageFile.drop, he]
  exact hp.onDisk hf

/-- A record file in the bytes of a `PageIo`. -/
structure Saved (io : I) (h : RecordFileHeader) (pages : Nat → PageData) (chain : List Nat) :
    Prop where
  disk : OnDisk io (h.numPages + 1) pages
  wf : WellFormed h pages chain
  header : RecordFileHeader.read ((pages 0).read 0 recordFileHeaderSize) = h

/-! ## Flushing -/

/-- Only the data pages matter. -/
theorem WellFormed.congr_hasPage {pages' : Nat → PageData} (hw : WellFormed h pages chain)
    (hp : ∀ p, h.HasPage p → pages' p = pages p) : WellFormed h pages' chain := by
  refine ⟨hw.fits, hw.links.congr fun q hq => ?_, hw.nodup, fun p => ?_, fun p hh => ?_⟩
  · rw [hp q (hw.mem_hasPage hq)]
  · rw [hw.mem_iff]
    refine and_congr_right fun hh => ?_
    rw [hp p hh]
  · rw [hp p hh]
    exact hw.page p hh

theorem ne_zero_of_hasPage {p : Nat} (hh : h.HasPage p) : p ≠ 0 :=
  fun h0 => WellFormed.zero_not_hasPage h (h0 ▸ hh)

/-- The chain and the data pages do not depend on page 0. -/
theorem WellFormed.congr_pages {pages' : Nat → PageData} (hw : WellFormed h pages chain)
    (hp : ∀ p ≠ 0, pages' p = pages p) : WellFormed h pages' chain :=
  hw.congr_hasPage fun p hh => hp p (ne_zero_of_hasPage hh)

theorem lookup_congr_pages {pages' : Nat → PageData} (hp : ∀ p ≠ 0, pages' p = pages p) :
    lookup h pages' = lookup h pages :=
  lookup_congr fun p hh => hp p (ne_zero_of_hasPage hh)

/-- The header is read back from the page it was written to. -/
theorem RecordFileHeader.Fits.read_header (hf : h.Fits) (hi : IsI32 h.firstFreePage)
    (hn : h.numPages < 2 ^ 32) (bytes : PageData) :
    RecordFileHeader.read ((bytes.write 0 h.encode).read 0 recordFileHeaderSize) = h := by
  have hfit : 0 + h.encode.length ≤ pageDataSize := by simp
  have hr := bytes.read_write_self hfit
  rw [RecordFileHeader.length_encode] at hr
  have hs := hf.size_le
  have hsl := hf.slots_le
  simp only [pageDataSize] at hs hsl
  show RecordFileHeader.read (Block.read _ 0 16) = h
  rw [hr]
  exact RecordFileHeader.read_encode (by omega) (by omega) hi hn

theorem persistHeader_spec (hh : Holds s pages chain) :
    wp persistHeader
      (fun _ t => ∃ pages', Holds t pages' chain ∧ (∀ p ≠ 0, pages' p = pages p) ∧
        t.header = s.header ∧ t.fileId = s.fileId ∧ t.headerDirty = false) never s := by
  unfold persistHeader
  simp only [wp_bind, wp_get, wp_ite, wp_pure]
  split
  next hd => exact ⟨pages, hh, fun _ _ => rfl, trivial, trivial, hd⟩
  next hd =>
    refine wp_changePage hh.quiet (Nat.succ_pos _) ?_
    refine wp_mono persistIn_spec ?_ fun _ _ => False.elim
    rintro _ _ rfl pool hq
    have hp : ∀ p ≠ 0, update pages headerPageId ((pages headerPageId).write 0 s.header.encode)
        p = pages p :=
      fun p hp => update_of_ne hp _ _
    refine ⟨_, ⟨hq, hh.wf.congr_pages hp, fun _ => ?_⟩, hp, rfl, rfl, rfl⟩
    have hn := hh.count_lt
    show RecordFileHeader.read
      (Block.read (update pages headerPageId _ headerPageId) 0 16) = s.header
    rw [update_self]
    exact hh.wf.fits.read_header hh.first_isI32 (by omega) _

/-- After a flush the file is in the bytes of the `PageIo`. -/
theorem flush_spec (hh : Holds s pages chain) :
    wp RecordFile.flush
      (fun _ t => ∃ pages', Holds t pages' chain ∧ (∀ p ≠ 0, pages' p = pages p) ∧
        t.header = s.header ∧
        t.fileId = s.fileId ∧ ∃ file, t.pool.files t.fileId = some file ∧
          Plain file (t.header.numPages + 1) pages' ∧
          Saved file.io t.header pages' chain) never s := by
  unfold RecordFile.flush liftPool
  simp only [wp_bind, wp_get, wp_mapError, wp_zoom]
  refine wp_mono (persistHeader_spec hh) ?_ fun _ _ => False.elim
  rintro _ t ⟨pages', ht, hp, hhdr, hf, hd⟩
  refine wp_mono (forceFile_backed ht.quiet.inv ht.quiet.backed t.fileId none) ?_ fun e _ he =>
    ht.quiet.file_known he.2.2.2
  rintro _ pool ⟨hi, hb, hheads, ⟨file, hfile, hflushed⟩, hclean⟩
  have hheader : headers pool t.fileId = some ⟨freeListEnd, t.header.numPages + 1⟩ :=
    (congrFun hheads _).trans ht.quiet.header
  have hhold : Holds { t with pool } pages' chain :=
    ⟨⟨hi, hb, hheader, ht.quiet.cap_pos⟩, ht.wf, ht.stored⟩
  have hplain : Plain file (t.header.numPages + 1) pages' := by
    refine ⟨hi.table.valid _ _ hfile, ?_, fun p => ?_⟩
    · rw [headers, hfile] at hheader
      exact Option.some.inj hheader
    · rw [← hb.stored _ file hfile p fun x hx => hclean p (Or.inl rfl) x hx]
      simp [filePages]
  exact ⟨pages', hhold, hp, hhdr, hf, file, hfile, hplain, hplain.onDisk hflushed,
    ht.wf, ht.stored hd⟩

theorem drop_spec (hh : Holds s pages chain) :
    ∃ io pages', s.drop = some io ∧ (∀ p ≠ 0, pages' p = pages p) ∧
      Saved io s.header pages' chain := by
  obtain ⟨_, t, he, pages', ht, hp, hhdr, hf, file, hfile, hplain, hsaved⟩ :=
    exists_ok_of_wp (flush_spec hh)
  refine ⟨file.drop, pages', ?_, hp, ?_⟩
  · rw [RecordFile.drop, he]
    show (t.pool.files s.fileId).map PageFile.drop = _
    rw [← hf, hfile]
    rfl
  · rw [← hhdr]
    exact ⟨hplain.drop, ht.wf, hsaved.header⟩

/-! ## Creating -/

theorem registerFile_spec (hp : Plain file n pages) (hc : 0 < cap) :
    wp (registerFile file) (fun i pool => i = 0 ∧ Quiet pool i n pages) never
      (BufferPoolState.new (PageFile I) cap) := by
  refine wp_mono (registerFile_backed inv_new (backed_new fun _ => none) hp.valid) ?_
    fun _ _ he => ?_
  · rintro i pool ⟨hi, hb, rfl, hfiles⟩
    refine ⟨rfl, hi, ?_, ?_, hc⟩
    · convert hb using 1
      funext key
      unfold filePages
      rw [hp.contents]
      by_cases hk : key.fileId = (BufferPoolState.new (PageFile I) cap).nextFileId
      · simp [hk]
      · simp [hk]
    · rw [headers, hfiles, update_self, Option.map_some, hp.header]
  · have hle := he.2.2
    simp [BufferPoolState.new] at hle

theorem createPool_spec (hp : Plain file 0 pages) (hc : 0 < cap) (recordSize : Nat) :
    wp (createPool file recordSize)
      (fun r pool => RecordFileHeader.new recordSize = .ok r.2 ∧ ∃ pages', Quiet pool r.1 1 pages')
      (fun e _ => ∃ e', e = .error e' ∧ RecordFileHeader.new recordSize = .error e')
      (BufferPoolState.new (PageFile I) cap) := by
  unfold createPool
  simp only [wp_bind, wp_mapError]
  refine wp_mono (registerFile_spec hp hc) ?_ fun _ _ => False.elim
  rintro fileId pool ⟨-, hq⟩
  refine wp_mono hq.allocatePage ?_ fun _ _ hlim => by simp at hlim
  intro g pool hw
  have hkey : g.key.pageId = headerPageId := by rw [hw.key]
  simp only [wp_modify, wp_ite, hkey]
  rw [if_neg (by simp)]
  cases hnew : RecordFileHeader.new recordSize with
  | error e => exact ⟨e, rfl, rfl⟩
  | ok header => exact ⟨rfl, _, hw.release hc⟩

theorem RecordFileHeader.new_eq_ok {recordSize : Nat} (hn : new recordSize = .ok h) :
    h.Fits ∧ h.recordSize = recordSize ∧ h.firstFreePage = recordPageListEnd ∧ h.numPages = 0 := by
  simp only [new, throw_bind, bind_eq_ok, throw_eq_ok, pure_eq_ok, ite_eq_ok, if_false_left] at hn
  obtain ⟨-, slots, hslots, rfl⟩ := hn
  exact ⟨hslots, rfl, rfl, rfl⟩

theorem not_hasPage_of_empty (hnum : h.numPages = 0) (p : Nat) : ¬ h.HasPage p := by
  rintro ⟨h₁, h₂⟩
  omega

theorem wellFormed_empty (hf : h.Fits) (hfirst : h.firstFreePage = recordPageListEnd)
    (hnum : h.numPages = 0) :
    WellFormed h pages [] where
  fits := hf
  links := hfirst ▸ .nil
  nodup := List.nodup_nil
  mem_iff p := by simp [not_hasPage_of_empty hnum p]
  page p hp := absurd hp (not_hasPage_of_empty hnum p)

/-- A new record file on a page file without pages holds nothing; the call fails just for a record
size that the header refuses. -/
theorem create_spec (hp : Plain file 0 pages) (hc : 0 < cap) (recordSize : Nat) :
    (∃ e io, RecordFileHeader.new recordSize = .error e ∧
        RecordFile.create file cap recordSize = .error (.error e, io)) ∨
      ∃ s pages', RecordFile.create file cap recordSize = .ok s ∧ Holds s pages' [] ∧
        s.header.recordSize = recordSize ∧ s.header.numPages = 0 := by
  have hw := createPool_spec hp hc recordSize
  unfold wp at hw
  unfold RecordFile.create
  cases hcp : createPool file recordSize (BufferPoolState.new (PageFile I) cap) with
  | error e pool =>
      rw [hcp] at hw
      obtain ⟨e', rfl, hnew⟩ := hw
      exact Or.inl ⟨e', _, hnew, rfl⟩
  | ok r pool =>
      rw [hcp] at hw
      obtain ⟨fileId, header⟩ := r
      obtain ⟨hnew, pages', hq⟩ := hw
      obtain ⟨hfits, hsize, hfirst, hnum⟩ : header.Fits ∧ _ := RecordFileHeader.new_eq_ok hnew
      have hwf : WellFormed header pages' [] := wellFormed_empty hfits hfirst hnum
      have hold : Holds { pool, fileId, header, headerDirty := true } pages' [] := by
        refine ⟨?_, hwf, by simp⟩
        rw [hnum]
        exact hq
      obtain ⟨_, t, he, pages'', ht, -, hhdr, -, -⟩ := exists_ok_of_wp (persistHeader_spec hold)
      refine Or.inr ⟨t, pages'', ?_, ht, ?_, ?_⟩
      · simp only [he]
      · rw [hhdr, hsize]
      · rw [hhdr, hnum]

/-! ## Opening -/

/-- The file header passes its checks when the chain is readable. -/
theorem WellFormed.valid (hw : WellFormed h pages chain) (hs : Small chain) : h.Valid := by
  have hlinks := hw.links
  cases chain with
  | nil =>
      have he := hlinks.eq_nil
      exact ⟨hw.fits, Int.le_of_eq he.symm, fun hne => absurd he hne⟩
  | cons p rest =>
      have hm : p ∈ p :: rest := List.mem_cons_self
      have he : h.firstFreePage = p := by
        rw [hlinks.head_eq, asI32_of_lt (hs p hm)]
      refine ⟨hw.fits, ?_, fun _ => ?_⟩
      · rw [he]
        exact Int.le_trans (by decide) (Int.natCast_nonneg p)
      · rw [hlinks.head_eq, asU32_asI32 (Nat.lt_trans (hs p hm) (by decide))]
        exact (hw.mem_hasPage hm).2

theorem openPool_reading {bytes : List UInt8} (hb : CleanFile file bytes) :
    wp (openPool file) (fun _ pool => Reading pool bytes) (fun _ pool => Reading pool bytes)
      (BufferPoolState.new (PageFile I) cap) := by
  unfold openPool
  simp only [wp_bind, wp_mapError, wp_get, wp_modify]
  refine wp_mono (registerFile_reading Reading.new hb) (fun fileId pool hr => ?_) fun _ _ => id
  refine wp_mono (getPage_reading hr fileId headerPageId) (fun g pool hr => ?_) fun _ _ => id
  cases RecordFileHeader.decode (((pool.frames g.frameId).data).read 0 recordFileHeaderSize) with
  | error e => exact hr.unpinFrame
  | ok header =>
      simp only [Except.mapError, wp_lift_ok]
      cases checked 32 (header.numPages + 1) with
      | none => exact hr.unpinFrame
      | some expectedTotalPages =>
          simp only [wp_ite, wp_pure]
          split
          · exact hr.unpinFrame
          · exact hr.unpinFrame

/-- The header page is refused just when its checks fail; the page file may have further pages. -/
theorem openPool_spec (hp : Plain file n pages) (hle : h.numPages + 1 ≤ n) (hc : 0 < cap)
    (hstored : RecordFileHeader.read ((pages 0).read 0 recordFileHeaderSize) = h) :
    wp (openPool file) (fun r pool => h.Valid ∧ r.2 = h ∧ Quiet pool r.1 n pages)
      (fun e pool => ¬ h.Valid ∧
        (∃ e' buf, e = .error e' ∧ RecordFileHeader.decode buf = .error e') ∧
        pool.files 0 ≠ none) (BufferPoolState.new (PageFile I) cap) := by
  unfold openPool
  simp only [wp_bind, wp_mapError]
  refine wp_mono (registerFile_spec hp hc) ?_ fun _ _ => False.elim
  rintro fileId pool ⟨rfl, hq⟩
  have hcount := Nat.lt_of_le_of_lt hle hq.count_lt
  refine wp_mono (hq.getPage (Nat.zero_lt_of_lt hle)) ?_ fun _ _ => False.elim
  rintro g pool ⟨hdata, hq⟩
  simp only [wp_get, wp_modify, hdata]
  have hlen : recordFileHeaderSize ≤ ((pages headerPageId).read 0 recordFileHeaderSize).length :=
    Nat.le_of_eq (Block.length_read _ (by simp)).symm
  cases hdec : RecordFileHeader.decode ((pages headerPageId).read 0 recordFileHeaderSize) with
  | error e =>
      refine ⟨fun hv => ?_, ⟨e, _, rfl, hdec⟩, hq.file_known⟩
      rw [RecordFileHeader.decode_eq_ok_iff.mpr ⟨hlen, hstored, hv⟩] at hdec
      cases hdec
  | ok header =>
      obtain ⟨-, hread, hv⟩ := RecordFileHeader.decode_eq_ok_iff.mp hdec
      obtain rfl : header = h := hread.symm.trans hstored
      simp only [Except.mapError, wp_lift_ok, checked_of_lt hcount, wp_ite, hp.header, wp_pure]
      rw [if_neg (Nat.not_lt.mpr hle)]
      exact ⟨hv, trivial, hq⟩

/-- A page file whose header page passes its checks is opened, whatever pages follow. -/
theorem open_valid (hp : Plain file n pages) (hle : h.numPages + 1 ≤ n) (hc : 0 < cap)
    (hstored : RecordFileHeader.read ((pages 0).read 0 recordFileHeaderSize) = h) (hv : h.Valid) :
    ∃ s : RecordFile I cap, RecordFile.open file cap = .ok s ∧ s.header = h ∧
      Quiet s.pool s.fileId n pages := by
  have hw := openPool_spec hp hle hc hstored
  unfold RecordFile.open
  rw [if_neg (by rw [hp.header]; exact Nat.ne_of_gt (Nat.zero_lt_of_lt hle))]
  cases hop : openPool file (BufferPoolState.new (PageFile I) cap) with
  | error e pool => exact absurd hv (wp_error hop hw).1
  | ok r pool =>
      obtain ⟨-, he, hq⟩ := wp_ok hop hw
      exact ⟨_, rfl, he, hq⟩

/-- A file whose header is refused cannot be opened, and keeps its bytes; any other is what was
saved. -/
theorem open_cases (hp : Plain file (h.numPages + 1) pages) {bytes : List UInt8}
    (hb : CleanFile file bytes) (hc : 0 < cap)
    (hstored : RecordFileHeader.read ((pages 0).read 0 recordFileHeaderSize) = h) :
    (h.Valid ∧ ∃ s : RecordFile I cap, RecordFile.open file cap = .ok s ∧ s.header = h ∧
        Quiet s.pool s.fileId (h.numPages + 1) pages ∧ Reading s.pool bytes ∧
          s.headerDirty = false) ∨
      (¬ h.Valid ∧ ∃ e io, RecordFile.open file cap = .error (.error e, some io) ∧
        (∃ buf, RecordFileHeader.decode buf = .error e) ∧ content io = bytes) := by
  have hr : wp (openPool file) (fun _ pool => Reading pool bytes) (fun _ pool => Reading pool bytes)
      (BufferPoolState.new (PageFile I) cap) := openPool_reading hb
  have hw := openPool_spec hp (Nat.le_refl _) hc hstored
  have hboth := wp_and hw hr
  unfold wp at hboth
  unfold RecordFile.open
  rw [if_neg (by rw [hp.header]; exact Nat.succ_ne_zero _)]
  cases hop : openPool file (BufferPoolState.new (PageFile I) cap) with
  | error e pool =>
      rw [hop] at hboth
      obtain ⟨⟨hv, ⟨e', buf, rfl, hdec⟩, hknown⟩, hread⟩ := hboth
      obtain ⟨file', hfile⟩ := Option.ne_none_iff_exists'.mp hknown
      refine Or.inr ⟨hv, e', file'.drop, ?_, ⟨buf, hdec⟩, (hread.files 0 file' hfile).drop_eq⟩
      simp only [abandon, hfile]
      rfl
  | ok r pool =>
      rw [hop] at hboth
      obtain ⟨⟨hv, he, hq⟩, hread⟩ := hboth
      exact Or.inl ⟨hv, _, rfl, he, hq, hread, rfl⟩

/-- What was saved is opened, with a pool of any capacity, unless its header is refused. -/
theorem Saved.open_cases (hs : Saved io h pages chain) (hc : 0 < cap) {io' : I}
    (hio : content io' = content io) :
    ∃ file io'', PageFile.open io' = .ok file io'' ∧
      ((h.Valid ∧ ∃ s : RecordFile I cap, RecordFile.open file cap = .ok s ∧ s.header = h ∧
          Holds s pages chain ∧ Reading s.pool (content io) ∧ s.headerDirty = false) ∨
        (¬ h.Valid ∧ ∃ e left, RecordFile.open file cap = .error (.error e, some left) ∧
          (∃ buf, RecordFileHeader.decode buf = .error e) ∧ content left = content io)) := by
  obtain ⟨file, io'', hopen, hp⟩ := exists_ok_of_wp (hs.disk io' hio)
  have hclean := hio ▸ wp_ok hopen (open_clean io')
  refine ⟨file, io'', hopen, ?_⟩
  rcases Record.open_cases hp hclean hc hs.header with ⟨hv, s, he, hhdr, hq, hread, hd⟩ | hrefused
  · refine Or.inl ⟨hv, s, he, hhdr, ⟨?_, ?_, fun _ => ?_⟩, hread, hd⟩
    · rw [hhdr]
      exact hq
    · rw [hhdr]
      exact hs.wf
    · rw [hhdr]
      exact hs.header
  · exact Or.inr hrefused

/-- What was saved can be opened when its chain is readable. -/
theorem Saved.open (hs : Saved io h pages chain) (hsmall : Small chain) (hc : 0 < cap) {io' : I}
    (hio : content io' = content io) :
    ∃ file io'', PageFile.open io' = .ok file io'' ∧
      ∃ s : RecordFile I cap, RecordFile.open file cap = .ok s ∧
      s.header = h ∧ Holds s pages chain := by
  obtain ⟨file, io'', hopen, hcases⟩ := hs.open_cases hc hio
  rcases hcases with ⟨-, s, he, hhdr, hh, -⟩ | ⟨hv, -⟩
  · exact ⟨file, io'', hopen, s, he, hhdr, hh⟩
  · exact absurd (hs.wf.valid hsmall) hv

end Redbase.Record
