import Redbase.Record.Lemmas.Untouched

/-!
# A failed operation leaves the file alone

What the pages hold may be anything that `open` accepts. The one exception is an insert that takes
its slot, or its page, before it finds out that it fails.
-/

namespace Redbase.Record

open Prog Bytes Page Buffer RecordFile

variable {I : Type} [ReliableIo I] {cap : Nat} {pageFile : PageFile I} {file : RecordFile I cap}
  {s : Opened I}

/-- In a run without inserts that spoil the file, an operation that fails leaves every page and the
header as they were. An insert into a page with a free slot and a counter of zero fails, and changes
the page. -/
theorem failed_untouched (hp : Page.Reachable pageFile)
    (ho : RecordFile.open pageFile cap = .ok file)
    (hr : Calls (fun t op => ¬ Spoils t.file op) ⟨cap, file⟩ s) :
    (∀ op e, ¬ Spoils s.file op → (step s op).2 = .failed e → Untouched s.file (step s op).1.file) ∧
      ∀ data, data.length = s.file.header.recordSize →
        s.file.header.firstFreePage ≠ recordPageListEnd →
        Overdrawn s.file (asU32 s.file.header.firstFreePage) →
          (∃ e, (step s (.insert data)).2 = .failed e) ∧
            ¬ Untouched s.file (step s (.insert data)).1.file := by
  have hs := hr.running (running_of_open hp ho)
  refine ⟨fun op e hok he => (hs.step op hok).untouched e he, fun data hlen hne hover => ?_⟩
  obtain ⟨hd, pages, hserving⟩ := hs.serving
  refine reply_of_wp (R := fun t r => (∃ e, r = .failed e) ∧ ¬ Untouched s.file t.file)
    (insert_overdrawn hserving hs.fits hs.pos hlen hne hover) (fun _ _ => False.elim) ?_
  intro e t ht
  exact ⟨⟨e, rfl⟩, ht⟩

/-- The file header that is a data page as well: one slot, which is free, and a counter of zero. -/
def selfHeader : RecordFileHeader := ⟨4004, 1, 0, 1⟩

/-- A file whose free-page chain starts at the header page. -/
theorem exists_selfLinked :
    ∃ (pageFile : PageFile DiskPageIo) (file : RecordFile DiskPageIo 1), Page.Reachable pageFile ∧
      RecordFile.open pageFile 1 = .ok file ∧ file.header = selfHeader ∧ Overdrawn file 0 := by
  have hlen : selfHeader.encode.length ≤ pageDataSize := by decide
  obtain ⟨pageFile, hreach, pages, hp, hzero⟩ :=
    exists_pageFile ((Block.zero pageDataSize).write 0 selfHeader.encode) (n := 1) (by decide)
  have hstored : RecordFileHeader.read ((pages 0).read 0 recordFileHeaderSize) = selfHeader := by
    rw [hzero, Block.read_write_part _ hlen (by decide)]
    rfl
  have haccepted : selfHeader.validate = .ok () := by decide
  have hvalid : selfHeader.Valid := RecordFileHeader.validate_eq_ok_iff.mp haccepted
  obtain ⟨file, ho, hh, -⟩ := open_valid hp (le_refl _) Nat.one_pos hstored hvalid
  obtain ⟨hopened, -⟩ := open_serving hreach.steady ho
  refine ⟨pageFile, file, hreach, ho, hh, (Block.zero pageDataSize).write 0 selfHeader.encode,
    ⟨4004, 1, 0⟩, 0, ?_, ?_, rfl, ?_⟩
  · rw [hopened.serving.shows, hp.contents, if_pos (by decide), hzero]
  · unfold readPageHeader
    rw [hh, Block.read_write_part _ hlen (by decide)]
    rfl
  · rw [hh, bitmap, Block.read_write_part _ hlen (by decide)]
    rfl

theorem selfHeader_first : asU32 selfHeader.firstFreePage = 0 := by decide

/-- The insert fails, and the free slot of the page is gone. -/
theorem insert_selfLinked_spoils :
    ∃ (pageFile : PageFile DiskPageIo) (file : RecordFile DiskPageIo 1) (data : List UInt8)
        (e : Stop RecordError),
      Page.Reachable pageFile ∧ RecordFile.open pageFile 1 = .ok file ∧
        (step ⟨1, file⟩ (.insert data)).2 = .failed e ∧
          ¬ Untouched file (step ⟨1, file⟩ (.insert data)).1.file := by
  obtain ⟨pageFile, file, hreach, ho, hh, hover⟩ := exists_selfLinked
  obtain ⟨⟨hd, pages, hserving⟩, hf, hc⟩ := running_of_open hreach ho
  obtain ⟨data, hlen⟩ : ∃ data : List UInt8, data.length = file.header.recordSize :=
    ⟨List.replicate _ 0, List.length_replicate⟩
  have hw := insert_overdrawn hserving hf hc hlen (by rw [hh]; decide)
    (by rw [hh, selfHeader_first]; exact hover)
  cases hr : RecordFile.insert data file with
  | ok rid t => exact (wp_ok hr hw).elim
  | error e t =>
      have hstep : step ⟨1, file⟩ (.insert data) = (⟨1, t⟩, .failed e) := by
        show Opened.reply _ _ _ = _
        unfold Opened.reply
        rw [hr]
      refine ⟨pageFile, file, data, e, hreach, ho, ?_⟩
      rw [hstep]
      exact ⟨rfl, wp_error hr hw⟩

theorem failed_untouched_selfLinked :
    ∃ (pageFile : PageFile DiskPageIo) (file : RecordFile DiskPageIo 1) (data : List UInt8),
      RecordFile.open pageFile 1 = .ok file ∧
      (∀ rid, (∃ e, (step ⟨1, file⟩ (.update rid [])).2 = .failed e) ∧
        Untouched file (step ⟨1, file⟩ (.update rid [])).1.file) ∧
      ¬ Untouched file (step ⟨1, file⟩ (.insert data)).1.file := by
  obtain ⟨pageFile, file, hreach, ho, hh, hover⟩ := exists_selfLinked
  obtain ⟨hkept, hspoilt⟩ := failed_untouched hreach ho .start
  obtain ⟨data, hlen⟩ : ∃ data : List UInt8, data.length = file.header.recordSize :=
    ⟨List.replicate _ 0, List.length_replicate⟩
  refine ⟨pageFile, file, data, ho, fun rid => ?_, ?_⟩
  · have hfail : ∃ e, (step ⟨1, file⟩ (.update rid [])).2 = .failed e := by
      refine reply_of_wp (R := fun _ r => ∃ e, r = .failed e)
        (update_wrongLength (by rw [hh]; decide))
        (fun _ _ => False.elim) fun e _ _ => ⟨e, rfl⟩
    obtain ⟨e, he⟩ := hfail
    exact ⟨⟨e, he⟩, hkept _ e (by simp [Spoils]) he⟩
  · exact (hspoilt _ hlen (by rw [hh]; decide) (by rw [hh, selfHeader_first]; exact hover)).2

end Redbase.Record
