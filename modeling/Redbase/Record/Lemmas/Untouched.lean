import Redbase.Record.Lemmas.Further
import Redbase.Record.Untouched

/-!
# Operations on a file of any bytes

Every operation leaves a pool that is the array of the pages in use. One that fails leaves the same
array, unless it is an insert that spoils the file.
-/

namespace Redbase.Buffer

open Prog Page BufferPoolState

variable {I : Type} [ReliableIo I] {cap : Nat} {s : BufferPoolState (PageFile I) cap}
  {guards : List (Guard cap)} {mem : BufferKey → Option PageData}

theorem flushFrameIfDirty_settled {f : Fin cap} (h : Settled s guards) (hb : Backed s mem) :
    wp (flushFrameIfDirty f)
      (fun _ t => Settled t guards ∧ Backed t mem ∧ headers t = headers s) never s := by
  have he : @flushFrameIfDirty (PageFile I) cap (steadyStore I).toPageStore f =
      flushFrameIfDirty f := by
    rw [flushFrameIfDirty_congr (steadyStore I).toPageStore instPageStorePageFileOfPageIo rfl rfl]
  rw [← he]
  let store := steadyStore I
  refine wp_mono (flushFrameIfDirty_backed h hb) ?_ fun _ _ => id
  intro _ t ht
  exact ⟨ht.1.1, ht.2.1, ht.2.2⟩

theorem forceFile_settled (h : Settled s guards) (hb : Backed s mem) (fileId : Nat) :
    wp (forceFile fileId none) (fun _ t => Settled t guards ∧ Backed t mem ∧ headers t = headers s)
      (fun _ _ => s.files fileId = none) s := by
  unfold forceFile
  simp only [wp_bind, wp_get, wp_ite, wp_throw]
  split
  next hf => simpa using hf
  next hf =>
    refine wp_mono
      (wp_forM (R := fun _ t => Settled t guards ∧ Backed t mem ∧ headers t = headers s)
      (fun f _ t ht => ?_) ⟨h, hb, rfl⟩) ?_ fun _ _ => False.elim
    · refine wp_mono (flushFrameIfDirty_settled ht.1 ht.2.1) ?_ fun _ _ => id
      intro _ u hu
      exact ⟨hu.1, hu.2.1, hu.2.2.trans ht.2.2⟩
    · rintro _ t ⟨ht, hbt, hh⟩
      cases hfile : t.files fileId with
      | none => simp [files_none_of_headers hh hfile] at hf
      | some file =>
          have hsteady : Steady file := by
            let store := steadyStore I
            exact ht.table.valid _ _ hfile
          rw [wp_withFile hfile]
          refine wp_mono (flush_contents hsteady) ?_ fun _ _ => False.elim
          rintro _ file' ⟨hu, hs⟩
          refine ⟨?_, hbt.setFile hfile hs.contents, (headers_setFile hfile hs.header).trans hh⟩
          let store := steadyStore I
          exact ht.setFile hfile ⟨hu, fun q hq => (hs.inUse_iff q).mpr hq⟩

end Redbase.Buffer

namespace Redbase.Record

open Prog Bytes Page Buffer BufferPoolState Function RecordFile RecordScan

variable {I : Type} [ReliableIo I] {cap p : Nat} {s t u : RecordFile I cap} {hd : FileHeader}
  {pages : Nat → Option PageData} {h : RecordFileHeader} {bytes : PageData} {dirty : Bool}
  {data : List UInt8}

/-! ## What is shown -/

theorem Serving.shows (hs : Serving s.pool s.fileId hd pages) (p : Nat) : shows s p = pages p := by
  have hmem : onlyPages s.fileId pages ⟨s.fileId, p⟩ = pages p := if_pos rfl
  unfold Record.shows
  cases hk : s.pool.pageTable ⟨s.fileId, p⟩ with
  | some frameId =>
      have hkey : (s.pool.frames frameId).key = some ⟨s.fileId, p⟩ := by
        have hi := hs.inv
        let store := steadyStore I
        exact (hi.table.mem_iff _ _).mp hk
      exact (hs.backed.cached frameId _ hkey).symm.trans hmem
  | none =>
      obtain ⟨file, hfile, -, -⟩ := hs.file
      rw [hfile, Option.bind_some, ← hs.backed.stored _ file hfile p
        fun x hx => by rw [hk] at hx; cases hx]
      exact hmem

theorem ReadOn.untouched (hs : Serving s.pool s.fileId hd pages) (ht : ReadOn s t hd pages) :
    Untouched s t := by
  obtain ⟨pool, rfl, hs'⟩ := ht
  exact ⟨fun p => (Serving.shows hs' p).trans (hs.shows p).symm, rfl⟩

/-! ## An insert -/

theorem insertInto_any (hf : h.Fits) (pageId : Nat) :
    wp (insertInto pageId data) (fun _ t => SameLayout h t.header)
      (fun _ t => t = ⟨bytes, h, dirty⟩ ∨ ∃ header slot, readPageHeader h bytes = .ok header ∧
        header.numFreeSlots = 0 ∧
          findFirstFreeSlot (bitmap bytes h.slotsPerPage) h.slotsPerPage = some slot)
      ⟨bytes, h, dirty⟩ := by
  unfold insertInto
  simp only [wp_bind, wp_get]
  cases hr : readPageHeader h bytes with
  | error e => exact .inl rfl
  | ok header =>
      obtain ⟨hp, rfl⟩ := readPageHeader_eq_ok.mp hr
      have hv : (headerOf bytes).validate h.slotsPerPage = .ok () :=
        RecordPageHeader.validate_eq_ok_iff.mpr hp
      simp only [wp_lift_ok, hv]
      cases hfind : findFirstFreeSlot (bitmap bytes h.slotsPerPage) h.slotsPerPage with
      | none => exact .inl rfl
      | some slot =>
          simp only [wp_bind, wp_modify, wp_ite, wp_throw]
          split
          next hzero => exact .inr ⟨_, slot, rfl, hzero, rfl⟩
          next =>
            have hslot := (Bitmap.first_eq_some hfind).1
            simp only [hf.recordRange_eq hslot, wp_lift_ok, wp_pure]
            split
            · exact ⟨rfl, rfl⟩
            · exact ⟨rfl, rfl⟩

/-- An insert into the page at the head of the chain. -/
theorem insertHead_serving (hs : Serving s.pool s.fileId hd pages) (hf : s.header.Fits)
    (hok : ¬ Overdrawn s p) :
    wp (withPageMut (getPageMut s.fileId p) fun _ => insertInto p data)
      (fun _ t => SameLayout s.header t.header ∧ ∃ pages', Serving t.pool t.fileId hd pages')
      (fun _ t => ReadOn s t hd pages) s := by
  refine withPageMut_serving hs p _ (fun pool hpool _ _ _ _ => ⟨pool, rfl, hpool⟩)
    fun bytes hb => ?_
  refine wp_mono (insertInto_any hf p) (fun _ t hl pool hpool _ => ⟨hl, _, hpool⟩) ?_
  intro e t ht pool hpool _
  rcases ht with rfl | ⟨header, slot, hr, hzero, hfind⟩
  · rw [← hb, update_eq_self] at hpool
    exact ⟨pool, rfl, hpool⟩
  · exact absurd ⟨bytes, header, slot, (hs.shows p).trans hb, hr, hzero, hfind⟩ hok

/-- The slot is taken before the counter is looked at. -/
theorem insertInto_overdrawn {header : RecordPageHeader} {slot : Nat} (hf : h.Fits)
    (hr : readPageHeader h bytes = .ok header) (hzero : header.numFreeSlots = 0)
    (hfind : findFirstFreeSlot (bitmap bytes h.slotsPerPage) h.slotsPerPage = some slot)
    (pageId : Nat) :
    wp (insertInto pageId data) (fun _ _ => False)
      (fun _ t => t.bytes ≠ bytes) ⟨bytes, h, dirty⟩ := by
  obtain ⟨hp, rfl⟩ := readPageHeader_eq_ok.mp hr
  obtain ⟨hslot, hfree⟩ := Bitmap.first_eq_some hfind
  have hv : (headerOf bytes).validate h.slotsPerPage = .ok () :=
    RecordPageHeader.validate_eq_ok_iff.mpr hp
  unfold insertInto
  simp only [wp_bind, wp_get, hr, wp_lift_ok, hv, hfind, wp_modify, wp_ite, wp_throw, if_pos hzero]
  intro he
  have hused : freeAt h (markedSlot h bytes slot false) slot = false := by
    rw [freeAt_markedSlot hf hslot, update_self]
  have hsame : freeAt h bytes slot = false := he ▸ hused
  exact absurd (hfree.symm.trans hsame) (by simp)

theorem insertHead_overdrawn (hs : Serving s.pool s.fileId hd pages) (hf : s.header.Fits)
    (hc : 0 < cap) (ho : Overdrawn s p) :
    wp (withPageMut (getPageMut s.fileId p) fun _ => insertInto p data) (fun _ _ => False)
      (fun _ t => ¬ Untouched s t) s := by
  obtain ⟨bytes, header, slot, hb, hr, hzero, hfind⟩ := ho
  rw [hs.shows] at hb
  refine withPageMut_serving hs p _ (fun pool _ _ _ _ hnone => ?_) fun bytes' hb' => ?_
  · rw [hnone hc] at hb
    cases hb
  · rw [hb, Option.some.injEq] at hb'
    subst hb'
    refine wp_mono (insertInto_overdrawn hf hr hzero hfind p) (fun _ _ => False.elim) ?_
    intro e t hne pool hpool _ hu
    have hp := hu.pages p
    rw [Serving.shows hpool, update_self, hs.shows, hb, Option.some.injEq] at hp
    exact hne hp

/-- A new data page, which takes a record. -/
theorem allocateDataPage_serving (hs : Serving s.pool s.fileId hd pages) (hf : s.header.Fits)
    (hok : ¬ Unallocatable s) :
    wp allocateDataPage
      (fun _ t => SameLayout s.header t.header ∧ ∃ hd' pages', Serving t.pool t.fileId hd' pages' ∧
        ∃ bytes, pages' (asU32 t.header.firstFreePage) = some bytes ∧ Readable t.header bytes ∧
          0 < freeCount t.header bytes)
      (fun _ t => ReadOn s t hd pages) s := by
  obtain ⟨file, hfile, -, hsteady⟩ := hs.file
  have huncached : s.pool.pageTable ⟨s.fileId, nextPageId file⟩ = none := by
    by_contra hne
    obtain ⟨frameId, hk⟩ := Option.ne_none_iff_exists'.mp hne
    exact hok (.inr ⟨file, frameId, hfile, hk⟩)
  unfold allocateDataPage
  simp only [wp_bind, wp_get]
  refine newPage_serving hs hfile huncached (fun pool hpool _ _ => ⟨pool, rfl, hpool⟩) ?_
  refine wp_mono (allocateIn_spec hf (Nat.lt_of_not_le fun hle => hok (.inl hle)) _) ?_
    fun _ _ => False.elim
  rintro _ t ha pool ⟨⟨hd', hpool, hlt, -⟩, -⟩
  obtain ⟨file', -, hhdr, hsteady'⟩ := hpool.file
  have hlayout : SameLayout s.header t.header := by
    rw [ha.header]
    exact ⟨rfl, rfl⟩
  refine ⟨hlayout, hd', _, hpool, t.bytes, ?_, ⟨hlayout.pageOk ha.ok, ?_⟩,
    hlayout.freeCount_eq ▸ ha.free⟩
  · rw [ha.header, asU32_asI32, update_self]
    have hcount := hsteady'.coherent.count
    rw [hhdr] at hcount
    omega
  · rw [ha.next]
    decide

/-- An insert that fails leaves the pages alone, unless it spoils them. -/
theorem insert_serving (hs : Serving s.pool s.fileId hd pages) (hf : s.header.Fits) (hc : 0 < cap)
    (hok : ¬ Spoils s (.insert data)) :
    wp (RecordFile.insert data)
      (fun _ t => SameLayout s.header t.header ∧ ∃ hd' pages', Serving t.pool t.fileId hd' pages')
      (fun _ t => ReadOn s t hd pages) s := by
  unfold RecordFile.insert
  simp only [wp_bind, wp_get, ensureRecordLength_eq]
  split
  next hlen =>
    rw [wp_check_ok]
    simp only [wp_bind, wp_get, wp_ite]
    split
    next hend =>
      have hfree : ¬ Unallocatable s := fun hu => hok ⟨hlen, by rwa [if_pos hend]⟩
      refine wp_mono (allocateDataPage_serving hs hf hfree) ?_ fun _ _ => id
      rintro _ t ⟨hlayout, hd', pages', ht, bytes, hb, hr, hpos⟩
      refine withPageMut_serving ht _ _ (fun pool hpool _ e _ hnone => ?_) fun bytes' hb' => ?_
      · rw [hnone hc] at hb
        cases hb
      · rw [hb, Option.some.injEq] at hb'
        subst hb'
        have hfits := hlayout.fits hf
        refine wp_mono (wp_and (insertInto_spec hfits hr hpos (hlen.trans hlayout.size.symm) _)
          (insertInto_any hfits _)) ?_ fun _ _ he => he.1.elim
        rintro _ u ⟨-, hl⟩ pool hpool -
        exact ⟨⟨hl.size.trans hlayout.size, hl.slots.trans hlayout.slots⟩, hd', _, hpool⟩
    next hne =>
      have hpage : ¬ Overdrawn s (asU32 s.header.firstFreePage) :=
        fun ho => hok ⟨hlen, by rwa [if_neg hne]⟩
      refine wp_mono (insertHead_serving hs hf hpage) ?_ fun _ _ => id
      rintro _ t ⟨hl, pages', ht⟩
      exact ⟨hl, hd, pages', ht⟩
  next =>
    rw [wp_check_error]
    exact .refl hs

/-- An insert into a page whose counter is wrong fails, and has changed the page. -/
theorem insert_overdrawn (hs : Serving s.pool s.fileId hd pages) (hf : s.header.Fits) (hc : 0 < cap)
    (hlen : data.length = s.header.recordSize) (hne : s.header.firstFreePage ≠ recordPageListEnd)
    (ho : Overdrawn s (asU32 s.header.firstFreePage)) :
    wp (RecordFile.insert data) (fun _ _ => False) (fun _ t => ¬ Untouched s t) s := by
  unfold RecordFile.insert
  simp only [wp_bind, wp_get, ensureRecordLength_eq, if_pos hlen, wp_check_ok, wp_ite, if_neg hne]
  exact insertHead_overdrawn hs hf hc ho

/-! ## A flush -/

theorem persistHeader_serving (hs : Serving s.pool s.fileId hd pages) :
    wp persistHeader
      (fun _ t => t.header = s.header ∧ t.fileId = s.fileId ∧ ∃ pages',
        Serving t.pool t.fileId hd pages')
      (fun _ t => ReadOn s t hd pages) s := by
  unfold persistHeader
  simp only [wp_bind, wp_get, wp_ite, wp_pure]
  split
  next => exact ⟨trivial, trivial, pages, hs⟩
  next =>
    refine withPageMut_serving hs _ _ (fun pool hpool _ _ _ _ => ⟨pool, rfl, hpool⟩)
      fun bytes _ => ?_
    refine wp_mono persistIn_spec ?_ fun _ _ => False.elim
    rintro _ _ rfl pool hpool -
    exact ⟨rfl, rfl, _, hpool⟩

theorem flush_serving (hs : Serving s.pool s.fileId hd pages) :
    wp RecordFile.flush (fun _ t => t.header = s.header ∧ ∃ pages',
        Serving t.pool t.fileId hd pages')
      (fun _ t => ReadOn s t hd pages) s := by
  unfold RecordFile.flush liftPool
  simp only [wp_bind, wp_get, wp_mapError, wp_zoom]
  refine wp_mono (persistHeader_serving hs) ?_ fun _ _ => id
  rintro _ t ⟨hh, hid, pages', ht⟩
  refine wp_mono (forceFile_settled ht.inv ht.backed t.fileId) ?_ ?_
  · rintro _ pool ⟨hi, hb, hheads⟩
    exact ⟨hh, pages', hi, hb, (congrFun hheads _).trans ht.header⟩
  · intro _ _ hnone
    obtain ⟨file, hfile, -, -⟩ := ht.file
    rw [hfile] at hnone
    cases hnone

/-! ## Runs -/

/-- An open record file over any page file. -/
structure Running (s : Opened I) : Prop where
  serving : ∃ hd pages, Serving s.file.pool s.file.fileId hd pages
  fits : s.file.header.Fits
  pos : 0 < s.cap

theorem running_of_open {pageFile : PageFile I} (hp : Page.Reachable pageFile)
    {file : RecordFile I cap} (ho : RecordFile.open pageFile cap = .ok file) :
    Running ⟨cap, file⟩ := by
  obtain ⟨hopened, -⟩ := open_serving hp.steady ho
  exact ⟨⟨_, _, hopened.serving⟩, hopened.checked.valid.fits, hopened.cap_pos⟩

omit [ReliableIo I] in
/-- A file that is reopened is one that is opened on a page file. -/
theorem reopen_cases [PageIo I] (s : Opened I) (cap : Nat) :
    (∃ why, s.reopen cap = (s, .failed why)) ∨
      ∃ pageFile file, Page.Reachable pageFile ∧ RecordFile.open pageFile cap = .ok file ∧
        s.reopen cap = (⟨cap, file⟩, .done) := by
  unfold Opened.reopen
  cases s.file.drop with
  | none => exact .inl ⟨_, rfl⟩
  | some io =>
      simp only
      cases hp : PageFile.open io with
      | error e io' => exact .inl ⟨_, rfl⟩
      | ok pageFile io' =>
          simp only
          cases ho : RecordFile.open pageFile cap with
          | error e => exact .inl ⟨_, rfl⟩
          | ok file => exact .inr ⟨pageFile, file, .open hp, ho, rfl⟩

/-- What a step leaves; one that fails leaves everything as it was. -/
structure Leaves (s t : Opened I) (r : Reply) : Prop where
  running : Running t
  untouched : ∀ e, r = .failed e → Untouched s.file t.file

theorem Running.step {s : Opened I} (hs : Running s) (op : Op) (hok : ¬ Spoils s.file op) :
    Leaves s (step s op).1 (step s op).2 := by
  obtain ⟨⟨hd, pages, hserving⟩, hf, hc⟩ := hs
  have hkept : ∀ file, ReadOn s.file file hd pages → Running (⟨s.cap, file⟩ : Opened I) :=
    fun file ht =>
    ⟨⟨hd, pages, ht.serving⟩, by rw [ht.header]; exact hf, hc⟩
  have hfail : ∀ e file, ReadOn s.file file hd pages → Leaves s ⟨s.cap, file⟩ (.failed e) :=
    fun e file ht =>
    ⟨hkept file ht, fun _ _ => ht.untouched hserving⟩
  have hmoved : ∀ r file, (∃ hd' pages', Serving file.pool file.fileId hd' pages') →
      SameLayout s.file.header file.header →
      (∀ e, r ≠ .failed e) → Leaves s ⟨s.cap, file⟩ r := fun r file ht hl hr =>
    ⟨⟨ht, hl.fits hf, hc⟩, fun e he => absurd he (hr e)⟩
  cases op with
  | insert data =>
      refine reply_of_wp (R := Leaves s) (insert_serving hserving hf hc hok)
        (fun rid file ht => ?_) hfail
      exact hmoved _ file ht.2 ht.1 fun e => by simp
  | get rid =>
      refine reply_of_wp (R := Leaves s) (get_serving hserving hf rid) (fun r file ht => ?_)
        fun e file ht => hfail e file ht.1
      exact ⟨hkept file ht.1, fun e he => by simp at he⟩
  | update rid data =>
      refine reply_of_wp (R := Leaves s) (update_serving hserving hf rid data) (fun _ file ht => ?_)
        fun e file ht => hfail e file ht.1
      obtain ⟨-, hh, pages', ht⟩ := ht
      exact hmoved _ file ⟨hd, pages', ht⟩ (by rw [hh]; exact .refl _) fun e => by simp
  | delete rid =>
      refine reply_of_wp (R := Leaves s) (delete_serving hserving hf rid) (fun _ file ht => ?_)
        fun e file ht => hfail e file ht.1
      obtain ⟨hl, pages', ht, -⟩ := ht
      exact hmoved _ file ⟨hd, pages', ht⟩ hl fun e => by simp
  | flush =>
      refine reply_of_wp (R := Leaves s) (flush_serving hserving) (fun _ file ht => ?_) hfail
      obtain ⟨hh, pages', ht⟩ := ht
      exact hmoved _ file ⟨hd, pages', ht⟩ (by rw [hh]; exact .refl _) fun e => by simp
  | scan =>
      have hw := collect_serving hserving hf alwaysMatch
      unfold Record.step Opened.scan
      cases hr : collect s.file.scan with
      | ok l t => exact ⟨hkept _ (wp_ok hr hw).1, fun e he => by simp at he⟩
      | error e t => exact hfail e _ (wp_error hr hw).1
  | reopen cap pos =>
      rcases reopen_cases s cap with ⟨why, he⟩ | ⟨pageFile, file, hp, ho, he⟩
      · have hstep : Record.step s (.reopen cap pos) = (s, .failed why) := he
        rw [hstep]
        exact ⟨⟨⟨hd, pages, hserving⟩, hf, hc⟩, fun _ _ => ⟨fun _ => rfl, rfl⟩⟩
      · have hstep : Record.step s (.reopen cap pos) = (⟨cap, file⟩, .done) := he
        rw [hstep]
        exact ⟨running_of_open hp ho, fun e he => by cases he⟩

theorem Calls.running {s t : Opened I} (hr : Calls (fun u op => ¬ Spoils u.file op) s t)
    (hs : Running s) :
    Running t := by
  induction hr with
  | start => exact hs
  | step op _ hok ih => exact (ih.step op hok).running

end Redbase.Record
