import Redbase.Record.Contents
import Redbase.Record.Lemmas.Untouched

/-!
# Reading and changing the records of any file
-/

namespace Redbase.Record

open Prog Bytes Page Buffer BufferPoolState Function RecordFile RecordScan

variable {I : Type} [ReliableIo I] {cap p : Nat} {s t : RecordFile I cap} {hd : FileHeader}
  {pages : Nat → Option PageData} {h : RecordFileHeader} {bytes : PageData} {dirty : Bool}
  {data : List UInt8} {rid : Rid}

/-! ## One page -/

theorem recordIn_ne_none_iff (hf : h.Fits) (hp : h.HasPage rid.pageId)
    (hb : pages rid.pageId = some bytes) :
    recordIn h pages rid ≠ none ↔ UsedSlot h bytes rid := by
  rw [recordIn_of_page hp hb, Option.ne_none_iff_exists']
  constructor
  · rintro ⟨record, hr⟩
    obtain ⟨hpass, hslot, hused, -⟩ := (getFrom_eq_ok hf).mp (toOption_eq_some.mp hr)
    exact ⟨hpass, hslot, hused⟩
  · intro hu
    exact ⟨_, toOption_eq_some.mpr ((getFrom_eq_ok hf).mpr ⟨hu.passes, hu.slot_lt, hu.used, rfl⟩)⟩

/-- A slot is marked and gets new bytes, on a page that passes its checks before and after. -/
theorem recordIn_of_stores {h' : RecordFileHeader} {bytes' : PageData} {isFree : Bool} (hf : h.Fits)
    (hl : SameLayout h h') (hn : h'.numPages = h.numPages) (hp : h.HasPage rid.pageId)
    (hu : UsedSlot h bytes rid) (hst : Stores h bytes bytes' rid.slotId isFree data)
    (hpass : (headerOf bytes').Passes h.slotsPerPage) (hb : pages rid.pageId = some bytes) :
    recordIn h' (update pages rid.pageId (some bytes')) =
      update (recordIn h pages) rid (if isFree then none else some ⟨rid, data⟩) := by
  have hpage : ∀ p, h'.HasPage p ↔ h.HasPage p := fun p => by
    unfold RecordFileHeader.HasPage
    rw [hn]
  funext rid'
  refine Option.ext fun record => ?_
  rw [recordIn_eq_some, hpage]
  simp only [getFrom_eq_ok (hl.fits hf), hl.slots, hl.freeAt_eq, hl.slotBytes_eq]
  by_cases hpid : rid'.pageId = rid.pageId
  · rw [hpid, update_self]
    simp only [Option.some.injEq, exists_eq_left', hst.free, hst.slots]
    by_cases hslot : rid'.slotId = rid.slotId
    · obtain rfl : rid' = rid := by
        cases rid'
        cases rid
        cases hpid
        cases hslot
        rfl
      rw [update_self, update_self, update_self]
      cases isFree with
      | true => simp
      | false => simp [hp, hpass, hu.slot_lt, eq_comm]
    · have hne : rid' ≠ rid := fun he => hslot (congrArg Rid.slotId he)
      rw [update_of_ne hne, update_of_ne hslot, update_of_ne hslot, recordIn_eq_some]
      simp only [hpid, hb, Option.some.injEq, exists_eq_left', getFrom_eq_ok hf]
      simp [hpass, hu.passes]
  · have hne : rid' ≠ rid := fun he => hpid (congrArg Rid.pageId he)
    rw [update_of_ne hpid, update_of_ne hne, recordIn_eq_some]
    simp only [getFrom_eq_ok hf]

/-- The checks of `update` and `delete` fail just where there is no record. -/
theorem slotChecks_iff (h : RecordFileHeader) (rid : Rid) (bytes : PageData) :
    (readPageHeader h bytes = .ok (headerOf bytes) ∧
        ensureSlotUsed h rid (headerOf bytes) bytes = .ok () ∧
        UsedSlot h bytes rid) ∨
      ((∃ e, readPageHeader h bytes = .error e) ∨ (readPageHeader h bytes = .ok (headerOf bytes) ∧
        ∃ e, ensureSlotUsed h rid (headerOf bytes) bytes = .error e)) ∧ ¬ UsedSlot h bytes rid := by
  rcases slotChecks_cases h rid bytes with ⟨hr, hp, hu, hs, hfree⟩ | ⟨e, hr⟩ | ⟨hr, e, hu⟩
  · exact .inl ⟨hr, hu, hp, hs, hfree⟩
  · refine .inr ⟨.inl ⟨e, hr⟩, fun hused => ?_⟩
    rw [readPageHeader_eq_ok.mpr ⟨hused.passes, rfl⟩] at hr
    cases hr
  · refine .inr ⟨.inr ⟨hr, e, hu⟩, fun hused => ?_⟩
    have hok : ensureSlotUsed h rid (headerOf bytes) bytes = .ok () :=
      (ensureSlotUsed_eq_ok hused.passes).mpr ⟨hused.slot_lt, hused.used⟩
    rw [hok] at hu
    cases hu

/-- What `update` leaves of a page. -/
structure Overwritten (h : RecordFileHeader) (bytes : PageData) (rid : Rid) (data : List UInt8)
    (t : OpenPage) : Prop where
  used : UsedSlot h bytes rid
  stores : Stores h bytes t.bytes rid.slotId false data
  pageHeader : headerOf t.bytes = headerOf bytes
  header : t.header = h

theorem updateIn_map (hf : h.Fits) (hlen : data.length = h.recordSize) :
    wp (updateIn rid data) (fun _ t => Overwritten h bytes rid data t)
      (fun _ t => t = ⟨bytes, h, dirty⟩ ∧ ¬ UsedSlot h bytes rid) ⟨bytes, h, dirty⟩ := by
  unfold updateIn
  simp only [wp_bind, wp_get]
  rcases slotChecks_iff h rid bytes with ⟨hr, hu, hused⟩ | ⟨⟨e, hr⟩ | ⟨hr, e, hu⟩, hno⟩
  · simp only [hr, hu, wp_lift_ok, hf.recordRange_eq hused.slot_lt, wp_modify]
    refine ⟨hused, ⟨hused.slot_lt, ?_, slotBytes_writeSlot hf hused.slot_lt hlen⟩,
      headerOf_writeSlot, rfl⟩
    refine freeAt_writeSlot.trans ?_
    rw [← hused.used, update_eq_self]
  · simp only [hr, wp_lift_error]
    exact ⟨trivial, hno⟩
  · simp only [hr, hu, wp_lift_ok, wp_lift_error]
    exact ⟨trivial, hno⟩

/-- What `delete` leaves of a page and of the file header. -/
structure Cleared (h : RecordFileHeader) (bytes : PageData) (rid : Rid) (t : OpenPage) : Prop where
  used : UsedSlot h bytes rid
  stores : Stores h bytes t.bytes rid.slotId true (List.replicate h.recordSize 0)
  passes : (headerOf t.bytes).Passes h.slotsPerPage
  count : (headerOf t.bytes).numFreeSlots ≤ freeCount h t.bytes
  layout : SameLayout h t.header
  numPages : t.header.numPages = h.numPages
  first : recordPageFull ≤ t.header.firstFreePage ∧ IsI32 t.header.firstFreePage

theorem UsedSlot.freeCount_lt (hf : h.Fits) (hu : UsedSlot h bytes rid) :
    freeCount h bytes < h.slotsPerPage := by
  have hmore := freeCount_free hf hu.slot_lt hu.used
  have hle : freeCount h (markedSlot h bytes rid.slotId true) ≤ h.slotsPerPage :=
    Bitmap.count_le _ _
  omega

/-- The slot is freed and cleared, and the page gets a header that counts one slot more. -/
theorem cleared_slotWritten (ph : RecordPageHeader) {t : OpenPage} (hf : h.Fits)
    (hused : UsedSlot h bytes rid) (hcount : (headerOf bytes).numFreeSlots ≤ freeCount h bytes)
    (hph : ph.Sized) (hnum : ph.numSlots = (headerOf bytes).numSlots)
    (hfree : ph.numFreeSlots = (headerOf bytes).numFreeSlots + 1)
    (hnext : recordPageFull ≤ ph.nextFreePage) (hl : SameLayout h t.header)
    (hn : t.header.numPages = h.numPages)
    (hfirst : recordPageFull ≤ t.header.firstFreePage ∧ IsI32 t.header.firstFreePage)
    (ht : t.bytes = slotWritten h bytes rid.slotId true (List.replicate h.recordSize 0) ph) :
    Cleared h bytes rid t := by
  have hlt := hused.freeCount_lt hf
  have hmore := freeCount_free hf hused.slot_lt hused.used
  constructor
  case used => exact hused
  case stores => exact ht ▸ stores_slotWritten hf hused.slot_lt List.length_replicate
  case passes =>
    rw [ht, headerOf_slotWritten hph]
    exact ⟨hnum.trans hused.passes.numSlots, by omega, hnext⟩
  case count =>
    rw [ht, headerOf_slotWritten hph, freeCount_slotWritten]
    omega
  case layout => exact hl
  case numPages => exact hn
  case first => exact hfirst

theorem deleteIn_map (hf : h.Fits)
    (hcount : UsedSlot h bytes rid → (headerOf bytes).numFreeSlots ≤ freeCount h bytes)
    (hfirst : recordPageFull ≤ h.firstFreePage ∧ IsI32 h.firstFreePage)
    (hpage : rid.pageId < 2 ^ 31) :
    wp (deleteIn rid) (fun _ t => Cleared h bytes rid t)
      (fun _ t => t = ⟨bytes, h, dirty⟩ ∧ ¬ UsedSlot h bytes rid) ⟨bytes, h, dirty⟩ := by
  unfold deleteIn
  simp only [wp_bind, wp_get]
  rcases slotChecks_iff h rid bytes with ⟨hr, hu, hused⟩ | ⟨⟨e, hr⟩ | ⟨hr, e, hu⟩, hno⟩
  · have hcount := hcount hused
    have hlt := hused.freeCount_lt hf
    have hslots := hf.slots_le
    simp only [pageDataSize] at hslots
    have hsmall : (headerOf bytes).numFreeSlots + 1 < 2 ^ 32 := by omega
    have hsized := sized_headerOf bytes
    simp only [hr, hu, wp_lift_ok, checked_of_lt hsmall, wp_bind, wp_modify,
      hf.recordRange_eq hused.slot_lt, wp_ite]
    split
    · refine cleared_slotWritten
        ⟨h.firstFreePage, (headerOf bytes).numSlots, (headerOf bytes).numFreeSlots + 1⟩ hf hused
        hcount ⟨hfirst.2, hsized.slots, hsmall⟩ rfl rfl hfirst.1 ⟨rfl, rfl⟩ rfl ?_ rfl
      show recordPageFull ≤ asI32 rid.pageId ∧ IsI32 (asI32 rid.pageId)
      rw [asI32_of_lt hpage, recordPageFull, IsI32]
      omega
    · exact cleared_slotWritten ⟨(headerOf bytes).nextFreePage, (headerOf bytes).numSlots,
        (headerOf bytes).numFreeSlots + 1⟩ hf hused hcount ⟨hsized.next, hsized.slots,
          hsmall⟩ rfl rfl
        hused.passes.next_ge ⟨rfl, rfl⟩ rfl hfirst rfl
  · simp only [hr, wp_lift_error]
    exact ⟨trivial, hno⟩
  · simp only [hr, hu, wp_lift_ok, wp_lift_error]
    exact ⟨trivial, hno⟩

/-! ## The pages -/

/-- Page `p` is in use, and its header passes its checks. -/
def Passing (h : RecordFileHeader) (pages : Nat → Option PageData) (p : Nat) : Prop :=
  ∃ bytes, pages p = some bytes ∧ (headerOf bytes).Passes h.slotsPerPage

/-- No page counts more free slots than it has, and the links are ids of pages. -/
structure Tidy (h : RecordFileHeader) (pages : Nat → Option PageData) : Prop where
  fits : h.Fits
  small : h.numPages < 2 ^ 31
  first : recordPageFull ≤ h.firstFreePage ∧ IsI32 h.firstFreePage
  counted : ∀ p bytes, h.HasPage p → pages p = some bytes → (headerOf bytes).Passes h.slotsPerPage →
    (headerOf bytes).numFreeSlots ≤ freeCount h bytes
  headerPage : pages headerPageId ≠ none

/-- A page that passes its checks gets other bytes that pass them. -/
structure Reset (h h' : RecordFileHeader) (pages pages' : Nat → Option PageData) : Prop where
  tidy : Tidy h' pages'
  layout : SameLayout h h'
  numPages : h'.numPages = h.numPages
  passing : ∀ p, h.HasPage p → (Passing h' pages' p ↔ Passing h pages p)

theorem Reset.refl (ht : Tidy h pages) : Reset h h pages pages :=
  ⟨ht, .refl h, rfl, fun _ _ => .rfl⟩

theorem Tidy.set {h' : RecordFileHeader} {bytes' : PageData} (ht : Tidy h pages)
    (hl : SameLayout h h') (hn : h'.numPages = h.numPages)
    (hfirst : recordPageFull ≤ h'.firstFreePage ∧ IsI32 h'.firstFreePage) (hp : Passing h pages p)
    (hpass : (headerOf bytes').Passes h.slotsPerPage)
    (hcount : (headerOf bytes').numFreeSlots ≤ freeCount h bytes') :
    Reset h h' pages (update pages p (some bytes')) where
  layout := hl
  numPages := hn
  passing q _ := by
    unfold Passing
    rw [hl.slots]
    rcases eq_or_ne q p with rfl | hne
    · rw [update_self]
      exact ⟨fun _ => hp, fun _ => ⟨bytes', rfl, hpass⟩⟩
    · rw [update_of_ne hne]
  tidy := by
    refine ⟨hl.fits ht.fits, hn ▸ ht.small, hfirst, fun q bytes hq hb hpasses => ?_, ?_⟩
    · rw [hl.slots] at hpasses
      rw [hl.freeCount_eq]
      rcases eq_or_ne q p with rfl | hne
      · rw [update_self, Option.some.injEq] at hb
        exact hb ▸ hcount
      · rw [update_of_ne hne] at hb
        exact ht.counted q bytes ⟨hq.1, hn ▸ hq.2⟩ hb hpasses
    · rcases eq_or_ne headerPageId p with he | hne
      · rw [he, update_self]
        exact Option.some_ne_none _
      · rw [update_of_ne hne]
        exact ht.headerPage

/-! ## The methods -/

/-- `t` is `s` with the records `m`. -/
def Moves (s t : RecordFile I cap) (hd : FileHeader) (pages : Nat → Option PageData)
    (m : Rid → Option Record) : Prop :=
  ∃ pages', Serving t.pool t.fileId hd pages' ∧ Reset s.header t.header pages pages' ∧
    recordIn t.header pages' = m

theorem Moves.of_readOn (ht : Tidy s.header pages) (hr : ReadOn s t hd pages) :
    Moves s t hd pages (recordIn s.header pages) := by
  obtain ⟨pool, rfl, hs⟩ := hr
  exact ⟨pages, hs, .refl ht, rfl⟩

/-- The page of a record is there, and passes its checks. -/
theorem UsedSlot.passing (hu : UsedSlot h bytes rid) (hb : pages rid.pageId = some bytes) :
    Passing h pages rid.pageId :=
  ⟨bytes, hb, hu.passes⟩

theorem recordIn_of_bad_rid (hf : h.Fits)
    (hv : ¬ (h.HasPage rid.pageId ∧ rid.slotId < h.slotsPerPage)) :
    recordIn h pages rid = none := by
  refine Option.eq_none_iff_forall_ne_some.mpr fun record hr => hv ?_
  obtain ⟨hp, bytes, -, hg⟩ := recordIn_eq_some.mp hr
  exact ⟨hp, ((getFrom_eq_ok hf).mp hg).2.1⟩

theorem recordIn_of_page_none (hb : pages rid.pageId = none) : recordIn h pages rid = none := by
  unfold recordIn
  rw [hb]
  split <;> rfl

theorem update_map (hs : Serving s.pool s.fileId hd pages) (ht : Tidy s.header pages) (hc : 0 < cap)
    (rid : Rid) (data : List UInt8) :
    wp (RecordFile.update rid data)
      (fun _ t => data.length = s.header.recordSize ∧ recordIn s.header pages rid ≠ none ∧
        Moves s t hd pages (update (recordIn s.header pages) rid (some ⟨rid, data⟩)))
      (fun _ t => ReadOn s t hd pages ∧
        (data.length = s.header.recordSize → recordIn s.header pages rid = none)) s := by
  have hf := ht.fits
  unfold RecordFile.update
  simp only [wp_bind, wp_get, ensureRecordLength_eq]
  split
  next hlen =>
    rw [wp_check_ok, validateRid_eq]
    split
    next hv =>
      rw [wp_check_ok]
      refine withPageMut_serving hs rid.pageId _ (fun pool hpool _ e _ hnone => ?_)
        fun bytes hb => ?_
      · exact ⟨⟨pool, rfl, hpool⟩, fun _ => recordIn_of_page_none (hnone hc)⟩
      · have hiff := recordIn_ne_none_iff hf hv.1 hb
        refine wp_mono (updateIn_map hf hlen) ?_ ?_
        · intro _ t hw pool hpool _
          refine ⟨hlen, hiff.mpr hw.used, _, hpool, ?_, ?_⟩
          · show Reset s.header t.header pages _
            rw [hw.header]
            have hcount := ht.counted _ _ hv.1 hb hw.used.passes
            refine ht.set (.refl _) rfl ht.first (hw.used.passing hb)
              (hw.pageHeader ▸ hw.used.passes) ?_
            have hsame : freeAt s.header t.bytes = freeAt s.header bytes := by
              rw [hw.stores.free, ← hw.used.used, update_eq_self]
            rw [hw.pageHeader, freeCount_congr hsame]
            exact hcount
          · show recordIn t.header _ = _
            rw [hw.header, recordIn_of_stores hf (.refl _) rfl hv.1 hw.used hw.stores
              (hw.pageHeader ▸ hw.used.passes) hb]
            rfl
        · rintro e _ ⟨rfl, hno⟩ pool hpool -
          rw [← hb, update_eq_self] at hpool
          exact ⟨⟨pool, rfl, hpool⟩, fun _ => not_not.mp fun hne => hno (hiff.mp hne)⟩
    next hv =>
      rw [wp_check_error]
      exact ⟨.refl hs, fun _ => recordIn_of_bad_rid hf hv⟩
  next hlen =>
    rw [wp_check_error]
    exact ⟨.refl hs, fun h => absurd h hlen⟩

theorem delete_map (hs : Serving s.pool s.fileId hd pages) (ht : Tidy s.header pages) (hc : 0 < cap)
    (rid : Rid) :
    wp (delete rid)
      (fun _ t => recordIn s.header pages rid ≠ none ∧
        Moves s t hd pages (update (recordIn s.header pages) rid none))
      (fun _ t => ReadOn s t hd pages ∧ recordIn s.header pages rid = none) s := by
  have hf := ht.fits
  unfold delete
  simp only [wp_bind, wp_get, validateRid_eq]
  split
  next hv =>
    rw [wp_check_ok]
    refine withPageMut_serving hs rid.pageId _ (fun pool hpool _ e _ hnone => ?_) fun bytes hb => ?_
    · exact ⟨⟨pool, rfl, hpool⟩, recordIn_of_page_none (hnone hc)⟩
    · have hiff := recordIn_ne_none_iff hf hv.1 hb
      have hpage : rid.pageId < 2 ^ 31 := Nat.lt_of_le_of_lt hv.1.2 ht.small
      refine wp_mono (deleteIn_map hf (fun hu => ht.counted _ _ hv.1 hb hu.passes) ht.first hpage)
        ?_ ?_
      · intro _ t hw pool hpool _
        refine ⟨hiff.mpr hw.used, _, hpool, ?_, ?_⟩
        · exact ht.set hw.layout hw.numPages hw.first (hw.used.passing hb) hw.passes hw.count
        · exact recordIn_of_stores hf hw.layout hw.numPages hv.1 hw.used hw.stores hw.passes hb
      · rintro e _ ⟨rfl, hno⟩ pool hpool -
        rw [← hb, update_eq_self] at hpool
        exact ⟨⟨pool, rfl, hpool⟩, not_not.mp fun hne => hno (hiff.mp hne)⟩
  next hv =>
    rw [wp_check_error]
    exact ⟨.refl hs, recordIn_of_bad_rid hf hv⟩

/-- The header page is no data page. -/
theorem recordIn_headerPage (bytes : PageData) :
    recordIn h (update pages headerPageId (some bytes)) = recordIn h pages := by
  funext rid
  unfold recordIn
  split
  next hp => rw [update_of_ne (ne_zero_of_hasPage hp)]
  next => rfl

theorem flush_map (hs : Serving s.pool s.fileId hd pages) (ht : Tidy s.header pages)
    (hc : 0 < cap) :
    wp RecordFile.flush (fun _ t => Moves s t hd pages (recordIn s.header pages)) never s := by
  have hpersist : wp persistHeader
      (fun _ t => Moves s t hd pages (recordIn s.header pages)) never s := by
    unfold persistHeader
    simp only [wp_bind, wp_get, wp_ite, wp_pure]
    split
    next => exact ⟨pages, hs, .refl ht, rfl⟩
    next =>
      refine withPageMut_serving hs _ _ (fun pool hpool _ _ _ hnone => ?_) fun bytes _ => ?_
      · exact absurd (hnone hc) ht.headerPage
      · refine wp_mono persistIn_spec ?_ fun _ _ => False.elim
        rintro _ _ rfl pool hpool -
        refine ⟨_, hpool, ⟨⟨ht.fits, ht.small, ht.first, ?_, ?_⟩, .refl _, rfl, ?_⟩,
          recordIn_headerPage _⟩
        · intro p bytes hp
          rw [update_of_ne (ne_zero_of_hasPage hp)]
          exact ht.counted p bytes hp
        · rw [update_self]
          exact Option.some_ne_none _
        · intro p hp
          unfold Passing
          rw [update_of_ne (ne_zero_of_hasPage hp)]
  unfold RecordFile.flush liftPool
  simp only [wp_bind, wp_get, wp_mapError, wp_zoom]
  refine wp_mono hpersist ?_ fun _ _ => id
  rintro _ t ⟨pages', hserving, hr, hm⟩
  refine wp_mono (forceFile_settled hserving.inv hserving.backed t.fileId) ?_ ?_
  · rintro _ pool ⟨hi, hb, hheads⟩
    exact ⟨pages', ⟨hi, hb, (congrFun hheads _).trans hserving.header⟩, hr, hm⟩
  · intro _ _ hnone
    obtain ⟨file, hfile, -, -⟩ := hserving.file
    rw [hfile] at hnone
    cases hnone

/-! ## A scan -/

/-- A slot is read just where the header of its page passes its checks. -/
theorem readIfUsed_iff (hf : h.Fits) (hs : rid.slotId < h.slotsPerPage) :
    (∃ r, readIfUsed h rid bytes = .ok r) ↔ (headerOf bytes).Passes h.slotsPerPage := by
  constructor
  · rintro ⟨r, hr⟩
    simp only [readIfUsed, bind_eq_ok, readPageHeader_eq_ok] at hr
    obtain ⟨_, ⟨hp, -⟩, -⟩ := hr
    exact hp
  · intro hp
    simp only [readIfUsed, throw_bind, bind_eq_ok, readPageHeader_eq_ok, throw_eq_ok,
      pure_eq_ok, ite_eq_ok, if_false_left, hf.recordRange_eq hs]
    cases hfree : slotIsFree (bitmap bytes h.slotsPerPage) rid.slotId with
    | true => exact ⟨none, _, ⟨hp, rfl⟩, by rw [hp.numSlots]; omega, rfl⟩
    | false => exact ⟨_, _, ⟨hp, rfl⟩, by rw [hp.numSlots]; omega, _, rfl, rfl⟩

theorem readRecordIfUsed_map (hs : Serving s.pool s.fileId hd pages) (hf : s.header.Fits)
    (hc : 0 < cap) (hp : s.header.HasPage rid.pageId) (hslot : rid.slotId < s.header.slotsPerPage) :
    wp (readRecordIfUsed rid)
      (fun r t => ReadOn s t hd pages ∧ r = recordIn s.header pages rid ∧
        Passing s.header pages rid.pageId)
      (fun _ t => ReadOn s t hd pages ∧ ¬ Passing s.header pages rid.pageId) s := by
  have hin : ¬ (rid.pageId = headerPageId ∨ rid.pageId > s.header.numPages) :=
    not_or.mpr ⟨ne_zero_of_hasPage hp, Nat.not_lt.mpr hp.2⟩
  unfold readRecordIfUsed
  simp only [wp_bind, wp_get, wp_ite, if_neg hin]
  refine wp_mono (withPage_serving hs rid.pageId (readIfUsed s.header rid)) ?_ ?_
  · rintro r t ⟨ht, bytes, hb, hr⟩
    exact ⟨ht, (readIfUsed_eq_ok hf hr).trans (recordIn_of_page hp hb).symm, bytes, hb,
      (readIfUsed_iff hf hslot).mp ⟨r, hr⟩⟩
  · rintro e t ⟨ht, -, hfail⟩
    refine ⟨ht, ?_⟩
    rintro ⟨bytes, hb, hpass⟩
    obtain ⟨e', he⟩ := hfail hc bytes hb
    obtain ⟨r, hr⟩ := (readIfUsed_iff hf hslot).mpr hpass
    rw [he] at hr
    cases hr

/-- What a scan of any file lists: its records, when every page can be read. -/
structure Listed (h : RecordFileHeader) (pages : Nat → Option PageData) (l : List Record) :
    Prop where
  all : ∀ p, h.HasPage p → Passing h pages p
  inOrder : l.Pairwise fun a b => a.rid.Before b.rid
  mem_iff : ∀ record, record ∈ l ↔ recordIn h pages record.rid = some record

theorem rid_of_recordIn {record : Record} (hf : h.Fits) (hr : recordIn h pages rid = some record) :
    record.rid = rid := by
  obtain ⟨-, bytes, -, hg⟩ := recordIn_eq_some.mp hr
  obtain ⟨-, -, -, rfl⟩ := (getFrom_eq_ok hf).mp hg
  rfl

theorem showing_pairwise (hf : h.Fits) (k : Nat) :
    (showing h (fun k => recordIn h pages (ridAt h k)) (fun _ => true) k).Pairwise
      fun a b => a.rid.Before b.rid := by
  unfold showing
  refine List.Pairwise.filter _ (List.pairwise_filterMap.mpr ?_)
  refine (List.pairwise_lt_range' ..).imp fun hjk a ha b hb => ?_
  rw [rid_of_recordIn hf ha, rid_of_recordIn hf hb]
  exact ridAt_before hjk

theorem collect_map (hs : Serving s.pool s.fileId hd pages) (hf : s.header.Fits) (hc : 0 < cap) :
    wp collect (fun l t => ReadOn s t.file hd pages ∧ Listed s.header pages l)
      (fun _ t => ReadOn s t.file hd pages ∧ ¬ ∀ p, s.header.HasPage p →
        Passing s.header pages p) s.scan := by
  have hreads : Reads alwaysMatch s.header (fun t : RecordFile I cap => ReadOn s t hd pages)
      (fun _ t => ReadOn s t hd pages ∧ ¬ ∀ p, s.header.HasPage p → Passing s.header pages p)
      (fun k => recordIn s.header pages (ridAt s.header k)) (fun _ => true)
      (fun k => Passing s.header pages (ridAt s.header k).pageId) := by
    refine ⟨hf, fun _ ht => ht.header, fun t k ht hk => ?_, fun _ _ _ _ _ => rfl⟩
    have hp := ridAt_hasPage hf hk
    have hread := readRecordIfUsed_map ht.serving (by rw [ht.header]; exact hf) hc
      (by rw [ht.header]; exact hp)
      (by rw [ht.header]; exact ridAt_slot_lt hf k)
    rw [ht.header] at hread
    refine wp_mono hread ?_ ?_
    · rintro r u ⟨hu, rfl, hpass⟩
      exact ⟨ht.trans hu, rfl, hpass⟩
    · rintro e u ⟨hu, hno⟩
      exact ⟨ht.trans hu, fun hall => hno (hall _ hp)⟩
  refine wp_mono (collect_reads hreads (.refl hs)) ?_ fun _ _ => id
  rintro _ t ⟨ht, hthrough, rfl⟩
  refine ⟨ht, fun p hp => ?_, showing_pairwise hf 0, fun record =>
    ⟨recordIn_of_showing hf, fun hr => ?_⟩⟩
  · have hpage : s.header.HasPage (Rid.mk p 0).pageId := hp
    obtain ⟨k, hk, he⟩ := exists_ridAt hpage hf.slots_pos
    have hpass : Passing s.header pages (ridAt s.header k).pageId := hthrough k (Nat.zero_le k) hk
    rwa [he] at hpass
  · obtain ⟨hp, bytes, -, hg⟩ := recordIn_eq_some.mp hr
    obtain ⟨k, hk, he⟩ := exists_ridAt hp ((getFrom_eq_ok hf).mp hg).2.1
    simp only [showing, List.mem_filter, List.mem_filterMap, List.mem_range'_1, and_true]
    exact ⟨k, by omega, by rw [he]; exact hr⟩

end Redbase.Record
