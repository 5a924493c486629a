import Redbase.Record.Invariant

/-!
# The methods on one page

What each method does with the page that it holds.
-/

namespace Redbase.Record

open Prog Bytes Page Function

variable {h : RecordFileHeader} {bytes : PageData} {dirty : Bool} {data : List UInt8} {rid : Rid}

/-- A data page whose header passes the checks. -/
structure Readable (h : RecordFileHeader) (bytes : PageData) : Prop extends PageOk h bytes where
  next_ge : recordPageFull ≤ (headerOf bytes).nextFreePage

theorem Readable.validate (hp : Readable h bytes) :
    (headerOf bytes).validate h.slotsPerPage = .ok () := by
  have hle : freeCount h bytes ≤ h.slotsPerPage := Bitmap.count_le _ _
  unfold RecordPageHeader.validate
  rw [if_neg (by simp [hp.numSlots]), if_neg (by rw [hp.numFree, hp.numSlots]; omega),
    if_neg (Int.not_lt.mpr hp.next_ge)]
  rfl

theorem readPageHeader_eq (h : RecordFileHeader) (bytes : PageData) :
    readPageHeader h bytes =
      (headerOf bytes).validate h.slotsPerPage >>= fun _ =>
        (pure (headerOf bytes) : Except _ _) := by
  unfold Record.readPageHeader RecordPageHeader.decode
  rw [if_neg (by rw [bytes.length_read (by simp)]; exact Nat.lt_irrefl _)]
  rfl

theorem Readable.readPageHeader (hp : Readable h bytes) :
    readPageHeader h bytes = .ok (headerOf bytes) := by
  rw [readPageHeader_eq, hp.validate]
  rfl

/-- A page whose link to the next page is negative as an `i32`, and no mark, is refused. -/
theorem PageOk.readPageHeader_error (hp : PageOk h bytes) (hn : ¬ Readable h bytes) :
    readPageHeader h bytes = .error (.corrupted "record page next_free_page is invalid") := by
  have hle : freeCount h bytes ≤ h.slotsPerPage := Bitmap.count_le _ _
  have hnext : (headerOf bytes).nextFreePage < recordPageFull := by
    by_contra hge
    exact hn ⟨hp, Int.not_lt.mp hge⟩
  rw [readPageHeader_eq]
  unfold RecordPageHeader.validate
  rw [if_neg (by simp [hp.numSlots]), if_neg (by rw [hp.numFree, hp.numSlots]; omega), if_pos hnext]
  rfl

theorem PageOk.ensureSlotUsed (hp : PageOk h bytes) (hs : rid.slotId < h.slotsPerPage) :
    ensureSlotUsed h rid (headerOf bytes) bytes =
      if freeAt h bytes rid.slotId then .error (.emptySlot rid) else .ok () := by
  unfold Record.ensureSlotUsed
  rw [hp.numSlots, if_neg (Nat.not_le.mpr hs)]
  show (if freeAt h bytes rid.slotId = true then _ else _) = _
  split <;> rfl

theorem Readable.getFrom (hf : h.Fits) (hp : Readable h bytes) (hs : rid.slotId < h.slotsPerPage) :
    getFrom h rid bytes = if freeAt h bytes rid.slotId then .error (.emptySlot rid)
      else .ok ⟨rid, slotBytes h bytes rid.slotId⟩ := by
  unfold Record.getFrom
  rw [hp.readPageHeader]
  show ensureSlotUsed h rid (headerOf bytes) bytes >>= _ = _
  rw [hp.ensureSlotUsed hs, hf.recordRange_eq hs]
  split <;> rfl

theorem Readable.readIfUsed (hf : h.Fits) (hp : Readable h bytes)
    (hs : rid.slotId < h.slotsPerPage) :
    readIfUsed h rid bytes = .ok (if freeAt h bytes rid.slotId then none
      else some ⟨rid, slotBytes h bytes rid.slotId⟩) := by
  unfold Record.readIfUsed
  rw [hp.readPageHeader, hf.recordRange_eq hs]
  show (if rid.slotId ≥ (headerOf bytes).numSlots then _ else if freeAt h bytes rid.slotId =
    true then _ else _) = _
  rw [hp.numSlots, if_neg (Nat.not_le.mpr hs)]
  split <;> rfl

theorem recordPageFull_isI32 : IsI32 recordPageFull := by decide

theorem recordPageListEnd_isI32 : IsI32 recordPageListEnd := by decide

/-! ## A slot and its bookkeeping -/

/-- Slot `s` is marked, gets new bytes, and the page a new header. -/
def slotWritten (h : RecordFileHeader) (bytes : PageData) (s : Nat) (isFree : Bool)
    (data : List UInt8) (ph : RecordPageHeader) : PageData :=
  ((markedSlot h bytes s isFree).write (recordStart h s) data).write 0 ph.encode

section SlotWritten

variable {s : Nat} {isFree : Bool} {ph : RecordPageHeader}

theorem headerOf_slotWritten (hph : ph.Sized) :
    headerOf (slotWritten h bytes s isFree data ph) = ph :=
  headerOf_writeHeader hph

theorem freeAt_slotWritten :
    freeAt h (slotWritten h bytes s isFree data ph) = freeAt h (markedSlot h bytes s isFree) :=
  freeAt_writeHeader.trans freeAt_writeSlot

theorem freeCount_slotWritten :
    freeCount h (slotWritten h bytes s isFree data ph) =
      freeCount h (markedSlot h bytes s isFree) :=
  freeCount_congr freeAt_slotWritten

theorem stores_slotWritten (hf : h.Fits) (hs : s < h.slotsPerPage)
    (hd : data.length = h.recordSize) :
    Stores h bytes (slotWritten h bytes s isFree data ph) s isFree data where
  slot_lt := hs
  free := freeAt_slotWritten.trans (freeAt_markedSlot hf hs isFree)
  slots := by
    rw [slotWritten, slotBytes_writeHeader, slotBytes_writeSlot hf hs hd, slotBytes_markedSlot hf]

/-- The page is in order again when its new header tells the truth. -/
theorem PageOk.slotWritten (hf : h.Fits) (hp : PageOk h bytes) (hs : s < h.slotsPerPage)
    (hd : data.length = h.recordSize) (hph : ph.Sized) (hslots : ph.numSlots = h.slotsPerPage)
    (hfree : ph.numFreeSlots = freeCount h (markedSlot h bytes s isFree))
    (hfull : ph.numFreeSlots = 0 → ph.nextFreePage = recordPageFull)
    (hzero : isFree = true → data = List.replicate h.recordSize 0) :
    PageOk h (slotWritten h bytes s isFree data ph) where
  numSlots := by rw [headerOf_slotWritten hph, hslots]
  numFree := by rw [headerOf_slotWritten hph, freeCount_slotWritten, hfree]
  full := by
    rw [headerOf_slotWritten hph, freeCount_slotWritten, ← hfree]
    exact hfull
  zero := (stores_slotWritten hf hs hd).zero hp hzero

end SlotWritten

/-! ## Inserting -/

/-- What `insert` leaves of a page with a free slot and of the file header. -/
structure Inserted (h : RecordFileHeader) (bytes : PageData) (dirty : Bool) (s : Nat)
    (data : List UInt8) (t : OpenPage) : Prop where
  was_free : freeAt h bytes s = true
  stores : Stores h bytes t.bytes s false data
  ok : PageOk h t.bytes
  more : 0 < freeCount h t.bytes →
    (headerOf t.bytes).nextFreePage = (headerOf bytes).nextFreePage ∧ t.header = h ∧
      t.headerDirty = dirty
  full : freeCount h t.bytes = 0 →
    t.header = { h with firstFreePage := (headerOf bytes).nextFreePage } ∧ t.headerDirty = true

theorem inserted_slotWritten (ph : RecordPageHeader) {s : Nat} {t : OpenPage} (hf : h.Fits)
    (hp : PageOk h bytes) (hs : s < h.slotsPerPage) (hset : freeAt h bytes s = true)
    (hd : data.length = h.recordSize) (hph : ph.Sized) (hslots : ph.numSlots = h.slotsPerPage)
    (hfree : ph.numFreeSlots + 1 = freeCount h bytes)
    (hmore : 0 < ph.numFreeSlots →
      ph.nextFreePage = (headerOf bytes).nextFreePage ∧ t.header = h ∧ t.headerDirty = dirty)
    (hfull : ph.numFreeSlots = 0 → ph.nextFreePage = recordPageFull ∧
      t.header = { h with firstFreePage := (headerOf bytes).nextFreePage } ∧ t.headerDirty = true)
    (ht : t.bytes = slotWritten h bytes s false data ph) : Inserted h bytes dirty s data t := by
  have hcount := freeCount_use hf hs hset
  have hfree' : ph.numFreeSlots = freeCount h (markedSlot h bytes s false) := by omega
  constructor
  case was_free => exact hset
  case stores => exact ht ▸ stores_slotWritten hf hs hd
  case ok =>
    rw [ht]
    exact hp.slotWritten hf hs hd hph hslots hfree' (fun h0 => (hfull h0).1) (by simp)
  case more =>
    rw [ht, freeCount_slotWritten, headerOf_slotWritten hph, ← hfree']
    exact hmore
  case full =>
    rw [ht, freeCount_slotWritten, ← hfree']
    exact fun h0 => (hfull h0).2

theorem insertInto_spec (hf : h.Fits) (hp : Readable h bytes) (hpos : 0 < freeCount h bytes)
    (hd : data.length = h.recordSize) (pageId : Nat) :
    wp (insertInto pageId data)
      (fun rid t => ∃ s, rid = ⟨pageId, s⟩ ∧ Inserted h bytes dirty s data t)
      never ⟨bytes, h, dirty⟩ := by
  unfold insertInto
  simp only [wp_bind, wp_get, hp.readPageHeader, wp_lift_ok, hp.validate]
  have hsized := sized_headerOf bytes
  cases hfind : findFirstFreeSlot (bitmap bytes h.slotsPerPage) h.slotsPerPage with
  | none => exact absurd (Bitmap.first_eq_none.mp hfind) (Nat.ne_of_gt hpos)
  | some s =>
      obtain ⟨hs, hset⟩ := Bitmap.first_eq_some hfind
      have hnum := hp.numFree
      have hne : ¬ (headerOf bytes).numFreeSlots = 0 := by omega
      have hfree : (headerOf bytes).numFreeSlots - 1 + 1 = freeCount h bytes := by omega
      have hlt := Nat.lt_of_le_of_lt (Nat.sub_le _ 1) hsized.free
      simp only [wp_bind, wp_modify, wp_ite, if_neg hne, hf.recordRange_eq hs, wp_lift_ok, wp_pure]
      split
      next h0 =>
        refine ⟨s, rfl, inserted_slotWritten
          ⟨recordPageFull, (headerOf bytes).numSlots, (headerOf bytes).numFreeSlots - 1⟩ hf
            hp.toPageOk hs hset hd
          ⟨recordPageFull_isI32, hsized.slots, hlt⟩ hp.numSlots hfree (fun hpos => ?_)
          (fun _ => ⟨rfl, rfl, rfl⟩) rfl⟩
        exact absurd h0 (Nat.ne_of_gt hpos)
      next h0 =>
        exact ⟨s, rfl, inserted_slotWritten
          ⟨(headerOf bytes).nextFreePage, (headerOf bytes).numSlots,
            (headerOf bytes).numFreeSlots - 1⟩ hf
          hp.toPageOk hs hset hd ⟨hsized.next, hsized.slots, hlt⟩ hp.numSlots hfree
          (fun _ => ⟨rfl, rfl, rfl⟩) (fun hz => absurd hz h0) rfl⟩

/-! ## Updating and deleting -/

theorem updateIn_spec (hf : h.Fits) (hp : Readable h bytes) (hs : rid.slotId < h.slotsPerPage)
    (hd : data.length = h.recordSize) :
    wp (updateIn rid data)
      (fun _ t => freeAt h bytes rid.slotId = false ∧ Stores h bytes t.bytes rid.slotId false data ∧
        PageOk h t.bytes ∧ (headerOf t.bytes).nextFreePage = (headerOf bytes).nextFreePage ∧
        freeCount h t.bytes = freeCount h bytes ∧ t.header = h ∧ t.headerDirty = dirty)
      (fun e t => freeAt h bytes rid.slotId = true ∧ e = .emptySlot rid ∧ t = ⟨bytes, h, dirty⟩)
      ⟨bytes, h, dirty⟩ := by
  unfold updateIn
  simp only [wp_bind, wp_get, hp.readPageHeader, wp_lift_ok, hp.ensureSlotUsed hs]
  cases hfree : freeAt h bytes rid.slotId with
  | true => exact ⟨rfl, rfl, rfl⟩
  | false =>
      have hst : Stores h bytes (bytes.write (recordStart h rid.slotId) data) rid.slotId
          false data := by
        refine ⟨hs, ?_, slotBytes_writeSlot hf hs hd⟩
        rw [freeAt_writeSlot, ← hfree, update_eq_self]
      simp only [Bool.false_eq_true, if_false, wp_lift_ok, hf.recordRange_eq hs, wp_modify]
      refine ⟨trivial, hst, ⟨?_, ?_, ?_, hst.zero hp.toPageOk (by simp)⟩, ?_, ?_, rfl, rfl⟩
      · exact (congrArg _ headerOf_writeSlot).trans hp.numSlots
      · exact (congrArg _ headerOf_writeSlot).trans
          (hp.numFree.trans (freeCount_congr freeAt_writeSlot).symm)
      · intro h0
        exact (congrArg _ headerOf_writeSlot).trans
          (hp.full ((freeCount_congr freeAt_writeSlot).symm.trans h0))
      · exact congrArg _ headerOf_writeSlot
      · exact freeCount_congr freeAt_writeSlot

/-- What `delete` leaves of a page and of the file header. -/
structure Deleted (h : RecordFileHeader) (bytes : PageData) (dirty : Bool) (rid : Rid)
    (t : OpenPage) : Prop where
  was_used : freeAt h bytes rid.slotId = false
  stores : Stores h bytes t.bytes rid.slotId true (List.replicate h.recordSize 0)
  ok : PageOk h t.bytes
  free : 0 < freeCount h t.bytes
  more : 0 < freeCount h bytes →
    (headerOf t.bytes).nextFreePage = (headerOf bytes).nextFreePage ∧ t.header = h ∧
      t.headerDirty = dirty
  full : freeCount h bytes = 0 → (headerOf t.bytes).nextFreePage = h.firstFreePage ∧
    t.header = { h with firstFreePage := asI32 rid.pageId } ∧ t.headerDirty = true

theorem deleted_slotWritten (ph : RecordPageHeader) {t : OpenPage} (hf : h.Fits)
    (hp : PageOk h bytes)
    (hs : rid.slotId < h.slotsPerPage) (hused : freeAt h bytes rid.slotId = false) (hph : ph.Sized)
    (hslots : ph.numSlots = h.slotsPerPage) (hfree : ph.numFreeSlots = freeCount h bytes + 1)
    (hmore : 0 < freeCount h bytes →
      ph.nextFreePage = (headerOf bytes).nextFreePage ∧ t.header = h ∧ t.headerDirty = dirty)
    (hfull : freeCount h bytes = 0 → ph.nextFreePage = h.firstFreePage ∧
      t.header = { h with firstFreePage := asI32 rid.pageId } ∧ t.headerDirty = true)
    (ht : t.bytes = slotWritten h bytes rid.slotId true (List.replicate h.recordSize 0) ph) :
    Deleted h bytes dirty rid t := by
  have hcount := freeCount_free hf hs hused
  constructor
  case was_used => exact hused
  case stores => exact ht ▸ stores_slotWritten hf hs List.length_replicate
  case ok =>
    rw [ht]
    exact hp.slotWritten hf hs List.length_replicate hph hslots (hfree.trans hcount.symm)
      (fun h0 => by omega) fun _ => rfl
  case free =>
    rw [ht, freeCount_slotWritten, hcount]
    exact Nat.succ_pos _
  case more =>
    rw [ht, headerOf_slotWritten hph]
    exact hmore
  case full =>
    rw [ht, headerOf_slotWritten hph]
    exact hfull

theorem deleteIn_spec (hf : h.Fits) (hp : Readable h bytes) (hs : rid.slotId < h.slotsPerPage)
    (hfirst : IsI32 h.firstFreePage) :
    wp (deleteIn rid) (fun _ t => Deleted h bytes dirty rid t)
      (fun e t => freeAt h bytes rid.slotId = true ∧ e = .emptySlot rid ∧ t = ⟨bytes, h, dirty⟩)
      ⟨bytes, h, dirty⟩ := by
  unfold deleteIn
  simp only [wp_bind, wp_get, hp.readPageHeader, wp_lift_ok, hp.ensureSlotUsed hs]
  have hsized := sized_headerOf bytes
  cases hfree : freeAt h bytes rid.slotId with
  | true => exact ⟨rfl, rfl, rfl⟩
  | false =>
      have hcount := freeCount_free hf hs hfree
      have hle : freeCount h (markedSlot h bytes rid.slotId true) ≤ h.slotsPerPage :=
        Bitmap.count_le _ _
      have hslots := hf.slots_le
      have hlt : (headerOf bytes).numFreeSlots + 1 < 2 ^ 32 := by
        have hnum := hp.numFree
        simp only [pageDataSize] at hslots
        omega
      have hnum := hp.numFree
      simp only [Bool.false_eq_true, if_false, wp_lift_ok, checked_of_lt hlt, wp_bind, wp_modify,
        hf.recordRange_eq hs, wp_ite]
      split
      next h0 =>
        refine deleted_slotWritten
          ⟨h.firstFreePage, (headerOf bytes).numSlots, (headerOf bytes).numFreeSlots + 1⟩ hf
            hp.toPageOk hs hfree
          ⟨hfirst, hsized.slots, hlt⟩ hp.numSlots (congrArg (· + 1) hnum) (fun hpos => ?_)
          (fun _ => ⟨rfl, rfl, rfl⟩) rfl
        omega
      next h0 =>
        refine deleted_slotWritten
          ⟨(headerOf bytes).nextFreePage, (headerOf bytes).numSlots,
            (headerOf bytes).numFreeSlots + 1⟩ hf
          hp.toPageOk hs hfree ⟨hsized.next, hsized.slots, hlt⟩ hp.numSlots (congrArg (· + 1) hnum)
          (fun _ => ⟨rfl, rfl, rfl⟩) (fun hz => ?_) rfl
        omega

/-! ## Pages that are refused -/

section Refused

variable {p : OpenPage} {e : RecordError} (hr : readPageHeader p.header p.bytes = .error e)

include hr

theorem insertInto_refused (pageId : Nat) (data : List UInt8) :
    wp (insertInto pageId data) (fun _ _ => False) (fun _ t => t = p) p := by
  unfold insertInto
  simp only [wp_bind, wp_get, hr, wp_lift_error]

theorem updateIn_refused (rid : Rid) (data : List UInt8) :
    wp (updateIn rid data) (fun _ _ => False) (fun _ t => t = p) p := by
  unfold updateIn
  simp only [wp_bind, wp_get, hr, wp_lift_error]

theorem deleteIn_refused (rid : Rid) :
    wp (deleteIn rid) (fun _ _ => False) (fun _ t => t = p) p := by
  unfold deleteIn
  simp only [wp_bind, wp_get, hr, wp_lift_error]

end Refused

/-! ## Allocating a page and storing the file header -/

/-- What `allocate_data_page` makes of the new page and the file header. -/
structure Allocated (h : RecordFileHeader) (pageId : Nat) (t : OpenPage) : Prop where
  ok : PageOk h t.bytes
  all_free : ∀ s < h.slotsPerPage, freeAt h t.bytes s = true
  free : 0 < freeCount h t.bytes
  next : (headerOf t.bytes).nextFreePage = recordPageListEnd
  header : t.header = { h with numPages := h.numPages + 1, firstFreePage := asI32 pageId }
  dirty : t.headerDirty = true

/-- A new data page. -/
def newPage (h : RecordFileHeader) : PageData :=
  ((Block.zero pageDataSize).write 0 (RecordPageHeader.new h.slotsPerPage).encode).write
    recordPageHeaderSize
    (List.replicate (bitmapBytes h.slotsPerPage) 255)

theorem bitmap_newPage (hf : h.Fits) :
    bitmap (newPage h) h.slotsPerPage = List.replicate (bitmapBytes h.slotsPerPage) 255 := by
  have hle := Nat.le_trans (Nat.le_add_right _ _) hf.le
  have hfit : recordPageHeaderSize +
      (List.replicate (bitmapBytes h.slotsPerPage) (255 : UInt8)).length ≤
      pageDataSize := by
    rwa [List.length_replicate]
  have hr :=
    ((Block.zero pageDataSize).write 0 (RecordPageHeader.new h.slotsPerPage).encode).read_write_self
      hfit
  rwa [List.length_replicate] at hr

theorem headerOf_newPage (hf : h.Fits) :
    headerOf (newPage h) = RecordPageHeader.new h.slotsPerPage := by
  have hs := hf.slots_le
  simp only [pageDataSize] at hs
  have hsz : (RecordPageHeader.new h.slotsPerPage).Sized :=
    ⟨recordPageListEnd_isI32,
      Nat.lt_of_le_of_lt hs (by decide), Nat.lt_of_le_of_lt hs (by decide)⟩
  unfold headerOf newPage
  rw [Block.read_write_of_disjoint _ (Or.inl (by simp))]
  exact headerOf_writeHeader hsz

theorem freeCount_newPage (hf : h.Fits) : freeCount h (newPage h) = h.slotsPerPage := by
  rw [freeCount, bitmap_newPage hf]
  exact Bitmap.count_ones (le_bitmapBytes _)

theorem slotBytes_newPage (hf : h.Fits) {s : Nat} (hs : s < h.slotsPerPage) :
    slotBytes h (newPage h) s = List.replicate h.recordSize 0 := by
  have hle := hf.slot_le hs
  have hstart : recordPageHeaderSize + bitmapBytes h.slotsPerPage ≤ recordStart h s :=
    Nat.le_add_right _ _
  unfold slotBytes newPage
  rw [Block.read_write_of_disjoint _ (Or.inr (by simpa using hstart)),
    Block.read_write_of_disjoint _ (Or.inr ?_), Block.read_zero, Nat.min_eq_left (by omega)]
  rw [RecordPageHeader.length_encode, Nat.zero_add]
  exact Nat.le_trans (Nat.le_add_right _ _) hstart

theorem allocateIn_spec (hf : h.Fits) (hn : h.numPages + 1 < 2 ^ 32) (pageId : Nat) :
    wp (allocateIn pageId) (fun _ t => Allocated h pageId t) never ⟨bytes, h, dirty⟩ := by
  have hslots := hf.slots_pos
  have hle := hf.le
  unfold allocateIn initializePage
  simp only [wp_bind, wp_get, wp_modify, wp_ite, wp_throw, wp_pure, checked_of_lt hn]
  rw [if_neg (Nat.not_lt.mpr hle)]
  have hfree : ∀ s < h.slotsPerPage, freeAt h (newPage h) s = true := fun s hs => by
    rw [freeAt, bitmap_newPage hf]
    exact Bitmap.isSet_ones (Nat.lt_of_lt_of_le hs (le_bitmapBytes _))
  have hok : PageOk h (newPage h) := by
    refine ⟨?_, ?_, fun h0 => ?_, fun s hs _ => slotBytes_newPage hf hs⟩
    · rw [headerOf_newPage hf]
      rfl
    · rw [headerOf_newPage hf, freeCount_newPage hf]
      rfl
    · rw [freeCount_newPage hf] at h0
      omega
  refine ⟨hok, hfree, ?_, ?_, rfl, rfl⟩
  · exact (freeCount_newPage hf).symm ▸ hslots
  · exact congrArg RecordPageHeader.nextFreePage (headerOf_newPage hf)

theorem persistIn_spec :
    wp persistIn (fun _ t => t = ⟨bytes.write 0 h.encode, h, false⟩) never ⟨bytes, h, dirty⟩ := by
  unfold persistIn
  simp only [wp_bind, wp_get, wp_modify]
  rfl

end Redbase.Record
