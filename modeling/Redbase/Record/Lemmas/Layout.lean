import Redbase.Record.File

/-!
# Reading back what was written to a page

The slots of a page do not overlap one another, the bitmap or the page header, so every write is
read back and leaves the other parts alone.
-/

namespace Redbase.Record

open Prog Bytes Page

theorem le_bitmapBytes (n : Nat) : n ≤ 8 * bitmapBytes n := by
  unfold bitmapBytes
  omega

theorem byte_lt_bitmapBytes {i n : Nat} (h : i < n) : i / 8 < bitmapBytes n := by
  unfold bitmapBytes
  omega

/-! ## The number of slots -/

theorem fitSlots_eq_some {size n slots : Nat} (h : fitSlots size n = some slots) :
    0 < slots ∧ slots ≤ n ∧
      recordPageHeaderSize + bitmapBytes slots + slots * size ≤ pageDataSize := by
  induction n with
  | zero => cases h
  | succ n ih =>
      rw [fitSlots] at h
      split at h
      next hfit =>
        cases h
        exact ⟨Nat.succ_pos n, Nat.le_refl _, hfit⟩
      next =>
        obtain ⟨hpos, hle, hfit⟩ := ih h
        exact ⟨hpos, Nat.le_succ_of_le hle, hfit⟩

theorem computeSlotsPerPage_eq_ok {size slots : Nat} (h : computeSlotsPerPage size = .ok slots) :
    0 < size ∧ 0 < slots ∧ recordPageHeaderSize + bitmapBytes slots + slots * size ≤
      pageDataSize := by
  unfold computeSlotsPerPage at h
  split at h
  next => cases h
  next h0 =>
    split at h
    next slots' hfit =>
      cases h
      obtain ⟨hpos, -, hle⟩ := fitSlots_eq_some hfit
      exact ⟨Nat.pos_of_ne_zero h0, hpos, hle⟩
    next => cases h

theorem bitmapBytes_mono {m n : Nat} (h : m ≤ n) : bitmapBytes m ≤ bitmapBytes n := by
  unfold bitmapBytes
  omega

theorem FitsInPage.mono {size m n : Nat} (h : FitsInPage size n) (hm : m ≤ n) :
    FitsInPage size m := by
  have hb := bitmapBytes_mono hm
  have hs := Nat.mul_le_mul_right size hm
  unfold FitsInPage at h ⊢
  omega

theorem fitsInPage_one {size : Nat} :
    FitsInPage size 1 ↔ recordPageHeaderSize + 1 + size ≤ pageDataSize := by
  rw [FitsInPage, Nat.one_mul]
  rfl

/-- The search starts high enough. -/
theorem FitsInPage.le_start {size n : Nat} (h : FitsInPage size n) (hs : 0 < size) :
    n ≤ pageDataSize / size := by
  rw [Nat.le_div_iff_mul_le hs]
  unfold FitsInPage at h
  omega

/-- From a count that is high enough the search comes to the largest that fits. -/
theorem fitSlots_of_fits {size n m : Nat} (hm : FitsInPage size m) (hpos : 0 < m) (hle : m ≤ n) :
    ∃ slots, fitSlots size n = some slots ∧ m ≤ slots ∧ ∀ k ≤ n, FitsInPage size k → k ≤ slots := by
  induction n with
  | zero => omega
  | succ n ih =>
      rw [fitSlots]
      split
      next => exact ⟨n + 1, rfl, hle, fun k hk _ => hk⟩
      next hno =>
        have hne : ∀ k ≤ n + 1, FitsInPage size k → k ≤ n := fun k hk hfit => by
          rcases Nat.lt_or_eq_of_le hk with hlt | rfl
          · exact Nat.le_of_lt_succ hlt
          · exact absurd hfit hno
        obtain ⟨slots, hs, hms, hmax⟩ := ih (hne m hle hm)
        exact ⟨slots, hs, hms, fun k hk hfit => hmax k (hne k hk hfit) hfit⟩

theorem computeSlotsPerPage_of_fits {size m : Nat} (hs : 0 < size) (hm : FitsInPage size m)
    (hpos : 0 < m) :
    ∃ slots, computeSlotsPerPage size = .ok slots ∧ ∀ k, FitsInPage size k → k ≤ slots := by
  obtain ⟨slots, hfit, -, hmax⟩ := fitSlots_of_fits hm hpos (hm.le_start hs)
  refine ⟨slots, ?_, fun k hk => hmax k (hk.le_start hs) hk⟩
  rw [computeSlotsPerPage, if_neg hs.ne', hfit]
  rfl

/-- A header whose number of slots is the one that its record size gives. -/
def RecordFileHeader.Fits (h : RecordFileHeader) : Prop :=
  computeSlotsPerPage h.recordSize = .ok h.slotsPerPage

namespace RecordFileHeader.Fits

variable {h : RecordFileHeader}

theorem size_pos (hf : h.Fits) : 0 < h.recordSize := (computeSlotsPerPage_eq_ok hf).1

theorem slots_pos (hf : h.Fits) : 0 < h.slotsPerPage := (computeSlotsPerPage_eq_ok hf).2.1

theorem le (hf : h.Fits) :
    recordPageHeaderSize + bitmapBytes h.slotsPerPage + h.slotsPerPage * h.recordSize ≤
      pageDataSize :=
  (computeSlotsPerPage_eq_ok hf).2.2

theorem slots_le (hf : h.Fits) : h.slotsPerPage ≤ pageDataSize := by
  have := Nat.le_mul_of_pos_right h.slotsPerPage hf.size_pos
  have := hf.le
  omega

theorem size_le (hf : h.Fits) : h.recordSize ≤ pageDataSize := by
  have := Nat.le_mul_of_pos_left h.recordSize hf.slots_pos
  have := hf.le
  omega

theorem slot_le (hf : h.Fits) {s : Nat} (hs : s < h.slotsPerPage) :
    recordStart h s + h.recordSize ≤ pageDataSize := by
  have hm := Nat.mul_le_mul_right h.recordSize (Nat.succ_le_of_lt hs)
  have := hf.le
  rw [Nat.succ_mul] at hm
  unfold recordStart
  omega

theorem recordRange_eq (hf : h.Fits) {s : Nat} (hs : s < h.slotsPerPage) :
    recordRange h s = .ok (recordStart h s) := by
  unfold recordRange
  rw [if_neg (Nat.not_le.mpr hs), if_neg (Nat.not_lt.mpr (hf.slot_le hs))]
  rfl

theorem recordStart_mono {s t : Nat} (hst : s < t) :
    recordStart h s + h.recordSize ≤ recordStart h t := by
  have hm := Nat.mul_le_mul_right h.recordSize (Nat.succ_le_of_lt hst)
  rw [Nat.succ_mul] at hm
  unfold recordStart
  omega

/-- The parts of a page lie one after another. -/
theorem pageParts_pairwise (h : RecordFileHeader) :
    (pageParts h).Pairwise fun a b => a.2 ≤ b.1 := by
  have hslots : ∀ b ∈ (List.range h.slotsPerPage).map fun slot =>
      (recordStart h slot, recordStart h slot + h.recordSize),
      recordPageHeaderSize + bitmapBytes h.slotsPerPage ≤ b.1 := by
    simp only [List.mem_map, List.mem_range]
    rintro _ ⟨slot, -, rfl⟩
    exact Nat.le_add_right _ _
  refine List.pairwise_cons.mpr ⟨fun b hb => ?_, List.pairwise_cons.mpr ⟨hslots, ?_⟩⟩
  · rcases List.mem_cons.mp hb with rfl | hb
    · exact Nat.le_refl _
    · exact Nat.le_trans (Nat.le_add_right _ _) (hslots b hb)
  · exact List.pairwise_map.mpr (List.pairwise_lt_range.imp recordStart_mono)

theorem pageParts_inside (hf : h.Fits) {a : Nat × Nat} (ha : a ∈ pageParts h) :
    a.1 < a.2 ∧ a.2 ≤ pageDataSize := by
  have hb := byte_lt_bitmapBytes hf.slots_pos
  have hle := Nat.le_trans (Nat.le_add_right _ _) hf.le
  simp only [pageParts, List.mem_cons, List.mem_map, List.mem_range] at ha
  rcases ha with rfl | rfl | ⟨slot, hs, rfl⟩
  · decide
  · refine ⟨?_, hle⟩
    simp only
    omega
  · exact ⟨Nat.lt_add_of_pos_right hf.size_pos, hf.slot_le hs⟩

end RecordFileHeader.Fits

/-! ## The file header -/

/-- What the checks of `validate` ask for. -/
structure RecordFileHeader.Valid (h : RecordFileHeader) : Prop where
  fits : h.Fits
  end_le : recordPageListEnd ≤ h.firstFreePage
  inside : h.firstFreePage ≠ recordPageListEnd → asU32 h.firstFreePage ≤ h.numPages

theorem RecordFileHeader.validate_eq_ok_iff {h : RecordFileHeader} {u : Unit} :
    h.validate = .ok u ↔ h.Valid := by
  simp only [validate, throw_bind, bind_eq_ok, throw_eq_ok, pure_eq_ok, ite_eq_ok, if_false_left]
  constructor
  · rintro ⟨-, slots, hc, hs, hend, hin, -⟩
    refine ⟨?_, Int.not_lt.mp hend, fun hne => Nat.not_lt.mp fun hlt => hin ⟨hne, hlt⟩⟩
    rw [Fits, hc, Decidable.not_not.mp hs]
  · intro hv
    exact ⟨hv.fits.size_pos.ne', _, hv.fits, by simp, Int.not_lt.mpr hv.end_le,
      fun hc => Nat.not_lt.mpr (hv.inside hc.1) hc.2, trivial⟩

@[simp] theorem RecordFileHeader.length_encode (h : RecordFileHeader) : h.encode.length = 16 := by
  simp [encode]

theorem RecordFileHeader.read_encode {h : RecordFileHeader} (hs : h.recordSize < 2 ^ 32)
    (hp : h.slotsPerPage < 2 ^ 32) (hf : IsI32 h.firstFreePage)
    (hn : h.numPages < 2 ^ 32) : read h.encode = h := by
  have he : h.encode = u32Bytes h.recordSize ++ (u32Bytes h.slotsPerPage ++
      (i32Bytes h.firstFreePage ++ u32Bytes h.numPages)) := by simp [encode]
  have h₁ : slice h.encode 0 4 = u32Bytes h.recordSize := by
    rw [he, slice_append_left (length_u32Bytes _)]
  have h₂ : slice h.encode 4 4 = u32Bytes h.slotsPerPage := by
    rw [he, slice_append_right (k := 0) (by simp), slice_append_left (length_u32Bytes _)]
  have h₃ : slice h.encode 8 4 = i32Bytes h.firstFreePage := by
    rw [he, slice_append_right (k := 4) (by simp), slice_append_right (k := 0) (by simp),
      slice_append_left (length_i32Bytes _)]
  have h₄ : slice h.encode 12 4 = u32Bytes h.numPages := by
    rw [he, slice_append_right (k := 8) (by simp), slice_append_right (k := 4) (by simp),
      slice_append_right (k := 0) (by simp), slice_full (length_u32Bytes _)]
  rw [read, h₁, h₂, h₃, h₄, leNat_u32Bytes hs, leNat_u32Bytes hp, leNat_u32Bytes hn,
    i32OfBytes_i32Bytes hf]

theorem RecordFileHeader.decode_eq_ok_iff {buf : List UInt8} {h : RecordFileHeader} :
    decode buf = .ok h ↔ recordFileHeaderSize ≤ buf.length ∧ read buf = h ∧ h.Valid := by
  simp only [decode, throw_bind, bind_eq_ok, throw_eq_ok, pure_eq_ok, ite_eq_ok,
    if_false_left, Nat.not_lt, validate_eq_ok_iff, exists_const]
  constructor
  · rintro ⟨hl, hv, rfl⟩
    exact ⟨hl, rfl, hv⟩
  · rintro ⟨hl, rfl, hv⟩
    exact ⟨hl, hv, rfl⟩

/-! ## The parts of a data page -/

/-- The page header that `bytes` start with. -/
def headerOf (bytes : PageData) : RecordPageHeader :=
  RecordPageHeader.read (bytes.read 0 recordPageHeaderSize)

/-- The bytes of slot `s`. -/
def slotBytes (h : RecordFileHeader) (bytes : PageData) (s : Nat) : List UInt8 :=
  bytes.read (recordStart h s) h.recordSize

/-- Slot `s` is marked free. -/
def freeAt (h : RecordFileHeader) (bytes : PageData) (s : Nat) : Bool :=
  slotIsFree (bitmap bytes h.slotsPerPage) s

/-- The number of slots that are marked free. -/
def freeCount (h : RecordFileHeader) (bytes : PageData) : Nat :=
  Bitmap.count (bitmap bytes h.slotsPerPage) h.slotsPerPage

/-- The fields of a page header fit their integers. -/
structure RecordPageHeader.Sized (ph : RecordPageHeader) : Prop where
  next : IsI32 ph.nextFreePage
  slots : ph.numSlots < 2 ^ 32
  free : ph.numFreeSlots < 2 ^ 32

theorem sized_headerOf (bytes : PageData) : (headerOf bytes).Sized := by
  have hr : (bytes.read 0 recordPageHeaderSize).length = 12 := bytes.length_read (by simp)
  have hl : ∀ off, off + 4 ≤ 12 → (slice (bytes.read 0 recordPageHeaderSize) off 4).length = 4 := by
    intro off ho
    rw [length_slice, hr]
    omega
  have hn : ∀ off, off + 4 ≤ 12 →
      leNat (slice (bytes.read 0 recordPageHeaderSize) off 4) < 2 ^ 32 := by
    intro off ho
    have hlt := leNat_lt (slice (bytes.read 0 recordPageHeaderSize) off 4)
    rwa [hl off ho] at hlt
  exact ⟨i32OfBytes_isI32 (hl 0 (by decide)), hn 4 (by decide), hn 8 (by decide)⟩

@[simp] theorem RecordPageHeader.length_encode (ph : RecordPageHeader) : ph.encode.length = 12 := by
  simp [encode]

theorem RecordPageHeader.read_encode {ph : RecordPageHeader} (hs : ph.Sized) :
    read ph.encode = ph := by
  have he : ph.encode = i32Bytes ph.nextFreePage ++ (u32Bytes ph.numSlots ++
      u32Bytes ph.numFreeSlots) := by simp [encode]
  have h₁ : slice ph.encode 0 4 = i32Bytes ph.nextFreePage := by
    rw [he, slice_append_left (length_i32Bytes _)]
  have h₂ : slice ph.encode 4 4 = u32Bytes ph.numSlots := by
    rw [he, slice_append_right (k := 0) (by simp), slice_append_left (length_u32Bytes _)]
  have h₃ : slice ph.encode 8 4 = u32Bytes ph.numFreeSlots := by
    rw [he, slice_append_right (k := 4) (by simp), slice_append_right (k := 0) (by simp),
      slice_full (length_u32Bytes _)]
  rw [read, h₁, h₂, h₃, leNat_u32Bytes hs.slots, leNat_u32Bytes hs.free,
    i32OfBytes_i32Bytes hs.next]

section Writes

variable {h : RecordFileHeader} {bytes : PageData} {ph : RecordPageHeader} {d : List UInt8}
  {s t : Nat}

theorem headerOf_writeHeader (hs : ph.Sized) : headerOf (bytes.write 0 ph.encode) = ph := by
  have hfit : 0 + ph.encode.length ≤ pageDataSize := by simp
  have hr := bytes.read_write_self hfit
  rw [ph.length_encode] at hr
  rw [headerOf, hr, RecordPageHeader.read_encode hs]

theorem freeAt_writeHeader : freeAt h (bytes.write 0 ph.encode) = freeAt h bytes := by
  unfold freeAt bitmap
  rw [Block.read_write_of_disjoint _ (Or.inr (by simp))]

theorem freeCount_congr {bytes' : PageData} (he : freeAt h bytes' = freeAt h bytes) :
    freeCount h bytes' = freeCount h bytes :=
  List.countP_congr fun s _ => by
    have hs := congrFun he s
    rw [show Bitmap.isSet (bitmap bytes' h.slotsPerPage) s = _ from hs]
    rfl

theorem slotBytes_writeHeader : slotBytes h (bytes.write 0 ph.encode) = slotBytes h bytes := by
  funext s
  exact Block.read_write_of_disjoint _ (Or.inr (by simp [recordStart]; omega))

theorem headerOf_writeSlot : headerOf (bytes.write (recordStart h s) d) = headerOf bytes := by
  unfold headerOf
  rw [Block.read_write_of_disjoint _ (Or.inl (by unfold recordStart; omega))]

theorem freeAt_writeSlot : freeAt h (bytes.write (recordStart h s) d) = freeAt h bytes := by
  unfold freeAt bitmap
  rw [Block.read_write_of_disjoint _ (Or.inl (by unfold recordStart; omega))]

theorem slotBytes_writeSlot (hf : h.Fits) (hs : s < h.slotsPerPage) (hd : d.length = h.recordSize) :
    slotBytes h (bytes.write (recordStart h s) d) = Function.update (slotBytes h bytes) s d := by
  funext t
  rcases Nat.lt_trichotomy t s with hlt | rfl | hgt
  · rw [Function.update_of_ne (Nat.ne_of_lt hlt)]
    refine Block.read_write_of_disjoint _ (Or.inl ?_)
    have hm := Nat.mul_le_mul_right h.recordSize (Nat.succ_le_of_lt hlt)
    rw [Nat.succ_mul] at hm
    unfold recordStart
    omega
  · rw [Function.update_self, slotBytes, ← hd]
    exact Block.read_write_self _ (hd ▸ hf.slot_le hs)
  · rw [Function.update_of_ne (Nat.ne_of_gt hgt)]
    refine Block.read_write_of_disjoint _ (Or.inr ?_)
    have hm := Nat.mul_le_mul_right h.recordSize (Nat.succ_le_of_lt hgt)
    rw [Nat.succ_mul] at hm
    unfold recordStart
    omega

/-- The page after slot `s` is marked free or used. -/
def markedSlot (h : RecordFileHeader) (bytes : PageData) (s : Nat) (isFree : Bool) : PageData :=
  bytes.write recordPageHeaderSize (setSlotFree (bitmap bytes h.slotsPerPage) s isFree)

theorem length_bitmap (hf : h.Fits) :
    (bitmap bytes h.slotsPerPage).length = bitmapBytes h.slotsPerPage :=
  bytes.length_read (Nat.le_trans (Nat.le_add_right _ _) hf.le)

theorem length_setSlotFree (hf : h.Fits) (isFree : Bool) :
    (setSlotFree (bitmap bytes h.slotsPerPage) s isFree).length = bitmapBytes h.slotsPerPage :=
  (Bitmap.length_put _ _ _).trans (length_bitmap hf)

theorem bitmap_markedSlot (hf : h.Fits) (isFree : Bool) :
    bitmap (markedSlot h bytes s isFree) h.slotsPerPage =
      setSlotFree (bitmap bytes h.slotsPerPage) s isFree := by
  have hl : (setSlotFree (bitmap bytes h.slotsPerPage) s isFree).length =
      bitmapBytes h.slotsPerPage :=
    length_setSlotFree hf isFree
  have hle := Nat.le_trans (Nat.le_add_right _ _) hf.le
  unfold markedSlot
  rw [bitmap, ← hl]
  exact Block.read_write_self _ (hl ▸ hle)

/-- Marking a slot changes no byte outside the bitmap. -/
theorem getElem?_markedSlot (hf : h.Fits) (isFree : Bool) {i : Nat}
    (hi : i < recordPageHeaderSize ∨ recordPageHeaderSize + bitmapBytes h.slotsPerPage ≤ i) :
    (markedSlot h bytes s isFree).bytes[i]? = bytes.bytes[i]? := by
  rw [markedSlot, Block.bytes_write, getElem?_overwrite, length_setSlotFree hf, if_neg]
  omega

theorem slotBytes_markedSlot (hf : h.Fits) (isFree : Bool) :
    slotBytes h (markedSlot h bytes s isFree) = slotBytes h bytes := by
  funext t
  refine Block.read_write_of_disjoint _ (Or.inr ?_)
  rw [length_setSlotFree hf]
  exact Nat.le_add_right _ _

theorem freeAt_markedSlot (hf : h.Fits) (hs : s < h.slotsPerPage) (isFree : Bool) :
    freeAt h (markedSlot h bytes s isFree) = Function.update (freeAt h bytes) s isFree := by
  funext t
  have hb : s / 8 < (bitmap bytes h.slotsPerPage).length := by
    rw [length_bitmap hf]
    exact byte_lt_bitmapBytes hs
  rw [freeAt, bitmap_markedSlot hf, slotIsFree, setSlotFree, Bitmap.isSet_put isFree hb]
  rcases eq_or_ne t s with rfl | hne
  · rw [if_pos rfl, Function.update_self]
  · rw [if_neg hne, Function.update_of_ne hne]
    rfl

theorem freeCount_use (hf : h.Fits) (hs : s < h.slotsPerPage) (hfree : freeAt h bytes s = true) :
    freeCount h bytes = freeCount h (markedSlot h bytes s false) + 1 := by
  rw [freeCount, freeCount, bitmap_markedSlot hf]
  refine Bitmap.count_put_false hs ?_ hfree
  rw [length_bitmap hf]
  exact byte_lt_bitmapBytes hs

theorem freeCount_free (hf : h.Fits) (hs : s < h.slotsPerPage) (hused : freeAt h bytes s = false) :
    freeCount h (markedSlot h bytes s true) = freeCount h bytes + 1 := by
  rw [freeCount, freeCount, bitmap_markedSlot hf]
  refine Bitmap.count_put_true hs ?_ hused
  rw [length_bitmap hf]
  exact byte_lt_bitmapBytes hs

end Writes

end Redbase.Record
