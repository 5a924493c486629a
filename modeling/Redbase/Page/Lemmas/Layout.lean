import Redbase.Page.File

/-!
# Where the bytes of a page file are

The fields of a page and of the file header, and the pages of a file as slices of its bytes.
-/

namespace Redbase.Page

open Bytes

/-- The id of a page, as a link, is not the end of the free list. -/
theorem asI32_ne_end {p n : Nat} (hp : p < n) (hn : n < 2 ^ 32) : asI32 p ≠ freeListEnd := by
  unfold asI32 freeListEnd
  split <;> omega

/-! ## The fields of a page -/

/-- The link in a page's header. -/
def PageBuf.nextFree (b : PageBuf) : Int := (PageHeader.decode (b.read 0 4)).nextFree

/-- A page's data bytes. -/
def PageBuf.data (b : PageBuf) : PageData := b.sub pageHeaderSize pageDataSize page_fits

theorem PageBuf.nextFree_isI32 (b : PageBuf) : IsI32 b.nextFree :=
  i32OfBytes_isI32 (Block.length_read b (by decide))

theorem PageBuf.nextFree_writeHeader (b : PageBuf) {h : PageHeader} (hi : IsI32 h.nextFree) :
    PageBuf.nextFree (b.write 0 h.encode) = h.nextFree := by
  have hr : (b.write 0 h.encode).read 0 4 = h.encode :=
    Block.read_write_self b (d := h.encode) (by simp [PageHeader.encode])
  rw [nextFree, hr]
  exact i32OfBytes_i32Bytes hi

@[simp] theorem PageBuf.data_writeHeader (b : PageBuf) (h : PageHeader) :
    PageBuf.data (b.write 0 h.encode) = b.data := by
  ext1
  exact slice_overwrite_of_disjoint _ _ (Or.inr (by simp [PageHeader.encode]))

@[simp] theorem PageBuf.nextFree_writeData (b : PageBuf) (d : PageData) :
    PageBuf.nextFree (b.write pageHeaderSize d.bytes) = b.nextFree := by
  rw [nextFree, Block.read_write_of_disjoint _ (Or.inl (by decide))]
  rfl

@[simp] theorem PageBuf.data_writeData (b : PageBuf) (d : PageData) :
    PageBuf.data (b.write pageHeaderSize d.bytes) = d := by
  ext1
  exact slice_overwrite_block _ d (by simp)

@[simp] theorem PageBuf.data_zero : PageBuf.data (Block.zero _) = Block.zero _ := by
  ext1
  simp only [data, Block.bytes_sub, Block.zero, slice, List.drop_replicate, List.take_replicate]
  rw [show min pageDataSize (pageSize - pageHeaderSize) = pageDataSize from rfl]

/-! ## The file header -/

theorem FileHeader.read_encode {h : FileHeader} (hf : IsI32 h.firstFreePage)
    (hn : h.numPages < 2 ^ 32) :
    FileHeader.read h.encode = h := by
  have h₁ : h.encode.read 0 4 = i32Bytes h.firstFreePage := by
    rw [encode, Block.read_write_of_disjoint _ (Or.inl (by decide))]
    exact Block.read_write_self _ (d := i32Bytes h.firstFreePage) (by simp)
  have h₂ : h.encode.read 4 4 = u32Bytes h.numPages :=
    Block.read_write_self _ (d := u32Bytes h.numPages) (by simp)
  rw [FileHeader.read, h₁, h₂, i32OfBytes_i32Bytes hf, leNat_u32Bytes hn]

theorem FileHeader.read_bounds (b : PageBuf) :
    IsI32 (FileHeader.read b).firstFreePage ∧ (FileHeader.read b).numPages < 2 ^ 32 := by
  refine ⟨i32OfBytes_isI32 (Block.length_read b (by decide)), ?_⟩
  have h := leNat_lt (b.read 4 4)
  rw [Block.length_read b (by decide)] at h
  exact h

/-- The headers that `validate` accepts. -/
def FileHeader.Valid (h : FileHeader) : Prop :=
  freeListEnd ≤ h.firstFreePage ∧
    (h.firstFreePage ≠ freeListEnd → asU32 h.firstFreePage < h.numPages)

theorem FileHeader.validate_eq_ok_iff {h : FileHeader} : h.validate = .ok () ↔ h.Valid := by
  unfold validate Valid
  by_cases h₁ : h.firstFreePage < freeListEnd
  · rw [if_pos h₁]
    refine iff_of_false (by simp [throw, throwThe, MonadExceptOf.throw, bind, Except.bind]) ?_
    omega
  · rw [if_neg h₁]
    by_cases h₂ : h.firstFreePage ≠ freeListEnd ∧ asU32 h.firstFreePage ≥ h.numPages
    · simp only [if_pos h₂]
      refine iff_of_false (by simp [throw, throwThe, MonadExceptOf.throw]) ?_
      rintro ⟨_, hv⟩
      have := hv h₂.1
      omega
    · simp only [if_neg h₂]
      refine iff_of_true rfl ⟨by omega, fun hne => ?_⟩
      by_contra hge
      exact h₂ ⟨hne, by omega⟩

theorem FileHeader.decode_encode {h : FileHeader} (hv : h.Valid) {b : PageBuf}
    (hb : FileHeader.read b = h) :
    FileHeader.decode b = .ok h := by
  simp only [decode, hb, validate_eq_ok_iff.mpr hv]
  rfl

/-! ## The pages of a file -/

/-- The first page of a file, where its header is. -/
def headerAt (c : List UInt8) : PageBuf := Block.ofList _ (slice c 0 fileHeaderSize)

/-- The stored bytes of page `p`. -/
def pageAt (c : List UInt8) (p : Nat) : PageBuf :=
  Block.ofList _ (slice c (fileHeaderSize + p * pageSize) pageSize)

theorem pageOffset_eq {p : Nat} (h : p < 2 ^ 32) :
    pageOffset p = .ok (fileHeaderSize + p * pageSize) := by
  unfold pageOffset
  have h₁ : checked 64 (p * pageSize) = some (p * pageSize) :=
    checked_of_lt (by simp only [pageSize]; omega)
  have h₂ : checked 64 (fileHeaderSize + p * pageSize) = some (fileHeaderSize + p * pageSize) :=
    checked_of_lt (by simp only [fileHeaderSize, pageSize]; omega)
  rw [h₁]
  simp only
  rw [h₂]
  rfl

theorem writeAt_eq {c : List UInt8} {off : Nat} {b : PageBuf} (h : off + pageSize ≤ c.length) :
    writeAt c off b = overwrite c off b.bytes := by
  rw [writeAt, Nat.max_eq_left h, resize_of_length 0 rfl]

theorem length_writeAt {c : List UInt8} {off : Nat} {b : PageBuf} (h : off + pageSize ≤ c.length) :
    (writeAt c off b).length = c.length := by
  rw [writeAt_eq h, length_overwrite]

section Write

variable {c : List UInt8} {p q : Nat} {b : PageBuf}

theorem pageAt_writeAt (hp : fileHeaderSize + p * pageSize + pageSize ≤ c.length) :
    pageAt (writeAt c (fileHeaderSize + p * pageSize) b) q = if q = p then b else pageAt c q := by
  rw [writeAt_eq hp]
  split
  next h =>
    subst h
    ext1
    rw [pageAt, slice_overwrite_block c b hp, Block.ofList_bytes (Block.length_eq b)]
  next h =>
    rw [pageAt, pageAt, slice_overwrite_of_disjoint]
    simp only [Block.length_eq, fileHeaderSize, pageSize] at hp ⊢
    omega

theorem headerAt_writeAt (hp : fileHeaderSize + p * pageSize + pageSize ≤ c.length) :
    headerAt (writeAt c (fileHeaderSize + p * pageSize) b) = headerAt c := by
  rw [writeAt_eq hp, headerAt, headerAt, slice_overwrite_of_disjoint]
  simp only [fileHeaderSize]
  omega

theorem headerAt_writeAt_zero (h : fileHeaderSize ≤ c.length) : headerAt (writeAt c 0 b) = b := by
  rw [writeAt_eq (by simpa using h)]
  ext1
  rw [headerAt, slice_overwrite_block c b (by simpa using h),
    Block.ofList_bytes (Block.length_eq b)]

theorem pageAt_writeAt_zero (h : fileHeaderSize ≤ c.length) :
    pageAt (writeAt c 0 b) q = pageAt c q := by
  rw [writeAt_eq (by simpa using h), pageAt, pageAt, slice_overwrite_of_disjoint]
  simp only [Block.length_eq, fileHeaderSize, pageSize]
  omega

theorem pageAt_resize {n : Nat} (hq : fileHeaderSize + q * pageSize + pageSize ≤ c.length)
    (hn : fileHeaderSize + q * pageSize + pageSize ≤ n) : pageAt (resize c n 0) q = pageAt c q := by
  rw [pageAt, pageAt, slice_resize c 0 hn hq]

theorem headerAt_resize {n : Nat} (hc : fileHeaderSize ≤ c.length) (hn : fileHeaderSize ≤ n) :
    headerAt (resize c n 0) = headerAt c := by
  rw [headerAt, headerAt, slice_resize c 0 (by omega) (by omega)]

end Write

theorem pageAt_bytes {c : List UInt8} {p : Nat}
    (h : fileHeaderSize + p * pageSize + pageSize ≤ c.length) :
    (pageAt c p).bytes = slice c (fileHeaderSize + p * pageSize) pageSize := by
  refine Block.ofList_bytes ?_
  simp only [length_slice, fileHeaderSize, pageSize] at h ⊢
  omega

theorem headerAt_bytes {c : List UInt8} (h : fileHeaderSize ≤ c.length) :
    (headerAt c).bytes = slice c 0 fileHeaderSize := by
  refine Block.ofList_bytes ?_
  simp only [length_slice, fileHeaderSize, pageSize] at h ⊢
  omega

end Redbase.Page
