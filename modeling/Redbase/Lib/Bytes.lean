import Mathlib.Algebra.Order.Ring.Int
import Mathlib.Tactic.Common
import Mathlib.Data.List.Basic

/-!
# Byte buffers

Slices and in-place writes of lists, buffers of a fixed length, and little-endian integers. A write
keeps the length of the buffer; what would fall outside is dropped.
-/

namespace Bytes

variable {α : Type}

/-! ## Slices and writes -/

/-- `l[off..off + n]`. -/
def slice (l : List α) (off n : Nat) : List α := (l.drop off).take n

/-- `l[off..off + d.len()].copy_from_slice(d)`. -/
def overwrite : List α → Nat → List α → List α
  | [], _, _ => []
  | x :: l, 0, [] => x :: l
  | _ :: l, 0, y :: d => y :: overwrite l 0 d
  | x :: l, off + 1, d => x :: overwrite l off d

@[simp] theorem length_overwrite (l : List α) (off : Nat) (d : List α) :
    (overwrite l off d).length = l.length := by
  fun_induction overwrite l off d <;> simp_all

theorem overwrite_nil (l : List α) : overwrite l 0 [] = l := by
  cases l <;> rfl

theorem getElem?_overwrite (l : List α) (off : Nat) (d : List α) (i : Nat) :
    (overwrite l off d)[i]? =
      if off ≤ i ∧ i < off + d.length ∧ i < l.length then d[i - off]? else l[i]? := by
  fun_induction overwrite l off d generalizing i with
  | case1 => simp
  | case2 => simp
  | case3 x l y d ih =>
      cases i with
      | zero => simp
      | succ i => simp [ih]
  | case4 x l off d ih =>
      cases i with
      | zero => simp
      | succ i =>
          simp only [List.getElem?_cons_succ, ih, List.length_cons]
          congr 1
          · simp only [eq_iff_iff]; omega
          · rw [show i + 1 - (off + 1) = i - off by omega]

theorem getElem?_slice (l : List α) (off n i : Nat) :
    (slice l off n)[i]? = if i < n then l[off + i]? else none := by
  simp only [slice, List.getElem?_take, List.getElem?_drop]

@[simp] theorem length_slice (l : List α) (off n : Nat) :
    (slice l off n).length = min n (l.length - off) := by
  simp [slice]

theorem slice_slice (l : List α) {off n a m : Nat} (h : a + m ≤ n) :
    slice (slice l off n) a m = slice l (off + a) m := by
  apply List.ext_getElem?
  intro i
  simp only [getElem?_slice]
  split
  · rw [if_pos (by omega), Nat.add_assoc]
  · rfl

theorem slice_append_left {a : List α} {n : Nat} (h : a.length = n) (b : List α) :
    slice (a ++ b) 0 n = a := by
  simp [slice, ← h]

theorem slice_append_right {a : List α} {off k : Nat} (h : off = a.length + k) (b : List α)
    (n : Nat) :
    slice (a ++ b) off n = slice b k n := by
  rw [slice, h, List.drop_append, List.drop_eq_nil_of_le (Nat.le_add_right _ _),
    Nat.add_sub_cancel_left, List.nil_append, slice]

theorem slice_full {a : List α} {n : Nat} (h : a.length = n) : slice a 0 n = a := by
  simp [slice, ← h]

/-- A slice reads back what was written over exactly that range. -/
theorem slice_overwrite_self {l : List α} {off : Nat} {d : List α} (h : off + d.length ≤ l.length) :
    slice (overwrite l off d) off d.length = d := by
  apply List.ext_getElem?
  intro i
  rw [getElem?_slice, getElem?_overwrite]
  split
  · rw [if_pos (by omega), Nat.add_sub_cancel_left]
  · rw [List.getElem?_eq_none (by omega)]

/-- A write leaves every range apart from its own unchanged. -/
theorem slice_overwrite_of_disjoint (l : List α) {off n off' : Nat} (d : List α)
    (h : off + n ≤ off' ∨ off' + d.length ≤ off) :
    slice (overwrite l off' d) off n = slice l off n := by
  apply List.ext_getElem?
  intro i
  rw [getElem?_slice, getElem?_slice, getElem?_overwrite]
  split
  · rw [if_neg (by omega)]
  · rfl

theorem overwrite_zero_full {l d : List α} (h : d.length = l.length) : overwrite l 0 d = d := by
  apply List.ext_getElem?
  intro i
  rw [getElem?_overwrite]
  split
  · rw [Nat.sub_zero]
  · rw [List.getElem?_eq_none (by omega), List.getElem?_eq_none (by omega)]

/-- The list cut or extended to `n` elements, as a file is by `set_len`. -/
def resize (l : List α) (n : Nat) (x : α) : List α := l.take n ++ List.replicate (n - l.length) x

@[simp] theorem length_resize (l : List α) (n : Nat) (x : α) : (resize l n x).length = n := by
  simp [resize]; omega

theorem slice_resize (l : List α) {n off m : Nat} (x : α) (h : off + m ≤ n)
    (hl : off + m ≤ l.length) :
    slice (resize l n x) off m = slice l off m := by
  apply List.ext_getElem?
  intro i
  simp only [getElem?_slice, resize]
  split
  · rw [List.getElem?_append_left (by simp; omega), List.getElem?_take, if_pos (by omega)]
  · rfl

theorem resize_of_length {l : List α} {n : Nat} (x : α) (h : l.length = n) : resize l n x = l := by
  simp [resize, ← h]

/-! ## Buffers of a fixed length -/

/-- `[u8; n]`. -/
structure Block (n : Nat) where
  bytes : List UInt8
  length_eq : bytes.length = n
  deriving DecidableEq

attribute [simp] Block.length_eq

namespace Block

variable {n m : Nat}

@[ext] theorem ext {b c : Block n} (h : b.bytes = c.bytes) : b = c := by
  cases b; cases c; cases h; rfl

/-- `[0_u8; n]`. -/
def zero (n : Nat) : Block n := ⟨List.replicate n 0, List.length_replicate⟩

/-- `b[off..off + d.len()].copy_from_slice(d)`. -/
def write (b : Block n) (off : Nat) (d : List UInt8) : Block n :=
  ⟨overwrite b.bytes off d, by simp⟩

/-- `b[off..off + len]`. -/
def read (b : Block n) (off len : Nat) : List UInt8 := slice b.bytes off len

/-- `b[off..off + m]` as an array. -/
def sub (b : Block n) (off m : Nat) (h : off + m ≤ n) : Block m :=
  ⟨slice b.bytes off m, by simp; omega⟩

/-- The first `n` bytes of a list, padded with zeros when the list is shorter. -/
def ofList (n : Nat) (l : List UInt8) : Block n :=
  ⟨l.take n ++ List.replicate (n - l.length) 0, by simp; omega⟩

theorem ofList_bytes {l : List UInt8} (h : l.length = n) : (ofList n l).bytes = l := by
  simp [ofList, h, List.take_of_length_le]

@[simp] theorem bytes_write (b : Block n) (off : Nat) (d : List UInt8) :
    (b.write off d).bytes = overwrite b.bytes off d := rfl

@[simp] theorem bytes_sub (b : Block n) (off m : Nat) (h : off + m ≤ n) :
    (b.sub off m h).bytes = slice b.bytes off m := rfl

theorem length_read (b : Block n) {off len : Nat} (h : off + len ≤ n) :
    (b.read off len).length = len := by
  simp [read]; omega

theorem read_write_self (b : Block n) {off : Nat} {d : List UInt8} (h : off + d.length ≤ n) :
    (b.write off d).read off d.length = d :=
  slice_overwrite_self (by simpa using h)

theorem read_write_of_disjoint (b : Block n) {off len off' : Nat} {d : List UInt8}
    (h : off + len ≤ off' ∨ off' + d.length ≤ off) :
    (b.write off' d).read off len = b.read off len :=
  slice_overwrite_of_disjoint _ _ h

/-- A part of what was written. -/
theorem read_write_part (b : Block n) {off len : Nat} {d : List UInt8} (hd : d.length ≤ n)
    (h : off + len ≤ d.length) :
    (b.write 0 d).read off len = slice d off len := by
  have hfit : 0 + d.length ≤ n := by omega
  have hr : slice (overwrite b.bytes 0 d) 0 d.length = d := b.read_write_self hfit
  have hs : slice (slice (overwrite b.bytes 0 d) 0 d.length) off len = slice (overwrite b.bytes 0 d)
      (0 + off) len :=
    slice_slice _ h
  rw [hr, Nat.zero_add] at hs
  exact hs.symm

@[simp] theorem read_zero (off len : Nat) :
    (zero n).read off len = List.replicate (min len (n - off)) 0 := by
  simp [read, zero, slice]

end Block

/-- A block copied into a list is read back whole. -/
theorem slice_overwrite_block {n : Nat} (l : List UInt8) {off : Nat} (b : Block n)
    (h : off + n ≤ l.length) : slice (overwrite l off b.bytes) off n = b.bytes := by
  have hs : slice (overwrite l off b.bytes) off b.bytes.length = b.bytes :=
    slice_overwrite_self (by simpa using h)
  rwa [b.length_eq] at hs

/-! ## Little-endian integers -/

/-- The `k` low-order bytes of `n`, least significant first. -/
def leBytes : Nat → Nat → List UInt8
  | 0, _ => []
  | k + 1, n => UInt8.ofNat n :: leBytes k (n / 256)

/-- The number whose little-endian bytes these are. -/
def leNat : List UInt8 → Nat
  | [] => 0
  | b :: bs => b.toNat + 256 * leNat bs

@[simp] theorem length_leBytes (k n : Nat) : (leBytes k n).length = k := by
  induction k generalizing n with
  | zero => rfl
  | succ k ih => simp [leBytes, ih]

theorem leNat_lt (bs : List UInt8) : leNat bs < 256 ^ bs.length := by
  induction bs with
  | nil => simp [leNat]
  | cons b bs ih =>
      have hb := b.toNat_lt
      simp only [leNat, List.length_cons]
      omega

theorem leNat_leBytes {k n : Nat} (h : n < 256 ^ k) : leNat (leBytes k n) = n := by
  induction k generalizing n with
  | zero => simp at h; simp [leBytes, leNat, h]
  | succ k ih =>
      have hd : n / 256 < 256 ^ k := by rw [Nat.pow_succ] at h; omega
      simp only [leBytes, leNat, ih hd, UInt8.toNat_ofNat']
      omega

/-- The result of a `checked_add` or `checked_mul` on unsigned integers of `bits` bits. -/
def checked (bits n : Nat) : Option Nat := if n < 2 ^ bits then some n else none

theorem checked_eq_some {bits n m : Nat} (h : checked bits n = some m) : n = m := by
  unfold checked at h
  split at h
  next => exact Option.some.inj h
  next => cases h

theorem checked_lt {bits n m : Nat} (h : checked bits n = some m) : n < 2 ^ bits := by
  unfold checked at h
  split at h
  next hlt => exact hlt
  next => cases h

theorem checked_of_lt {bits n : Nat} (h : n < 2 ^ bits) : checked bits n = some n := if_pos h

/-- `n as i32` for a `u32`. -/
def asI32 (n : Nat) : Int := if n < 2 ^ 31 then n else (n : Int) - 2 ^ 32

/-- `i as u32` for an `i32`. -/
def asU32 (i : Int) : Nat := (i % 2 ^ 32).toNat

/-- The values of an `i32`. -/
def IsI32 (i : Int) : Prop := -2 ^ 31 ≤ i ∧ i < 2 ^ 31

instance (i : Int) : Decidable (IsI32 i) := inferInstanceAs (Decidable (_ ∧ _))

theorem asU32_lt (i : Int) : asU32 i < 2 ^ 32 := by
  unfold asU32; omega

theorem asU32_asI32 {n : Nat} (h : n < 2 ^ 32) : asU32 (asI32 n) = n := by
  unfold asU32 asI32; split <;> omega

theorem asI32_asU32 {i : Int} (h : IsI32 i) : asI32 (asU32 i) = i := by
  obtain ⟨h₁, h₂⟩ := h
  unfold asU32 asI32; split <;> omega

theorem isI32_asI32 {n : Nat} (h : n < 2 ^ 32) : IsI32 (asI32 n) := by
  unfold IsI32 asI32; split <;> omega

theorem asI32_of_lt {n : Nat} (h : n < 2 ^ 31) : asI32 n = n := if_pos h

theorem asI32_inj {m n : Nat} (hm : m < 2 ^ 32) (hn : n < 2 ^ 32) (h : asI32 m = asI32 n) :
    m = n := by
  unfold asI32 at h; split at h <;> split at h <;> omega

/-- `n.to_le_bytes()` of a `u32`. -/
def u32Bytes (n : Nat) : List UInt8 := leBytes 4 n

/-- `i.to_le_bytes()` of an `i32`. -/
def i32Bytes (i : Int) : List UInt8 := leBytes 4 (asU32 i)

/-- `i32::from_le_bytes`. -/
def i32OfBytes (bs : List UInt8) : Int := asI32 (leNat bs)

@[simp] theorem length_u32Bytes (n : Nat) : (u32Bytes n).length = 4 := length_leBytes 4 n

@[simp] theorem length_i32Bytes (i : Int) : (i32Bytes i).length = 4 := length_leBytes 4 _

theorem leNat_u32Bytes {n : Nat} (h : n < 2 ^ 32) : leNat (u32Bytes n) = n :=
  leNat_leBytes (by simpa using h)

theorem i32OfBytes_i32Bytes {i : Int} (h : IsI32 i) : i32OfBytes (i32Bytes i) = i := by
  rw [i32OfBytes, i32Bytes, leNat_leBytes (by simpa using asU32_lt i), asI32_asU32 h]

theorem i32OfBytes_isI32 {bs : List UInt8} (h : bs.length = 4) : IsI32 (i32OfBytes bs) := by
  have := leNat_lt bs
  rw [h] at this
  exact isI32_asI32 (by simpa using this)

end Bytes
