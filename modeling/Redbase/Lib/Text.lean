import Redbase.Lib.Bytes
import Mathlib.Data.List.DropRight
import Mathlib.Data.List.Induction

/-!
# Text in buffers of a fixed length

A text is stored as its UTF-8 bytes, padded with zeros; what is read back is cut after the last byte
that is not zero. The order of texts is that of their bytes, and padding keeps it.
-/

namespace Text

open Bytes

variable {x y : List UInt8} {s : String} {n : Nat}

/-- `s.as_bytes()`. -/
def utf8 (s : String) : List UInt8 := s.toByteArray.data.toList

/-- `String::from_utf8(bytes)`. -/
def fromUtf8 (bytes : List UInt8) : Option String := String.fromUTF8? bytes.toByteArray

theorem toByteArray_utf8 (s : String) : (utf8 s).toByteArray = s.toByteArray := by
  apply ByteArray.ext
  rw [utf8, List.data_toByteArray, Array.toArray_toList]

@[simp] theorem fromUtf8_utf8 (s : String) : fromUtf8 (utf8 s) = some s := by
  rw [fromUtf8, toByteArray_utf8, String.fromUTF8?, dif_pos s.isValidUTF8]
  rfl

theorem utf8_ofList (l : List Char) : utf8 (String.ofList l) = l.flatMap String.utf8EncodeChar := by
  rw [utf8, String.toByteArray_ofList, List.utf8Encode, List.toList_data_toByteArray]

/-- `s.cmp(t)` of two `str`: the order of their bytes. -/
def compareText (s t : String) : Ordering := compare (utf8 s) (utf8 t)

theorem utf8_inj {s t : String} (h : utf8 s = utf8 t) : s = t :=
  Option.some.inj (by rw [← fromUtf8_utf8, h, fromUtf8_utf8])

instance : Std.TransCmp compareText where
  eq_swap := Std.OrientedOrd.eq_swap
  isLE_trans h₁ h₂ := Std.TransOrd.isLE_trans h₁ h₂

instance : Std.LawfulEqCmp compareText where
  compare_self := Std.ReflOrd.compare_self
  eq_of_compare h := utf8_inj (Std.LawfulEqOrd.eq_of_compare h)

/-! ## Padding -/

/-- The bytes up to the last one that is not zero. -/
def trimZeros (bytes : List UInt8) : List UInt8 := bytes.rdropWhile (· == 0)

/-- `bytes` at the start of a buffer of `n` zeros. -/
def pad (n : Nat) (bytes : List UInt8) : List UInt8 := bytes ++ List.replicate (n - bytes.length) 0

theorem length_pad (h : x.length ≤ n) : (pad n x).length = n := by
  simp [pad, h]

theorem getElem?_pad (h : x.length ≤ n) (i : Nat) :
    (pad n x)[i]? = if i < x.length then x[i]? else if i < n then some 0 else none := by
  rw [pad, List.getElem?_append, List.getElem?_replicate]
  split
  · rfl
  · exact if_congr (by omega) rfl rfl

/-- Zeros, and then the bytes over them. -/
theorem overwrite_zeros_overwrite {l : List UInt8} {off : Nat} (h : x.length ≤ n) :
    overwrite (overwrite l off (List.replicate n 0)) off x = overwrite l off (pad n x) := by
  apply List.ext_getElem?
  intro i
  simp only [getElem?_overwrite, length_overwrite, List.length_replicate, length_pad h,
    getElem?_pad h, List.getElem?_replicate]
  grind

theorem overwrite_zeros (h : x.length ≤ n) : overwrite (List.replicate n 0) 0 x = pad n x := by
  apply List.ext_getElem?
  intro i
  simp only [getElem?_overwrite, List.length_replicate, getElem?_pad h, List.getElem?_replicate]
  grind

theorem trimZeros_append_zeros (x : List UInt8) (k : Nat) :
    trimZeros (x ++ List.replicate k 0) = trimZeros x := by
  induction k with
  | zero => simp
  | succ k ih =>
      rw [List.replicate_succ', ← List.append_assoc, trimZeros,
        List.rdropWhile_concat_pos _ _ _ rfl]
      exact ih

@[simp] theorem trimZeros_pad (n : Nat) (x : List UInt8) : trimZeros (pad n x) = trimZeros x :=
  trimZeros_append_zeros x _

theorem length_trimZeros_le (x : List UInt8) : (trimZeros x).length ≤ x.length :=
  (List.rdropWhile_prefix _ x).length_le

/-- Padding puts back what trimming took. -/
theorem pad_trimZeros (h : x.length ≤ n) : pad n (trimZeros x) = pad n x := by
  induction x using List.reverseRecOn with
  | nil => rfl
  | append_singleton x b ih =>
      rw [List.length_append, List.length_singleton] at h
      unfold trimZeros
      rw [List.rdropWhile_concat]
      split
      next hb =>
        have hzero : b = 0 := by simpa using hb
        subst hzero
        have hn : n - x.length = n - (x.length + 1) + 1 := by omega
        refine (ih (by omega)).trans ?_
        rw [pad, pad, hn, List.replicate_succ, List.length_append, List.append_assoc]
        rfl
      next => rfl

theorem trimZeros_cons (b : UInt8) (x : List UInt8) :
    trimZeros (b :: x) = if trimZeros x = [] ∧ b = 0 then [] else b :: trimZeros x := by
  induction x using List.reverseRecOn with
  | nil => simp [trimZeros, List.rdropWhile_singleton]
  | append_singleton x c ih =>
      unfold trimZeros at ih ⊢
      rw [← List.cons_append, List.rdropWhile_concat, List.rdropWhile_concat]
      by_cases hc : (c == 0) = true
      · rw [if_pos hc, if_pos hc, ih]
      · rw [if_neg hc, if_neg hc, if_neg (by simp)]
        rfl

theorem compare_zero_left {b : UInt8} (h : b ≠ 0) : compare 0 b = .lt :=
  compareOfLessAndEq_eq_lt.mpr (UInt8.pos_iff_ne_zero.mpr h)

theorem compare_zero_right {b : UInt8} (h : b ≠ 0) : compare b 0 = .gt := by
  rw [← Ordering.swap_inj, ← Std.OrientedOrd.eq_swap, compare_zero_left h]
  rfl

/-- A buffer that is not all zeros comes after the zeros. -/
theorem compare_trimZeros_cons (b c : UInt8) (h : b ≠ c) :
    compare (trimZeros (b :: x)) (trimZeros (c :: y)) = compare b c := by
  rw [trimZeros_cons, trimZeros_cons]
  split
  next hb =>
    obtain ⟨-, rfl⟩ := hb
    rw [if_neg fun hc => h hc.2.symm, compare_zero_left h.symm]
    rfl
  next hb =>
    split
    next hc =>
      obtain ⟨-, rfl⟩ := hc
      rw [compare_zero_right h]
      rfl
    next hc =>
      have hne : compare b c ≠ .eq := fun he => h (Std.LawfulEqOrd.eq_of_compare he)
      rw [List.compare_cons_cons]
      cases he : compare b c with
      | eq => exact absurd he hne
      | lt => rfl
      | gt => rfl

/-- Buffers of one length compare as what is left of them without the zeros at the end. -/
theorem compare_trimZeros (h : x.length = y.length) :
    compare (trimZeros x) (trimZeros y) = compare x y := by
  induction x generalizing y with
  | nil =>
      cases y with
      | nil => rfl
      | cons c y => cases h
  | cons b x ih =>
      cases y with
      | nil => cases h
      | cons c y =>
          have ih := ih (Nat.succ.inj h)
          rw [List.compare_cons_cons]
          rcases eq_or_ne b c with rfl | hne
          · rw [Std.ReflOrd.compare_self, Ordering.eq_then, ← ih, trimZeros_cons, trimZeros_cons]
            by_cases hb : b = 0
            · cases trimZeros x <;> cases trimZeros y <;> simp [hb]
            · simp [hb]
          · have hcmp : compare b c ≠ .eq := fun he => hne (Std.LawfulEqOrd.eq_of_compare he)
            rw [compare_trimZeros_cons b c hne]
            cases he : compare b c with
            | eq => exact absurd he hcmp
            | lt => rfl
            | gt => rfl

/-- Padding to one length keeps the order of what has no zero at its end. -/
theorem compare_pad (hx : x.length ≤ n) (hy : y.length ≤ n) :
    compare (pad n x) (pad n y) = compare (trimZeros x) (trimZeros y) := by
  rw [← compare_trimZeros ((length_pad hx).trans (length_pad hy).symm), trimZeros_pad,
    trimZeros_pad]

/-! ## Strings without NULs at the end -/

/-- The string without its trailing NULs. -/
def trimNul (s : String) : String := String.ofList (s.toList.rdropWhile (· == '\x00'))

theorem trimNul_eq_self {s : String} : trimNul s = s ↔ s.toList.getLast? ≠ some '\x00' := by
  have hs : trimNul s = s ↔ s.toList.rdropWhile (· == '\x00') = s.toList := by
    constructor
    · intro h
      rw [← @String.toList_ofList (s.toList.rdropWhile (· == '\x00'))]
      exact congrArg String.toList h
    · intro h
      rw [trimNul, h, String.ofList_toList]
  rw [hs, List.rdropWhile_eq_self_iff]
  cases hl : s.toList.getLast? with
  | none =>
      rw [List.getLast?_eq_none_iff] at hl
      simp [hl]
  | some c =>
      obtain ⟨hne, hc⟩ := List.mem_getLast?_eq_getLast hl
      simp [hne, ← hc]

theorem ofNat_ne_zero {k : Nat} (h : k < 256) (h0 : k ≠ 0) : UInt8.ofNat k ≠ 0 := by
  intro he
  have := congrArg UInt8.toNat he
  simp only [UInt8.toNat_ofNat', UInt8.toNat_zero] at this
  omega

/-- The last byte of a character that is not NUL is not zero. -/
theorem utf8EncodeChar_eq_concat {c : Char} (h : c ≠ '\x00') :
    ∃ bytes b, String.utf8EncodeChar c = bytes ++ [b] ∧ b ≠ 0 := by
  have hv : c.val.toNat ≠ 0 := fun h0 => h (Char.ext (UInt32.toNat_inj.mp h0))
  -- a continuation byte has its top bit set
  have hlast : UInt8.ofNat (c.val.toNat % 64 + 128) ≠ 0 := ofNat_ne_zero (by omega) (by omega)
  unfold String.utf8EncodeChar
  simp only []
  split
  next hc => exact ⟨[], _, rfl, ofNat_ne_zero (by omega) hv⟩
  split
  next => exact ⟨[_], _, rfl, hlast⟩
  split
  next => exact ⟨[_, _], _, rfl, hlast⟩
  next => exact ⟨[_, _, _], _, rfl, hlast⟩

theorem utf8_trimNul (s : String) : utf8 (trimNul s) = trimZeros (utf8 s) := by
  obtain ⟨l, rfl⟩ := s.exists_eq_ofList
  rw [trimNul, String.toList_ofList, utf8_ofList, utf8_ofList]
  induction l using List.reverseRecOn with
  | nil => rfl
  | append_singleton l c ih =>
      rw [List.rdropWhile_concat, List.flatMap_append, List.flatMap_singleton]
      split
      next hc =>
        obtain rfl := eq_of_beq hc
        rw [ih]
        exact (trimZeros_append_zeros _ 1).symm
      next hc =>
        obtain ⟨bytes, b, he, hb⟩ := utf8EncodeChar_eq_concat fun h => hc (beq_iff_eq.mpr h)
        rw [List.flatMap_append, List.flatMap_singleton, he, ← List.append_assoc, trimZeros,
          List.rdropWhile_concat_neg _ _ _ (by simpa using hb)]

/-- What is read back from a padded buffer. -/
theorem fromUtf8_trimZeros_pad (n : Nat) (s : String) :
    fromUtf8 (trimZeros (pad n (utf8 s))) = some (trimNul s) := by
  rw [trimZeros_pad, ← utf8_trimNul, fromUtf8_utf8]

end Text
