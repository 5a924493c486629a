import Redbase.Lib.Lines

/-!
# Numbers in text

Decimal numbers as `to_string` writes them and `parse` reads them, for the integers of a fixed
width.
-/

namespace Text

open Bytes

variable {n : Nat}

/-- The value of a sequence of digits, which must not be empty. -/
def parseDigits (digits : List Char) : Option Nat :=
  if digits ≠ [] ∧ digits.all Char.isDigit then some (Nat.ofDigitChars 10 digits 0) else none

/-- `s.parse` as an unsigned integer of `width` bits. -/
def parseUnsigned (width : Nat) (s : String) : Option Nat :=
  (parseDigits (if s.toList.head? = some '+' then s.toList.tail else s.toList)).bind (checked width)

/-- `s.parse::<i32>()`. -/
def parseInt32 (s : String) : Option Int32 :=
  match s.toList with
  | '-' :: digits =>
      (parseDigits digits).bind fun n => if n ≤ 2 ^ 31 then some (Int32.ofInt (-n)) else none
  | '+' :: digits =>
      (parseDigits digits).bind fun n => if n < 2 ^ 31 then some (Int32.ofInt n) else none
  | digits => (parseDigits digits).bind fun n => if n < 2 ^ 31 then some (Int32.ofInt n) else none

/-! ## Reading what was written -/

theorem parseDigits_toDigits (n : Nat) : parseDigits (Nat.toDigits 10 n) = some n := by
  rw [parseDigits, if_pos, Nat.ofDigitChars_ten_toDigits]
  refine ⟨Nat.toDigits_ne_nil, List.all_eq_true.mpr fun c hc => ?_⟩
  exact Nat.isDigit_of_mem_toDigits (by decide) (by decide) hc

theorem head_toDigits (n : Nat) : ∃ c rest, Nat.toDigits 10 n = c :: rest ∧ c.isDigit = true := by
  cases hd : Nat.toDigits 10 n with
  | nil => exact absurd hd Nat.toDigits_ne_nil
  | cons c rest =>
      exact ⟨c, rest, rfl, Nat.isDigit_of_mem_toDigits (b := 10) (n := n) (by decide) (by decide)
        (hd ▸ List.mem_cons_self)⟩

theorem toList_toString (n : Nat) : (toString n).toList = Nat.toDigits 10 n := by
  rw [Nat.toString_eq_repr, Nat.toList_repr]

theorem parseUnsigned_toString {width : Nat} (h : n < 2 ^ width) :
    parseUnsigned width (toString n) = some n := by
  obtain ⟨c, rest, hd, hc⟩ := head_toDigits n
  have hplus : c ≠ '+' := by
    rintro rfl
    cases hc
  rw [parseUnsigned, toList_toString, if_neg, parseDigits_toDigits, Option.bind_some,
    checked_of_lt h]
  rw [hd]
  simpa using hplus

theorem toList_toString_int (n : Int) :
    (toString n).toList = if 0 ≤ n then Nat.toDigits 10 n.toNat
    else '-' :: Nat.toDigits 10 (-n).toNat := by
  rw [Int.toString_eq_repr, Int.repr_eq_if]
  split
  · rw [Nat.toList_repr]
  · rw [String.toList_append, Nat.toList_repr]
    rfl

theorem parseInt32_toString (n : Int32) : parseInt32 (toString n.toInt) = some n := by
  have hlow := n.le_toInt
  have hhigh := n.toInt_lt
  rw [parseInt32, toList_toString_int]
  rcases Int.lt_or_le n.toInt 0 with hneg | hpos
  · rw [if_neg (Int.not_le.mpr hneg)]
    simp only [parseDigits_toDigits, Option.bind_some]
    rw [if_pos (by omega), Int.toNat_of_nonneg (by omega), Int.neg_neg, Int32.ofInt_toInt]
  · rw [if_pos hpos]
    obtain ⟨c, rest, hd, hc⟩ := head_toDigits n.toInt.toNat
    have hminus : c ≠ '-' := by
      rintro rfl
      cases hc
    have hplus : c ≠ '+' := by
      rintro rfl
      cases hc
    have hparse := parseDigits_toDigits n.toInt.toNat
    rw [hd] at hparse ⊢
    split
    next heq => exact absurd (List.cons.inj heq).1 hminus
    next heq => exact absurd (List.cons.inj heq).1 hplus
    next =>
      rw [hparse, Option.bind_some, if_pos (by omega), Int.toNat_of_nonneg hpos, Int32.ofInt_toInt]

theorem isField_of_digits {s : String} (h : ∀ c ∈ s.toList, c = '-' ∨ c.isDigit = true) :
    IsField s := by
  intro c hc
  refine ⟨?_, ?_, ?_⟩ <;> rintro rfl <;> rcases h _ hc with h | h <;> cases h

theorem isField_toString (n : Nat) : IsField (toString n) := by
  refine isField_of_digits fun c hc => Or.inr ?_
  rw [toList_toString] at hc
  exact Nat.isDigit_of_mem_toDigits (by decide) (by decide) hc

theorem isField_toString_int (n : Int) : IsField (toString n) := by
  refine isField_of_digits fun c hc => ?_
  rw [toList_toString_int] at hc
  split at hc
  · exact Or.inr (Nat.isDigit_of_mem_toDigits (by decide) (by decide) hc)
  · rcases List.mem_cons.mp hc with rfl | hc
    · exact Or.inl rfl
    · exact Or.inr (Nat.isDigit_of_mem_toDigits (by decide) (by decide) hc)

end Text
