import Mathlib.Data.List.Nodup
import Mathlib.Algebra.Order.Ring.Int
import Mathlib.Tactic.Common

/-!
# Bitmaps

A list of bytes as a bitmap, least significant bit first: reading a bit, changing one, counting the
set ones and finding the first.
-/

namespace Bitmap

/-- The mask of bit `i` in its byte. -/
def bit (i : Nat) : UInt8 := 1 <<< UInt8.ofNat (i % 8)

def isSet (bs : List UInt8) (i : Nat) : Bool := bs.getD (i / 8) 0 &&& bit i != 0

def put (bs : List UInt8) (i : Nat) (v : Bool) : List UInt8 :=
  bs.modify (i / 8) fun b => if v then b ||| bit i else b &&& ~~~(bit i)

/-- The number of set bits among the first `n`. -/
def count (bs : List UInt8) (n : Nat) : Nat := (List.range n).countP (isSet bs)

/-- The first set bit among the first `n`. -/
def first (bs : List UInt8) (n : Nat) : Option Nat := (List.range n).find? (isSet bs)

@[simp] theorem length_put (bs : List UInt8) (i : Nat) (v : Bool) :
    (put bs i v).length = bs.length :=
  List.length_modify _ _ _

theorem and_bit (b : UInt8) (i : Nat) : (b &&& bit i != 0) = b.toNat.testBit (i % 8) := by
  have hall : ∀ n < 256, ∀ k < 8, (UInt8.ofNat n &&& (1 <<< UInt8.ofNat k) != 0) = n.testBit k := by
    decide +kernel
  have h := hall b.toNat b.toNat_lt (i % 8) (Nat.mod_lt _ (by decide))
  rwa [UInt8.ofNat_toNat] at h

theorem testBit_bit (i k : Nat) (hk : k < 8) : (bit i).toNat.testBit k = decide (k = i % 8) := by
  have hall : ∀ j < 8, ∀ k < 8, (1 <<< UInt8.ofNat j : UInt8).toNat.testBit k = decide (k = j) := by
    decide
  exact hall (i % 8) (Nat.mod_lt _ (by decide)) k hk

theorem isSet_eq (bs : List UInt8) (i : Nat) :
    isSet bs i = (bs.getD (i / 8) 0).toNat.testBit (i % 8) :=
  and_bit _ i

theorem testBit_not (b : UInt8) {k : Nat} (hk : k < 8) :
    (~~~b).toNat.testBit k = !b.toNat.testBit k := by
  have hall : ∀ n < 256, ∀ k < 8, (~~~(UInt8.ofNat n)).toNat.testBit k = !n.testBit k := by
    decide +kernel
  have h := hall b.toNat b.toNat_lt k hk
  rwa [UInt8.ofNat_toNat] at h

/-- Changing a bit changes no other. -/
theorem isSet_put {bs : List UInt8} {i : Nat} (v : Bool) (h : i / 8 < bs.length) (j : Nat) :
    isSet (put bs i v) j = if j = i then v else isSet bs j := by
  rw [isSet_eq, isSet_eq]
  have hj : j % 8 < 8 := Nat.mod_lt _ (by decide)
  have hget : (put bs i v).getD (j / 8) 0 = if i / 8 = j / 8 then
      (if v then bs.getD (i / 8) 0 ||| bit i else bs.getD (i / 8) 0 &&& ~~~(bit i))
      else bs.getD (j / 8) 0 := by
    simp only [put, List.getD_eq_getElem?_getD, List.getElem?_modify]
    split
    next he =>
      rw [← he, List.getElem?_eq_getElem h]
      simp
    next => simp
  rw [hget]
  by_cases hd : i / 8 = j / 8
  · rw [if_pos hd, ← hd]
    cases v with
    | true =>
        simp only [if_true, UInt8.toNat_or, Nat.testBit_or, testBit_bit i _ hj]
        by_cases he : j = i
        · simp [he]
        · have hne : j % 8 ≠ i % 8 := by omega
          simp [he, hne]
    | false =>
        simp only [Bool.false_eq_true, if_false, UInt8.toNat_and, Nat.testBit_and, testBit_not _ hj,
          testBit_bit i _ hj]
        by_cases he : j = i
        · simp [he]
        · have hne : j % 8 ≠ i % 8 := by omega
          simp [he, hne]
  · have he : j ≠ i := by
      rintro rfl
      exact hd rfl
    rw [if_neg hd, if_neg he]

theorem isSet_ones {m i : Nat} (h : i < 8 * m) : isSet (List.replicate m 255) i = true := by
  have hall : ∀ k < 8, (255 : UInt8).toNat.testBit k = true := by decide
  have hget : (List.replicate m 255).getD (i / 8) 0 = (255 : UInt8) := by
    rw [List.getD_eq_getElem?_getD, List.getElem?_replicate, if_pos (by omega)]
    rfl
  rw [isSet_eq, hget]
  exact hall _ (Nat.mod_lt _ (by decide))

/-! ## Counting -/

/-- Two predicates that differ at one element of a list without repetition. -/
theorem countP_flip {α : Type} [DecidableEq α] {l : List α} (hn : l.Nodup) {p q : α → Bool} {a : α}
    (ha : a ∈ l) (hp : p a = true) (hq : q a = false) (he : ∀ b ∈ l, b ≠ a → p b = q b) :
    l.countP p = l.countP q + 1 := by
  induction l with
  | nil => simp at ha
  | cons b l ih =>
      obtain ⟨hb, hn⟩ := List.nodup_cons.mp hn
      rcases eq_or_ne b a with rfl | hne
      · have hrest : l.countP p = l.countP q := by
          refine List.countP_congr fun c hc => ?_
          rw [he c (by simp [hc]) (by rintro rfl; exact hb hc)]
        rw [List.countP_cons, List.countP_cons, hrest, hp, hq]
        rfl
      · have ha' : a ∈ l := by simpa [hne.symm] using ha
        rw [List.countP_cons, List.countP_cons, ih hn ha' fun c hc => he c (by simp [hc]),
          he b (by simp) hne]
        omega

theorem count_put_false {bs : List UInt8} {i n : Nat} (hi : i < n) (hb : i / 8 < bs.length)
    (hs : isSet bs i = true) : count bs n = count (put bs i false) n + 1 := by
  refine countP_flip List.nodup_range (List.mem_range.mpr hi) hs ?_ fun j _ hj => ?_
  · rw [isSet_put false hb, if_pos rfl]
  · rw [isSet_put false hb, if_neg hj]

theorem count_put_true {bs : List UInt8} {i n : Nat} (hi : i < n) (hb : i / 8 < bs.length)
    (hs : isSet bs i = false) : count (put bs i true) n = count bs n + 1 := by
  refine countP_flip List.nodup_range (List.mem_range.mpr hi) ?_ hs fun j _ hj => ?_
  · rw [isSet_put true hb, if_pos rfl]
  · rw [isSet_put true hb, if_neg hj]

theorem count_le (bs : List UInt8) (n : Nat) : count bs n ≤ n := by
  have h := List.countP_le_length (p := isSet bs) (l := List.range n)
  rwa [List.length_range] at h

theorem count_pos_iff {bs : List UInt8} {n : Nat} :
    0 < count bs n ↔ ∃ i < n, isSet bs i = true := by
  simp [count, List.countP_pos_iff]

theorem count_ones {m n : Nat} (h : n ≤ 8 * m) : count (List.replicate m 255) n = n := by
  rw [count, List.countP_eq_length.mpr fun i hi => isSet_ones (by rw [List.mem_range] at hi; omega),
    List.length_range]

theorem first_eq_some {bs : List UInt8} {n i : Nat} (h : first bs n = some i) :
    i < n ∧ isSet bs i = true :=
  ⟨List.mem_range.mp (List.mem_of_find?_eq_some h), List.find?_some h⟩

theorem first_eq_none {bs : List UInt8} {n : Nat} : first bs n = none ↔ count bs n = 0 := by
  simp [first, count, List.countP_eq_zero]

end Bitmap
