import Mathlib.Data.Finset.Card
import Mathlib.Data.List.Forall2
import Redbase.Lib.Recency

/-!
# The elements that were used last

A cache with `n` places that drops what was used longest ago holds the `n` elements that were used
last. An element is one of them if fewer than `n` others were used since.
-/

namespace Recency

variable {ι κ : Type} [DecidableEq ι] [DecidableEq κ] {log l : List ι} {a b : ι} {n : Nat}

/-- The elements of the log, each of them once, in the order of their last uses. -/
def lastUsed : List ι → List ι
  | [] => []
  | a :: log => a :: (lastUsed log).erase a

/-- The cache after a use of `a`. -/
def use (n : Nat) (l : List ι) (a : ι) : List ι := (a :: l.erase a).take n

/-! ## Uses -/

theorem use_of_mem (ha : a ∈ l) (hn : l.length ≤ n) : use n l a = a :: l.erase a := by
  apply List.take_of_length_le
  have hpos := List.length_pos_of_mem ha
  rw [List.length_cons, List.length_erase_of_mem ha]
  omega

theorem use_of_room (ha : a ∉ l) (hn : l.length < n) : use n l a = a :: l := by
  rw [use, List.erase_of_not_mem ha]
  exact List.take_of_length_le hn

/-- The last element makes room. -/
theorem use_of_full (ha : a ∉ l) (hn : l.length = n) (hne : l ≠ []) :
    use n l a = a :: l.dropLast := by
  subst hn
  obtain ⟨m, hm⟩ := Nat.exists_eq_succ_of_ne_zero (mt List.length_eq_zero_iff.mp hne)
  rw [use, List.erase_of_not_mem ha, hm, List.take_succ_cons, List.dropLast_eq_take, hm]
  rfl

theorem take_erase (l : List ι) (a : ι) (n : Nat) :
    ((l.take (n + 1)).erase a).take n = (l.erase a).take n := by
  induction l generalizing n with
  | nil => simp
  | cons b l ih =>
      rw [List.take_succ_cons]
      by_cases hb : b = a
      · subst hb
        rw [List.erase_cons_head, List.erase_cons_head, List.take_take, Nat.min_self]
      · rw [List.erase_cons_tail (by simpa using hb), List.erase_cons_tail (by simpa using hb)]
        cases n with
        | zero => rfl
        | succ n => rw [List.take_succ_cons, List.take_succ_cons, ih]

/-- What the cache drops it never needs again to tell what was used last. -/
theorem take_lastUsed (log : List ι) (a : ι) (n : Nat) :
    (lastUsed (a :: log)).take n = use n ((lastUsed log).take n) a := by
  cases n with
  | zero => rfl
  | succ n =>
      rw [lastUsed, use, List.take_succ_cons, List.take_succ_cons, take_erase]

/-! ## How long ago -/

theorem mem_lastUsed : b ∈ lastUsed log ↔ b ∈ log := by
  induction log with
  | nil => rfl
  | cons a log ih =>
      by_cases hb : b = a
      · simp [lastUsed, hb]
      · simp [lastUsed, hb, List.mem_erase_of_ne, ih]

theorem nodup_lastUsed (log : List ι) : (lastUsed log).Nodup := by
  induction log with
  | nil => exact List.nodup_nil
  | cons a log ih => exact List.nodup_cons.mpr ⟨ih.not_mem_erase, ih.erase a⟩

theorem takeWhile_erase {p : ι → Bool} (hp : p a = true) (l : List ι) :
    (l.erase a).takeWhile p = (l.takeWhile p).erase a := by
  induction l with
  | nil => rfl
  | cons b l ih =>
      by_cases hb : b = a
      · subst hb
        rw [List.erase_cons_head, List.takeWhile_cons_of_pos hp, List.erase_cons_head]
      · rw [List.erase_cons_tail (by simpa using hb)]
        by_cases hpb : p b = true
        · rw [List.takeWhile_cons_of_pos hpb, List.takeWhile_cons_of_pos hpb, ih,
            List.erase_cons_tail (by simpa using hb)]
        · rw [List.takeWhile_cons_of_neg hpb, List.takeWhile_cons_of_neg hpb]
          rfl

theorem mem_takeWhile_lastUsed {p : ι → Bool} :
    b ∈ (lastUsed log).takeWhile p ↔ b ∈ log.takeWhile p := by
  induction log with
  | nil => rfl
  | cons a log ih =>
      rw [lastUsed]
      by_cases hp : p a = true
      · rw [List.takeWhile_cons_of_pos hp, List.takeWhile_cons_of_pos hp, takeWhile_erase hp,
          List.mem_cons, List.mem_cons, ← ih]
        by_cases hb : b = a
        · simp [hb]
        · simp [hb, List.mem_erase_of_ne]
      · rw [List.takeWhile_cons_of_neg hp, List.takeWhile_cons_of_neg hp]

/-- The elements used since. -/
def since (log : List ι) (a : ι) : Finset ι := (log.takeWhile fun b => b ≠ a).toFinset

theorem since_lastUsed (log : List ι) (a : ι) : since (lastUsed log) a = since log a := by
  ext b
  rw [since, since, List.mem_toFinset, List.mem_toFinset, mem_takeWhile_lastUsed]

theorem idxOf_eq_length (l : List ι) (a : ι) : l.idxOf a = (l.takeWhile fun b => b ≠ a).length := by
  induction l with
  | nil => rfl
  | cons b l ih =>
      by_cases hb : b = a
      · simp [hb]
      · simp [hb, List.idxOf_cons_ne, ih]

theorem card_since_of_nodup (h : l.Nodup) (a : ι) : (since l a).card = l.idxOf a := by
  rw [idxOf_eq_length, since, List.toFinset_card_of_nodup (h.sublist (List.takeWhile_sublist _))]

/-- Fewer than `n` others were used since. -/
theorem mem_take_lastUsed : a ∈ (lastUsed log).take n ↔ a ∈ log ∧ (since log a).card < n := by
  rw [← since_lastUsed, card_since_of_nodup (nodup_lastUsed log), ← @mem_lastUsed _ _ log a]
  constructor
  · intro ha
    have hmem := List.mem_of_mem_take ha
    exact ⟨hmem, (List.mem_take_iff_idxOf_lt hmem).mp ha⟩
  · rintro ⟨hmem, hlt⟩
    exact (List.mem_take_iff_idxOf_lt hmem).mpr hlt

/-! ## What the places hold -/

/-- Where the places and the elements determine each other, a use moves both. -/
theorem forall₂_erase {R : κ → ι → Prop} {places : List κ} {x : κ}
    (huniq : ∀ y b, R y b → (y = x ↔ b = a)) (h : List.Forall₂ R places l) :
    List.Forall₂ R (places.erase x) (l.erase a) := by
  induction h with
  | nil => exact .nil
  | @cons y b places l hy h ih =>
      by_cases hyx : y = x
      · rw [hyx, (huniq y b hy).mp hyx, List.erase_cons_head, List.erase_cons_head]
        exact h
      · rw [List.erase_cons_tail (by simpa using hyx),
          List.erase_cons_tail (by simpa using mt (huniq y b hy).mpr hyx)]
        exact .cons hy ih

end Recency
