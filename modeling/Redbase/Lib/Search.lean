import Mathlib.Data.List.TakeDrop

/-!
# Binary search

The partition point of a list: where a predicate that holds of a beginning of the list stops to
hold.
-/

namespace Search

variable {α : Type} {p : α → Bool} {l : List α} {k base size fuel : Nat}

/-- Whether the predicate holds of the element at `i`. -/
def holdsAt (p : α → Bool) (l : List α) (i : Nat) : Bool := (l[i]?).any p

/-- The loop of the search, for `fuel` turns at most: the point is within `size` of `base`. -/
def narrow (p : α → Bool) (l : List α) : Nat → Nat → Nat → Nat
  | 0, base, _ => base
  | fuel + 1, base, size =>
      if size ≤ 1 then base
      else
        let half := size / 2
        narrow p l fuel (if holdsAt p l (base + half) then base + half else base) (size - half)

/-- `slice.partition_point(p)`. -/
def partitionPoint (p : α → Bool) (l : List α) : Nat :=
  if l.length = 0 then 0
  else
    let base := narrow p l l.length 0 l.length
    if holdsAt p l base then base + 1 else base

/-- The predicate holds just of the first `k` elements. -/
def Parts (p : α → Bool) (l : List α) (k : Nat) : Prop := ∀ i, holdsAt p l i = true ↔ i < k

/-- What the loop keeps: the last element before the point is at `base` or after it, and less than
`size` away. -/
structure Near (k base size : Nat) : Prop where
  start : base = 0 ∨ base < k
  stop : k ≤ base + size
  pos : 0 < size

theorem Near.narrow (hp : Parts p l k) (h : Near k base size) (hfuel : size ≤ fuel + 1) :
    Near k (narrow p l fuel base size) 1 := by
  induction fuel generalizing base size with
  | zero =>
      obtain rfl : size = 1 := Nat.le_antisymm hfuel h.pos
      exact h
  | succ fuel ih =>
      obtain ⟨hstart, hstop, hpos⟩ := h
      unfold Search.narrow
      split
      next hle =>
        obtain rfl : size = 1 := Nat.le_antisymm hle hpos
        exact ⟨hstart, hstop, hpos⟩
      next hgt =>
        have hhalf : 0 < size / 2 := by omega
        refine ih ?_ (by omega)
        cases hh : holdsAt p l (base + size / 2) with
        | true =>
            have hlt := (hp _).mp hh
            exact ⟨Or.inr hlt, by simp only [if_true]; omega, by omega⟩
        | false =>
            have hge : k ≤ base + size / 2 := by
              rw [← Nat.not_lt, ← hp, hh]
              simp
            exact ⟨hstart, by simp only [Bool.false_eq_true, if_false]; omega, by omega⟩

theorem partitionPoint_eq (hp : Parts p l k) (hk : k ≤ l.length) : partitionPoint p l = k := by
  unfold partitionPoint
  split
  next h0 => omega
  next hne =>
    have hnear : Near k 0 l.length := ⟨Or.inl rfl, by omega, by omega⟩
    obtain ⟨hstart, hstop, -⟩ := hnear.narrow hp (Nat.le_succ _)
    cases hh : holdsAt p l (narrow p l l.length 0 l.length) with
    | true =>
        have hlt := (hp _).mp hh
        simp only [hh, if_true]
        omega
    | false =>
        have hge : ¬ narrow p l l.length 0 l.length < k := by
          rw [← hp, hh]
          simp
        simp only [hh, Bool.false_eq_true, if_false]
        omega

/-- A list whose elements with the predicate come first. -/
theorem partitionPoint_append {l₁ l₂ : List α} (h₁ : ∀ a ∈ l₁, p a = true)
    (h₂ : ∀ a ∈ l₂, p a = false) :
    partitionPoint p (l₁ ++ l₂) = l₁.length := by
  refine partitionPoint_eq (fun i => ?_) (by simp)
  unfold holdsAt
  rcases Nat.lt_or_ge i l₁.length with hlt | hge
  · rw [List.getElem?_append_left hlt, List.getElem?_eq_getElem hlt]
    simp [hlt, h₁ _ (List.getElem_mem hlt)]
  · rw [List.getElem?_append_right hge]
    cases hi : l₂[i - l₁.length]? with
    | none => simp [hge]
    | some a => simp [hge, h₂ a (List.mem_of_getElem? hi)]

end Search
