import Mathlib.Data.List.Basic
import Mathlib.Data.List.TakeDrop
import Mathlib.Order.Basic

/-!
# Sorting and cutting off

A list is sorted by a comparison that need not tell all its elements apart; the ones it does not
keep the order they had. The first ones of the sorted list are selected.
-/

namespace Selection

variable {α : Type} {cmp : α → α → Ordering} {before : α → α → Prop} {l : List α}

/-- The comparison is a total preorder on the elements of the list. -/
structure Preorders (cmp : α → α → Ordering) (l : List α) : Prop where
  swap : ∀ a ∈ l, ∀ b ∈ l, cmp b a = (cmp a b).swap
  trans : ∀ a ∈ l, ∀ b ∈ l, ∀ c ∈ l, (cmp a b).isLE = true → (cmp b c).isLE = true →
    (cmp a c).isLE = true

/-- The order of the sorted list. -/
def Precedes (cmp : α → α → Ordering) (before : α → α → Prop) (a b : α) : Prop :=
  cmp a b = .lt ∨ cmp a b = .eq ∧ before a b

/-- What is selected from `l`, whose order is `before`. -/
structure Selected (cmp : α → α → Ordering) (before : α → α → Prop) (limit : Option Nat)
    (l picked : List α) : Prop where
  length : picked.length = match limit with
    | none => l.length
    | some n => min l.length n
  nodup : picked.Nodup
  subset : ∀ a ∈ picked, a ∈ l
  ordered : picked.Pairwise (Precedes cmp before)
  leftOut : ∀ a ∈ l, a ∉ picked → ∀ b ∈ picked, cmp a b ≠ .lt

def sortBy (cmp : α → α → Ordering) (l : List α) : List α := l.mergeSort fun a b => (cmp a b).isLE

def cutOff (l : List α) : Option Nat → List α
  | none => l
  | some n => l.take n

/-! ## Sorting -/

theorem mem_sortBy {a : α} : a ∈ sortBy cmp l ↔ a ∈ l := List.mem_mergeSort

/-- In a stable sort the elements that the order does not tell apart keep their places. -/
theorem pairwise_mergeSort_before {le : α → α → Bool} (trans : ∀ a b c, le a b → le b c → le a c)
    (total : ∀ a b, le a b || le b a) (hl : l.Pairwise before) :
    (l.mergeSort le).Pairwise fun a b => le a b = true ∧ (le b a = true → before a b) := by
  rw [← List.mergeSort_zipIdx, List.pairwise_map]
  have hperm := List.mergeSort_perm l.zipIdx (List.zipIdxLE le)
  have hsorted := List.pairwise_mergeSort (List.zipIdxLE_trans trans)
    (List.zipIdxLE_total total) l.zipIdx
  have hplaces : ((l.zipIdx.mergeSort (List.zipIdxLE le)).map Prod.snd).Nodup := by
    refine (hperm.map Prod.snd).nodup_iff.mpr ?_
    rw [List.zipIdx_map_snd]
    exact List.nodup_range'
  refine ((List.pairwise_map.mp hplaces).and hsorted).imp_of_mem fun {p q} hp hq hpq => ?_
  obtain ⟨hne, hle⟩ := hpq
  have hat : ∀ r ∈ l.zipIdx.mergeSort (List.zipIdxLE le), l[r.2]? = some r.1 :=
    fun r hr => List.mem_zipIdx_iff_getElem?.mp (hperm.mem_iff.mp hr)
  unfold List.zipIdxLE at hle
  split at hle
  next h =>
    refine ⟨h, fun hback => ?_⟩
    rw [if_pos hback] at hle
    obtain ⟨hi, hpi⟩ := List.getElem?_eq_some_iff.mp (hat p hp)
    obtain ⟨hj, hqj⟩ := List.getElem?_eq_some_iff.mp (hat q hq)
    rw [← hpi, ← hqj]
    exact List.pairwise_iff_getElem.mp hl _ _ hi hj (Nat.lt_of_le_of_ne (of_decide_eq_true hle) hne)
  next => cases hle

/-- The sorted list, ties in the order they had. -/
theorem pairwise_sortBy (hc : Preorders cmp l) (hl : l.Pairwise before) :
    (sortBy cmp l).Pairwise (Precedes cmp before) := by
  have hmap : (l.attach.mergeSort fun a b => (cmp a.1 b.1).isLE).map Subtype.val =
      sortBy cmp l := by
    rw [List.map_mergeSort (s := fun a b => (cmp a b).isLE) fun _ _ _ _ => rfl,
      List.attach_map_subtype_val]
    rfl
  have hbefore : l.attach.Pairwise fun a b => before a.1 b.1 := by
    rw [← List.pairwise_map (f := Subtype.val), List.attach_map_subtype_val]
    exact hl
  rw [← hmap, List.pairwise_map]
  refine (pairwise_mergeSort_before ?_ ?_ hbefore).imp fun {a b} hab => ?_
  · exact fun a b c => hc.trans a.1 a.2 b.1 b.2 c.1 c.2
  · intro a b
    rw [hc.swap a.1 a.2 b.1 b.2]
    cases cmp a.1 b.1 <;> rfl
  · obtain ⟨hle, hback⟩ := hab
    rw [hc.swap a.1 a.2 b.1 b.2] at hback
    cases h : cmp a.1 b.1 with
    | lt => exact Or.inl h
    | eq =>
        rw [h] at hback
        exact Or.inr ⟨h, hback rfl⟩
    | gt =>
        rw [h] at hle
        cases hle

/-! ## Cutting off -/

/-- What is cut off the sorted list is not smaller than what is left. -/
theorem selected_cutOff (hc : Preorders cmp l) (hl : l.Pairwise before) (hnd : l.Nodup)
    (limit : Option Nat) :
    Selected cmp before limit l (cutOff (sortBy cmp l) limit) := by
  have hperm : (sortBy cmp l).Perm l := List.mergeSort_perm ..
  have hsorted := pairwise_sortBy hc hl
  cases limit with
  | none => exact ⟨hperm.length_eq, hperm.nodup_iff.mpr hnd, fun a => mem_sortBy.mp, hsorted,
      fun a ha hno => absurd (mem_sortBy.mpr ha) hno⟩
  | some n =>
      have hsub : ((sortBy cmp l).take n).Sublist (sortBy cmp l) := List.take_sublist ..
      refine ⟨?_, (hperm.nodup_iff.mpr hnd).sublist hsub,
        fun a ha => mem_sortBy.mp (hsub.subset ha),
        hsorted.sublist hsub, fun a ha hno b hb hlt => ?_⟩
      · rw [cutOff, List.length_take, hperm.length_eq, Nat.min_comm]
      · have hdrop : a ∈ (sortBy cmp l).drop n := by
          have hmem : a ∈ sortBy cmp l := mem_sortBy.mpr ha
          rw [← List.take_append_drop n (sortBy cmp l)] at hmem
          exact (List.mem_append.mp hmem).resolve_left hno
        have hba := hsorted.rel_of_mem_take_of_mem_drop hb hdrop
        have hswap := hc.swap a ha b (mem_sortBy.mp (hsub.subset hb))
        rw [hlt] at hswap
        rcases hba with hba | ⟨hba, -⟩
        · rw [hba] at hswap
          cases hswap
        · rw [hba] at hswap
          cases hswap

/-- Two elements that come before all others are the ones selected, the first of them first. -/
theorem Selected.eq_pair {picked : List α} {a b : α} (h : Selected cmp before (some 2) l picked)
    (hne : a ≠ b) (ha : a ∈ l) (hb : b ∈ l) (hab : ¬ Precedes cmp before b a)
    (hl : ∀ c ∈ l, c ≠ a → c ≠ b → cmp a c = .lt ∧ cmp b c = .lt) : picked = [a, b] := by
  have hpair : [a, b].Nodup := by simpa using hne
  have htwo : picked.length = 2 := by
    have hle : [a, b].length ≤ l.length := hpair.length_le_of_subset (by simp [ha, hb])
    exact h.length.trans (Nat.min_eq_right hle)
  obtain ⟨x, y, rfl⟩ := List.length_eq_two.mp htwo
  have hxy : x ≠ y := by simpa using h.nodup
  have hmem : ∀ c ∈ l, (∀ d ∈ l, d ≠ a → d ≠ b → cmp c d = .lt) → c = a ∨ c = b → c ∈ [x, y] := by
    intro c hc hlt hcab
    by_contra hno
    have hout : ∀ d ∈ [x, y], d = a ∨ d = b := by
      intro d hd
      by_contra hother
      rw [not_or] at hother
      exact h.leftOut c hc hno d hd (hlt d (h.subset d hd) hother.1 hother.2)
    have hx := hout x (by simp)
    have hy := hout y (by simp)
    simp only [List.mem_cons, List.not_mem_nil, not_or] at hno
    rcases hcab with rfl | rfl
    · exact hxy ((hx.resolve_left (Ne.symm hno.1)).trans (hy.resolve_left (Ne.symm hno.2.1)).symm)
    · exact hxy ((hx.resolve_right (Ne.symm hno.1)).trans (hy.resolve_right (Ne.symm hno.2.1)).symm)
  have hma := hmem a ha (fun d hd h₁ h₂ => (hl d hd h₁ h₂).1) (Or.inl rfl)
  have hmb := hmem b hb (fun d hd h₁ h₂ => (hl d hd h₁ h₂).2) (Or.inr rfl)
  have hordered : Precedes cmp before x y := by simpa using h.ordered
  simp only [List.mem_cons, List.not_mem_nil, or_false] at hma hmb
  rcases hma with rfl | rfl
  · rw [hmb.resolve_left (Ne.symm hne)]
  · obtain rfl := hmb.resolve_right (Ne.symm hne)
    exact absurd hordered hab

/-! ## Renaming -/

/-- A selection of other elements that compare alike. -/
theorem Selected.map {β : Type} {picked : List α} {limit : Option Nat} {cmp' : β → β → Ordering}
    {before' : β → β → Prop} {f : α → β} (h : Selected cmp before limit l picked)
    (hinj : ∀ a ∈ l, ∀ b ∈ l, f a = f b → a = b) (hcmp : ∀ a b, cmp' (f a) (f b) = cmp a b)
    (hbefore : ∀ a b, before a b → before' (f a) (f b)) :
    Selected cmp' before' limit (l.map f) (picked.map f) where
  length := by
    rw [List.length_map, List.length_map]
    exact h.length
  nodup := List.pairwise_map.mpr (h.nodup.imp_of_mem fun {a b} ha hb hne he =>
    hne (hinj a (h.subset a ha) b (h.subset b hb) he))
  subset b hb := by
    obtain ⟨a, ha, rfl⟩ := List.mem_map.mp hb
    exact List.mem_map_of_mem (h.subset a ha)
  ordered := by
    refine List.pairwise_map.mpr (h.ordered.imp fun {a b} hab => ?_)
    unfold Precedes at hab ⊢
    rw [hcmp]
    exact hab.imp_right fun ⟨he, hb⟩ => ⟨he, hbefore a b hb⟩
  leftOut b hb hno c hc := by
    obtain ⟨a, ha, rfl⟩ := List.mem_map.mp hb
    obtain ⟨d, hd, rfl⟩ := List.mem_map.mp hc
    rw [hcmp]
    exact h.leftOut a ha (fun hm => hno (List.mem_map_of_mem hm)) d hd

end Selection
