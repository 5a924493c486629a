import Mathlib.Logic.Function.Basic
import Mathlib.Data.List.Nodup
import Mathlib.Algebra.Order.Ring.Int
import Mathlib.Tactic.Common

/-!
# Linked lists threaded through an array

`Chain next ptr nil h l` says that following `next` from the link value `h` visits exactly the
elements of `l`, in order, and ends at `nil`. `ptr a` is the link value that points at `a`. Pushing
and popping at the head are the only updates a free list needs.

`Links` is a doubly linked list over indices, with a head and a tail; every well-formed one is
`Links.ofList` of the list it represents, so its operations are equations between lists.
-/

namespace Linked

variable {α ℓ : Type}

/-- Following `next` from the link `h` visits the elements of the list and ends at `nil`. -/
inductive Chain (next : α → ℓ) (ptr : α → ℓ) (nil : ℓ) : ℓ → List α → Prop
  | nil : Chain next ptr nil nil []
  | cons {a : α} {l : List α} : Chain next ptr nil (next a) l → Chain next ptr nil (ptr a) (a :: l)

variable {next next' ptr : α → ℓ} {nil h : ℓ} {a : α} {l : List α}

theorem Chain.eq_nil (hc : Chain next ptr nil h []) : h = nil := by
  cases hc; rfl

theorem Chain.head_eq (hc : Chain next ptr nil h (a :: l)) : h = ptr a := by
  cases hc; rfl

theorem Chain.tail (hc : Chain next ptr nil h (a :: l)) : Chain next ptr nil (next a) l := by
  cases hc; assumption

/-- A chain reads only the links of its own elements. -/
theorem Chain.congr (hc : Chain next ptr nil h l) (he : ∀ a ∈ l, next' a = next a) :
    Chain next' ptr nil h l := by
  induction hc with
  | nil => exact .nil
  | @cons a l _ ih =>
      have ha := he a (by simp)
      refine .cons ?_
      rw [ha]
      exact ih fun b hb => he b (by simp [hb])

/-- The link values that point at the elements may be written in another way. -/
theorem Chain.congr_ptr {ptr' : α → ℓ} (hc : Chain next ptr nil h l)
    (he : ∀ a ∈ l, ptr' a = ptr a) :
    Chain next ptr' nil h l := by
  induction hc with
  | nil => exact .nil
  | @cons a l _ ih =>
      rw [← he a (by simp)]
      exact .cons (ih fun b hb => he b (by simp [hb]))

/-- Pushing `a` stores the old head in its link and makes it the head. -/
theorem Chain.push [DecidableEq α] (hc : Chain next ptr nil h l) (ha : a ∉ l) :
    Chain (Function.update next a h) ptr nil (ptr a) (a :: l) := by
  refine .cons ?_
  rw [Function.update_self]
  exact hc.congr fun b hb => Function.update_of_ne (by rintro rfl; exact ha hb) _ _

/-- Popping follows the head's link; what is stored in that link afterwards does not matter. -/
theorem Chain.pop [DecidableEq α] (hc : Chain next ptr nil h (a :: l)) (hn : (a :: l).Nodup)
    (v : ℓ) :
    Chain (Function.update next a v) ptr nil (next a) l :=
  hc.tail.congr fun b hb =>
    Function.update_of_ne (by rintro rfl; exact (List.nodup_cons.mp hn).1 hb) _ _

/-- The link of an element ends the chain or points at another element. -/
theorem Chain.link_cases (hc : Chain next ptr nil h l) (ha : a ∈ l) :
    next a = nil ∨ ∃ b ∈ l, next a = ptr b := by
  induction hc with
  | nil => simp at ha
  | @cons b l hl ih =>
      rcases List.mem_cons.mp ha with rfl | ha
      · cases l with
        | nil => exact Or.inl hl.eq_nil
        | cons c l => exact Or.inr ⟨c, by simp, hl.head_eq⟩
      · rcases ih ha with hn | ⟨c, hc, he⟩
        · exact Or.inl hn
        · exact Or.inr ⟨c, by simp [hc], he⟩

/-- The links of the elements are the end and the links that point at the elements after the
first. -/
theorem Chain.forall_link_iff {P : ℓ → Prop} (hc : Chain next ptr nil h l) (hnil : P nil) :
    (∀ a ∈ l, P (next a)) ↔ ∀ a ∈ l.tail, P (ptr a) := by
  induction hc with
  | nil => simp
  | @cons a l hl ih =>
      rw [List.forall_mem_cons, ih, List.tail_cons]
      cases l with
      | nil =>
          rw [hl.eq_nil]
          simp [hnil]
      | cons b l =>
          rw [hl.head_eq, List.tail_cons, List.forall_mem_cons]

/-- Two chains from one head agree when links determine the element they point at. -/
theorem Chain.unique {l' : List α} (hc : Chain next ptr nil h l) (hc' : Chain next ptr nil h l')
    (hnil : ∀ a, a ∈ l ∨ a ∈ l' → ptr a ≠ nil)
    (hinj : ∀ a ∈ l, ∀ b ∈ l', ptr a = ptr b → a = b) : l = l' := by
  induction hc generalizing l' with
  | nil =>
      cases l' with
      | nil => rfl
      | cons b l' => exact absurd hc'.head_eq.symm (hnil b (by simp))
  | @cons a l _ ih =>
      cases l' with
      | nil => exact absurd hc'.eq_nil (hnil a (by simp))
      | cons b l' =>
          have hab := hinj a (by simp) b (by simp) hc'.head_eq
          subst hab
          rw [ih hc'.tail (fun x hx => hnil x (by simp; tauto))
            fun x hx y hy => hinj x (by simp [hx]) y (by simp [hy])]

/-! ## Doubly linked lists -/

section Doubly

variable {ι : Type} [DecidableEq ι]

/-- The element after `a` in a list. -/
def nextIn : List ι → ι → Option ι
  | [], _ => none
  | x :: xs, a => if a = x then xs.head? else nextIn xs a

theorem nextIn_of_not_mem {l : List ι} {a : ι} (h : a ∉ l) : nextIn l a = none := by
  induction l with
  | nil => rfl
  | cons x xs ih =>
      simp only [List.mem_cons, not_or] at h
      simp [nextIn, h.1, ih h.2]

theorem nextIn_mem {l : List ι} {a b : ι} (h : nextIn l a = some b) : a ∈ l ∧ b ∈ l := by
  induction l with
  | nil => simp [nextIn] at h
  | cons x xs ih =>
      simp only [nextIn] at h
      split at h
      next hax => exact ⟨by simp [hax], by simp [List.mem_of_mem_head? h]⟩
      next => exact ⟨by simp [(ih h).1], by simp [(ih h).2]⟩

/-- In a list without repetition the successor is the next of two adjacent elements. -/
theorem nextIn_eq_some_iff {l : List ι} (hn : l.Nodup) (a b : ι) :
    nextIn l a = some b ↔ [a, b] <:+: l := by
  induction l with
  | nil => simp [nextIn]
  | cons x xs ih =>
      obtain ⟨hx, hxs⟩ := List.nodup_cons.mp hn
      rw [List.infix_cons_iff, ← ih hxs]
      simp only [nextIn, List.cons_prefix_cons]
      rcases eq_or_ne a x with rfl | hax
      · have hne : nextIn xs a ≠ some b := fun e => hx (nextIn_mem e).1
        simp only [if_true, true_and, hne, or_false]
        cases xs <;> simp [eq_comm]
      · simp [hax]

theorem nextIn_reverse {l : List ι} (hn : l.Nodup) (a b : ι) :
    nextIn l.reverse b = some a ↔ nextIn l a = some b := by
  rw [nextIn_eq_some_iff (List.nodup_reverse.mpr hn), nextIn_eq_some_iff hn,
    ← List.reverse_infix, List.reverse_reverse]
  rfl

/-- Erasing `a` makes its predecessor point past it. -/
theorem nextIn_erase {l : List ι} (hn : l.Nodup) (a b : ι) :
    nextIn (l.erase a) b =
      if b = a then none else if nextIn l b = some a then nextIn l a else nextIn l b := by
  induction l with
  | nil => simp [nextIn]
  | cons x xs ih =>
      obtain ⟨hx, hxs⟩ := List.nodup_cons.mp hn
      rcases eq_or_ne x a with rfl | hxa
      · rw [List.erase_cons_head]
        split
        next hb => exact nextIn_of_not_mem (hb ▸ hx)
        next hb =>
          have hne : nextIn xs b ≠ some x := fun e => hx (nextIn_mem e).2
          simp [nextIn, hb, hne]
      · rw [List.erase_cons_tail (by simpa using hxa)]
        simp only [nextIn, if_neg (Ne.symm hxa)]
        rcases eq_or_ne b x with rfl | hbx
        · simp only [if_true, if_neg hxa]
          cases xs with
          | nil => simp
          | cons y ys =>
              rcases eq_or_ne y a with rfl | hya
              · simp [nextIn]
              · simp [List.erase_cons_tail, hya]
        · simp only [if_neg hbx, ih hxs]

/-- Nothing precedes the head. -/
theorem nextIn_ne_head {l : List ι} (hn : l.Nodup) {a b : ι} (h : nextIn l a = some b) :
    l.head? ≠ some b := by
  cases l with
  | nil => simp
  | cons x xs =>
      obtain ⟨hx, _⟩ := List.nodup_cons.mp hn
      simp only [nextIn] at h
      intro he
      cases he
      split at h
      next => exact hx (List.mem_of_mem_head? h)
      next => exact hx (nextIn_mem h).2

theorem reverse_erase {l : List ι} (hn : l.Nodup) (a : ι) :
    (l.erase a).reverse = l.reverse.erase a := by
  rw [hn.erase_eq_filter, (List.nodup_reverse.mpr hn).erase_eq_filter, List.filter_reverse]

/-- Redirecting the predecessor of `a` past it and clearing its link erases `a`. -/
theorem update_nextIn_erase {l : List ι} (hn : l.Nodup) (a : ι) :
    Function.update (match nextIn l.reverse a with
      | some p => Function.update (nextIn l) p (nextIn l a)
      | none => nextIn l) a none = nextIn (l.erase a) := by
  funext b
  rw [nextIn_erase hn]
  rcases eq_or_ne b a with rfl | hb
  · simp
  · rw [Function.update_of_ne hb, if_neg hb]
    cases hp : nextIn l.reverse a with
    | none =>
        have hne : nextIn l b ≠ some a := fun e => by simp [(nextIn_reverse hn b a).mpr e] at hp
        rw [if_neg hne]
    | some p =>
        have hpa := (nextIn_reverse hn p a).mp hp
        rcases eq_or_ne b p with rfl | hbp
        · simp [hpa]
        · have hne : nextIn l b ≠ some a := fun e => by
            rw [(nextIn_reverse hn b a).mpr e] at hp
            exact hbp (Option.some.inj hp)
          simp [hbp, hne]

theorem head?_erase {l : List ι} (hn : l.Nodup) (a : ι) :
    (l.erase a).head? =
      if nextIn l.reverse a = none ∧ l.head? = some a then nextIn l a else l.head? := by
  cases l with
  | nil => simp
  | cons x xs =>
      rcases eq_or_ne x a with rfl | hxa
      · have hp : nextIn (x :: xs).reverse x = none := by
          cases hp : nextIn (x :: xs).reverse x with
          | none => rfl
          | some p => exact absurd rfl (nextIn_ne_head hn ((nextIn_reverse hn p x).mp hp))
        simp only [hp, List.head?_cons, and_self, if_true, List.erase_cons_head, nextIn]
      · simp [hxa, List.erase_cons_tail]

/-- The links of an intrusive doubly linked list: a successor and a predecessor for each index. -/
@[ext] structure Links (ι : Type) where
  head : Option ι
  tail : Option ι
  next : ι → Option ι
  prev : ι → Option ι

namespace Links

/-- The links that represent a list. -/
def ofList (l : List ι) : Links ι where
  head := l.head?
  tail := l.getLast?
  next := nextIn l
  prev := nextIn l.reverse

/-- Inserts `a` at the head. -/
def linkHead (s : Links ι) (a : ι) : Links ι where
  head := some a
  tail := if s.head.isSome then s.tail else some a
  next := Function.update s.next a s.head
  prev := match s.head with
    | some h => Function.update (Function.update s.prev a none) h (some a)
    | none => Function.update s.prev a none

/-- Takes `a` out and clears its links. -/
def unlink (s : Links ι) (a : ι) : Links ι where
  head := if s.prev a = none ∧ s.head = some a then s.next a else s.head
  tail := if s.next a = none ∧ s.tail = some a then s.prev a else s.tail
  next := Function.update (match s.prev a with
    | some p => Function.update s.next p (s.next a)
    | none => s.next) a none
  prev := Function.update (match s.next a with
    | some n => Function.update s.prev n (s.prev a)
    | none => s.prev) a none

theorem linkHead_ofList {l : List ι} {a : ι} (hn : l.Nodup) (ha : a ∉ l) :
    linkHead (ofList l) a = ofList (a :: l) := by
  have hna : (a :: l).Nodup := List.nodup_cons.mpr ⟨ha, hn⟩
  ext1
  · rfl
  · cases l <;> rfl
  · funext b
    rcases eq_or_ne b a with rfl | hb
    · simp [linkHead, ofList, nextIn]
    · simp [linkHead, ofList, nextIn, hb]
  · funext b
    apply Option.ext
    intro c
    have hr : (ofList (a :: l)).prev b = some c ↔ nextIn (a :: l) c = some b :=
      nextIn_reverse hna c b
    have hl : (ofList l).prev b = some c ↔ nextIn l c = some b := nextIn_reverse hn c b
    rw [hr]
    cases l with
    | nil =>
        rcases eq_or_ne b a with rfl | hb <;> simp_all [linkHead, ofList, nextIn]
    | cons h t =>
        have hah : a ≠ h := fun e => ha (by simp [e])
        have hca : nextIn (h :: t) a = none := nextIn_of_not_mem ha
        simp only [linkHead, ofList, List.head?_cons] at hl ⊢
        rcases eq_or_ne b h with rfl | hbh
        · have hne : nextIn (b :: t) c ≠ some b := fun e => nextIn_ne_head hn e rfl
          rw [Function.update_self]
          rcases eq_or_ne c a with rfl | hc
          · simp [nextIn]
          · simpa [nextIn, hc, Ne.symm hc] using hne
        · rw [Function.update_of_ne hbh]
          rcases eq_or_ne b a with rfl | hb
          · have hne : nextIn (b :: h :: t) c ≠ some b := fun e => nextIn_ne_head hna e rfl
            simp [hne]
          · rw [Function.update_of_ne hb, hl]
            rcases eq_or_ne c a with rfl | hc
            · have hne : nextIn (h :: t) c ≠ some b := by simp [hca]
              simpa [nextIn, hah, Ne.symm hbh] using hne
            · simp [nextIn, hc]

/-- Unlinking an element of the list erases it; unlinking one outside the list changes nothing. -/
theorem unlink_ofList {l : List ι} (hn : l.Nodup) (a : ι) :
    unlink (ofList l) a = ofList (l.erase a) := by
  have hr : l.reverse.Nodup := List.nodup_reverse.mpr hn
  ext1
  · exact (head?_erase hn a).symm
  · have h := head?_erase hr a
    rw [← reverse_erase hn, List.head?_reverse, List.head?_reverse, List.reverse_reverse] at h
    exact h.symm
  · exact update_nextIn_erase hn a
  · have h := update_nextIn_erase hr a
    rw [← reverse_erase hn, List.reverse_reverse] at h
    exact h

/-- Following `next` from the head visits the represented list. -/
theorem chain_ofList {l : List ι} (hn : l.Nodup) :
    Chain (ofList l).next some none (ofList l).head l := by
  induction l with
  | nil => exact .nil
  | cons x xs ih =>
      obtain ⟨hx, hxs⟩ := List.nodup_cons.mp hn
      refine .cons ?_
      have hnext : (ofList (x :: xs)).next x = xs.head? := by simp [ofList, nextIn]
      rw [hnext]
      exact (ih hxs).congr fun b hb => by
        have hbx : b ≠ x := fun e => hx (e ▸ hb)
        simp [ofList, nextIn, hbx]

/-- Following `prev` from the tail visits the represented list backwards. -/
theorem chain_reverse_ofList {l : List ι} (hn : l.Nodup) :
    Chain (ofList l).prev some none (ofList l).tail l.reverse := by
  have h := chain_ofList (List.nodup_reverse.mpr hn)
  simp only [ofList, List.head?_reverse] at h ⊢
  exact h

end Links

end Doubly

end Linked
