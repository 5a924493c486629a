import Mathlib.Data.List.Nodup
import Mathlib.Tactic.Common

/-!
# Lists in the order of last use

A log lists what was used, the newest use first. The position of an element in the log is the age of
its last use. A list that is kept by moving what is used to its head is in the order of these ages.
-/

namespace Recency

variable {ι : Type} [DecidableEq ι] {log l l₁ l₂ : List ι} {a b : ι}

/-- The elements of `l` are in the log, and in the order of their last uses. -/
structure Ordered (log l : List ι) : Prop where
  logged : ∀ a ∈ l, a ∈ log
  order : l.Pairwise fun a b => log.idxOf a < log.idxOf b

theorem Ordered.nil (log : List ι) : Ordered log [] := ⟨List.forall_mem_nil _, List.Pairwise.nil⟩

theorem Ordered.nodup (h : Ordered log l) : l.Nodup := by
  refine h.order.imp ?_
  rintro a _ hlt rfl
  exact Nat.lt_irrefl _ hlt

/-- A use moves the element to the head. -/
theorem Ordered.use (h : Ordered log l) (a : ι) : Ordered (a :: log) (a :: l.erase a) := by
  have hne : ∀ b ∈ l.erase a, b ≠ a := by
    rintro b hb rfl
    exact h.nodup.not_mem_erase hb
  constructor
  · intro b hb
    cases List.mem_cons.mp hb with
    | inl heq => exact heq ▸ List.mem_cons_self
    | inr hb => exact List.mem_cons_of_mem _ (h.logged b (List.mem_of_mem_erase hb))
  · refine List.pairwise_cons.mpr ⟨fun b hb => ?_, ?_⟩
    · rw [List.idxOf_cons_self, List.idxOf_cons_ne _ (hne b hb).symm]
      exact Nat.succ_pos _
    · refine (h.order.sublist List.erase_sublist).imp_of_mem fun hb hc hlt => ?_
      rw [List.idxOf_cons_ne _ (hne _ hb).symm, List.idxOf_cons_ne _ (hne _ hc).symm]
      exact Nat.succ_lt_succ hlt

theorem Ordered.erase (h : Ordered log l) (a : ι) : Ordered log (l.erase a) :=
  ⟨fun b hb => h.logged b (List.mem_of_mem_erase hb), h.order.sublist List.erase_sublist⟩

theorem Ordered.idxOf_lt (h : Ordered log (l₁ ++ a :: l₂)) (hb : b ∈ l₁) :
    log.idxOf b < log.idxOf a :=
  (List.pairwise_append.mp h.order).2.2 b hb a List.mem_cons_self

end Recency
