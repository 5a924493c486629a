import Redbase.Buffer.World
import Redbase.Buffer.Lemmas.Methods

/-!
# Every run keeps the invariant
-/

namespace Redbase.Buffer

open Prog Bytes Page Function Linked BufferPoolState World

variable {F : Type} [LawfulPageStore F] {cap : Nat} {s : World F cap}
  {h : List (Event F cap × Reply F cap)} {P : World F cap → Event F cap → Prop}

/-- What a step must establish. -/
def Kept (t : World F cap × Reply F cap) : Prop :=
  (t.1.poisoned = false → Inv t.1.pool t.1.guards) ∧ ∀ why, t.2 = .failed why → Expected why

omit [LawfulPageStore F] in
/-- A call ends as its method does. -/
theorem call_cases {α : Type} {m : PoolM F cap α} {k : α → World F cap → World F cap × Reply F cap}
    {Q : α → BufferPoolState F cap → Prop} {E : Stop BufferPoolError → BufferPoolState F cap → Prop}
    {R : World F cap × Reply F cap → Prop} (hp : s.poisoned = false) (hm : wp m Q E s.pool)
    (hk : ∀ a pool, Q a pool → R (k a { s with pool }))
    (he : ∀ why pool, E why pool → R ({ s with pool, poisoned := why = .panic }, .failed why)) :
    R (s.call m k) := by
  unfold World.call
  rw [if_neg (by simp [hp])]
  cases hr : m s.pool with
  | ok a pool => exact hk a pool (wp_ok hr hm)
  | error why pool => exact he why pool (wp_error hr hm)

theorem call_kept {α : Type} {m : PoolM F cap α} {k : α → World F cap → World F cap × Reply F cap}
    {Q : α → BufferPoolState F cap → Prop} (hp : s.poisoned = false)
    (hm : wp m Q (fun e t => Inv t s.guards ∧ Expected e) s.pool)
    (hk : ∀ a pool, Q a pool → Kept (k a { s with pool })) : Kept (s.call m k) := by
  refine call_cases hp hm hk fun why pool he => ⟨fun _ => he.1, ?_⟩
  rintro _ ⟨⟩
  exact he.2

theorem giveGuard_kept {g : Guard cap} {pool : BufferPoolState F cap}
    (hi : Inv pool (g :: s.guards)) :
    Kept (giveGuard g { s with pool }) :=
  ⟨fun _ => hi, by rintro _ ⟨⟩⟩

theorem step_kept (hp : s.poisoned = false) (hi : Inv s.pool s.guards) (e : Event F cap)
    (he : s.Possible e) : Kept (s.step e) := by
  cases e with
  | registerFile file =>
      exact call_kept hp (registerFile_inv hi he) fun _ _ ht => ⟨fun _ => ht, by rintro _ ⟨⟩⟩
  | getPage i p => exact call_kept hp (getPage_inv hi i p) fun _ _ => giveGuard_kept
  | getPageMut i p => exact call_kept hp (getPageMut_inv hi i p) fun _ _ => giveGuard_kept
  | allocatePage i => exact call_kept hp (allocatePage_inv hi i) fun _ _ => giveGuard_kept
  | forceFile i p =>
      exact call_kept hp (forceFile_inv hi i p) fun _ _ ht => ⟨fun _ => ht, by rintro _ ⟨⟩⟩
  | flushFile i =>
      exact call_kept hp (flushFile_inv hi i) fun _ _ ht => ⟨fun _ => ht.1, by rintro _ ⟨⟩⟩
  | removeFile i =>
      exact call_kept hp (removeFile_inv hi i) fun _ _ ht => ⟨fun _ => ht.1, by rintro _ ⟨⟩⟩
  | write g d => exact ⟨fun _ => hi.setData, by rintro _ ⟨⟩⟩
  | drop g =>
      refine ⟨fun _ => ?_, by rintro _ ⟨⟩⟩
      simp only [World.step, hp, Bool.false_eq_true, if_false]
      exact unpinFrame_inv hi he

/-- A poisoned lock stays poisoned. -/
theorem step_poisoned (hp : s.poisoned = true) (e : Event F cap) :
    (s.step e).1.poisoned = true := by
  cases e <;> simp [World.step, World.call, hp]

theorem Run.inv (hr : Run P h s) (hp : s.poisoned = false) : Inv s.pool s.guards := by
  induction hr with
  | new => exact inv_new
  | @step h s e _ he _ ih =>
      cases hs : s.poisoned with
      | false => exact (step_kept hs (ih hs) e he).1 hp
      | true => rw [step_poisoned hs e] at hp; cases hp

end Redbase.Buffer
