import Mathlib.Algebra.Order.Ring.Int
import Mathlib.Tactic.Common

/-!
# Weakest preconditions for state computations that may fail

A method that takes its receiver by mutable reference and returns a `Result` is an
`EStateM ε σ α`: the state survives a failure, so a failed call may leave traces. `wp m Q E s` says
how `m` ends when started in `s`: in `Q` when it returns and in `E` when it throws.
-/

namespace Prog

variable {ε δ σ τ α β γ : Type}

/-- How a method ends that does not return: with an error, with a panic, or never. -/
inductive Stop (ε : Type) where
  | error (e : ε)
  | panic
  | diverge
  deriving DecidableEq, Repr

def Stop.map (f : ε → δ) : Stop ε → Stop δ
  | .error e => .error (f e)
  | .panic => .panic
  | .diverge => .diverge

/-- The method reports an error: it neither panics nor runs for ever. -/
def Reports (e : Stop ε) : Prop := ∃ e', e = .error e'

/-- `m`, started in `s`, ends in `Q` if it returns and in `E` if it throws. -/
def wp (m : EStateM ε σ α) (Q : α → σ → Prop) (E : ε → σ → Prop) (s : σ) : Prop :=
  match m s with
  | .ok a t => Q a t
  | .error e t => E e t

/-- The postcondition of an exit that is never taken. -/
abbrev never : ε → σ → Prop := fun _ _ => False

/-- The state after a run, whether it returned or threw. -/
def final : EStateM.Result ε σ α → σ
  | .ok _ s => s
  | .error _ s => s

/-- What a run answers, without its state. -/
def answer : EStateM.Result ε σ α → Except ε α
  | .ok a _ => .ok a
  | .error e _ => .error e

/-- What a run returns, if it does. -/
def returned : EStateM.Result ε σ α → Option α
  | .ok a _ => some a
  | .error _ _ => none

theorem exists_ok_of_returned {r : EStateM.Result ε σ α} {a : α} (h : returned r = some a) :
    ∃ t, r = .ok a t := by
  cases r with
  | ok b t =>
      cases h
      exact ⟨t, rfl⟩
  | error e t => cases h

/-- What a run throws, if it does. -/
def thrown : EStateM.Result ε σ α → Option ε
  | .ok _ _ => none
  | .error e _ => some e

theorem eq_error_of_thrown {r : EStateM.Result ε σ α} {e : ε} (h : thrown r = some e) :
    r = .error e (final r) := by
  cases r with
  | ok a t => cases h
  | error e' t =>
      cases h
      rfl

/-- `x?` for a value that needs no state. -/
def lift : Except ε α → EStateM ε σ α
  | .ok a => pure a
  | .error e => throw e

/-- `m.map_err(f)`. -/
def mapError (f : ε → δ) (m : EStateM ε σ α) : EStateM δ σ α := fun s =>
  match m s with
  | .ok a t => .ok a t
  | .error e t => .error (f e) t

/-- Runs `m` on a part of the state, read by `part` and stored back by `put`. -/
def zoom (part : σ → τ) (put : τ → σ → σ) (m : EStateM ε τ α) : EStateM ε σ α := fun s =>
  match m (part s) with
  | .ok a t => .ok a (put t s)
  | .error e t => .error e (put t s)

/-! ## Computations without a state -/

section Except

variable {x y : Except ε α} {f : α → Except ε β} {e : ε} {a : α} {b : β}

@[simp] theorem bind_eq_ok : x >>= f = .ok b ↔ ∃ a, x = .ok a ∧ f a = .ok b := by
  cases x with
  | ok a => exact ⟨fun h => ⟨a, rfl, h⟩, by rintro ⟨_, ⟨⟩, h⟩; exact h⟩
  | error e => exact ⟨by rintro ⟨⟩, by rintro ⟨_, ⟨⟩, _⟩⟩

@[simp] theorem throw_eq_ok : (throw e : Except ε α) = .ok a ↔ False := by
  simp [throw, throwThe, MonadExceptOf.throw]

@[simp] theorem throw_bind {f : α → Except ε β} : (throw e : Except ε α) >>= f = throw e := rfl

@[simp] theorem pure_eq_ok {a' : α} : (pure a' : Except ε α) = .ok a ↔ a' = a := by
  simp [pure, Except.pure]

@[simp] theorem ite_eq_ok {c : Prop} [Decidable c] :
    (if c then x else y) = .ok a ↔ if c then x = .ok a else y = .ok a := by
  split <;> rfl

@[simp] theorem mapError_eq_ok {f : ε → δ} : x.mapError f = .ok a ↔ x = .ok a := by
  cases x <;> simp [Except.mapError]

/-- `Q` holds of the value, or `E` of the error. -/
def outcome (x : Except ε α) (Q : α → Prop) (E : ε → Prop) : Prop :=
  match x with
  | .ok a => Q a
  | .error e => E e

section Outcome

variable {Q : α → Prop} {R : β → Prop} {E : ε → Prop}

@[simp] theorem outcome_pure : outcome (pure a) Q E ↔ Q a := Iff.rfl

@[simp] theorem outcome_throw : outcome (throw e) Q E ↔ E e := Iff.rfl

@[simp] theorem outcome_bind :
    outcome (x >>= f) R E ↔ outcome x (fun a => outcome (f a) R E) E := by
  cases x <;> rfl

@[simp] theorem outcome_ite {c : Prop} [Decidable c] :
    outcome (if c then x else y) Q E ↔ if c then outcome x Q E else outcome y Q E := by
  split <;> rfl

theorem outcome_mono {Q' : α → Prop} {E' : ε → Prop} (h : outcome x Q E) (hq : ∀ a, Q a → Q' a)
    (he : ∀ e, E e → E' e) : outcome x Q' E' := by
  cases x with
  | ok a => exact hq a h
  | error e => exact he e h

end Outcome

end Except

section Rules

variable {Q Q' : α → σ → Prop} {E E' : ε → σ → Prop} {s : σ}

@[simp] theorem wp_pure (a : α) : wp (pure a : EStateM ε σ α) Q E s ↔ Q a s := Iff.rfl

@[simp] theorem wp_throw (e : ε) : wp (throw e : EStateM ε σ α) Q E s ↔ E e s := Iff.rfl

@[simp] theorem wp_bind (m : EStateM ε σ β) (f : β → EStateM ε σ α) :
    wp (m >>= f) Q E s ↔ wp m (fun b t => wp (f b) Q E t) E s := by
  simp only [wp, bind, EStateM.bind]
  cases m s <;> rfl

@[simp] theorem wp_get {Q : σ → σ → Prop} : wp (get : EStateM ε σ σ) Q E s ↔ Q s s := Iff.rfl

@[simp] theorem wp_set {Q : PUnit → σ → Prop} (t : σ) :
    wp (set t : EStateM ε σ PUnit) Q E s ↔ Q ⟨⟩ t := Iff.rfl

@[simp] theorem wp_modify {Q : PUnit → σ → Prop} (f : σ → σ) :
    wp (modify f : EStateM ε σ PUnit) Q E s ↔ Q ⟨⟩ (f s) := Iff.rfl

@[simp] theorem wp_ite (c : Prop) [Decidable c] (m n : EStateM ε σ α) :
    wp (if c then m else n) Q E s ↔ if c then wp m Q E s else wp n Q E s := by
  split <;> rfl

@[simp] theorem wp_lift_ok (a : α) : wp (lift (.ok a) : EStateM ε σ α) Q E s ↔ Q a s := Iff.rfl

@[simp] theorem wp_lift_error (e : ε) : wp (lift (.error e) : EStateM ε σ α) Q E s ↔ E e s :=
  Iff.rfl

theorem wp_lift {x : Except ε α} :
    wp (lift x : EStateM ε σ α) Q E s ↔ (∀ a, x = .ok a → Q a s) ∧ ∀ e, x = .error e → E e s := by
  cases x <;> simp

@[simp] theorem wp_mapError {E : δ → σ → Prop} (f : ε → δ) (m : EStateM ε σ α) :
    wp (mapError f m) Q E s ↔ wp m Q (fun e t => E (f e) t) s := by
  simp only [wp, mapError]
  cases m s <;> rfl

@[simp] theorem wp_zoom (part : σ → τ) (put : τ → σ → σ) (m : EStateM ε τ α) :
    wp (zoom part put m) Q E s ↔
      wp m (fun a t => Q a (put t s)) (fun e t => E e (put t s)) (part s) := by
  simp only [wp, zoom]
  cases m (part s) <;> rfl

theorem wp_mono {m : EStateM ε σ α} (h : wp m Q E s) (hQ : ∀ a t, Q a t → Q' a t)
    (hE : ∀ e t, E e t → E' e t) : wp m Q' E' s := by
  simp only [wp] at h ⊢
  cases hm : m s with
  | ok a t => simp only [hm] at h ⊢; exact hQ a t h
  | error e t => simp only [hm] at h ⊢; exact hE e t h

theorem wp_true (m : EStateM ε σ α) (s : σ) : wp m (fun _ _ => True) (fun _ _ => True) s := by
  simp only [wp]
  cases m s <;> trivial

theorem wp_and {m : EStateM ε σ α} (h : wp m Q E s) (h' : wp m Q' E' s) :
    wp m (fun a t => Q a t ∧ Q' a t) (fun e t => E e t ∧ E' e t) s := by
  simp only [wp] at h h' ⊢
  cases hm : m s <;> simp only [hm] at h h' ⊢ <;> exact ⟨h, h'⟩

theorem wp_congr {m m' : EStateM ε σ α} (h : m s = m' s) (hw : wp m' Q E s) : wp m Q E s := by
  unfold wp at hw ⊢
  rw [h]
  exact hw

/-- The outcome that a postcondition speaks about is the one of the run. -/
theorem wp_run {m : EStateM ε σ α} (h : wp m Q E s) :
    wp m (fun a t => m s = .ok a t ∧ Q a t) (fun e t => m s = .error e t ∧ E e t) s := by
  simp only [wp] at h ⊢
  cases hm : m s <;> simp only [hm] at h ⊢ <;> exact ⟨trivial, h⟩

theorem get_bind (f : σ → EStateM ε σ α) : (get >>= f) s = f s s := rfl

/-- Two continuations that agree on what the first part returns. -/
theorem bind_congr_wp {m : EStateM ε σ β} {f g : β → EStateM ε σ α}
    (h : wp m (fun b t => f b t = g b t) (fun _ _ => True) s) : (m >>= f) s = (m >>= g) s := by
  simp only [wp, bind, EStateM.bind] at h ⊢
  cases hm : m s with
  | ok b t => simpa only [hm] using h
  | error e t => rfl

/-- A run that never throws returns. -/
theorem exists_ok_of_wp {m : EStateM ε σ α} (h : wp m Q never s) :
    ∃ a t, m s = .ok a t ∧ Q a t := by
  simp only [wp] at h
  cases hm : m s with
  | ok a t => simp only [hm] at h; exact ⟨a, t, rfl, h⟩
  | error e t => simp only [hm] at h; exact h.elim

theorem exists_error_of_wp {m : EStateM ε σ α} (h : wp m (fun _ _ => False) E s) :
    ∃ e t, m s = .error e t ∧ E e t := by
  simp only [wp] at h
  cases hm : m s with
  | ok a t => simp only [hm] at h
  | error e t => simp only [hm] at h; exact ⟨e, t, rfl, h⟩

theorem wp_ok {m : EStateM ε σ α} {a : α} {t : σ} (hm : m s = .ok a t) (h : wp m Q E s) :
    Q a t := by
  simpa only [wp, hm] using h

theorem wp_error {m : EStateM ε σ α} {e : ε} {t : σ} (hm : m s = .error e t) (h : wp m Q E s) :
    E e t := by
  simpa only [wp, hm] using h

theorem wp_of_ok {m : EStateM ε σ α} {a : α} {t : σ} (hm : m s = .ok a t) (h : Q a t) :
    wp m Q E s := by
  simpa only [wp, hm] using h

theorem wp_of_error {m : EStateM ε σ α} {e : ε} {t : σ} (hm : m s = .error e t) (h : E e t) :
    wp m Q E s := by
  simpa only [wp, hm] using h

/-- The run returns just when `A` holds. -/
abbrev ReturnsIff (m : EStateM ε σ α) (A : Prop) (s : σ) : Prop :=
  wp m (fun _ _ => A) (fun _ _ => ¬ A) s

theorem ReturnsIff.exists_ok_iff {m : EStateM ε σ α} {A : Prop} (h : ReturnsIff m A s) :
    (∃ a t, m s = .ok a t) ↔ A := by
  constructor
  · rintro ⟨a, t, hr⟩
    exact wp_ok hr h
  · intro hA
    have hw : wp m (fun _ _ => True) never s := wp_mono h (fun _ _ _ => trivial)
      fun _ _ hno => hno hA
    obtain ⟨a, t, hr, -⟩ := exists_ok_of_wp hw
    exact ⟨a, t, hr⟩

/-- A loop over a list: `R` holds of what is still to be visited. -/
theorem wp_forM {f : β → EStateM ε σ PUnit} {R : List β → σ → Prop} {l : List β}
    (step : ∀ b rest t, R (b :: rest) t → wp (f b) (fun _ t => R rest t) E t) (h : R l s) :
    wp (l.forM f) (fun _ t => R [] t) E s := by
  induction l generalizing s with
  | nil => exact h
  | cons b rest ih =>
      show wp (f b >>= fun _ => rest.forM f) _ _ _
      rw [wp_bind]
      exact wp_mono (step b rest s h) (fun _ _ ht => ih ht) fun _ _ => id

theorem wp_final {m : EStateM ε σ α} {R : σ → Prop} (h : wp m (fun _ t => R t) (fun _ t => R t) s) :
    R (final (m s)) := by
  simp only [wp] at h
  cases hm : m s <;> simp only [hm] at h ⊢ <;> exact h

end Rules

/-! ## Two runs -/

section Alike

variable {R : σ → τ → Prop} {V : α → Prop} {W : β → Prop} {E : ε → Prop} {s : σ} {t : τ}

/-- From `s` and `t` the two programs end alike: with the same value, of which `V` holds, or the
same error, of which `E` holds, in related states. -/
def alike (R : σ → τ → Prop) (V : α → Prop) (E : ε → Prop) (m : EStateM ε σ α) (m' : EStateM ε τ α)
    (s : σ) (t : τ) : Prop :=
  match m s, m' t with
  | .ok a s', .ok b t' => a = b ∧ V a ∧ R s' t'
  | .error e s', .error e' t' => e = e' ∧ E e ∧ R s' t'
  | _, _ => False

theorem alike_ok {m : EStateM ε σ α} {m' : EStateM ε τ α} {a : α} {s' : σ} {t' : τ}
    (hm : m s = .ok a s') (hm' : m' t = .ok a t') (hv : V a) (hr : R s' t') :
    alike R V E m m' s t := by
  simp only [alike, hm, hm']
  exact ⟨trivial, hv, hr⟩

theorem alike_error {m : EStateM ε σ α} {m' : EStateM ε τ α} {e : ε} {s' : σ} {t' : τ}
    (hm : m s = .error e s') (hm' : m' t = .error e t') (he : E e) (hr : R s' t') :
    alike R V E m m' s t := by
  simp only [alike, hm, hm']
  exact ⟨trivial, he, hr⟩

theorem alike_pure {a : α} (hv : V a) (hr : R s t) :
    alike R V E (pure a : EStateM ε σ α) (pure a : EStateM ε τ α) s t := alike_ok rfl rfl hv hr

theorem alike_throw {e : ε} (he : E e) (hr : R s t) :
    alike R V E (throw e : EStateM ε σ α) (throw e : EStateM ε τ α) s t := alike_error rfl rfl he hr

theorem alike_bind {m : EStateM ε σ α} {m' : EStateM ε τ α} {f : α → EStateM ε σ β}
    {f' : α → EStateM ε τ β} (hm : alike R V E m m' s t)
    (hf : ∀ a s' t', V a → R s' t' → alike R W E (f a) (f' a) s' t') :
    alike R W E (m >>= f) (m' >>= f') s t := by
  simp only [alike, bind, EStateM.bind] at hm ⊢
  cases h : m s <;> cases h' : m' t <;> simp only [h, h'] at hm ⊢
  next =>
    obtain ⟨rfl, hv, hr⟩ := hm
    exact hf _ _ _ hv hr
  next => exact hm

theorem alike_get {f : σ → EStateM ε σ β} {f' : τ → EStateM ε τ β}
    (h : alike R W E (f s) (f' t) s t) :
    alike R W E (get >>= f) (get >>= f') s t := h

theorem alike_modify {f : σ → σ} {f' : τ → τ} {V : PUnit → Prop} (hv : V ⟨⟩) (hr : R (f s) (f' t)) :
    alike R V E (modify f : EStateM ε σ PUnit) (modify f' : EStateM ε τ PUnit) s t :=
      alike_ok rfl rfl hv hr

theorem alike_returned {m : EStateM ε σ α} {m' : EStateM ε τ α} (h : alike R V E m m' s t) :
    returned (m s) = returned (m' t) ∧ thrown (m s) = thrown (m' t) ∧
      ∀ e, thrown (m s) = some e → E e := by
  simp only [alike] at h
  cases hm : m s <;> cases hm' : m' t <;> simp only [hm, hm'] at h
  next =>
    obtain ⟨rfl, -⟩ := h
    exact ⟨rfl, rfl, by rintro _ ⟨⟩⟩
  next =>
    obtain ⟨rfl, he, -⟩ := h
    exact ⟨rfl, rfl, by rintro _ ⟨⟩; exact he⟩

end Alike

end Prog
