import Mathlib.Data.List.Basic

/-!
How a fallible computation ends: what holds of its result, and what an error means.
-/

namespace Arcade.Lib.Outcome

open List

variable {ε α β σ : Type} {good : α → Prop} {failed : Prop} {x : Except ε α}

/-- A result has `good`, and an error means `failed`. -/
structure Ends (good : α → Prop) (failed : Prop) (x : Except ε α) : Prop where
  result : ∀ a, x = .ok a → good a
  error : ∀ e, x = .error e → failed

theorem bind_ok {f : α → Except ε β} {b : β} (h : (x >>= f) = .ok b) :
    ∃ a, x = .ok a ∧ f a = .ok b := by
  cases x with
  | error e => cases h
  | ok a => exact ⟨a, rfl, h⟩

namespace Ends

theorem ok {a : α} {P : α → Prop} (h : P a) : Ends P failed (.ok a : Except ε α) :=
  ⟨fun _ heq => Except.ok.inj heq ▸ h, fun _ heq => by cases heq⟩

theorem fail {e : ε} (h : failed) : Ends good failed (.error e) :=
  ⟨fun _ heq => (by cases heq), fun _ _ => h⟩

section

variable (h : Ends good failed x)
include h

theorem exists_ok (hno : ¬ failed) : ∃ a, x = .ok a ∧ good a := by
  cases hx : x with
  | error e => exact absurd (h.error e hx) hno
  | ok a => exact ⟨a, rfl, h.result a hx⟩

theorem bind {P : β → Prop} {f : α → Except ε β}
    (hf : ∀ a, good a → Ends P failed (f a)) : Ends P failed (x >>= f) := by
  cases x with
  | error e => exact .fail (h.error e rfl)
  | ok a => exact hf a (h.result a rfl)

theorem map {P : β → Prop} {f : α → β} (hf : ∀ a, good a → P (f a)) : Ends P failed (x.map f) := by
  cases x with
  | error e => exact .fail (h.error e rfl)
  | ok a => exact .ok (hf a (h.result a rfl))

theorem mono {P : α → Prop} {bad : Prop} (hgood : ∀ a, good a → P a)
    (hbad : failed → bad) : Ends P bad x :=
  ⟨fun a ha => hgood a (h.result a ha), fun e he => hbad (h.error e he)⟩

end

/-- A loop keeps what every pass keeps, given what was read so far. -/
theorem foldlM {I : List α → σ → Prop} {f : σ → α → Except ε σ} {xs : List α}
    (hstep : ∀ done a s, done ++ [a] <+: xs → I done s → Ends (I (done ++ [a])) failed (f s a))
    {s : σ} (h : I [] s) : Ends (I xs) failed (xs.foldlM f s) := by
  have key : ∀ todo done s, done ++ todo = xs → I done s →
      Ends (I xs) failed (todo.foldlM f s) := by
    intro todo
    induction todo with
    | nil =>
      intro done s heq hI
      rw [append_nil] at heq
      exact .ok (heq ▸ hI)
    | cons a todo ih =>
      intro done s heq hI
      have hsplit : done ++ [a] ++ todo = xs := by rw [append_assoc]; exact heq
      exact (hstep done a s ⟨todo, hsplit⟩ hI).bind fun s' hI' => ih (done ++ [a]) s' hsplit hI'
  exact key xs [] s rfl h

end Ends

end Arcade.Lib.Outcome
