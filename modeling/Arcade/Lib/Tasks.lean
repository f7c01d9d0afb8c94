import Mathlib.Data.List.Basic

/-!
Tasks side by side, in a list. A step replaces the task at one place; what is said of some task is
then said of the others as before, or of the new one.
-/

namespace Arcade.Lib

open List

variable {τ : Type} {tasks : List τ} {i : Nat} {task : τ} {P : τ → Prop}

/-- A task at another place than `i` has the property. -/
def Others (tasks : List τ) (i : Nat) (P : τ → Prop) : Prop :=
  ∃ k other, k ≠ i ∧ tasks[k]? = some other ∧ P other

theorem exists_task_iff (h : tasks[i]? = some task) :
    (∃ x ∈ tasks, P x) ↔ Others tasks i P ∨ P task := by
  constructor
  · rintro ⟨x, hx, hp⟩
    obtain ⟨k, hk⟩ := mem_iff_getElem?.mp hx
    by_cases hki : k = i
    · subst hki
      exact .inr (Option.mem_unique hk h ▸ hp)
    · exact .inl ⟨k, x, hki, hk, hp⟩
  · rintro (⟨k, x, -, hk, hp⟩ | hp)
    · exact ⟨x, mem_of_getElem? hk, hp⟩
    · exact ⟨task, mem_of_getElem? h, hp⟩

theorem others_set (task' : τ) : Others (tasks.set i task') i P ↔ Others tasks i P := by
  have hget : ∀ k, k ≠ i → (tasks.set i task')[k]? = tasks[k]? := fun k hk => by
    rw [List.getElem?_set_ne (Ne.symm hk)]
  constructor
  · rintro ⟨k, x, hki, hk, hp⟩
    exact ⟨k, x, hki, hget k hki ▸ hk, hp⟩
  · rintro ⟨k, x, hki, hk, hp⟩
    exact ⟨k, x, hki, (hget k hki).symm ▸ hk, hp⟩

theorem exists_task_set_iff (h : tasks[i]? = some task) (task' : τ) :
    (∃ x ∈ tasks.set i task', P x) ↔ Others tasks i P ∨ P task' := by
  have hlt := (List.getElem?_eq_some_iff.mp h).1
  have hself : (tasks.set i task')[i]? = some task' := by simp [hlt]
  rw [exists_task_iff hself, others_set]

theorem countP_task_set (p : τ → Bool) (h : tasks[i]? = some task) (task' : τ) :
    (tasks.set i task').countP p + (if p task then 1 else 0) =
      tasks.countP p + if p task' then 1 else 0 := by
  induction tasks generalizing i with
  | nil => simp at h
  | cons first rest ih =>
    cases i with
    | zero =>
      obtain rfl : first = task := by simpa using h
      simp only [set_cons_zero, countP_cons]
      omega
    | succ i =>
      have hrest := ih (i := i) (by simpa using h)
      simp only [set_cons_succ, countP_cons]
      omega

end Arcade.Lib
