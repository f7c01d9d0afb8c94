import Mathlib.Data.List.Basic
import Mathlib.Data.List.Induction

/-!
Runs of a deterministic transition function over a list of events: the states
a run visits, conditions that every step of it meets, and the rules that turn
a fact about one step into a fact about the whole run. The last section does the
same for steps that leave the next state open.
-/

namespace Arcade.Lib

open List

universe u v

variable {σ : Type u} {ε : Type v}

def run (step : σ → ε → σ) (s : σ) (es : List ε) : σ := es.foldl step s

/-- Every state the run visits, the first one included. -/
def states (step : σ → ε → σ) (s : σ) : List ε → List σ
  | [] => [s]
  | e :: es => s :: states step (step s e) es

/-- Every event of the run meets `C` in the state it is taken from. -/
def AllSteps (step : σ → ε → σ) (C : σ → ε → Prop) (s : σ) : List ε → Prop
  | [] => True
  | e :: es => C s e ∧ AllSteps step C (step s e) es

instance decidableAllSteps (step : σ → ε → σ) (C : σ → ε → Prop)
    [∀ s e, Decidable (C s e)] (s : σ) (es : List ε) :
    Decidable (AllSteps step C s es) :=
  match es with
  | [] => isTrue trivial
  | e :: es =>
    have := decidableAllSteps step C (step s e) es
    inferInstanceAs (Decidable (C s e ∧ AllSteps step C (step s e) es))

variable (step : σ → ε → σ)

@[simp] theorem run_nil (s : σ) : run step s [] = s := rfl

@[simp] theorem run_cons (s : σ) (e : ε) (es : List ε) :
    run step s (e :: es) = run step (step s e) es := rfl

theorem run_append (s : σ) (es es' : List ε) :
    run step s (es ++ es') = run step (run step s es) es' :=
  foldl_append

theorem mem_states_iff (s t : σ) (es : List ε) :
    t ∈ states step s es ↔ ∃ es₁ es₂, es = es₁ ++ es₂ ∧ t = run step s es₁ := by
  induction es generalizing s with
  | nil =>
    constructor
    · intro h
      exact ⟨[], [], rfl, by simpa [states] using h⟩
    · rintro ⟨es₁, es₂, he, rfl⟩
      obtain ⟨rfl, rfl⟩ := nil_eq_append_iff.mp he
      simp [states]
  | cons e es ih =>
    simp only [states, mem_cons, ih]
    constructor
    · rintro (rfl | ⟨es₁, es₂, rfl, rfl⟩)
      · exact ⟨[], e :: es, rfl, rfl⟩
      · exact ⟨e :: es₁, es₂, rfl, rfl⟩
    · rintro ⟨es₁, es₂, he, rfl⟩
      cases es₁ with
      | nil => exact .inl rfl
      | cons e' es₁ =>
        obtain ⟨rfl, rfl⟩ := List.cons.inj he
        exact .inr ⟨es₁, es₂, rfl, rfl⟩

variable {step : σ → ε → σ} {C : σ → ε → Prop} {es : List ε} {s : σ} {J P : σ → Prop}
  {D : σ → ε → Prop}

theorem AllSteps.imp (h : ∀ s e, C s e → D s e) (hc : AllSteps step C s es) :
    AllSteps step D s es := by
  induction es generalizing s with
  | nil => trivial
  | cons e es ih => exact ⟨h s e hc.1, ih hc.2⟩

theorem AllSteps.and (hc : AllSteps step C s es) (hd : AllSteps step D s es) :
    AllSteps step (fun s e => C s e ∧ D s e) s es := by
  induction es generalizing s with
  | nil => trivial
  | cons e es ih => exact ⟨⟨hc.1, hd.1⟩, ih hc.2 hd.2⟩

theorem AllSteps.append_left {es' : List ε} (h : AllSteps step C s (es ++ es')) :
    AllSteps step C s es := by
  induction es generalizing s with
  | nil => trivial
  | cons e es ih => exact ⟨h.1, ih h.2⟩

theorem AllSteps.append_right {es' : List ε} (h : AllSteps step C s (es ++ es')) :
    AllSteps step C (run step s es) es' := by
  induction es generalizing s with
  | nil => exact h
  | cons e es ih => exact ih h.2

theorem allSteps_iff :
    AllSteps step C s es ↔ ∀ es₁ e es₂, es = es₁ ++ e :: es₂ → C (run step s es₁) e := by
  induction es generalizing s with
  | nil => simp [AllSteps]
  | cons e es ih =>
    simp only [AllSteps, ih]
    constructor
    · rintro ⟨hc, h⟩ es₁ e' es₂ heq
      cases es₁ with
      | nil =>
        obtain ⟨rfl, -⟩ := List.cons.inj heq
        exact hc
      | cons e₁ es₁ =>
        obtain ⟨rfl, hes⟩ := List.cons.inj heq
        exact h es₁ e' es₂ hes
    · intro h
      refine ⟨h [] e es rfl, ?_⟩
      rintro es₁ e' es₂ rfl
      exact h (e :: es₁) e' es₂ rfl

theorem run_invariant (hstep : ∀ s e, J s → C s e → J (step s e)) (hs : J s)
    (hc : AllSteps step C s es) : J (run step s es) := by
  induction es generalizing s with
  | nil => exact hs
  | cons e es ih => exact ih (hstep s e hs hc.1) hc.2

theorem run_keeps (hkeep : ∀ s e, P s → P (step s e)) (hs : P s) (es : List ε) :
    P (run step s es) := by
  induction es generalizing s with
  | nil => exact hs
  | cons e es ih => exact ih (hkeep s e hs)

theorem run_keeps_mem (hkeep : ∀ e ∈ es, ∀ s, P s → P (step s e)) (hs : P s) :
    P (run step s es) := by
  induction es generalizing s with
  | nil => exact hs
  | cons e es ih =>
    exact ih (fun e' he' => hkeep e' (mem_cons_of_mem _ he')) (hkeep e mem_cons_self s hs)

/-- A property that a step has by what was there before or by its own event. -/
theorem foldl_iff (P : σ → Prop) {Q : ε → Prop} (hstep : ∀ s e, P (step s e) ↔ P s ∨ Q e)
    (s : σ) (es : List ε) : P (es.foldl step s) ↔ P s ∨ ∃ e ∈ es, Q e := by
  induction es generalizing s with
  | nil => simp
  | cons e es ih =>
    rw [foldl_cons, ih, hstep, or_assoc]
    simp only [mem_cons, exists_eq_or_imp]

/-- What one step of the run brings about, and no step undoes. -/
theorem run_establishes (hkeep : ∀ s e, P s → P (step s e)) {e : ε} (hest : ∀ s, P (step s e))
    (he : e ∈ es) (s : σ) :
    P (run step s es) := by
  induction es generalizing s with
  | nil => cases he
  | cons e' es ih =>
    rcases mem_cons.mp he with rfl | he
    · exact run_keeps hkeep (hest s) es
    · exact ih he _

/-- An invariant that every step of the run preserves holds in every state the
run visits. -/
theorem states_invariant (hstep : ∀ s e, J s → C s e → J (step s e)) (hs : J s)
    (hc : AllSteps step C s es) : ∀ t ∈ states step s es, J t := by
  intro t ht
  obtain ⟨es₁, es₂, rfl, rfl⟩ := (mem_states_iff step s t es).mp ht
  exact run_invariant hstep hs hc.append_left

theorem head_mem_states (step : σ → ε → σ) (s : σ) (es : List ε) : s ∈ states step s es := by
  cases es <;> simp [states]

/-- Exactness of a step condition. In legal runs, `P` holds in every state
visited exactly when every step meets `C`: `J` is what legal steps keep, a step
that meets `C` keeps `P`, and one that does not breaks it. -/
theorem states_iff_allSteps {L : σ → ε → Prop} (hJ : ∀ s e, J s → L s e → J (step s e))
    (hP : ∀ s e, J s → P s → L s e → (P (step s e) ↔ C s e)) (hs : J s) (hp : P s)
    (hl : AllSteps step L s es) :
    (∀ t ∈ states step s es, P t) ↔ AllSteps step C s es := by
  induction es generalizing s with
  | nil => simpa [states, AllSteps] using hp
  | cons e es ih =>
    have hs' := hJ s e hs hl.1
    constructor
    · intro h
      have ht : ∀ t ∈ states step (step s e) es, P t := by
        intro t ht
        exact h t (mem_cons_of_mem _ ht)
      have hp' := ht _ (head_mem_states step (step s e) es)
      exact ⟨(hP s e hs hp hl.1).mp hp', (ih hs' hp' hl.2).mp ht⟩
    · rintro ⟨hc, hcs⟩ t ht
      have hp' := (hP s e hs hp hl.1).mpr hc
      rcases mem_cons.mp ht with rfl | ht
      · exact hp
      · exact (ih hs' hp' hl.2).mpr hcs t ht

/-! ## Steps that leave the next state open -/

section Open

variable {next : ε → σ → σ → Prop}

/-- The run of the events may end in the second state. -/
inductive Reaches (next : ε → σ → σ → Prop) : σ → List ε → σ → Prop where
  | refl (s : σ) : Reaches next s [] s
  | step {s t u : σ} {e : ε} {es : List ε} :
    next e s t → Reaches next t es u → Reaches next s (e :: es) u

variable {es : List ε} {s t : σ}

theorem Reaches.append {u : σ} {es' : List ε} (h : Reaches next s es t) (h' : Reaches next t es' u) :
    Reaches next s (es ++ es') u := by
  induction h with
  | refl s => exact h'
  | step hn _ ih => exact .step hn (ih h')

theorem reaches_append_iff {u : σ} {es' : List ε} :
    Reaches next s (es ++ es') u ↔ ∃ t, Reaches next s es t ∧ Reaches next t es' u := by
  constructor
  · intro h
    induction es generalizing s with
    | nil => exact ⟨s, .refl s, h⟩
    | cons e es ih =>
      cases h with
      | step hn h =>
        obtain ⟨t, ht, hu⟩ := ih h
        exact ⟨t, .step hn ht, hu⟩
  · rintro ⟨t, ht, hu⟩
    exact ht.append hu

theorem reaches_singleton {e : ε} : Reaches next s [e] t ↔ next e s t := by
  constructor
  · rintro (_ | ⟨hn, h⟩)
    cases h
    exact hn
  · exact fun h => .step h (.refl t)

/-- An invariant that every step of the run preserves holds wherever it ends. -/
theorem Reaches.invariant {C : ε → Prop} {J : σ → Prop}
    (hstep : ∀ s t e, J s → C e → next e s t → J t) (h : Reaches next s es t) (hc : ∀ e ∈ es, C e)
    (hs : J s) : J t := by
  induction h with
  | refl s => exact hs
  | step hn _ ih =>
    exact ih (fun e he => hc e (mem_cons_of_mem _ he))
      (hstep _ _ _ hs (hc _ (mem_cons_self ..)) hn)

/-- Exactness for steps that leave the next state open: `P` holds wherever the run may
stand exactly when no event can be met in a state where `C` fails. `J` is what
every step keeps. -/
theorem reaches_iff {J P : σ → Prop} {C : σ → ε → Prop} (hJ : ∀ s t e, J s → next e s t → J t)
    (hstep : ∀ s e, J s → P s → ((∀ t, next e s t → P t) ↔ C s e)) (hj : J s) (hs : P s)
    (es : List ε) :
    (∀ es₁ es₂ t, es = es₁ ++ es₂ → Reaches next s es₁ t → P t) ↔
      ∀ es₁ e es₂ t, es = es₁ ++ e :: es₂ → Reaches next s es₁ t → C t e := by
  have hkept : ∀ es₁ t, Reaches next s es₁ t → J t := fun es₁ t ht =>
    ht.invariant (C := fun _ => True) (fun s t e h _ hn => hJ s t e h hn) (fun _ _ => trivial) hj
  constructor
  · intro h es₁ e es₂ t heq ht
    refine (hstep t e (hkept es₁ t ht) (h es₁ (e :: es₂) t heq ht)).mp fun u hu => ?_
    exact h (es₁ ++ [e]) es₂ u (by simp [heq]) (ht.append (reaches_singleton.mpr hu))
  · intro h es₁
    induction es₁ using List.reverseRecOn with
    | nil =>
      intro es₂ t _ ht
      cases ht
      exact hs
    | append_singleton es₁ e ih =>
      intro es₂ u heq hu
      obtain ⟨t, ht, hn⟩ := reaches_append_iff.mp hu
      have heq' : es = es₁ ++ e :: es₂ := by simp [heq]
      have hp := ih (e :: es₂) t heq' ht
      exact (hstep t e (hkept es₁ t ht) hp).mpr (h es₁ e es₂ t heq' ht) u
        (reaches_singleton.mp hn)

end Open

end Arcade.Lib
