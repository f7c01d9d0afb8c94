import Arcade.Lib.Calls
import Mathlib.Logic.Relation

/-!
Several programs that share a state.

A pool is a list of programs, each at the point it has reached. In one step a program makes
its next call, a new program enters, or somebody else moves the state. The rule for a pool
is rely and guarantee: what every party keeps, `I`, and what every party moves along, `K`,
is all that a program may use about the others. `Env.among` is the environment in which a
program sees the others as that much interference, and the rule reduces a pool to its
programs one by one.
-/

namespace Arcade.Lib

open List

variable {Call : Type → Type 1} {Ω σ α : Type}

/-- Before each call others may have moved the state along `K`, to one where `I` holds. -/
def Env.among (E : Env Call Ω σ) (K : σ → σ → Prop) (I : σ → Prop) : Env Call (σ × Ω) σ where
  exec o c _ := E.exec o.2 c o.1
  ok s c o := K s o.1 ∧ I o.1 ∧ E.ok o.1 c o.2

section Among

variable {E : Env Call Ω σ} {K : σ → σ → Prop} {I : σ → Prop} {Q : α → σ → Prop}

theorem among_keeps {S : (ρ : Type) → Call ρ → Prop}
    (hcall : ∀ ρ (c : Call ρ) o s, S ρ c → I s → E.ok s c o →
      K s (E.exec o c s).2 ∧ I (E.exec o c s).2)
    {P : σ → Prop} (hP : ∀ s t, P s → K s t → P t) {p : Prog Call α} (hp : p.Makes S) {s : σ}
    (hs : P s) : Always (E.among K I) (fun _ => I) (fun _ => P) p s := by
  induction p generalizing s with
  | done a => exact hs
  | call c next ih =>
    rintro ⟨t, o⟩ ⟨hK, hI, ho⟩
    obtain ⟨hK', hI'⟩ := hcall _ c o t hp.1 hI ho
    exact ⟨hI', ih _ (hp.2 _) (hP _ _ (hP _ _ hs hK) hK')⟩

theorem Always.moved (htrans : ∀ s t u, K s t → K t u → K s u)
    (hQ : ∀ a s t, Q a s → K s t → Q a t) {p : Prog Call α} {s t : σ}
    (h : Always (E.among K I) (fun _ => I) Q p s) (hst : K s t) :
    Always (E.among K I) (fun _ => I) Q p t := by
  cases p with
  | done a => exact hQ a s t h hst
  | call c next =>
    rintro ⟨u, o⟩ ⟨hK, hI, ho⟩
    exact h (u, o) ⟨htrans _ _ _ hst hK, hI, ho⟩

end Among

/-! ## The calls of one program -/

/-- A call with the states around it and its reply. -/
structure CallAt (Call : Type → Type 1) (σ : Type) : Type 1 where
  {ρ : Type}
  call : Call ρ
  before : σ
  reply : ρ
  after : σ

/-- The calls a program makes when each finds the state that the others have left at that
moment. -/
def Prog.callsAt (E : Env Call Ω σ) : Prog Call α → (Nat → σ × Ω) → List (CallAt Call σ)
  | .done _, _ => []
  | .call c next, moments =>
    let (s, o) := moments 0
    ⟨c, s, (E.exec o c s).1, (E.exec o c s).2⟩ ::
      (next (E.exec o c s).1).callsAt E fun i => moments (i + 1)

namespace Pool

/-- The programs at the point they have reached, and the state they share. -/
abbrev Config (Call : Type → Type 1) (α σ : Type) := List (Prog Call α) × σ

inductive Step (E : Env Call Ω σ) (admits : Prog Call α → Prop) (other : σ → σ → Prop) :
    Config Call α σ → Config Call α σ → Prop where
  | call {progs : List (Prog Call α)} {s : σ} {i : Nat} {ρ : Type} {c : Call ρ}
    {next : ρ → Prog Call α} (o : Ω) : progs[i]? = some (.call c next) → E.ok s c o →
    Step E admits other (progs, s) (progs.set i (next (E.exec o c s).1), (E.exec o c s).2)
  | enter {progs : List (Prog Call α)} {s : σ} {p : Prog Call α} : admits p →
    Step E admits other (progs, s) (progs ++ [p], s)
  | other {progs : List (Prog Call α)} {s t : σ} : other s t →
    Step E admits other (progs, s) (progs, t)

/-- Any number of steps. -/
abbrev Reaches (E : Env Call Ω σ) (admits : Prog Call α → Prop) (other : σ → σ → Prop) :
    Config Call α σ → Config Call α σ → Prop :=
  Relation.ReflTransGen (Step E admits other)

variable {E : Env Call Ω σ} {admits : Prog Call α → Prop} {other : σ → σ → Prop}
  {K : σ → σ → Prop} {I : σ → Prop} {Q : α → σ → Prop}

/-- The invariant holds and every program is on a course that ends in `Q`. -/
def Holds (E : Env Call Ω σ) (K : σ → σ → Prop) (I : σ → Prop) (Q : α → σ → Prop)
    (C : Config Call α σ) : Prop :=
  I C.2 ∧ ∀ p ∈ C.1, Always (E.among K I) (fun _ => I) Q p C.2

/-- What the parties agree on. `K` is what any step does, and `Q` outlasts it; the others keep
`I`, and a program that enters is on its course whatever it finds. -/
structure Discipline (E : Env Call Ω σ) (admits : Prog Call α → Prop) (other : σ → σ → Prop)
    (K : σ → σ → Prop) (I : σ → Prop) (Q : α → σ → Prop) : Prop where
  refl : ∀ s, K s s
  trans : ∀ s t u, K s t → K t u → K s u
  outlasts : ∀ a s t, Q a s → K s t → Q a t
  call : ∀ ρ (c : Call ρ) o s, E.ok s c o → K s (E.exec o c s).2
  other : ∀ s t, I s → other s t → K s t ∧ I t
  enter : ∀ p, admits p → ∀ s, I s → Always (E.among K I) (fun _ => I) Q p s

theorem Step.holds (D : Discipline E admits other K I Q)
    {C C' : Config Call α σ} (h : Step E admits other C C') (hC : Holds E K I Q C) :
    Holds E K I Q C' := by
  obtain ⟨hI, hprogs⟩ := hC
  cases h with
  | @call progs s i ρ c next o hi ho =>
    obtain ⟨hI', hnext⟩ := hprogs _ (mem_of_getElem? hi) (s, o) ⟨D.refl s, hI, ho⟩
    refine ⟨hI', fun p hp => ?_⟩
    rcases mem_or_eq_of_mem_set hp with hp | rfl
    · exact (hprogs p hp).moved D.trans D.outlasts (D.call ρ c o s ho)
    · exact hnext
  | enter hp =>
    refine ⟨hI, fun p hp' => ?_⟩
    rcases mem_append.mp hp' with hp' | hp'
    · exact hprogs p hp'
    · obtain rfl := mem_singleton.mp hp'
      exact D.enter p hp _ hI
  | @other progs s t hst =>
    obtain ⟨hK, hI'⟩ := D.other s t hI hst
    exact ⟨hI', fun p hp => (hprogs p hp).moved D.trans D.outlasts hK⟩

/-- The rule for pools: a program that is done has its `Q`, now and later. -/
theorem Reaches.holds (D : Discipline E admits other K I Q)
    {C C' : Config Call α σ} (h : Reaches E admits other C C') (hC : Holds E K I Q C) :
    Holds E K I Q C' := by
  induction h with
  | refl => exact hC
  | tail _ hstep ih => exact hstep.holds D ih

/-- One program runs to its end while the others wait. -/
theorem reaches_play {os : List Ω} (hos : ∀ o ∈ os, ∀ (s : σ) (ρ : Type) (c : Call ρ), E.ok s c o)
    {p : Prog Call α} {progs : List (Prog Call α)} {i : Nat} (hi : progs[i]? = some p) {s t : σ}
    {a : α} (h : p.play E os s = (some a, t)) :
    Reaches E admits other (progs, s) (progs.set i (.done a), t) := by
  obtain ⟨hlt, hget⟩ := List.getElem?_eq_some_iff.mp hi
  induction p generalizing os s progs with
  | done a' =>
    obtain ⟨ha, rfl⟩ := Prod.mk.inj h
    obtain rfl := Option.some.inj ha
    rw [← hget, set_getElem_self]
  | call c next ih =>
    cases os with
    | nil => exact absurd (congrArg Prod.fst h) nofun
    | cons o os =>
      have hplayed := ih _ (fun o ho => hos o (mem_cons_of_mem _ ho))
        (getElem?_set_self hlt) h (by simpa using hlt) (getElem_set_self _)
      rw [set_set] at hplayed
      exact .head (.call o hi (hos o mem_cons_self s _ c)) hplayed

end Pool

end Arcade.Lib
