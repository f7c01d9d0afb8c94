import Mathlib.Logic.Basic

/-!
Programs that work through calls.

A program either is done or makes a call and goes on with the reply. What a call
does, and how it may be answered, is left to an environment: an oracle stands for
everything that is open about one answer (a failure, a time, the reply of another
party), and the environment executes the call under it. The type of a call is the
type of its reply. A run ends when the program
is done, or earlier, between two calls, when the process dies.

`Always` is the rule for all runs at once: what every call does to the state, and what
holds at the end.
-/

namespace Arcade.Lib

open List

inductive Prog (Call : Type → Type 1) (α : Type) : Type 1 where
  | done (a : α)
  | call {ρ : Type} (c : Call ρ) (next : ρ → Prog Call α)

namespace Prog

variable {Call : Type → Type 1} {α β : Type}

def bind (f : α → Prog Call β) : Prog Call α → Prog Call β
  | .done a => f a
  | .call c next => .call c fun r => bind f (next r)

instance : Monad (Prog Call) where
  pure := .done
  bind p f := p.bind f

def send (c : Call α) : Prog Call α := .call c .done

/-- The loop that runs `f` on each element. -/
def each {γ : Type} (f : γ → Prog Call Unit) : List γ → Prog Call Unit
  | [] => pure ()
  | x :: xs => do
    f x
    each f xs

/-- Whatever the replies, the program makes only calls in `S`. -/
def Makes (S : (ρ : Type) → Call ρ → Prop) : Prog Call α → Prop
  | .done _ => True
  | .call c next => S _ c ∧ ∀ r, (next r).Makes S

variable {S S' : (ρ : Type) → Call ρ → Prop}

@[simp] theorem makes_pure (a : α) : (pure a : Prog Call α).Makes S := trivial

@[simp] theorem makes_send (c : Call α) : (send c).Makes S ↔ S α c :=
  and_iff_left fun _ => trivial

variable {p : Prog Call α} {f : α → Prog Call β} {P : α → Prop}

theorem Makes.send {c : Call α} (hc : S α c) : (send c).Makes S := (makes_send c).mpr hc

theorem Makes.bind (hp : p.Makes S) (hf : ∀ a, (f a).Makes S) : (p >>= f).Makes S := by
  induction p with
  | done a => exact hf a
  | call c next ih => exact ⟨hp.1, fun r => ih r (hp.2 r)⟩

theorem Makes.call {c : Call α} (hc : S α c) (hf : ∀ a, (f a).Makes S) :
    (Prog.send c >>= f).Makes S :=
  (Makes.send hc).bind hf

theorem makes_each {γ : Type} {f : γ → Prog Call Unit} {xs : List γ}
    (h : ∀ x ∈ xs, (f x).Makes S) : (each f xs).Makes S := by
  induction xs with
  | nil => trivial
  | cons x xs ih =>
    exact (h x (mem_cons_self ..)).bind fun _ => ih fun y hy => h y (mem_cons_of_mem _ hy)

theorem makes_any : p.Makes fun _ _ => True := by
  induction p with
  | done a => trivial
  | call c next ih => exact ⟨trivial, ih⟩

theorem Makes.imp (h : ∀ ρ c, S ρ c → S' ρ c) (hp : p.Makes S) : p.Makes S' := by
  induction p with
  | done a => trivial
  | call c next ih => exact ⟨h _ c hp.1, fun r => ih r (hp.2 r)⟩

/-- Whatever the replies, the result is in `Q`. -/
def Returns (Q : α → Prop) : Prog Call α → Prop
  | .done a => Q a
  | .call _ next => ∀ r, (next r).Returns Q

@[simp] theorem returns_pure {Q : α → Prop} (a : α) : (pure a : Prog Call α).Returns Q ↔ Q a :=
  Iff.rfl

theorem returns_any : p.Returns fun _ => True := by
  induction p with
  | done a => trivial
  | call c next ih => exact ih

theorem Returns.bind {Q : β → Prop} (hp : p.Returns P) (hf : ∀ a, P a → (f a).Returns Q) :
    (p >>= f).Returns Q := by
  induction p with
  | done a => exact hf a hp
  | call c next ih => exact fun r => ih r (hp r)

/-- The second part may rely on what the first returns. -/
theorem Makes.bind_returns (hp : p.Makes S) (hr : p.Returns P) (hf : ∀ a, P a → (f a).Makes S) :
    (p >>= f).Makes S := by
  induction p with
  | done a => exact hf a hr
  | call c next ih => exact ⟨hp.1, fun r => ih r (hp.2 r) (hr r)⟩

end Prog

/-- What the calls of a program do to the state `σ` under the oracles `Ω`. -/
structure Env (Call : Type → Type 1) (Ω σ : Type) where
  exec : {ρ : Type} → Ω → Call ρ → σ → ρ × σ
  /-- The call may be answered under the oracle in the state. -/
  ok : {ρ : Type} → σ → Call ρ → Ω → Prop

section Runs

variable {Call : Type → Type 1} {Ω σ α β ρ : Type} (E : Env Call Ω σ)

/-- The program may take the state `s` to the state `t`, with its result or, if it
died on the way, without one. -/
inductive Runs : Prog Call α → σ → Option α → σ → Prop where
  | done (a : α) (s : σ) : Runs (.done a) s (some a) s
  | died (p : Prog Call α) (s : σ) : Runs p s none s
  | call {ρ : Type} {c : Call ρ} {next : ρ → Prog Call α} {s t : σ} {out : Option α}
    (o : Ω) : E.ok s c o → Runs (next (E.exec o c s).1) (E.exec o c s).2 out t →
      Runs (.call c next) s out t

/-- Whatever the oracles say, each call goes from one state to the next along `R`, and `Q`
holds at the end. -/
def Always (R : σ → σ → Prop) (Q : α → σ → Prop) : Prog Call α → σ → Prop
  | .done a, s => Q a s
  | .call c next, s => ∀ o, E.ok s c o →
    R s (E.exec o c s).2 ∧ Always R Q (next (E.exec o c s).1) (E.exec o c s).2

/-- `I` holds after each call and at the end. -/
abbrev Keeps (I : σ → Prop) (p : Prog Call α) (s : σ) : Prop :=
  Always E (fun _ => I) (fun _ => I) p s

abbrev Yields (Q : α → σ → Prop) (p : Prog Call α) (s : σ) : Prop :=
  Always E (fun _ _ => True) Q p s

variable {E} {I : σ → Prop} {R : σ → σ → Prop} {Q : α → σ → Prop}

@[simp] theorem always_pure (a : α) (s : σ) :
    Always E R Q (pure a : Prog Call α) s ↔ Q a s := Iff.rfl

@[simp] theorem always_done (a : α) (s : σ) : Always E R Q (.done a) s ↔ Q a s := Iff.rfl

variable {p : Prog Call α} {f : α → Prog Call β} {s t : σ} {Q' : α → σ → Prop}

theorem always_bind {Q : β → σ → Prop} (s : σ) :
    Always E R Q (p >>= f) s ↔ Always E R (fun a => Always E R Q (f a)) p s := by
  induction p generalizing s with
  | done a => exact Iff.rfl
  | call c next ih =>
    refine forall_congr' fun o => forall_congr' fun _ => and_congr_right fun _ => ?_
    exact ih _ _

theorem always_of_forall (hR : ∀ s t, R s t) (hQ : ∀ a s, Q a s) (p : Prog Call α) (s : σ) :
    Always E R Q p s := by
  induction p generalizing s with
  | done a => exact hQ a s
  | call c next ih => exact fun o _ => ⟨hR _ _, ih _ _⟩

theorem Always.imp (hQ : ∀ a t, Q a t → Q' a t) (h : Always E R Q p s) : Always E R Q' p s := by
  induction p generalizing s with
  | done a => exact hQ a s h
  | call c next ih => exact fun o ho => ⟨(h o ho).1, ih _ (h o ho).2⟩

theorem Always.weaken {R' : σ → σ → Prop} (hR : ∀ s t, R s t → R' s t) (h : Always E R Q p s) :
    Always E R' Q p s := by
  induction p generalizing s with
  | done a => exact h
  | call c next ih => exact fun o ho => ⟨hR _ _ (h o ho).1, ih _ (h o ho).2⟩

theorem Always.and {R' : σ → σ → Prop} (h : Always E R Q p s) (h' : Always E R' Q' p s) :
    Always E (fun s t => R s t ∧ R' s t) (fun a t => Q a t ∧ Q' a t) p s := by
  induction p generalizing s with
  | done a => exact ⟨h, h'⟩
  | call c next ih =>
    exact fun o ho => ⟨⟨(h o ho).1, (h' o ho).1⟩, ih _ (h o ho).2 (h' o ho).2⟩

theorem Always.also (h : Always E R Q p s) (h' : Yields E Q' p s) :
    Always E R (fun a t => Q a t ∧ Q' a t) p s :=
  (h.and h').weaken fun _ _ hR => hR.1

theorem Always.bind {P : α → σ → Prop} {Q : β → σ → Prop} (hp : Always E R P p s)
    (hf : ∀ a t, P a t → Always E R Q (f a) t) : Always E R Q (p >>= f) s :=
  (always_bind s).mpr (hp.imp hf)

variable {S : (ρ : Type) → Call ρ → Prop}

theorem Always.of_makes_along (hcall : ∀ ρ (c : Call ρ) o s, S ρ c → I s → E.ok s c o →
      R s (E.exec o c s).2 ∧ I (E.exec o c s).2) (hp : p.Makes S) (hs : I s) :
    Always E R (fun _ => I) p s := by
  induction p generalizing s with
  | done a => exact hs
  | call c next ih =>
    intro o ho
    obtain ⟨hR, hI⟩ := hcall _ c o s hp.1 hs ho
    exact ⟨hR, ih _ (hp.2 _) hI⟩

theorem Always.of_makes
    (hcall : ∀ ρ (c : Call ρ) o s, S ρ c → I s → E.ok s c o → I (E.exec o c s).2) (hp : p.Makes S)
    (hs : I s) : Keeps E I p s :=
  Always.of_makes_along (fun ρ c o s hc h ho => ⟨hcall ρ c o s hc h ho, hcall ρ c o s hc h ho⟩) hp hs

theorem Always.run {out : Option α} (h : Always E (fun _ => I) Q p s) (hs : I s)
    (hrun : Runs E p s out t) (hQ : ∀ a t, Q a t → I t) :
    I t ∧ ∀ a, out = some a → Q a t := by
  induction hrun with
  | done a s => exact ⟨hQ a s h, by rintro _ ⟨⟩; exact h⟩
  | died p s => exact ⟨hs, nofun⟩
  | call o ho _ ih => exact ih (h o ho).2 (h o ho).1

theorem Keeps.run {out : Option α} (h : Keeps E I p s) (hs : I s) (hrun : Runs E p s out t) : I t :=
  (Always.run h hs hrun fun _ _ hI => hI).1

theorem Runs.bind {a : α} {u : σ} {out : Option β} (hp : Runs E p s (some a) t)
    (hf : Runs E (f a) t out u) :
    Runs E (p >>= f) s out u := by
  generalize hout : some a = out' at hp
  induction hp with
  | done a' s =>
    cases hout
    exact hf
  | died p s => cases hout
  | call o ho _ ih => exact .call o ho (ih hf hout)

theorem Runs.send {c : Call ρ} (o : Ω) (ho : E.ok s c o) :
    Runs E (Prog.send c) s (some (E.exec o c s).1) (E.exec o c s).2 :=
  .call o ho (.done _ _)

theorem Runs.bind_died (hp : Runs E p s none t) : Runs E (p >>= f) s none t := by
  generalize hout : none = out' at hp
  induction hp with
  | done a s => cases hout
  | died p s => exact .died _ _
  | call o ho _ ih => exact .call o ho (ih hout)

theorem Runs.bind_pure {γ : Type} {g : γ → α} {h : γ → β} {out : Option γ}
    (hp : Runs E p s (out.map g) t) (hf : ∀ a, f (g a) = pure (h a)) :
    Runs E (p >>= f) s (out.map h) t := by
  cases out with
  | none => exact hp.bind_died
  | some a => exact hp.bind (hf a ▸ .done (h a) t)

/-! ## Executing a program -/

/-- The run in which every call is answered under the same oracle. -/
def Prog.runWith (E : Env Call Ω σ) (o : Ω) : Prog Call α → σ → α × σ
  | .done a, s => (a, s)
  | .call c next, s => (next (E.exec o c s).1).runWith E o (E.exec o c s).2

@[simp] theorem runWith_pure (o : Ω) (a : α) (s : σ) :
    (pure a : Prog Call α).runWith E o s = (a, s) := rfl

@[simp] theorem runWith_send (o : Ω) (c : Call α) (s : σ) :
    (Prog.send c).runWith E o s = E.exec o c s := rfl

@[simp] theorem runWith_bind (o : Ω) (p : Prog Call α) (f : α → Prog Call β) (s : σ) :
    (p >>= f).runWith E o s = (f (p.runWith E o s).1).runWith E o (p.runWith E o s).2 := by
  induction p generalizing s with
  | done a => rfl
  | call c next ih => exact ih _ _

def Prog.callsWith (E : Env Call Ω σ) (o : Ω) : Prog Call α → σ → List (Sigma Call)
  | .done _, _ => []
  | .call c next, s => ⟨_, c⟩ :: (next (E.exec o c s).1).callsWith E o (E.exec o c s).2

@[simp] theorem callsWith_pure (o : Ω) (a : α) (s : σ) :
    (pure a : Prog Call α).callsWith E o s = [] := rfl

theorem callsWith_call (o : Ω) (c : Call ρ) (f : ρ → Prog Call α) (s : σ) :
    (Prog.send c >>= f).callsWith E o s =
      ⟨ρ, c⟩ :: (f (E.exec o c s).1).callsWith E o (E.exec o c s).2 := rfl

theorem callsWith_bind (o : Ω) (p : Prog Call α) (f : α → Prog Call β) (s : σ) :
    (p >>= f).callsWith E o s =
      p.callsWith E o s ++ (f (p.runWith E o s).1).callsWith E o (p.runWith E o s).2 := by
  induction p generalizing s with
  | done a => rfl
  | call c next ih => exact congrArg _ (ih _ _)

theorem Prog.Makes.of_mem_callsWith {o : Ω} {c : Call ρ} (hp : p.Makes S)
    (hc : ⟨ρ, c⟩ ∈ p.callsWith E o s) : S ρ c := by
  induction p generalizing s with
  | done a => cases hc
  | call c' next ih =>
    cases hc with
    | head => exact hp.1
    | tail _ hc => exact ih _ (hp.2 _) hc

theorem runs_runWith {o : Ω} (ho : ∀ (s : σ) (ρ : Type) (c : Call ρ), E.ok s c o)
    (p : Prog Call α) (s : σ) :
    Runs E p s (some (p.runWith E o s).1) (p.runWith E o s).2 := by
  induction p generalizing s with
  | done a => exact .done a s
  | call c next ih => exact .call o (ho s _ c) (ih _ _)

/-- The run in which the calls are answered under the oracles of a list; it dies
when they are used up. -/
def Prog.play (E : Env Call Ω σ) : Prog Call α → List Ω → σ → Option α × σ
  | .done a, _, s => (some a, s)
  | .call _ _, [], s => (none, s)
  | .call c next, o :: os, s => (next (E.exec o c s).1).play E os (E.exec o c s).2

/-- Every call of that run passes a check. -/
def Prog.playSafe (E : Env Call Ω σ) (safe : {ρ : Type} → σ → Call ρ → Ω → Bool) :
    Prog Call α → List Ω → σ → Bool
  | .done _, _, _ => true
  | .call _ _, [], _ => true
  | .call c next, o :: os, s =>
    safe s c o && (next (E.exec o c s).1).playSafe E safe os (E.exec o c s).2

theorem runs_play_safe {safe : {ρ : Type} → σ → Call ρ → Ω → Bool}
    (hsafe : ∀ (s : σ) (ρ : Type) (c : Call ρ) (o : Ω), safe s c o = true → E.ok s c o)
    {os : List Ω} (h : p.playSafe E safe os s = true) :
    Runs E p s (p.play E os s).1 (p.play E os s).2 := by
  induction p generalizing os s with
  | done a => exact .done a s
  | call c next ih =>
    cases os with
    | nil => exact .died _ s
    | cons o os =>
      rw [Prog.playSafe, Bool.and_eq_true] at h
      exact .call o (hsafe s _ c o h.1) (ih _ h.2)

theorem runs_play {os : List Ω} (hos : ∀ o ∈ os, ∀ (s : σ) (ρ : Type) (c : Call ρ), E.ok s c o)
    (p : Prog Call α) (s : σ) : Runs E p s (p.play E os s).1 (p.play E os s).2 := by
  induction p generalizing os s with
  | done a => exact .done a s
  | call c next ih =>
    cases os with
    | nil => exact .died _ s
    | cons o os =>
      exact .call o (hos o (mem_cons_self ..) s _ c)
        (ih _ (fun o ho => hos o (mem_cons_of_mem _ ho)) _)

end Runs

/-! ## Every moment of a program -/

section Process

variable {Call : Type → Type 1} {Ω σ α : Type}

/-- A process that waits for work, or is in the middle of a program. -/
inductive Process (Call : Type → Type 1) (α : Type) : Type 1 where
  | idle
  | running (rest : Prog Call α)

namespace Process

/-- One call, the end of the program, or the death of the process. -/
inductive Step (E : Env Call Ω σ) : Process Call α → σ → Process Call α → σ → Prop where
  | call {ρ : Type} {c : Call ρ} {next : ρ → Prog Call α} {s : σ} (o : Ω) : E.ok s c o →
    Step E (.running (.call c next)) s (.running (next (E.exec o c s).1)) (E.exec o c s).2
  | finish (a : α) (s : σ) : Step E (.running (.done a)) s .idle s
  | die (p : Prog Call α) (s : σ) : Step E (.running p) s .idle s

/-- What is still to come of the program goes along `R`. -/
def Follows (E : Env Call Ω σ) (R : σ → σ → Prop) : Process Call α → σ → Prop
  | .idle, _ => True
  | .running p, s => Always E R (fun _ _ => True) p s

theorem Step.follows {E : Env Call Ω σ} {R : σ → σ → Prop} {P P' : Process Call α} {s t : σ}
    (h : Step E P s P' t) (hP : P.Follows E R s) : (t = s ∨ R s t) ∧ P'.Follows E R t := by
  cases h with
  | call o ho => exact ⟨.inr (hP o ho).1, (hP o ho).2⟩
  | finish => exact ⟨.inl rfl, trivial⟩
  | die => exact ⟨.inl rfl, trivial⟩

end Process

end Process

end Arcade.Lib
