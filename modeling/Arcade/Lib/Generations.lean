import Mathlib.Data.List.Basic

/-!
Search by generations in an arbitrary graph. A round follows the links of what it finds for the
first time; what was found in an earlier round is not followed again. After `d` rounds everything
within `d` links has been found.
-/

namespace Arcade.Lib

open List

variable {κ : Type}

/-- Where a search starts, the links it follows, the nodes it may use and those it looks for. -/
structure Ancestry (κ : Type) where
  start : List κ
  links : κ → List κ
  usable : κ → Prop
  target : κ → Prop

namespace Ancestry

variable {G : Ancestry κ} {d : Nat} {frontier known new next : List κ}

/-- The ends of the paths of `k` links, the one into `start` included. -/
inductive At (G : Ancestry κ) : Nat → κ → Prop
  | start {a : κ} : a ∈ G.start → G.usable a → G.At 1 a
  | link {k : Nat} {a b : κ} : G.At k a → b ∈ G.links a → G.usable b → G.At (k + 1) b

theorem At.usable {k : Nat} {a : κ} (h : G.At k a) : 1 ≤ k ∧ G.usable a := by
  cases h with
  | start _ hok => exact ⟨Nat.le_refl 1, hok⟩
  | link _ _ hok => exact ⟨by omega, hok⟩

/-- A node at the end of a path of at most `n` links that is looked for, and none is nearer. -/
def Nearest (G : Ancestry κ) (n : Nat) (a : κ) : Prop :=
  ∃ k, 1 ≤ k ∧ k ≤ n ∧ G.At k a ∧ G.target a ∧ ∀ j b, G.At j b → G.target b → k ≤ j

/-- A round adds the usable nodes of `frontier`; `next` is what they link to. -/
structure Round (G : Ancestry κ) (frontier known new next : List κ) : Prop where
  mem : ∀ a ∈ new, a ∈ frontier ∧ G.usable a
  all : ∀ a ∈ frontier, G.usable a → a ∈ known ++ new
  next : next = new.flatMap G.links
  miss : ∀ a ∈ new, ¬ G.target a

theorem Round.nil : G.Round [] known [] [] := by
  constructor <;> simp

theorem Round.skip {a : κ} (h : G.usable a → a ∈ known) (R : G.Round frontier known new next) :
    G.Round (a :: frontier) known new next := by
  refine ⟨fun b hb => ⟨.tail a (R.mem b hb).1, (R.mem b hb).2⟩, ?_, R.next, R.miss⟩
  rintro b (_ | ⟨_, hb⟩) hok
  · exact mem_append_left _ (h hok)
  · exact R.all b hb hok

theorem Round.visit {a : κ} (hok : G.usable a) (ht : ¬ G.target a)
    (R : G.Round frontier (known ++ [a]) new next) :
    G.Round (a :: frontier) known (a :: new) (G.links a ++ next) := by
  refine ⟨?_, ?_, by rw [R.next, flatMap_cons], ?_⟩
  · rintro b (_ | ⟨_, hb⟩)
    · exact ⟨.head _, hok⟩
    · exact ⟨.tail a (R.mem b hb).1, (R.mem b hb).2⟩
  · rintro b (_ | ⟨_, hb⟩) hb'
    · simp
    · simpa using R.all b hb hb'
  · rintro b (_ | ⟨_, hb⟩)
    · exact ht
    · exact R.miss b hb

/-- After `d` rounds, before that of `frontier`. -/
structure Searched (G : Ancestry κ) (d : Nat) (frontier known : List κ) : Prop where
  seen : ∀ a ∈ known, ¬ G.target a ∧ ∃ k ≤ d, G.At k a
  within : ∀ k ≤ d, ∀ a, G.At k a → a ∈ known
  next : ∀ a ∈ frontier, G.usable a → G.At (d + 1) a
  ahead : ∀ a, G.At (d + 1) a → a ∈ frontier ∨ a ∈ known

theorem searched_start (G : Ancestry κ) : G.Searched 0 G.start [] := by
  refine ⟨by simp, ?_, fun a ha hok => .start ha hok, ?_⟩
  · intro k hk a h
    have := h.usable.1
    omega
  · intro a h
    cases h with
    | start ha _ => exact .inl ha
    | link h _ _ => exact absurd h.usable.1 (by omega)

section

variable (S : G.Searched d frontier known)
include S

theorem Searched.round (R : G.Round frontier known new next) :
    G.Searched (d + 1) next (known ++ new) := by
  have hnew : ∀ a ∈ new, G.At (d + 1) a := fun a ha => S.next a (R.mem a ha).1 (R.mem a ha).2
  have hwithin : ∀ k ≤ d + 1, ∀ a, G.At k a → a ∈ known ++ new := by
    intro k hk a h
    rcases Nat.le_succ_iff.mp hk with hk | rfl
    · exact mem_append_left _ (S.within k hk a h)
    · rcases S.ahead a h with hin | hin
      · exact R.all a hin h.usable.2
      · exact mem_append_left _ hin
  refine ⟨?_, hwithin, ?_, ?_⟩
  · intro a ha
    rcases mem_append.mp ha with ha | ha
    · obtain ⟨hno, k, hk, h⟩ := S.seen a ha
      exact ⟨hno, k, by omega, h⟩
    · exact ⟨R.miss a ha, d + 1, Nat.le_refl _, hnew a ha⟩
  · intro b hb hok
    obtain ⟨a, ha, hb⟩ := mem_flatMap.mp (R.next ▸ hb)
    exact .link (hnew a ha) hb hok
  · rintro b (_ | ⟨h, hb, hok⟩)
    rename_i a
    -- the node before is new in this round, or its links were followed earlier
    rcases mem_append.mp (hwithin (d + 1) (Nat.le_refl _) a h) with ha | ha
    · obtain ⟨-, k, hk, h'⟩ := S.seen a ha
      exact .inr (hwithin (k + 1) (by omega) b (.link h' hb hok))
    · exact .inl (R.next ▸ mem_flatMap.mpr ⟨a, ha, hb⟩)

theorem Searched.nearest {a : κ} (ha : a ∈ frontier)
    (hok : G.usable a) (ht : G.target a) {n : Nat} (hn : d < n) : G.Nearest n a := by
  refine ⟨d + 1, by omega, hn, S.next a ha hok, ht, fun j b hb htb => ?_⟩
  by_contra hlt
  exact (S.seen b (S.within j (by omega) b hb)).1 htb

theorem Searched.missed {k : Nat} (hk : k ≤ d) {a : κ} (h : G.At k a) : ¬ G.target a :=
  (S.seen a (S.within k hk a h)).1

end

end Ancestry

end Arcade.Lib
