import Mathlib.Data.Fintype.Card

/-!
Union-find over `n` elements, with path halving and union by size.

The parents form a forest, which the structure carries as a rank that falls along every
edge. The root of an element is where `n` steps lead; it is determined by two equations
(`root_unique`), and every operation is specified by what it does to the roots.
-/

namespace Arcade.Lib

/-- The `parent` and `size` slices; a root is its own parent. -/
structure UnionFind (n : Nat) where
  parent : Fin n → Fin n
  size : Fin n → Nat
  ranked : ∃ rank : Fin n → Nat, ∀ i, parent i ≠ i → rank (parent i) < rank i

namespace UnionFind

variable {n : Nat}

theorem rank_parent_le {parent : Fin n → Fin n} {rank : Fin n → Nat}
    (h : ∀ i, parent i ≠ i → rank (parent i) < rank i) (i : Fin n) : rank (parent i) ≤ rank i := by
  by_cases hi : parent i = i
  · rw [hi]
  · exact (h i hi).le

def singletons (n : Nat) : UnionFind n where
  parent i := i
  size _ := 1
  ranked := ⟨fun _ => 0, fun _ h => absurd rfl h⟩

/-! ## Roots -/

variable (uf : UnionFind n) {ra rb : Fin n} (a : Fin n)

/-- The rank may be taken below `n`: count the elements of smaller rank. -/
theorem ranked_lt : ∃ rank : Fin n → Nat,
    (∀ i, uf.parent i ≠ i → rank (uf.parent i) < rank i) ∧ ∀ i, rank i < n := by
  obtain ⟨rank, hrank⟩ := uf.ranked
  refine ⟨fun i => (Finset.univ.filter fun j => rank j < rank i).card, fun i hi => ?_, fun i => ?_⟩
  · apply Finset.card_lt_card
    rw [Finset.ssubset_iff_of_subset]
    · exact ⟨uf.parent i, by simpa using hrank i hi, by simp⟩
    · intro j hj
      rw [Finset.mem_filter] at hj ⊢
      exact ⟨hj.1, hj.2.trans (hrank i hi)⟩
  · calc (Finset.univ.filter fun j => rank j < rank i).card
        < (Finset.univ : Finset (Fin n)).card := by
          apply Finset.card_lt_card
          rw [Finset.filter_ssubset]
          exact ⟨i, Finset.mem_univ i, lt_irrefl _⟩
      _ = n := by simp

def root (uf : UnionFind n) (i : Fin n) : Fin n := uf.parent^[n] i

theorem iterate_parent_of_root {uf : UnionFind n} {i : Fin n} (h : uf.parent i = i) (k : Nat) :
    uf.parent^[k] i = i := Function.iterate_fixed h k

variable (i : Fin n)

theorem parent_root : uf.parent (uf.root i) = uf.root i := by
  obtain ⟨rank, hrank, hlt⟩ := uf.ranked_lt
  -- As long as no root is reached, each step costs one rank.
  have hstep : ∀ k (i : Fin n), rank i < k → uf.parent (uf.parent^[k] i) = uf.parent^[k] i := by
    intro k
    induction k with
    | zero => exact fun i h => absurd h (Nat.not_lt_zero _)
    | succ k ih =>
      intro i h
      by_cases hi : uf.parent i = i
      · rw [iterate_parent_of_root hi, hi]
      · exact ih _ (by have := hrank i hi; omega)
  exact hstep n i (hlt i)

theorem root_parent : uf.root (uf.parent i) = uf.root i := by
  have h : uf.parent^[n] (uf.parent i) = uf.parent (uf.parent^[n] i) := by
    rw [← Function.iterate_succ_apply, Function.iterate_succ_apply']
  exact h.trans (uf.parent_root i)

theorem root_of_parent {uf : UnionFind n} {i : Fin n} (h : uf.parent i = i) : uf.root i = i :=
  iterate_parent_of_root h n

theorem root_unique {uf : UnionFind n} {f : Fin n → Fin n} (hedge : ∀ i, f (uf.parent i) = f i)
    (hroot : ∀ i, uf.parent i = i → f i = i) (i : Fin n) : uf.root i = f i := by
  have hiter : ∀ k (i : Fin n), f (uf.parent^[k] i) = f i := by
    intro k
    induction k with
    | zero => exact fun _ => rfl
    | succ k ih => exact fun i => by rw [Function.iterate_succ_apply, ih, hedge]
  rw [← hiter n i]
  exact (hroot _ (uf.parent_root i)).symm

/-! ## Operations -/

/-- `parent[i] = parent[parent[i]]`. -/
def halve (uf : UnionFind n) (i : Fin n) : UnionFind n where
  parent := Function.update uf.parent i (uf.parent (uf.parent i))
  size := uf.size
  ranked := by
    obtain ⟨rank, hrank⟩ := uf.ranked
    refine ⟨rank, fun j hj => ?_⟩
    by_cases hji : j = i
    · subst hji
      rw [Function.update_self] at hj ⊢
      by_cases hp : uf.parent j = j
      · rw [hp, hp] at hj
        exact absurd rfl hj
      · exact (rank_parent_le hrank _).trans_lt (hrank j hp)
    · rw [Function.update_of_ne hji] at hj ⊢
      exact hrank j hj

@[simp] theorem halve_parent_self :
    (uf.halve i).parent i = uf.parent (uf.parent i) := Function.update_self ..

theorem halve_parent_of_ne {i j : Fin n} (h : j ≠ i) :
    (uf.halve i).parent j = uf.parent j := Function.update_of_ne h ..

@[simp] theorem root_halve (i j : Fin n) : (uf.halve i).root j = uf.root j := by
  apply root_unique
  · intro k
    by_cases hk : k = i
    · subst hk
      rw [halve_parent_self, root_parent, root_parent]
    · rw [halve_parent_of_ne uf hk, root_parent]
  · intro k hk
    by_cases hki : k = i
    · subst hki
      rw [halve_parent_self] at hk
      -- An element that is its grandparent is a root, or the rank would fall twice.
      obtain ⟨rank, hrank⟩ := uf.ranked
      by_cases hp : uf.parent k = k
      · exact root_of_parent hp
      · have h₁ := hrank k hp
        have h₂ := hrank (uf.parent k) (by rw [hk]; exact fun h => hp h.symm)
        rw [hk] at h₂
        omega
    · rw [halve_parent_of_ne uf hki] at hk
      exact root_of_parent hk

/-- The loop of `find`, with the root it ends at; `fuel` bounds its rounds. -/
def findLoop : Nat → UnionFind n → Fin n → Fin n × UnionFind n
  | 0, uf, i => (i, uf)
  | fuel + 1, uf, i =>
    if uf.parent i = i then (i, uf)
    else findLoop fuel (uf.halve i) ((uf.halve i).parent i)

def find (uf : UnionFind n) (i : Fin n) : Fin n × UnionFind n := findLoop n uf i

@[simp] theorem root_findLoop (fuel : Nat) (uf : UnionFind n) (i j : Fin n) :
    (findLoop fuel uf i).2.root j = uf.root j := by
  induction fuel generalizing uf i with
  | zero => rfl
  | succ fuel ih =>
    rw [findLoop]
    split
    · rfl
    · rw [ih, root_halve]

theorem findLoop_eq_root {rank : Fin n → Nat} {fuel : Nat} {uf : UnionFind n} {i : Fin n}
    (hrank : ∀ i, uf.parent i ≠ i → rank (uf.parent i) < rank i) (hi : rank i < fuel) :
    (findLoop fuel uf i).1 = uf.root i := by
  induction fuel generalizing uf i with
  | zero => exact absurd hi (Nat.not_lt_zero _)
  | succ fuel ih =>
    rw [findLoop]
    split
    · rename_i hp
      exact (root_of_parent hp).symm
    · rename_i hp
      have hlt : rank (uf.parent (uf.parent i)) < rank i :=
        (rank_parent_le hrank _).trans_lt (hrank i hp)
      have hhalved : ∀ j, (uf.halve i).parent j ≠ j → rank ((uf.halve i).parent j) < rank j := by
        intro j hj
        by_cases hji : j = i
        · subst hji
          rwa [halve_parent_self]
        · rw [halve_parent_of_ne uf hji] at hj ⊢
          exact hrank j hj
      rw [ih hhalved (by rw [halve_parent_self]; omega), root_halve, halve_parent_self,
        root_parent, root_parent]

@[simp] theorem find_fst : (uf.find i).1 = uf.root i := by
  obtain ⟨rank, hrank, hlt⟩ := uf.ranked_lt
  exact findLoop_eq_root hrank (hlt i)

@[simp] theorem root_find (i j : Fin n) : (uf.find i).2.root j = uf.root j :=
  root_findLoop n uf i j

/-- `parent[rb] = ra; size[ra] += size[rb]`, for the root `ra` of another tree. -/
def link (uf : UnionFind n) (ra rb : Fin n) (hra : uf.parent ra = ra) (hne : ra ≠ rb) :
    UnionFind n where
  parent := Function.update uf.parent rb ra
  size := Function.update uf.size ra (uf.size ra + uf.size rb)
  ranked := by
    obtain ⟨rank, hrank⟩ := uf.ranked
    refine ⟨fun i => if i = ra then 0 else rank i + 1, fun i hi => ?_⟩
    by_cases hib : i = rb
    · subst hib
      simp [hne.symm]
    · rw [Function.update_of_ne hib] at hi ⊢
      have hia : i ≠ ra := by
        rintro rfl
        exact hi hra
      simp only [if_neg hia]
      split
      · exact Nat.succ_pos _
      · exact Nat.succ_lt_succ (hrank i hi)

@[simp] theorem link_parent_self (hra : uf.parent ra = ra) (hne : ra ≠ rb) :
    (uf.link ra rb hra hne).parent rb = ra := Function.update_self ..

theorem link_parent_of_ne {i : Fin n} (hra : uf.parent ra = ra) (hne : ra ≠ rb) (h : i ≠ rb) :
    (uf.link ra rb hra hne).parent i = uf.parent i :=
  Function.update_of_ne h ..

theorem root_link {uf : UnionFind n} (hra : uf.parent ra = ra) (hrb : uf.parent rb = rb)
    (hne : ra ≠ rb) (i : Fin n) :
    (uf.link ra rb hra hne).root i = if uf.root i = rb then ra else uf.root i := by
  refine root_unique (f := fun i => if uf.root i = rb then ra else uf.root i) ?_ ?_ i
  · intro j
    by_cases hj : j = rb
    · subst hj
      simp [root_of_parent hra, root_of_parent hrb, hne]
    · simp only [link_parent_of_ne uf hra hne hj, root_parent]
  · intro j hj
    by_cases hjb : j = rb
    · subst hjb
      rw [link_parent_self] at hj
      exact absurd hj hne
    · rw [link_parent_of_ne uf hra hne hjb] at hj
      simp only [root_of_parent hj, if_neg hjb]

theorem parent_find_find (b : Fin n) :
    ((uf.find a).2.find b).2.parent (uf.find a).1 = (uf.find a).1 := by
  rw [find_fst, ← root_find uf a, ← root_find _ b]
  exact parent_root _ _

theorem parent_find (b : Fin n) : (uf.find b).2.parent (uf.find b).1 = (uf.find b).1 := by
  rw [find_fst, ← root_find uf b]
  exact parent_root _ _

/-- The smaller tree goes under the root of the larger. -/
def union (uf : UnionFind n) (a b : Fin n) : UnionFind n :=
  let fa := uf.find a
  let fb := fa.2.find b
  if h : fa.1 = fb.1 then fb.2
  else if fb.2.size fa.1 < fb.2.size fb.1 then
    fb.2.link fb.1 fa.1 (parent_find _ _) (Ne.symm h)
  else fb.2.link fa.1 fb.1 (parent_find_find _ _ _) h

/-! ## Families -/

def Same (uf : UnionFind n) (i j : Fin n) : Prop := uf.root i = uf.root j

@[simp] theorem same_find (k i j : Fin n) : (uf.find k).2.Same i j ↔ uf.Same i j := by
  simp [Same]

theorem same_union_iff (b i j : Fin n) : (uf.union a b).Same i j ↔
      uf.Same i j ∨ (uf.Same i a ∧ uf.Same j b) ∨ (uf.Same i b ∧ uf.Same j a) := by
  simp only [union]
  split
  · rename_i h
    rw [find_fst, find_fst, root_find] at h
    simp only [same_find]
    unfold Same
    grind
  · rename_i h
    split
    · unfold Same
      rw [root_link _ (parent_find_find _ _ _), root_link _ (parent_find_find _ _ _)]
      simp only [root_find, find_fst] at h ⊢
      grind
    · unfold Same
      rw [root_link _ (parent_find _ _), root_link _ (parent_find _ _)]
      simp only [root_find, find_fst] at h ⊢
      grind

theorem same_union (b : Fin n) : (uf.union a b).Same a b :=
  (same_union_iff ..).mpr (.inr (.inl ⟨rfl, rfl⟩))

theorem Same.union {uf : UnionFind n} {i j : Fin n} (h : uf.Same i j) (a b : Fin n) :
    (uf.union a b).Same i j := (same_union_iff ..).mpr (.inl h)

theorem same_union_le {uf : UnionFind n} {a b : Fin n} {R : Fin n → Fin n → Prop}
    (hR : Equivalence R) (h : ∀ i j, uf.Same i j → R i j) (hab : R a b) (i j : Fin n)
    (hij : (uf.union a b).Same i j) : R i j := by
  rcases (same_union_iff ..).mp hij with hij | ⟨hi, hj⟩ | ⟨hi, hj⟩
  · exact h i j hij
  · exact hR.trans (h i a hi) (hR.trans hab (hR.symm (h j b hj)))
  · exact hR.trans (h i b hi) (hR.trans (hR.symm hab) (hR.symm (h j a hj)))

end UnionFind

end Arcade.Lib
