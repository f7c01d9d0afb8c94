import Mathlib.Data.List.Basic
import Mathlib.Logic.Relation

/-!
Depths in a graph by a memoized depth-first search. The depth of a node is one more than the
greatest depth among the nodes it points at, and 0 without any; a node that is met while it is
itself being resolved counts as 0, so the search ends on every graph. Two nodes that an edge joins
get different depths even on a cycle, and off the cycles the edge goes down.
-/

namespace Arcade.Lib

open List

inductive Mark where
  | unvisited
  | inProgress
  | done (depth : Nat)
  deriving DecidableEq

namespace Depths

variable {ν : Type}

abbrev Memo (ν : Type) := ν → Mark

/-- The depth of a node, with the marks after it is found; `none` if the fuel runs out. -/
def resolve [DecidableEq ν] (next : ν → List ν) : Nat → Memo ν → ν → Option (Nat × Memo ν)
  | 0, _, _ => none
  | fuel + 1, memo, i =>
    match memo i with
    | .done depth => some (depth, memo)
    | .inProgress => some (0, memo)
    | .unvisited => do
      let (best, memo') ← (next i).foldlM (fun (acc : Nat × Memo ν) j => do
        let (d, memo') ← resolve next fuel acc.2 j
        return (max acc.1 (d + 1), memo')) (0, Function.update memo i .inProgress)
      return (best, Function.update memo' i (.done best))

/-- The greatest depth among the nodes, with all marks. -/
def resolveAll [DecidableEq ν] (next : ν → List ν) (fuel : Nat) (nodes : List ν) :
    Option (Nat × Memo ν) :=
  nodes.foldlM (fun (acc : Nat × Memo ν) i => do
    let (d, memo) ← resolve next fuel acc.2 i
    return (max acc.1 d, memo)) (0, fun _ => .unvisited)

abbrev Path (next : ν → List ν) : ν → ν → Prop := Relation.ReflTransGen fun i j => j ∈ next i

/-! ## What a part of the search does -/

/-- From `memo` to `memo'` some nodes were resolved, with depths below `top` and all with `R`. An
edge from one of them leads to a node that is still being resolved, or to a resolved one of another
depth; a deeper one has a path back. -/
structure Grows (next : ν → List ν) (top : Nat) (R : ν → Prop) (memo memo' : Memo ν) : Prop where
  kept : ∀ k d, memo k = .done d → memo' k = .done d
  stack : ∀ k, memo' k = .inProgress ↔ memo k = .inProgress
  fresh : ∀ k d, memo k = .unvisited → memo' k = .done d → d < top ∧ R k ∧
    ∀ j ∈ next k, memo j = .inProgress ∨ ∃ e, memo' j = .done e ∧ (e < d ∨ d < e ∧ Path next j k)

variable {next : ν → List ν} {top top' : Nat} {R R' : ν → Prop} {memo memo₁ memo₂ : Memo ν}

theorem Grows.refl (memo : Memo ν) : Grows next top R memo memo where
  kept _ _ h := h
  stack _ := Iff.rfl
  fresh k d h h' := by simp [h] at h'

theorem Grows.mono (h : Grows next top R memo memo₁) (htop : top ≤ top')
    (hR : ∀ k, R k → R' k) : Grows next top' R' memo memo₁ where
  kept := h.kept
  stack := h.stack
  fresh k d hk hd := by
    obtain ⟨hlt, hr, hnext⟩ := h.fresh k d hk hd
    exact ⟨Nat.lt_of_lt_of_le hlt htop, hR k hr, hnext⟩

theorem Grows.trans (h₁ : Grows next top R memo memo₁) (h₂ : Grows next top R memo₁ memo₂) :
    Grows next top R memo memo₂ where
  kept k d hk := h₂.kept k d (h₁.kept k d hk)
  stack k := (h₂.stack k).trans (h₁.stack k)
  fresh k d hk hd := by
    cases hmid : memo₁ k with
    | unvisited =>
      obtain ⟨hlt, hr, hnext⟩ := h₂.fresh k d hmid hd
      refine ⟨hlt, hr, ?_⟩
      intro j hj
      rcases hnext j hj with hstack | hdone
      · exact .inl ((h₁.stack j).mp hstack)
      · exact .inr hdone
    | inProgress => simp [(h₁.stack k).mp hmid] at hk
    | done d' =>
      obtain rfl : d' = d := by simpa [h₂.kept k d' hmid] using hd
      obtain ⟨hlt, hr, hnext⟩ := h₁.fresh k d' hk hmid
      refine ⟨hlt, hr, ?_⟩
      intro j hj
      rcases hnext j hj with hstack | ⟨e, he, horder⟩
      · exact .inl hstack
      · exact .inr ⟨e, h₂.kept j e he, horder⟩

theorem Grows.unvisited (h : Grows next top R memo memo₁) {k : ν} (hk : memo₁ k = .unvisited) :
    memo k = .unvisited := by
  cases hm : memo k with
  | unvisited => rfl
  | inProgress => simp [(h.stack k).mpr hm] at hk
  | done d => simp [h.kept k d hm] at hk

def left (nodes : List ν) (memo : Memo ν) : Nat := nodes.countP fun k => memo k = .unvisited

theorem left_mono (nodes : List ν) (h : ∀ k, memo₁ k = .unvisited → memo k = .unvisited) :
    left nodes memo₁ ≤ left nodes memo := by
  refine countP_mono_left ?_
  intro k _ hk
  simpa using h k (by simpa using hk)

variable [DecidableEq ν]

theorem Grows.close {i : ν} {best : Nat} (hi : memo i = .unvisited) (hself : i ∉ next i)
    (h : Grows next best (Path next i) (Function.update memo i .inProgress) memo₁)
    (hnext : ∀ j ∈ next i, memo j = .inProgress ∨ ∃ e, memo₁ j = .done e ∧ e < best) :
    Grows next (best + 1) (Path next i) memo (Function.update memo₁ i (.done best)) := by
  have hopen : memo₁ i = .inProgress := (h.stack i).mpr (by simp)
  have hne : ∀ j e, memo₁ j = .done e → j ≠ i := by
    rintro j e he rfl
    simp [hopen] at he
  refine ⟨?_, ?_, ?_⟩
  · intro k d hk
    have hki : k ≠ i := by
      rintro rfl
      simp [hi] at hk
    rw [Function.update_of_ne hki]
    exact h.kept k d (by rwa [Function.update_of_ne hki])
  · intro k
    by_cases hki : k = i
    · subst hki
      simp [hi]
    · rw [Function.update_of_ne hki, h.stack k, Function.update_of_ne hki]
  · intro k d hk hd
    by_cases hki : k = i
    · subst hki
      obtain rfl : best = d := by simpa using hd
      refine ⟨by omega, .refl, ?_⟩
      intro j hj
      rcases hnext j hj with hstack | ⟨e, he, hlt⟩
      · exact .inl hstack
      · exact .inr ⟨e, by rwa [Function.update_of_ne (hne j e he)], .inl hlt⟩
    · rw [Function.update_of_ne hki] at hd
      obtain ⟨hlt, hpath, hedges⟩ := h.fresh k d (by rwa [Function.update_of_ne hki]) hd
      refine ⟨by omega, hpath, ?_⟩
      intro j hj
      rcases hedges j hj with hstack | ⟨e, he, horder⟩
      · by_cases hji : j = i
        · subst hji
          exact .inr ⟨best, by simp, .inr ⟨hlt, hpath⟩⟩
        · exact .inl (by rwa [Function.update_of_ne hji] at hstack)
      · exact .inr ⟨e, by rwa [Function.update_of_ne (hne j e he)], horder⟩

/-! ## The search ends -/

theorem left_update_lt {nodes : List ν} {i : ν} (hmem : i ∈ nodes) (hi : memo i = .unvisited) :
    left nodes (Function.update memo i .inProgress) < left nodes memo := by
  induction nodes with
  | nil => cases hmem
  | cons k nodes ih =>
    have hle : left nodes (Function.update memo i .inProgress) ≤ left nodes memo := by
      refine left_mono nodes ?_
      intro k hk
      by_cases hki : k = i
      · rw [hki, hi]
      · rwa [Function.update_of_ne hki] at hk
    unfold left at hle ih ⊢
    by_cases hki : k = i
    · subst hki
      simp only [countP_cons, Function.update_self, hi]
      simpa using Nat.lt_succ_of_le hle
    · have hmem' : i ∈ nodes := (mem_cons.mp hmem).resolve_left (Ne.symm hki)
      have hlt := ih hmem'
      simp only [countP_cons, Function.update_of_ne hki]
      omega

/-- A node is resolved, given more fuel than there are unvisited nodes. -/
def Resolved (next : ν → List ν) (memo : Memo ν) (i : ν) (r : Nat × Memo ν) : Prop :=
  Grows next (r.1 + 1) (Path next i) memo r.2 ∧ (memo i = .inProgress ∨ r.2 i = .done r.1)

section Ends

variable {nodes : List ν} (hclosed : ∀ i ∈ nodes, ∀ j ∈ next i, j ∈ nodes)
  (hself : ∀ i, i ∉ next i)

/-- A loop over nodes that are resolved one after the other; `up` is what an edge adds. -/
theorem exists_loop {fuel : Nat}
    (ih : ∀ (memo : Memo ν) (i : ν), i ∈ nodes → left nodes memo < fuel →
      ∃ r, resolve next fuel memo i = some r ∧ Resolved next memo i r)
    (up : Nat) {js : List ν} (hjs : ∀ j ∈ js, j ∈ nodes) (hR : ∀ j ∈ js, ∀ k, Path next j k → R k)
    (best : Nat) (memo : Memo ν) (hfuel : left nodes memo < fuel) :
    ∃ r, js.foldlM (fun (acc : Nat × Memo ν) j => do
        let (d, memo') ← resolve next fuel acc.2 j
        return (max acc.1 (d + up), memo')) (best, memo) = some r ∧
      best ≤ r.1 ∧ (∀ top, r.1 + 1 ≤ top + up → Grows next top R memo r.2) ∧
      ∀ j ∈ js, memo j = .inProgress ∨ ∃ e, r.2 j = .done e ∧ e + up ≤ r.1 := by
  induction js generalizing best memo with
  | nil => exact ⟨(best, memo), rfl, Nat.le_refl best, fun _ _ => .refl memo, by simp⟩
  | cons j js ihjs =>
    obtain ⟨⟨d, memo₁⟩, hres, hgrows, hd⟩ := ih memo j (hjs j mem_cons_self) hfuel
    obtain ⟨⟨best', memo₂⟩, hloop, hbest, hgrows', hrest⟩ := ihjs
      (fun j' hj' => hjs j' (mem_cons_of_mem _ hj')) (fun j' hj' => hR j' (mem_cons_of_mem _ hj'))
      (max best (d + up)) memo₁
      (Nat.lt_of_le_of_lt (left_mono nodes fun k hk => hgrows.unvisited hk) hfuel)
    refine ⟨(best', memo₂), ?_, by omega, fun top htop => ?_, fun j' hj' => ?_⟩
    · rw [foldlM_cons, hres]
      exact hloop
    · exact (hgrows.mono (by dsimp only at htop; omega) (hR j mem_cons_self)).trans
        (hgrows' top htop)
    · rcases mem_cons.mp hj' with rfl | hj'
      · have hkept := (hgrows' (best' + 1) (by omega)).kept j' d
        exact hd.imp id fun hdone => ⟨d, hkept hdone, by omega⟩
      · exact (hrest j' hj').imp (hgrows.stack j').mp id

include hclosed hself

theorem exists_resolve (fuel : Nat) (memo : Memo ν) {i : ν} (hi : i ∈ nodes)
    (hfuel : left nodes memo < fuel) :
    ∃ r, resolve next fuel memo i = some r ∧ Resolved next memo i r := by
  induction fuel generalizing memo i with
  | zero => omega
  | succ fuel ih =>
    cases hmark : memo i with
    | done d => exact ⟨(d, memo), by simp [resolve, hmark], .refl memo, .inr hmark⟩
    | inProgress => exact ⟨(0, memo), by simp [resolve, hmark], .refl memo, .inl hmark⟩
    | unvisited =>
      have hlt : left nodes (Function.update memo i .inProgress) < fuel :=
        Nat.lt_of_lt_of_le (left_update_lt hi hmark) (Nat.le_of_lt_succ hfuel)
      obtain ⟨⟨best, memo₁⟩, hloop, -, hgrows, hnext⟩ :=
        exists_loop (R := Path next i) (fun memo i hi hf => ih memo hi hf) 1 (hclosed i hi)
          (fun j hj k hk => .head hj hk) 0 _ hlt
      refine ⟨(best, Function.update memo₁ i (.done best)), ?_, ?_, .inr (by simp)⟩
      · simp only [resolve, hmark, hloop]
        rfl
      · refine Grows.close hmark (hself i) (hgrows best (Nat.le_refl _)) ?_
        intro j hj
        rcases hnext j hj with hstack | hdone
        · by_cases hji : j = i
          · exact absurd (hji ▸ hj) (hself i)
          · exact .inl (by rwa [Function.update_of_ne hji] at hstack)
        · exact .inr hdone

/-- Every node gets a depth, and an edge joins two different ones; it goes down unless there is a
path back. -/
theorem exists_resolveAll : ∃ r, resolveAll next (nodes.length + 1) nodes = some r ∧
    ∀ i ∈ nodes, ∃ d ≤ r.1, r.2 i = .done d ∧
      ∀ j ∈ next i, ∃ e, r.2 j = .done e ∧ (e < d ∨ d < e ∧ Path next j i) := by
  obtain ⟨r, hloop, -, hgrows, hdone⟩ := exists_loop (R := fun _ => True)
    (fun memo i => exists_resolve hclosed hself (nodes.length + 1) memo) 0 (fun i hi => hi)
    (by simp) 0 (fun _ => .unvisited) (Nat.lt_succ_of_le countP_le_length)
  refine ⟨r, hloop, ?_⟩
  intro i hi
  obtain ⟨d, hd, hle⟩ := (hdone i hi).resolve_left (by simp)
  refine ⟨d, hle, hd, ?_⟩
  intro j hj
  exact (((hgrows (r.1 + 1) (Nat.le_refl _)).fresh i d rfl hd).2.2 j hj).resolve_left (by simp)

end Ends

/-! ## No edges -/

theorem exists_resolveAll_flat (nodes : List ν) (hflat : ∀ i, next i = []) (fuel : Nat) :
    ∃ memo, resolveAll next (fuel + 1) nodes = some (0, memo) ∧
      ∀ i, memo i = .unvisited ∨ memo i = .done 0 := by
  have hloop : ∀ (todo : List ν) (memo : Memo ν), (∀ i, memo i = .unvisited ∨ memo i = .done 0) →
      ∃ memo', todo.foldlM (fun (acc : Nat × Memo ν) i => do
          let (d, memo) ← resolve next (fuel + 1) acc.2 i
          return (max acc.1 d, memo)) (0, memo) = some (0, memo') ∧
        ∀ i, memo' i = .unvisited ∨ memo' i = .done 0 := by
    intro todo
    induction todo with
    | nil => exact fun memo h => ⟨memo, rfl, h⟩
    | cons i todo ih =>
      intro memo h
      rcases h i with hi | hi
      · have hmarks : ∀ k, Function.update (Function.update memo i .inProgress) i (.done 0) k =
            .unvisited ∨
            Function.update (Function.update memo i .inProgress) i (.done 0) k = .done 0 := by
          intro k
          by_cases hki : k = i
          · simp [hki]
          · simpa [Function.update_of_ne hki] using h k
        obtain ⟨memo', hrest, h'⟩ := ih _ hmarks
        refine ⟨memo', ?_, h'⟩
        rw [foldlM_cons, ← hrest]
        simp [resolve, hi, hflat]
      · obtain ⟨memo', hrest, h'⟩ := ih memo h
        refine ⟨memo', ?_, h'⟩
        rw [foldlM_cons, ← hrest]
        simp [resolve, hi]
  exact hloop nodes _ fun _ => .inl rfl

end Depths

end Arcade.Lib
