import Mathlib.Data.List.Induction
import Arcade.Lib.GoMap

/-!
Stable grouping: the items of a list by a key, the groups in the order in which their keys are first
seen, the items of a group in the order of the list. `collect` is the usual loop with an index from
keys to positions, and `grouped` is what it computes.
-/

namespace Arcade.Lib

open List

variable {α β γ κ : Type}

theorem mem_foldl_insertNew [BEq α] [LawfulBEq α] (ks : List α) (k : α) :
    k ∈ ks.foldl (fun out k => if k ∈ out then out else out ++ [k]) [] ↔ k ∈ ks := by
  induction ks using List.reverseRecOn with
  | nil => rfl
  | append_singleton ks last ih =>
    rw [foldl_append, foldl_cons, foldl_nil]
    split <;> grind

variable [DecidableEq κ]

theorem eraseDups_concat (ks : List κ) (k : κ) :
    (ks ++ [k]).eraseDups = if k ∈ ks then ks.eraseDups else ks.eraseDups ++ [k] := by
  rw [eraseDups_append]
  split
  · rename_i h
    simp [List.removeAll, h]
  · rename_i h
    simp [List.removeAll, h, eraseDups_cons]

theorem nodup_eraseDups (ks : List κ) : ks.eraseDups.Nodup := by
  induction ks using List.reverseRecOn with
  | nil => exact nodup_nil
  | append_singleton ks k ih =>
    rw [eraseDups_concat]
    split
    · exact ih
    · rename_i h
      exact nodup_append'.mpr ⟨ih, nodup_singleton k, by simpa using h⟩

/-- The items by key, in the order of the first item of each key. -/
def grouped (key : α → κ) (l : List α) : List (List α) :=
  (l.map key).eraseDups.map fun k => l.filter fun a => key a = k

section

variable (key : α → κ)

theorem mem_grouped {l group : List α} : group ∈ grouped key l ↔
    ∃ a ∈ l, group = l.filter fun b => key b = key a := by
  simp only [grouped, mem_map, mem_eraseDups]
  constructor
  · rintro ⟨_, ⟨a, ha, rfl⟩, rfl⟩
    exact ⟨a, ha, rfl⟩
  · rintro ⟨a, ha, rfl⟩
    exact ⟨_, ⟨a, ha, rfl⟩, rfl⟩

theorem grouped_map (f : β → α) (l : List β) :
    grouped key (l.map f) = (grouped (key ∘ f) l).map (List.map f) := by
  simp only [grouped, map_map, filter_map, Function.comp_def]

theorem grouped_concat_of_getElem? {l : List α} {a : α} {i : Nat}
    (h : (l.map key).eraseDups[i]? = some (key a)) :
    grouped key (l ++ [a]) = (grouped key l).modify i (· ++ [a]) := by
  have hmem : key a ∈ l.map key := mem_eraseDups.mp (mem_of_getElem? h)
  unfold grouped
  rw [map_append, map_singleton, eraseDups_concat, if_pos hmem]
  refine ext_getElem? fun j => ?_
  rw [List.getElem?_map, List.getElem?_modify, List.getElem?_map]
  cases hj : (l.map key).eraseDups[j]? with
  | none => rfl
  | some k =>
    -- The key stands at one position only.
    have hpos : i = j ↔ key a = k := by
      constructor
      · rintro rfl
        exact Option.mem_unique h hj
      · rintro rfl
        exact (List.getElem?_inj (List.getElem?_eq_some_iff.mp h).1 (nodup_eraseDups _)).mp
          (h.trans hj.symm)
    by_cases hk : key a = k
    · simp [hpos.mpr hk, hk, filter_append]
    · simp [mt hpos.mp hk, hk, filter_append]

theorem grouped_concat_of_not_mem {l : List α} {a : α} (h : key a ∉ l.map key) :
    grouped key (l ++ [a]) = grouped key l ++ [[a]] := by
  have hne : ∀ b ∈ l, key b ≠ key a := fun b hb heq => h (heq ▸ mem_map_of_mem hb)
  unfold grouped
  rw [map_append, map_singleton, eraseDups_concat, if_neg h, map_append]
  congr 1
  · refine map_congr_left fun k hk => ?_
    have hk' : key a ≠ k := by
      rintro rfl
      exact h (mem_eraseDups.mp hk)
    simp [filter_append, hk']
  · have hnone : (l.filter fun b => key b = key a) = [] :=
      filter_eq_nil_iff.mpr fun b hb => by simpa using hne b hb
    simp [filter_append, hnone]

theorem grouped_flatten_perm (l : List α) : (grouped key l).flatten.Perm l := by
  have hsplit : ∀ (ks : List κ) (l : List α), ks.Nodup → (∀ a ∈ l, key a ∈ ks) →
      (ks.map fun k => l.filter fun a => key a = k).flatten.Perm l := by
    intro ks
    induction ks with
    | nil =>
      intro l _ hcover
      cases l with
      | nil => exact .refl _
      | cons a l => exact absurd (hcover a mem_cons_self) not_mem_nil
    | cons k ks ih =>
      intro l hnodup hcover
      obtain ⟨hk, hks⟩ := nodup_cons.mp hnodup
      have hrest := ih (l.filter fun a => !decide (key a = k)) hks fun a ha => by
        obtain ⟨hal, hne⟩ := mem_filter.mp ha
        exact (mem_cons.mp (hcover a hal)).resolve_left (by simpa using hne)
      have hsame : (ks.map fun k' => (l.filter fun a => !decide (key a = k)).filter
          fun a => key a = k') = ks.map fun k' => l.filter fun a => key a = k' := by
        refine map_congr_left fun k' hk' => ?_
        rw [filter_filter]
        refine filter_congr fun a _ => ?_
        have hne : k' ≠ k := fun h => hk (h ▸ hk')
        by_cases hka : key a = k' <;> simp [hka, hne]
      rw [hsame] at hrest
      exact (hrest.append_left _).trans (filter_append_perm _ l)
  exact hsplit _ l (nodup_eraseDups _) fun a ha => mem_eraseDups.mpr (mem_map_of_mem ha)

theorem grouped_pairwise {R : α → α → Prop} {l : List α} (hl : l.Pairwise R) :
    (grouped key l).Pairwise fun g g' => ∀ b ∈ g', ∃ a ∈ g, R a b := by
  induction l using List.reverseRecOn with
  | nil => exact .nil
  | append_singleton l a ih =>
    obtain ⟨hl, -, hlast⟩ := pairwise_append.mp hl
    have hbefore : ∀ group ∈ grouped key l, ∃ b ∈ group, R b a := by
      intro group hgroup
      obtain ⟨b, hb, rfl⟩ := (mem_grouped key).mp hgroup
      exact ⟨b, mem_filter.mpr ⟨hb, by simp⟩, hlast b hb a (mem_singleton_self a)⟩
    by_cases hmem : key a ∈ l.map key
    · obtain ⟨i, hi⟩ := mem_iff_getElem?.mp (mem_eraseDups.mpr hmem)
      rw [grouped_concat_of_getElem? key hi]
      have hih := pairwise_iff_getElem.mp (ih hl)
      refine pairwise_iff_getElem.mpr fun j j' hmod hmod' hlt b hb => ?_
      have hj : j < (grouped key l).length := by rwa [length_modify] at hmod
      have hj' : j' < (grouped key l).length := by rwa [length_modify] at hmod'
      -- A group only grows, so an earlier member of it is one now.
      have hgrows : ∀ x ∈ (grouped key l)[j], x ∈ ((grouped key l).modify i (· ++ [a]))[j] := by
        intro x hx
        rw [getElem_modify]
        split
        · exact mem_append_left _ hx
        · exact hx
      have hold : b ∈ (grouped key l)[j'] ∨ b = a := by
        rw [getElem_modify] at hb
        split at hb
        · simpa using hb
        · exact .inl hb
      rcases hold with hold | rfl
      · obtain ⟨x, hx, hR⟩ := hih j j' hj hj' hlt b hold
        exact ⟨x, hgrows x hx, hR⟩
      · obtain ⟨x, hx, hR⟩ := hbefore _ (getElem_mem hj)
        exact ⟨x, hgrows x hx, hR⟩
    · rw [grouped_concat_of_not_mem key hmem]
      refine pairwise_append.mpr ⟨ih hl, pairwise_singleton _ _, ?_⟩
      rintro group hgroup _ hsingle b hb
      obtain rfl := mem_singleton.mp hsingle
      obtain rfl := mem_singleton.mp hb
      exact hbefore group hgroup

end

/-! ## The loop -/

variable (key : α → κ) (make : α → γ) (add : γ → α → γ)

/-- One round: the first item of a key opens a group, and every item is added to its group. -/
def collect (s : GoMap κ Nat × List γ) (a : α) : GoMap κ Nat × List γ :=
  match s.1.lookup (key a) with
  | some i => (s.1, s.2.modify i (add · a))
  | none => (s.1.insert (key a) s.2.length, s.2 ++ [add (make a) a])

theorem forall₂_modify {R : γ → β → Prop} {xs : List γ} {ys : List β} {f : γ → γ} {g : β → β}
    (h : List.Forall₂ R xs ys) (hR : ∀ x y, R x y → R (f x) (g y)) (i : Nat) :
    List.Forall₂ R (xs.modify i f) (ys.modify i g) := by
  induction h generalizing i with
  | nil => cases i <;> exact .nil
  | cons hxy hrest ih =>
    cases i with
    | zero => exact .cons (hR _ _ hxy) hrest
    | succ i => exact .cons hxy (ih i)

/-- The loop makes each group from its first item and adds its items in order; the index gives the
position of each key. -/
theorem collect_grouped (l : List α) :
    (∀ k i, (l.foldl (collect key make add) (∅, [])).1.lookup k = some i ↔
      (l.map key).eraseDups[i]? = some k) ∧
    List.Forall₂ (fun made group => ∃ a rest, group = a :: rest ∧ made = group.foldl add (make a))
      (l.foldl (collect key make add) (∅, [])).2 (grouped key l) := by
  induction l using List.reverseRecOn with
  | nil => exact ⟨by simp, .nil⟩
  | append_singleton l a ih =>
    rw [foldl_append, foldl_cons, foldl_nil]
    generalize l.foldl (collect key make add) (∅, []) = s at ih ⊢
    obtain ⟨hindex, hgroups⟩ := ih
    have hlen : s.2.length = (l.map key).eraseDups.length := by
      rw [hgroups.length_eq, grouped, length_map]
    unfold collect
    cases hl : s.1.lookup (key a) with
    | some i =>
      have hi := (hindex (key a) i).mp hl
      have hmem : key a ∈ l.map key := mem_eraseDups.mp (mem_of_getElem? hi)
      rw [grouped_concat_of_getElem? key hi, map_append, map_singleton,
        eraseDups_concat, if_pos hmem]
      refine ⟨hindex, forall₂_modify hgroups ?_ i⟩
      rintro _ _ ⟨b, rest, rfl, rfl⟩
      exact ⟨b, rest ++ [a], rfl, by rw [foldl_append]; rfl⟩
    | none =>
      have hmem : key a ∉ l.map key := by
        intro hmem
        obtain ⟨i, hi⟩ := mem_iff_getElem?.mp (mem_eraseDups.mpr hmem)
        rw [(hindex (key a) i).mpr hi] at hl
        cases hl
      rw [grouped_concat_of_not_mem key hmem, map_append, map_singleton,
        eraseDups_concat, if_neg hmem]
      refine ⟨fun k i => ?_, rel_append hgroups (.cons ⟨a, [], rfl, rfl⟩ .nil)⟩
      rw [GoMap.lookup_insert_eq, List.getElem?_append, List.getElem?_singleton, hlen]
      split
      · rename_i hk
        subst hk
        split
        · constructor
          · intro h
            exact absurd (Option.some.inj h) (by omega)
          · intro h
            exact absurd (mem_eraseDups.mp (mem_of_getElem? h)) hmem
        · split
          · simp only [Option.some.injEq, iff_true]
            omega
          · simp only [Option.some.injEq, reduceCtorEq, iff_false]
            omega
      · rename_i hk
        rw [hindex]
        split
        · rfl
        · rw [List.getElem?_eq_none (by omega)]
          split
          · simp [Ne.symm hk]
          · simp

end Arcade.Lib
