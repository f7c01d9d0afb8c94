import Mathlib.Data.List.Basic
import Mathlib.Order.Lattice

/-!
Binary search as Go's `slices.BinarySearchFunc` does it: narrow the interval to the first index
that is not below the target, then look whether the target is there. On a sorted list that is the
first match of a scan.
-/

namespace Arcade.Lib.BinarySearch

open List

/-- The loop over the half-open interval from `i` to `j`. -/
def lowerBound (below : Nat → Bool) (i j : Nat) : Nat :=
  if i < j then
    if below ((i + j) / 2) then lowerBound below ((i + j) / 2 + 1) j
    else lowerBound below i ((i + j) / 2)
  else i
termination_by j - i

/-- Where the indices below the target are an initial segment, the loop finds its end. -/
theorem lowerBound_spec {below : Nat → Bool} {i j : Nat} (hij : i ≤ j)
    (hmono : ∀ a b, a ≤ b → b < j → below b = true → below a = true) :
    lowerBound below i j ≤ j ∧ (∀ k, i ≤ k → k < lowerBound below i j → below k = true) ∧
      ∀ k, lowerBound below i j ≤ k → k < j → below k = false := by
  fun_induction lowerBound below i j with
  | case1 i j hlt hbelow ih =>
    obtain ⟨hle, hlow, hhigh⟩ := ih (by omega) hmono
    refine ⟨hle, fun k hik hk => ?_, hhigh⟩
    by_cases hmid : k ≤ (i + j) / 2
    · exact hmono k _ hmid (by omega) hbelow
    · exact hlow k (by omega) hk
  | case2 i j hlt hbelow ih =>
    obtain ⟨hle, hlow, hhigh⟩ := ih (by omega) fun a b hab hb => hmono a b hab (by omega)
    refine ⟨by omega, hlow, fun k hk hkj => ?_⟩
    by_cases hmid : k < (i + j) / 2
    · exact hhigh k hk hmid
    · exact Bool.eq_false_iff.mpr fun hk' => hbelow (hmono _ k (by omega) hkj hk')
  | case3 i j hlt => exact ⟨hij, fun k _ _ => by omega, fun k _ _ => by omega⟩

variable {α κ : Type} [LinearOrder κ] (key : α → κ) (xs : List α) (target : κ)

def search : Option α :=
  (xs[lowerBound (fun h => (xs[h]?).any fun x => key x < target) 0 xs.length]?).filter
    fun x => key x = target

theorem search_eq_find? (hsorted : xs.Pairwise fun x y => key x ≤ key y) :
    search key xs target = xs.find? fun x => key x = target := by
  have hmono : ∀ a b, a ≤ b → b < xs.length → ((xs[b]?).any fun x => key x < target) = true →
      ((xs[a]?).any fun x => key x < target) = true := by
    intro a b hab hb hlt
    have ha : a < xs.length := by omega
    simp only [List.getElem?_eq_getElem hb, List.getElem?_eq_getElem ha, Option.any_some,
      decide_eq_true_eq] at hlt ⊢
    rcases Nat.eq_or_lt_of_le hab with rfl | hab
    · exact hlt
    · exact lt_of_le_of_lt (pairwise_iff_getElem.mp hsorted a b ha hb hab) hlt
  obtain ⟨hle, hlow, hhigh⟩ := lowerBound_spec (Nat.zero_le xs.length) hmono
  unfold search
  generalize lowerBound (fun h => (xs[h]?).any fun x => key x < target) 0 xs.length = r at *
  -- Nothing before the bound has the target's key, and from it on the keys only grow.
  have hbefore : (xs.take r).find? (fun x => key x = target) = none := by
    refine List.find?_eq_none.mpr fun x hx => ?_
    obtain ⟨k, hk, rfl⟩ := mem_take_iff_getElem.mp hx
    have hlt := hlow k (Nat.zero_le k) (by omega)
    rw [List.getElem?_eq_getElem (by omega), Option.any_some, decide_eq_true_eq] at hlt
    simpa using ne_of_lt hlt
  rw [← take_append_drop r xs, List.find?_append, hbefore, Option.none_or, take_append_drop]
  rcases Nat.eq_or_lt_of_le hle with rfl | hlt
  · simp
  rw [drop_eq_getElem_cons hlt, List.getElem?_eq_getElem hlt, List.find?_cons]
  by_cases hr : key xs[r] = target
  · simp [hr]
  have hge : target < key xs[r] := by
    have := hhigh r (Nat.le_refl r) hlt
    rw [List.getElem?_eq_getElem hlt, Option.any_some, decide_eq_false_iff_not] at this
    exact lt_of_le_of_ne (not_lt.mp this) (Ne.symm hr)
  have hafter : (xs.drop (r + 1)).find? (fun x => key x = target) = none := by
    refine List.find?_eq_none.mpr fun x hx => ?_
    have hsorted' := hsorted.drop (i := r)
    rw [drop_eq_getElem_cons hlt, pairwise_cons] at hsorted'
    simpa using ne_of_gt (lt_of_lt_of_le hge (hsorted'.1 x hx))
  simp [hr, hafter]

end Arcade.Lib.BinarySearch
