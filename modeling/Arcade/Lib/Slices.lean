import Mathlib.Data.List.Basic

/-!
A list cut into slices of a given size, the last one as long as what is left.
-/

namespace Arcade.Lib

open List

variable {α : Type} {size : Nat} {xs slice : List α} {x : α}

/-- The slices of at most `size` items, in order. -/
def slices (size : Nat) (xs : List α) : List (List α) :=
  (List.range ((xs.length + size - 1) / size)).map fun i => (xs.drop (i * size)).take size

theorem exists_mem_slices (hsize : 0 < size) (h : x ∈ xs) : ∃ slice ∈ slices size xs, x ∈ slice := by
  obtain ⟨k, hk, rfl⟩ := mem_iff_getElem.mp h
  have hdiv := Nat.div_add_mod k size
  refine ⟨_, mem_map.mpr ⟨k / size, mem_range.mpr ?_, rfl⟩, ?_⟩
  · rw [Nat.lt_iff_add_one_le, Nat.le_div_iff_mul_le hsize, Nat.add_mul, Nat.mul_comm]
    omega
  · apply mem_of_getElem? (i := k % size)
    rw [List.getElem?_take_of_lt (Nat.mod_lt _ hsize), List.getElem?_drop, Nat.mul_comm, hdiv,
      List.getElem?_eq_getElem hk]

theorem subset_of_mem_slices (h : slice ∈ slices size xs) : slice ⊆ xs := by
  obtain ⟨i, -, rfl⟩ := mem_map.mp h
  exact fun _ hm => mem_of_mem_drop (mem_of_mem_take hm)

theorem flatten_slices (hsize : 0 < size) (xs : List α) : (slices size xs).flatten = xs := by
  have htake : ∀ n, ((List.range n).map fun i => (xs.drop (i * size)).take size).flatten =
      xs.take (n * size) := by
    intro n
    induction n with
    | zero => simp
    | succ n ih =>
      rw [range_succ, map_append, flatten_append, ih, Nat.succ_mul, take_add]
      simp
  have hlen : xs.length ≤ (xs.length + size - 1) / size * size := by
    have hdiv := Nat.div_add_mod (xs.length + size - 1) size
    have hmod := Nat.mod_lt (xs.length + size - 1) hsize
    rw [Nat.mul_comm]
    omega
  rw [slices, htake, take_of_length_le hlen]

theorem foldlM_slices {β ε : Type} (f : β → α → Except ε β) (hsize : 0 < size) (b : β)
    (xs : List α) :
    (slices size xs).foldlM (fun acc slice => slice.foldlM f acc) b = xs.foldlM f b := by
  have hflatten : ∀ (lists : List (List α)) (b : β),
      lists.foldlM (fun acc slice => slice.foldlM f acc) b = lists.flatten.foldlM f b := by
    intro lists
    induction lists with
    | nil => intro b; rfl
    | cons slice lists ih =>
      intro b
      rw [foldlM_cons, flatten_cons, foldlM_append]
      exact bind_congr ih
  rw [hflatten, flatten_slices hsize]

end Arcade.Lib
