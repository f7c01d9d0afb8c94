import Arcade.Bump.Complete

/-!
A final subtree of one leaf. Its root is the leaf, the lift is the whole height of a
subtree, and the required height of its STUMP is zero: nothing of the STUMP is placed,
and since there is a STUMP no root is placed either.
-/

namespace Arcade.Bump

open Lib.Merkle List

variable {H Data : Type}

/-! ## A way up that is not listed -/

/-- No level lists the node over leaf `f`. -/
def Absent (f : Nat) (path : List (Level H)) : Prop := ∀ l, ¬ HasSlot (levelAt path l) (f / 2 ^ l)

section Absent

variable {parent : H → H → H} {f : Nat}

theorem absent_addParents {l : Nat} {level next : Level H} (h : ¬ HasSlot level (f / 2 ^ l))
    (hnext : ¬ HasSlot next (f / 2 ^ (l + 1))) :
    ¬ HasSlot (addParents (compoundParent parent level) level next) (f / 2 ^ (l + 1)) := by
  rintro ⟨e', he', ho⟩
  rcases mem_addParents he' with hin | ⟨e, he, v, hv, rfl⟩
  · exact hnext ⟨e', hin, ho⟩
  · -- a parent over `f` would need the sibling of `e`, which is the absent node
    rw [div_pow_succ] at ho
    have hsib : sibling e.offset = f / 2 ^ l := sibling_eq (fun heq => h ⟨e, he, heq⟩) ho
    cases hlast : lastAt level (sibling e.offset) with
    | none => simp [compoundParent, hlast] at hv
    | some s =>
      obtain ⟨hmem, hso⟩ := lastAt_eq_some hlast
      exact h ⟨s, hmem, hso.trans hsib⟩

theorem absent_padAt {layer n height l : Nat} {level : Level H} (hf : f / 2 ^ layer < n)
    (h : ¬ HasSlot level (f / 2 ^ l)) : ¬ HasSlot (padAt layer n height l level) (f / 2 ^ l) := by
  rintro ⟨e, he, ho⟩
  rcases mem_padAt he with hin | ⟨hl, _, _, rfl⟩
  · exact h ⟨e, hin, ho⟩
  · have hlt := div_lt_realCountAt hf hl
    simp only [duplicateAt] at ho
    omega

theorem absent_computeAndPad {layer n : Nat} (hf : f / 2 ^ layer < n) {path : List (Level H)}
    (h : Absent f path) : Absent f (computeAndPadCompound parent layer n path) := by
  have C := completes_andPad parent layer n path
  intro l
  induction l with
  | zero =>
    rw [C.zero]
    exact absent_padAt hf (h 0)
  | succ l ih =>
    rintro ⟨e, he, ho⟩
    rw [C.succ l (C.length ▸ lt_length_of_mem he)] at he
    exact absent_padAt hf (absent_addParents ih (h (l + 1))) ⟨e, he, ho⟩

theorem getOffsetLeaf_of_absent {path : List (Level H)} (h : Absent f path) (l : Nat) :
    getOffsetLeaf parent path l (f / 2 ^ l) = none := by
  induction l with
  | zero => exact lastAt_eq_none.mpr (h 0)
  | succ l ih =>
    rw [getOffsetLeaf, lastAt_eq_none.mpr (h (l + 1))]
    -- one of the two children is the node over `f`
    rw [div_pow_succ]
    rcases slot_cases (f / 2 ^ l) with ⟨hc, _⟩ | ⟨hc, _⟩
    · rw [← hc, ih]
    · rw [← hc, ih]
      cases getOffsetLeaf parent path l (2 * (f / 2 ^ l / 2)) <;> rfl

/-- Without the way up from `f`, no other leaf folds to a root. -/
theorem validate_fails [DecidableEq H] {sdk : Sdk H Data} (hsdk : sdk.Lawful)
    {compound : MerklePath H} (hlen : 2 ≤ compound.path.length) (h : Absent f compound.path)
    (htop : ∀ t, Leaf compound.path t → t / 2 ^ compound.path.length =
      f / 2 ^ compound.path.length) (root : H) :
    validateCompoundRoot sdk compound (some root) ≠ .ok () := by
  unfold validateCompoundRoot
  simp only
  split
  · simp
  · cases hfirst : (levelAt compound.path 0).findSome? (·.hash) with
    | none => simp
    | some x =>
      obtain ⟨e, he, hx⟩ := exists_of_findSome?_eq_some hfirst
      obtain ⟨leaf, hleaf⟩ := View.leafOf_of_mem he hx
      obtain ⟨hmem, hhash⟩ := View.leafOf_eq_some hleaf
      have hlf : Leaf compound.path leaf.offset := ⟨leaf, hmem, rfl, by simp [hhash]⟩
      have hne : leaf.offset ≠ f := by
        intro heq
        exact h 0 ⟨leaf, hmem, by simpa using heq⟩
      obtain ⟨l, hl, hsib⟩ := exists_sibling hne (htop _ hlf)
      have hmissing := hsdk.root_missing compound x leaf l hlen hl hleaf
        (by rw [hsib]; exact getOffsetLeaf_of_absent h l)
      cases hroot : sdk.computeRoot compound x with
      | error err => simp [hroot]
      | ok got => exact absurd hroot (hmissing got)

end Absent

/-! ## A final subtree of which nothing is required -/

section EmptyFinal

variable {sdk : Sdk H Data} {lay : Layout} {hashes : List H} {coinbaseBUMP : Data}
  {merged : List (MergedStump H Data)}

/-- The offset in the block of the final subtree's first leaf. -/
def Layout.finalLeaf (lay : Layout) : Nat := lay.finalIdx * 2 ^ lay.internalHeight

theorem Layout.finalLeaf_div (lay : Layout) {l : Nat} (hl : l ≤ lay.internalHeight) :
    lay.finalLeaf / 2 ^ l = lay.finalIdx * 2 ^ (lay.internalHeight - l) := by
  rw [finalLeaf, ← Nat.sub_add_cancel hl, Nat.pow_add, ← Nat.mul_assoc,
    Nat.mul_div_cancel _ (Nat.two_pow_pos l), Nat.add_sub_cancel]

theorem Layout.finalLeaf_top (lay : Layout) :
    lay.finalLeaf / 2 ^ lay.internalHeight = lay.finalIdx := by
  rw [lay.finalLeaf_div (le_refl _), Nat.sub_self, Nat.pow_zero, Nat.mul_one]

theorem Layout.finalLeaf_lt (lay : Layout) (htwo : 2 ≤ lay.numSubtrees) :
    lay.finalLeaf < 2 ^ lay.totalHeight := by
  have hclog : lay.numSubtrees ≤ 2 ^ Nat.clog 2 lay.numSubtrees := Nat.le_pow_clog (by decide) _
  have hlt : lay.finalIdx < 2 ^ Nat.clog 2 lay.numSubtrees := by
    rw [finalIdx]
    omega
  rw [totalHeight, Nat.pow_add, finalLeaf, Nat.mul_comm]
  exact Nat.mul_lt_mul_of_pos_left hlt (Nat.two_pow_pos _)

variable (hfinal : lay.finalNaturalHeight = 0) (hin : ∀ m ∈ merged, m.index < lay.numSubtrees)
  (hbound : ∀ m ∈ merged, ∀ k < lay.requiredHeightFor m.index,
    ∀ e ∈ levelAt (swapCoinbase sdk coinbaseBUMP m.index m.path.path) k,
      e.offset < 2 ^ (lay.requiredHeightFor m.index - k))

include hfinal hin hbound

theorem placed_left {m : MergedStump H Data} (hm : m ∈ merged) {k : Nat}
    (hk : k < lay.requiredHeightFor m.index) {e : PathElement H}
    (he : e ∈ levelAt (swapCoinbase sdk coinbaseBUMP m.index m.path.path) k) :
    (shiftElement lay m.index k e).offset < lay.finalLeaf / 2 ^ k := by
  -- nothing is required of the final subtree, so this is another one
  have hne : m.index ≠ lay.finalIdx := by
    intro heq
    rw [Layout.requiredHeightFor, if_pos heq, hfinal] at hk
    omega
  have hlt : m.index < lay.finalIdx := by
    have := hin m hm
    rw [Layout.finalIdx] at hne ⊢
    omega
  have hoff := hbound m hm k hk e he
  rw [Layout.requiredHeightFor, if_neg hne] at hoff hk
  have hmul : (m.index + 1) * 2 ^ (lay.internalHeight - k) ≤
      lay.finalIdx * 2 ^ (lay.internalHeight - k) := Nat.mul_le_mul_right _ hlt
  rw [Nat.add_mul, Nat.one_mul] at hmul
  rw [lay.finalLeaf_div (le_of_lt hk), shiftElement]
  simp only
  omega

theorem absent_placedPath (hhave : haveSTUMP merged lay.finalIdx = true) :
    Absent lay.finalLeaf (placedPath sdk lay hashes coinbaseBUMP merged) := by
  rintro k ⟨e, he, ho⟩
  rcases mem_entries.mp (mem_placedPath.mp he) with ⟨m, hm, hk, e0, he0, rfl⟩ | ⟨_, hmark⟩ | hseed
  · have := placed_left hfinal hin hbound hm hk he0
    omega
  · obtain ⟨_, hk, rfl⟩ := mem_liftMarkers.mp hmark
    rw [lay.finalLeaf_div (le_of_lt hk)] at ho
    simp only [duplicateAt] at ho
    omega
  · obtain ⟨rfl, i, _, _, hno, rfl⟩ := mem_seeds.mp hseed
    have hi : i = lay.finalIdx := ho.trans lay.finalLeaf_top
    rw [hi, hhave] at hno
    cases hno

theorem leaf_placed_lt (hpos : 0 < lay.internalHeight) {t : Nat}
    (ht : Leaf (placedPath sdk lay hashes coinbaseBUMP merged) t) : t < lay.finalLeaf := by
  obtain ⟨e, he, rfl, hh⟩ := ht
  rcases mem_entries.mp (mem_placedPath.mp he) with ⟨m, hm, hk, e0, he0, rfl⟩ | ⟨_, hmark⟩ | hseed
  · have h := placed_left hfinal hin hbound hm hk he0
    rwa [Nat.pow_zero, Nat.div_one] at h
  · obtain ⟨_, _, rfl⟩ := mem_liftMarkers.mp hmark
    simp [duplicateAt] at hh
  · have := (mem_seeds.mp hseed).1
    omega

theorem emptyFinal_rejected [DecidableEq H] (hsdk : sdk.Lawful) (htwo : 2 ≤ lay.numSubtrees)
    (hpos : 0 < lay.internalHeight) (hhave : haveSTUMP merged lay.finalIdx = true)
    (blockHeight : Nat) (root : H) :
    validateCompoundRoot sdk ⟨blockHeight, computeAndPadCompound sdk.merkleTreeParent
      lay.internalHeight lay.numSubtrees (placedPath sdk lay hashes coinbaseBUMP merged)⟩
        (some root) ≠ .ok () := by
  have hlen : (computeAndPadCompound sdk.merkleTreeParent lay.internalHeight lay.numSubtrees
      (placedPath sdk lay hashes coinbaseBUMP merged)).length = lay.totalHeight := by
    rw [length_computeAndPad, length_placedPath htwo]
  have hheight : 2 ≤ lay.totalHeight := by
    have hclog : 0 < Nat.clog 2 lay.numSubtrees := Nat.clog_pos (by decide) htwo
    rw [Layout.totalHeight]
    omega
  have hf : lay.finalLeaf / 2 ^ lay.internalHeight < lay.numSubtrees := by
    rw [lay.finalLeaf_top, Layout.finalIdx]
    omega
  refine validate_fails hsdk (le_of_le_of_eq hheight hlen.symm)
    (absent_computeAndPad hf (absent_placedPath hfinal hin hbound hhave)) ?_ _
  -- every leaf and the absent one lie under the root
  rintro t ⟨e, he, rfl, hh⟩
  simp only [levelAt_computeAndPad_zero hpos] at he
  have hlt := lay.finalLeaf_lt htwo
  have ht := leaf_placed_lt hfinal hin hbound hpos ⟨e, he, rfl, hh⟩
  simp only [hlen]
  rw [Nat.div_eq_of_lt hlt, Nat.div_eq_of_lt (ht.trans hlt)]

end EmptyFinal

end Arcade.Bump
