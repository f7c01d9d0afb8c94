import Arcade.Bump.Compound

/-!
What `BuildCompoundBUMP` returns for a block of several subtrees when the STUMPs it
keeps show their subtrees: a path on which every leaf folds to the root over the
subtree roots.
-/

namespace Arcade.Bump

open Lib.Merkle

variable {H Data : Type}

/-- Every STUMP of the list shows its subtree. -/
structure AllDelivered (sdk : Sdk H Data) (lay : Layout) (coinbaseBUMP : Data)
    (T : (i : Nat) → PartialTree sdk.merkleTreeParent (lay.requiredHeightFor i))
    (labels : Nat → Nat → Nat → Option H) (stumps : List (Stump Data)) : Prop where
  inRange : ∀ st ∈ stumps, st.subtreeIndex < lay.numSubtrees
  required : ∀ st ∈ stumps, 0 < lay.requiredHeightFor st.subtreeIndex
  spine : ∀ st ∈ stumps, SpineIfStale sdk coinbaseBUMP st.subtreeIndex (T st.subtreeIndex).node
    (lay.requiredHeightFor st.subtreeIndex)
  delivered : ∀ st ∈ stumps, ∃ p, sdk.newMerklePathFromBinary st.stumpData = .ok p ∧
    Delivered (T st.subtreeIndex).node (lay.requiredHeightFor st.subtreeIndex)
      (IsStale sdk coinbaseBUMP st.subtreeIndex) (labels st.subtreeIndex) p.path

section

variable {sdk : Sdk H Data} {lay : Layout} {coinbaseBUMP : Data}
  {T : (i : Nat) → PartialTree sdk.merkleTreeParent (lay.requiredHeightFor i)}
  {labels : Nat → Nat → Nat → Option H} {stumps : List (Stump Data)} {hashes : List H}
  [DecidableEq H]

theorem mergeStumpVariants_delivered (hsdk : sdk.Lawful)
    (h : ∀ st ∈ stumps, ∃ p, sdk.newMerklePathFromBinary st.stumpData = .ok p ∧
      Delivered (T st.subtreeIndex).node (lay.requiredHeightFor st.subtreeIndex)
        (IsStale sdk coinbaseBUMP st.subtreeIndex) (labels st.subtreeIndex) p.path) :
    ∃ merged, mergeStumpVariants sdk stumps = .ok merged ∧ MergedOf sdk stumps merged ∧
      ∀ m ∈ merged, Delivered (T m.index).node (lay.requiredHeightFor m.index)
        (IsStale sdk coinbaseBUMP m.index) (labels m.index) m.path.path := by
  have hD : ∀ i, ∀ p ∈ variantsOf sdk stumps i, Delivered (T i).node (lay.requiredHeightFor i)
      (IsStale sdk coinbaseBUMP i) (labels i) p := by
    intro i p hp
    obtain ⟨st, hst, rfl, rfl⟩ := mem_variantsOf.mp hp
    obtain ⟨p, hp, D⟩ := h st hst
    exact pathOf_eq hp ▸ D
  obtain ⟨merged, hmerge, M⟩ := (mergeStumpVariants_ends hsdk stumps).exists_ok (by
    rintro (⟨st, hst, hno⟩ | ⟨i, hclash⟩)
    · obtain ⟨p, hp, -⟩ := h st hst
      exact hno p hp
    · exact not_clash_of_delivered (hD i) hclash)
  exact ⟨merged, hmerge, M, fun m hm => (M.union m hm).delivered (hD m.index)⟩

/-- The compound that is built, with what is known of its leaves and of the txids. -/
structure BuiltFrom (sdk : Sdk H Data) (lay : Layout) (coinbaseBUMP : Data) (hashes : List H)
    (T : (i : Nat) → PartialTree sdk.merkleTreeParent (lay.requiredHeightFor i))
    (labels : Nat → Nat → Nat → Option H) (stumps : List (Stump Data))
    (compound : MerklePath H) (txids : List String) (merged : List (MergedStump H Data))
    (B : PartialTree sdk.merkleTreeParent lay.totalHeight) : Prop where
  root : rootOf sdk.merkleTreeParent (subtreeRoots sdk lay hashes merged T) = some B.root
  within : ∀ l < lay.totalHeight, ∀ o v, B.node l o = some v → o < 2 ^ (lay.totalHeight - l)
  listed : Listed B.node lay.totalHeight compound.path
  leaves : ∀ st ∈ stumps, ∀ p, sdk.newMerklePathFromBinary st.stumpData = .ok p →
    ∀ e ∈ levelAt p.path 0, ∀ x, e.hash = some x →
      sdk.hashString x ∈ txids ∧ ∃ e' ∈ levelAt compound.path 0,
        e'.hash = (T st.subtreeIndex).node 0 e.offset

theorem AllDelivered.built (hsdk : sdk.Lawful)
    (A : AllDelivered sdk lay coinbaseBUMP T labels stumps)
    (hcount : lay.numSubtrees = hashes.length) (htwo : 2 ≤ hashes.length)
    (hpos : 0 < lay.internalHeight) :
    ∃ merged placed, mergeStumpVariants sdk stumps = .ok merged ∧
      placeAll sdk lay hashes coinbaseBUMP merged = .ok placed ∧
      ∀ blockHeight, ∃ B, BuiltFrom sdk lay coinbaseBUMP hashes T labels stumps
        ⟨blockHeight, computeAndPadCompound sdk.merkleTreeParent lay.internalHeight
          lay.numSubtrees placed⟩ (merged.flatMap (·.txids)) merged B := by
  obtain ⟨merged, hmerge, M, hD⟩ := mergeStumpVariants_delivered hsdk A.delivered
  have hof : ∀ m ∈ merged, m.index < hashes.length ∧ 0 < lay.requiredHeightFor m.index ∧
      SpineIfStale sdk coinbaseBUMP m.index (T m.index).node (lay.requiredHeightFor m.index) := by
    intro m hm
    obtain ⟨st, hst, hidx⟩ := M.origin hm
    exact hidx ▸ ⟨hcount ▸ A.inRange st hst, A.required st hst, A.spine st hst⟩
  have P : Placeable sdk lay hashes coinbaseBUMP merged T :=
    ⟨hcount, htwo, hpos, M.nodup, fun m hm => (hof m hm).1, fun m hm => (hof m hm).2.1,
      fun m hm => (hD m hm).ready (hof m hm).2.1 (hof m hm).2.2⟩
  have hplace := placeAll_eq sdk lay hashes coinbaseBUMP merged fun m hm => (hD m hm).tall
  refine ⟨merged, placedPath sdk lay hashes coinbaseBUMP merged, hmerge, hplace, fun bh => ?_⟩
  obtain ⟨B, hroot, hwithin, L⟩ := listed_compound P
  refine ⟨B, hroot, hwithin, L, fun st hst p hp e he x hx => ?_⟩
  obtain ⟨m, hm, hidx, hkeep⟩ := M.keeps hst
  obtain ⟨e1, he1, hoff, hx1, -⟩ := hkeep 0 e (pathOf_eq hp ▸ he)
  refine ⟨List.mem_flatMap.mpr ⟨m, hm, ?_⟩, ?_⟩
  · rw [M.txids m hm]
    exact mem_level0TxIDs.mpr ⟨e1, he1, x, hx1 x hx, rfl⟩
  · obtain ⟨e', he', _, hnode, _⟩ :=
      (hD m hm).leaf_swap (hof m hm).2.1 (hof m hm).2.2 he1 (by simp [hx1 x hx])
    refine ⟨shiftElement lay m.index 0 e', ?_, ?_⟩
    · simp only [levelAt_computeAndPad_zero hpos]
      exact (mem_placedPath_zero P).mpr ⟨m, hm, e', he', rfl⟩
    · rw [← hidx, ← hoff]
      exact hnode

end

end Arcade.Bump
