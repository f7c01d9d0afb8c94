import Arcade.Bump.Single
import Arcade.Bump.LoneLeaf

/-!
What any successful build works with: the layout of the block and one merged STUMP per
subtree, and where their elements come from.
-/

namespace Arcade.Bump

open Lib.Merkle Lib.Outcome List

variable {H Data : Type}

section

variable [DecidableEq H] (sdk : Sdk H Data)

/-- The layout and the STUMPs as the build uses them. Variants off the root of their subtree
are dropped, the others merged; a single subtree's STUMP is read back from its encoding. -/
def keptStumps (stumps : List (Stump Data)) (subtreeHashes : List H) (coinbaseBUMP : Data)
    (header : H) : Except String (Layout × List (MergedStump H Data)) :=
  match stumps with
  | [] => .error "no stumps to build compound BUMP"
  | first :: _ =>
    if subtreeHashes.length ≤ 1 then do
      let merged ← mergeStumpVariants sdk stumps
      match merged with
      | [] => .error "no stumps to build compound BUMP"
      | m :: _ =>
        let path ← sdk.newMerklePathFromBinary m.data
        return (⟨1, path.path.length, 0⟩, [{ m with path := path }])
    else do
      let firstPath ← sdk.newMerklePathFromBinary first.stumpData
      let hashes := correctHashes sdk subtreeHashes coinbaseBUMP
      let lay := layoutFor sdk hashes coinbaseBUMP (some header) firstPath.path.length
      let merged ← mergeStumpVariants sdk
        (dropVariantsOffSubtreeRoot sdk stumps hashes lay.requiredHeightFor coinbaseBUMP)
      return (lay, merged)

end

def MergedStump.levels (m : MergedStump H Data) (sdk : Sdk H Data) (coinbaseBUMP : Data) :
    List (Level H) :=
  swapCoinbase sdk coinbaseBUMP m.index m.path.path

/-! ## Steps of a successful build -/

section Steps

variable {sdk : Sdk H Data} {merged : List (MergedStump H Data)} {lay : Layout}

theorem tall_of_placed {coinbaseBUMP : Data} {path out : List (Level H)}
    (h : merged.foldlM (placeStump sdk lay coinbaseBUMP) path = .ok out) :
    ∀ m ∈ merged, lay.requiredHeightFor m.index ≤ m.path.path.length := by
  induction merged generalizing path with
  | nil => exact fun m hm => absurd hm (not_mem_nil)
  | cons m rest ih =>
    obtain ⟨path', hstep, hrest⟩ := bind_ok h
    intro m' hm'
    rcases mem_cons.mp hm' with rfl | hin
    · rw [placeStump] at hstep
      split at hstep
      · cases hstep
      · omega
    · exact ih hrest m' hin

theorem placedPath_of_placeAll {hashes : List H} {coinbaseBUMP : Data} {placed : List (Level H)}
    (h : placeAll sdk lay hashes coinbaseBUMP merged = .ok placed) :
    (∀ m ∈ merged, lay.requiredHeightFor m.index ≤ m.path.path.length) ∧
      placed = placedPath sdk lay hashes coinbaseBUMP merged := by
  obtain ⟨_, hfold, _⟩ := bind_ok h
  have htall := tall_of_placed hfold
  rw [placeAll_eq _ _ _ _ _ htall, Except.ok.injEq] at h
  exact ⟨htall, h.symm⟩

variable [DecidableEq H]

inductive CompoundOf (sdk : Sdk H Data) (coinbaseBUMP : Data) :
    Layout → List (MergedStump H Data) → List (Level H) → Prop
  | single (m : MergedStump H Data) (hindex : m.index = 0) :
    CompoundOf sdk coinbaseBUMP ⟨1, m.path.path.length, 0⟩ [m]
      (extendSubtreeToBlockRoot sdk
        (computeMissingHashes sdk.merkleTreeParent (m.levels sdk coinbaseBUMP)) coinbaseBUMP
        m.path.path.length)
  | many (lay : Layout) (hashes : List H) (merged : List (MergedStump H Data))
    (count : lay.numSubtrees = hashes.length) (two_le : 2 ≤ hashes.length)
    (nodup : (merged.map (·.index)).Nodup) (inRange : ∀ m ∈ merged, m.index < hashes.length)
    (tall : ∀ m ∈ merged, lay.requiredHeightFor m.index ≤ m.path.path.length) :
    CompoundOf sdk coinbaseBUMP lay merged
      (computeAndPadCompound sdk.merkleTreeParent lay.internalHeight lay.numSubtrees
        (placedPath sdk lay hashes coinbaseBUMP merged))

variable {stumps : List (Stump Data)} {subtreeHashes : List H} {coinbaseBUMP : Data} {header : H}
  {compound : MerklePath H} {txids : List String}

theorem kept_of_buildSingle (hone : subtreeHashes.length ≤ 1) (hne : stumps ≠ [])
    (h : buildSingle sdk stumps subtreeHashes.length coinbaseBUMP = .ok (compound, txids)) :
    ∃ lay merged, keptStumps sdk stumps subtreeHashes coinbaseBUMP header = .ok (lay, merged) ∧
      txids = merged.flatMap (·.txids) ∧ CompoundOf sdk coinbaseBUMP lay merged compound.path := by
  obtain ⟨merged, hmerge, h⟩ := bind_ok h
  cases merged with
  | nil => cases h
  | cons m rest =>
    cases hfull : assembleSingle sdk m.data m.index subtreeHashes.length coinbaseBUMP with
    | error err => simp [hfull] at h
    | ok full =>
      simp only [hfull, Except.ok.injEq, Prod.mk.injEq] at h
      obtain ⟨rfl, rfl⟩ := h
      obtain ⟨_, hindex, h⟩ := bind_ok hfull
      have hzero : m.index = 0 := by
        unfold validateSubtreeIndex at hindex
        split at hindex
        · omega
        · cases hindex
      cases hparse : sdk.newMerklePathFromBinary m.data with
      | error err => simp [hparse] at h
      | ok path =>
        simp only [hparse, Except.ok.injEq] at h
        refine ⟨⟨1, path.path.length, 0⟩, [{ m with path := path }], ?_, by simp, ?_⟩
        · cases stumps with
          | nil => exact absurd rfl hne
          | cons first rest =>
            simp only [keptStumps, if_pos hone, hmerge, hparse, bind, Except.bind, pure,
              Except.pure]
        · rw [← h]
          exact CompoundOf.single { m with path := path } hzero

omit [DecidableEq H] in
theorem length_correctHashes (sdk : Sdk H Data) (hashes : List H) (coinbaseBUMP : Data) :
    (correctHashes sdk hashes coinbaseBUMP).length = hashes.length := by
  unfold correctHashes
  split
  · rw [length_set]
  · rfl

theorem kept_of_build (hsdk : sdk.Lawful)
    (hrange : ∀ st ∈ stumps, st.subtreeIndex < subtreeHashes.length)
    (h : buildCompoundBUMP sdk stumps subtreeHashes coinbaseBUMP (some header) =
      .ok (compound, txids)) :
    ∃ lay merged, keptStumps sdk stumps subtreeHashes coinbaseBUMP header = .ok (lay, merged) ∧
      txids = merged.flatMap (·.txids) ∧ CompoundOf sdk coinbaseBUMP lay merged compound.path := by
  cases stumps with
  | nil => cases h
  | cons first rest =>
    rw [buildCompoundBUMP] at h
    by_cases hone : subtreeHashes.length ≤ 1
    · rw [if_pos hone] at h
      exact kept_of_buildSingle hone (cons_ne_nil _ _) h
    · rw [if_neg hone, buildMany] at h
      cases hparse : sdk.newMerklePathFromBinary first.stumpData with
      | error err => simp [hparse] at h
      | ok firstPath =>
        simp only [hparse] at h
        obtain ⟨merged, hmerge, h⟩ := bind_ok h
        obtain ⟨placed, hplace, h⟩ := bind_ok h
        obtain ⟨htall, rfl⟩ := placedPath_of_placeAll hplace
        have M := (mergeStumpVariants_ends hsdk _).result _ hmerge
        obtain ⟨rfl, rfl⟩ := h
        refine ⟨_, merged, ?_, rfl, CompoundOf.many _ _ merged rfl ?_ M.nodup ?_ htall⟩
        · simp only [keptStumps, if_neg hone, hparse, bind, Except.bind, hmerge, pure, Except.pure]
        · rw [length_correctHashes]
          omega
        · intro m hm
          obtain ⟨st, hst, hidx⟩ := M.origin hm
          rw [length_correctHashes, ← hidx]
          exact hrange st (mem_of_mem_dropVariants hst)

theorem keptStumps_cases
    (h : keptStumps sdk stumps subtreeHashes coinbaseBUMP header = .ok (lay, merged)) :
    (subtreeHashes.length ≤ 1 ∧ ∃ all m path, mergeStumpVariants sdk stumps = .ok all ∧ m ∈ all ∧
      sdk.newMerklePathFromBinary m.data = .ok path ∧ lay = ⟨1, path.path.length, 0⟩ ∧
      merged = [{ m with path := path }]) ∨
    (2 ≤ subtreeHashes.length ∧ ∃ first rest firstPath, stumps = first :: rest ∧
      sdk.newMerklePathFromBinary first.stumpData = .ok firstPath ∧
      lay = layoutFor sdk (correctHashes sdk subtreeHashes coinbaseBUMP) coinbaseBUMP (some header)
        firstPath.path.length ∧
      mergeStumpVariants sdk (dropVariantsOffSubtreeRoot sdk stumps
        (correctHashes sdk subtreeHashes coinbaseBUMP) lay.requiredHeightFor coinbaseBUMP) =
          .ok merged) := by
  unfold keptStumps at h
  cases stumps with
  | nil => cases h
  | cons first rest =>
    simp only at h
    split at h
    · next hone =>
      obtain ⟨all, hmerge, h⟩ := bind_ok h
      cases all with
      | nil => cases h
      | cons m more =>
        obtain ⟨path, hpath, h⟩ := bind_ok h
        cases h
        exact .inl ⟨hone, _, m, path, hmerge, mem_cons_self .., hpath, rfl, rfl⟩
    · next hone =>
      obtain ⟨firstPath, hfirst, h⟩ := bind_ok h
      obtain ⟨all, hmerge, h⟩ := bind_ok h
      cases h
      exact .inr ⟨by omega, first, rest, firstPath, rfl, hfirst, rfl, hmerge⟩

/-- Whichever way they were kept: an element of a kept STUMP comes from a STUMP of its subtree,
and the txids are the leaves. -/
theorem kept_source (hsdk : sdk.Lawful)
    (h : keptStumps sdk stumps subtreeHashes coinbaseBUMP header = .ok (lay, merged))
    {m : MergedStump H Data} (hm : m ∈ merged) :
    (∀ l, ∀ e ∈ levelAt m.path.path l, ∃ st ∈ stumps, st.subtreeIndex = m.index ∧
      ∃ s ∈ levelAt (pathOf sdk st) l, Backs s e) ∧
    ∀ id ∈ m.txids, ∃ e ∈ levelAt m.path.path 0, ∃ x, e.hash = some x ∧ sdk.hashString x = id := by
  rcases keptStumps_cases h with ⟨-, all, m₀, path, hmerge, hm₀, hpath, -, rfl⟩ |
    ⟨-, first, rest, firstPath, -, -, -, hmerge⟩
  · have M := (mergeStumpVariants_ends hsdk _).result _ hmerge
    -- reading the STUMP back from its encoding changes at most the order
    have hperm : ∀ l, (levelAt path.path l).Perm (levelAt m₀.path.path l) := by
      rcases M.data m₀ hm₀ with hd | hd
      · rw [hd, Except.ok.injEq] at hpath
        exact fun l => hpath ▸ List.Perm.refl _
      · rw [hd] at hpath
        refine mem_levelAt_of_perm (hsdk.faithful _ _ (fun level hl e he => ?_)
          (M.sized hsdk hm₀) hpath)
        obtain ⟨l, hlt, rfl⟩ := mem_iff_getElem.mp hl
        obtain ⟨st, _, _, s, hs, -, hh, hdup⟩ := M.source hm₀ (levelAt_eq_getElem hlt ▸ he)
        exact hh ▸ hdup ▸ marked_pathOf hsdk st l s hs
    obtain rfl := mem_singleton.mp hm
    refine ⟨fun l e he => M.source hm₀ ((hperm l).mem_iff.mp he), fun id hid => ?_⟩
    obtain ⟨e, he, hx⟩ := mem_level0TxIDs.mp (M.txids m₀ hm₀ ▸ hid)
    exact ⟨e, (hperm 0).mem_iff.mpr he, hx⟩
  · have M := (mergeStumpVariants_ends hsdk _).result _ hmerge
    refine ⟨fun l e he => ?_, fun id hid => mem_level0TxIDs.mp (M.txids m hm ▸ hid)⟩
    obtain ⟨st, hst, hs⟩ := M.source hm he
    exact ⟨st, mem_of_mem_dropVariants hst, hs⟩

end Steps

end Arcade.Bump
