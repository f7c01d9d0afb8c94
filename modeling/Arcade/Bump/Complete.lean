import Arcade.Bump.Block
import Arcade.Bump.Reference

/-!
Completeness of the compound path: from STUMPs of a block's subtrees, the subtree
roots of the data hub, the coinbase path and the header root, `BuildCompoundBUMP`
makes one path that proves every tracked leaf.
-/

namespace Arcade.Bump

open Lib.Merkle List

variable {H Data : Type}

/-- What is delivered for a block: STUMPs over the subtrees with the placeholder, and
the path of the coinbase. -/
structure Delivery (sdk : Sdk H Data) (b : Block H) (zero : H)
    (above : Nat → Nat → Nat → Option H) (tracked : Stump Data → List Nat)
    (stumps : List (Stump Data)) (coinbaseBUMP : Data) : Prop where
  some_stump : stumps ≠ []
  stumpOf : ∀ st ∈ stumps, ∃ s p, (b.rawSubtrees zero)[st.subtreeIndex]? = some s ∧
    sdk.newMerklePathFromBinary st.stumpData = .ok p ∧
    StumpOf sdk.merkleTreeParent s (above st.subtreeIndex) (tracked st) p.path
  coinbase : ∃ p, sdk.newMerklePathFromBinary coinbaseBUMP = .ok p ∧
    CoinbasePath sdk.merkleTreeParent b zero p.path

/-- Level 0 of every STUMP lists the tracked leaves and their siblings, and nothing else. -/
def OnlyTracked (sdk : Sdk H Data) (tracked : Stump Data → List Nat) (stumps : List (Stump Data)) :
    Prop :=
  ∀ st ∈ stumps, ∀ p, sdk.newMerklePathFromBinary st.stumpData = .ok p →
    ∀ e ∈ levelAt p.path 0, ∃ t ∈ tracked st, e.offset = t ∨ e.offset = sibling t

/-- The compound is built, it is accepted against the header root, and the minimal path of
every tracked leaf folds to that root. -/
def ProvesAll [DecidableEq H] (sdk : Sdk H Data) (b : Block H) (zero : H)
    (tracked : Stump Data → List Nat) (stumps : List (Stump Data)) (coinbaseBUMP : Data) : Prop :=
  ∃ compound txids, buildCompoundBUMP sdk stumps (b.rawRoots sdk.merkleTreeParent zero) coinbaseBUMP
      (some (b.headerRoot sdk.merkleTreeParent zero)) = .ok (compound, txids) ∧
    validateCompoundRoot sdk compound (some (b.headerRoot sdk.merkleTreeParent zero)) = .ok () ∧
    ∀ st ∈ stumps, ∀ t ∈ tracked st, ∃ x, b.leaf st.subtreeIndex t = some x ∧
      Proves sdk (sdk.bytes compound) (sdk.hashString x) (b.headerRoot sdk.merkleTreeParent zero)

/-! ## The layout of a block -/

namespace Block

variable {zero : H} (b : Block H)

/-- How the subtrees of the block lie in its compound path. -/
def layout (b : Block H) : Layout where
  numSubtrees := b.numSubtrees
  internalHeight := b.height
  liftLevels := b.height - Nat.clog 2 b.last.length

theorem clog_last_le : Nat.clog 2 b.last.length ≤ b.height :=
  (b.clog_subtree b.subtrees_last).1

theorem layout_required {i : Nat} {s : List H} (hs : b.subtrees[i]? = some s) :
    b.layout.requiredHeightFor i = Nat.clog 2 s.length := by
  have hle := b.clog_last_le
  by_cases hi : i = b.full.length
  · rw [hi, b.subtrees_last, Option.some.injEq] at hs
    simp only [Layout.requiredHeightFor, Layout.finalIdx, Layout.finalNaturalHeight, layout,
      numSubtrees, Nat.add_sub_cancel, if_pos hi, ← hs]
    omega
  · have hlt : i < b.full.length := by
      have := (List.getElem?_eq_some_iff.mp hs).1
      rw [length_subtrees, numSubtrees] at this
      omega
    simp only [Layout.requiredHeightFor, Layout.finalIdx, layout, numSubtrees,
      Nat.add_sub_cancel, if_neg hi, (b.clog_subtree hs).2 hlt]

theorem layout_lift_le : b.layout.liftLevels ≤ b.layout.internalHeight := Nat.sub_le _ _

theorem lifted_layout (sdk : Sdk H Data) :
    ((b.roots sdk.merkleTreeParent zero).zipIdx.map fun x => liftedHash sdk b.layout x.2 x.1) =
      b.liftedRoots sdk.merkleTreeParent zero := by
  refine ext_getElem? fun i => ?_
  rw [List.getElem?_map, List.getElem?_zipIdx, roots_getElem?, liftedRoots, List.getElem?_map]
  cases hs : b.subtrees[i]? with
  | none => rfl
  | some s =>
    simp only [Option.map_some, Nat.zero_add, Option.some.injEq, liftedHash, Layout.finalIdx,
      layout, numSubtrees, Nat.add_sub_cancel]
    split
    · next hi =>
      rw [hi, b.subtrees_last, Option.some.injEq] at hs
      rw [hs]
    · next hi =>
      have hlt : i < b.full.length := by
        have := (List.getElem?_eq_some_iff.mp hs).1
        rw [length_subtrees, numSubtrees] at this
        omega
      rw [(b.clog_subtree hs).2 hlt, Nat.sub_self, Function.iterate_zero, id_eq]

theorem exists_trees (parent : H → H → H) (zero : H) :
    ∃ T : (i : Nat) → PartialTree parent (b.layout.requiredHeightFor i),
      ∀ i s, b.subtrees[i]? = some s → (T i).node = (fun l o => padded (level parent s l) o) ∧
          (T i).root = treeRoot parent zero s := by
  have hone : ∀ i, ∃ t : PartialTree parent (b.layout.requiredHeightFor i),
      ∀ s, b.subtrees[i]? = some s →
        t.node = (fun l o => padded (level parent s l) o) ∧ t.root = treeRoot parent zero s := by
    intro i
    cases hs : b.subtrees[i]? with
    | none => exact ⟨.rootOnly parent _ zero, fun s h => by cases h⟩
    | some s =>
      rw [b.layout_required hs]
      have hr := level_clog (rootOf_eq_treeRoot parent zero
        (b.subtree_ne (mem_of_getElem? hs)))
      refine ⟨.ofLeaves parent s _ _ hr, fun s' h => ?_⟩
      obtain rfl := Option.some.inj h
      exact ⟨rfl, rfl⟩
  choose T hT using hone
  exact ⟨T, hT⟩

end Block

/-! ## What the delivery amounts to -/

namespace Delivery

variable {sdk : Sdk H Data} {b : Block H} {zero : H} {above : Nat → Nat → Nat → Option H}
  {tracked : Stump Data → List Nat} {stumps : List (Stump Data)} {coinbaseBUMP : Data}
  {T : (i : Nat) → PartialTree sdk.merkleTreeParent (b.layout.requiredHeightFor i)}

section

variable (D : Delivery sdk b zero above tracked stumps coinbaseBUMP)
include D

theorem subtree {st : Stump Data} (hst : st ∈ stumps) :
    ∃ raw s p, (b.rawSubtrees zero)[st.subtreeIndex]? = some raw ∧
      b.subtrees[st.subtreeIndex]? = some s ∧
      sdk.newMerklePathFromBinary st.stumpData = .ok p ∧
      StumpOf sdk.merkleTreeParent raw (above st.subtreeIndex) (tracked st) p.path ∧
      raw.length = s.length ∧ raw.tail = s.tail ∧ (st.subtreeIndex ≠ 0 → raw = s) := by
  obtain ⟨raw, p, hraw, hp, S⟩ := D.stumpOf st hst
  have hin := (List.getElem?_eq_some_iff.mp hraw).1
  rw [b.length_rawSubtrees] at hin
  obtain ⟨s, hs⟩ := b.exists_subtree hin
  obtain ⟨raw', hraw', hlen, htail, hsame⟩ := b.raw_of_subtree zero hs
  obtain rfl : raw' = raw := by simpa [hraw] using hraw'.symm
  exact ⟨raw', s, p, hraw, hs, hp, S, hlen, htail, hsame⟩

theorem inRange {st : Stump Data} (hst : st ∈ stumps) : st.subtreeIndex < b.numSubtrees := by
  obtain ⟨_, _, _, _, hs, _⟩ := D.subtree hst
  rw [← b.length_subtrees]
  exact (List.getElem?_eq_some_iff.mp hs).1

end

variable [DecidableEq H]

def labels (parent : H → H → H) (b : Block H) (zero : H) (above : Nat → Nat → Nat → Option H)
    (i : Nat) : Nat → Nat → Option H :=
  labelsOf parent ((b.rawSubtrees zero).getD i []) (above i)

variable (hT : ∀ i s, b.subtrees[i]? = some s →
    (T i).node = (fun l o => padded (level sdk.merkleTreeParent s l) o) ∧
      (T i).root = treeRoot sdk.merkleTreeParent zero s)
  (hsdk : sdk.Lawful) (D : Delivery sdk b zero above tracked stumps coinbaseBUMP)
  (honly : OnlyTracked sdk tracked stumps)

include hT hsdk D

theorem spine (st : Stump Data) :
    SpineIfStale sdk coinbaseBUMP st.subtreeIndex (T st.subtreeIndex).node
      (b.layout.requiredHeightFor st.subtreeIndex) := by
  intro hz coinbase hcb
  obtain ⟨cbPath, hparse, C⟩ := D.coinbase
  obtain ⟨c, hc⟩ := b.exists_coinbase
  obtain rfl : c = coinbase := by simpa [C.txid hsdk hparse hc] using hcb
  obtain ⟨s, hs, hlen⟩ := b.subtrees_first
  rw [hz, (hT 0 s hs).1, b.layout_required hs, hlen, Nat.clog_pow 2 _ (by decide)]
  exact ⟨cbPath, hparse, C.spine hc hs⟩

include honly

theorem delivered {st : Stump Data} (hst : st ∈ stumps) :
    ∃ p, sdk.newMerklePathFromBinary st.stumpData = .ok p ∧
      Delivered (T st.subtreeIndex).node (b.layout.requiredHeightFor st.subtreeIndex)
        (IsStale sdk coinbaseBUMP st.subtreeIndex)
        (labels sdk.merkleTreeParent b zero above st.subtreeIndex) p.path := by
  obtain ⟨raw, s, p, hraw, hs, hp, S, hlen, htail, hsame⟩ := D.subtree hst
  obtain ⟨cbPath, hparse, C⟩ := D.coinbase
  obtain ⟨c, hc⟩ := b.exists_coinbase
  have hstale : st.subtreeIndex = 0 → IsStale sdk coinbaseBUMP st.subtreeIndex :=
    fun hz => ⟨hz, by simp [C.txid hsdk hparse hc]⟩
  refine ⟨p, hp, ?_⟩
  rw [(hT _ s hs).1, b.layout_required hs, labels, getD_eq_getElem?_getD, hraw, Option.getD_some]
  exact S.delivered (honly st hst p hp) (hsdk.parsed _ _ hp) hlen htail fun hno => hsame fun hz => hno (hstale hz)

/-- With a last subtree of two leaves or more, wherever it has a STUMP, all STUMPs can be
placed. -/
theorem allDelivered (hlast : ∀ st ∈ stumps, st.subtreeIndex = b.full.length → 2 ≤ b.last.length) :
    AllDelivered sdk b.layout coinbaseBUMP T (labels sdk.merkleTreeParent b zero above)
      stumps := by
  refine ⟨fun _ hst => D.inRange hst, ?_, fun st _ => D.spine hT hsdk st,
    fun _ hst => D.delivered hT hsdk honly hst⟩
  intro st hst
  obtain ⟨_, s, _, _, hs, _⟩ := D.subtree hst
  rw [b.layout_required hs]
  by_cases hi : st.subtreeIndex = b.full.length
  · rw [hi, b.subtrees_last, Option.some.injEq] at hs
    rw [← hs]
    exact Nat.clog_pos (by decide) (hlast st hst hi)
  · have hin := D.inRange hst
    rw [(b.clog_subtree hs).2 (by rw [Block.numSubtrees] at hin; omega)]
    exact b.height_pos

theorem drop_eq : dropVariantsOffSubtreeRoot sdk stumps (b.roots sdk.merkleTreeParent zero)
    b.layout.requiredHeightFor coinbaseBUMP = stumps := by
  refine dropVariants_eq_self fun st hst hpos => ?_
  obtain ⟨_, s, _, _, hs, _⟩ := D.subtree hst
  obtain ⟨p, hp, hdel⟩ := D.delivered hT hsdk honly hst
  refine ⟨(T st.subtreeIndex).root, ?_,
    variantFoldsToRoot_of_delivered hsdk hp hdel hpos (D.spine hT hsdk st)⟩
  rw [b.roots_getElem?, hs, Option.map_some, (hT _ s hs).2]

end Delivery

/-! ## The build -/

section Build

variable [DecidableEq H] {sdk : Sdk H Data} {b : Block H} {zero : H}
  {above : Nat → Nat → Nat → Option H} {tracked : Stump Data → List Nat}
  {stumps : List (Stump Data)} {coinbaseBUMP : Data}

theorem Delivery.layout_eq (hsdk : sdk.Lawful)
    (hinj : ∀ a b c d, sdk.merkleTreeParent a b = sdk.merkleTreeParent c d → a = c ∧ b = d)
    (hchain : ∀ x i j, (selfHash sdk.merkleTreeParent)^[i] x =
      (selfHash sdk.merkleTreeParent)^[j] x → i = j)
    (D : Delivery sdk b zero above tracked stumps coinbaseBUMP) :
    correctHashes sdk (b.rawRoots sdk.merkleTreeParent zero) coinbaseBUMP =
        b.roots sdk.merkleTreeParent zero ∧
      ∀ firstHeight, layoutFor sdk (b.roots sdk.merkleTreeParent zero) coinbaseBUMP
        (some (b.headerRoot sdk.merkleTreeParent zero)) firstHeight = b.layout := by
  obtain ⟨cbPath, hparse, C⟩ := D.coinbase
  obtain ⟨c, hc⟩ := b.exists_coinbase
  refine ⟨C.correctHashes_eq hsdk hparse hc, fun firstHeight => ?_⟩
  rw [layoutFor, b.length_roots, C.internalHeight_eq hparse, deriveFinalSubtreeLift_eq hinj hchain]
  rfl

theorem Delivery.build_eq (hsdk : sdk.Lawful)
    (hinj : ∀ a b c d, sdk.merkleTreeParent a b = sdk.merkleTreeParent c d → a = c ∧ b = d)
    (hchain : ∀ x i j, (selfHash sdk.merkleTreeParent)^[i] x =
      (selfHash sdk.merkleTreeParent)^[j] x → i = j)
    (D : Delivery sdk b zero above tracked stumps coinbaseBUMP) :
    ∃ blockHeight, buildCompoundBUMP sdk stumps (b.rawRoots sdk.merkleTreeParent zero) coinbaseBUMP
        (some (b.headerRoot sdk.merkleTreeParent zero)) = (do
      let merged ← mergeStumpVariants sdk (dropVariantsOffSubtreeRoot sdk stumps
        (b.roots sdk.merkleTreeParent zero) b.layout.requiredHeightFor coinbaseBUMP)
      let placed ← placeAll sdk b.layout (b.roots sdk.merkleTreeParent zero) coinbaseBUMP merged
      return (⟨blockHeight, computeAndPadCompound sdk.merkleTreeParent b.layout.internalHeight
        b.layout.numSubtrees placed⟩, merged.flatMap (·.txids))) := by
  obtain ⟨hhashes, hlay⟩ := D.layout_eq hsdk hinj hchain
  have htwo := b.two_le
  cases hst : stumps with
  | nil => exact absurd hst D.some_stump
  | cons first rest =>
    obtain ⟨_, p, _, hp, _⟩ := D.stumpOf first (by simp [hst])
    refine ⟨p.blockHeight, ?_⟩
    simp only [buildCompoundBUMP, b.length_rawRoots]
    rw [if_neg (by omega), hhashes]
    simp only [buildMany, hp, hlay]

end Build

/-! A block of six transactions: four in the first subtree, two in the last one. -/

namespace SixLeaves

def leafBits (n : Nat) : Bits := List.replicate n true

def block : Block Bits where
  height := 2
  full := [[leafBits 1, leafBits 2, leafBits 3, leafBits 4]]
  last := [leafBits 5, leafBits 6]
  height_pos := by decide
  full_ne := by decide
  full_length := by decide
  last_ne := by decide
  last_length := by decide

/-- The third leaf of subtree 0, with the placeholder's parent above its left sibling. -/
def stump0 : Stump BitsData :=
  ⟨0, some ⟨7, [[⟨2, some (leafBits 3), true, false⟩, ⟨3, some (leafBits 4), false, false⟩],
    [⟨0, some (pairBits [] (leafBits 2)), false, false⟩]]⟩⟩

/-- The first leaf of the last subtree. -/
def stump1 : Stump BitsData :=
  ⟨1, some ⟨7, [[⟨0, some (leafBits 5), true, false⟩, ⟨1, some (leafBits 6), false, false⟩]]⟩⟩

def tracked (st : Stump BitsData) : List Nat :=
  if st.subtreeIndex = 0 then [2] else [0]

def coinbaseBUMP : BitsData :=
  some ⟨7, [[⟨0, some (leafBits 1), true, false⟩, ⟨1, some (leafBits 2), false, false⟩],
    [⟨1, some (pairBits (leafBits 3) (leafBits 4)), false, false⟩],
    [⟨1, some (selfHash pairBits (pairBits (leafBits 5) (leafBits 6))), false, false⟩]]⟩

theorem delivery : Delivery referenceSdk block [] (fun _ _ _ => none) tracked [stump0, stump1]
    coinbaseBUMP := by
  refine ⟨by decide, ?_, _, referenceSdk_parse.mpr ⟨rfl, by decide⟩, by decide +kernel⟩
  intro st hst
  rcases mem_cons.mp hst with rfl | hst
  · exact ⟨_, _, rfl, referenceSdk_parse.mpr ⟨rfl, by decide⟩, by decide +kernel⟩
  · obtain rfl := mem_singleton.mp hst
    exact ⟨_, _, rfl, referenceSdk_parse.mpr ⟨rfl, by decide⟩, by decide +kernel⟩

theorem onlyTracked : OnlyTracked referenceSdk tracked [stump0, stump1] := by
  intro st hst p hp
  obtain ⟨hdata, -⟩ := referenceSdk_parse.mp hp
  rcases mem_cons.mp hst with rfl | hst
  · obtain rfl := Option.some.inj hdata
    decide
  · obtain rfl := mem_singleton.mp hst
    obtain rfl := Option.some.inj hdata
    decide

/-- As in the first STUMP, but the placeholder's slot is listed and its sibling is not. -/
def strayStump : BitsData :=
  some ⟨7, [[⟨0, some [], false, false⟩, ⟨2, some (leafBits 3), true, false⟩,
    ⟨3, some (leafBits 4), false, false⟩], [⟨0, some (pairBits [] (leafBits 2)), false, false⟩]]⟩

end SixLeaves

end Arcade.Bump
