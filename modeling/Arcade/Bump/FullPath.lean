import Arcade.Bump.Single
import Arcade.Bump.Complete

/-!
`assembleFullPath`: the path of a block from one STUMP alone. In a block of one subtree the
STUMP, with the coinbase in its place and the coinbase path on top, proves what it tracks.
-/

namespace Arcade.Bump

open Lib.Merkle

variable {H Data : Type}

/-- The parent of the pair at slots `2 * i` and `2 * i + 1`. -/
def pairParent (parent : H → H → H) (level : Level H) (i : Nat) : Option H :=
  (leafAt level (2 * i)).bind fun left => (leafAt level (2 * i + 1)).bind fun right =>
    if right.duplicate then left.hash.map (selfHash parent)
    else if left.duplicate then right.hash.map (selfHash parent)
    else left.hash.bind fun a => right.hash.map (parent a)

/-- Add the first `count` parents of a level, where `next` lacks them. -/
def addPairs (parent : H → H → H) (level : Level H) (count : Nat) (next : Level H) : Level H :=
  (List.range count).foldl (fun next i =>
    if next.any (fun e => e.offset == i) then next
    else match pairParent parent level i with
      | none => next
      | some h => next ++ [{ offset := i, hash := some h }]) next

def padAndComputeFrom (parent : H → H → H) : List (Level H) → Nat → Level H → List (Level H)
  | [], _, cur => [cur]
  | next :: rest, realCount, cur =>
    let padded := padLevel realCount cur
    padded :: padAndComputeFrom parent rest ((realCount + 1) / 2)
      (addPairs parent padded ((realCount + 1) / 2) next)

def padAndComputeBlockLevel (parent : H → H → H) (fromLevel realNodes : Nat)
    (path : List (Level H)) : List (Level H) :=
  path.take fromLevel ++ match path.drop fromLevel with
    | [] => []
    | cur :: rest => padAndComputeFrom parent rest realNodes cur

/-- The offset of the first leaf marked as a txid. -/
def txOffset (level0 : Level H) : Nat := ((level0.find? (·.txid)).map (·.offset)).getD 0

/-- Here no subtree is lifted, and only the STUMP's own root is left to be computed. -/
def assembleFullPath (sdk : Sdk H Data) (stumpData : Data) (subtreeIndex : Nat)
    (subtreeHashes : List H) (coinbaseBUMP : Data) : Except String (MerklePath H × Nat) :=
  if subtreeHashes.length ≤ 1 then
    (assembleSingle sdk stumpData subtreeIndex subtreeHashes.length coinbaseBUMP).map fun p =>
      (p, txOffset (levelAt p.path 0))
  else do
    validateSubtreeIndex subtreeIndex subtreeHashes.length
    match sdk.newMerklePathFromBinary stumpData with
    | .error err => .error ("failed to parse STUMP: " ++ err)
    | .ok stumpPath =>
      let lay : Layout := ⟨subtreeHashes.length, stumpPath.path.length, 0⟩
      let path := swapCoinbase sdk coinbaseBUMP subtreeIndex stumpPath.path
      let full := addLeaves (List.replicate lay.totalHeight [])
        (placements lay subtreeIndex path ++ seeds sdk lay subtreeHashes (subtreeIndex == ·))
      .ok (⟨stumpPath.blockHeight, padAndComputeBlockLevel sdk.merkleTreeParent lay.internalHeight
          lay.numSubtrees (computeMissingHashes sdk.merkleTreeParent full)⟩,
        txOffset ((levelAt path 0).map (shiftElement lay subtreeIndex 0)))

/-! ## Blocks of one subtree -/

/-- The leaves that `p` selects have their way up: each sibling is listed, or a leaf with its
hash lies under it. -/
def Ways (path : List (Level H)) (p : PathElement H → Bool) : Prop :=
  ∀ e ∈ levelAt path 0, p e = true → ∀ l < path.length,
    HasSlot (levelAt path l) (sibling (e.offset / 2 ^ l)) ∨
      ∃ e' ∈ levelAt path 0, e'.hash.isSome ∧ e'.offset / 2 ^ l = sibling (e.offset / 2 ^ l)

/-- A STUMP over the leaves `s` with a placeholder for the coinbase, and the coinbase path: it
climbs the left spine of the subtree and on to the header root. -/
structure SingleBlock (sdk : Sdk H Data) (s : List H) (zero header : H)
    (stump cbPath : List (Level H)) : Prop where
  height : stump.length = Nat.clog 2 s.length
  pos : 1 ≤ stump.length
  le : stump.length ≤ cbPath.length
  shows : Shows sdk.merkleTreeParent (s.set 0 zero) stump
  tracks : ∃ e ∈ levelAt stump 0, e.hash.isSome
  coinbase : coinbaseLeaf cbPath = s[0]?
  spine : ∀ l < stump.length,
    (findLeafByOffset cbPath l 1).bind (·.hash) = padded (level sdk.merkleTreeParent s l) 1
  siblings : ∀ l < cbPath.length, ((findLeafByOffset cbPath l 1).bind (·.hash)).isSome
  folds : (s[0]?).bind (spineHash sdk cbPath · cbPath.length) = some header

namespace SingleBlock

variable [DecidableEq H] {sdk : Sdk H Data} {s : List H} {zero header c : H}
  {stump cbPath : MerklePath H} {stumpData coinbaseBUMP : Data}
  (B : SingleBlock sdk s zero header stump.path cbPath.path)

include B

omit [DecidableEq H] in
theorem climbs (hc : s[0]? = some c) :
    Spine sdk.merkleTreeParent (fun l o => padded (level sdk.merkleTreeParent s l) o)
      (Nat.clog 2 s.length) c cbPath.path := by
  refine ⟨B.height ▸ B.le, ?_, fun l hl => ?_⟩
  · rw [level, padded_of_lt (List.getElem?_eq_some_iff.mp hc).1, hc]
  · have hl' : l < stump.path.length := B.height ▸ hl
    obtain ⟨v, hv⟩ := Option.isSome_iff_exists.mp (B.siblings l (lt_of_lt_of_le hl' B.le))
    exact ⟨v, hv, fun w hw =>
      padded_level_succ sdk.merkleTreeParent (o := 0) hw ((B.spine l hl').symm.trans hv)⟩

theorem delivered (hsdk : sdk.Lawful) (hstump : sdk.newMerklePathFromBinary stumpData = .ok stump)
    (hext : extractCoinbaseTxID sdk coinbaseBUMP = some c)
    (hways : Ways stump.path fun e => e.hash.isSome) :
    Delivered (fun l o => padded (level sdk.merkleTreeParent s l) o) (Nat.clog 2 s.length)
      (IsStale sdk coinbaseBUMP 0)
      (fun l o => (leafAt (levelAt stump.path l) o).bind (·.hash)) stump.path := by
  obtain ⟨e, he, hh⟩ := B.tracks
  refine B.shows.delivered (hsdk.parsed _ _ hstump) (by simp) (by cases s <;> rfl)
    (fun hno => absurd ⟨rfl, by simp [hext]⟩ hno) ?_ ?_ ⟨_, e, he, rfl, hh⟩
  · intro l e he v hv
    rw [leafAt_of_mem (B.shows.distinct_levelAt l) he, Option.bind_some, hv]
  · rintro _ ⟨e, he, rfl, hh⟩ l hl
    refine (hways e he hh l (B.height ▸ hl)).imp_right ?_
    rintro ⟨e', he', hh', ho⟩
    exact ⟨e'.offset, ⟨e', he', rfl, hh'⟩, ho⟩

/-- The assembled path proves every txid of the STUMP, and it is accepted. -/
theorem assembled_proves (hsdk : sdk.Lawful)
    (hstump : sdk.newMerklePathFromBinary stumpData = .ok stump)
    (hcoinbase : sdk.newMerklePathFromBinary coinbaseBUMP = .ok cbPath)
    (hways : Ways stump.path fun e => e.hash.isSome) {subtreeHashes : List H}
    (hone : subtreeHashes.length = 1) :
    ∃ p offset, assembleFullPath sdk stumpData 0 subtreeHashes coinbaseBUMP = .ok (p, offset) ∧
      (∀ e ∈ levelAt stump.path 0, e.offset ≠ 0 → ∀ x, e.hash = some x →
        sdk.computeRoot p x = .ok header) ∧
      validateCompoundRoot sdk p (some header) = .ok () := by
  obtain ⟨c, hc, hfold⟩ := Option.bind_eq_some_iff.mp B.folds
  have hempty := hsdk.empty _ _ hcoinbase
  have hext : extractCoinbaseTxID sdk coinbaseBUMP = some c := by
    simp [extractCoinbaseTxID, hempty, hcoinbase, B.coinbase, hc]
  have hpos : 0 < Nat.clog 2 s.length := B.height ▸ B.pos
  have S := B.climbs hc
  have hS : SpineIfStale sdk coinbaseBUMP 0
      (fun l o => padded (level sdk.merkleTreeParent s l) o) (Nat.clog 2 s.length) := by
    rintro - c' hc'
    obtain rfl := Option.mem_unique hext hc'
    exact ⟨cbPath, hcoinbase, S⟩
  have D := B.delivered hsdk hstump hext hways
  have R := D.ready hpos hS
  -- the tree over the leaves, extended by the coinbase path
  obtain ⟨r, hr⟩ := rootOf_isSome sdk.merkleTreeParent (show s ≠ [] by rintro rfl; cases hc)
  let T : PartialTree sdk.merkleTreeParent (Nat.clog 2 s.length) :=
    .ofLeaves sdk.merkleTreeParent s _ r (level_clog hr)
  obtain ⟨L, hzero⟩ := listed_computeMissing (T := T) R
    ((length_swapCoinbase _ _ _ _).trans B.height)
  obtain ⟨k, K, hk, LK, hzero', hroot⟩ := listed_extendFrom cbPath.path
    (cbPath.path.length - Nat.clog 2 s.length) hpos L fun l _ o v hv => PartialTree.nodeWithin_lt hv
  have hheader : K.root = header := by
    obtain ⟨w, hw, hnode⟩ := S.spineHash_eq (hsdk.parsed _ _ hcoinbase) (le_refl _)
    obtain rfl : w = T.root := Option.some.inj (hnode.symm.trans T.node_root)
    have hle := B.le
    rw [B.height] at hle
    rw [Nat.add_sub_of_le hle] at hroot
    have h := hroot (hsdk.parsed _ _ hcoinbase) B.siblings c hw
    exact Option.mem_unique h hfold
  have hassemble : assembleSingle sdk stumpData 0 subtreeHashes.length coinbaseBUMP =
      .ok { stump with
        path := extendFrom cbPath.path (cbPath.path.length - Nat.clog 2 s.length)
          (Nat.clog 2 s.length) (computeMissingHashes sdk.merkleTreeParent
            (swapCoinbase sdk coinbaseBUMP 0 stump.path)) } := by
    simp [assembleSingle, validateSubtreeIndex, hone, hstump, extendSubtreeToBlockRoot, hempty,
      hcoinbase, B.height, bind, Except.bind]
  have hle : subtreeHashes.length ≤ 1 := le_of_eq hone
  refine ⟨_, _, by rw [assembleFullPath, if_pos hle, hassemble]; rfl, ?_, ?_⟩
  · intro e he hne x hx
    obtain ⟨e', he', -, -, hsame⟩ := D.leaf_swap hpos hS he (by simp [hx])
    rw [← hzero, ← hzero'] at he'
    rw [← hheader]
    exact hsdk.root_found _ x _ (LK.view.marked LK.length)
      (LK.view.foldRoot_eq LK.length hk he' ((hsame fun h => hne h.2).trans hx))
  · rw [← hheader]
    obtain ⟨t, e, he, ht⟩ := R.hasLeaf
    exact LK.validates hsdk hk ⟨e, by rw [hzero', hzero]; exact he, ht⟩

end SingleBlock

/-! The first subtree of the six leaves, as if the block had no other. -/

namespace SixLeaves

def pathOfData (data : BitsData) : MerklePath Bits := data.getD ⟨0, []⟩

def leaves : List Bits := [leafBits 1, leafBits 2, leafBits 3, leafBits 4]

def header : Bits := block.headerRoot pairBits []

end SixLeaves

open SixLeaves in
theorem assembled_proves_sixLeaves :
    ∃ p offset, assembleFullPath referenceSdk stump0.stumpData 0 [header] coinbaseBUMP =
        .ok (p, offset) ∧
      (∀ e ∈ levelAt (pathOfData stump0.stumpData).path 0, e.offset ≠ 0 → ∀ x, e.hash = some x →
        referenceSdk.computeRoot p x = .ok header) ∧
      validateCompoundRoot referenceSdk p (some header) = .ok () :=
  have hblock : SingleBlock referenceSdk leaves [] header (pathOfData stump0.stumpData).path
      (pathOfData coinbaseBUMP).path :=
    ⟨by decide, by decide, by decide, by decide +kernel, by decide, by decide, by decide,
      by decide, by decide +kernel⟩
  hblock.assembled_proves referenceSdk_lawful (referenceSdk_parse.mpr ⟨rfl, by decide⟩)
    (referenceSdk_parse.mpr ⟨rfl, by decide⟩) (by unfold Ways; decide) rfl

open SixLeaves in
/-- Every tracked leaf of the STUMP has its way up, but the hash above the placeholder is
dropped and cannot be computed again. -/
theorem strayStump_fails : SingleBlock referenceSdk leaves [] header (pathOfData strayStump).path
        (pathOfData coinbaseBUMP).path ∧
      Ways (pathOfData strayStump).path (·.txid) ∧
      ∃ p offset, assembleFullPath referenceSdk strayStump 0 [header] coinbaseBUMP =
          .ok (p, offset) ∧
        referenceSdk.computeRoot p (leafBits 3) = .error "missing hash" ∧
        validateCompoundRoot referenceSdk p (some header) ≠ .ok () :=
  ⟨⟨by decide, by decide, by decide, by decide +kernel, by decide, by decide, by decide,
    by decide, by decide +kernel⟩, by unfold Ways; decide, _, _, rfl, rfl, by decide⟩

end Arcade.Bump
