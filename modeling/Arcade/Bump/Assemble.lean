import Arcade.Bump.Path

/-!
Package `bump` up to the single-subtree path: filling in parents, putting the
real coinbase in the place of its placeholder, minimal paths, and the check of a
path against the block header.
-/

namespace Arcade.Bump

open Lib.Merkle

variable {H Data : Type}

/-! ## Filling in parents -/

/-- The parent of `elem`, when its sibling is among `level` and enough hashes are known. -/
def missingParent (parent : H → H → H) (level : Level H) (elem : PathElement H) : Option H :=
  elem.hash.bind fun h =>
    (leafAt level (sibling elem.offset)).bind fun sib => combine parent elem.offset h sib

/-- Add the parents that `parentOf` finds and `next` lacks. -/
def addParents (parentOf : PathElement H → Option H) (level next : Level H) : Level H :=
  level.foldl (fun next elem =>
    if next.any (fun e => e.offset == elem.offset / 2) then next
    else match parentOf elem with
      | none => next
      | some h => next ++ [{ offset := elem.offset / 2, hash := some h }]) next

/-- The level after `cur` completed from it, and so on to the top. -/
def computeMissingFrom (parent : H → H → H) : List (Level H) → Level H → List (Level H)
  | [], cur => [cur]
  | next :: rest, cur =>
    cur :: computeMissingFrom parent rest (addParents (missingParent parent cur) cur next)

def computeMissingHashes (parent : H → H → H) : List (Level H) → List (Level H)
  | [] => []
  | cur :: rest => computeMissingFrom parent rest cur

/-! ## The coinbase -/

section Coinbase

variable (sdk : Sdk H Data)

def coinbaseLeaf (cbPath : List (Level H)) : Option H :=
  ((levelAt cbPath 0).find? fun e => e.offset == 0 && e.hash.isSome).bind (·.hash)

def extractCoinbaseTxID (coinbaseBUMP : Data) : Option H :=
  if sdk.isEmpty coinbaseBUMP then none
  else match sdk.newMerklePathFromBinary coinbaseBUMP with
    | .error _ => none
    | .ok cbPath => coinbaseLeaf cbPath.path

/-- Give the first element that `p` selects the hash `h`. -/
def setFirst (p : PathElement H → Bool) (h : H) : Level H → Level H
  | [] => []
  | e :: rest => if p e then { e with hash := some h } :: rest else e :: setFirst p h rest

/-- Climb the left spine of the coinbase path, replacing the hashes at offset 0. -/
def walkCoinbase (cbPath : List (Level H)) : Nat → H → List (Level H) → List (Level H)
  | _, _, [] => []
  | level, currentHash, elems :: rest =>
    if level < cbPath.length then
      setFirst (fun e => e.offset == 0 && !e.txid) currentHash elems ::
        match (findLeafByOffset cbPath level 1).bind (·.hash) with
        | none => rest
        | some s => walkCoinbase cbPath (level + 1) (sdk.merkleTreeParent currentHash s) rest
    else elems :: rest

def applyCoinbaseToSTUMP (coinbaseTxID : H) (coinbaseBUMP : Data) : List (Level H) → List (Level H)
  | [] => []
  | level0 :: upper =>
    if level0.any fun e => e.offset == 0 then
      -- the stale hashes above the placeholder go; they are computed again from level 0
      setFirst (fun e => e.offset == 0) coinbaseTxID level0 ::
        upper.map fun elems => elems.filter fun e => e.offset != 0
    else match sdk.newMerklePathFromBinary coinbaseBUMP with
      | .error _ => level0 :: upper
      | .ok cbPath => walkCoinbase sdk cbPath.path 0 coinbaseTxID (level0 :: upper)

/-- The working hash of the coinbase after the first levels of its own path. -/
def spineHash (cbPath : List (Level H)) (coinbase : H) : Nat → Option H
  | 0 => some coinbase
  | level + 1 =>
    (spineHash cbPath coinbase level).bind fun working =>
      (findLeafByOffset cbPath level 1).bind fun sib =>
        if sib.duplicate then some (sdk.merkleTreeParent working working)
        else sib.hash.map (sdk.merkleTreeParent working)

def subtree0RootFromCoinbaseBUMP (coinbaseBUMP : Data) (internalHeight : Nat) : Option H :=
  if sdk.isEmpty coinbaseBUMP ∨ internalHeight = 0 then none
  else match sdk.newMerklePathFromBinary coinbaseBUMP with
    | .error _ => none
    | .ok cbPath =>
      if cbPath.path.length < internalHeight then none
      else (coinbaseLeaf cbPath.path).bind fun coinbase =>
        spineHash sdk cbPath.path coinbase internalHeight

def correctedSubtree0Root (coinbaseBUMP : Data) (numSubtrees : Nat) : Option H :=
  match sdk.newMerklePathFromBinary coinbaseBUMP with
  | .error _ => none
  | .ok cbPath =>
    if cbPath.path.length ≤ Nat.clog 2 numSubtrees then none
    else subtree0RootFromCoinbaseBUMP sdk coinbaseBUMP
      (cbPath.path.length - Nat.clog 2 numSubtrees)

end Coinbase

/-! ## Minimal paths -/

def climbSiblings : List (Level H) → Nat → List (Level H)
  | [], _ => []
  | level :: rest, offset =>
    (leafAt level (sibling offset)).toList :: climbSiblings rest (offset / 2)

def extractMinimalPath (fullPath : MerklePath H) (txOffset : Nat) : MerklePath H where
  blockHeight := fullPath.blockHeight
  path := match fullPath.path with
    | [] => []
    | level0 :: rest =>
      ((leafAt level0 txOffset).toList ++ (leafAt level0 (sibling txOffset)).toList) ::
        climbSiblings rest (txOffset / 2)

section Extract

variable [DecidableEq H] (sdk : Sdk H Data)

def extractMinimalPathForTx (bumpData : Data) (txid : String) : Option Data :=
  match sdk.newMerklePathFromBinary bumpData, sdk.newHashFromHex txid with
  | .ok compound, .ok txHash =>
    (leafOf (levelAt compound.path 0) txHash).map fun leaf =>
      sdk.bytes (extractMinimalPath compound leaf.offset)
  | _, _ => none

def validateCompoundRoot (compound : MerklePath H) (expected : Option H) : Except String Unit :=
  match expected with
  | none => .error "no block-header merkle root to validate against"
  | some root =>
    if levelAt compound.path 0 = [] then .error "empty compound path"
    else match (levelAt compound.path 0).findSome? (·.hash) with
      | none => .error "no level-0 hash to compute root from"
      | some leaf =>
        match sdk.computeRoot compound leaf with
        | .error err => .error ("compute root from compound: " ++ err)
        | .ok got =>
          if got = root then .ok ()
          else .error ("computed root " ++ sdk.hashString got ++ " != block header merkle root "
            ++ sdk.hashString root)

/-! ## One subtree -/

def validateSubtreeIndex (subtreeIndex numSubtrees : Nat) : Except String Unit :=
  if subtreeIndex < numSubtrees then .ok ()
  else .error ("invalid subtree index " ++ toString subtreeIndex ++ " for block with "
    ++ toString numSubtrees ++ " subtrees")

/-- Append the left-spine siblings of the coinbase path from `level` on. -/
def extendFrom (cbPath : List (Level H)) : Nat → Nat → List (Level H) → List (Level H)
  | 0, _, path => path
  | left + 1, level, path =>
    match (findLeafByOffset cbPath level 1).bind (·.hash) with
    | none => path
    | some h =>
      if (findLeafByOffset path level 1).isSome then extendFrom cbPath left (level + 1) path
      else extendFrom cbPath left (level + 1) (addLeaf path level { offset := 1, hash := some h })

def extendSubtreeToBlockRoot (path : List (Level H)) (coinbaseBUMP : Data)
    (internalHeight : Nat) : List (Level H) :=
  if sdk.isEmpty coinbaseBUMP then path
  else match sdk.newMerklePathFromBinary coinbaseBUMP with
    | .error _ => path
    | .ok cbPath =>
      extendFrom cbPath.path (cbPath.path.length - internalHeight) internalHeight path

/-- The STUMP with the coinbase swapped in, when it is subtree 0's. -/
def swapCoinbase (coinbaseBUMP : Data) (subtreeIndex : Nat) (path : List (Level H)) :
    List (Level H) :=
  if subtreeIndex = 0 then
    match extractCoinbaseTxID sdk coinbaseBUMP with
    | none => path
    | some coinbase => applyCoinbaseToSTUMP sdk coinbase coinbaseBUMP path
  else path

/-- `assembleFullPath` for a block of at most one subtree. -/
def assembleSingle (stumpData : Data) (subtreeIndex numSubtrees : Nat) (coinbaseBUMP : Data) :
    Except String (MerklePath H) := do
  validateSubtreeIndex subtreeIndex numSubtrees
  match sdk.newMerklePathFromBinary stumpData with
  | .error err => .error ("failed to parse STUMP: " ++ err)
  | .ok stumpPath =>
    let path := swapCoinbase sdk coinbaseBUMP subtreeIndex stumpPath.path
    .ok { stumpPath with
      path := extendSubtreeToBlockRoot sdk (computeMissingHashes sdk.merkleTreeParent path)
        coinbaseBUMP stumpPath.path.length }

end Extract

end Arcade.Bump
