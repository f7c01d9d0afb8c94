import Mathlib.Data.List.Sort
import Arcade.Bump.Assemble

/-!
`BuildCompoundBUMP`: one path for the whole block from the STUMPs of its subtrees.
-/

namespace Arcade.Bump

open Lib.Merkle

variable {H Data : Type}

/-- A STUMP as it is stored: the merkle path of the tracked leaves of one subtree. -/
structure Stump (Data : Type) where
  subtreeIndex : Nat
  stumpData : Data
  deriving DecidableEq

/-- One subtree's STUMP after the variants of its index were merged. -/
structure MergedStump (H Data : Type) where
  index : Nat
  path : MerklePath H
  data : Data
  txids : List String

/-! ## Merging the variants of a subtree -/

section Merge

variable [DecidableEq H] (sdk : Sdk H Data)

/-- The first of each run of equal texts. -/
def dedupFirst (ids : List String) : List String :=
  ids.foldl (fun out id => if id ∈ out then out else out ++ [id]) []

def level0TxIDs (path : List (Level H)) : List String :=
  dedupFirst (((levelAt path 0).filterMap (·.hash)).map sdk.hashString)

/-- Two elements of one slot: hashes must agree, and a hash replaces a duplicate. -/
def reconcile (level : Nat) (old e : PathElement H) : Except String (PathElement H) :=
  match old.hash, e.hash with
  | some a, some b =>
    if a = b then .ok { old with txid := old.txid || e.txid }
    else .error ("STUMP variants disagree at level " ++ toString level ++ " offset "
      ++ toString e.offset ++ ": " ++ sdk.hashString a ++ " vs " ++ sdk.hashString b)
  | none, some b => .ok { old with hash := some b, duplicate := false, txid := old.txid || e.txid }
  | _, none => .ok { old with txid := old.txid || e.txid }

/-- Replace the last element at the offset of `e`. -/
def setLast (e : PathElement H) : Level H → Level H
  | [] => []
  | x :: rest =>
    if x.offset = e.offset ∧ (rest.any fun y => y.offset == e.offset) = false then e :: rest
    else x :: setLast e rest

def unionElement (level : Nat) (dst : Level H) (e : PathElement H) : Except String (Level H) :=
  match lastAt dst e.offset with
  | none => .ok (dst ++ [e])
  | some old => (reconcile sdk level old e).map fun new => setLast new dst

def unionLevel (level : Nat) (dst src : Level H) : Except String (Level H) :=
  (src.foldlM (unionElement sdk level) dst).map
    (List.insertionSort fun a b => a.offset ≤ b.offset)

def unionFrom : Nat → List (Level H) → List (Level H) → Except String (List (Level H))
  | _, dst, [] => .ok dst
  | level, dst, src :: srcs => do
    let first ← unionLevel sdk level (dst.headD []) src
    let rest ← unionFrom (level + 1) dst.tail srcs
    return first :: rest

def unionMerklePath (dst src : List (Level H)) : Except String (List (Level H)) :=
  unionFrom sdk 0 dst src

/-- A subtree's variants merged so far, with their number. -/
structure Group (H Data : Type) where
  index : Nat
  path : MerklePath H
  data : Data
  variants : Nat

def Group.absorb (g : Group H Data) (union : List (Level H)) : Group H Data :=
  { g with path := { g.path with path := union }, variants := g.variants + 1 }

def addVariant (groups : List (Group H Data)) (st : Stump Data) :
    Except String (List (Group H Data)) :=
  match sdk.newMerklePathFromBinary st.stumpData with
  | .error err => .error ("parse STUMP for subtree " ++ toString st.subtreeIndex ++ ": " ++ err)
  | .ok path =>
    match groups.find? fun g => g.index == st.subtreeIndex with
    | none => .ok (groups ++ [⟨st.subtreeIndex, path, st.stumpData, 1⟩])
    | some g =>
      match unionMerklePath sdk g.path.path path.path with
      | .error err => .error ("subtree " ++ toString st.subtreeIndex ++ ": " ++ err)
      | .ok union =>
        .ok (groups.map fun g' => if g'.index = st.subtreeIndex then g'.absorb union else g')

/-- A group with its txids; the union of several variants is encoded again. -/
def finishGroup (g : Group H Data) : MergedStump H Data where
  index := g.index
  path := g.path
  data := if g.variants > 1 then sdk.bytes g.path else g.data
  txids := level0TxIDs sdk g.path.path

def mergeStumpVariants (stumps : List (Stump Data)) : Except String (List (MergedStump H Data)) :=
  (stumps.foldlM (addVariant sdk) []).map fun groups => groups.map (finishGroup sdk)

/-! ## Variants that miss the subtree root -/

/-- The leaves that `variantFoldsToRoot` checks: the marked ones, or all of them. -/
def checkedLeaves (level0 : Level H) : List H :=
  let marked := (level0.filter (·.txid)).filterMap (·.hash)
  if marked = [] then level0.filterMap (·.hash) else marked

def variantFoldsToRoot (st : Stump Data) (root : H) (height : Nat) (coinbaseBUMP : Data) : Bool :=
  match sdk.newMerklePathFromBinary st.stumpData with
  | .error _ => false
  | .ok path =>
    if height = 0 ∨ path.path.length < height then false
    else
      let swapped := swapCoinbase sdk coinbaseBUMP st.subtreeIndex path.path
      let subtree : MerklePath H := { path with path := swapped.take height }
      let leaves := checkedLeaves (levelAt subtree.path 0)
      !leaves.isEmpty && leaves.all fun leaf =>
        match sdk.computeRoot subtree leaf with
        | .error _ => false
        | .ok got => got == root

def variantCount (stumps : List (Stump Data)) (index : Nat) : Nat :=
  stumps.countP fun st => st.subtreeIndex == index

def variantMatches (stumps : List (Stump Data)) (subtreeHashes : List H)
    (requiredHeight : Nat → Nat) (coinbaseBUMP : Data) (st : Stump Data) : Bool :=
  match subtreeHashes[st.subtreeIndex]? with
  | none => false
  | some root =>
    decide (2 ≤ variantCount stumps st.subtreeIndex) &&
      variantFoldsToRoot sdk st root (requiredHeight st.subtreeIndex) coinbaseBUMP

def dropVariantsOffSubtreeRoot (stumps : List (Stump Data)) (subtreeHashes : List H)
    (requiredHeight : Nat → Nat) (coinbaseBUMP : Data) : List (Stump Data) :=
  let isMatch := variantMatches sdk stumps subtreeHashes requiredHeight coinbaseBUMP
  stumps.filter fun st => !(decide (2 ≤ variantCount stumps st.subtreeIndex) &&
      stumps.any (fun other => other.subtreeIndex == st.subtreeIndex && isMatch other) &&
      !isMatch st)

end Merge

/-! ## Heights -/

section Lift

variable (parent : H → H → H)

def hashPairs : List H → List H
  | a :: b :: rest => parent a b :: hashPairs rest
  | _ => []

/-- One round of `topTreeRoot`: the last hash of an odd level is repeated. -/
def topRound (level : List H) : List H :=
  hashPairs parent (if level.length % 2 = 1 then level ++ level.getLast?.toList else level)

theorem length_hashPairs (xs : List H) : (hashPairs parent xs).length = xs.length / 2 := by
  fun_induction hashPairs parent xs with
  | case1 a b rest ih =>
    simp only [List.length_cons, ih]
    omega
  | case2 xs h =>
    match xs, h with
    | [], _ => simp
    | [a], _ => simp
    | a :: b :: rest, h => exact absurd rfl (h a b rest)

theorem length_topRound_lt {level : List H} (h : 1 < level.length) :
    (topRound parent level).length < level.length := by
  unfold topRound
  rw [length_hashPairs]
  have hlast : level.getLast?.toList.length ≤ 1 := by
    cases level.getLast? <;> simp
  split
  · rw [List.length_append]
    omega
  · omega

/-- The fold of the top tree; there is nothing to return for no hashes at all. -/
def topTreeRoot (level : List H) : Option H :=
  if h : 1 < level.length then
    have := length_topRound_lt parent h
    topTreeRoot (topRound parent level)
  else level[0]?
termination_by level.length

variable [DecidableEq H]

/-- How often the final subtree's root is hashed with itself to meet the header root. -/
def deriveFinalSubtreeLift (subtreeHashes : List H) (internalHeight : Nat)
    (headerMerkleRoot : Option H) : Nat :=
  match headerMerkleRoot, subtreeHashes.getLast? with
  | some root, some last =>
    if subtreeHashes.length < 2 then 0
    else ((List.range (internalHeight + 1)).find? fun k => topTreeRoot parent
        (subtreeHashes.set (subtreeHashes.length - 1) ((selfHash parent)^[k] last)) ==
          some root).getD 0
  | _, _ => 0

end Lift

/-- How the subtrees of a block lie in its compound path. -/
structure Layout where
  numSubtrees : Nat
  internalHeight : Nat
  liftLevels : Nat

namespace Layout

def finalIdx (lay : Layout) : Nat := lay.numSubtrees - 1

def finalNaturalHeight (lay : Layout) : Nat := lay.internalHeight - lay.liftLevels

def requiredHeightFor (lay : Layout) (index : Nat) : Nat :=
  if index = lay.finalIdx then lay.finalNaturalHeight else lay.internalHeight

def totalHeight (lay : Layout) : Nat := lay.internalHeight + Nat.clog 2 lay.numSubtrees

end Layout

/-! ## Completing the compound -/

/-- The parent that `computeAndPadCompound` computes for an element of `level`. -/
def compoundParent (parent : H → H → H) (level : Level H) (elem : PathElement H) : Option H :=
  (lastAt level (sibling elem.offset)).bind fun sib =>
    if sib.duplicate then elem.hash.map (selfHash parent)
    else if elem.duplicate then sib.hash.map (selfHash parent)
    else elem.hash.bind fun h => sib.hash.map fun v =>
      if elem.offset % 2 = 0 then parent h v else parent v h

/-- An element that repeats its left sibling. -/
def duplicateAt (offset : Nat) : PathElement H :=
  { offset := offset, hash := none, duplicate := true }

/-- Repeat the last node of an odd level by a duplicate mark. -/
def padLevel (realCount : Nat) (level : Level H) : Level H :=
  if realCount % 2 = 1 ∧ leafAt level realCount = none then level ++ [duplicateAt realCount]
  else level

/-- `computeAndPadCompound` from `level` up, given the levels above it. -/
def computeAndPadFrom (parent : H → H → H) (subtreeRootLayer : Nat) :
    List (Level H) → Nat → Nat → Level H → List (Level H)
  | [], _, _, cur => [cur]
  | next :: rest, level, realCount, cur =>
    let padded := if subtreeRootLayer ≤ level then padLevel realCount cur else cur
    padded :: computeAndPadFrom parent subtreeRootLayer rest (level + 1)
      (if subtreeRootLayer ≤ level then (realCount + 1) / 2 else realCount)
      (addParents (compoundParent parent padded) padded next)

def computeAndPadCompound (parent : H → H → H) (subtreeRootLayer numSubtrees : Nat) :
    List (Level H) → List (Level H)
  | [] => []
  | cur :: rest => computeAndPadFrom parent subtreeRootLayer rest 0 numSubtrees cur

/-! ## The compound path -/

section Build

variable [DecidableEq H] (sdk : Sdk H Data)

/-- The subtree hashes with the one of subtree 0 taken from the coinbase path. -/
def correctHashes (subtreeHashes : List H) (coinbaseBUMP : Data) : List H :=
  match extractCoinbaseTxID sdk coinbaseBUMP,
    correctedSubtree0Root sdk coinbaseBUMP subtreeHashes.length with
  | some _, some root => subtreeHashes.set 0 root
  | _, _ => subtreeHashes

/-- The height of a full subtree: what the coinbase path leaves below the top tree,
or the first STUMP's height. -/
def internalHeightFor (coinbaseBUMP : Data) (numSubtrees firstHeight : Nat) : Nat :=
  match sdk.newMerklePathFromBinary coinbaseBUMP with
  | .error _ => firstHeight
  | .ok cbPath =>
    if cbPath.path.length - Nat.clog 2 numSubtrees > 0 then
      cbPath.path.length - Nat.clog 2 numSubtrees
    else firstHeight

def layoutFor (subtreeHashes : List H) (coinbaseBUMP : Data) (headerMerkleRoot : Option H)
    (firstHeight : Nat) : Layout where
  numSubtrees := subtreeHashes.length
  internalHeight := internalHeightFor sdk coinbaseBUMP subtreeHashes.length firstHeight
  liftLevels := deriveFinalSubtreeLift sdk.merkleTreeParent subtreeHashes
    (internalHeightFor sdk coinbaseBUMP subtreeHashes.length firstHeight) headerMerkleRoot

/-- An element of subtree `index` at its place in the block. -/
def shiftElement (lay : Layout) (index level : Nat) (e : PathElement H) : PathElement H :=
  { e with offset := e.offset + index * 2 ^ (lay.internalHeight - level) }

/-- The elements that one subtree's path puts into the compound. -/
def placements (lay : Layout) (index : Nat) (path : List (Level H)) : List (Nat × PathElement H) :=
  (List.range (lay.requiredHeightFor index)).flatMap fun level =>
    (levelAt path level).map fun e => (level, shiftElement lay index level e)

def placeStump (lay : Layout) (coinbaseBUMP : Data) (compound : List (Level H))
    (stump : MergedStump H Data) : Except String (List (Level H)) :=
  if stump.path.path.length < lay.requiredHeightFor stump.index then
    .error ("subtree " ++ toString stump.index ++ " STUMP has internal height "
      ++ toString stump.path.path.length ++ ", expected at least "
      ++ toString (lay.requiredHeightFor stump.index))
  else .ok (addLeaves compound
    (placements lay stump.index (swapCoinbase sdk coinbaseBUMP stump.index stump.path.path)))

/-- The duplicates that stand for the lift of the final subtree. -/
def liftMarkers (H : Type) (lay : Layout) : List (Nat × PathElement H) :=
  (List.range' lay.finalNaturalHeight (lay.internalHeight - lay.finalNaturalHeight)).map
    fun level => (level, duplicateAt (lay.finalIdx * 2 ^ (lay.internalHeight - level) + 1))

/-- The root of a subtree as the top tree takes it. -/
def liftedHash (lay : Layout) (index : Nat) (subHash : H) : H :=
  if index = lay.finalIdx then (selfHash sdk.merkleTreeParent)^[lay.liftLevels] subHash else subHash

/-- The roots of the subtrees that have no STUMP. -/
def seeds (lay : Layout) (subtreeHashes : List H) (placed : Nat → Bool) :
    List (Nat × PathElement H) :=
  (subtreeHashes.zipIdx.filter fun x => !placed x.2).map fun x =>
    (lay.internalHeight, { offset := x.2, hash := some (liftedHash sdk lay x.2 x.1) })

def haveSTUMP (merged : List (MergedStump H Data)) (index : Nat) : Bool :=
  merged.any fun m => m.index == index

/-- Everything the compound holds before it is completed. -/
def placeAll (lay : Layout) (subtreeHashes : List H) (coinbaseBUMP : Data)
    (merged : List (MergedStump H Data)) : Except String (List (Level H)) := do
  let placed ← merged.foldlM (placeStump sdk lay coinbaseBUMP)
    (List.replicate lay.totalHeight [])
  let marked := if lay.liftLevels > 0 && haveSTUMP merged lay.finalIdx then
    addLeaves placed (liftMarkers H lay) else placed
  return addLeaves marked (seeds sdk lay subtreeHashes (haveSTUMP merged))

def buildSingle (stumps : List (Stump Data)) (numSubtrees : Nat) (coinbaseBUMP : Data) :
    Except String (MerklePath H × List String) := do
  let merged ← mergeStumpVariants sdk stumps
  match merged with
  | [] => .error "no stumps to build compound BUMP"
  | m :: _ =>
    match assembleSingle sdk m.data m.index numSubtrees coinbaseBUMP with
    | .error err => .error ("failed to assemble single-subtree BUMP: " ++ err)
    | .ok full => .ok (full, m.txids)

def buildMany (first : Stump Data) (stumps : List (Stump Data)) (subtreeHashes : List H)
    (coinbaseBUMP : Data) (headerMerkleRoot : Option H) :
    Except String (MerklePath H × List String) :=
  match sdk.newMerklePathFromBinary first.stumpData with
  | .error err =>
    .error ("parse STUMP for subtree " ++ toString first.subtreeIndex ++ ": " ++ err)
  | .ok firstPath => do
    let lay := layoutFor sdk subtreeHashes coinbaseBUMP headerMerkleRoot firstPath.path.length
    let merged ← mergeStumpVariants sdk
      (dropVariantsOffSubtreeRoot sdk stumps subtreeHashes lay.requiredHeightFor coinbaseBUMP)
    let placed ← placeAll sdk lay subtreeHashes coinbaseBUMP merged
    return (⟨firstPath.blockHeight, computeAndPadCompound sdk.merkleTreeParent
      lay.internalHeight lay.numSubtrees placed⟩, merged.flatMap (·.txids))

def buildCompoundBUMP (stumps : List (Stump Data)) (subtreeHashes : List H) (coinbaseBUMP : Data)
    (headerMerkleRoot : Option H) : Except String (MerklePath H × List String) :=
  match stumps with
  | [] => .error "no stumps to build compound BUMP"
  | first :: _ =>
    if subtreeHashes.length ≤ 1 then buildSingle sdk stumps subtreeHashes.length coinbaseBUMP
    else buildMany sdk first stumps (correctHashes sdk subtreeHashes coinbaseBUMP) coinbaseBUMP
      headerMerkleRoot

end Build

end Arcade.Bump
