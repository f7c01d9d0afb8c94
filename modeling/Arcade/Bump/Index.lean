import Arcade.Lib.BinarySearch
import Arcade.Lib.GoMap
import Arcade.Lib.Transition
import Arcade.Bump.Reference
import Arcade.Bump.View

/-!
`IndexCompound`: a compound BUMP parsed once and indexed for the minimal paths of many
transactions. What the index answers is what the scanning extractor finds in the same bytes.
-/

namespace Arcade.Bump

open Lib Lib.Merkle List

variable {H Data : Type}

structure CompoundIndex (H : Type) where
  blockHeight : Nat
  txOffsets : GoMap H Nat
  /-- Every level in the order of the offsets. -/
  levels : List (Level H)
  leaves : Nat

/-- Go's sort is not stable, which shows only where an offset is repeated. -/
def sortLevel (level : Level H) : Level H := level.mergeSort fun a b => a.offset ≤ b.offset

namespace CompoundIndex

/-- `leafAt`: binary search in one sorted level. -/
def leafAt (level : Level H) (offset : Nat) : Option (PathElement H) :=
  BinarySearch.search PathElement.offset level offset

def climb : List (Level H) → Nat → List (Level H)
  | [], _ => []
  | level :: rest, offset => (leafAt level (sibling offset)).toList :: climb rest (offset / 2)

def minimalPath (ci : CompoundIndex H) (txOffset : Nat) : MerklePath H where
  blockHeight := ci.blockHeight
  path := match ci.levels with
    | [] => []
    | level0 :: rest =>
      ((leafAt level0 txOffset).toList ++ (leafAt level0 (sibling txOffset)).toList) ::
        climb rest (txOffset / 2)

end CompoundIndex

/-! ## Search in a sorted level -/

theorem leafAt_perm {level level' : Level H} (hp : level'.Perm level) (hd : Distinct level)
    (o : Nat) : leafAt level' o = leafAt level o := by
  cases h : leafAt level o with
  | none =>
    have hnone : ∀ e ∈ level', ¬ (e.offset == o) = true := fun e he =>
      List.find?_eq_none.mp h e (hp.mem_iff.mp he)
    exact List.find?_eq_none.mpr hnone
  | some e =>
    obtain ⟨he, rfl⟩ := leafAt_eq_some h
    exact leafAt_of_mem ((hp.map _).nodup_iff.mpr hd) (hp.mem_iff.mpr he)

theorem search_sortLevel {level : Level H} (hd : Distinct level) (o : Nat) :
    CompoundIndex.leafAt (sortLevel level) o = leafAt level o := by
  have hsorted : (sortLevel level).Pairwise fun a b => decide (a.offset ≤ b.offset) = true := by
    apply pairwise_mergeSort
    · intro a b c hab hbc
      simp only [decide_eq_true_eq] at *
      omega
    · intro a b
      simp only [Bool.or_eq_true, decide_eq_true_eq]
      omega
  exact (BinarySearch.search_eq_find? _ _ _ (hsorted.imp of_decide_eq_true)).trans
    (leafAt_perm (mergeSort_perm level _) hd o)

theorem climb_eq (levels : List (Level H)) (hd : ∀ level ∈ levels, Distinct level) (o : Nat) :
    CompoundIndex.climb (levels.map sortLevel) o = climbSiblings levels o := by
  induction levels generalizing o with
  | nil => rfl
  | cons level rest ih =>
    rw [map_cons, CompoundIndex.climb, climbSiblings, search_sortLevel (hd level mem_cons_self),
      ih fun l hl => hd l (mem_cons_of_mem level hl)]

/-! ## The index -/

variable [DecidableEq H]

/-- `txOffsets[*leaf.Hash] = leaf.Offset`, for a leaf that has a hash. -/
def recordOffset (txOffsets : GoMap H Nat) (leaf : PathElement H) : GoMap H Nat :=
  match leaf.hash with
  | none => txOffsets
  | some x => txOffsets.insert x leaf.offset

namespace CompoundIndex

def ofCompound (compound : MerklePath H) : CompoundIndex H where
  blockHeight := compound.blockHeight
  txOffsets := (levelAt compound.path 0).foldl recordOffset ∅
  levels := compound.path.map sortLevel
  leaves := (compound.path.map List.length).sum

variable (sdk : Sdk H Data) (ci : CompoundIndex H)

def contains (txid : String) : Bool :=
  match sdk.newHashFromHex txid with
  | .error _ => false
  | .ok txHash => (ci.txOffsets.lookup txHash).isSome

def minimalPathBytes (txid : String) : Option Data :=
  match sdk.newHashFromHex txid with
  | .error _ => none
  | .ok txHash => (ci.txOffsets.lookup txHash).map fun txOffset =>
    sdk.bytes (ci.minimalPath txOffset)

theorem contains_of_leaf {compound : MerklePath H} {txid : String} {x : H} {leaf : PathElement H}
    (htxid : sdk.newHashFromHex txid = .ok x) (hleaf : leaf ∈ levelAt compound.path 0)
    (hx : leaf.hash = some x) : (ofCompound compound).contains sdk txid = true := by
  have hrecord : ∀ (txOffsets : GoMap H Nat) (leaf : PathElement H),
      x ∈ recordOffset txOffsets leaf ↔ x ∈ txOffsets ∨ leaf.hash = some x := by
    intro txOffsets leaf
    unfold recordOffset
    cases leaf.hash <;> simp [or_comm, eq_comm]
  have hmem : x ∈ (ofCompound compound).txOffsets :=
    (foldl_iff (x ∈ ·) hrecord ∅ _).mpr (.inr ⟨leaf, hleaf, hx⟩)
  rw [contains, htxid]
  exact AList.lookup_isSome.mpr hmem

end CompoundIndex

def indexCompound (sdk : Sdk H Data) (bumpData : Data) : Except String (CompoundIndex H) :=
  (sdk.newMerklePathFromBinary bumpData).map CompoundIndex.ofCompound

/-! ## The map of offsets -/

theorem lookup_recordOffset (level : Level H) (txOffsets : GoMap H Nat) (x : H)
    (hdistinct : (level.filterMap (·.hash)).Nodup) :
    (level.foldl recordOffset txOffsets).lookup x =
      ((leafOf level x).map (·.offset)).or (txOffsets.lookup x) := by
  induction level generalizing txOffsets with
  | nil => rfl
  | cons leaf rest ih =>
    have hleaf : leafOf (leaf :: rest) x =
        if leaf.hash = some x then some leaf else leafOf rest x := by
      split <;> simp_all [leafOf]
    cases hash : leaf.hash with
    | none =>
      rw [filterMap_cons_none hash] at hdistinct
      rw [foldl_cons, ih _ hdistinct, hleaf, hash, if_neg (by simp), recordOffset, hash]
    | some y =>
      rw [filterMap_cons_some hash, nodup_cons] at hdistinct
      rw [foldl_cons, ih _ hdistinct.2, hleaf, hash, recordOffset, hash, GoMap.lookup_insert_eq]
      by_cases hy : y = x
      · subst hy
        have hnone : leafOf rest y = none :=
          List.find?_eq_none.mpr fun e he h =>
            hdistinct.1 (mem_filterMap.mpr ⟨e, he, by simpa using h⟩)
        simp [hnone]
      · simp [hy, Ne.symm hy]

theorem minimalPath_eq (compound : MerklePath H) (hd : ∀ level ∈ compound.path, Distinct level)
    (o : Nat) :
    (CompoundIndex.ofCompound compound).minimalPath o = extractMinimalPath compound o := by
  obtain ⟨height, path⟩ := compound
  cases path with
  | nil => rfl
  | cons level rest =>
    have h0 := search_sortLevel (hd level mem_cons_self)
    have hrest := climb_eq rest fun l hl => hd l (mem_cons_of_mem level hl)
    simp only [CompoundIndex.minimalPath, CompoundIndex.ofCompound, extractMinimalPath,
      map_cons, h0, hrest]

/-! ## The two extractors -/

variable (sdk : Sdk H Data)

/-- The index answers for every txid what the scan over the same bytes does. -/
theorem indexCompound_refines {bumpData : Data} {compound : MerklePath H}
    (hparse : sdk.newMerklePathFromBinary bumpData = .ok compound)
    (hoffsets : ∀ level ∈ compound.path, Distinct level)
    (hhashes : ((levelAt compound.path 0).filterMap (·.hash)).Nodup) :
    ∃ ci, indexCompound sdk bumpData = .ok ci ∧ ∀ txid,
      ci.minimalPathBytes sdk txid = extractMinimalPathForTx sdk bumpData txid ∧
      (ci.contains sdk txid = true ↔ extractMinimalPathForTx sdk bumpData txid ≠ none) := by
  refine ⟨.ofCompound compound, by rw [indexCompound, hparse]; rfl, fun txid => ?_⟩
  rw [CompoundIndex.minimalPathBytes, CompoundIndex.contains, extractMinimalPathForTx, hparse]
  cases sdk.newHashFromHex txid with
  | error _ => simp
  | ok x =>
    have hlookup : (CompoundIndex.ofCompound compound).txOffsets.lookup x =
        (leafOf (levelAt compound.path 0) x).map (·.offset) := by
      rw [CompoundIndex.ofCompound, lookup_recordOffset _ _ _ hhashes, AList.lookup_empty,
        Option.or_none]
    simp only [hlookup, minimalPath_eq compound hoffsets, Option.map_map, Option.isSome_map]
    cases leafOf (levelAt compound.path 0) x <;> simp

/-- Three leaves, stored out of order, the last one paired with itself. -/
def shuffledPath : MerklePath Bits :=
  ⟨7, [[⟨3, none, false, true⟩, ⟨1, some [true], true, false⟩, ⟨2, some [false], true, false⟩,
    ⟨0, some [], false, false⟩], [⟨1, some [true, true], false, false⟩]]⟩

theorem indexCompound_shuffled :
    ∃ ci, indexCompound referenceSdk (some shuffledPath) = .ok ci ∧ ∀ txid,
      ci.minimalPathBytes referenceSdk txid =
        extractMinimalPathForTx referenceSdk (some shuffledPath) txid ∧
      (ci.contains referenceSdk txid = true ↔
        extractMinimalPathForTx referenceSdk (some shuffledPath) txid ≠ none) :=
  have hparse : referenceSdk.newMerklePathFromBinary (some shuffledPath) = .ok shuffledPath :=
    referenceSdk_parse.mpr ⟨rfl, by decide⟩
  indexCompound_refines referenceSdk hparse (by decide) (by decide)

end Arcade.Bump
