import Arcade.Lib.Merkle

/-!
Merkle paths in the layout of BRC-74, and what package `bump` uses of the SDK's
`transaction` and `chainhash` packages. The SDK is a parameter here; what the
package relies on is collected in `Sdk.Lawful`. Offsets and heights are natural
numbers: a block has far fewer than 2^64 leaves.
-/

namespace Arcade.Bump

open Lib.Merkle

/-- A node of a path. `duplicate` stands for a node that repeats its left sibling. -/
structure PathElement (H : Type) where
  offset : Nat
  hash : Option H
  txid : Bool := false
  duplicate : Bool := false
  deriving DecidableEq

abbrev Level (H : Type) := List (PathElement H)

structure MerklePath (H : Type) where
  blockHeight : Nat
  path : List (Level H)
  deriving DecidableEq

variable {H Data : Type}

/-- The elements of a level, none above the top. -/
def levelAt (path : List (Level H)) (level : Nat) : Level H := path.getD level []

/-- `addLeaf`: append to a level, growing the path up to it. -/
def addLeaf (path : List (Level H)) (level : Nat) (elem : PathElement H) : List (Level H) :=
  (path ++ List.replicate (level + 1 - path.length) []).modify level (· ++ [elem])

/-- `addLeaf` for one element after the other. -/
def addLeaves (path : List (Level H)) (xs : List (Nat × PathElement H)) : List (Level H) :=
  xs.foldl (fun path x => addLeaf path x.1 x.2) path

def leafAt (level : Level H) (offset : Nat) : Option (PathElement H) :=
  level.find? fun e => e.offset == offset

def findLeafByOffset (path : List (Level H)) (level offset : Nat) : Option (PathElement H) :=
  leafAt (levelAt path level) offset

/-- What a Go map built from a level holds at an offset: the last element there. -/
def lastAt (level : Level H) (offset : Nat) : Option (PathElement H) :=
  level.reverse.find? fun e => e.offset == offset

/-! ## The SDK -/

/-- The operations of the SDK. `Data` is a byte slice: apart from asking whether it
is empty, the package only hands it to the SDK. -/
structure Sdk (H Data : Type) where
  merkleTreeParent : H → H → H
  newMerklePathFromBinary : Data → Except String (MerklePath H)
  bytes : MerklePath H → Data
  computeRoot : MerklePath H → H → Except String H
  hashString : H → String
  newHashFromHex : String → Except String H
  isEmpty : Data → Bool

/-- The hash of two sibling elements; a duplicate on the right repeats the left one. -/
def elementParent (parent : H → H → H) (left right : PathElement H) : Option H :=
  if right.duplicate then left.hash.map (selfHash parent)
  else left.hash.bind fun a => right.hash.map (parent a)

/-- The element of a slot, taken from the path or computed from the level below. -/
def getOffsetLeaf (parent : H → H → H) (path : List (Level H)) : Nat → Nat → Option (PathElement H)
  | 0, offset => lastAt (levelAt path 0) offset
  | level + 1, offset =>
    match lastAt (levelAt path (level + 1)) offset with
    | some e => some e
    | none =>
      match getOffsetLeaf parent path level (2 * offset),
        getOffsetLeaf parent path level (2 * offset + 1) with
      | some left, some right => some { offset := offset, hash := elementParent parent left right }
      | _, _ => none

/-- The working hash at `offset` joined with its sibling. -/
def combine (parent : H → H → H) (offset : Nat) (working : H) (sib : PathElement H) : Option H :=
  if sib.duplicate then some (parent working working)
  else sib.hash.map fun v => if offset % 2 = 0 then parent working v else parent v working

/-- The working hash after the first levels of a path. -/
def foldTo (parent : H → H → H) (path : List (Level H)) (index : Nat) (x : H) : Nat → Option H
  | 0 => some x
  | level + 1 =>
    (foldTo parent path index x level).bind fun working =>
      (getOffsetLeaf parent path level (sibling (index / 2 ^ level))).bind
        (combine parent (index / 2 ^ level) working)

section

variable [DecidableEq H]

def leafOf (level : Level H) (x : H) : Option (PathElement H) :=
  level.find? fun e => e.hash == some x

/-- The root that a leaf folds to, when every sibling it needs is there. -/
def foldRoot (parent : H → H → H) (path : List (Level H)) (x : H) : Option H :=
  (leafOf (levelAt path 0) x).bind fun leaf => foldTo parent path leaf.offset x path.length

/-- Every element has a hash or is a duplicate, never both. -/
def Marked (level : Level H) : Prop := ∀ e ∈ level, e.duplicate = e.hash.isNone

instance (level : Level H) : Decidable (Marked level) :=
  inferInstanceAs (Decidable (∀ e ∈ level, e.duplicate = e.hash.isNone))

/-- BRC-74 has one byte for the number of levels and eight for an offset. -/
def Sized (path : List (Level H)) : Prop :=
  path.length < 2 ^ 8 ∧ ∀ level ∈ path, ∀ e ∈ level, e.offset < 2 ^ 64

instance (path : List (Level H)) : Decidable (Sized path) := inferInstanceAs (Decidable (_ ∧ _))

/-- A path that BRC-74 can express. -/
structure Storable (p : MerklePath H) : Prop where
  ne : p.path ≠ []
  marked : ∀ level ∈ p.path, level ≠ [] ∧ Marked level
  sized : Sized p.path

/-- What the package relies on: parsing yields elements that are hashes or
duplicates, within the sizes of the format, encoding loses nothing but the order within a level, and `computeRoot`
folds a leaf with its siblings and fails when it lacks one. -/
structure Sdk.Lawful (sdk : Sdk H Data) : Prop where
  parsed : ∀ data p, sdk.newMerklePathFromBinary data = .ok p → ∀ level ∈ p.path, Marked level
  sized : ∀ data p, sdk.newMerklePathFromBinary data = .ok p → Sized p.path
  empty : ∀ data p, sdk.newMerklePathFromBinary data = .ok p → sdk.isEmpty data = false
  encodes : ∀ p, Storable p → ∃ q, sdk.newMerklePathFromBinary (sdk.bytes p) = .ok q
  faithful : ∀ p q, (∀ level ∈ p.path, Marked level) → Sized p.path →
    sdk.newMerklePathFromBinary (sdk.bytes p) = .ok q → List.Forall₂ List.Perm q.path p.path
  hex : ∀ x, sdk.newHashFromHex (sdk.hashString x) = .ok x
  root_found : ∀ p x r, (∀ level ∈ p.path, Marked level) →
    foldRoot sdk.merkleTreeParent p.path x = some r → sdk.computeRoot p x = .ok r
  root_missing : ∀ p x leaf level, 2 ≤ p.path.length → level < p.path.length →
    leafOf (levelAt p.path 0) x = some leaf →
    getOffsetLeaf sdk.merkleTreeParent p.path level (sibling (leaf.offset / 2 ^ level)) = none →
    ∀ r, sdk.computeRoot p x ≠ .ok r

theorem Sdk.Lawful.roundTrip {sdk : Sdk H Data} (hsdk : sdk.Lawful) {p : MerklePath H}
    (h : Storable p) : ∃ q, sdk.newMerklePathFromBinary (sdk.bytes p) = .ok q ∧
      List.Forall₂ List.Perm q.path p.path := by
  obtain ⟨q, hq⟩ := hsdk.encodes p h
  exact ⟨q, hq, hsdk.faithful p q (fun level hl => (h.marked level hl).2) h.sized hq⟩

end

end Arcade.Bump
