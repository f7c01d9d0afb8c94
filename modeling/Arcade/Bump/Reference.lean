import Mathlib.Data.List.Forall2
import Arcade.Bump.Path

/-!
An SDK for which the laws hold. Hashes are bit strings, and a parent is its two
children with the length of the left one in front, so that no two pairs of children
have the same parent and a node never is its own ancestor. The encoding of a path is
the path itself.
-/

namespace Arcade.Bump

open Lib.Merkle List

abbrev Bits := List Bool

/-- The length of `a` in unary, then `a` and `b`. -/
def pairBits (a b : Bits) : Bits := List.replicate a.length true ++ false :: (a ++ b)

theorem unary_injective {m n : Nat} {xs ys : Bits}
    (h : List.replicate m true ++ false :: xs = List.replicate n true ++ false :: ys) :
    m = n ∧ xs = ys := by
  induction m generalizing n with
  | zero =>
    cases n with
    | zero => simpa using h
    | succ n => simp [replicate_succ] at h
  | succ m ih =>
    cases n with
    | zero => simp [replicate_succ] at h
    | succ n =>
      simp only [replicate_succ, cons_append, List.cons.injEq, true_and] at h
      obtain ⟨hmn, hxs⟩ := ih h
      exact ⟨by omega, hxs⟩

theorem pairBits_injective (a b c d : Bits) (h : pairBits a b = pairBits c d) : a = c ∧ b = d := by
  obtain ⟨hlen, happ⟩ := unary_injective h
  exact append_inj happ hlen

theorem length_lt_selfHash (x : Bits) : x.length < (selfHash pairBits x).length := by
  simp only [selfHash, pairBits, length_append, length_replicate, length_cons]
  omega

/-- Hashing with itself makes a node longer, so the chain never comes back. -/
theorem selfHash_chain (x : Bits) (i j : Nat)
    (h : (selfHash pairBits)^[i] x = (selfHash pairBits)^[j] x) : i = j := by
  have hmono : StrictMono fun k => ((selfHash pairBits)^[k] x).length := by
    refine strictMono_nat_of_lt_succ fun k => ?_
    rw [Function.iterate_succ_apply']
    exact length_lt_selfHash _
  exact hmono.injective (congrArg List.length h)

/-- A byte slice; `none` is the empty one. -/
abbrev BitsData : Type := Option (MerklePath Bits)

def referenceSdk : Sdk Bits BitsData where
  merkleTreeParent := pairBits
  newMerklePathFromBinary
    | none => .error "BUMP bytes do not contain enough data"
    | some p =>
      if (∀ level ∈ p.path, Marked level) ∧ Sized p.path then .ok p
      else .error "invalid BUMP flags"
  bytes := some
  computeRoot p x := match foldRoot pairBits p.path x with
    | none => .error "missing hash"
    | some r => .ok r
  hashString x := String.ofList (x.map fun bit => if bit then '1' else '0')
  newHashFromHex text := .ok (text.toList.map (· == '1'))
  isEmpty := Option.isNone

theorem foldTo_none {H : Type} {parent : H → H → H} {path : List (Level H)} {index : Nat} {x : H}
    {l m : Nat} (hle : l ≤ m) (h : foldTo parent path index x l = none) :
    foldTo parent path index x m = none := by
  induction hle with
  | refl => exact h
  | step _ ih => rw [foldTo, ih, Option.bind_none]

theorem referenceSdk_parse {data : BitsData} {p : MerklePath Bits} :
    referenceSdk.newMerklePathFromBinary data = .ok p ↔
      data = some p ∧ (∀ level ∈ p.path, Marked level) ∧ Sized p.path := by
  cases data with
  | none => simp [referenceSdk]
  | some q =>
    simp only [referenceSdk, Option.some.injEq]
    split
    · next h =>
      rw [Except.ok.injEq]
      exact ⟨fun heq => ⟨heq, heq ▸ h⟩, fun heq => heq.1⟩
    · next h =>
      simp only [reduceCtorEq, false_iff]
      exact fun heq => h (heq.1 ▸ heq.2)

theorem referenceSdk_lawful : referenceSdk.Lawful where
  parsed _ _ h := (referenceSdk_parse.mp h).2.1
  sized _ _ h := (referenceSdk_parse.mp h).2.2
  empty _ _ h := by
    rw [(referenceSdk_parse.mp h).1]
    rfl
  encodes p hp :=
    ⟨p, referenceSdk_parse.mpr ⟨rfl, fun level hl => (hp.marked level hl).2, hp.sized⟩⟩
  faithful p q _ _ h := by
    obtain rfl := Option.some.inj (referenceSdk_parse.mp h).1
    exact forall₂_same.mpr fun level _ => List.Perm.refl level
  hex x := by
    simp only [referenceSdk, String.toList_ofList, map_map, Except.ok.injEq]
    have hid : x.map ((· == '1') ∘ fun bit => if bit then '1' else '0') = x.map id := by
      refine map_congr_left fun bit _ => ?_
      cases bit <;> rfl
    rw [hid, map_id]
  root_found p x r _ h := by
    have h' : foldRoot pairBits p.path x = some r := h
    simp [referenceSdk, h']
  root_missing p x leaf l _ hl hleaf hmissing r := by
    have hnone : foldTo pairBits p.path leaf.offset x p.path.length = none := by
      refine foldTo_none (Nat.succ_le_of_lt hl) ?_
      have hmissing' : getOffsetLeaf pairBits p.path l (sibling (leaf.offset / 2 ^ l)) = none :=
        hmissing
      simp [foldTo, hmissing']
    have hroot : foldRoot pairBits p.path x = none := by
      rw [foldRoot, hleaf, Option.bind_some, hnone]
    simp [referenceSdk, hroot]

end Arcade.Bump
