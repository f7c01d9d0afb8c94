import Arcade.Bump.Compound

/-!
A block of one subtree: its STUMP, completed, is the path of the block, with the rest
of the coinbase path on top where the STUMP is shorter.
-/

namespace Arcade.Bump

open Lib.Merkle List

variable {H Data : Type}

section Completed

variable {parent : H → H → H} {height : Nat} {T : PartialTree parent height}
  {path : List (Level H)}

theorem Fits.within {l : Nat} {e : PathElement H} (h : Fits T.node l e)
    (hb : e.offset < 2 ^ (height - l)) : Fits T.restrict.node l e := by
  have hnode : ∀ {o}, o ≤ e.offset → T.restrict.node l o = T.node l o := by
    intro o ho
    simp only [PartialTree.restrict, PartialTree.nodeWithin]
    rw [if_pos (by omega)]
  obtain ⟨v, hv, hcase⟩ := h
  refine ⟨v, (hnode (le_refl _)).trans hv, ?_⟩
  rcases hcase with h | ⟨hh, hd, hodd, hleft⟩
  · exact .inl h
  · exact .inr ⟨hh, hd, hodd, (hnode (Nat.sub_le _ _)).trans hleft⟩

theorem listed_computeMissing (R : Ready T.node height path) (hlen : path.length = height) :
    Listed T.restrict.node height (computeMissingHashes parent path) ∧
      levelAt (computeMissingHashes parent path) 0 = levelAt path 0 := by
  have hfit : ∀ l < height, ∀ e ∈ levelAt path l, Fits T.restrict.node l e := fun l hl e he =>
    (R.view.fits l hl e he).within (R.bounded l hl e he)
  have hunder : ∀ e ∈ levelAt path 0, e.offset / 2 ^ height = 0 := fun e he =>
    Nat.div_eq_of_lt (R.view.inRange e he)
  have G : Grounded height 1 path := by
    refine ⟨R.view.complete, ?_, fun e he => by rw [hunder e he]; exact Nat.one_pos, R.distinct⟩
    intro i hi
    obtain ⟨t, e, he, rfl, hh⟩ := R.hasLeaf
    exact .inr ⟨e.offset, ⟨e, he, rfl, hh⟩, by rw [hunder e he]; omega⟩
  have hzero := (completes_missing parent path).zero
  refine ⟨G.listed ?_ hlen (filled_computeMissing T.restrict (by omega) (hlen.symm ▸ hfit))
    (fun k hk hle => by omega) hzero, hzero⟩
  rw [Nat.clog_one_right, Nat.add_zero]

theorem Listed.extend (L : Listed T.node height path) (hpos : 0 < height)
    (hwithin : ∀ l < height, ∀ o v, T.node l o = some v → o < 2 ^ (height - l)) (v : H) :
    Listed (T.extend v).node (height + 1)
      (addLeaf path height { offset := 1, hash := some v }) := by
  have hlevel : ∀ l < height,
      levelAt (addLeaf path height { offset := 1, hash := some v }) l = levelAt path l := by
    intro l hl
    rw [levelAt_addLeaf, if_neg (by omega)]
  have htop : levelAt (addLeaf path height { offset := 1, hash := some v }) height =
      [{ offset := 1, hash := some v }] := by
    rw [levelAt_addLeaf, if_pos rfl, levelAt_of_length_le (le_of_eq L.length), nil_append]
  have hnode : ∀ l < height, ∀ o w, T.node l o = some w → (T.extend v).node l o = some w := by
    intro l hl o w hw
    rw [PartialTree.extend_node_below _ _ hl, PartialTree.nodeWithin, if_pos (hwithin l hl o w hw),
      hw]
  refine ⟨?_, ?_, ?_, ?_, ?_⟩
  · simp [addLeaf, L.length]
  · intro l hl e he
    rcases Nat.lt_succ_iff_lt_or_eq.mp hl with hlt | rfl
    · rw [hlevel l hlt] at he
      obtain ⟨w, hw, hcase⟩ := L.fits l hlt e he
      refine ⟨w, hnode l hlt _ _ hw, ?_⟩
      rcases hcase with h | ⟨hh, hd, hodd, hleft⟩
      · exact .inl h
      · exact .inr ⟨hh, hd, hodd, hnode l hlt _ _ hleft⟩
    · rw [htop] at he
      rw [mem_singleton.mp he]
      exact ⟨v, PartialTree.extend_node_right T v, .inl ⟨rfl, rfl⟩⟩
  · intro e he
    rw [hlevel 0 hpos] at he
    have := L.inRange e he
    omega
  · rintro t ⟨e, he, rfl, hh⟩ l hl
    rw [hlevel 0 hpos] at he
    rcases Nat.lt_succ_iff_lt_or_eq.mp hl with hlt | rfl
    · rw [hlevel l hlt]
      exact L.siblings e.offset ⟨e, he, rfl, hh⟩ l hlt
    · rw [htop, Nat.div_eq_of_lt (L.inRange e he)]
      exact ⟨_, mem_singleton.mpr rfl, rfl⟩
  · rw [hlevel 0 hpos]
    exact L.distinct

theorem extend_within {l o : Nat} {v w : H} (hl : l < height + 1)
    (h : (T.extend v).node l o = some w) : o < 2 ^ (height + 1 - l) := by
  by_cases hlt : l < height
  · rw [PartialTree.extend_node_below _ _ hlt] at h
    have := PartialTree.nodeWithin_lt h
    rw [show height + 1 - l = height - l + 1 by omega, Nat.pow_succ]
    omega
  · obtain rfl : l = height := by omega
    rw [Nat.add_sub_cancel_left, Nat.pow_one]
    by_contra hout
    simp only [PartialTree.extend, Nat.lt_irrefl, if_false, if_true] at h
    rw [if_neg (by omega), if_neg (by omega)] at h
    cases h

end Completed

theorem listed_extendFrom {sdk : Sdk H Data} (cbPath : List (Level H)) (left : Nat)
    {level : Nat} {T : PartialTree sdk.merkleTreeParent level} {path : List (Level H)}
    (hpos : 0 < level) (L : Listed T.node level path)
    (hwithin : ∀ l < level, ∀ o v, T.node l o = some v → o < 2 ^ (level - l)) :
    ∃ height, ∃ B : PartialTree sdk.merkleTreeParent height, 0 < height ∧
      Listed B.node height (extendFrom cbPath left level path) ∧
      levelAt (extendFrom cbPath left level path) 0 = levelAt path 0 ∧
      ((∀ level ∈ cbPath, Marked level) →
        (∀ l < level + left, ((findLeafByOffset cbPath l 1).bind (·.hash)).isSome) →
        ∀ c, spineHash sdk cbPath c level = some T.root →
          spineHash sdk cbPath c (level + left) = some B.root) := by
  induction left generalizing level path with
  | zero => exact ⟨level, T, hpos, L, rfl, fun _ _ _ h => h⟩
  | succ left ih =>
    rw [extendFrom]
    cases hsib : (findLeafByOffset cbPath level 1).bind (·.hash) with
    | none =>
      refine ⟨level, T, hpos, L, rfl, fun _ hall => ?_⟩
      have := hall level (by omega)
      rw [hsib] at this
      cases this
    | some v =>
      -- the path ends below this level, so the sibling is new
      have hnone : findLeafByOffset path level 1 = none := by
        rw [findLeafByOffset, levelAt_of_length_le (le_of_eq L.length)]
        rfl
      simp only [hnone, Option.isSome_none, Bool.false_eq_true, if_false]
      obtain ⟨height, B, hB, LB, hzero, hroot⟩ := ih (by omega) (L.extend hpos hwithin v)
        (fun l hl o w hw => extend_within hl hw)
      refine ⟨height, B, hB, LB, hzero.trans ?_, fun hmarked hall c hc => ?_⟩
      · rw [levelAt_addLeaf, if_neg (by omega)]
      · rw [show level + (left + 1) = level + 1 + left by omega] at hall ⊢
        exact hroot hmarked hall c (spineHash_succ hmarked hc hsib)

end Arcade.Bump
