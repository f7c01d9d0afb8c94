import Arcade.Bump.Fill
import Arcade.Bump.Variants

/-!
Where the STUMPs, the lift markers and the remaining subtree roots stand in the
compound, and the tree of the whole block that they show.
-/

namespace Arcade.Bump

open Lib.Merkle List

variable {H Data : Type}

/-! ## Adding elements -/

theorem levelAt_addLeaf (path : List (Level H)) (l : Nat) (e : PathElement H) (k : Nat) :
    levelAt (addLeaf path l e) k = if k = l then levelAt path k ++ [e] else levelAt path k := by
  unfold levelAt addLeaf
  rw [getD_eq_getElem?_getD, getD_eq_getElem?_getD, List.getElem?_modify]
  have hgrow : ((path ++ List.replicate (l + 1 - path.length) [])[k]?).getD [] =
      (path[k]?).getD [] := by
    rw [List.getElem?_append]
    split
    · rfl
    · next hk =>
      rw [List.getElem?_eq_none (show path.length ≤ k by omega), List.getElem?_replicate]
      split <;> rfl
  by_cases hkl : k = l
  · subst hkl
    have hlen : k < (path ++ List.replicate (k + 1 - path.length) []).length := by
      simp only [length_append, length_replicate]
      omega
    rw [← hgrow, List.getElem?_eq_getElem hlen]
    simp
  · have hlk : ¬ l = k := fun h => hkl h.symm
    simp [hkl, hlk, hgrow]

variable {path : List (Level H)}

theorem length_addLeaf {l : Nat} (h : l < path.length) (e : PathElement H) :
    (addLeaf path l e).length = path.length := by
  simp only [addLeaf, length_modify, length_append, length_replicate]
  omega

theorem levelAt_addLeaves (path : List (Level H)) (xs : List (Nat × PathElement H)) (k : Nat) :
    levelAt (addLeaves path xs) k = levelAt path k ++ (xs.filter fun x => x.1 == k).map (·.2) := by
  induction xs generalizing path with
  | nil => simp [addLeaves]
  | cons x xs ih =>
    have hstep : addLeaves path (x :: xs) = addLeaves (addLeaf path x.1 x.2) xs := rfl
    rw [hstep, ih, levelAt_addLeaf]
    by_cases h : k = x.1
    · simp [h]
    · have h' : ¬ x.1 = k := fun heq => h heq.symm
      simp [h, h']

theorem length_addLeaves {xs : List (Nat × PathElement H)} (h : ∀ x ∈ xs, x.1 < path.length) :
    (addLeaves path xs).length = path.length := by
  induction xs generalizing path with
  | nil => rfl
  | cons x xs ih =>
    have hlen := length_addLeaf (h x (by simp)) x.2
    have hstep : addLeaves path (x :: xs) = addLeaves (addLeaf path x.1 x.2) xs := rfl
    rw [hstep, ih (fun y hy => by rw [hlen]; exact h y (by simp [hy])), hlen]

theorem addLeaves_append (path : List (Level H)) (xs ys : List (Nat × PathElement H)) :
    addLeaves (addLeaves path xs) ys = addLeaves path (xs ++ ys) := by
  simp [addLeaves]

theorem levelAt_addLeaves_replicate (height : Nat) (xs : List (Nat × PathElement H)) (k : Nat) :
    levelAt (addLeaves (List.replicate height []) xs) k =
      (xs.filter fun x => x.1 == k).map (·.2) := by
  have hempty : levelAt (List.replicate height ([] : Level H)) k = [] := by
    simp only [levelAt, getD_eq_getElem?_getD, List.getElem?_replicate]
    split <;> rfl
  rw [levelAt_addLeaves, hempty, nil_append]

theorem mem_levelAt_addLeaves {height : Nat} {xs : List (Nat × PathElement H)} {k : Nat}
    {e : PathElement H} :
    e ∈ levelAt (addLeaves (List.replicate height []) xs) k ↔ (k, e) ∈ xs := by
  rw [levelAt_addLeaves_replicate, mem_map]
  constructor
  · rintro ⟨x, hx, rfl⟩
    obtain ⟨hmem, hk⟩ := mem_filter.mp hx
    rw [← beq_iff_eq.mp hk]
    exact hmem
  · intro h
    exact ⟨(k, e), mem_filter.mpr ⟨h, by simp⟩, rfl⟩

/-! ## What is placed -/

theorem requiredHeightFor_le (lay : Layout) (i : Nat) :
    lay.requiredHeightFor i ≤ lay.internalHeight := by
  unfold Layout.requiredHeightFor Layout.finalNaturalHeight
  split <;> omega

theorem mem_placements {lay : Layout} {i : Nat} {k : Nat} {e : PathElement H} :
    (k, e) ∈ placements lay i path ↔
      k < lay.requiredHeightFor i ∧ ∃ e0 ∈ levelAt path k, e = shiftElement lay i k e0 := by
  simp only [placements, mem_flatMap, mem_range, mem_map, Prod.mk.injEq]
  constructor
  · rintro ⟨l, hl, e0, he0, rfl, rfl⟩
    exact ⟨hl, e0, he0, rfl⟩
  · rintro ⟨hk, e0, he0, rfl⟩
    exact ⟨k, hk, e0, he0, rfl, rfl⟩

section Entries

variable (sdk : Sdk H Data) (lay : Layout) (hashes : List H) (coinbaseBUMP : Data)
  (merged : List (MergedStump H Data))

def stumpEntries : List (Nat × PathElement H) :=
  merged.flatMap fun m => placements lay m.index (swapCoinbase sdk coinbaseBUMP m.index m.path.path)

def entries : List (Nat × PathElement H) :=
  stumpEntries sdk lay coinbaseBUMP merged ++
    (if lay.liftLevels > 0 && haveSTUMP merged lay.finalIdx then liftMarkers H lay else []) ++
    seeds sdk lay hashes (haveSTUMP merged)

theorem placeAll_eq (htall : ∀ m ∈ merged, lay.requiredHeightFor m.index ≤ m.path.path.length) :
    placeAll sdk lay hashes coinbaseBUMP merged = .ok (addLeaves (List.replicate lay.totalHeight [])
        (entries sdk lay hashes coinbaseBUMP merged)) := by
  have key : ∀ (ms : List (MergedStump H Data)) (init : List (Level H)),
      (∀ m ∈ ms, lay.requiredHeightFor m.index ≤ m.path.path.length) →
      ms.foldlM (placeStump sdk lay coinbaseBUMP) init =
        .ok (addLeaves init (stumpEntries sdk lay coinbaseBUMP ms)) := by
    intro ms
    induction ms with
    | nil => intro init _; rfl
    | cons m ms ih =>
      intro init h
      have hm : placeStump sdk lay coinbaseBUMP init m = .ok (addLeaves init
          (placements lay m.index (swapCoinbase sdk coinbaseBUMP m.index m.path.path))) := by
        have := h m (by simp)
        rw [placeStump, if_neg (by omega)]
      rw [foldlM_cons, hm]
      have hrest := ih (addLeaves init
        (placements lay m.index (swapCoinbase sdk coinbaseBUMP m.index m.path.path)))
        (fun x hx => h x (by simp [hx]))
      have hcons : stumpEntries sdk lay coinbaseBUMP (m :: ms) =
          placements lay m.index (swapCoinbase sdk coinbaseBUMP m.index m.path.path) ++
            stumpEntries sdk lay coinbaseBUMP ms := by
        simp [stumpEntries]
      rw [addLeaves_append, ← hcons] at hrest
      exact hrest
  rw [placeAll, key merged _ htall]
  simp only [bind, Except.bind, pure, Except.pure]
  split
  · rw [addLeaves_append, addLeaves_append, entries, if_pos (by assumption), append_assoc]
  · rw [addLeaves_append, entries, if_neg (by assumption), append_nil]

end Entries

theorem haveSTUMP_iff {merged : List (MergedStump H Data)} {i : Nat} :
    haveSTUMP merged i = true ↔ ∃ m ∈ merged, m.index = i := by
  simp [haveSTUMP]

/-! ## The block's tree -/

section Block

variable (sdk : Sdk H Data) (lay : Layout) (hashes : List H) (coinbaseBUMP : Data)
  (merged : List (MergedStump H Data))
  (T : (i : Nat) → PartialTree sdk.merkleTreeParent (lay.requiredHeightFor i))

/-- A subtree at the common height, known through its STUMP or by its root only. -/
def subtreeAt (x : H × Nat) : PartialTree sdk.merkleTreeParent lay.internalHeight :=
  if haveSTUMP merged x.2 then (T x.2).lift lay.internalHeight (requiredHeightFor_le lay x.2)
  else PartialTree.rootOnly _ _ (liftedHash sdk lay x.2 x.1)

def subtreesOf : List (PartialTree sdk.merkleTreeParent lay.internalHeight) :=
  hashes.zipIdx.map (subtreeAt sdk lay merged T)

abbrev subtreeRoots : List H := (subtreesOf sdk lay hashes merged T).map (·.root)

/-- The merged STUMPs show their subtrees, each at its own place. -/
structure Placeable : Prop where
  count : lay.numSubtrees = hashes.length
  two_le : 2 ≤ hashes.length
  pos : 0 < lay.internalHeight
  nodup : (merged.map (·.index)).Nodup
  inRange : ∀ m ∈ merged, m.index < hashes.length
  required : ∀ m ∈ merged, 0 < lay.requiredHeightFor m.index
  ready : ∀ m ∈ merged, Ready (T m.index).node (lay.requiredHeightFor m.index)
    (swapCoinbase sdk coinbaseBUMP m.index m.path.path)

variable {sdk lay hashes coinbaseBUMP merged T} {i l k : Nat} {e : PathElement H}

theorem subtreesOf_getElem? {x : H} (h : hashes[i]? = some x) :
    (subtreesOf sdk lay hashes merged T)[i]? = some (subtreeAt sdk lay merged T (x, i)) := by
  simp [subtreesOf, List.getElem?_zipIdx, h]

theorem length_subtreesOf : (subtreesOf sdk lay hashes merged T).length = hashes.length := by
  simp [subtreesOf]

theorem Placeable.subtree (P : Placeable sdk lay hashes coinbaseBUMP merged T)
    {m : MergedStump H Data} (hm : m ∈ merged) :
    (subtreesOf sdk lay hashes merged T)[m.index]? =
      some ((T m.index).lift lay.internalHeight (requiredHeightFor_le lay m.index)) := by
  rw [subtreesOf_getElem? (List.getElem?_eq_getElem (P.inRange m hm)), subtreeAt,
    if_pos (haveSTUMP_iff.mpr ⟨m, hm, rfl⟩)]

theorem sibling_add_even (o k : Nat) : sibling (o + 2 * k) = sibling o + 2 * k := by
  have h1 := slot_cases o
  have h2 := slot_cases (o + 2 * k)
  omega

theorem div_add_shift {o h : Nat} (hl : l ≤ h) :
    (o + i * 2 ^ h) / 2 ^ l = o / 2 ^ l + i * 2 ^ (h - l) := by
  have hpow : i * 2 ^ h = i * 2 ^ (h - l) * 2 ^ l := by
    rw [Nat.mul_assoc, ← Nat.pow_add, Nat.sub_add_cancel hl]
  rw [hpow, Nat.add_mul_div_right _ _ (Nat.two_pow_pos l)]

theorem shift_even (i : Nat) {h : Nat} (hl : l < h) : ∃ k, i * 2 ^ (h - l) = 2 * k := by
  refine ⟨i * 2 ^ (h - l - 1), ?_⟩
  rw [show h - l = h - l - 1 + 1 by omega, Nat.pow_succ]
  simp only [Nat.add_sub_cancel]
  rw [← Nat.mul_assoc, Nat.mul_comm]

variable {r : H} (hr : rootOf sdk.merkleTreeParent (subtreeRoots sdk lay hashes merged T) = some r)

theorem fits_shift (P : Placeable sdk lay hashes coinbaseBUMP merged T) {m : MergedStump H Data}
    (hm : m ∈ merged) (hl : l < lay.requiredHeightFor m.index) (hfit : Fits (T m.index).node l e)
    (hbound : e.offset < 2 ^ (lay.requiredHeightFor m.index - l)) :
    Fits (PartialTree.graft (subtreesOf sdk lay hashes merged T) r hr).node l
      (shiftElement lay m.index l e) := by
  have hreq := requiredHeightFor_le lay m.index
  have hlt : l < lay.internalHeight := by omega
  have hpow : 2 ^ (lay.requiredHeightFor m.index - l) ≤ 2 ^ (lay.internalHeight - l) :=
    Nat.pow_le_pow_right (by decide) (by omega)
  have hnode : ∀ o, o < 2 ^ (lay.requiredHeightFor m.index - l) →
      (PartialTree.graft (subtreesOf sdk lay hashes merged T) r hr).node l
        (o + m.index * 2 ^ (lay.internalHeight - l)) = (T m.index).node l o := by
    intro o ho
    rw [PartialTree.graft_node_below hr (P.subtree hm) hlt (by omega),
      PartialTree.lift_node_below _ hreq hl ho]
  obtain ⟨v, hv, hcase⟩ := hfit
  refine ⟨v, by rw [← hv]; exact hnode e.offset hbound, ?_⟩
  rcases hcase with hh | ⟨hh, hd, hodd, hleft⟩
  · exact .inl hh
  · obtain ⟨k, hk⟩ := shift_even m.index hlt
    refine .inr ⟨hh, hd, ?_, ?_⟩
    · simp only [shiftElement]
      omega
    · have h1 := hnode (e.offset - 1) (by omega)
      simp only [shiftElement]
      rw [show e.offset + m.index * 2 ^ (lay.internalHeight - l) - 1 =
        e.offset - 1 + m.index * 2 ^ (lay.internalHeight - l) by omega, h1]
      exact hleft

theorem mem_seeds {placed : Nat → Bool} : (k, e) ∈ seeds sdk lay hashes placed ↔
      k = lay.internalHeight ∧ ∃ i x, hashes[i]? = some x ∧ placed i = false ∧
        e = { offset := i, hash := some (liftedHash sdk lay i x) } := by
  simp only [seeds, mem_map, mem_filter, Prod.exists, Prod.mk.injEq,
    mem_zipIdx_iff_getElem?, Bool.not_eq_true']
  constructor
  · rintro ⟨x, i, ⟨hx, hp⟩, rfl, rfl⟩
    exact ⟨rfl, i, x, hx, hp, rfl⟩
  · rintro ⟨rfl, i, x, hx, hp, rfl⟩
    exact ⟨x, i, ⟨hx, hp⟩, rfl, rfl⟩

theorem mem_liftMarkers : (k, e) ∈ liftMarkers H lay ↔
      lay.finalNaturalHeight ≤ k ∧ k < lay.internalHeight ∧
        e = duplicateAt (lay.finalIdx * 2 ^ (lay.internalHeight - k) + 1) := by
  simp only [liftMarkers, mem_map, mem_range'_1, Prod.mk.injEq]
  constructor
  · rintro ⟨l, ⟨h1, h2⟩, rfl, rfl⟩
    exact ⟨h1, by omega, rfl⟩
  · rintro ⟨h1, h2, rfl⟩
    exact ⟨k, ⟨h1, by omega⟩, rfl, rfl⟩

theorem mem_entries : (k, e) ∈ entries sdk lay hashes coinbaseBUMP merged ↔
      (∃ m ∈ merged, k < lay.requiredHeightFor m.index ∧
        ∃ e0 ∈ levelAt (swapCoinbase sdk coinbaseBUMP m.index m.path.path) k,
          e = shiftElement lay m.index k e0) ∨
      ((0 < lay.liftLevels ∧ haveSTUMP merged lay.finalIdx = true) ∧ (k, e) ∈ liftMarkers H lay) ∨
      (k, e) ∈ seeds sdk lay hashes (haveSTUMP merged) := by
  simp only [entries, stumpEntries, mem_append, mem_flatMap, mem_placements, or_assoc]
  by_cases h : (decide (lay.liftLevels > 0) && haveSTUMP merged lay.finalIdx) = true
  · have h' := Bool.and_eq_true_iff.mp h
    have hpos : 0 < lay.liftLevels := by simpa using h'.1
    simp [hpos, h'.2]
  · have hno : ¬ (0 < lay.liftLevels ∧ haveSTUMP merged lay.finalIdx = true) := by
      intro hh
      exact h (by simp [hh.1, hh.2])
    simp [hno]

theorem length_subtreeRoots : (subtreeRoots sdk lay hashes merged T).length = hashes.length := by
  simp [subtreeRoots, length_subtreesOf]

theorem fits_entries (P : Placeable sdk lay hashes coinbaseBUMP merged T)
    (he : (k, e) ∈ entries sdk lay hashes coinbaseBUMP merged) :
    Fits (PartialTree.graft (subtreesOf sdk lay hashes merged T) r hr).node k e := by
  rcases mem_entries.mp he with ⟨m, hm, hk, e0, he0, rfl⟩ | ⟨⟨_, hhave⟩, hmark⟩ | hseed
  · have R := P.ready m hm
    exact fits_shift hr P hm hk (R.view.fits k hk e0 he0) (R.bounded k hk e0 he0)
  · -- the lift repeats the root of the final subtree
    obtain ⟨m, hm, hidx⟩ := haveSTUMP_iff.mp hhave
    obtain ⟨hlow, hhigh, rfl⟩ := mem_liftMarkers.mp hmark
    have hreq : lay.requiredHeightFor m.index = lay.finalNaturalHeight := by
      rw [Layout.requiredHeightFor, if_pos hidx]
    have hnode : ∀ o ≤ 1, (PartialTree.graft (subtreesOf sdk lay hashes merged T) r hr).node k
        (o + lay.finalIdx * 2 ^ (lay.internalHeight - k)) =
          some ((selfHash sdk.merkleTreeParent)^[k - lay.requiredHeightFor m.index]
            (T m.index).root) := by
      intro o ho
      have hpow : 2 ^ 1 ≤ 2 ^ (lay.internalHeight - k) :=
        Nat.pow_le_pow_right (by decide) (by omega)
      rw [← hidx, PartialTree.graft_node_below hr (P.subtree hm) hhigh (by omega),
        PartialTree.lift_node_above _ _ (by omega) ho]
    obtain ⟨j, hj⟩ := shift_even lay.finalIdx hhigh
    have h1 := hnode 1 (le_refl 1)
    rw [Nat.add_comm 1] at h1
    refine ⟨_, h1, .inr ⟨rfl, rfl, ?_, ?_⟩⟩
    · simp only [duplicateAt]
      omega
    · have h0 := hnode 0 (by omega)
      rw [Nat.zero_add] at h0
      exact h0
  · obtain ⟨rfl, i, x, hx, hno, rfl⟩ := mem_seeds.mp hseed
    have hget : (subtreesOf sdk lay hashes merged T)[i]? = some _ := subtreesOf_getElem? hx
    have hroot : (subtreeRoots sdk lay hashes merged T)[i]? = some (liftedHash sdk lay i x) := by
      rw [subtreeRoots, List.getElem?_map, hget]
      simp [subtreeAt, hno, PartialTree.rootOnly]
    refine ⟨liftedHash sdk lay i x, ?_, .inl ⟨rfl, rfl⟩⟩
    rw [PartialTree.graft_node_above hr (le_refl _), Nat.sub_self, level]
    exact (padded_of_lt (List.getElem?_eq_some_iff.mp hroot).1).trans hroot

def placedPath (sdk : Sdk H Data) (lay : Layout) (hashes : List H) (coinbaseBUMP : Data)
    (merged : List (MergedStump H Data)) : List (Level H) :=
  addLeaves (List.replicate lay.totalHeight []) (entries sdk lay hashes coinbaseBUMP merged)

theorem mem_placedPath : e ∈ levelAt (placedPath sdk lay hashes coinbaseBUMP merged) k ↔
      (k, e) ∈ entries sdk lay hashes coinbaseBUMP merged :=
  mem_levelAt_addLeaves

theorem length_placedPath (htwo : 2 ≤ lay.numSubtrees) :
    (placedPath sdk lay hashes coinbaseBUMP merged).length = lay.totalHeight := by
  rw [placedPath, length_addLeaves, length_replicate]
  intro x hx
  rw [length_replicate, Layout.totalHeight]
  have hclog : 0 < Nat.clog 2 lay.numSubtrees := Nat.clog_pos (by decide) htwo
  rcases mem_entries.mp (show (x.1, x.2) ∈ _ from hx) with ⟨m, _, hk, _⟩ | ⟨_, hmark⟩ | hseed
  · have := requiredHeightFor_le lay m.index
    omega
  · have := (mem_liftMarkers.mp hmark).2.1
    omega
  · have := (mem_seeds.mp hseed).1
    omega

theorem mem_placedPath_zero (P : Placeable sdk lay hashes coinbaseBUMP merged T) :
    e ∈ levelAt (placedPath sdk lay hashes coinbaseBUMP merged) 0 ↔
      ∃ m ∈ merged, ∃ e0 ∈ levelAt (swapCoinbase sdk coinbaseBUMP m.index m.path.path) 0,
        e = shiftElement lay m.index 0 e0 := by
  rw [mem_placedPath, mem_entries]
  constructor
  · rintro (⟨m, hm, _, e0, he0, rfl⟩ | ⟨⟨_, hhave⟩, hmark⟩ | hseed)
    · exact ⟨m, hm, e0, he0, rfl⟩
    · obtain ⟨m, hm, hidx⟩ := haveSTUMP_iff.mp hhave
      have hreq := P.required m hm
      rw [Layout.requiredHeightFor, if_pos hidx] at hreq
      have hlow := (mem_liftMarkers.mp hmark).1
      omega
    · have hk := (mem_seeds.mp hseed).1
      have := P.pos
      omega
  · rintro ⟨m, hm, e0, he0, rfl⟩
    exact .inl ⟨m, hm, P.required m hm, e0, he0, rfl⟩

theorem leaf_placedPath (P : Placeable sdk lay hashes coinbaseBUMP merged T) {t : Nat} :
    Leaf (placedPath sdk lay hashes coinbaseBUMP merged) t ↔
      ∃ m ∈ merged, ∃ s, Leaf (swapCoinbase sdk coinbaseBUMP m.index m.path.path) s ∧
        t = s + m.index * 2 ^ lay.internalHeight := by
  constructor
  · rintro ⟨e, he, rfl, hh⟩
    obtain ⟨m, hm, e0, he0, rfl⟩ := (mem_placedPath_zero P).mp he
    exact ⟨m, hm, e0.offset, ⟨e0, he0, rfl, hh⟩, by simp [shiftElement]⟩
  · rintro ⟨m, hm, s, ⟨e0, he0, rfl, hh⟩, rfl⟩
    exact ⟨shiftElement lay m.index 0 e0, (mem_placedPath_zero P).mpr ⟨m, hm, e0, he0, rfl⟩,
      by simp [shiftElement], hh⟩

theorem filter_placements (i : Nat) (path : List (Level H)) (k : Nat) :
    ((placements lay i path).filter fun x => x.1 == k).map (·.2) =
      if k < lay.requiredHeightFor i then (levelAt path k).map (shiftElement lay i k) else [] := by
  unfold placements
  generalize lay.requiredHeightFor i = req
  induction req with
  | zero => simp
  | succ req ih =>
    rw [range_succ, flatMap_append, filter_append, map_append, ih]
    by_cases hk : req = k
    · subst hk
      simp [filter_map, Function.comp_def]
    · by_cases hlt : k < req
      · simp [filter_map, Function.comp_def, hk, hlt, Nat.lt_succ_of_lt hlt]
      · have hge : ¬ k < req + 1 := by omega
        simp [filter_map, Function.comp_def, hk, hlt, hge]

theorem subtree_slot_div {o : Nat} (hbound : o < 2 ^ (lay.requiredHeightFor i - k)) :
    (o + i * 2 ^ (lay.internalHeight - k)) / 2 ^ (lay.internalHeight - k) = i := by
  have hlt : o < 2 ^ (lay.internalHeight - k) := lt_of_lt_of_le hbound
    (Nat.pow_le_pow_right (by decide) (Nat.sub_le_sub_right (requiredHeightFor_le lay i) k))
  rw [Nat.add_mul_div_right _ _ (Nat.two_pow_pos _), Nat.div_eq_of_lt hlt, Nat.zero_add]

theorem leaf_slot_div {o : Nat} (hbound : o < 2 ^ lay.requiredHeightFor i) :
    (o + i * 2 ^ lay.internalHeight) / 2 ^ lay.internalHeight = i :=
  subtree_slot_div (k := 0) hbound

theorem shift_div (hbound : e.offset < 2 ^ (lay.requiredHeightFor i - k)) :
    (shiftElement lay i k e).offset / 2 ^ (lay.internalHeight - k) = i :=
  subtree_slot_div hbound

theorem marker_div (hk : k < lay.internalHeight) :
    (i * 2 ^ (lay.internalHeight - k) + 1) / 2 ^ (lay.internalHeight - k) = i := by
  have hpow : 2 ^ 1 ≤ 2 ^ (lay.internalHeight - k) :=
    Nat.pow_le_pow_right (by decide) (by omega)
  rw [Nat.add_comm, Nat.add_mul_div_right _ _ (Nat.two_pow_pos _), Nat.div_eq_of_lt (by omega),
    Nat.zero_add]

theorem distinct_placedPath (hnodup : (merged.map (·.index)).Nodup) (hk : k < lay.internalHeight)
    (hstumps : ∀ m ∈ merged, k < lay.requiredHeightFor m.index →
      Distinct (levelAt (swapCoinbase sdk coinbaseBUMP m.index m.path.path) k) ∧
      ∀ e ∈ levelAt (swapCoinbase sdk coinbaseBUMP m.index m.path.path) k,
        e.offset < 2 ^ (lay.requiredHeightFor m.index - k)) :
    Distinct (levelAt (placedPath sdk lay hashes coinbaseBUMP merged) k) := by
  have hseed : ((seeds sdk lay hashes (haveSTUMP merged)).filter fun x => x.1 == k) = [] := by
    refine filter_eq_nil_iff.mpr fun x hx => ?_
    have := (mem_seeds.mp hx).1
    simp only [beq_iff_eq]
    omega
  rw [Distinct, placedPath, levelAt_addLeaves_replicate, entries, filter_append,
    filter_append, hseed, append_nil, map_append, map_append, nodup_append, stumpEntries, filter_flatMap, map_flatMap, map_flatMap]
  simp only [filter_placements]
  have hin : ∀ {m o}, m ∈ merged → o ∈ (if k < lay.requiredHeightFor m.index then
      (levelAt (swapCoinbase sdk coinbaseBUMP m.index m.path.path) k).map
        (shiftElement lay m.index k) else []).map (·.offset) →
      k < lay.requiredHeightFor m.index ∧ o / 2 ^ (lay.internalHeight - k) = m.index := by
    intro m o hm ho
    split at ho
    · next hreq =>
      rw [map_map] at ho
      obtain ⟨e, he, rfl⟩ := mem_map.mp ho
      exact ⟨hreq, shift_div ((hstumps m hm hreq).2 e he)⟩
    · cases ho
  refine ⟨?_, ?_, ?_⟩
  · rw [nodup_flatMap]
    refine ⟨?_, ?_⟩
    · intro m hm
      split
      · next hreq =>
        have hinj : Function.Injective fun o => o + m.index * 2 ^ (lay.internalHeight - k) :=
          fun a b h => Nat.add_right_cancel h
        have hnd := (hstumps m hm hreq).1.map hinj
        rw [map_map] at hnd ⊢
        exact hnd
      · exact nodup_nil
    · -- subtrees of different indices occupy different ranges
      refine (pairwise_map.mp hnodup).imp_of_mem ?_
      intro a b ha hb hne
      apply disjoint_left.mpr
      intro o hoa hob
      exact hne ((hin ha hoa).2.symm.trans (hin hb hob).2)
  · split
    · -- one marker for each level
      rw [liftMarkers, filter_map, map_map, map_map]
      refine List.Nodup.map_on ?_ (List.Nodup.filter _ nodup_range')
      intro a ha b hb _
      have ha' := beq_iff_eq.mp (mem_filter.mp ha).2
      have hb' := beq_iff_eq.mp (mem_filter.mp hb).2
      exact ha'.trans hb'.symm
    · exact nodup_nil
  · -- markers stand over the final subtree, above what its STUMP places
    intro o ho o' ho' heq
    obtain ⟨m, hm, ho⟩ := mem_flatMap.mp ho
    obtain ⟨hreq, hidx⟩ := hin hm ho
    split at ho'
    · obtain ⟨e, he, rfl⟩ := mem_map.mp ho'
      obtain ⟨x, hx, rfl⟩ := mem_map.mp he
      obtain ⟨hmem, hxk⟩ := mem_filter.mp hx
      obtain ⟨hlow, hhigh, hdup⟩ := mem_liftMarkers.mp hmem
      rw [beq_iff_eq.mp hxk] at hlow hhigh hdup
      rw [heq, hdup, duplicateAt, marker_div hhigh] at hidx
      rw [Layout.requiredHeightFor, if_pos hidx.symm] at hreq
      omega
    · cases ho'

section

variable (P : Placeable sdk lay hashes coinbaseBUMP merged T)
include P

/-- The compound holds what its completion needs. -/
theorem grounded_placedPath : Grounded lay.internalHeight lay.numSubtrees
      (placedPath sdk lay hashes coinbaseBUMP merged) := by
  have hbound : ∀ m ∈ merged, ∀ s, Leaf (swapCoinbase sdk coinbaseBUMP m.index m.path.path) s →
        s < 2 ^ lay.requiredHeightFor m.index := by
    rintro m hm s ⟨e, he, rfl, _⟩
    exact (P.ready m hm).view.inRange e he
  refine ⟨?_, ?_, ?_, distinct_placedPath P.nodup P.pos fun m hm _ =>
    ⟨(P.ready m hm).distinct, fun e he => (P.ready m hm).view.inRange e he⟩⟩
  · intro t ht l hl
    obtain ⟨m, hm, s, hs, rfl⟩ := (leaf_placedPath P).mp ht
    obtain ⟨k, hk⟩ := shift_even m.index hl
    rw [div_add_shift (le_of_lt hl), hk, sibling_add_even, ← hk]
    by_cases hreq : l < lay.requiredHeightFor m.index
    · rcases (P.ready m hm).view.complete s hs l hreq with ⟨e, he, ho⟩ | ⟨s', hs', hto⟩
      · refine .inl ⟨shiftElement lay m.index l e, ?_, by simp [shiftElement, ho]⟩
        exact mem_placedPath.mpr (mem_entries.mpr (.inl ⟨m, hm, hreq, e, he, rfl⟩))
      · refine .inr ⟨s' + m.index * 2 ^ lay.internalHeight,
          (leaf_placedPath P).mpr ⟨m, hm, s', hs', rfl⟩, ?_⟩
        rw [div_add_shift (le_of_lt hl), hto]
    · -- above its natural height the final subtree is lifted
      have hidx : m.index = lay.finalIdx := by
        by_contra hne
        rw [Layout.requiredHeightFor, if_neg hne] at hreq
        exact hreq hl
      rw [Layout.requiredHeightFor, if_pos hidx] at hreq
      have hlift : 0 < lay.liftLevels := by
        unfold Layout.finalNaturalHeight at hreq
        omega
      have hzero : s / 2 ^ l = 0 := by
        refine Nat.div_eq_of_lt (lt_of_lt_of_le (hbound m hm s hs) ?_)
        rw [Layout.requiredHeightFor, if_pos hidx]
        exact Nat.pow_le_pow_right (by decide) (by omega)
      rw [hzero, show sibling 0 = 1 from rfl, hidx, Nat.add_comm]
      refine .inl ⟨duplicateAt (lay.finalIdx * 2 ^ (lay.internalHeight - l) + 1), ?_, rfl⟩
      exact mem_placedPath.mpr (mem_entries.mpr (.inr (.inl
        ⟨⟨hlift, haveSTUMP_iff.mpr ⟨m, hm, hidx⟩⟩, mem_liftMarkers.mpr ⟨by omega, hl, rfl⟩⟩)))
  · intro i hi
    by_cases hhave : haveSTUMP merged i = true
    · obtain ⟨m, hm, rfl⟩ := haveSTUMP_iff.mp hhave
      obtain ⟨s, hs⟩ := (P.ready m hm).hasLeaf
      exact .inr ⟨_, (leaf_placedPath P).mpr ⟨m, hm, s, hs, rfl⟩, leaf_slot_div (hbound m hm s hs)⟩
    · rw [P.count] at hi
      refine .inl ⟨{ offset := i, hash := some (liftedHash sdk lay i hashes[i]) }, ?_, rfl⟩
      exact mem_placedPath.mpr (mem_entries.mpr (.inr (.inr (mem_seeds.mpr
        ⟨rfl, i, _, List.getElem?_eq_getElem hi, by simpa using hhave, rfl⟩))))
  · intro e he
    obtain ⟨m, hm, e0, he0, rfl⟩ := (mem_placedPath_zero P).mp he
    rw [shiftElement, Nat.sub_zero, leaf_slot_div ((P.ready m hm).view.inRange e0 he0), P.count]
    exact P.inRange m hm

theorem repeatsLast_graft (height : Nat) :
    RepeatsLast (PartialTree.graft (subtreesOf sdk lay hashes merged T) r hr).node
      lay.internalHeight lay.numSubtrees height := by
  intro l hl _ hodd
  have hlen : (level sdk.merkleTreeParent (subtreeRoots sdk lay hashes merged T)
      (l - lay.internalHeight)).length = realCountAt lay.internalHeight lay.numSubtrees l := by
    rw [length_level, length_subtreeRoots, realCountAt, P.count]
  obtain ⟨v, hv, hv'⟩ := padded_repeats (show (level sdk.merkleTreeParent
    (subtreeRoots sdk lay hashes merged T) (l - lay.internalHeight)).length % 2 = 1 by
      rw [hlen]; exact hodd)
  rw [hlen] at hv hv'
  exact ⟨v, by rw [PartialTree.graft_node_above hr hl]; exact hv,
    by rw [PartialTree.graft_node_above hr hl]; exact hv'⟩

/-- The compound, once completed, lists every sibling of every leaf in the tree of the
block. -/
theorem listed_compound : ∃ B : PartialTree sdk.merkleTreeParent lay.totalHeight,
      rootOf sdk.merkleTreeParent (subtreeRoots sdk lay hashes merged T) = some B.root ∧
      (∀ l < lay.totalHeight, ∀ o v, B.node l o = some v → o < 2 ^ (lay.totalHeight - l)) ∧
      Listed B.node lay.totalHeight (computeAndPadCompound sdk.merkleTreeParent
        lay.internalHeight lay.numSubtrees (placedPath sdk lay hashes coinbaseBUMP merged)) := by
  have hne : subtreeRoots sdk lay hashes merged T ≠ [] := by
    intro hnil
    have hlen : (subtreeRoots sdk lay hashes merged T).length = hashes.length :=
      length_subtreeRoots
    rw [hnil, length_nil] at hlen
    have := P.two_le
    omega
  obtain ⟨root, hroot⟩ := rootOf_isSome sdk.merkleTreeParent hne
  have hheight : lay.internalHeight + Nat.clog 2 (subtreesOf sdk lay hashes merged T).length =
      lay.totalHeight := by
    rw [length_subtreesOf, ← P.count, Layout.totalHeight]
  have hlisted := listed_computeAndPad
    (PartialTree.graft (subtreesOf sdk lay hashes merged T) root hroot)
    (hheight.trans rfl) P.pos ((length_placedPath (P.count ▸ P.two_le)).trans hheight.symm) (grounded_placedPath P)
    (fun l _ e he => fits_entries hroot P (mem_placedPath.mp he)) (repeatsLast_graft hroot P _)
  have hcast : ∀ {a b : Nat} (h : a = b) (B : PartialTree sdk.merkleTreeParent a),
      ∃ B' : PartialTree sdk.merkleTreeParent b, B'.root = B.root ∧ B'.node = B.node := by
    rintro a _ rfl B
    exact ⟨B, rfl, rfl⟩
  obtain ⟨B, hBroot, hBnode⟩ := hcast hheight
    (PartialTree.graft (subtreesOf sdk lay hashes merged T) root hroot)
  refine ⟨B, by rw [hBroot]; exact hroot, ?_⟩
  rw [hBnode, ← hheight]
  exact ⟨fun l hl o v hv => PartialTree.graft_node_lt hroot hl hv, hlisted⟩

end

theorem subtreeRoots_eq (hlift : lay.liftLevels ≤ lay.internalHeight)
    (hT : ∀ i x, hashes[i]? = some x → (T i).root = x) (merged : List (MergedStump H Data)) :
    subtreeRoots sdk lay hashes merged T =
      hashes.zipIdx.map fun x => liftedHash sdk lay x.2 x.1 := by
  rw [subtreeRoots, subtreesOf, map_map]
  refine map_congr_left fun x hx => ?_
  obtain ⟨y, i⟩ := x
  have hroot := hT i y (mem_zipIdx_iff_getElem?.mp hx)
  simp only [Function.comp_apply, subtreeAt]
  split
  · have hsteps : lay.internalHeight - lay.requiredHeightFor i =
        if i = lay.finalIdx then lay.liftLevels else 0 := by
      unfold Layout.requiredHeightFor Layout.finalNaturalHeight
      split <;> omega
    simp only [PartialTree.lift, hroot, hsteps, liftedHash]
    split <;> rfl
  · rfl

end Block

end Arcade.Bump
