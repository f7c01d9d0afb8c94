import Arcade.Bump.View

/-!
STUMPs as they are delivered, and what the coinbase swap makes of them. A STUMP of
subtree 0 is built over a placeholder, so its hashes on the left spine are stale;
after the swap every element holds a node of the real subtree.
-/

namespace Arcade.Bump

open Lib.Merkle List

variable {H Data : Type}

/-- A delivered path of a subtree. `stale` says that the hashes at offset 0 are to be
replaced; `labels` is what the variants of the subtree agree on, at every level. -/
structure Delivered (node : Nat → Nat → Option H) (height : Nat) (stale : Prop)
    (labels : Nat → Nat → Option H) (path : List (Level H)) : Prop where
  tall : height ≤ path.length
  marked : ∀ level ∈ path, Marked level
  distinct : ∀ l, Distinct (levelAt path l)
  agrees : ∀ l, ∀ e ∈ levelAt path l, ∀ v, e.hash = some v → labels l e.offset = some v
  fits : ∀ l < height, ∀ e ∈ levelAt path l, ¬ (stale ∧ e.offset = 0) → Fits node l e
  spine : stale → ∀ l < height, ∀ e ∈ levelAt path l, e.offset = 0 →
    e.hash.isSome ∧ (0 < l → e.txid = false)
  bounded : ∀ l < height, ∀ e ∈ levelAt path l, e.offset < 2 ^ (height - l)
  complete : ∀ t, Leaf path t → ∀ l < height, Covered path l (sibling (t / 2 ^ l))
  hasLeaf : ∃ t, Leaf path t

/-- A path that can be placed: it shows the subtree down to leaves. -/
structure Ready (node : Nat → Nat → Option H) (height : Nat) (path : List (Level H)) : Prop where
  view : View node height path
  tall : height ≤ path.length
  bounded : ∀ l < height, ∀ e ∈ levelAt path l, e.offset < 2 ^ (height - l)
  distinct : Distinct (levelAt path 0)
  hasLeaf : ∃ t, Leaf path t

/-- The coinbase path lists its right siblings, and `node` has its left spine. -/
structure Spine (parent : H → H → H) (node : Nat → Nat → Option H) (height : Nat)
    (coinbase : H) (cbPath : List (Level H)) : Prop where
  tall : height ≤ cbPath.length
  leaf : node 0 0 = some coinbase
  climb : ∀ l < height, ∃ v, (findLeafByOffset cbPath l 1).bind (·.hash) = some v ∧
    ∀ w, node l 0 = some w → node (l + 1) 0 = some (parent w v)

theorem spineHash_succ {sdk : Sdk H Data} {cbPath : List (Level H)} {coinbase w v : H} {l : Nat}
    (hmarked : ∀ level ∈ cbPath, Marked level) (hw : spineHash sdk cbPath coinbase l = some w)
    (hv : (findLeafByOffset cbPath l 1).bind (·.hash) = some v) :
    spineHash sdk cbPath coinbase (l + 1) = some (sdk.merkleTreeParent w v) := by
  obtain ⟨e, he, hh⟩ := Option.bind_eq_some_iff.mp hv
  have hmem := (leafAt_eq_some he).1
  have hdup : e.duplicate = false := by
    rw [hmarked _ (levelAt_mem (lt_length_of_mem hmem)) e hmem, hh]
    rfl
  simp [spineHash, hw, he, hdup, hh]

theorem Spine.spineHash_eq {sdk : Sdk H Data} {node : Nat → Nat → Option H} {height l : Nat}
    {coinbase : H} {cbPath : List (Level H)}
    (S : Spine sdk.merkleTreeParent node height coinbase cbPath)
    (hmarked : ∀ level ∈ cbPath, Marked level) (hl : l ≤ height) :
    ∃ w, spineHash sdk cbPath coinbase l = some w ∧ node l 0 = some w := by
  induction l with
  | zero => exact ⟨coinbase, rfl, S.leaf⟩
  | succ l ih =>
    obtain ⟨w, hw, hnode⟩ := ih (by omega)
    obtain ⟨v, hv, hup⟩ := S.climb l hl
    exact ⟨_, spineHash_succ hmarked hw hv, hup w hnode⟩

/-! ## Replacing one hash -/

theorem setFirst_offsets (p : PathElement H → Bool) (h : H) (level : Level H) :
    (setFirst p h level).map (·.offset) = level.map (·.offset) := by
  induction level with
  | nil => rfl
  | cons e rest ih =>
    unfold setFirst
    split <;> simp [ih]

theorem setFirst_eq_map {p : PathElement H → Bool} {h : H} {level : Level H} (hd : Distinct level)
    (hp : ∀ e, p e = true → e.offset = 0) :
    setFirst p h level = level.map fun e => if p e then { e with hash := some h } else e := by
  induction level with
  | nil => rfl
  | cons x rest ih =>
    obtain ⟨hnot, hdrest⟩ := nodup_cons.mp hd
    rw [setFirst, map_cons]
    split
    · next hpx =>
      have hrest : ∀ e ∈ rest, (if p e then { e with hash := some h } else e) = e := fun e he =>
        if_neg fun hpe => hnot (mem_map.mpr ⟨e, he, (hp e hpe).trans (hp x hpx).symm⟩)
      rw [map_congr_left hrest, map_id']
    · rw [ih hdrest]

theorem mem_setFirst {p : PathElement H → Bool} {h : H} {level : Level H} (hd : Distinct level)
    (hzero : ∀ e, p e = true → e.offset = 0) (hp : ∀ e ∈ level, e.offset = 0 → p e = true)
    {e : PathElement H} :
    e ∈ setFirst p h level ↔ (e ∈ level ∧ e.offset ≠ 0) ∨
        ∃ e0 ∈ level, e0.offset = 0 ∧ e = { e0 with hash := some h } := by
  rw [setFirst_eq_map hd hzero, mem_map]
  constructor
  · rintro ⟨x, hx, rfl⟩
    by_cases hpx : p x = true
    · exact .inr ⟨x, hx, hzero x hpx, if_pos hpx⟩
    · rw [if_neg hpx]
      exact .inl ⟨hx, fun h0 => hpx (hp x hx h0)⟩
  · rintro (⟨he, hne⟩ | ⟨e0, he0, hz, rfl⟩)
    · exact ⟨e, he, if_neg fun hpe => hne (hzero e hpe)⟩
    · exact ⟨e0, he0, if_pos (hp e0 he0 hz)⟩

/-! ## The swap -/

section Swap

variable {sdk : Sdk H Data} {node : Nat → Nat → Option H} {height : Nat}
  {labels : Nat → Nat → Option H} {path : List (Level H)} {coinbase : H}

/-- What the swap does to a path: offset 0 is dropped or holds the node, the rest stays. -/
structure Swapped (node : Nat → Nat → Option H) (height : Nat)
    (path out : List (Level H)) : Prop where
  length : out.length = path.length
  elements : ∀ l < height, ∀ e ∈ levelAt out l, (e ∈ levelAt path l ∧ e.offset ≠ 0) ∨
      ∃ e0 ∈ levelAt path l, e0.offset = 0 ∧ ∃ v, node l 0 = some v ∧ e = { e0 with hash := some v }
  keeps : ∀ l < height, ∀ e ∈ levelAt path l, e.offset ≠ 0 → e ∈ levelAt out l
  slot0 : ∀ l < height, HasSlot (levelAt path l) 0 →
    HasSlot (levelAt out l) 0 ∨ HasSlot (levelAt out 0) 0
  leaf0 : HasSlot (levelAt path 0) 0 → HasSlot (levelAt out 0) 0
  offsets : (levelAt out 0).map (·.offset) = (levelAt path 0).map (·.offset)

theorem levelAt_map (f : Level H → Level H) (hf : f [] = []) (p : List (Level H)) (l : Nat) :
    levelAt (p.map f) l = f (levelAt p l) := by
  unfold levelAt
  rw [getD_eq_getElem?_getD, getD_eq_getElem?_getD, List.getElem?_map]
  cases p[l]? <;> simp [hf]

/-- A path with the placeholder slot: the hashes above it are dropped. -/
theorem swapped_full (D : Delivered node height True labels path)
    (hleaf : node 0 0 = some coinbase) (h0 : HasSlot (levelAt path 0) 0) {data : Data} :
    Swapped node height path (applyCoinbaseToSTUMP sdk coinbase data path) := by
  cases path with
  | nil => obtain ⟨e, he, _⟩ := h0; cases he
  | cons level0 upper =>
    have hany : (level0.any fun e => e.offset == 0) = true := by
      obtain ⟨e, he, ho⟩ := h0
      exact any_eq_true.mpr ⟨e, he, by simpa using ho⟩
    have heq : applyCoinbaseToSTUMP sdk coinbase data (level0 :: upper) =
        setFirst (fun e => e.offset == 0) coinbase level0 ::
          upper.map fun elems => elems.filter fun e => e.offset != 0 := by
      simp [applyCoinbaseToSTUMP, hany]
    have hzero := D.distinct 0
    have hset : ∀ {e}, e ∈ setFirst (fun e => e.offset == 0) coinbase level0 ↔ _ :=
      mem_setFirst hzero (by simp) (by simp)
    have hupper : ∀ l, levelAt (upper.map fun elems => elems.filter fun e => e.offset != 0) l =
        (levelAt upper l).filter fun e => e.offset != 0 := levelAt_map _ rfl upper
    have hslot : HasSlot (setFirst (fun e => e.offset == 0) coinbase level0) 0 := by
      obtain ⟨e, he, ho⟩ := h0
      exact ⟨{ e with hash := some coinbase }, hset.mpr (.inr ⟨e, he, ho, rfl⟩), ho⟩
    rw [heq]
    refine ⟨by simp, ?_, ?_, fun _ _ _ => .inr hslot, fun _ => hslot, setFirst_offsets _ _ _⟩
    · intro l _ e he
      cases l with
      | zero =>
        rcases hset.mp he with h | ⟨e0, he0, hz, h⟩
        · exact .inl h
        · exact .inr ⟨e0, he0, hz, coinbase, hleaf, h⟩
      | succ l =>
        rw [levelAt_cons_succ, hupper, mem_filter] at he
        exact .inl ⟨he.1, by simpa using he.2⟩
    · intro l _ e he hne
      cases l with
      | zero => exact hset.mpr (.inl ⟨he, hne⟩)
      | succ l =>
        rw [levelAt_cons_succ, hupper, mem_filter]
        exact ⟨he, by simpa using hne⟩

theorem length_walkCoinbase (cbPath : List (Level H)) (level : Nat) (current : H)
    (levels : List (Level H)) :
    (walkCoinbase sdk cbPath level current levels).length = levels.length := by
  induction levels generalizing level current with
  | nil => rfl
  | cons elems rest ih =>
    unfold walkCoinbase
    split
    · split
      · rfl
      · rw [length_cons, ih, length_cons]
    · rfl

theorem levelAt_walkCoinbase {cbPath : List (Level H)}
    (S : Spine sdk.merkleTreeParent node height coinbase cbPath) {start : Nat} {current : H}
    (hcur : node start 0 = some current) (levels : List (Level H)) (k : Nat)
    (hk : start + k < height) (hlen : k < levels.length) :
    ∃ v, node (start + k) 0 = some v ∧ levelAt (walkCoinbase sdk cbPath start current levels) k =
        setFirst (fun e => e.offset == 0 && !e.txid) v (levelAt levels k) := by
  induction levels generalizing start current k with
  | nil => cases hlen
  | cons elems rest ih =>
    have hin : start < cbPath.length := lt_of_lt_of_le (by omega) S.tall
    obtain ⟨s, hs, hup⟩ := S.climb start (by omega)
    have hnext := hup current hcur
    cases k with
    | zero => exact ⟨current, hcur, by simp [walkCoinbase, hin, levelAt_cons_zero]⟩
    | succ k =>
      obtain ⟨v, hv, hlev⟩ := ih hnext k (by omega) (by simpa using hlen)
      refine ⟨v, by rw [← hv]; congr 1; omega, ?_⟩
      simp only [walkCoinbase, hin, if_true, hs, levelAt_cons_succ]
      exact hlev

section

variable (D : Delivered node height True labels path) (hpos : 0 < height)
include D hpos

/-- A path without the placeholder slot: the hashes on the left spine are computed
from the coinbase path. -/
theorem swapped_minimal
    {data : Data} {cbPath : MerklePath H} (hparse : sdk.newMerklePathFromBinary data = .ok cbPath)
    (S : Spine sdk.merkleTreeParent node height coinbase cbPath.path)
    (h0 : ¬ HasSlot (levelAt path 0) 0) :
    Swapped node height path (applyCoinbaseToSTUMP sdk coinbase data path) := by
  cases hpath : path with
  | nil =>
    have htall := D.tall
    rw [hpath, length_nil] at htall
    omega
  | cons level0 upper =>
    have hany : (level0.any fun e => e.offset == 0) = false := by
      rw [any_eq_false]
      intro e he ho
      exact h0 ⟨e, by rw [hpath]; exact he, by simpa using ho⟩
    have heq : applyCoinbaseToSTUMP sdk coinbase data (level0 :: upper) =
        walkCoinbase sdk cbPath.path 0 coinbase (level0 :: upper) := by
      simp [applyCoinbaseToSTUMP, hany, hparse]
    rw [← hpath] at heq ⊢
    have hlevel : ∀ l < height, ∃ v, node l 0 = some v ∧
        levelAt (walkCoinbase sdk cbPath.path 0 coinbase path) l =
          setFirst (fun e => e.offset == 0 && !e.txid) v (levelAt path l) := by
      intro l hl
      have hl' : l < path.length := lt_of_lt_of_le hl D.tall
      have h := levelAt_walkCoinbase S S.leaf path l (by omega) hl'
      simpa using h
    -- above the leaves the elements at offset 0 are not tracked, and there is none below
    have hsel : ∀ l < height, ∀ e ∈ levelAt path l, e.offset = 0 →
        (e.offset == 0 && !e.txid) = true := by
      intro l hl e he ho
      cases l with
      | zero => exact absurd ⟨e, he, ho⟩ h0
      | succ l => simp [ho, (D.spine trivial (l + 1) hl e he ho).2 (by omega)]
    have hmem : ∀ l < height, ∃ v, node l 0 = some v ∧ ∀ e,
        e ∈ levelAt (walkCoinbase sdk cbPath.path 0 coinbase path) l ↔
          (e ∈ levelAt path l ∧ e.offset ≠ 0) ∨
            ∃ e0 ∈ levelAt path l, e0.offset = 0 ∧ e = { e0 with hash := some v } := by
      intro l hl
      obtain ⟨v, hv, hlev⟩ := hlevel l hl
      refine ⟨v, hv, fun e => ?_⟩
      rw [hlev]
      exact mem_setFirst (D.distinct l) (by simp +contextual) (hsel l hl)
    rw [heq]
    refine ⟨length_walkCoinbase _ _ _ _, ?_, ?_, ?_, fun h => absurd h h0, ?_⟩
    · intro l hl e he
      obtain ⟨v, hv, hiff⟩ := hmem l hl
      rcases (hiff e).mp he with h | ⟨e0, he0, hz, h⟩
      · exact .inl h
      · exact .inr ⟨e0, he0, hz, v, hv, h⟩
    · intro l hl e he hne
      obtain ⟨v, _, hiff⟩ := hmem l hl
      exact (hiff e).mpr (.inl ⟨he, hne⟩)
    · rintro l hl ⟨e, he, ho⟩
      obtain ⟨v, _, hiff⟩ := hmem l hl
      exact .inl ⟨_, (hiff _).mpr (.inr ⟨e, he, ho, rfl⟩), ho⟩
    · obtain ⟨v, _, hlev⟩ := hlevel 0 hpos
      rw [hlev]
      exact setFirst_offsets _ _ _

theorem Swapped.leaf_iff {out : List (Level H)} (S : Swapped node height path out) (t : Nat) :
    Leaf out t ↔ Leaf path t := by
  constructor
  · rintro ⟨e, he, ht, hh⟩
    rcases S.elements 0 hpos e he with ⟨hm, _⟩ | ⟨e0, he0, hz, v, _, rfl⟩
    · exact ⟨e, hm, ht, hh⟩
    · exact ⟨e0, he0, ht, (D.spine trivial 0 hpos e0 he0 hz).1⟩
  · rintro ⟨e, he, ht, hh⟩
    by_cases hz : e.offset = 0
    · obtain ⟨e', he', hz'⟩ := S.leaf0 ⟨e, he, hz⟩
      refine ⟨e', he', by omega, ?_⟩
      rcases S.elements 0 hpos e' he' with ⟨_, hne⟩ | ⟨e0, _, _, v, _, rfl⟩
      · exact absurd hz' hne
      · rfl
    · exact ⟨e, S.keeps 0 hpos e he hz, ht, hh⟩

theorem Swapped.ready {out : List (Level H)} (S : Swapped node height path out) : Ready node height out := by
  have hleaf := S.leaf_iff D hpos
  have hoff : ∀ l < height, ∀ e ∈ levelAt out l, HasSlot (levelAt path l) e.offset := by
    intro l hl e he
    rcases S.elements l hl e he with ⟨hm, _⟩ | ⟨e0, he0, _, v, _, rfl⟩
    · exact ⟨e, hm, rfl⟩
    · exact ⟨e0, he0, rfl⟩
  have hbound : ∀ l < height, ∀ e ∈ levelAt out l, e.offset < 2 ^ (height - l) := by
    intro l hl e he
    obtain ⟨e0, he0, ho⟩ := hoff l hl e he
    rw [← ho]
    exact D.bounded l hl e0 he0
  refine ⟨⟨?_, fun e he => hbound 0 hpos e he, ?_⟩, ?_, hbound, ?_, ?_⟩
  · intro l hl e he
    rcases S.elements l hl e he with ⟨hm, hne⟩ | ⟨e0, he0, hz, v, hv, rfl⟩
    · exact D.fits l hl e hm (fun h => hne h.2)
    · have hhash := (D.spine trivial l hl e0 he0 hz).1
      have hl' : l < path.length := lt_of_lt_of_le hl D.tall
      have hdup := D.marked _ (levelAt_mem hl') e0 he0
      refine ⟨v, by rw [← hv]; exact congrArg _ hz, .inl ⟨rfl, ?_⟩⟩
      rw [hdup, Option.isNone_eq_false_iff]
      exact hhash
  · intro t ht l hl
    rcases D.complete t ((hleaf t).mp ht) l hl with ⟨e, he, ho⟩ | ⟨t', ht', hto⟩
    · by_cases hz : e.offset = 0
      · rcases S.slot0 l hl ⟨e, he, hz⟩ with h | ⟨e', he', hz'⟩
        · exact .inl (by rw [← ho, hz]; exact h)
        · -- the dropped hash is computed again from the leaf
          refine .inr ⟨0, ⟨e', he', hz', ?_⟩, by rw [← ho, hz, Nat.zero_div]⟩
          rcases S.elements 0 hpos e' he' with ⟨_, hne⟩ | ⟨e0, _, _, v, _, rfl⟩
          · exact absurd hz' hne
          · rfl
      · exact .inl ⟨e, S.keeps l hl e he hz, ho⟩
    · exact .inr ⟨t', (hleaf t').mpr ht', hto⟩
  · rw [S.length]
    exact D.tall
  · rw [Distinct, S.offsets]
    exact D.distinct 0
  · obtain ⟨t, ht⟩ := D.hasLeaf
    exact ⟨t, (hleaf t).mpr ht⟩

end

theorem Delivered.ready_of_fresh (D : Delivered node height False labels path)
    (hpos : 0 < height) : Ready node height path where
  view := ⟨fun l hl e he => D.fits l hl e he (fun h => h.1), fun e he => D.bounded 0 hpos e he,
    D.complete⟩
  tall := D.tall
  bounded := D.bounded
  distinct := D.distinct 0
  hasLeaf := D.hasLeaf

end Swap

/-- The hashes at offset 0 of a subtree's STUMPs are stale. -/
def IsStale (sdk : Sdk H Data) (coinbaseBUMP : Data) (index : Nat) : Prop :=
  index = 0 ∧ (extractCoinbaseTxID sdk coinbaseBUMP).isSome

/-- The coinbase path agrees with the left spine, wherever it is used. -/
def SpineIfStale (sdk : Sdk H Data) (coinbaseBUMP : Data) (index : Nat)
    (node : Nat → Nat → Option H) (height : Nat) : Prop :=
  index = 0 → ∀ coinbase, extractCoinbaseTxID sdk coinbaseBUMP = some coinbase →
    ∃ cbPath, sdk.newMerklePathFromBinary coinbaseBUMP = .ok cbPath ∧
      Spine sdk.merkleTreeParent node height coinbase cbPath.path

section

variable {sdk : Sdk H Data} {node : Nat → Nat → Option H} {height index : Nat}
  {labels : Nat → Nat → Option H} {path : List (Level H)} {coinbaseBUMP : Data}

variable (D : Delivered node height (IsStale sdk coinbaseBUMP index) labels path)
  (hpos : 0 < height) (hS : SpineIfStale sdk coinbaseBUMP index node height)

include D hpos hS

theorem Delivered.swap_cases :
    (¬ IsStale sdk coinbaseBUMP index ∧ swapCoinbase sdk coinbaseBUMP index path = path) ∨
      (IsStale sdk coinbaseBUMP index ∧
        Swapped node height path (swapCoinbase sdk coinbaseBUMP index path)) := by
  by_cases hz : index = 0
  · cases hc : extractCoinbaseTxID sdk coinbaseBUMP with
    | none => exact .inl ⟨by simp [IsStale, hc], by simp [swapCoinbase, hz, hc]⟩
    | some coinbase =>
      have hstale : IsStale sdk coinbaseBUMP index := ⟨hz, by simp [hc]⟩
      have htrue : IsStale sdk coinbaseBUMP index = True := eq_true hstale
      rw [htrue] at D
      obtain ⟨cbPath, hparse, S⟩ := hS hz coinbase hc
      refine .inr ⟨hstale, ?_⟩
      have heq : swapCoinbase sdk coinbaseBUMP index path =
          applyCoinbaseToSTUMP sdk coinbase coinbaseBUMP path := by
        simp [swapCoinbase, hz, hc]
      rw [heq]
      by_cases h0 : HasSlot (levelAt path 0) 0
      · exact swapped_full D S.leaf h0
      · exact swapped_minimal D hpos hparse S h0
  · exact .inl ⟨fun h => hz h.1, by simp [swapCoinbase, hz]⟩

theorem Delivered.ready : Ready node height (swapCoinbase sdk coinbaseBUMP index path) := by
  rcases D.swap_cases hpos hS with ⟨hno, heq⟩ | ⟨hstale, S⟩
  · rw [heq]
    rw [eq_false hno] at D
    exact D.ready_of_fresh hpos
  · rw [eq_true hstale] at D
    exact S.ready D hpos

theorem Delivered.leaf_swap {e : PathElement H} (he : e ∈ levelAt path 0) (hx : e.hash.isSome) :
    ∃ e' ∈ levelAt (swapCoinbase sdk coinbaseBUMP index path) 0, e'.offset = e.offset ∧
      e'.hash = node 0 e.offset ∧
      (¬ (IsStale sdk coinbaseBUMP index ∧ e.offset = 0) → e'.hash = e.hash) := by
  have hR := D.ready hpos hS
  rcases D.swap_cases hpos hS with ⟨hno, heq⟩ | ⟨hstale, S⟩
  · rw [heq] at hR ⊢
    obtain ⟨x, hx⟩ := Option.isSome_iff_exists.mp hx
    refine ⟨e, he, rfl, ?_, fun _ => rfl⟩
    rw [hx, (hR.view.fits 0 hpos e he).node_of_hash hx]
  · by_cases hz : e.offset = 0
    · obtain ⟨e', he', hz'⟩ := S.leaf0 ⟨e, he, hz⟩
      refine ⟨e', he', by omega, ?_, fun h => absurd ⟨hstale, hz⟩ h⟩
      rcases S.elements 0 hpos e' he' with ⟨_, hne⟩ | ⟨e0, _, _, v, hv, rfl⟩
      · exact absurd hz' hne
      · rw [hz, hv]
    · have he' := S.keeps 0 hpos e he hz
      obtain ⟨x, hx⟩ := Option.isSome_iff_exists.mp hx
      refine ⟨e, he', rfl, ?_, fun _ => rfl⟩
      rw [hx, (hR.view.fits 0 hpos e he').node_of_hash hx]

end

/-! ## Lengths -/

theorem length_swapCoinbase (sdk : Sdk H Data) (coinbaseBUMP : Data) (index : Nat)
    (path : List (Level H)) :
    (swapCoinbase sdk coinbaseBUMP index path).length = path.length := by
  unfold swapCoinbase
  split
  · cases extractCoinbaseTxID sdk coinbaseBUMP with
    | none => rfl
    | some coinbase =>
      cases path with
      | nil => rfl
      | cons level0 upper =>
        simp only [applyCoinbaseToSTUMP]
        split
        · simp
        · cases sdk.newMerklePathFromBinary coinbaseBUMP with
          | error _ => rfl
          | ok cbPath => exact length_walkCoinbase _ _ _ _
  · rfl

end Arcade.Bump
