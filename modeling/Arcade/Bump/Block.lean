import Arcade.Bump.Built

/-!
Blocks cut into subtrees, the STUMPs and the coinbase path that describe them, and
what `BuildCompoundBUMP` works out from these: the root of subtree 0 with the real
coinbase, the height of a subtree and the lift of the last one.
-/

namespace Arcade.Bump

open Lib.Merkle List

variable {H Data : Type}

/-- A block of at least two subtrees. Only the last one may be short. -/
structure Block (H : Type) where
  height : Nat
  full : List (List H)
  last : List H
  height_pos : 0 < height
  full_ne : full ≠ []
  full_length : ∀ s ∈ full, s.length = 2 ^ height
  last_ne : last ≠ []
  last_length : last.length ≤ 2 ^ height

namespace Block

def subtrees (b : Block H) : List (List H) := b.full ++ [b.last]

def numSubtrees (b : Block H) : Nat := b.full.length + 1

def leaf (b : Block H) (i t : Nat) : Option H := (b.subtrees[i]?).bind (·[t]?)

/-- The subtrees as they are hashed before the block is found: a placeholder stands for
the coinbase. -/
def rawSubtrees (b : Block H) (zero : H) : List (List H) := b.subtrees.modifyHead (·.set 0 zero)

variable (parent : H → H → H)

/-- The subtree roots of the data hub. -/
def rawRoots (b : Block H) (zero : H) : List H :=
  (b.rawSubtrees zero).map (treeRoot parent zero)

/-- The subtree roots with the real coinbase. -/
def roots (b : Block H) (zero : H) : List H := b.subtrees.map (treeRoot parent zero)

/-- The roots at the common height: a short subtree's root is hashed with itself once
per missing level. -/
def liftedRoots (b : Block H) (zero : H) : List H :=
  b.subtrees.map fun s =>
    (selfHash parent)^[b.height - Nat.clog 2 s.length] (treeRoot parent zero s)

def headerRoot (b : Block H) (zero : H) : H := treeRoot parent zero (b.liftedRoots parent zero)

/-- The right neighbour of the left spine, level by level. -/
def spineSibling (b : Block H) (zero : H) (l : Nat) : Option H :=
  if l < b.height then (b.subtrees[0]?).bind fun s => (level parent s l)[1]?
  else (level parent (b.liftedRoots parent zero) (l - b.height))[1]?

end Block

/-- The path lists nodes of the tree over `s`, as hashes or, past the end of an odd level, as
duplicates; only leaves are marked as txids. -/
@[mk_iff]
structure Shows (parent : H → H → H) (s : List H) (path : List (Level H)) : Prop where
  tall : Nat.clog 2 s.length ≤ path.length
  distinct : ∀ level ∈ path, Distinct level
  unmarked : ∀ level ∈ path.tail, ∀ e ∈ level, e.txid = false
  nodes : ∀ l < Nat.clog 2 s.length, ∀ e ∈ levelAt path l, e.hash.isSome →
    padded (level parent s l) e.offset = e.hash
  duplicates : ∀ l < Nat.clog 2 s.length, ∀ e ∈ levelAt path l, e.duplicate = true →
    e.offset = (level parent s l).length ∧ e.offset % 2 = 1

/-- A STUMP of the subtree with leaves `s`: some tracked leaves with the nodes beside
their way up. Levels above the subtree root hold what `above` says. -/
@[mk_iff]
structure StumpOf (parent : H → H → H) (s : List H) (above : Nat → Nat → Option H)
    (tracked : List Nat) (path : List (Level H)) : Prop extends Shows parent s path where
  agrees : ∀ l < path.length, Nat.clog 2 s.length ≤ l → ∀ e ∈ levelAt path l, e.hash.isSome →
    above l e.offset = e.hash
  some_tracked : tracked ≠ []
  leaves : ∀ t ∈ tracked, t < s.length ∧ Leaf path t
  siblings : ∀ t ∈ tracked, ∀ l < Nat.clog 2 s.length,
    HasSlot (levelAt path l) (sibling (t / 2 ^ l))

/-- The path of the coinbase from its leaf to the header root. -/
@[mk_iff]
structure CoinbasePath (parent : H → H → H) (b : Block H) (zero : H) (path : List (Level H)) :
    Prop where
  length : path.length = b.height + Nat.clog 2 b.numSubtrees
  leaf : HasSlot (levelAt path 0) 0 ∧ ∀ e ∈ levelAt path 0, e.offset = 0 → e.hash = b.leaf 0 0
  siblings : ∀ l < path.length, HasSlot (levelAt path l) 1 ∧
    ∀ e ∈ levelAt path l, e.offset = 1 → e.hash = b.spineSibling parent zero l

instance [DecidableEq H] (parent : H → H → H) (s : List H) (path : List (Level H)) :
    Decidable (Shows parent s path) :=
  decidable_of_iff' _ (shows_iff parent s path)

instance [DecidableEq H] (parent : H → H → H) (s : List H) (above : Nat → Nat → Option H)
    (tracked : List Nat) (path : List (Level H)) :
    Decidable (StumpOf parent s above tracked path) :=
  decidable_of_iff' _ (stumpOf_iff parent s above tracked path)

instance [DecidableEq H] (parent : H → H → H) (b : Block H) (zero : H) (path : List (Level H)) :
    Decidable (CoinbasePath parent b zero path) :=
  decidable_of_iff' _ (coinbasePath_iff parent b zero path)

/-! ## Lists of subtrees -/

namespace Block

variable {parent : H → H → H} {zero : H} (b : Block H)

theorem length_subtrees : b.subtrees.length = b.numSubtrees := by
  simp [subtrees, numSubtrees]

theorem two_le : 2 ≤ b.numSubtrees := by
  have := length_pos_iff.mpr b.full_ne
  simp only [numSubtrees]
  omega

variable {i : Nat} {s : List H}

theorem subtrees_full (hi : i < b.full.length) :
    ∃ s, b.subtrees[i]? = some s ∧ s.length = 2 ^ b.height := by
  refine ⟨b.full[i], ?_, b.full_length _ (getElem_mem hi)⟩
  rw [subtrees, List.getElem?_append_left hi, List.getElem?_eq_getElem hi]

theorem subtrees_last : b.subtrees[b.full.length]? = some b.last := by
  simp [subtrees]

theorem subtrees_first : ∃ s, b.subtrees[0]? = some s ∧ s.length = 2 ^ b.height :=
  b.subtrees_full (length_pos_iff.mpr b.full_ne)

theorem exists_coinbase : ∃ c, b.leaf 0 0 = some c := by
  obtain ⟨s, hs, hlen⟩ := b.subtrees_first
  have hpos : 0 < s.length := hlen ▸ Nat.two_pow_pos _
  exact ⟨s[0], by rw [leaf, hs, Option.bind_some, List.getElem?_eq_getElem hpos]⟩

theorem subtree_ne (hs : s ∈ b.subtrees) : s ≠ [] := by
  rcases mem_append.mp hs with h | h
  · intro hnil
    have hlen := b.full_length s h
    rw [hnil, length_nil] at hlen
    have := Nat.two_pow_pos b.height
    omega
  · rw [mem_singleton.mp h]
    exact b.last_ne

theorem rawSubtrees_zero (hs : b.subtrees[0]? = some s) :
    (b.rawSubtrees zero)[0]? = some (s.set 0 zero) := by
  unfold rawSubtrees
  cases h : b.subtrees with
  | nil => rw [h] at hs; cases hs
  | cons x xs =>
    rw [h] at hs
    simp only [List.getElem?_cons_zero, Option.some.injEq] at hs
    simp [List.modifyHead, hs]

theorem rawSubtrees_succ (i : Nat) : (b.rawSubtrees zero)[i + 1]? = b.subtrees[i + 1]? := by
  unfold rawSubtrees
  cases b.subtrees with
  | nil => rfl
  | cons x xs => simp [List.modifyHead]

theorem length_rawSubtrees : (b.rawSubtrees zero).length = b.numSubtrees := by
  rw [← b.length_subtrees, rawSubtrees]
  cases b.subtrees <;> rfl

variable (zero) in
/-- A subtree with the placeholder has the size of the real one, and differs from it in
the first leaf of subtree 0 only. -/
theorem raw_of_subtree (hs : b.subtrees[i]? = some s) :
    ∃ s', (b.rawSubtrees zero)[i]? = some s' ∧ s'.length = s.length ∧ s'.tail = s.tail ∧
      (i ≠ 0 → s' = s) := by
  cases i with
  | zero =>
    refine ⟨s.set 0 zero, b.rawSubtrees_zero hs, by simp, ?_, fun h => absurd rfl h⟩
    cases s <;> rfl
  | succ i => exact ⟨s, by rw [rawSubtrees_succ, hs], rfl, rfl, fun _ => rfl⟩

theorem exists_subtree (hi : i < b.numSubtrees) : ∃ s, b.subtrees[i]? = some s :=
  ⟨_, List.getElem?_eq_getElem (by rw [b.length_subtrees]; exact hi)⟩

theorem clog_subtree (hs : b.subtrees[i]? = some s) :
    Nat.clog 2 s.length ≤ b.height ∧ (i < b.full.length → Nat.clog 2 s.length = b.height) := by
  have hclog : Nat.clog 2 (2 ^ b.height) = b.height := Nat.clog_pow 2 _ (by decide)
  have hle : s.length ≤ 2 ^ b.height := by
    rcases mem_append.mp (mem_of_getElem? hs) with h | h
    · rw [b.full_length s h]
    · rw [mem_singleton.mp h]
      exact b.last_length
  refine ⟨by rw [← hclog]; exact Nat.clog_mono_right 2 hle, fun hi => ?_⟩
  obtain ⟨s', hs', hlen⟩ := b.subtrees_full hi
  rw [hs, Option.some.injEq] at hs'
  rw [hs', hlen, hclog]

theorem length_roots : (b.roots parent zero).length = b.numSubtrees := by
  rw [roots, length_map, length_subtrees]

theorem length_rawRoots : (b.rawRoots parent zero).length = b.numSubtrees := by
  rw [rawRoots, length_map, length_rawSubtrees]

theorem roots_getElem? (i : Nat) :
    (b.roots parent zero)[i]? = (b.subtrees[i]?).map (treeRoot parent zero) := by
  rw [roots, List.getElem?_map]

theorem set_rawRoots (hs : b.subtrees[0]? = some s) :
    (b.rawRoots parent zero).set 0 (treeRoot parent zero s) = b.roots parent zero := by
  unfold rawRoots roots rawSubtrees
  cases h : b.subtrees with
  | nil => rfl
  | cons x xs =>
    rw [h] at hs
    simp only [List.getElem?_cons_zero, Option.some.injEq] at hs
    simp [List.modifyHead, hs]

theorem liftedRoots_eq : b.liftedRoots parent zero = (b.roots parent zero).set (b.numSubtrees - 1)
      ((selfHash parent)^[b.height - Nat.clog 2 b.last.length] (treeRoot parent zero b.last)) := by
  have hfull : (b.full.map fun s =>
      (selfHash parent)^[b.height - Nat.clog 2 s.length] (treeRoot parent zero s)) =
        b.full.map (treeRoot parent zero) := by
    refine map_congr_left fun s hs => ?_
    rw [b.full_length s hs, Nat.clog_pow 2 _ (by decide), Nat.sub_self, Function.iterate_zero,
      id_eq]
  rw [liftedRoots, roots, subtrees, map_append, map_append, hfull, numSubtrees,
    Nat.add_sub_cancel, set_append]
  simp

end Block

/-! ## STUMPs -/

/-- What the variants of a subtree with leaves `s` agree on. -/
def labelsOf (parent : H → H → H) (s : List H) (above : Nat → Nat → Option H) (l o : Nat) :
    Option H :=
  if l < Nat.clog 2 s.length then padded (level parent s l) o else above l o

section Stumps

variable {parent : H → H → H} {s raw : List H} {above : Nat → Nat → Option H} {tracked : List Nat}
  {path : List (Level H)} {stale : Prop} {l : Nat}

theorem padded_of_raw (hlen : raw.length = s.length) (htail : raw.tail = s.tail) {o : Nat}
    (hl : l < Nat.clog 2 s.length) (ho : o ≠ 0) :
    padded (level parent raw l) o = padded (level parent s l) o := by
  have hget : ∀ j, j ≠ 0 → (level parent raw l)[j]? = (level parent s l)[j]? := by
    intro j hj
    obtain ⟨j, rfl⟩ := Nat.exists_eq_succ_of_ne_zero hj
    rw [← List.getElem?_tail, level_tail parent hlen htail l, List.getElem?_tail]
  have htwo := two_le_width_of_lt hl
  unfold padded
  rw [length_level, length_level, hlen]
  split
  · exact hget _ (by omega)
  · exact hget _ ho

theorem Shows.node_of_hash (S : Shows parent s path) (hl : l < Nat.clog 2 s.length)
    {e : PathElement H} (he : e ∈ levelAt path l) {v : H} (hv : e.hash = some v) :
    padded (level parent s l) e.offset = some v := by
  rw [S.nodes l hl e he (by simp [hv]), hv]

theorem Shows.distinct_levelAt (S : Shows parent s path) (l : Nat) : Distinct (levelAt path l) := by
  by_cases hl : l < path.length
  · exact S.distinct _ (levelAt_mem hl)
  · rw [levelAt_of_length_le (by omega)]
    exact nodup_nil

theorem Shows.unmarked_above (S : Shows parent s path) (hpos : 0 < l)
    {e : PathElement H} (he : e ∈ levelAt path l) : e.txid = false := by
  cases path with
  | nil => simp [levelAt] at he
  | cons level0 upper =>
    obtain ⟨k, rfl⟩ : ∃ k, l = k + 1 := ⟨l - 1, by omega⟩
    exact S.unmarked _ (levelAt_mem (lt_length_of_mem he)) e he

theorem Shows.bounded (S : Shows parent s path) (hmarked : ∀ level ∈ path, Marked level)
    (hl : l < Nat.clog 2 s.length) {e : PathElement H} (he : e ∈ levelAt path l) :
    e.offset < 2 ^ (Nat.clog 2 s.length - l) := by
  have hmark := hmarked _ (levelAt_mem (lt_of_lt_of_le hl S.tall)) e he
  refine slot_lt_pow hl ?_
  cases hh : e.hash with
  | some v =>
    have h := padded_isSome (S.node_of_hash hl he hh)
    rwa [length_level] at h
  | none =>
    have hdup : e.duplicate = true := by rw [hmark, hh]; rfl
    obtain ⟨hoff, hodd⟩ := S.duplicates l hl e he hdup
    exact .inr ⟨by rw [hoff, length_level], hodd⟩

theorem Shows.delivered (S : Shows parent raw path) (hmarked : ∀ level ∈ path, Marked level)
    (hlen : raw.length = s.length) (htail : raw.tail = s.tail) (hfresh : ¬ stale → raw = s)
    {labels : Nat → Nat → Option H}
    (hlabels : ∀ l, ∀ e ∈ levelAt path l, ∀ v, e.hash = some v → labels l e.offset = some v)
    (hways : ∀ t, Leaf path t → ∀ l < Nat.clog 2 s.length, Covered path l (sibling (t / 2 ^ l)))
    (hleaf : ∃ t, Leaf path t) :
    Delivered (fun l o => padded (level parent s l) o) (Nat.clog 2 s.length) stale labels path := by
  have hmark : ∀ l < Nat.clog 2 s.length, ∀ e ∈ levelAt path l, e.duplicate = e.hash.isNone := by
    intro l hl e he
    exact hmarked _ (levelAt_mem (lt_of_lt_of_le (hlen ▸ hl) S.tall)) e he
  have hwidth : ∀ l, (level parent raw l).length = width s.length l := by
    intro l
    rw [length_level, hlen]
  refine ⟨hlen ▸ S.tall, hmarked, S.distinct_levelAt, hlabels, ?_, ?_, ?_, hways, hleaf⟩
  · intro l hl e he hst
    have hd := hmark l hl e he
    cases hh : e.hash with
    | some v =>
      have hraw := S.node_of_hash (hlen ▸ hl) he hh
      refine ⟨v, ?_, .inl ⟨hh, by simp [hd, hh]⟩⟩
      by_cases hs : stale
      · exact (padded_of_raw hlen htail hl fun h0 => hst ⟨hs, h0⟩).symm.trans hraw
      · rw [hfresh hs] at hraw
        exact hraw
    | none =>
      have hdup : e.duplicate = true := by simp [hd, hh]
      obtain ⟨hoff, hodd⟩ := S.duplicates l (hlen ▸ hl) e he hdup
      have hreal : e.offset = (level parent s l).length := by rw [hoff, hwidth, length_level]
      obtain ⟨v, hv, hv'⟩ := padded_repeats (show (level parent s l).length % 2 = 1 by
        rw [← hreal]; exact hodd)
      rw [← hreal] at hv hv'
      exact ⟨v, hv, .inr ⟨hh, hdup, hodd, hv'⟩⟩
  · intro hst l hl e he hz
    refine ⟨?_, fun hpos => S.unmarked_above hpos he⟩
    by_contra hnone
    have hdup : e.duplicate = true := by
      rw [hmark l hl e he]
      simpa using hnone
    have hodd := (S.duplicates l (hlen ▸ hl) e he hdup).2
    omega
  · intro l hl e he
    exact hlen ▸ S.bounded hmarked (hlen ▸ hl) he

theorem StumpOf.delivered (S : StumpOf parent raw above tracked path)
    (honly : ∀ e ∈ levelAt path 0, ∃ t ∈ tracked, e.offset = t ∨ e.offset = sibling t)
    (hmarked : ∀ level ∈ path, Marked level) (hlen : raw.length = s.length)
    (htail : raw.tail = s.tail) (hfresh : ¬ stale → raw = s) :
    Delivered (fun l o => padded (level parent s l) o) (Nat.clog 2 s.length) stale
      (labelsOf parent raw above) path := by
  refine S.toShows.delivered hmarked hlen htail hfresh ?_ ?_ ?_
  · intro l e he v hv
    unfold labelsOf
    split
    · next hl => exact S.toShows.node_of_hash hl he hv
    · next hl =>
      rw [S.agrees l (lt_length_of_mem he) (by omega) e he (by simp [hv]), hv]
  · rintro t ⟨e, he, rfl, _⟩ l hl
    obtain ⟨t0, ht0, hcase⟩ := honly e he
    cases l with
    | zero =>
      rw [Nat.pow_zero, Nat.div_one]
      rcases hcase with h | h
      · have hsib := S.siblings t0 ht0 0 (hlen ▸ hl)
        rw [Nat.pow_zero, Nat.div_one, ← h] at hsib
        exact .inl hsib
      · obtain ⟨_, e0, he0, hoff, _⟩ := S.leaves t0 ht0
        exact .inl ⟨e0, he0, by rw [h, sibling_sibling, hoff]⟩
    | succ l =>
      have hsib := S.siblings t0 ht0 (l + 1) (hlen ▸ hl)
      rcases hcase with h | h
      · rw [h]
        exact .inl hsib
      · rw [h, sibling_div_pow]
        exact .inl hsib
  · obtain ⟨t, ht⟩ := exists_mem_of_ne_nil _ S.some_tracked
    exact ⟨t, (S.leaves t ht).2⟩

end Stumps

/-! ## The coinbase path -/

section Coinbase

variable {sdk : Sdk H Data} {b : Block H} {zero : H} {coinbaseBUMP : Data} {cbPath : MerklePath H}
  {s : List H} {c : H} {parent : H → H → H} {path : List (Level H)}

theorem CoinbasePath.sibling_hash
    (C : CoinbasePath parent b zero path) (hs : b.subtrees[0]? = some s) {l : Nat}
    (hl : l < b.height) :
    ∃ e v, findLeafByOffset path l 1 = some e ∧ e.hash = some v ∧
      padded (level parent s l) 1 = some v := by
  have hlt : l < path.length := by rw [C.length]; omega
  obtain ⟨hslot, hhash⟩ := C.siblings l hlt
  obtain ⟨e, he⟩ := leafAt_of_hasSlot hslot
  obtain ⟨hmem, hoff⟩ := leafAt_eq_some he
  obtain ⟨s', hs', hlen⟩ := b.subtrees_first
  obtain rfl : s' = s := by simpa [hs'] using hs
  have hwide : 1 < (level parent s' l).length := by
    rw [length_level, hlen, width_pow (le_of_lt hl)]
    exact Nat.one_lt_two_pow (by omega)
  refine ⟨e, (level parent s' l)[1], he, ?_, ?_⟩
  · rw [hhash e hmem hoff, Block.spineSibling, if_pos hl, hs', Option.bind_some,
      List.getElem?_eq_getElem hwide]
  · rw [padded_of_lt hwide, List.getElem?_eq_getElem hwide]

theorem CoinbasePath.coinbaseLeaf_eq
    (C : CoinbasePath parent b zero path) (hc : b.leaf 0 0 = some c) :
    coinbaseLeaf path = some c := by
  obtain ⟨⟨e, he, hoff⟩, hhash⟩ := C.leaf
  have hsome : ((levelAt path 0).find? fun e => e.offset == 0 && e.hash.isSome).isSome := by
    rw [List.find?_isSome]
    exact ⟨e, he, by simp [hoff, hhash e he hoff, hc]⟩
  obtain ⟨e', he'⟩ := Option.isSome_iff_exists.mp hsome
  have hsel := List.find?_some he'
  simp only [Bool.and_eq_true, beq_iff_eq] at hsel
  rw [coinbaseLeaf, he', Option.bind_some, hhash e' (mem_of_find?_eq_some he') hsel.1, hc]

variable [DecidableEq H] (hsdk : sdk.Lawful) (hparse : sdk.newMerklePathFromBinary coinbaseBUMP = .ok cbPath)
  (C : CoinbasePath sdk.merkleTreeParent b zero cbPath.path)

include hsdk hparse C

theorem CoinbasePath.txid (hc : b.leaf 0 0 = some c) :
    extractCoinbaseTxID sdk coinbaseBUMP = some c := by
  rw [extractCoinbaseTxID, hsdk.empty coinbaseBUMP cbPath hparse, hparse]
  exact C.coinbaseLeaf_eq hc

omit [DecidableEq H] hsdk hparse in
theorem CoinbasePath.spine (hc : b.leaf 0 0 = some c) (hs : b.subtrees[0]? = some s) :
    Spine sdk.merkleTreeParent (fun l o => padded (level sdk.merkleTreeParent s l) o) b.height c
      cbPath.path := by
  refine ⟨by rw [C.length]; omega, ?_, ?_⟩
  · rw [Block.leaf, hs, Option.bind_some] at hc
    rw [level, padded_of_lt (List.getElem?_eq_some_iff.mp hc).1, hc]
  · intro l hl
    obtain ⟨e, v, he, hv, hright⟩ := C.sibling_hash hs hl
    refine ⟨v, by rw [he, Option.bind_some, hv], fun w hw => ?_⟩
    exact padded_level_succ sdk.merkleTreeParent (o := 0) hw hright

theorem CoinbasePath.correctHashes_eq (hc : b.leaf 0 0 = some c) :
    correctHashes sdk (b.rawRoots sdk.merkleTreeParent zero) coinbaseBUMP =
      b.roots sdk.merkleTreeParent zero := by
  obtain ⟨s, hs, hlen⟩ := b.subtrees_first
  obtain ⟨w, hw, hnode⟩ := (C.spine hc hs).spineHash_eq (hsdk.parsed _ _ hparse) (le_refl _)
  have hclog : Nat.clog 2 s.length = b.height := by rw [hlen, Nat.clog_pow 2 _ (by decide)]
  have hroot : w = treeRoot sdk.merkleTreeParent zero s := by
    have hone := level_clog (rootOf_eq_treeRoot sdk.merkleTreeParent zero
      (b.subtree_ne (mem_of_getElem? hs)))
    rw [hclog] at hone
    rw [hone] at hnode
    simpa [padded] using hnode.symm
  have hpos := b.height_pos
  have hheight : cbPath.path.length - Nat.clog 2 b.numSubtrees = b.height := by
    rw [C.length, Nat.add_sub_cancel]
  have hcorrect : correctedSubtree0Root sdk coinbaseBUMP b.numSubtrees = some w := by
    rw [correctedSubtree0Root, hparse]
    simp only
    rw [if_neg (by omega), hheight, subtree0RootFromCoinbaseBUMP,
      hsdk.empty coinbaseBUMP cbPath hparse, hparse]
    simp only [Bool.false_eq_true, false_or]
    rw [if_neg (by omega), if_neg (by omega), C.coinbaseLeaf_eq hc, Option.bind_some, hw]
  rw [correctHashes, C.txid hsdk hparse hc, b.length_rawRoots, hcorrect, hroot]
  exact b.set_rawRoots hs

omit [DecidableEq H] hsdk in
theorem CoinbasePath.internalHeight_eq (firstHeight : Nat) :
    internalHeightFor sdk coinbaseBUMP b.numSubtrees firstHeight = b.height := by
  have hheight : cbPath.path.length - Nat.clog 2 b.numSubtrees = b.height := by
    rw [C.length, Nat.add_sub_cancel]
  have hpos := b.height_pos
  simp [internalHeightFor, hparse, hheight, hpos]

end Coinbase

/-! ## The lift of the last subtree -/

section Lift

variable {parent : H → H → H}

theorem topRound_eq_pairUp (xs : List H) : topRound parent xs = pairUp parent xs := by
  induction xs using pairUp.induct with
  | case1 => simp [topRound, hashPairs, pairUp]
  | case2 a => simp [topRound, hashPairs, pairUp]
  | case3 a b rest ih =>
    unfold topRound at ih ⊢
    have hparity : (a :: b :: rest).length % 2 = rest.length % 2 := by
      simp only [length_cons]
      omega
    rw [hparity]
    by_cases hodd : rest.length % 2 = 1
    · rw [if_pos hodd] at ih ⊢
      have hlast : (a :: b :: rest).getLast? = rest.getLast? := by
        cases rest with
        | nil => simp at hodd
        | cons c rest => simp [List.getLast?_cons_cons]
      rw [hlast, cons_append, cons_append, hashPairs, ih, pairUp]
    · rw [if_neg hodd] at ih ⊢
      rw [hashPairs, ih, pairUp]

theorem topTreeRoot_eq (xs : List H) : topTreeRoot parent xs = rootOf parent xs := by
  fun_induction topTreeRoot parent xs with
  | case1 xs h hlt ih =>
    have hclog : Nat.clog 2 xs.length = Nat.clog 2 ((xs.length + 1) / 2) + 1 := by
      rw [Nat.clog_of_two_le (by decide) (by omega), show xs.length + 2 - 1 = xs.length + 1 by omega]
    rw [ih, topRound_eq_pairUp, rootOf, rootOf, length_pairUp, hclog, level_succ']
  | case2 xs h =>
    have hclog : Nat.clog 2 xs.length = 0 := Nat.clog_of_right_le_one (by omega) 2
    rw [rootOf, hclog, level]

variable [DecidableEq H]

theorem deriveFinalSubtreeLift_eq (hinj : ∀ a b c d, parent a b = parent c d → a = c ∧ b = d)
    (hchain : ∀ x i j, (selfHash parent)^[i] x = (selfHash parent)^[j] x → i = j)
    (b : Block H) (zero : H) :
    deriveFinalSubtreeLift parent (b.roots parent zero) b.height
      (some (b.headerRoot parent zero)) = b.height - Nat.clog 2 b.last.length := by
  have htwo := b.two_le
  have hlen : (b.roots parent zero).length = b.numSubtrees := b.length_roots
  have hlast : (b.roots parent zero).getLast? = some (treeRoot parent zero b.last) := by
    simp [Block.roots, Block.subtrees]
  have hne : b.liftedRoots parent zero ≠ [] := by
    simp [Block.liftedRoots, Block.subtrees]
  have hheader := rootOf_eq_treeRoot parent zero hne
  have hfind : ((List.range (b.height + 1)).find? fun k =>
      topTreeRoot parent ((b.roots parent zero).set ((b.roots parent zero).length - 1)
        ((selfHash parent)^[k] (treeRoot parent zero b.last))) ==
          some (b.headerRoot parent zero)) = some (b.height - Nat.clog 2 b.last.length) := by
    rw [List.find?_range_eq_some]
    refine ⟨?_, mem_range.mpr (by omega), ?_⟩
    · rw [topTreeRoot_eq, hlen, ← b.liftedRoots_eq, hheader]
      exact beq_self_eq_true _
    · intro k hk
      rw [topTreeRoot_eq, hlen, Block.headerRoot, ← hheader, b.liftedRoots_eq]
      simp only [Bool.not_eq_true', beq_eq_false_iff_ne]
      intro heq
      -- equal top roots would make the chain of self-hashes meet itself
      have hnil : ∀ x, (b.roots parent zero).set (b.numSubtrees - 1) x ≠ [] := by
        intro x
        rw [Ne, set_eq_nil_iff, ← length_eq_zero_iff]
        omega
      have hlists := rootOf_injective hinj (by simp) (hnil _) heq
      have hget := congrArg (fun xs => xs[b.numSubtrees - 1]?) hlists
      have hin : b.numSubtrees - 1 < (b.roots parent zero).length := by omega
      simp only [List.getElem?_set_self hin, Option.some.injEq] at hget
      have := hchain _ _ _ hget
      omega
  simp only [deriveFinalSubtreeLift, hlast]
  rw [if_neg (by omega), hfind, Option.getD_some]

end Lift

end Arcade.Bump
