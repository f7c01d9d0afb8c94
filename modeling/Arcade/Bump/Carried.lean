import Arcade.Bump.Kept

/-!
What an accepted compound carries of any STUMPs it was built from, whether or not they
show trees: every leaf hash but that of the coinbase slot, and level 0 in a form
that the encoding keeps.
-/

namespace Arcade.Bump

open Lib.Merkle List

variable {H Data : Type}

/-- Encoding works level by level: a level of hashes and duplicates comes back up to order. -/
def Sdk.LevelFaithful (sdk : Sdk H Data) : Prop :=
  ∀ p q l, sdk.newMerklePathFromBinary (sdk.bytes p) = .ok q → Marked (levelAt p.path l) →
    (levelAt q.path l).Perm (levelAt p.path l)

/-! ## Level 0 of a compound -/

/-- A compound has the leaves of its STUMPs, and what else it has at level 0 is a hash or a
duplicate. -/
structure LeafLevel (sdk : Sdk H Data) (coinbaseBUMP : Data) (lay : Layout)
    (merged : List (MergedStump H Data)) (path : List (Level H)) : Prop where
  keeps : ∀ m ∈ merged, 0 < lay.requiredHeightFor m.index →
    ∀ e ∈ levelAt (m.levels sdk coinbaseBUMP) 0, shiftElement lay m.index 0 e ∈ levelAt path 0
  marked : (∀ m ∈ merged, Marked (levelAt (m.levels sdk coinbaseBUMP) 0)) → Marked (levelAt path 0)

theorem mem_extendFrom (cbPath : List (Level H)) (left level : Nat) (path : List (Level H)) (l : Nat) :
    (∀ e ∈ levelAt path l, e ∈ levelAt (extendFrom cbPath left level path) l) ∧
      (Marked (levelAt path l) → Marked (levelAt (extendFrom cbPath left level path) l)) := by
  induction left generalizing level path with
  | zero => exact ⟨fun _ h => h, fun h => h⟩
  | succ left ih =>
    rw [extendFrom]
    cases (findLeafByOffset cbPath level 1).bind (·.hash) with
    | none => exact ⟨fun _ h => h, fun h => h⟩
    | some v =>
      simp only
      split
      · exact ih (level + 1) path
      · obtain ⟨hkeep, hmarked⟩ := ih (level + 1) (addLeaf path level { offset := 1, hash := some v })
        rw [levelAt_addLeaf] at hkeep hmarked
        split at hkeep
        · refine ⟨fun e he => hkeep e (mem_append_left _ he), fun h => hmarked fun e he => ?_⟩
          rw [if_pos ‹_›] at he
          rcases mem_append.mp he with he | he
          · exact h e he
          · rw [mem_singleton.mp he]
            rfl
        · rw [if_neg ‹_›] at hmarked
          exact ⟨hkeep, hmarked⟩

theorem leafLevel_single {sdk : Sdk H Data} {coinbaseBUMP : Data} (m : MergedStump H Data)
    (hindex : m.index = 0) : LeafLevel sdk coinbaseBUMP ⟨1, m.path.path.length, 0⟩ [m]
      (extendSubtreeToBlockRoot sdk
        (computeMissingHashes sdk.merkleTreeParent (m.levels sdk coinbaseBUMP)) coinbaseBUMP
        m.path.path.length) := by
  have hzero := (completes_missing sdk.merkleTreeParent (m.levels sdk coinbaseBUMP)).zero
  have hextend : (∀ e ∈ levelAt (m.levels sdk coinbaseBUMP) 0, e ∈ levelAt
      (extendSubtreeToBlockRoot sdk (computeMissingHashes sdk.merkleTreeParent
        (m.levels sdk coinbaseBUMP)) coinbaseBUMP m.path.path.length) 0) ∧
      (Marked (levelAt (m.levels sdk coinbaseBUMP) 0) → Marked (levelAt
      (extendSubtreeToBlockRoot sdk (computeMissingHashes sdk.merkleTreeParent
        (m.levels sdk coinbaseBUMP)) coinbaseBUMP m.path.path.length) 0)) := by
    rw [← hzero]
    unfold extendSubtreeToBlockRoot
    split
    · exact ⟨fun _ h => h, fun h => h⟩
    · cases sdk.newMerklePathFromBinary coinbaseBUMP with
      | error err => exact ⟨fun _ h => h, fun h => h⟩
      | ok cbPath => exact mem_extendFrom _ _ _ _ 0
  refine ⟨fun m' hm' _ e he => ?_, fun h => hextend.2 (h m mem_cons_self)⟩
  obtain rfl := mem_singleton.mp hm'
  have hshift : shiftElement ⟨1, m'.path.path.length, 0⟩ m'.index 0 e = e := by
    simp [shiftElement, hindex]
  rw [hshift]
  exact hextend.1 e he

theorem leafLevel_many {sdk : Sdk H Data} {coinbaseBUMP : Data} (lay : Layout) (hashes : List H)
    (merged : List (MergedStump H Data)) : LeafLevel sdk coinbaseBUMP lay merged
      (computeAndPadCompound sdk.merkleTreeParent lay.internalHeight lay.numSubtrees
        (placedPath sdk lay hashes coinbaseBUMP merged)) := by
  have hzero := (completes_andPad sdk.merkleTreeParent lay.internalHeight lay.numSubtrees
    (placedPath sdk lay hashes coinbaseBUMP merged)).zero
  refine ⟨fun m hm hreq e he => ?_, fun h s hs => ?_⟩
  · rw [hzero]
    exact subset_padAt (mem_placedPath.mpr (mem_entries.mpr (.inl ⟨m, hm, hreq, e, he, rfl⟩)))
  · rw [hzero] at hs
    rcases mem_padAt hs with hs | ⟨-, -, -, rfl⟩
    · rcases mem_entries.mp (mem_placedPath.mp hs) with ⟨m, hm, -, e, he, rfl⟩ | ⟨-, hmark⟩ | hseed
      · exact h m hm e he
      · obtain ⟨-, -, rfl⟩ := mem_liftMarkers.mp hmark
        rfl
      · obtain ⟨-, i, x, -, -, rfl⟩ := mem_seeds.mp hseed
        rfl
    · rfl

theorem CompoundOf.leafLevel {sdk : Sdk H Data} {coinbaseBUMP : Data} {lay : Layout}
    {merged : List (MergedStump H Data)} {path : List (Level H)}
    (C : CompoundOf sdk coinbaseBUMP lay merged path) :
    LeafLevel sdk coinbaseBUMP lay merged path := by
  cases C with
  | single m hindex => exact leafLevel_single m hindex
  | many lay hashes merged => exact leafLevel_many lay hashes merged

/-! ## The coinbase swap -/

section Swap

variable {sdk : Sdk H Data} {coinbaseBUMP : Data} {index : Nat} {path : List (Level H)}
  {p : PathElement H → Bool} {v : H} {level : Level H} {e : PathElement H}

theorem mem_setFirst_of_not (he : e ∈ level) (hp : p e = false) : e ∈ setFirst p v level := by
  induction level with
  | nil => cases he
  | cons x rest ih =>
    unfold setFirst
    rcases mem_cons.mp he with rfl | he
    · simp [hp]
    · split
      · exact mem_cons_of_mem _ he
      · exact mem_cons_of_mem _ (ih he)

theorem of_mem_setFirst (h : e ∈ setFirst p v level) :
    e ∈ level ∨ ∃ x ∈ level, p x = true ∧ e = { x with hash := some v } := by
  induction level with
  | nil => cases h
  | cons x rest ih =>
    unfold setFirst at h
    split at h
    · rcases mem_cons.mp h with rfl | h
      · exact .inr ⟨x, mem_cons_self .., by assumption, rfl⟩
      · exact .inl (mem_cons_of_mem _ h)
    · rcases mem_cons.mp h with rfl | h
      · exact .inl (mem_cons_self ..)
      · refine (ih h).imp (mem_cons_of_mem _) ?_
        rintro ⟨y, hy, hp, rfl⟩
        exact ⟨y, mem_cons_of_mem _ hy, hp, rfl⟩

theorem levelAt_walkCoinbase_cases (sdk : Sdk H Data) (cbPath : List (Level H)) (start : Nat)
    (current : H) (levels : List (Level H)) (l : Nat) :
    levelAt (walkCoinbase sdk cbPath start current levels) l = levelAt levels l ∨
      ∃ v, levelAt (walkCoinbase sdk cbPath start current levels) l =
        setFirst (fun e => e.offset == 0 && !e.txid) v (levelAt levels l) := by
  induction levels generalizing start current l with
  | nil => exact .inl rfl
  | cons elems rest ih =>
    unfold walkCoinbase
    split
    · cases l with
      | zero => exact .inr ⟨current, rfl⟩
      | succ l =>
        cases (findLeafByOffset cbPath start 1).bind (·.hash) with
        | none => exact .inl rfl
        | some s => exact ih _ _ l
    · exact .inl rfl

theorem mem_swapCoinbase {l : Nat} (h : e ∈ levelAt (swapCoinbase sdk coinbaseBUMP index path) l) :
    e ∈ levelAt path l ∨
      index = 0 ∧ ∃ x ∈ levelAt path l, x.offset = 0 ∧ ∃ v, e = { x with hash := some v } := by
  unfold swapCoinbase at h
  split at h
  · rename_i hindex
    cases hcb : extractCoinbaseTxID sdk coinbaseBUMP with
    | none =>
      simp only [hcb] at h
      exact .inl h
    | some coinbase =>
      simp only [hcb] at h
      have hset : ∀ (p : PathElement H → Bool) v (level : Level H),
          (∀ x, p x = true → x.offset = 0) → e ∈ setFirst p v level → e ∈ level ∨
            index = 0 ∧ ∃ x ∈ level, x.offset = 0 ∧ ∃ v, e = { x with hash := some v } := by
        intro p v level hp he
        refine (of_mem_setFirst he).imp_right ?_
        rintro ⟨x, hx, hpx, rfl⟩
        exact ⟨hindex, x, hx, hp x hpx, v, rfl⟩
      cases path with
      | nil => exact .inl h
      | cons level0 upper =>
        rw [applyCoinbaseToSTUMP] at h
        split at h
        · cases l with
          | zero => exact hset _ _ _ (fun x hx => by simpa using hx) h
          | succ l =>
            rw [levelAt_cons_succ, levelAt_map _ rfl] at h
            exact .inl (mem_filter.mp h).1
        · cases hparse : sdk.newMerklePathFromBinary coinbaseBUMP with
          | error err =>
            simp only [hparse] at h
            exact .inl h
          | ok cbPath =>
            simp only [hparse] at h
            rcases levelAt_walkCoinbase_cases sdk cbPath.path 0 coinbase
              (level0 :: upper) l with heq | ⟨v, heq⟩
            · exact .inl (heq ▸ h)
            · refine hset _ v _ (fun x hx => ?_) (heq ▸ h)
              simpa using (Bool.and_eq_true_iff.mp hx).1
  · exact .inl h

theorem mem_swapCoinbase_zero (he : e ∈ levelAt path 0) (hne : index = 0 → e.offset ≠ 0) :
    e ∈ levelAt (swapCoinbase sdk coinbaseBUMP index path) 0 := by
  unfold swapCoinbase
  split
  · rename_i hindex
    have hoff := hne hindex
    cases hcb : extractCoinbaseTxID sdk coinbaseBUMP with
    | none => exact he
    | some coinbase =>
      cases path with
      | nil => exact he
      | cons level0 upper =>
        simp only [applyCoinbaseToSTUMP]
        split
        · exact mem_setFirst_of_not he (by simpa using hoff)
        · cases hparse : sdk.newMerklePathFromBinary coinbaseBUMP with
          | error err => exact he
          | ok cbPath =>
            rcases levelAt_walkCoinbase_cases sdk cbPath.path 0 coinbase
              (level0 :: upper) 0 with heq | ⟨v, heq⟩
            · exact heq ▸ he
            · exact heq ▸ mem_setFirst_of_not he (by simp [hoff])
  · exact he

end Swap

/-! ## Every accepted build -/

section Accepted

variable [DecidableEq H] {sdk : Sdk H Data} {coinbaseBUMP : Data} {header zero : H} {lay : Layout}
  {merged : List (MergedStump H Data)} {compound : MerklePath H} {stumps : List (Stump Data)}
  {subtreeHashes : List H} {txids : List String}

def blockInternalHeight (sdk : Sdk H Data) (stumps : List (Stump Data)) (subtreeHashes : List H)
    (coinbaseBUMP : Data) : Nat :=
  match stumps with
  | [] => 0
  | first :: _ =>
    match sdk.newMerklePathFromBinary first.stumpData with
    | .error _ => 0
    | .ok path => internalHeightFor sdk coinbaseBUMP subtreeHashes.length path.path.length

/-- The elements of every STUMP lie within a subtree of the block's internal height. -/
structure WithinSubtrees (sdk : Sdk H Data) (stumps : List (Stump Data)) (subtreeHashes : List H)
    (coinbaseBUMP : Data) : Prop where
  pos : 0 < blockInternalHeight sdk stumps subtreeHashes coinbaseBUMP
  offsets : ∀ st ∈ stumps, ∀ p, sdk.newMerklePathFromBinary st.stumpData = .ok p →
    ∀ l < blockInternalHeight sdk stumps subtreeHashes coinbaseBUMP, ∀ e ∈ levelAt p.path l,
      e.offset < 2 ^ (blockInternalHeight sdk stumps subtreeHashes coinbaseBUMP - l)

/-- In the coinbase slot, the STUMP of subtree 0 has the placeholder or nothing. -/
def SlotIsPlaceholder (sdk : Sdk H Data) (zero : H) (st : Stump Data) : Prop :=
  st.subtreeIndex = 0 → ∀ p, sdk.newMerklePathFromBinary st.stumpData = .ok p →
    ∀ e ∈ levelAt p.path 0, e.offset = 0 → e.hash = some zero

/-- What is known of the elements of a STUMP. -/
structure StumpElement (zero : H) (height index l : Nat) (e : PathElement H) : Prop where
  marked : e.duplicate = e.hash.isNone
  bounded : l < height → e.offset < 2 ^ (height - l)
  slot : index = 0 → l = 0 → e.offset = 0 → e.hash = some zero

def Everywhere (K : Nat → PathElement H → Prop) (path : List (Level H)) : Prop :=
  ∀ l, ∀ e ∈ levelAt path l, K l e

theorem internalHeight_of_kept
    (h : keptStumps sdk stumps subtreeHashes coinbaseBUMP header = .ok (lay, merged))
    (htwo : 2 ≤ lay.numSubtrees) : 2 ≤ subtreeHashes.length ∧
      lay.internalHeight = blockInternalHeight sdk stumps subtreeHashes coinbaseBUMP := by
  rcases keptStumps_cases h with ⟨_, _, _, _, _, _, _, rfl, _⟩ |
    ⟨hmany, first, rest, firstPath, rfl, hfirst, rfl, _⟩
  · simp at htwo
  · refine ⟨hmany, ?_⟩
    simp only [layoutFor, blockInternalHeight, hfirst, length_correctHashes]

theorem required_of_accepted (hsdk : sdk.Lawful)
    (C : CompoundOf sdk coinbaseBUMP lay merged compound.path)
    (hpos : 2 ≤ lay.numSubtrees → 0 < lay.internalHeight)
    (hbound : 2 ≤ lay.numSubtrees → ∀ m ∈ merged, m.index ≠ lay.finalIdx → ∀ l < lay.internalHeight,
      ∀ e ∈ levelAt m.path.path l, e.offset < 2 ^ (lay.internalHeight - l))
    (hvalid : validateCompoundRoot sdk compound (some header) = .ok ()) :
    ∀ m ∈ merged, levelAt m.path.path 0 ≠ [] → 0 < lay.requiredHeightFor m.index := by
  obtain ⟨blockHeight, path⟩ := compound
  cases C with
  | single m hindex =>
    intro m' hm' hne
    obtain rfl := mem_singleton.mp hm'
    have hlen : 0 < m'.path.path.length := by
      obtain ⟨e, he⟩ := exists_mem_of_ne_nil _ hne
      exact lt_length_of_mem he
    simpa [Layout.requiredHeightFor, Layout.finalNaturalHeight] using hlen
  | many lay hashes merged count two_le nodup inRange tall =>
    have htwo : 2 ≤ lay.numSubtrees := by omega
    intro m hm _
    by_contra hno
    have hfinal : m.index = lay.finalIdx ∧ lay.finalNaturalHeight = 0 := by
      have := hpos htwo
      rw [Layout.requiredHeightFor] at hno
      split at hno
      · exact ⟨by assumption, by omega⟩
      · exact absurd this hno
    have hplaced : ∀ m ∈ merged, ∀ k < lay.requiredHeightFor m.index,
        ∀ e ∈ levelAt (swapCoinbase sdk coinbaseBUMP m.index m.path.path) k,
          e.offset < 2 ^ (lay.requiredHeightFor m.index - k) := by
      intro m hm k hk e he
      have hne : m.index ≠ lay.finalIdx := by
        intro heq
        rw [Layout.requiredHeightFor, if_pos heq, hfinal.2] at hk
        cases hk
      rw [Layout.requiredHeightFor, if_neg hne] at hk ⊢
      rcases mem_swapCoinbase he with he | ⟨_, x, hx, _, v, rfl⟩
      · exact hbound htwo m hm hne k hk e he
      · exact hbound htwo m hm hne k hk x hx
    exact emptyFinal_rejected hfinal.2 (fun m hm => by rw [count]; exact inRange m hm) hplaced hsdk
      htwo (hpos htwo) (haveSTUMP_iff.mpr ⟨m, hm, hfinal.1⟩) blockHeight header hvalid

omit [DecidableEq H] in
theorem marked_levels {m : MergedStump H Data} {height : Nat}
    (h : Everywhere (StumpElement zero height m.index) m.path.path) :
    Marked (levelAt (m.levels sdk coinbaseBUMP) 0) := by
  intro e he
  rcases mem_swapCoinbase he with he | ⟨hindex, x, hx, hoff, v, rfl⟩
  · exact (h 0 e he).marked
  · -- the placeholder is a hash, so no duplicate is given one
    have hhash := (h 0 x hx).slot hindex rfl hoff
    have hmark := (h 0 x hx).marked
    rw [hhash] at hmark
    exact hmark

/-- An accepted compound has every leaf hash that its STUMPs list, the placeholder apart, and
its level 0 consists of hashes and duplicates. -/
theorem accepted_carries (hsdk : sdk.Lawful)
    (hrange : ∀ st ∈ stumps, st.subtreeIndex < subtreeHashes.length)
    (hwithin : 2 ≤ subtreeHashes.length → WithinSubtrees sdk stumps subtreeHashes coinbaseBUMP)
    (hslot : ∀ st ∈ stumps, SlotIsPlaceholder sdk zero st)
    (hbuild : buildCompoundBUMP sdk stumps subtreeHashes coinbaseBUMP (some header) =
      .ok (compound, txids))
    (hvalid : validateCompoundRoot sdk compound (some header) = .ok ()) :
    Marked (levelAt compound.path 0) ∧ ∀ id ∈ txids, id = sdk.hashString zero ∨
      ∃ e ∈ levelAt compound.path 0, ∃ x, e.hash = some x ∧ sdk.hashString x = id := by
  obtain ⟨lay, merged, hkept, rfl, C⟩ := kept_of_build hsdk hrange hbuild
  -- one subtree alone needs no bound on the offsets
  let height := if 2 ≤ subtreeHashes.length then
    blockInternalHeight sdk stumps subtreeHashes coinbaseBUMP else 0
  have hgood : ∀ m ∈ merged, Everywhere (StumpElement zero height m.index) m.path.path := by
    intro m hm l e he
    obtain ⟨st, hst, hidx, s, hs, ho, hh, hdup⟩ := (kept_source hsdk hkept hm).1 l e he
    obtain ⟨p, hp, hs⟩ := mem_pathOf hs
    rw [← hidx]
    refine ⟨hh ▸ hdup ▸ hsdk.parsed _ p hp _ (levelAt_mem (lt_length_of_mem hs)) s hs, ?_, ?_⟩
    · intro hl
      by_cases htwo : 2 ≤ subtreeHashes.length
      · have hheight : height = blockInternalHeight sdk stumps subtreeHashes coinbaseBUMP :=
          if_pos htwo
        rw [hheight] at hl ⊢
        exact ho ▸ (hwithin htwo).offsets st hst p hp l hl s hs
      · have hheight : height = 0 := if_neg htwo
        omega
    · rintro hi rfl hz
      exact hh ▸ hslot st hst hi p hp s hs (ho.trans hz)
  have hheight : 2 ≤ lay.numSubtrees → lay.internalHeight = height ∧ 0 < height := by
    intro htwo
    obtain ⟨htwo', hlay⟩ := internalHeight_of_kept hkept htwo
    have hh : height = blockInternalHeight sdk stumps subtreeHashes coinbaseBUMP := if_pos htwo'
    rw [hh]
    exact ⟨hlay, (hwithin htwo').pos⟩
  have hreq := required_of_accepted hsdk C (fun htwo => (hheight htwo).1 ▸ (hheight htwo).2)
    (fun htwo m hm _ l hl e he => by
      rw [(hheight htwo).1] at hl ⊢
      exact (hgood m hm l e he).bounded hl) hvalid
  have L := C.leafLevel
  refine ⟨L.marked fun m hm => marked_levels (hgood m hm), fun id hid => ?_⟩
  obtain ⟨m, hm, hid⟩ := mem_flatMap.mp hid
  obtain ⟨e, he, x, hx, rfl⟩ := (kept_source hsdk hkept hm).2 id hid
  by_cases hz : m.index = 0 ∧ e.offset = 0
  · have hhash := (hgood m hm 0 e he).slot hz.1 rfl hz.2
    rw [hx, Option.some.injEq] at hhash
    exact .inl (by rw [hhash])
  · have hin : e ∈ levelAt (m.levels sdk coinbaseBUMP) 0 :=
      mem_swapCoinbase_zero he fun hi ho => hz ⟨hi, ho⟩
    exact .inr ⟨shiftElement lay m.index 0 e,
      L.keeps m hm (hreq m hm (ne_nil_of_mem he)) e hin, x, hx, rfl⟩

end Accepted

/-! ## A lone leaf -/

/-- The leaf of a one-leaf last subtree, delivered as a path of one level. -/
def LoneStump (sdk : Sdk H Data) (b : Block H) (st : Stump Data) : Prop :=
  st.subtreeIndex = b.full.length ∧ ∃ p x, sdk.newMerklePathFromBinary st.stumpData = .ok p ∧
    p.path.length = 1 ∧ b.last = [x] ∧ ∃ e ∈ levelAt p.path 0, e.offset = 0 ∧ e.hash = some x

/-- The compound is never accepted when the lone leaf of the last subtree is tracked. -/
theorem lone_leaf_never_proved [DecidableEq H] {sdk : Sdk H Data} (hsdk : sdk.Lawful)
    (hinj : ∀ a b c d, sdk.merkleTreeParent a b = sdk.merkleTreeParent c d → a = c ∧ b = d)
    (hchain : ∀ x i j, (selfHash sdk.merkleTreeParent)^[i] x =
      (selfHash sdk.merkleTreeParent)^[j] x → i = j)
    {b : Block H} {zero : H} {above : Nat → Nat → Nat → Option H}
    {tracked : Stump Data → List Nat} {stumps : List (Stump Data)} {coinbaseBUMP : Data}
    (D : Delivery sdk b zero above tracked stumps coinbaseBUMP)
    (hlone : ∃ st ∈ stumps, LoneStump sdk b st) :
    ¬ ProvesAll sdk b zero tracked stumps coinbaseBUMP := by
  rintro ⟨compound, txids, hok, hvalid, _⟩
  obtain ⟨st, hst, hidx, p, x, hp, _, hlast, e, he, _⟩ := hlone
  obtain ⟨hhashes, hlay⟩ := D.layout_eq hsdk hinj hchain
  obtain ⟨lay, merged, hkept, -, C⟩ := kept_of_build hsdk
    (fun st hst => b.length_rawRoots ▸ D.inRange hst) hok
  have htwo := b.two_le
  rcases keptStumps_cases hkept with ⟨hone, -⟩ | ⟨-, -, -, _, -, -, rfl, hmerge⟩
  · rw [b.length_rawRoots] at hone
    omega
  rw [hhashes, hlay] at hmerge C
  have M := (mergeStumpVariants_ends hsdk _).result _ hmerge
  -- nothing is required of the lone leaf's STUMP, so it is kept
  have hzero : b.layout.requiredHeightFor st.subtreeIndex = 0 := by
    rw [hidx, b.layout_required b.subtrees_last, hlast]
    rfl
  obtain ⟨m, hm, hmi, hkeep⟩ := M.keeps (mem_dropVariants_of_zero hst hzero)
  obtain ⟨e', he', -⟩ := hkeep 0 e (pathOf_eq hp ▸ he)
  have hreq := required_of_accepted hsdk C (fun _ => b.height_pos) ?_ hvalid m hm (ne_nil_of_mem he')
  · rw [hmi, hzero] at hreq
    cases hreq
  · intro _ m hm hne l hl e he
    obtain ⟨st, hst, hidx, s, hs, ho, -⟩ := M.source hm he
    obtain ⟨raw, real, p, -, hreal, hp, S, hlen, -⟩ := D.subtree (mem_of_mem_dropVariants hst)
    have hfull : Nat.clog 2 raw.length = b.height := by
      have hin := D.inRange (mem_of_mem_dropVariants hst)
      rw [hlen]
      refine (b.clog_subtree hreal).2 ?_
      simp only [Layout.finalIdx, Block.layout, Block.numSubtrees] at hne hin
      omega
    have hheight : b.layout.internalHeight = Nat.clog 2 raw.length := hfull.symm
    rw [hheight] at hl ⊢
    rw [← ho]
    exact S.toShows.bounded (hsdk.parsed _ _ hp) hl (pathOf_eq hp ▸ hs)

/-! A block of three transactions: two in the first subtree, one in the last. -/

namespace ThreeLeaves

open SixLeaves (leafBits)

def block : Block Bits where
  height := 1
  full := [[leafBits 1, leafBits 2]]
  last := [leafBits 3]
  height_pos := by decide
  full_ne := by decide
  full_length := by decide
  last_ne := by decide
  last_length := by decide

def stump0 : Stump BitsData :=
  ⟨0, some ⟨7, [[⟨0, some [], false, false⟩, ⟨1, some (leafBits 2), true, false⟩]]⟩⟩

def stump1 : Stump BitsData :=
  ⟨1, some ⟨7, [[⟨0, some (leafBits 3), true, false⟩]]⟩⟩

def tracked (st : Stump BitsData) : List Nat :=
  if st.subtreeIndex = 0 then [1] else [0]

/-- The lone leaf is all that is known of the last subtree. -/
def above (i l o : Nat) : Option Bits :=
  if i = 1 ∧ l = 0 ∧ o = 0 then some (leafBits 3) else none

def coinbaseBUMP : BitsData :=
  some ⟨7, [[⟨0, some (leafBits 1), true, false⟩, ⟨1, some (leafBits 2), false, false⟩],
    [⟨1, some (selfHash pairBits (leafBits 3)), false, false⟩]]⟩

theorem delivery : Delivery referenceSdk block [] above tracked [stump0, stump1] coinbaseBUMP := by
  refine ⟨by decide, ?_, _, referenceSdk_parse.mpr ⟨rfl, by decide⟩, by decide +kernel⟩
  intro st hst
  rcases mem_cons.mp hst with rfl | hst
  · exact ⟨_, _, rfl, referenceSdk_parse.mpr ⟨rfl, by decide⟩, by decide +kernel⟩
  · obtain rfl := mem_singleton.mp hst
    exact ⟨_, _, rfl, referenceSdk_parse.mpr ⟨rfl, by decide⟩, by decide +kernel⟩

theorem loneStump : LoneStump referenceSdk block stump1 :=
  ⟨rfl, _, _, referenceSdk_parse.mpr ⟨rfl, by decide⟩, rfl, rfl, _, mem_singleton.mpr rfl, rfl, rfl⟩

/-- What is built: over the lone leaf there is only the mark of its lift. -/
def compound : MerklePath Bits :=
  ⟨7, [[⟨0, some (leafBits 1), false, false⟩, ⟨1, some (leafBits 2), true, false⟩,
      ⟨3, none, false, true⟩],
    [⟨0, some (pairBits (leafBits 1) (leafBits 2)), false, false⟩]]⟩

end ThreeLeaves

theorem lone_leaf_never_proved_threeLeaves :
    ¬ ProvesAll referenceSdk ThreeLeaves.block [] ThreeLeaves.tracked
      [ThreeLeaves.stump0, ThreeLeaves.stump1] ThreeLeaves.coinbaseBUMP :=
  lone_leaf_never_proved referenceSdk_lawful pairBits_injective selfHash_chain ThreeLeaves.delivery
    ⟨ThreeLeaves.stump1, by decide, ThreeLeaves.loneStump⟩

/-- The coinbase, one transaction and the lone one: the compound is built and rejected. -/
theorem threeLeaves_rejected :
    Delivery referenceSdk ThreeLeaves.block [] ThreeLeaves.above ThreeLeaves.tracked
        [ThreeLeaves.stump0, ThreeLeaves.stump1] ThreeLeaves.coinbaseBUMP ∧
    LoneStump referenceSdk ThreeLeaves.block ThreeLeaves.stump1 ∧
    buildCompoundBUMP referenceSdk [ThreeLeaves.stump0, ThreeLeaves.stump1]
        (ThreeLeaves.block.rawRoots pairBits []) ThreeLeaves.coinbaseBUMP
        (some (ThreeLeaves.block.headerRoot pairBits [])) =
      .ok (ThreeLeaves.compound, ["", "11", "111"]) ∧
    validateCompoundRoot referenceSdk ThreeLeaves.compound
        (some (ThreeLeaves.block.headerRoot pairBits [])) =
      .error "compute root from compound: missing hash" :=
  ⟨ThreeLeaves.delivery, ThreeLeaves.loneStump, by decide +kernel, by decide +kernel⟩

end Arcade.Bump
