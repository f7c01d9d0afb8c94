import Mathlib.Data.List.Nodup
import Arcade.Bump.Assemble

/-!
Paths that show part of a hash tree. Where every leaf of such a path has its
siblings, each one folds to the root of the tree, and so does the minimal path
extracted for it.
-/

namespace Arcade.Bump

open Lib.Merkle List

variable {H Data : Type}

/-! ## Looking up slots -/

def HasSlot (level : Level H) (o : Nat) : Prop := ∃ e ∈ level, e.offset = o

instance (level : Level H) (o : Nat) : Decidable (HasSlot level o) :=
  inferInstanceAs (Decidable (∃ e ∈ level, e.offset = o))

variable {e : PathElement H} {level : Level H} {o l : Nat} {path : List (Level H)}
  {node : Nat → Nat → Option H} {p : MerklePath H}

theorem leafAt_eq_some (h : leafAt level o = some e) : e ∈ level ∧ e.offset = o := by
  refine ⟨mem_of_find?_eq_some h, ?_⟩
  simpa using List.find?_some h

theorem leafAt_of_hasSlot (h : HasSlot level o) : ∃ e, leafAt level o = some e := by
  obtain ⟨e, he, ho⟩ := h
  have hsome : (leafAt level o).isSome := by
    simp only [leafAt, List.find?_isSome, beq_iff_eq]
    exact ⟨e, he, ho⟩
  exact Option.isSome_iff_exists.mp hsome

theorem lastAt_eq_some (h : lastAt level o = some e) : e ∈ level ∧ e.offset = o := by
  have hrev : e ∈ level.reverse ∧ e.offset = o := leafAt_eq_some h
  exact ⟨mem_reverse.mp hrev.1, hrev.2⟩

theorem lastAt_of_hasSlot (h : HasSlot level o) : ∃ e, lastAt level o = some e := by
  obtain ⟨e, he, ho⟩ := h
  exact leafAt_of_hasSlot ⟨e, mem_reverse.mpr he, ho⟩

theorem lastAt_eq_none : lastAt level o = none ↔ ¬ HasSlot level o := by
  refine ⟨fun hnone h => ?_, fun h => ?_⟩
  · obtain ⟨e, he⟩ := lastAt_of_hasSlot h
    rw [hnone] at he
    cases he
  · cases hl : lastAt level o with
    | none => rfl
    | some e => exact absurd ⟨e, lastAt_eq_some hl⟩ h

/-- No slot of the level is listed twice. -/
def Distinct (level : Level H) : Prop := (level.map (·.offset)).Nodup

instance (level : Level H) : Decidable (Distinct level) :=
  inferInstanceAs (Decidable (level.map (·.offset)).Nodup)

theorem leafAt_of_mem (hd : Distinct level) (he : e ∈ level) : leafAt level e.offset = some e := by
  obtain ⟨e', h'⟩ := leafAt_of_hasSlot ⟨e, he, rfl⟩
  obtain ⟨hmem, hoff⟩ := leafAt_eq_some h'
  rw [h', inj_on_of_nodup_map hd hmem he hoff]

theorem levelAt_cons_zero (level : Level H) (rest : List (Level H)) :
    levelAt (level :: rest) 0 = level := rfl

theorem levelAt_cons_succ (level : Level H) (rest : List (Level H)) (l : Nat) :
    levelAt (level :: rest) (l + 1) = levelAt rest l := rfl

theorem levelAt_of_length_le (h : path.length ≤ l) : levelAt path l = [] := by
  simp [levelAt, getD_eq_getElem?_getD, h]

theorem levelAt_eq_getElem (h : l < path.length) : levelAt path l = path[l] := by
  simp [levelAt, getD_eq_getElem?_getD, h]

theorem lt_length_of_mem (he : e ∈ levelAt path l) : l < path.length := by
  by_contra hge
  rw [levelAt_of_length_le (by omega)] at he
  cases he

theorem levelAt_mem (h : l < path.length) : levelAt path l ∈ path := by
  simp [levelAt, getD_eq_getElem?_getD, h]

theorem mem_levelAt_of_perm {q p : List (Level H)} (h : List.Forall₂ List.Perm q p) (l : Nat) :
    (levelAt q l).Perm (levelAt p l) := by
  induction h generalizing l with
  | nil => exact List.Perm.refl _
  | cons hp _ ih =>
    cases l with
    | zero => exact hp
    | succ l => exact ih l

/-! ## Elements of a tree -/

/-- An element that holds the node of its slot, or marks it as the repetition of its
left sibling. -/
def Fits (node : Nat → Nat → Option H) (l : Nat) (e : PathElement H) : Prop :=
  ∃ v, node l e.offset = some v ∧ ((e.hash = some v ∧ e.duplicate = false) ∨
      (e.hash = none ∧ e.duplicate = true ∧ e.offset % 2 = 1 ∧ node l (e.offset - 1) = some v))

theorem Fits.marked (h : Fits node l e) : e.duplicate = e.hash.isNone := by
  obtain ⟨v, _, ⟨hh, hd⟩ | ⟨hh, hd, _⟩⟩ := h <;> simp [hh, hd]

theorem Fits.node_of_hash {x : H} (h : Fits node l e) (hx : e.hash = some x) :
    node l e.offset = some x := by
  obtain ⟨v, hv, ⟨hh, _⟩ | ⟨hh, _⟩⟩ := h
  · rw [hv, ← hh, hx]
  · rw [hh] at hx
    cases hx

variable {parent : H → H → H} {height : Nat} (T : PartialTree parent height)

theorem combine_fits {c : Nat} (hl : l < height) {w : H}
    (hw : T.node l c = some w) {s : PathElement H} (hs : Fits T.node l s)
    (ho : s.offset = sibling c) :
    ∃ v, combine parent c w s = some v ∧ T.node (l + 1) (c / 2) = some v := by
  obtain ⟨u, hu, hcase⟩ := hs
  rw [ho] at hu hcase
  rcases slot_cases c with ⟨hc, hsib⟩ | ⟨hc, hsib⟩
  · have heven : c % 2 = 0 := by omega
    rw [hsib] at hu hcase
    rcases hcase with ⟨hh, hd⟩ | ⟨hh, hd, _, hleft⟩
    · refine ⟨parent w u, by simp [combine, hd, hh, heven], ?_⟩
      exact T.closed l (c / 2) w u hl (by rw [← hc]; exact hw) hu
    · -- the sibling repeats the node itself
      have huw : u = w := by
        rw [Nat.add_sub_cancel, ← hc, hw] at hleft
        exact (Option.some.inj hleft).symm
      subst huw
      refine ⟨parent u u, by simp [combine, hd], ?_⟩
      exact T.closed l (c / 2) u u hl (by rw [← hc]; exact hw) hu
  · have hodd : c % 2 = 1 := by omega
    rw [hsib] at hu hcase
    rcases hcase with ⟨hh, hd⟩ | ⟨_, _, hpar, _⟩
    · refine ⟨parent u w, by simp [combine, hd, hh, hodd], ?_⟩
      exact T.closed l (c / 2) u w hl hu (by rw [← hc]; exact hw)
    · omega

theorem elementParent_fits (hl : l < height)
    {left right : PathElement H} (hfl : Fits T.node l left) (hol : left.offset = 2 * o)
    (hfr : Fits T.node l right) (hor : right.offset = 2 * o + 1) :
    ∃ v, elementParent parent left right = some v ∧ T.node (l + 1) o = some v := by
  obtain ⟨w, hw, ⟨hh, _⟩ | ⟨_, _, hpar, _⟩⟩ := hfl
  · rw [hol] at hw
    have hsib : right.offset = sibling (2 * o) := by rw [hor, sibling_even]
    obtain ⟨v, hv, hnode⟩ := combine_fits T hl hw hfr hsib
    refine ⟨v, ?_, by simpa using hnode⟩
    unfold combine at hv
    unfold elementParent
    cases hd : right.duplicate with
    | true => simpa [hd, hh, selfHash] using hv
    | false => simpa [hd, hh] using hv
  · omega

/-! ## Views -/

/-- A leaf of the path that carries its hash. -/
def Leaf (path : List (Level H)) (t : Nat) : Prop :=
  ∃ e ∈ levelAt path 0, e.offset = t ∧ e.hash.isSome

instance (path : List (Level H)) (t : Nat) : Decidable (Leaf path t) :=
  inferInstanceAs (Decidable (∃ e ∈ levelAt path 0, e.offset = t ∧ e.hash.isSome))

/-- The slot is listed, or one of the leaves lies under it. -/
def Covered (path : List (Level H)) (l o : Nat) : Prop :=
  HasSlot (levelAt path l) o ∨ ∃ t, Leaf path t ∧ t / 2 ^ l = o

/-- A path that shows part of a tree, with the way up for each of its leaves. -/
structure View (node : Nat → Nat → Option H) (height : Nat) (path : List (Level H)) : Prop where
  fits : ∀ l < height, ∀ e ∈ levelAt path l, Fits node l e
  inRange : ∀ e ∈ levelAt path 0, e.offset < 2 ^ height
  complete : ∀ t, Leaf path t → ∀ l < height, Covered path l (sibling (t / 2 ^ l))

namespace View

variable {T : PartialTree parent height} {path : List (Level H)}

theorem getOffsetLeaf_covered (V : View T.node height path) {l : Nat} (hl : l < height) :
    ∀ {o : Nat}, Covered path l o →
      ∃ e, getOffsetLeaf parent path l o = some e ∧ e.offset = o ∧ Fits T.node l e := by
  induction l with
  | zero =>
    intro o hc
    have hslot : HasSlot (levelAt path 0) o := by
      rcases hc with h | ⟨t, ⟨e, he, ht, _⟩, hto⟩
      · exact h
      · exact ⟨e, he, by rw [ht, ← hto, Nat.pow_zero, Nat.div_one]⟩
    obtain ⟨e, he⟩ := lastAt_of_hasSlot hslot
    obtain ⟨hmem, hoff⟩ := lastAt_eq_some he
    exact ⟨e, he, hoff, V.fits 0 hl e hmem⟩
  | succ l ih =>
    intro o hc
    cases hlast : lastAt (levelAt path (l + 1)) o with
    | some e =>
      obtain ⟨hmem, hoff⟩ := lastAt_eq_some hlast
      exact ⟨e, by simp [getOffsetLeaf, hlast], hoff, V.fits (l + 1) hl e hmem⟩
    | none =>
      obtain ⟨t, ht, hto⟩ : ∃ t, Leaf path t ∧ t / 2 ^ (l + 1) = o :=
        hc.resolve_left (lastAt_eq_none.mp hlast)
      -- the child above the leaf and its sibling are both available
      have hchild : Covered path l (t / 2 ^ l) := .inr ⟨t, ht, rfl⟩
      have hsib := V.complete t ht l (by omega)
      have hpair : Covered path l (2 * o) ∧ Covered path l (2 * o + 1) := by
        rw [div_pow_succ] at hto
        rcases slot_cases (t / 2 ^ l) with ⟨h1, h2⟩ | ⟨h1, h2⟩
        · rw [h2, hto] at hsib
          rw [h1, hto] at hchild
          exact ⟨hchild, hsib⟩
        · rw [h2, hto] at hsib
          rw [h1, hto] at hchild
          exact ⟨hsib, hchild⟩
      obtain ⟨left, hleft, hol, hfl⟩ := ih (by omega) hpair.1
      obtain ⟨right, hright, hor, hfr⟩ := ih (by omega) hpair.2
      obtain ⟨v, hv, hnode⟩ := elementParent_fits T (by omega) hfl hol hfr hor
      refine ⟨{ offset := o, hash := some v }, ?_, rfl, v, hnode, .inl ⟨rfl, rfl⟩⟩
      simp [getOffsetLeaf, hlast, hleft, hright, hv]

variable {x : H} {e : PathElement H}

theorem foldTo_eq (V : View T.node height path) {t : Nat} (ht : Leaf path t)
    (hx : T.node 0 t = some x) {k : Nat} (hk : k ≤ height) :
    ∃ v, foldTo parent path t x k = some v ∧ T.node k (t / 2 ^ k) = some v := by
  induction k with
  | zero => exact ⟨x, rfl, by simpa using hx⟩
  | succ k ih =>
    obtain ⟨w, hw, hnode⟩ := ih (by omega)
    obtain ⟨s, hs, hoff, hfit⟩ := V.getOffsetLeaf_covered (by omega) (V.complete t ht k (by omega))
    obtain ⟨v, hv, hup⟩ := combine_fits T (by omega) hnode hfit hoff
    refine ⟨v, ?_, by rw [div_pow_succ]; exact hup⟩
    rw [foldTo, hw, Option.bind_some, hs, Option.bind_some, hv]

theorem marked (V : View T.node height path) (hlen : path.length = height) :
    ∀ level ∈ path, Marked level := by
  intro level hlevel e he
  obtain ⟨l, hl, hget⟩ := mem_iff_getElem.mp hlevel
  exact (V.fits l (by omega) e (by rw [levelAt_eq_getElem hl, hget]; exact he)).marked

variable [DecidableEq H]

theorem leafOf_eq_some {level : Level H} (h : leafOf level x = some e) :
    e ∈ level ∧ e.hash = some x := by
  refine ⟨mem_of_find?_eq_some h, ?_⟩
  simpa using List.find?_some h

theorem leafOf_of_mem {level : Level H} (he : e ∈ level) (hx : e.hash = some x) :
    ∃ e', leafOf level x = some e' := by
  have hsome : (leafOf level x).isSome := by
    simp only [leafOf, List.find?_isSome, beq_iff_eq]
    exact ⟨e, he, hx⟩
  exact Option.isSome_iff_exists.mp hsome

/-- Every leaf of a view folds to the root of the tree. -/
theorem foldRoot_eq (V : View T.node height path) (hlen : path.length = height) (hpos : 0 < height)
    (he : e ∈ levelAt path 0) (hx : e.hash = some x) : foldRoot parent path x = some T.root := by
  obtain ⟨leaf, hleaf⟩ := leafOf_of_mem he hx
  obtain ⟨hmem, hhash⟩ := leafOf_eq_some hleaf
  have hnode := (V.fits 0 hpos leaf hmem).node_of_hash hhash
  obtain ⟨v, hv, hroot⟩ :=
    V.foldTo_eq ⟨leaf, hmem, rfl, by simp [hhash]⟩ hnode (le_refl height)
  rw [Nat.div_eq_of_lt (V.inRange leaf hmem), T.node_root] at hroot
  rw [foldRoot, hleaf, Option.bind_some, hlen, hv, ← hroot]

end View

/-! ## Completed paths -/

/-- A view that lists every sibling itself. -/
structure Listed (node : Nat → Nat → Option H) (height : Nat) (path : List (Level H)) : Prop where
  length : path.length = height
  fits : ∀ l < height, ∀ e ∈ levelAt path l, Fits node l e
  inRange : ∀ e ∈ levelAt path 0, e.offset < 2 ^ height
  siblings : ∀ t, Leaf path t → ∀ l < height, HasSlot (levelAt path l) (sibling (t / 2 ^ l))
  distinct : Distinct (levelAt path 0)

namespace Listed

variable {node : Nat → Nat → Option H} {path : List (Level H)}

section

variable (L : Listed node height path)
include L

theorem view : View node height path where
  fits := L.fits
  inRange := L.inRange
  complete t ht l hl := .inl (L.siblings t ht l hl)

theorem of_perm {q : List (Level H)}
    (h : List.Forall₂ List.Perm q path) : Listed node height q := by
  have hmem : ∀ l e, e ∈ levelAt q l ↔ e ∈ levelAt path l :=
    fun l e => (mem_levelAt_of_perm h l).mem_iff
  refine ⟨h.length_eq.trans L.length, ?_, ?_, ?_, ?_⟩
  · intro l hl e he
    exact L.fits l hl e ((hmem l e).mp he)
  · intro e he
    exact L.inRange e ((hmem 0 e).mp he)
  · rintro t ⟨e, he, ht, hh⟩ l hl
    obtain ⟨s, hs, ho⟩ := L.siblings t ⟨e, (hmem 0 e).mp he, ht, hh⟩ l hl
    exact ⟨s, (hmem l s).mpr hs, ho⟩
  · exact ((mem_levelAt_of_perm h 0).map _).nodup_iff.mpr L.distinct

theorem storable (hpos : 0 < height) (hsmall : height ≤ 64)
    (hnode : ∀ l < height, ∀ o v, node l o = some v → o < 2 ^ (height - l))
    {t : Nat} (ht : Leaf path t) (blockHeight : Nat) : Storable ⟨blockHeight, path⟩ := by
  refine ⟨?_, ?_, by rw [L.length]; omega, ?_⟩
  · intro hnil
    have hlen := L.length
    rw [show path = [] from hnil, length_nil] at hlen
    omega
  · intro level hlevel
    obtain ⟨l, hl, hget⟩ := mem_iff_getElem.mp hlevel
    have hlt : l < height := by
      have hlen := L.length
      simp only at hl
      omega
    have hat : levelAt path l = level := (levelAt_eq_getElem hl).trans hget
    refine ⟨?_, ?_⟩
    · obtain ⟨s, hs, _⟩ := L.siblings t ht l hlt
      rw [hat] at hs
      exact ne_nil_of_mem hs
    · intro e he
      exact (L.fits l hlt e (by rw [hat]; exact he)).marked
  · intro level hlevel e he
    obtain ⟨l, hl, rfl⟩ := mem_iff_getElem.mp hlevel
    have hlt : l < height := L.length ▸ hl
    obtain ⟨v, hv, -⟩ := L.fits l hlt e (levelAt_eq_getElem hl ▸ he)
    exact (hnode l hlt _ v hv).trans_le (Nat.pow_le_pow_right (by decide) (by omega))

end

end Listed

/-! ## Minimal paths -/

theorem length_climbSiblings (rest : List (Level H)) (o : Nat) :
    (climbSiblings rest o).length = rest.length := by
  induction rest generalizing o with
  | nil => rfl
  | cons level rest ih => simp [climbSiblings, ih]

theorem levelAt_climbSiblings (rest : List (Level H)) (o l : Nat) :
    levelAt (climbSiblings rest o) l = (leafAt (levelAt rest l) (sibling (o / 2 ^ l))).toList := by
  induction rest generalizing o l with
  | nil => rfl
  | cons level rest ih =>
    cases l with
    | zero => simp [climbSiblings, levelAt_cons_zero]
    | succ l =>
      rw [climbSiblings, levelAt_cons_succ, levelAt_cons_succ, ih, Nat.pow_succ',
        ← Nat.div_div_eq_div_mul]

theorem levelAt_minimal_zero (hne : p.path ≠ []) (t : Nat) :
    levelAt (extractMinimalPath p t).path 0 = (leafAt (levelAt p.path 0) t).toList ++
        (leafAt (levelAt p.path 0) (sibling t)).toList := by
  obtain ⟨h, path⟩ := p
  cases path with
  | nil => exact absurd rfl hne
  | cons level rest => rfl

theorem levelAt_minimal_succ (p : MerklePath H) (t l : Nat) :
    levelAt (extractMinimalPath p t).path (l + 1) =
      (leafAt (levelAt p.path (l + 1)) (sibling (t / 2 ^ (l + 1)))).toList := by
  obtain ⟨h, path⟩ := p
  cases path with
  | nil => rfl
  | cons level rest =>
    simp only [extractMinimalPath, levelAt_cons_succ]
    rw [levelAt_climbSiblings, Nat.pow_succ', ← Nat.div_div_eq_div_mul]

theorem length_minimal (p : MerklePath H) (t : Nat) :
    (extractMinimalPath p t).path.length = p.path.length := by
  obtain ⟨h, path⟩ := p
  cases path with
  | nil => rfl
  | cons level rest => simp [extractMinimalPath, length_climbSiblings]

theorem mem_minimal {t : Nat} (he : e ∈ levelAt (extractMinimalPath p t).path l) :
    e ∈ levelAt p.path l := by
  cases l with
  | zero =>
    have hne : p.path ≠ [] := by
      intro hnil
      simp [extractMinimalPath, hnil, levelAt] at he
    rw [levelAt_minimal_zero hne, mem_append, Option.mem_toList, Option.mem_toList] at he
    rcases he with he | he <;> exact (leafAt_eq_some he).1
  | succ l =>
    rw [levelAt_minimal_succ, Option.mem_toList] at he
    exact (leafAt_eq_some he).1

theorem Listed.minimal (L : Listed node height p.path) (hpos : 0 < height)
    (he : e ∈ levelAt p.path 0) (hhash : e.hash.isSome) :
    Listed node height (extractMinimalPath p e.offset).path ∧
      e ∈ levelAt (extractMinimalPath p e.offset).path 0 := by
  have hne : p.path ≠ [] := by
    intro hnil
    rw [hnil] at he
    cases he
  have hleaf : Leaf p.path e.offset := ⟨e, he, rfl, hhash⟩
  have hat := leafAt_of_mem L.distinct he
  obtain ⟨s, hs⟩ := leafAt_of_hasSlot (L.siblings _ hleaf 0 hpos)
  rw [Nat.pow_zero, Nat.div_one] at hs
  have hzero : levelAt (extractMinimalPath p e.offset).path 0 = [e, s] := by
    rw [levelAt_minimal_zero hne, hat, hs]
    rfl
  have hoff := (leafAt_eq_some hs).2
  have hup : ∀ l, l + 1 < height → HasSlot (levelAt (extractMinimalPath p e.offset).path (l + 1))
        (sibling (e.offset / 2 ^ (l + 1))) := by
    intro l hl
    obtain ⟨u, hu⟩ := leafAt_of_hasSlot (L.siblings _ hleaf (l + 1) hl)
    rw [levelAt_minimal_succ, hu]
    exact ⟨u, by simp, (leafAt_eq_some hu).2⟩
  refine ⟨⟨(length_minimal p _).trans L.length, ?_, ?_, ?_, ?_⟩, by simp [hzero]⟩
  · intro l hl e' he'
    exact L.fits l hl e' (mem_minimal he')
  · intro e' he'
    exact L.inRange e' (mem_minimal he')
  · rintro t ⟨e', he', ht, _⟩ l hl
    rw [hzero, mem_cons, mem_singleton] at he'
    cases l with
    | zero =>
      rw [Nat.pow_zero, Nat.div_one, hzero]
      rcases he' with rfl | rfl
      · exact ⟨s, by simp, by rw [hoff, ht]⟩
      · exact ⟨e, by simp, by rw [← ht, hoff, sibling_sibling]⟩
    | succ l =>
      have hsame : t / 2 ^ (l + 1) = e.offset / 2 ^ (l + 1) := by
        rcases he' with rfl | rfl
        · rw [ht]
        · rw [← ht, hoff, sibling_div_pow]
      rw [hsame]
      exact hup l hl
  · have hneq : e.offset ≠ s.offset := by
      have := slot_cases e.offset
      omega
    rw [hzero]
    simpa [Distinct] using hneq

/-! ## Through the SDK -/

section

variable [DecidableEq H] {sdk : Sdk H Data}

/-- The minimal path for `txid` is there and folds to `root`. -/
def Proves (sdk : Sdk H Data) (bumpData : Data) (txid : String) (root : H) : Prop :=
  ∃ x data p, sdk.newHashFromHex txid = .ok x ∧
    extractMinimalPathForTx sdk bumpData txid = some data ∧
    sdk.newMerklePathFromBinary data = .ok p ∧ sdk.computeRoot p x = .ok root

variable {T : PartialTree sdk.merkleTreeParent height} {compound : MerklePath H}

theorem Listed.validates (hsdk : sdk.Lawful) (L : Listed T.node height compound.path)
    (hpos : 0 < height) {t : Nat} (ht : Leaf compound.path t) :
    validateCompoundRoot sdk compound (some T.root) = .ok () := by
  obtain ⟨e, he, _, hh⟩ := ht
  obtain ⟨y, hy⟩ := Option.isSome_iff_exists.mp hh
  have hne : levelAt compound.path 0 ≠ [] := ne_nil_of_mem he
  have hsome : ((levelAt compound.path 0).findSome? (·.hash)).isSome := by
    rw [List.findSome?_isSome_iff]
    exact ⟨e, he, hh⟩
  obtain ⟨x, hx⟩ := Option.isSome_iff_exists.mp hsome
  obtain ⟨e', he', hx'⟩ := exists_of_findSome?_eq_some hx
  have hroot := hsdk.root_found compound x T.root (L.view.marked L.length)
    (L.view.foldRoot_eq L.length hpos he' hx')
  simp [validateCompoundRoot, hne, hx, hroot]

theorem Listed.proves (hsdk : sdk.Lawful) (L : Listed T.node height compound.path)
    (hpos : 0 < height) (hsmall : height ≤ 64)
    (hnode : ∀ l < height, ∀ o v, T.node l o = some v → o < 2 ^ (height - l)) {e : PathElement H} (he : e ∈ levelAt compound.path 0) {x : H}
    (hx : e.hash = some x) : Proves sdk (sdk.bytes compound) (sdk.hashString x) T.root := by
  have hleaf : Leaf compound.path e.offset := ⟨e, he, rfl, by simp [hx]⟩
  obtain ⟨q, hq, hperm⟩ := hsdk.roundTrip (L.storable hpos hsmall hnode hleaf compound.blockHeight)
  have Lq := L.of_perm hperm
  have heq : e ∈ levelAt q.path 0 := (mem_levelAt_of_perm hperm 0).mem_iff.mpr he
  obtain ⟨leaf, hlf⟩ := View.leafOf_of_mem heq hx
  obtain ⟨hmem, hhash⟩ := View.leafOf_eq_some hlf
  obtain ⟨Lm, hin⟩ := Lq.minimal hpos hmem (by simp [hhash])
  obtain ⟨p, hp, hpp⟩ := hsdk.roundTrip
    (Lm.storable hpos hsmall hnode ⟨leaf, hin, rfl, by simp [hhash]⟩
      (extractMinimalPath q leaf.offset).blockHeight)
  have Lp := Lm.of_perm hpp
  have hinp : leaf ∈ levelAt p.path 0 := (mem_levelAt_of_perm hpp 0).mem_iff.mpr hin
  refine ⟨x, _, p, hsdk.hex x, ?_, hp, ?_⟩
  · simp [extractMinimalPathForTx, hq, hsdk.hex, hlf]
  · exact hsdk.root_found p x T.root (Lp.view.marked Lp.length)
      (Lp.view.foldRoot_eq Lp.length hpos hinp hhash)

end

end Arcade.Bump
