import Arcade.Bump.View
import Arcade.Bump.Build

/-!
Filling in the missing parents of a path, level by level. Everything added is a
node of the tree that the path shows, nothing is lost, and the parent of every
listed pair is listed.
-/

namespace Arcade.Bump

open Lib.Merkle List

variable {H : Type} {parent : H → H → H} {height : Nat}

/-! ## One level -/

variable {level next cur : Level H} {f : PathElement H → Option H} {e : PathElement H}
  (T : PartialTree parent height) {l realCount layer n : Nat} {node : Nat → Nat → Option H}
  {e' : PathElement H}

theorem mem_addParents (h : e' ∈ addParents f level next) :
    e' ∈ next ∨ ∃ e ∈ level, ∃ v, f e = some v ∧ e' = { offset := e.offset / 2, hash := some v } := by
  induction level generalizing next with
  | nil => exact .inl h
  | cons e rest ih =>
    rw [addParents, foldl_cons] at h
    have hrest := ih h
    rcases hrest with hin | ⟨x, hx, v, hv, heq⟩
    · split at hin
      · exact .inl hin
      · cases hf : f e with
        | none =>
          rw [hf] at hin
          exact .inl hin
        | some v =>
          rw [hf] at hin
          rcases mem_append.mp hin with hin | hin
          · exact .inl hin
          · exact .inr ⟨e, by simp, v, hf, mem_singleton.mp hin⟩
    · exact .inr ⟨x, by simp [hx], v, hv, heq⟩

theorem addParents_mono (h : e' ∈ next) : e' ∈ addParents f level next := by
  induction level generalizing next with
  | nil => exact h
  | cons e rest ih =>
    rw [addParents, foldl_cons]
    refine ih ?_
    split
    · exact h
    · split
      · exact h
      · simp [h]

theorem hasSlot_addParents (next : Level H) (he : e ∈ level) {v : H} (hv : f e = some v) :
    HasSlot (addParents f level next) (e.offset / 2) := by
  induction level generalizing next with
  | nil => cases he
  | cons x rest ih =>
    rw [addParents, foldl_cons]
    rcases mem_cons.mp he with rfl | he
    · by_cases hany : (next.any fun y => y.offset == e.offset / 2) = true
      · rw [if_pos hany]
        obtain ⟨y, hy, hyo⟩ := any_eq_true.mp hany
        exact ⟨y, addParents_mono hy, by simpa using hyo⟩
      · rw [if_neg hany, hv]
        exact ⟨{ offset := e.offset / 2, hash := some v }, addParents_mono (by simp), rfl⟩
    · exact ih _ he

/-- `next` completed from a level whose pairs have parents in the tree. -/
structure NextLevel (node : Nat → Nat → Option H) (l : Nat) (level next out : Level H) : Prop where
  fits : ∀ e ∈ out, Fits node (l + 1) e
  mono : ∀ e ∈ next, e ∈ out
  parents : ∀ o, HasSlot level (2 * o) → HasSlot level (2 * o + 1) → HasSlot out o

section

variable (hl : l < height) (hfit : ∀ e ∈ level, Fits T.node l e) (he : e ∈ level)
include hl hfit he

theorem compoundParent_fits (hsib : HasSlot level (sibling e.offset)) :
    ∃ v, compoundParent parent level e = some v ∧ T.node (l + 1) (e.offset / 2) = some v := by
  obtain ⟨s, hs⟩ := lastAt_of_hasSlot hsib
  obtain ⟨hmem, hoff⟩ := lastAt_eq_some hs
  have hfs := hfit s hmem
  obtain ⟨w, hw, ⟨hh, hd⟩ | ⟨hh, hd, hodd, hleft⟩⟩ := hfit e he
  · obtain ⟨v, hv, hnode⟩ := combine_fits T hl hw hfs hoff
    refine ⟨v, ?_, hnode⟩
    unfold combine at hv
    unfold compoundParent
    cases hdup : s.duplicate with
    | true => simpa [hs, hdup, hh, selfHash] using hv
    | false => simpa [hs, hdup, hd, hh] using hv
  · -- the element repeats its sibling, which therefore has a hash
    rcases slot_cases e.offset with ⟨hc, _⟩ | ⟨hc, hsibling⟩
    · omega
    · rw [hsibling] at hoff
      obtain ⟨u, hu, ⟨hsh, hsd⟩ | ⟨_, _, hsodd, _⟩⟩ := hfs
      · rw [hoff] at hu
        rw [hc] at hw
        have huw : u = w := by
          rw [show e.offset - 1 = 2 * (e.offset / 2) by omega, hu] at hleft
          exact Option.some.inj hleft
        refine ⟨parent u u, by simp [compoundParent, hs, hsd, hd, hsh, selfHash], ?_⟩
        rw [← huw] at hw
        exact T.closed l (e.offset / 2) u u hl hu hw
      · omega

theorem missingParent_fits
    {w : H} (hh : e.hash = some w) (hsib : HasSlot level (sibling e.offset)) :
    ∃ v, missingParent parent level e = some v ∧ T.node (l + 1) (e.offset / 2) = some v := by
  obtain ⟨s, hs⟩ := leafAt_of_hasSlot hsib
  obtain ⟨hmem, hoff⟩ := leafAt_eq_some hs
  obtain ⟨v, hv, hnode⟩ :=
    combine_fits T hl ((hfit e he).node_of_hash hh) (hfit s hmem) hoff
  exact ⟨v, by simp [missingParent, hh, hs, hv], hnode⟩

end

theorem Fits.hash_of_even {o : Nat} (h : Fits node l e) (ho : e.offset = 2 * o) :
    ∃ v, e.hash = some v := by
  obtain ⟨v, _, ⟨hh, _⟩ | ⟨_, _, hodd, _⟩⟩ := h
  · exact ⟨v, hh⟩
  · omega

theorem nextLevel_addParents {node : Nat → Nat → Option H}
    (hnode : ∀ e ∈ level, ∀ v, f e = some v → node (l + 1) (e.offset / 2) = some v)
    (hpair : ∀ e ∈ level, ∀ o, e.offset = 2 * o → HasSlot level (2 * o + 1) → ∃ v, f e = some v)
    (hnext : ∀ e ∈ next, Fits node (l + 1) e) :
    NextLevel node l level next (addParents f level next) := by
  refine ⟨?_, fun e he => addParents_mono he, ?_⟩
  · intro e' he'
    rcases mem_addParents he' with h | ⟨e, he, v, hv, rfl⟩
    · exact hnext e' h
    · exact ⟨v, hnode e he v hv, .inl ⟨rfl, rfl⟩⟩
  · rintro o ⟨e, he, heo⟩ hright
    obtain ⟨v, hv⟩ := hpair e he o heo hright
    have hslot := hasSlot_addParents next he hv
    rwa [heo, show 2 * o / 2 = o by omega] at hslot

section

variable (hl : l < height) (hfit : ∀ e ∈ level, Fits T.node l e)
  (hnext : ∀ e ∈ next, Fits T.node (l + 1) e)
include hl hfit hnext

theorem nextLevel_compound :
    NextLevel T.node l level next (addParents (compoundParent parent level) level next) := by
  refine nextLevel_addParents (fun e he v hv => ?_) (fun e he o heo hright => ?_) hnext
  · have hsib : HasSlot level (sibling e.offset) := by
      cases hlast : lastAt level (sibling e.offset) with
      | none => simp [compoundParent, hlast] at hv
      | some s => exact ⟨s, lastAt_eq_some hlast⟩
    obtain ⟨v', hv', hnode⟩ := compoundParent_fits T hl hfit he hsib
    exact hv ▸ hv' ▸ hnode
  · obtain ⟨v, hv, _⟩ := compoundParent_fits T hl hfit he
      (by rw [heo, sibling_even]; exact hright)
    exact ⟨v, hv⟩

theorem nextLevel_missing :
    NextLevel T.node l level next (addParents (missingParent parent level) level next) := by
  refine nextLevel_addParents (fun e he v hv => ?_) (fun e he o heo hright => ?_) hnext
  · obtain ⟨w, hw, hbind⟩ := Option.bind_eq_some_iff.mp hv
    obtain ⟨s, hs, _⟩ := Option.bind_eq_some_iff.mp hbind
    obtain ⟨v', hv', hnode⟩ := missingParent_fits T hl hfit he hw ⟨s, leafAt_eq_some hs⟩
    exact hv ▸ hv' ▸ hnode
  · obtain ⟨w, hw⟩ := (hfit e he).hash_of_even heo
    obtain ⟨v, hv, _⟩ := missingParent_fits T hl hfit he hw
      (by rw [heo, sibling_even]; exact hright)
    exact ⟨v, hv⟩

end

/-! ## All levels -/

/-- `out` completes `path`, whose first level is level `start` of the tree. -/
structure Filled (node : Nat → Nat → Option H) (start : Nat) (path out : List (Level H)) :
    Prop where
  length : out.length = path.length
  fits : ∀ k < path.length, ∀ e ∈ levelAt out k, Fits node (start + k) e
  mono : ∀ k o, HasSlot (levelAt path k) o → HasSlot (levelAt out k) o
  parents : ∀ k, k + 1 < path.length → ∀ o, HasSlot (levelAt out k) (2 * o) →
    HasSlot (levelAt out k) (2 * o + 1) → HasSlot (levelAt out (k + 1)) o

/-- `out` completes `path` from below: a level is what `up` makes of the completed level under
it, and then it is padded. -/
structure Completes (up : Nat → Level H → Level H → Level H) (pad : Nat → Level H → Level H)
    (path out : List (Level H)) : Prop where
  length : out.length = path.length
  zero : levelAt out 0 = pad 0 (levelAt path 0)
  succ : ∀ l, l + 1 < path.length →
    levelAt out (l + 1) = pad (l + 1) (up l (levelAt out l) (levelAt path (l + 1)))

section Completes

variable {up : Nat → Level H → Level H → Level H} {pad : Nat → Level H → Level H}
  {path out : List (Level H)}

theorem Completes.padded (C : Completes up pad path out) (hl : l < path.length) :
    ∃ lv, levelAt out l = pad l lv := by
  cases l with
  | zero => exact ⟨_, C.zero⟩
  | succ l => exact ⟨_, C.succ l hl⟩

theorem Completes.filled (C : Completes up pad path out)
    (hfit : ∀ l < path.length, ∀ e ∈ levelAt path l, Fits node l e)
    (hpad : ∀ l lv, (∀ e ∈ lv, Fits node l e) → ∀ e ∈ pad l lv, Fits node l e)
    (hmono : ∀ l lv, lv ⊆ pad l lv)
    (hup : ∀ l, l + 1 < path.length → (∀ e ∈ levelAt out l, Fits node l e) →
      NextLevel node l (levelAt out l) (levelAt path (l + 1))
        (up l (levelAt out l) (levelAt path (l + 1)))) :
    Filled node 0 path out := by
  have hout : ∀ l < path.length, ∀ e ∈ levelAt out l, Fits node l e := by
    intro l hl
    induction l with
    | zero =>
      rw [C.zero]
      exact hpad 0 _ (hfit 0 hl)
    | succ l ih =>
      rw [C.succ l hl]
      exact hpad _ _ (hup l hl (ih (by omega))).fits
  refine ⟨C.length, fun k hk => by rw [Nat.zero_add]; exact hout k hk, ?_, ?_⟩
  · rintro k o ⟨e, he, ho⟩
    have hk := lt_length_of_mem he
    refine ⟨e, ?_, ho⟩
    cases k with
    | zero =>
      rw [C.zero]
      exact hmono _ _ he
    | succ k =>
      rw [C.succ k hk]
      exact hmono _ _ ((hup k hk (hout k (by omega))).mono e he)
  · intro k hk o hleft hright
    obtain ⟨e, he, ho⟩ := (hup k hk (hout k (by omega))).parents o hleft hright
    rw [C.succ k hk]
    exact ⟨e, hmono _ _ he, ho⟩

end Completes

theorem completes_missing (parent : H → H → H) (path : List (Level H)) :
    Completes (fun _ lv => addParents (missingParent parent lv) lv) (fun _ lv => lv) path
      (computeMissingHashes parent path) := by
  cases path with
  | nil => exact ⟨rfl, rfl, fun l hl => by simp at hl⟩
  | cons cur rest =>
    rw [computeMissingHashes]
    induction rest generalizing cur with
    | nil => exact ⟨rfl, rfl, fun l hl => by simp at hl⟩
    | cons next rest ih =>
      obtain ⟨hlen, hzero, hsucc⟩ := ih (addParents (missingParent parent cur) cur next)
      rw [computeMissingFrom]
      refine ⟨by simpa using hlen, rfl, fun l hl => ?_⟩
      cases l with
      | zero => exact hzero
      | succ l => exact hsucc l (by simpa using hl)

theorem filled_computeMissing {path : List (Level H)} (htop : path.length ≤ height + 1)
    (hfit : ∀ l < path.length, ∀ e ∈ levelAt path l, Fits T.node l e) :
    Filled T.node 0 path (computeMissingHashes parent path) :=
  (completes_missing parent path).filled hfit (fun _ _ h => h) (fun _ lv => List.Subset.refl lv)
    fun l hl hout => nextLevel_missing T (by omega) hout (hfit (l + 1) hl)

/-! ## Padding -/

theorem subset_padLevel (realCount : Nat) (level : Level H) : level ⊆ padLevel realCount level := by
  unfold padLevel
  split
  · exact subset_append_left _ _
  · exact List.Subset.refl _

theorem hasSlot_padLevel_odd (h : realCount % 2 = 1) :
    HasSlot (padLevel realCount level) realCount := by
  unfold padLevel
  split
  · exact ⟨duplicateAt realCount, by simp, rfl⟩
  · next hno =>
    have hsome : leafAt level realCount ≠ none := fun hnone => hno ⟨h, hnone⟩
    obtain ⟨e, he⟩ := Option.ne_none_iff_exists'.mp hsome
    exact ⟨e, leafAt_eq_some he⟩

/-- The number of real nodes at a level, `n` at the subtree-root layer and below. -/
def realCountAt (layer n level : Nat) : Nat := width n (level - layer)

theorem realCountAt_succ {level : Nat} :
    (if layer ≤ level then (realCountAt layer n level + 1) / 2 else realCountAt layer n level) =
      realCountAt layer n (level + 1) := by
  unfold realCountAt
  split
  · rw [show level + 1 - layer = level - layer + 1 by omega, width]
  · rw [show level + 1 - layer = 0 by omega, show level - layer = 0 by omega]

/-- From the subtree-root layer on, the last node of an odd level is repeated. -/
def RepeatsLast (node : Nat → Nat → Option H) (layer n height : Nat) : Prop :=
  ∀ l, layer ≤ l → l + 1 < height → realCountAt layer n l % 2 = 1 →
    ∃ v, node l (realCountAt layer n l) = some v ∧ node l (realCountAt layer n l - 1) = some v

/-- The padding of `computeAndPadCompound`: from the subtree-root layer on, below the top. -/
def padAt (layer n height l : Nat) (lv : Level H) : Level H :=
  if layer ≤ l ∧ l + 1 < height then padLevel (realCountAt layer n l) lv else lv

theorem subset_padAt : level ⊆ padAt layer n height l level := by
  unfold padAt
  split
  · exact subset_padLevel _ _
  · exact List.Subset.refl _

theorem mem_padAt (he : e ∈ padAt layer n height l level) :
    e ∈ level ∨ layer ≤ l ∧ l + 1 < height ∧ realCountAt layer n l % 2 = 1 ∧
      e = duplicateAt (realCountAt layer n l) := by
  unfold padAt padLevel at he
  split at he
  · next hl =>
    split at he
    · next hodd =>
      rcases mem_append.mp he with he | he
      · exact .inl he
      · exact .inr ⟨hl.1, hl.2, hodd.1, mem_singleton.mp he⟩
    · exact .inl he
  · exact .inl he

theorem completes_andPad (parent : H → H → H) (layer n : Nat) (path : List (Level H)) :
    Completes (fun _ lv => addParents (compoundParent parent lv) lv) (padAt layer n path.length)
      path (computeAndPadCompound parent layer n path) := by
  have key : ∀ (rest : List (Level H)) (start : Nat) (cur : Level H),
      Completes (fun _ lv => addParents (compoundParent parent lv) lv)
        (fun l => padAt layer n (start + rest.length + 1) (start + l)) (cur :: rest)
        (computeAndPadFrom parent layer rest start (realCountAt layer n start) cur) := by
    intro rest
    induction rest with
    | nil => exact fun start cur => ⟨rfl, by simp [padAt, computeAndPadFrom], fun l hl => by simp at hl⟩
    | cons next rest ih =>
      intro start cur
      rw [computeAndPadFrom, realCountAt_succ]
      obtain ⟨hlen, hzero, hsucc⟩ := ih (start + 1) _
      rw [length_cons, show start + (rest.length + 1) + 1 = start + 1 + rest.length + 1 by omega]
      refine ⟨by simpa using hlen, ?_, fun l hl => ?_⟩
      · have hlt : start + 1 < start + 1 + rest.length + 1 := by omega
        simp only [levelAt_cons_zero, Nat.add_zero, padAt, hlt, and_true]
      · cases l with
        | zero => exact hzero
        | succ l =>
          rw [show start + (l + 1 + 1) = start + 1 + (l + 1) by omega]
          exact hsucc l (by simpa using hl)
  cases path with
  | nil => exact ⟨rfl, by simp [padAt, computeAndPadCompound], fun l hl => by simp at hl⟩
  | cons cur rest =>
    have h := key rest 0 cur
    have hstart : realCountAt layer n 0 = n := by simp [realCountAt, width]
    simp only [hstart, Nat.zero_add] at h
    exact h

theorem length_computeAndPad (layer n : Nat) (path : List (Level H)) :
    (computeAndPadCompound parent layer n path).length = path.length :=
  (completes_andPad parent layer n path).length

theorem levelAt_computeAndPad_zero (hpos : 0 < layer) (n : Nat) (path : List (Level H)) :
    levelAt (computeAndPadCompound parent layer n path) 0 = levelAt path 0 :=
  (completes_andPad parent layer n path).zero.trans (if_neg (by omega))

/-! ## The completed compound -/

/-- What a path must hold for its completion to list every sibling: below the
subtree-root layer the way up of each leaf, at that layer every subtree. -/
structure Grounded (layer n : Nat) (path : List (Level H)) : Prop where
  ways : ∀ t, Leaf path t → ∀ l < layer, Covered path l (sibling (t / 2 ^ l))
  roots : ∀ i < n, Covered path layer i
  inBlock : ∀ e ∈ levelAt path 0, e.offset / 2 ^ layer < n
  distinct : Distinct (levelAt path 0)

theorem div_lt_realCountAt {t : Nat} (h : t / 2 ^ layer < n) (hl : layer ≤ l) :
    t / 2 ^ l < realCountAt layer n l := by
  obtain ⟨j, rfl⟩ : ∃ j, l = layer + j := ⟨l - layer, by omega⟩
  unfold realCountAt
  rw [Nat.add_sub_cancel_left]
  induction j with
  | zero => exact h
  | succ j ih =>
    rw [← Nat.add_assoc, div_pow_succ, width]
    omega

section Complete

variable {layer n : Nat} {path out : List (Level H)} {T : PartialTree parent height}

theorem listed_after (hh : height = layer + Nat.clog 2 n) (G : Grounded layer n path)
    (hlen : path.length = height) (F : Filled T.node 0 path out)
    (hpads : ∀ k, k + 1 < height → layer ≤ k → realCountAt layer n k % 2 = 1 →
      HasSlot (levelAt out k) (realCountAt layer n k)) {l : Nat} (hl : l < height) :
    (∀ t, Leaf path t → HasSlot (levelAt out l) (t / 2 ^ l)) ∧
      (layer ≤ l → ∀ o < realCountAt layer n l, HasSlot (levelAt out l) o) := by
  induction l with
  | zero =>
    have hA : ∀ t, Leaf path t → HasSlot (levelAt out 0) (t / 2 ^ 0) := by
      rintro t ⟨e, he, ht, _⟩
      rw [Nat.pow_zero, Nat.div_one]
      exact F.mono 0 t ⟨e, he, ht⟩
    refine ⟨hA, fun hz o ho => ?_⟩
    obtain rfl : layer = 0 := by omega
    rcases G.roots o ho with h | ⟨t, ht, rfl⟩
    · exact F.mono 0 o h
    · exact hA t ht
  | succ l ih =>
    obtain ⟨hA, hB⟩ := ih (by omega)
    -- at and above the subtree-root layer a level is listed up to its pad
    have hfull : layer ≤ l → ∀ o, o / 2 < realCountAt layer n (l + 1) →
        HasSlot (levelAt out l) o := by
      intro hle o ho
      rw [← realCountAt_succ, if_pos hle] at ho
      by_cases hlt : o < realCountAt layer n l
      · exact hB hle o hlt
      · have hodd : realCountAt layer n l % 2 = 1 := by omega
        rw [show o = realCountAt layer n l by omega]
        exact hpads l hl hle hodd
    have hA' : ∀ t, Leaf path t → HasSlot (levelAt out (l + 1)) (t / 2 ^ (l + 1)) := by
      intro t ht
      have hslot := hA t ht
      have hsib : HasSlot (levelAt out l) (sibling (t / 2 ^ l)) := by
        by_cases hlt : l < layer
        · rcases G.ways t ht l hlt with h | ⟨t', ht', hto⟩
          · exact F.mono l _ h
          · rw [← hto]
            exact hA t' ht'
        · refine hfull (by omega) _ ?_
          rw [sibling_div_two, ← div_pow_succ]
          obtain ⟨e, he, rfl, _⟩ := ht
          exact div_lt_realCountAt (G.inBlock e he) (by omega)
      rw [div_pow_succ]
      refine F.parents l (by omega) _ ?_ ?_
      · rcases slot_cases (t / 2 ^ l) with ⟨h1, _⟩ | ⟨_, h2⟩
        · rw [← h1]
          exact hslot
        · rw [← h2]
          exact hsib
      · rcases slot_cases (t / 2 ^ l) with ⟨_, h2⟩ | ⟨h1, _⟩
        · rw [← h2]
          exact hsib
        · rw [← h1]
          exact hslot
    refine ⟨hA', fun hle o ho => ?_⟩
    by_cases heq : layer = l + 1
    · rw [← heq] at ho ⊢
      rw [realCountAt, Nat.sub_self] at ho
      rcases G.roots o ho with h | ⟨t, ht, rfl⟩
      · exact F.mono layer o h
      · rw [heq]
        exact hA' t ht
    · have hle' : layer ≤ l := by omega
      refine F.parents l (by omega) o ?_ ?_
      · exact hfull hle' (2 * o) (by omega)
      · exact hfull hle' (2 * o + 1) (by omega)

/-- A completed compound lists every sibling of every leaf. -/
theorem Grounded.listed (G : Grounded layer n path) (hh : height = layer + Nat.clog 2 n)
    (hlen : path.length = height) (F : Filled T.node 0 path out)
    (hpads : ∀ k, k + 1 < height → layer ≤ k → realCountAt layer n k % 2 = 1 →
      HasSlot (levelAt out k) (realCountAt layer n k))
    (hzero : levelAt out 0 = levelAt path 0) : Listed T.node height out := by
  have hleaf : ∀ t, Leaf out t ↔ Leaf path t := by
    intro t
    rw [Leaf, Leaf, hzero]
  refine ⟨F.length.trans hlen, ?_, ?_, ?_, ?_⟩
  · intro l hl e he
    have h := F.fits l (by omega) e he
    rwa [Nat.zero_add] at h
  · intro e he
    rw [hzero] at he
    have hblock := G.inBlock e he
    have hn : n ≤ 2 ^ Nat.clog 2 n := Nat.le_pow_clog (by decide) n
    rw [hh, Nat.pow_add]
    calc e.offset < (e.offset / 2 ^ layer + 1) * 2 ^ layer :=
          Nat.lt_mul_of_div_lt (Nat.lt_succ_self _) (Nat.two_pow_pos layer)
      _ ≤ 2 ^ Nat.clog 2 n * 2 ^ layer := Nat.mul_le_mul_right _ (by omega)
      _ = 2 ^ layer * 2 ^ Nat.clog 2 n := Nat.mul_comm _ _
  · intro t ht l hl
    have ht' := (hleaf t).mp ht
    obtain ⟨hA, hB⟩ := listed_after hh G hlen F hpads hl
    by_cases hlt : l < layer
    · rcases G.ways t ht' l hlt with h | ⟨t', ht', hto⟩
      · exact F.mono l _ h
      · rw [← hto]
        exact hA t' ht'
    · have hle : layer ≤ l := by omega
      obtain ⟨e, he, rfl, _⟩ := ht'
      have hc := div_lt_realCountAt (G.inBlock e he) hle
      have hslot := slot_cases (e.offset / 2 ^ l)
      by_cases hin : sibling (e.offset / 2 ^ l) < realCountAt layer n l
      · exact hB hle _ hin
      · -- the sibling is the pad, so this is not the top level
        have hodd : realCountAt layer n l % 2 = 1 := by omega
        have htop : l + 1 < height := by
          by_contra hno
          have hl1 : l - layer < Nat.clog 2 n := by omega
          have hwide := two_le_width_of_lt hl1
          have hnarrow := width_le (Nat.le_pow_clog (by decide : 1 < 2) n) (le_of_lt hl1)
          rw [show Nat.clog 2 n - (l - layer) = 1 by omega] at hnarrow
          unfold realCountAt at hodd
          omega
        rw [show sibling (e.offset / 2 ^ l) = realCountAt layer n l by omega]
        exact hpads l htop hle hodd
  · rw [hzero]
    exact G.distinct

theorem listed_computeAndPad (T : PartialTree parent height) (hh : height = layer + Nat.clog 2 n)
    (hpos : 0 < layer) (hlen : path.length = height) (G : Grounded layer n path)
    (hfit : ∀ l < height, ∀ e ∈ levelAt path l, Fits T.node l e)
    (hpad : RepeatsLast T.node layer n height) :
    Listed T.node height (computeAndPadCompound parent layer n path) := by
  have C := completes_andPad parent layer n path
  rw [hlen] at C
  have F : Filled T.node 0 path (computeAndPadCompound parent layer n path) := by
    refine C.filled (hlen.symm ▸ hfit) (fun l lv h => ?_) (fun l lv => ?_)
      fun l hl hout => nextLevel_compound T (by omega) hout (hfit (l + 1) (by omega))
    · intro e he
      rcases mem_padAt he with he | ⟨hl, hlt, hodd, rfl⟩
      · exact h e he
      · obtain ⟨v, hv, hv'⟩ := hpad l hl hlt hodd
        exact ⟨v, hv, .inr ⟨rfl, rfl, hodd, hv'⟩⟩
    · exact subset_padAt
  refine G.listed hh hlen F (fun k hk hle hodd => ?_) (levelAt_computeAndPad_zero hpos n path)
  obtain ⟨lv, hlv⟩ := C.padded (show k < path.length by omega)
  rw [hlv, padAt, if_pos ⟨hle, hk⟩]
  exact hasSlot_padLevel_odd hodd

end Complete

end Arcade.Bump
