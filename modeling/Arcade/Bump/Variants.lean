import Arcade.Lib.Outcome
import Arcade.Lib.Transition
import Arcade.Bump.Delivered
import Arcade.Bump.Build

/-!
The STUMPs of one subtree. Merging them fails only where two of them hold different
hashes; the merged path holds what they say, slot by slot. Variants that fold to the
subtree root are all kept.
-/

namespace Arcade.Bump

open Lib.Merkle Lib.Outcome List

variable {H Data : Type}

/-! ## The union of two levels -/

/-- `e` has its slot and its hash, or its mark as a duplicate, from `s`. -/
def Backs (s e : PathElement H) : Prop :=
  s.offset = e.offset ∧ s.hash = e.hash ∧ s.duplicate = e.duplicate

/-- `e` says of its slot what `s` says. -/
def Holds (e s : PathElement H) : Prop :=
  e.offset = s.offset ∧ (∀ v, s.hash = some v → e.hash = some v) ∧ (s.txid = true → e.txid = true)

theorem Holds.refl (e : PathElement H) : Holds e e := ⟨rfl, fun _ h => h, id⟩

/-- `r` holds what the elements of `src` say, slot by slot. -/
structure Summary (src r : Level H) : Prop where
  source : ∀ e ∈ r, ∃ s ∈ src, Backs s e
  tracked : ∀ e ∈ r, e.txid = true → ∃ s ∈ src, s.offset = e.offset ∧ s.txid = true
  keeps : ∀ s ∈ src, ∃ e ∈ r, Holds e s

/-- Two elements of one slot with different hashes. -/
def Conflict (level : Level H) : Prop :=
  ∃ a ∈ level, ∃ b ∈ level, a.offset = b.offset ∧ ∃ v w, a.hash = some v ∧ b.hash = some w ∧ v ≠ w

variable {level src r : Level H} {height : Nat} {path : List (Level H)}

theorem Conflict.mono {level' : Level H} (h : level ⊆ level') (C : Conflict level) :
    Conflict level' := by
  obtain ⟨a, ha, b, hb, rest⟩ := C
  exact ⟨a, h ha, b, h hb, rest⟩

theorem Summary.of_perm {r' : Level H} (S : Summary src r) (h : r'.Perm r) : Summary src r' := by
  refine ⟨fun e he => S.source e (h.mem_iff.mp he), fun e he => S.tracked e (h.mem_iff.mp he), ?_⟩
  intro s hs
  obtain ⟨e, he, hk⟩ := S.keeps s hs
  exact ⟨e, h.mem_iff.mpr he, hk⟩

/-- What a slot holds after `e` joined it: `new` takes its hash from `old` or from `e`. -/
structure Reconciled (old e new : PathElement H) : Prop where
  holds : Holds new e
  keeps : Holds new old
  source : Backs old new ∨ Backs e new
  tracked : new.txid = true → old.txid = true ∨ e.txid = true

theorem Summary.join {dst : Level H} {old e new : PathElement H} (S : Summary src dst)
    (R : Reconciled old e new) (hold : old = e ∨ old ∈ dst) (hmem : ∀ x ∈ r, x = new ∨ x ∈ dst)
    (hnew : new ∈ r) (hrest : ∀ x ∈ dst, x ∈ r ∨ x = old) :
    Summary (src ++ [e]) r := by
  have hbacked : ∀ x ∈ dst, ∃ s ∈ src ++ [e], Backs s x := fun x hx => by
    obtain ⟨s, hs, h⟩ := S.source x hx
    exact ⟨s, mem_append_left _ hs, h⟩
  have htracked : ∀ x ∈ dst, x.txid = true →
      ∃ s ∈ src ++ [e], s.offset = x.offset ∧ s.txid = true := fun x hx ht => by
    obtain ⟨s, hs, h⟩ := S.tracked x hx ht
    exact ⟨s, mem_append_left _ hs, h⟩
  have hlast : e ∈ src ++ [e] := by simp
  refine ⟨fun x hx => ?_, fun x hx ht => ?_, fun s hs => ?_⟩
  · rcases hmem x hx with rfl | hx
    · rcases R.source with ⟨ho, hh, hdup⟩ | hback
      · rcases hold with rfl | hold
        · exact ⟨old, hlast, ho, hh, hdup⟩
        · obtain ⟨s, hs, ho', hh', hdup'⟩ := hbacked old hold
          exact ⟨s, hs, ho'.trans ho, hh'.trans hh, hdup'.trans hdup⟩
      · exact ⟨e, hlast, hback⟩
    · exact hbacked x hx
  · rcases hmem x hx with rfl | hx
    · rcases R.tracked ht with h | h
      · rcases hold with rfl | hold
        · exact ⟨old, hlast, R.holds.1.symm, h⟩
        · obtain ⟨s, hs, ho, htx⟩ := htracked old hold h
          exact ⟨s, hs, ho.trans R.keeps.1.symm, htx⟩
      · exact ⟨e, hlast, R.holds.1.symm, h⟩
    · exact htracked x hx ht
  · rcases mem_append.mp hs with hs | hs
    · obtain ⟨x, hx, ho, hh, ht⟩ := S.keeps s hs
      rcases hrest x hx with hx | rfl
      · exact ⟨x, hx, ho, hh, ht⟩
      · exact ⟨new, hnew, R.keeps.1.trans ho, fun v hv => R.keeps.2.1 v (hh v hv),
          fun h => R.keeps.2.2 (ht h)⟩
    · exact ⟨new, hnew, mem_singleton.mp hs ▸ R.holds⟩

/-! ## Replacing the last element of a slot -/

theorem mem_setLast {new x : PathElement H} (h : x ∈ setLast new level) : x = new ∨ x ∈ level := by
  induction level with
  | nil => cases h
  | cons y rest ih =>
    unfold setLast at h
    split at h
    · rcases mem_cons.mp h with rfl | h
      · exact .inl rfl
      · exact .inr (mem_cons_of_mem _ h)
    · rcases mem_cons.mp h with rfl | h
      · exact .inr (mem_cons_self ..)
      · exact (ih h).imp_right (mem_cons_of_mem _)

theorem lastAt_cons_of_any {x : PathElement H} {rest : Level H} {o : Nat}
    (h : (rest.any fun y => y.offset == o) = true) : lastAt (x :: rest) o = lastAt rest o := by
  obtain ⟨y, hy, ho⟩ := any_eq_true.mp h
  obtain ⟨z, hz⟩ := lastAt_of_hasSlot ⟨y, hy, beq_iff_eq.mp ho⟩
  rw [lastAt, reverse_cons, List.find?_append, ← lastAt, hz, Option.some_or]

theorem setLast_places {old : PathElement H} (new : PathElement H)
    (h : lastAt level new.offset = some old) :
    new ∈ setLast new level ∧ ∀ x ∈ level, x ∈ setLast new level ∨ x = old := by
  induction level with
  | nil => cases h
  | cons y rest ih =>
    cases hany : rest.any fun y => y.offset == new.offset with
    | true =>
      rw [lastAt_cons_of_any hany] at h
      have hset : setLast new (y :: rest) = y :: setLast new rest := by simp [setLast, hany]
      obtain ⟨hnew, hrest⟩ := ih h
      rw [hset]
      refine ⟨mem_cons_of_mem _ hnew, fun x hx => ?_⟩
      rcases mem_cons.mp hx with rfl | hx
      · exact .inl (mem_cons_self ..)
      · exact (hrest x hx).imp_left (mem_cons_of_mem _)
    | false =>
      -- no other element of the slot, so the first one is it
      have hnone : ¬ HasSlot rest new.offset := by
        rintro ⟨z, hz, ho⟩
        exact any_eq_false.mp hany z hz (by simp [ho])
      rw [lastAt, reverse_cons, List.find?_append, ← lastAt, lastAt_eq_none.mpr hnone,
        Option.none_or] at h
      obtain rfl : old = y := by simpa using mem_of_find?_eq_some h
      have hoff : old.offset = new.offset := by simpa using List.find?_some h
      have hset : setLast new (old :: rest) = new :: rest := by simp [setLast, hany, hoff]
      rw [hset]
      refine ⟨mem_cons_self .., fun x hx => ?_⟩
      rcases mem_cons.mp hx with rfl | hx
      · exact .inr rfl
      · exact .inl (mem_cons_of_mem _ hx)

theorem offsets_setLast (new : PathElement H) (level : Level H) :
    (setLast new level).map (·.offset) = level.map (·.offset) := by
  induction level with
  | nil => rfl
  | cons x rest ih =>
    unfold setLast
    split
    · next h => simp [h.1]
    · simp [ih]

theorem Distinct.push (hd : Distinct level) {e : PathElement H} (hno : ¬ HasSlot level e.offset) :
    Distinct (level ++ [e]) := by
  rw [Distinct, map_append]
  refine List.Nodup.append hd (nodup_singleton _) ?_
  simpa [HasSlot] using hno

section Union

variable [DecidableEq H] (sdk : Sdk H Data)

theorem reconcile_ends (level : Nat) {old e : PathElement H} (hoff : old.offset = e.offset)
    (he : e.duplicate = e.hash.isNone) :
    Ends (Reconciled old e) (Conflict [old, e]) (reconcile sdk level old e) := by
  have hboth : ∀ a b : Bool, (a || b) = true → a = true ∨ b = true := by decide
  cases ho : old.hash with
  | none =>
    cases hh : e.hash with
    | none =>
      simp only [reconcile, ho, hh]
      exact .ok ⟨⟨hoff, by simp [hh], fun h => by simp [h]⟩,
        ⟨rfl, by simp [ho], fun h => by simp [h]⟩, .inl ⟨rfl, by simp [ho], rfl⟩, hboth _ _⟩
    | some b =>
      simp only [reconcile, ho, hh]
      exact .ok ⟨⟨hoff, by simp [hh], fun h => by simp [h]⟩,
        ⟨rfl, by simp [ho], fun h => by simp [h]⟩,
        .inr ⟨hoff.symm, hh, by simp [he, hh]⟩, hboth _ _⟩
  | some a =>
    cases hh : e.hash with
    | none =>
      simp only [reconcile, ho, hh]
      exact .ok ⟨⟨hoff, by simp [hh], fun h => by simp [h]⟩,
        ⟨rfl, by simp [ho], fun h => by simp [h]⟩, .inl ⟨rfl, by simp [ho], rfl⟩, hboth _ _⟩
    | some b =>
      simp only [reconcile, ho, hh]
      split
      · next hab =>
        exact .ok ⟨⟨hoff, by simp [hh, hab], fun h => by simp [h]⟩,
          ⟨rfl, by simp [ho], fun h => by simp [h]⟩, .inl ⟨rfl, by simp [ho], rfl⟩, hboth _ _⟩
      · next hab => exact .fail ⟨old, by simp, e, by simp, hoff, a, b, ho, hh, hab⟩

variable {base dst : Level H}

theorem unionElement_ends (level : Nat) {e : PathElement H} (S : Summary base dst)
    (he : e.duplicate = e.hash.isNone) :
    Ends (fun r => Summary (base ++ [e]) r ∧ (Distinct dst → Distinct r)) (Conflict (base ++ [e]))
      (unionElement sdk level dst e) := by
  unfold unionElement
  cases hlast : lastAt dst e.offset with
  | none =>
    have R : Reconciled e e e := ⟨.refl e, .refl e, .inr ⟨rfl, rfl, rfl⟩, .inr⟩
    refine .ok ⟨S.join R (.inl rfl) ?_ (by simp) (fun x hx => .inl (mem_append_left _ hx)),
      fun hd => hd.push (lastAt_eq_none.mp hlast)⟩
    intro x hx
    rcases mem_append.mp hx with hx | hx
    · exact .inr hx
    · exact .inl (mem_singleton.mp hx)
  | some old =>
    obtain ⟨hold, hoff⟩ := lastAt_eq_some hlast
    refine ((reconcile_ends sdk level hoff he).mono (fun _ h => h) ?_).map fun new R => ?_
    · rintro ⟨a, ha, b, hb, hab, v, w, hv, hw, hne⟩
      -- the conflict is with an element that the old one has its hash from
      have hsrc : ∀ x ∈ [old, e], ∃ s ∈ base ++ [e], Backs s x := by
        intro x hx
        rcases mem_cons.mp hx with rfl | hx
        · obtain ⟨s, hs, h⟩ := S.source x hold
          exact ⟨s, mem_append_left _ hs, h⟩
        · exact ⟨e, by simp, by rw [mem_singleton.mp hx]; exact ⟨rfl, rfl, rfl⟩⟩
      obtain ⟨s, hs, hso, hsh, -⟩ := hsrc a ha
      obtain ⟨s', hs', hso', hsh', -⟩ := hsrc b hb
      exact ⟨s, hs, s', hs', hso.trans (hab.trans hso'.symm), v, w, hsh.trans hv, hsh'.trans hw, hne⟩
    · have hnewo : new.offset = e.offset := R.holds.1
      obtain ⟨hnew, hrest⟩ := setLast_places new (by rw [hnewo]; exact hlast)
      refine ⟨S.join R (.inr hold) (fun x hx => mem_setLast hx) hnew hrest, fun hd => ?_⟩
      rw [Distinct, offsets_setLast]
      exact hd

theorem unionLevel_ends (level : Nat) {src : Level H} (S : Summary base dst) (hsrc : Marked src) :
    Ends (fun r => Summary (base ++ src) r ∧ (Distinct dst → Distinct r)) (Conflict (base ++ src))
      (unionLevel sdk level dst src) := by
  have hfold : Ends (fun r => Summary (base ++ src) r ∧ (Distinct dst → Distinct r))
      (Conflict (base ++ src)) (src.foldlM (unionElement sdk level) dst) := by
    refine Ends.foldlM (I := fun done r => Summary (base ++ done) r ∧ (Distinct dst → Distinct r))
      (fun done e cur hpre hI => ?_) ⟨by rw [append_nil]; exact S, id⟩
    refine (unionElement_ends sdk level hI.1 (hsrc e (hpre.subset (by simp)))).mono
      (fun r hr => ⟨by rw [← append_assoc]; exact hr.1, fun hd => hr.2 (hI.2 hd)⟩) ?_
    refine Conflict.mono ?_
    rw [append_assoc]
    exact append_subset.mpr ⟨subset_append_left _ _,
      fun x hx => mem_append_right _ (hpre.subset hx)⟩
  refine hfold.map fun r hr => ?_
  have hperm := perm_insertionSort (fun a b : PathElement H => a.offset ≤ b.offset) r
  exact ⟨hr.1.of_perm hperm, fun hd => (hperm.map _).nodup_iff.mpr (hr.2 hd)⟩

omit [DecidableEq H] in
theorem levelAt_tail (path : List (Level H)) (l : Nat) :
    levelAt path.tail l = levelAt path (l + 1) := by
  cases path <;> rfl

theorem unionFrom_ends (start : Nat) {dst src : List (Level H)} {base : Nat → Level H}
    (S : ∀ l, Summary (base l) (levelAt dst l)) (hsrc : ∀ l, Marked (levelAt src l)) :
    Ends (fun r => r.length = max dst.length src.length ∧
        ∀ l, Summary (base l ++ levelAt src l) (levelAt r l) ∧
          (Distinct (levelAt dst l) → Distinct (levelAt r l)))
      (∃ l, Conflict (base l ++ levelAt src l)) (unionFrom sdk start dst src) := by
  induction src generalizing start dst base with
  | nil =>
    have hnil : ∀ l, levelAt ([] : List (Level H)) l = [] := fun l => rfl
    exact .ok ⟨by simp, fun l => ⟨by rw [hnil, append_nil]; exact S l, id⟩⟩
  | cons s srcs ih =>
    have hhead : dst.headD [] = levelAt dst 0 := by cases dst <;> rfl
    rw [unionFrom, hhead]
    refine ((unionLevel_ends sdk start (S 0) (hsrc 0)).mono (fun _ h => h)
      fun h => ⟨0, h⟩).bind fun first hfirst => ?_
    have S' : ∀ l, Summary (base (l + 1)) (levelAt dst.tail l) := fun l => by
      rw [levelAt_tail]
      exact S (l + 1)
    refine ((ih (start + 1) S' fun l => hsrc (l + 1)).mono (fun _ h => h)
      fun ⟨l, h⟩ => ⟨l + 1, h⟩).bind fun rest hrest => ?_
    refine .ok ⟨?_, fun l => ?_⟩
    · have hlen := hrest.1
      rw [length_tail] at hlen
      simp only [length_cons]
      omega
    · cases l with
      | zero => exact hfirst
      | succ l =>
        have h := hrest.2 l
        rw [levelAt_tail] at h
        exact h

end Union

/-! ## The union of all variants of a subtree -/

/-- One path for several: at every level it holds what they say. -/
structure UnionOf (variants : List (List (Level H))) (path : List (Level H)) : Prop where
  bound : ∀ p ∈ variants, p.length ≤ path.length
  length : ∃ p ∈ variants, p.length = path.length
  summary : ∀ l, Summary (variants.flatMap (levelAt · l)) (levelAt path l)
  distinct : ∀ l, (∀ p ∈ variants, Distinct (levelAt p l)) → Distinct (levelAt path l)

/-- Some level of the variants has a slot with two hashes. -/
def Clash (variants : List (List (Level H))) : Prop := ∃ l, Conflict (variants.flatMap (levelAt · l))

namespace UnionOf

variable {variants : List (List (Level H))} {path : List (Level H)}

theorem single (p : List (Level H)) : UnionOf [p] p := by
  refine ⟨by simp, by simp, fun l => ?_, fun l h => h p (by simp)⟩
  rw [flatMap_singleton]
  exact ⟨fun e he => ⟨e, he, rfl, rfl, rfl⟩, fun e he ht => ⟨e, he, rfl, ht⟩,
    fun s hs => ⟨s, hs, .refl s⟩⟩

variable {p : List (Level H)} {l : Nat}

theorem absorb [DecidableEq H] (sdk : Sdk H Data) (U : UnionOf variants path)
    (hp : ∀ l, Marked (levelAt p l)) :
    Ends (UnionOf (variants ++ [p])) (Clash (variants ++ [p])) (unionMerklePath sdk path p) := by
  have hlevels : ∀ l, variants.flatMap (levelAt · l) ++ levelAt p l =
      (variants ++ [p]).flatMap (levelAt · l) := by simp
  refine (unionFrom_ends sdk 0 U.summary hp).mono (fun r hr => ?_) fun ⟨l, h⟩ => ⟨l, hlevels l ▸ h⟩
  refine ⟨fun q hq => ?_, ?_, fun l => hlevels l ▸ (hr.2 l).1, fun l h => (hr.2 l).2 ?_⟩
  · rw [hr.1]
    rcases mem_append.mp hq with hq | hq
    · exact (U.bound q hq).trans (Nat.le_max_left _ _)
    · rw [mem_singleton.mp hq]
      exact Nat.le_max_right _ _
  · obtain ⟨q, hq, hlen⟩ := U.length
    rcases Nat.le_total path.length p.length with hle | hle
    · exact ⟨p, by simp, by rw [hr.1, Nat.max_eq_right hle]⟩
    · exact ⟨q, by simp [hq], by rw [hr.1, Nat.max_eq_left hle, hlen]⟩
  · exact U.distinct l fun q hq => h q (mem_append_left _ hq)

variable (U : UnionOf variants path)

include U

theorem source {e : PathElement H} (he : e ∈ levelAt path l) :
    ∃ p ∈ variants, ∃ s ∈ levelAt p l, Backs s e := by
  obtain ⟨s, hs, h⟩ := (U.summary l).source e he
  obtain ⟨p, hp, hs⟩ := mem_flatMap.mp hs
  exact ⟨p, hp, s, hs, h⟩

theorem keeps (hp : p ∈ variants) {s : PathElement H} (hs : s ∈ levelAt p l) :
    ∃ e ∈ levelAt path l, Holds e s :=
  (U.summary l).keeps s (mem_flatMap.mpr ⟨p, hp, hs⟩)

theorem leaf (hp : p ∈ variants) {t : Nat} (ht : Leaf p t) : Leaf path t := by
  obtain ⟨s, hs, rfl, hh⟩ := ht
  obtain ⟨v, hv⟩ := Option.isSome_iff_exists.mp hh
  obtain ⟨e, he, ho, hk, -⟩ := U.keeps hp hs
  exact ⟨e, he, ho, by simp [hk v hv]⟩

theorem covered (hp : p ∈ variants) {o : Nat} (h : Covered p l o) : Covered path l o := by
  rcases h with ⟨s, hs, rfl⟩ | ⟨t, ht, rfl⟩
  · obtain ⟨e, he, ho, -⟩ := U.keeps hp hs
    exact .inl ⟨e, he, ho⟩
  · exact .inr ⟨t, U.leaf hp ht, rfl⟩

variable {node : Nat → Nat → Option H} {height : Nat} {stale : Prop}
  {labels : Nat → Nat → Option H} (hD : ∀ p ∈ variants, Delivered node height stale labels p)

include hD

theorem delivered : Delivered node height stale labels path := by
  refine ⟨?_, ?_, fun l => U.distinct l fun p hp => (hD p hp).distinct l, ?_, ?_, ?_, ?_, ?_, ?_⟩
  · obtain ⟨p, hp, hlen⟩ := U.length
    exact hlen ▸ (hD p hp).tall
  · intro level hlevel e he
    obtain ⟨l, hl, rfl⟩ := mem_iff_getElem.mp hlevel
    obtain ⟨p, hp, s, hs, -, hh, hdup⟩ := U.source (levelAt_eq_getElem hl ▸ he)
    rw [← hh, ← hdup]
    exact (hD p hp).marked _ (levelAt_mem (lt_length_of_mem hs)) s hs
  · intro l e he v hv
    obtain ⟨p, hp, s, hs, ho, hh, -⟩ := U.source he
    rw [← ho]
    exact (hD p hp).agrees l s hs v (hh.trans hv)
  · intro l hl e he hst
    obtain ⟨p, hp, s, hs, ho, hh, hdup⟩ := U.source he
    obtain ⟨v, hv, hcase⟩ := (hD p hp).fits l hl s hs (by rw [ho]; exact hst)
    exact ⟨v, by rw [← ho]; exact hv, by rw [← hh, ← hdup, ← ho]; exact hcase⟩
  · intro hst l hl e he hz
    obtain ⟨p, hp, s, hs, ho, hh, -⟩ := U.source he
    refine ⟨hh ▸ ((hD p hp).spine hst l hl s hs (ho.trans hz)).1, fun hpos => ?_⟩
    -- a tracked element would come from a tracked one of a variant
    by_contra htx
    obtain ⟨s', hs', ho', htx'⟩ := (U.summary l).tracked e he (Bool.eq_true_of_not_eq_false htx)
    obtain ⟨p', hp', hs'⟩ := mem_flatMap.mp hs'
    rw [((hD p' hp').spine hst l hl s' hs' (ho'.trans hz)).2 hpos] at htx'
    cases htx'
  · intro l hl e he
    obtain ⟨p, hp, s, hs, ho, -⟩ := U.source he
    exact ho ▸ (hD p hp).bounded l hl s hs
  · rintro t ⟨e, he, ht, hh⟩ l hl
    obtain ⟨p, hp, s, hs, ho, hsh, -⟩ := U.source he
    exact U.covered hp ((hD p hp).complete t ⟨s, hs, ho.trans ht, hsh ▸ hh⟩ l hl)
  · obtain ⟨p, hp, -⟩ := U.length
    obtain ⟨t, ht⟩ := (hD p hp).hasLeaf
    exact ⟨t, U.leaf hp ht⟩

end UnionOf

theorem not_clash_of_delivered {variants : List (List (Level H))} {node : Nat → Nat → Option H}
    {stale : Prop} {labels : Nat → Nat → Option H}
    (hD : ∀ p ∈ variants, Delivered node height stale labels p) : ¬ Clash variants := by
  rintro ⟨l, a, ha, b, hb, hab, v, w, hv, hw, hne⟩
  obtain ⟨p, hp, ha⟩ := mem_flatMap.mp ha
  obtain ⟨q, hq, hb⟩ := mem_flatMap.mp hb
  have h := (hD p hp).agrees l a ha v hv
  rw [hab, (hD q hq).agrees l b hb w hw] at h
  exact hne (Option.some.inj h).symm

/-! ## Merging all variants -/

theorem mem_dedupFirst {ids : List String} {id : String} : id ∈ dedupFirst ids ↔ id ∈ ids := by
  refine (Lib.foldl_iff (id ∈ ·) (Q := (id = ·)) (fun out i => ?_) [] ids).trans (by simp)
  split
  · exact (or_iff_left_of_imp fun h => h ▸ ‹_›).symm
  · rw [mem_append, mem_singleton]

theorem mem_level0TxIDs {sdk : Sdk H Data} {id : String} : id ∈ level0TxIDs sdk path ↔
      ∃ e ∈ levelAt path 0, ∃ x, e.hash = some x ∧ sdk.hashString x = id := by
  rw [level0TxIDs, mem_dedupFirst]
  simp only [mem_map, mem_filterMap]
  constructor
  · rintro ⟨x, ⟨e, he, hx⟩, hid⟩
    exact ⟨e, he, x, hx, hid⟩
  · rintro ⟨e, he, x, hx, hid⟩
    exact ⟨x, ⟨e, he, hx⟩, hid⟩

section Merge

variable {sdk : Sdk H Data}

def pathOf (sdk : Sdk H Data) (st : Stump Data) : List (Level H) :=
  match sdk.newMerklePathFromBinary st.stumpData with
  | .error _ => []
  | .ok p => p.path

variable {st : Stump Data} {done : List (Stump Data)}

theorem pathOf_eq {p : MerklePath H} (h : sdk.newMerklePathFromBinary st.stumpData = .ok p) :
    pathOf sdk st = p.path := by
  simp [pathOf, h]

def variantsOf (sdk : Sdk H Data) (stumps : List (Stump Data)) (i : Nat) : List (List (Level H)) :=
  (stumps.filter fun st => st.subtreeIndex == i).map (pathOf sdk)

theorem mem_variantsOf {stumps : List (Stump Data)} {i : Nat} {p : List (Level H)} :
    p ∈ variantsOf sdk stumps i ↔ ∃ st ∈ stumps, st.subtreeIndex = i ∧ pathOf sdk st = p := by
  simp [variantsOf, and_assoc]

/-- A STUMP does not parse, or two variants of a subtree clash. -/
def Unmergeable (sdk : Sdk H Data) (stumps : List (Stump Data)) : Prop :=
  (∃ st ∈ stumps, ∀ p, sdk.newMerklePathFromBinary st.stumpData ≠ .ok p) ∨
    ∃ i, Clash (variantsOf sdk stumps i)

theorem Unmergeable.mono {stumps : List (Stump Data)} (h : done <+: stumps)
    (U : Unmergeable sdk done) : Unmergeable sdk stumps := by
  refine U.imp (fun ⟨st, hst, hno⟩ => ⟨st, h.subset hst, hno⟩) ?_
  rintro ⟨i, l, C⟩
  refine ⟨i, l, C.mono fun e he => ?_⟩
  obtain ⟨p, hp, he⟩ := mem_flatMap.mp he
  obtain ⟨st, hst, hidx, rfl⟩ := mem_variantsOf.mp hp
  exact mem_flatMap.mpr ⟨_, mem_variantsOf.mpr ⟨st, h.subset hst, hidx, rfl⟩, he⟩

/-- A group has a variant, and while it has no other it holds that variant's bytes. -/
def Group.Counted (sdk : Sdk H Data) (g : Group H Data) : Prop :=
  0 < g.variants ∧ (g.variants = 1 → sdk.newMerklePathFromBinary g.data = .ok g.path)

/-- What the groups hold once the STUMPs `done` are merged: one union per subtree. -/
structure GroupsOf (sdk : Sdk H Data) (done : List (Stump Data)) (groups : List (Group H Data)) :
    Prop where
  nodup : (groups.map (·.index)).Nodup
  covers : ∀ st ∈ done, ∃ g ∈ groups, g.index = st.subtreeIndex
  union : ∀ g ∈ groups, UnionOf (variantsOf sdk done g.index) g.path.path
  counted : ∀ g ∈ groups, g.Counted sdk

theorem GroupsOf.step {groups groups' : List (Group H Data)} (G : GroupsOf sdk done groups)
    (new : Group H Data) (hnodup : (groups'.map (·.index)).Nodup)
    (hmem : ∀ g, g ∈ groups' ↔ (g ∈ groups ∧ g.index ≠ st.subtreeIndex) ∨ g = new)
    (hidx : new.index = st.subtreeIndex) (hcount : new.Counted sdk)
    (U : UnionOf (variantsOf sdk done st.subtreeIndex ++ [pathOf sdk st]) new.path.path) :
    GroupsOf sdk (done ++ [st]) groups' := by
  refine ⟨hnodup, fun s hs => ?_, fun g hg => ?_, fun g hg => ?_⟩
  · by_cases h : s.subtreeIndex = st.subtreeIndex
    · exact ⟨new, (hmem new).mpr (.inr rfl), hidx.trans h.symm⟩
    · have hs' : s ∈ done := by
        rcases mem_append.mp hs with hs | hs
        · exact hs
        · exact absurd (by rw [mem_singleton.mp hs]) h
      obtain ⟨g, hg, heq⟩ := G.covers s hs'
      exact ⟨g, (hmem g).mpr (.inl ⟨hg, heq ▸ h⟩), heq⟩
  · rcases (hmem g).mp hg with ⟨hg, hne⟩ | rfl
    · have hsame : variantsOf sdk (done ++ [st]) g.index = variantsOf sdk done g.index := by
        simp [variantsOf, Ne.symm hne]
      exact hsame ▸ G.union g hg
    · have hmore : variantsOf sdk (done ++ [st]) g.index =
          variantsOf sdk done st.subtreeIndex ++ [pathOf sdk st] := by
        simp [variantsOf, hidx]
      exact hmore ▸ U
  · rcases (hmem g).mp hg with ⟨hg, -⟩ | rfl
    · exact G.counted g hg
    · exact hcount

theorem mem_pathOf {l : Nat} {e : PathElement H} (he : e ∈ levelAt (pathOf sdk st) l) :
    ∃ p, sdk.newMerklePathFromBinary st.stumpData = .ok p ∧ e ∈ levelAt p.path l := by
  cases hp : sdk.newMerklePathFromBinary st.stumpData with
  | error err =>
    rw [pathOf, hp] at he
    cases he
  | ok p => exact ⟨p, rfl, pathOf_eq hp ▸ he⟩

theorem marked_pathOf [DecidableEq H] (hsdk : sdk.Lawful) (st : Stump Data) (l : Nat) :
    Marked (levelAt (pathOf sdk st) l) := by
  intro e he
  obtain ⟨p, hp, he⟩ := mem_pathOf he
  exact hsdk.parsed _ p hp _ (levelAt_mem (lt_length_of_mem he)) e he

variable [DecidableEq H]

theorem addVariant_ends (hsdk : sdk.Lawful) {groups : List (Group H Data)}
    (G : GroupsOf sdk done groups) (st : Stump Data) :
    Ends (GroupsOf sdk (done ++ [st])) (Unmergeable sdk (done ++ [st]))
      (addVariant sdk groups st) := by
  unfold addVariant
  cases hp : sdk.newMerklePathFromBinary st.stumpData with
  | error err => exact .fail (.inl ⟨st, by simp, fun p h => by rw [hp] at h; cases h⟩)
  | ok p =>
    have hpath := pathOf_eq hp
    cases hfind : groups.find? fun g => g.index == st.subtreeIndex with
    | none =>
      have hfresh : ∀ g ∈ groups, g.index ≠ st.subtreeIndex := fun g hg heq =>
        List.find?_eq_none.mp hfind g hg (by simp [heq])
      have hnone : variantsOf sdk done st.subtreeIndex = [] := by
        refine eq_nil_iff_forall_not_mem.mpr fun q hq => ?_
        obtain ⟨s, hs, hidx, -⟩ := mem_variantsOf.mp hq
        obtain ⟨g, hg, heq⟩ := G.covers s hs
        exact hfresh g hg (heq.trans hidx)
      refine .ok (G.step ⟨st.subtreeIndex, p, st.stumpData, 1⟩ ?_ (fun g => ?_) rfl
        ⟨Nat.one_pos, fun _ => hp⟩ (by rw [hnone, hpath]; exact .single p.path))
      · rw [map_append]
        exact List.Nodup.append G.nodup (by simp) (by simpa using hfresh)
      · rw [mem_append, mem_singleton]
        exact or_congr_left ⟨fun hg => ⟨hg, hfresh g hg⟩, And.left⟩
    | some g₀ =>
      have hg₀ := mem_of_find?_eq_some hfind
      have hidx : g₀.index = st.subtreeIndex := by simpa using List.find?_some hfind
      have hone : ∀ g ∈ groups, g.index = st.subtreeIndex → g = g₀ := fun g hg heq =>
        inj_on_of_nodup_map G.nodup hg hg₀ (heq.trans hidx.symm)
      have hunion := (hidx ▸ G.union g₀ hg₀).absorb sdk (marked_pathOf hsdk st)
      rw [hpath] at hunion
      simp only
      cases hr : unionMerklePath sdk g₀.path.path p.path with
      | error err =>
        refine .fail (.inr ⟨st.subtreeIndex, ?_⟩)
        have hmore : variantsOf sdk (done ++ [st]) st.subtreeIndex =
            variantsOf sdk done st.subtreeIndex ++ [p.path] := by simp [variantsOf, hpath]
        exact hmore ▸ hunion.error err hr
      | ok r =>
        refine .ok (G.step (g₀.absorb r) ?_ (fun g => ?_) hidx ?_
          (hpath ▸ hunion.result r hr))
        · have hsame : (groups.map fun g => if g.index = st.subtreeIndex then g.absorb r
              else g).map (·.index) = groups.map (·.index) := by
            rw [map_map]
            refine map_congr_left fun g _ => ?_
            by_cases h : g.index = st.subtreeIndex <;> simp [h, Group.absorb]
          exact hsame ▸ G.nodup
        · rw [mem_map]
          constructor
          · rintro ⟨g', hg', rfl⟩
            by_cases h : g'.index = st.subtreeIndex
            · rw [if_pos h, hone g' hg' h]
              exact .inr rfl
            · rw [if_neg h]
              exact .inl ⟨hg', h⟩
          · rintro (⟨hg, hne⟩ | rfl)
            · exact ⟨g, hg, if_neg hne⟩
            · exact ⟨g₀, hg₀, if_pos hidx⟩
        · have hpos := (G.counted g₀ hg₀).1
          refine ⟨Nat.succ_pos _, fun hv => ?_⟩
          simp only [Group.absorb] at hv
          omega

omit [DecidableEq H] in
/-- One merged STUMP per subtree, the union of its variants. -/
structure MergedOf (sdk : Sdk H Data) (stumps : List (Stump Data))
    (merged : List (MergedStump H Data)) : Prop where
  nodup : (merged.map (·.index)).Nodup
  covers : ∀ st ∈ stumps, ∃ m ∈ merged, m.index = st.subtreeIndex
  union : ∀ m ∈ merged, UnionOf (variantsOf sdk stumps m.index) m.path.path
  txids : ∀ m ∈ merged, m.txids = level0TxIDs sdk m.path.path
  data : ∀ m ∈ merged, sdk.newMerklePathFromBinary m.data = .ok m.path ∨ m.data = sdk.bytes m.path

theorem mergeStumpVariants_ends (hsdk : sdk.Lawful) (stumps : List (Stump Data)) :
    Ends (MergedOf sdk stumps) (Unmergeable sdk stumps) (mergeStumpVariants sdk stumps) := by
  have hgroups : Ends (GroupsOf sdk stumps) (Unmergeable sdk stumps)
      (stumps.foldlM (addVariant sdk) []) := by
    have hinit : GroupsOf sdk [] [] := ⟨by simp, by simp, by simp, by simp⟩
    exact Ends.foldlM (I := GroupsOf sdk) (fun done st groups hpre G =>
      (addVariant_ends hsdk G st).mono (fun _ h => h) (Unmergeable.mono hpre)) hinit
  refine hgroups.map fun groups G => ⟨?_, fun st hst => ?_, ?_, ?_, ?_⟩
  · rw [map_map]
    exact G.nodup
  · obtain ⟨g, hg, heq⟩ := G.covers st hst
    exact ⟨finishGroup sdk g, mem_map.mpr ⟨g, hg, rfl⟩, heq⟩
  · rintro m hm
    obtain ⟨g, hg, rfl⟩ := mem_map.mp hm
    exact G.union g hg
  · intro m hm
    obtain ⟨g, _, rfl⟩ := mem_map.mp hm
    rfl
  · intro m hm
    obtain ⟨g, hg, rfl⟩ := mem_map.mp hm
    obtain ⟨hpos, hone⟩ := G.counted g hg
    by_cases hv : g.variants > 1
    · exact .inr (by simp [finishGroup, hv])
    · exact .inl (by simpa [finishGroup, hv] using hone (by omega))

namespace MergedOf

variable {stumps : List (Stump Data)} {merged : List (MergedStump H Data)}
  (M : MergedOf sdk stumps merged)

include M

omit [DecidableEq H] in
theorem origin {m : MergedStump H Data} (hm : m ∈ merged) :
    ∃ st ∈ stumps, st.subtreeIndex = m.index := by
  obtain ⟨p, hp, -⟩ := (M.union m hm).length
  obtain ⟨st, hst, hidx, -⟩ := mem_variantsOf.mp hp
  exact ⟨st, hst, hidx⟩

omit [DecidableEq H] in
theorem source {m : MergedStump H Data} (hm : m ∈ merged) {l : Nat} {e : PathElement H}
    (he : e ∈ levelAt m.path.path l) :
    ∃ st ∈ stumps, st.subtreeIndex = m.index ∧ ∃ s ∈ levelAt (pathOf sdk st) l, Backs s e := by
  obtain ⟨p, hp, s, hs, hback⟩ := (M.union m hm).source he
  obtain ⟨st, hst, hidx, rfl⟩ := mem_variantsOf.mp hp
  exact ⟨st, hst, hidx, s, hs, hback⟩

theorem sized (hsdk : sdk.Lawful) {m : MergedStump H Data} (hm : m ∈ merged) :
    Sized m.path.path := by
  have hpath : ∀ st, Sized (pathOf sdk st) := by
    intro st
    unfold pathOf
    split
    · exact ⟨by simp, by simp⟩
    · exact hsdk.sized _ _ ‹_›
  obtain ⟨p, hp, hlen⟩ := (M.union m hm).length
  obtain ⟨st, -, -, rfl⟩ := mem_variantsOf.mp hp
  refine ⟨hlen ▸ (hpath st).1, fun level hl e he => ?_⟩
  obtain ⟨l, hlt, rfl⟩ := mem_iff_getElem.mp hl
  obtain ⟨st, _, _, s, hs, ho, -⟩ := M.source hm (levelAt_eq_getElem hlt ▸ he)
  exact ho ▸ (hpath st).2 _ (levelAt_mem (lt_length_of_mem hs)) s hs

omit [DecidableEq H] in
theorem keeps {st : Stump Data} (hst : st ∈ stumps) : ∃ m ∈ merged, m.index = st.subtreeIndex ∧
      ∀ l, ∀ s ∈ levelAt (pathOf sdk st) l, ∃ e ∈ levelAt m.path.path l, Holds e s := by
  obtain ⟨m, hm, hidx⟩ := M.covers st hst
  exact ⟨m, hm, hidx, fun l s hs =>
    (M.union m hm).keeps (mem_variantsOf.mpr ⟨st, hst, hidx.symm, rfl⟩) hs⟩

end MergedOf

end Merge

/-! ## Dropping variants -/

theorem levelAt_take {l : Nat} (hl : l < height) :
    levelAt (path.take height) l = levelAt path l := by
  simp [levelAt, getD_eq_getElem?_getD, hl]

theorem View.take {node : Nat → Nat → Option H} (V : View node height path) (hpos : 0 < height) :
    View node height (path.take height) := by
  have hleaf : ∀ t, Leaf (path.take height) t ↔ Leaf path t := by
    intro t
    rw [Leaf, Leaf, levelAt_take hpos]
  refine ⟨?_, ?_, ?_⟩
  · intro l hl e he
    rw [levelAt_take hl] at he
    exact V.fits l hl e he
  · intro e he
    rw [levelAt_take hpos] at he
    exact V.inRange e he
  · intro t ht l hl
    rcases V.complete t ((hleaf t).mp ht) l hl with h | ⟨t', ht', hto⟩
    · exact .inl (by rw [levelAt_take hl]; exact h)
    · exact .inr ⟨t', (hleaf t').mpr ht', hto⟩

section Drop

variable [DecidableEq H] {sdk : Sdk H Data} {stumps : List (Stump Data)} {subtreeHashes : List H}
  {requiredHeight : Nat → Nat} {coinbaseBUMP : Data} {st : Stump Data}

theorem mem_of_mem_dropVariants
    (h : st ∈ dropVariantsOffSubtreeRoot sdk stumps subtreeHashes requiredHeight coinbaseBUMP) :
    st ∈ stumps :=
  (mem_filter.mp h).1

theorem variantMatches_of_zero (h : requiredHeight st.subtreeIndex = 0) :
    variantMatches sdk stumps subtreeHashes requiredHeight coinbaseBUMP st = false := by
  unfold variantMatches
  cases subtreeHashes[st.subtreeIndex]? with
  | none => rfl
  | some root =>
    have hfold : variantFoldsToRoot sdk st root 0 coinbaseBUMP = false := by
      unfold variantFoldsToRoot
      cases sdk.newMerklePathFromBinary st.stumpData <;> rfl
    simp only [h, hfold, Bool.and_false]

theorem mem_dropVariants_of_zero (hst : st ∈ stumps) (hz : requiredHeight st.subtreeIndex = 0) :
    st ∈ dropVariantsOffSubtreeRoot sdk stumps subtreeHashes requiredHeight coinbaseBUMP := by
  have hnone : (stumps.any fun other => other.subtreeIndex == st.subtreeIndex &&
      variantMatches sdk stumps subtreeHashes requiredHeight coinbaseBUMP other) = false := by
    rw [any_eq_false]
    intro other _ hboth
    obtain ⟨hidx, hmatch⟩ := Bool.and_eq_true_iff.mp hboth
    rw [variantMatches_of_zero (by rw [beq_iff_eq.mp hidx, hz])] at hmatch
    cases hmatch
  exact mem_filter.mpr ⟨hst, by simp [hnone]⟩

theorem dropVariants_eq_self (h : ∀ st ∈ stumps, 0 < requiredHeight st.subtreeIndex → ∃ root,
      subtreeHashes[st.subtreeIndex]? = some root ∧
        variantFoldsToRoot sdk st root (requiredHeight st.subtreeIndex) coinbaseBUMP = true) :
    dropVariantsOffSubtreeRoot sdk stumps subtreeHashes requiredHeight coinbaseBUMP = stumps := by
  refine filter_eq_self.mpr fun st hst => ?_
  by_cases hcount : 2 ≤ variantCount stumps st.subtreeIndex
  · rcases Nat.eq_zero_or_pos (requiredHeight st.subtreeIndex) with hz | hpos
    · exact (mem_filter.mp (mem_dropVariants_of_zero hst hz)).2
    · obtain ⟨root, hroot, hfold⟩ := h st hst hpos
      have hmatch : variantMatches sdk stumps subtreeHashes requiredHeight coinbaseBUMP st =
          true := by
        simp [variantMatches, hroot, hcount, hfold]
      simp [hmatch]
  · simp [hcount]

theorem variantFoldsToRoot_of_delivered (hsdk : sdk.Lawful) {height : Nat}
    {T : PartialTree sdk.merkleTreeParent height} {labels : Nat → Nat → Option H} {p : MerklePath H}
    (hp : sdk.newMerklePathFromBinary st.stumpData = .ok p)
    (D : Delivered T.node height (IsStale sdk coinbaseBUMP st.subtreeIndex) labels p.path)
    (hpos : 0 < height) (hS : SpineIfStale sdk coinbaseBUMP st.subtreeIndex T.node height) :
    variantFoldsToRoot sdk st T.root height coinbaseBUMP = true := by
  have R := D.ready hpos hS
  have V := R.view.take hpos
  have hlen : ((swapCoinbase sdk coinbaseBUMP st.subtreeIndex p.path).take height).length =
      height := by
    rw [length_take]
    exact Nat.min_eq_left R.tall
  obtain ⟨t, e, he, _, hh⟩ := R.hasLeaf
  obtain ⟨x, hx⟩ := Option.isSome_iff_exists.mp hh
  rw [← levelAt_take hpos] at he
  have htop : ¬ (height = 0 ∨ p.path.length < height) := by
    have := D.tall
    omega
  simp only [variantFoldsToRoot, hp, if_neg htop]
  generalize (swapCoinbase sdk coinbaseBUMP st.subtreeIndex p.path).take height = q at V hlen he ⊢
  -- whichever leaves are checked, they are leaves of the path, and there is one
  have hchecked : ∀ y ∈ checkedLeaves (levelAt q 0), ∃ e' ∈ levelAt q 0, e'.hash = some y := by
    intro y hy
    simp only [checkedLeaves] at hy
    split at hy
    · obtain ⟨e', he', hy'⟩ := mem_filterMap.mp hy
      exact ⟨e', he', hy'⟩
    · obtain ⟨e', he', hy'⟩ := mem_filterMap.mp hy
      exact ⟨e', (mem_filter.mp he').1, hy'⟩
  have hne : checkedLeaves (levelAt q 0) ≠ [] := by
    simp only [checkedLeaves]
    split
    · exact ne_nil_of_mem (mem_filterMap.mpr ⟨e, he, hx⟩)
    · assumption
  rw [Bool.and_eq_true, all_eq_true]
  refine ⟨by simpa using hne, fun y hy => ?_⟩
  obtain ⟨e', he', hy'⟩ := hchecked y hy
  rw [hsdk.root_found _ y T.root (V.marked hlen) (V.foldRoot_eq hlen hpos he' hy')]
  simp

end Drop

end Arcade.Bump
