import Mathlib.Data.List.AList
import Mathlib.Data.List.Dedup
import Mathlib.Algebra.Order.Ring.Nat

/-!
Go's `map[K]V` and `map[K]struct{}` as association lists without repeated keys,
the arbitrary order in which a `range` over a map may visit its keys, and the
total weight of a map's values, which bounds loops that consume it.
-/

namespace Arcade.Lib

open List

/-- `map[κ]ν`. -/
abbrev GoMap (κ ν : Type) := AList fun _ : κ => ν

/-- `map[κ]struct{}`. -/
abbrev GoSet (κ : Type) := GoMap κ Unit

/-- The order in which `range` visits the keys of a map. Go leaves it open, and
it may differ from one loop to the next, so it is a parameter: `owner` names
the loop. -/
structure MapOrder (κ : Type) where
  visit : κ → List κ → List κ
  perm : ∀ owner keys, (visit owner keys).Perm keys

def MapOrder.stored (κ : Type) : MapOrder κ := ⟨fun _ keys => keys, fun _ _ => .refl _⟩

namespace GoMap

variable {κ ν : Type} [DecidableEq κ] (m : GoMap κ ν)

theorem lookup_insert_eq (k k' : κ) (v : ν) :
    (m.insert k v).lookup k' = if k' = k then some v else m.lookup k' := by
  by_cases h : k' = k
  · subst h
    simp
  · simp [h, AList.lookup_insert_ne h]

theorem of_lookup_insert {m : GoMap κ ν} {k k' : κ} {v v' : ν}
    (h : (m.insert k v).lookup k' = some v') :
    k' = k ∧ v = v' ∨ k' ≠ k ∧ m.lookup k' = some v' := by
  rw [lookup_insert_eq] at h
  split at h
  · exact .inl ⟨‹_›, Option.some.inj h⟩
  · exact .inr ⟨‹_›, h⟩

theorem lookup_erase_eq (k k' : κ) :
    (m.erase k).lookup k' = if k' = k then none else m.lookup k' := by
  by_cases h : k' = k
  · subst h
    simp
  · simp [h, AList.lookup_erase_ne h]

theorem mem_iff_lookup (k : κ) : k ∈ m ↔ ∃ v, m.lookup k = some v := by
  rw [← AList.lookup_isSome, Option.isSome_iff_exists]

theorem mem_of_lookup {m : GoMap κ ν} {k : κ} {v : ν} (h : m.lookup k = some v) : k ∈ m :=
  (mem_iff_lookup m k).mpr ⟨v, h⟩

theorem lookup_foldl_first {α σ : Type} {step : σ → α → σ} (m : σ → GoMap κ ν) {key : α → κ}
    {val : α → ν} (hstep : ∀ s a,
      m (step s a) = if key a ∈ m s then m s else (m s).insert (key a) (val a))
    (s : σ) (l : List α) (k : κ) : (m (l.foldl step s)).lookup k =
      ((m s).lookup k).or ((l.find? fun a => key a = k).map val) := by
  induction l generalizing s with
  | nil => simp
  | cons a l ih =>
    rw [foldl_cons, ih, hstep]
    by_cases hk : key a = k
    · subst hk
      by_cases hmem : key a ∈ m s
      · obtain ⟨v, hv⟩ := (mem_iff_lookup _ _).mp hmem
        simp [hmem, hv]
      · simp [hmem, AList.lookup_eq_none.mpr hmem]
    · split <;> simp [hk, AList.lookup_insert_ne (Ne.symm hk)]

/-- The summed weight of the stored values. -/
def weight (f : ν → Nat) (m : GoMap κ ν) : Nat := (m.entries.map fun e => f e.2).sum

variable (f : ν → Nat)

theorem weight_erase (m : GoMap κ ν) {k : κ} {v : ν} (h : m.lookup k = some v) :
    weight f (m.erase k) + f v = weight f m := by
  obtain ⟨b, l₁, l₂, hk, hl, he⟩ := exists_of_kerase (mem_of_lookup h)
  have hb : m.lookup k = some b := by
    unfold AList.lookup
    rw [hl]
    apply (mem_dlookup_iff _).mpr
    · simp
    · rw [← hl]; exact m.nodupKeys
  obtain rfl : v = b := Option.mem_unique h hb
  have hw : weight f m = (l₁.map fun e => f e.2).sum + (f v + (l₂.map fun e => f e.2).sum) := by
    unfold weight
    rw [hl]
    simp
  have hw' : weight f (m.erase k) = (l₁.map fun e => f e.2).sum + (l₂.map fun e => f e.2).sum := by
    change ((List.kerase k m.entries).map fun e => f e.2).sum = _
    rw [he]
    simp
  omega

theorem weight_insert (m : GoMap κ ν) (k : κ) (v : ν) :
    weight f (m.insert k v) = f v + weight f (m.erase k) := by
  rfl

theorem weight_insert_new {m : GoMap κ ν} {k : κ} (h : k ∉ m) (v : ν) :
    weight f (m.insert k v) = f v + weight f m := by
  unfold weight
  rw [AList.entries_insert_of_notMem h]
  simp

theorem map_some_filterMap {α β : Type} {l : List α} {f : α → Option β}
    (h : ∀ a ∈ l, ∃ b, f a = some b) : (l.filterMap f).map some = l.map f := by
  induction l with
  | nil => rfl
  | cons x xs ih =>
    obtain ⟨b, hb⟩ := h x mem_cons_self
    rw [filterMap_cons_some hb, map_cons, map_cons, hb, ih fun a ha => h a (mem_cons_of_mem _ ha)]

/-- The keys of `m` are what `f` makes of the items of `l`. They are as many as
the items exactly when `f` has a value on each of them, and different ones. -/
theorem length_le_keys_iff {α : Type} {l : List α} (hl : l.Nodup) (f : α → Option κ)
    (m : GoMap κ ν) (hm : ∀ k, k ∈ m ↔ ∃ a ∈ l, f a = some k) :
    l.length ≤ m.keys.length ↔
      (∀ a ∈ l, ∃ k, f a = some k) ∧ ∀ a ∈ l, ∀ a' ∈ l, f a = f a' → a = a' := by
  have hperm : m.keys.Perm (l.filterMap f).dedup := by
    rw [perm_ext_iff_of_nodup m.keys_nodup (nodup_dedup _)]
    intro k
    rw [← AList.mem_keys, hm, mem_dedup, mem_filterMap]
  rw [hperm.length_eq]
  constructor
  · intro hle
    have hdedup := (dedup_sublist (l.filterMap f)).length_le
    have hfilter := length_filterMap_le f l
    have hsome : ∀ a ∈ l, ∃ k, f a = some k := by
      have hcount : l.countP (fun a => (f a).isSome) = l.length := by
        rw [← length_filterMap_eq_countP]
        omega
      intro a ha
      exact Option.isSome_iff_exists.mp (countP_eq_length.mp hcount a ha)
    have hnodup : (l.filterMap f).Nodup := by
      rw [← dedup_eq_self]
      exact (dedup_sublist _).eq_of_length (by omega)
    have hinj : (l.map f).Nodup := by
      rw [← map_some_filterMap hsome]
      exact hnodup.map fun _ _ h => Option.some.inj h
    exact ⟨hsome, fun a ha a' ha' he => inj_on_of_nodup_map hinj ha ha' he⟩
  · rintro ⟨hsome, hinj⟩
    have hnodup : (l.filterMap f).Nodup := by
      apply List.Nodup.of_map some
      rw [map_some_filterMap hsome]
      exact hl.map_on fun a ha a' ha' he => hinj a ha a' ha' he
    have hlen : (l.filterMap f).length = l.length := by
      rw [← length_map some, map_some_filterMap hsome, length_map]
    rw [dedup_eq_self.mpr hnodup, hlen]

end GoMap

end Arcade.Lib
