import Mathlib.Algebra.BigOperators.Group.Multiset.Basic
import Mathlib.Algebra.Order.Ring.Nat
import Mathlib.Data.List.Nodup

/-!
LRU caches, and a running total of the weights of their entries that is kept by the eviction
callback.

`Lru` is what the callers of a cache rest on: between the entries before an operation and those
after it lies what the callback has seen. What a lookup answers and what an `add` over a resident
key does is left open. `Lru.ofSize` is the list in order of use.
-/

namespace Arcade.Lib

open List

/-- An operation that drops entries returns them, as the eviction callback sees them. -/
structure Lru (κ ν : Type) where
  State : Type
  empty : State
  entries : State → Multiset (κ × ν)
  get : State → κ → Option ν × State
  remove : State → κ → State × List (κ × ν)
  removeOldest : State → State × List (κ × ν)
  add : State → κ → ν → State × List (κ × ν)
  entries_empty : entries empty = 0
  entries_get : ∀ s k, entries (get s k).2 = entries s
  entries_remove : ∀ s k, entries (remove s k).1 + (remove s k).2 = entries s
  remove_ne : ∀ s k, ∀ e ∈ entries (remove s k).1, e.1 ≠ k
  entries_removeOldest : ∀ s, entries (removeOldest s).1 + (removeOldest s).2 = entries s
  length_removeOldest : ∀ s, entries s ≠ 0 → (removeOldest s).2.length = 1
  entries_add : ∀ s k v, (∀ e ∈ entries s, e.1 ≠ k) →
    entries (add s k v).1 + (add s k v).2 = (k, v) ::ₘ entries s
  mem_add : ∀ s k v, (k, v) ∈ entries (add s k v).1

/-! ## A running total -/

variable {κ ν : Type} {L : Lru κ ν}

/-- Entries, and the total of their weights as the callback keeps it. -/
structure Counted (L : Lru κ ν) where
  lru : L.State
  total : Int

namespace Counted

variable (f : κ × ν → Nat) (max : Int)

/-- What an operation left, and the callback for what it dropped. -/
def evicting (c : Counted L) (r : L.State × List (κ × ν)) : Counted L :=
  ⟨r.1, c.total - ((r.2.map f).sum : Nat)⟩

/-- The oldest entries go until the total is in bounds or one is left, `n` of them at most. -/
def trim : Nat → Counted L → Counted L
  | 0, c => c
  | n + 1, c =>
    if c.total > max ∧ (L.entries c.lru).card > 1 then trim n (c.evicting f (L.removeOldest c.lru))
    else c

/-- An entry takes the place of the one with its key. -/
def put (c : Counted L) (k : κ) (v : ν) : Counted L :=
  let c := c.evicting f (L.remove c.lru k)
  let c := c.evicting f (L.add c.lru k v)
  trim f max (L.entries c.lru).card ⟨c.lru, c.total + f (k, v)⟩

/-- The total is that of the resident entries. -/
def Exact (c : Counted L) : Prop := c.total = (((L.entries c.lru).map f).sum : Nat)

variable {f} {c : Counted L}

theorem Exact.evicting (h : c.Exact f) {r : L.State × List (κ × ν)}
    (hr : L.entries r.1 + r.2 = L.entries c.lru) : (c.evicting f r).Exact f := by
  have hsum := congrArg (fun entries => (entries.map f).sum) hr
  simp only [Multiset.map_add, Multiset.sum_add, Multiset.map_coe, Multiset.sum_coe] at hsum
  simp only [Exact, Counted.evicting] at h ⊢
  omega

theorem trim_spec (n : Nat) (h : c.Exact f) (hpos : 0 < (L.entries c.lru).card)
    (hn : (L.entries c.lru).card ≤ n + 1) :
    (trim f max n c).Exact f ∧
      ((trim f max n c).total ≤ max ∨ (L.entries (trim f max n c).lru).card = 1) ∧
      L.entries (trim f max n c).lru ≤ L.entries c.lru := by
  induction n generalizing c with
  | zero => exact ⟨h, .inr (Nat.le_antisymm hn hpos), le_rfl⟩
  | succ n ih =>
    rw [trim]
    split
    · have hr := L.entries_removeOldest c.lru
      have hone := L.length_removeOldest c.lru (Multiset.card_pos.mp hpos)
      have hcard := congrArg Multiset.card hr
      rw [Multiset.card_add, Multiset.coe_card, hone] at hcard
      obtain ⟨hexact, hbound, hle⟩ := ih (h.evicting hr)
        (show 0 < (L.entries (L.removeOldest c.lru).1).card by omega)
        (show (L.entries (L.removeOldest c.lru).1).card ≤ n + 1 by omega)
      exact ⟨hexact, hbound, hle.trans (hr ▸ Multiset.le_add_right _ _)⟩
    · refine ⟨h, ?_, le_rfl⟩
      by_cases hle : c.total ≤ max
      · exact .inl hle
      · exact .inr (by omega)

theorem put_spec (h : c.Exact f) (k : κ) (v : ν) : (c.put f max k v).Exact f ∧
    ((c.put f max k v).total ≤ max ∨ (L.entries (c.put f max k v).lru).card = 1) ∧
    ∀ e ∈ L.entries (c.put f max k v).lru, e = (k, v) ∨ e ∈ L.entries c.lru := by
  have hremove := L.entries_remove c.lru k
  have hadd := L.entries_add (L.remove c.lru k).1 k v (L.remove_ne c.lru k)
  have hremoved := h.evicting hremove
  have hadded : Exact f ⟨(L.add (L.remove c.lru k).1 k v).1, ((c.evicting f
      (L.remove c.lru k)).evicting f (L.add (L.remove c.lru k).1 k v)).total + f (k, v)⟩ := by
    have hsum := congrArg (fun entries => (entries.map f).sum) hadd
    simp only [Multiset.map_add, Multiset.sum_add, Multiset.map_coe, Multiset.sum_coe,
      Multiset.map_cons, Multiset.sum_cons] at hsum
    simp only [Exact, Counted.evicting] at hremoved ⊢
    omega
  obtain ⟨hexact, hbound, hle⟩ := trim_spec max _ hadded
    (Multiset.card_pos_iff_exists_mem.mpr ⟨_, L.mem_add _ k v⟩) (Nat.le_succ _)
  refine ⟨hexact, hbound, fun e he => ?_⟩
  have hnew : e ∈ (k, v) ::ₘ L.entries (L.remove c.lru k).1 :=
    hadd ▸ Multiset.mem_add.mpr (.inl (Multiset.mem_of_le hle he))
  refine (Multiset.mem_cons.mp hnew).imp id fun hold => ?_
  exact hremove ▸ Multiset.mem_add.mpr (.inl hold)

end Counted

/-! ## The list in order of use -/

namespace Lru

/-- The newest first, and each key once. -/
abbrev Recent (κ ν : Type) := { l : List (κ × ν) // (l.map (·.1)).Nodup }

namespace Recent

variable [DecidableEq κ] (l : Recent κ ν) (k : κ) (v : ν)

def without : Recent κ ν := ⟨l.1.filter (·.1 ≠ k), l.2.sublist (filter_sublist.map _)⟩

/-- An entry becomes the newest of its key. -/
def renew : Recent κ ν :=
  ⟨(k, v) :: (l.without k).1, nodup_cons.mpr ⟨by simp [without], (l.without k).2⟩⟩

def dropOldest : Recent κ ν × List (κ × ν) :=
  (⟨l.1.dropLast, l.2.sublist ((dropLast_sublist _).map _)⟩, l.1.getLast?.toList)

def touch : Option ν × Recent κ ν :=
  match l.1.find? (·.1 = k) with
  | some e => (some e.2, l.renew k e.2)
  | none => (none, l)

/-- A key that is there is overwritten, without the callback. -/
def insert (size : Nat) : Recent κ ν × List (κ × ν) :=
  if l.1.length + 1 > size ∧ k ∉ l.1.map (·.1) then (l.renew k v).dropOldest else (l.renew k v, [])

variable {l k}

omit [DecidableEq κ] in
theorem coe_dropOldest :
    (l.dropOldest.1.1 : Multiset (κ × ν)) + (l.dropOldest.2 : Multiset (κ × ν)) = l.1 := by
  refine Multiset.coe_eq_coe.mpr (.of_eq ?_)
  cases hl : l.1.getLast? with
  | none => simp [dropOldest, getLast?_eq_none_iff.mp hl]
  | some e => simpa [dropOldest, hl] using dropLast_append_getLast? e hl

theorem filter_of_absent {l : List (κ × ν)} (h : k ∉ l.map (·.1)) : l.filter (·.1 ≠ k) = l := by
  refine filter_eq_self.mpr fun e he => ?_
  simpa using fun heq : e.1 = k => h (heq ▸ mem_map_of_mem he)

theorem coe_touch : ((l.touch k).2.1 : Multiset (κ × ν)) = l.1 := by
  unfold touch
  split
  · rename_i e hfind
    obtain ⟨l, hkeyed⟩ := l
    have hkey : e.1 = k := by simpa using List.find?_some hfind
    obtain ⟨l₁, l₂, rfl⟩ := append_of_mem (mem_of_find?_eq_some hfind)
    subst hkey
    rw [map_append, map_cons, nodup_middle, ← map_append] at hkeyed
    refine Multiset.coe_eq_coe.mpr ?_
    simp only [renew, without]
    rw [filter_append, filter_cons_of_neg (by simp), ← filter_append,
      filter_of_absent (nodup_cons.mp hkeyed).1]
    exact perm_middle.symm
  · rfl

end Recent

def ofSize [DecidableEq κ] (size : Nat) (hsize : 0 < size) : Lru κ ν where
  State := Recent κ ν
  empty := ⟨[], nodup_nil⟩
  entries l := l.1
  get := Recent.touch
  remove l k := (l.without k, l.1.filter (·.1 = k))
  removeOldest := Recent.dropOldest
  add l k v := l.insert k v size
  entries_empty := rfl
  entries_get _ _ := Recent.coe_touch
  entries_remove l k := by
    have h := Multiset.filter_add_not (fun e : κ × ν => e.1 = k) l.1
    rw [add_comm] at h
    exact h
  remove_ne l k e he := by simpa using of_mem_filter he
  entries_removeOldest _ := Recent.coe_dropOldest
  length_removeOldest l hne := by
    cases hl : l.1.getLast? with
    | none => exact absurd (congrArg _ (getLast?_eq_none_iff.mp hl)) hne
    | some e => simp [Recent.dropOldest, hl]
  entries_add l k v habsent := by
    have hkeys : k ∉ l.1.map (·.1) := fun hm => by
      obtain ⟨e, he, hk⟩ := mem_map.mp hm
      exact habsent e he hk
    have hnew : ((l.renew k v).1 : Multiset (κ × ν)) = (k, v) ::ₘ (l.1 : Multiset (κ × ν)) := by
      simp only [Recent.renew, Recent.without, Recent.filter_of_absent hkeys]
      rfl
    unfold Recent.insert
    split
    · exact Recent.coe_dropOldest.trans hnew
    · rw [← hnew]
      exact add_zero _
  mem_add l k v := by
    unfold Recent.insert
    split
    · rename_i hfull
      -- the cache is full, so something older goes
      have hlen : 0 < l.1.length := by omega
      obtain ⟨e, rest, hl⟩ := exists_cons_of_length_pos hlen
      have hcons : (l.without k).1 = e :: rest := (Recent.filter_of_absent hfull.2).trans hl
      simp [Recent.dropOldest, Recent.renew, hcons]
    · exact mem_cons_self

end Lru

end Arcade.Lib
