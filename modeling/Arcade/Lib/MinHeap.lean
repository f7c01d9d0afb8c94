import Mathlib.Data.List.Sort

/-!
The priority queue that Go's `container/heap` implements over a `Less`: a
multiset whose least element is on top. The items are kept in increasing order,
so the order is part of the type and no operation can lose it.
-/

namespace Arcade.Lib

open List

/-- A min-heap; repeated items are kept. -/
structure MinHeap (α : Type) [LinearOrder α] where
  items : List α
  sorted : items.Pairwise (· ≤ ·)

namespace MinHeap

variable {α : Type} [LinearOrder α]

def empty : MinHeap α := ⟨[], .nil⟩

def push (x : α) (h : MinHeap α) : MinHeap α :=
  ⟨h.items.orderedInsert (· ≤ ·) x, h.sorted.orderedInsert x h.items⟩

def top (h : MinHeap α) : Option α := h.items.head?

/-- `heap.Pop`, without the item it returns. -/
def pop (h : MinHeap α) : MinHeap α := ⟨h.items.tail, h.sorted.tail⟩

def size (h : MinHeap α) : Nat := h.items.length

instance : Membership α (MinHeap α) := ⟨fun h x => x ∈ h.items⟩

theorem mem_def (h : MinHeap α) (x : α) : x ∈ h ↔ x ∈ h.items := Iff.rfl

@[simp] theorem notMem_empty (x : α) : x ∉ (empty : MinHeap α) := not_mem_nil

@[simp] theorem mem_push (h : MinHeap α) (x y : α) : y ∈ h.push x ↔ y = x ∨ y ∈ h :=
  mem_orderedInsert _

theorem top_eq_none (h : MinHeap α) : h.top = none ↔ ∀ x, x ∉ h := by
  unfold top
  rw [List.head?_eq_none_iff, eq_nil_iff_forall_not_mem]
  rfl

variable {h : MinHeap α} {x : α}

section

variable (ht : h.top = some x)
include ht

theorem top_le {y : α} (hy : y ∈ h) : x ≤ y := by
  obtain ⟨items, sorted⟩ := h
  cases items with
  | nil => simp [top] at ht
  | cons z rest =>
    obtain rfl : z = x := by simpa [top] using ht
    rcases mem_cons.mp hy with rfl | hy
    · exact le_refl _
    · exact (pairwise_cons.mp sorted).1 y hy

theorem mem_of_top : x ∈ h :=
  mem_of_mem_head? ht

theorem size_pop : h.pop.size < h.size := by
  obtain ⟨items, sorted⟩ := h
  cases items with
  | nil => simp [top] at ht
  | cons z rest => simp [pop, size]

theorem mem_pop {y : α} (hn : h.items.Nodup) : y ∈ h.pop ↔ y ∈ h ∧ y ≠ x := by
  obtain ⟨items, sorted⟩ := h
  cases items with
  | nil => simp [top] at ht
  | cons z rest =>
    obtain rfl : z = x := by simpa [top] using ht
    obtain ⟨hz, -⟩ := nodup_cons.mp hn
    simp only [mem_def, pop, tail_cons, mem_cons]
    constructor
    · intro hy
      exact ⟨.inr hy, by rintro rfl; exact hz hy⟩
    · rintro ⟨rfl | hy, hne⟩
      · exact absurd rfl hne
      · exact hy

end

theorem nodup_push (hx : x ∉ h) (hn : h.items.Nodup) : (h.push x).items.Nodup :=
  ((perm_orderedInsert _ x h.items).nodup_iff).mpr (nodup_cons.mpr ⟨hx, hn⟩)

theorem nodup_pop (hn : h.items.Nodup) : h.pop.items.Nodup :=
  hn.tail

end MinHeap

end Arcade.Lib
