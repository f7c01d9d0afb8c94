import Mathlib.Order.Bounds.Basic
import Arcade.Propagation.Offsets

/-!
What the deferred-commit bookkeeping computes. The tracker stands for the set of
its unfinished offsets, whatever done entries are still buried in the heap, and
`lowestUnfinished` is the least of them. The mark queue stands for the messages
pushed and not marked yet, wherever the slice was compacted, and one advance
marks those of them that the watermark has passed.
-/

namespace Arcade.Propagation

open Lib List

namespace OffsetTracker

/-- The offsets the tracker still waits for. -/
def Unfinished (t : OffsetTracker) (o : Int) : Prop := o ∈ t.heap ∧ o ∉ t.done

/-- Every offset the tracker knows of, done or not. -/
def Knows (t : OffsetTracker) (o : Int) : Prop := o ∈ t.heap ∨ o ∈ t.done

variable {t : OffsetTracker}

theorem unfinished_add {offset : Int} (hn : ¬t.Knows offset) (o : Int) :
    (t.add offset).Unfinished o ↔ o = offset ∨ t.Unfinished o := by
  simp only [Unfinished, add, MinHeap.mem_push]
  constructor
  · rintro ⟨rfl | ho, hd⟩
    · exact .inl rfl
    · exact .inr ⟨ho, hd⟩
  · rintro (rfl | ⟨ho, hd⟩)
    · exact ⟨.inl rfl, fun hd => hn (.inr hd)⟩
    · exact ⟨.inr ho, hd⟩

theorem unfinished_markDone (t : OffsetTracker) (offset o : Int) :
    (t.markDone offset).Unfinished o ↔ t.Unfinished o ∧ o ≠ offset := by
  simp only [Unfinished, markDone, AList.mem_insert, not_or]
  tauto

/-- Cleaning the top forgets done entries only. -/
structure Cleaned (t t' : OffsetTracker) : Prop where
  unfinished : ∀ o, t'.Unfinished o ↔ t.Unfinished o
  nodup : t'.heap.items.Nodup
  knows : ∀ o, t'.Knows o → t.Knows o
  top : ∀ o, t'.heap.top = some o → o ∉ t'.done

theorem cleanTop_cleaned (t : OffsetTracker) (hn : t.heap.items.Nodup) : Cleaned t t.cleanTop := by
  fun_induction cleanTop t with
  | case1 t ht => exact ⟨fun _ => Iff.rfl, hn, fun _ h => h, by simp [ht]⟩
  | case2 t top ht hd ih =>
    obtain ⟨hu, hn', hk, htop⟩ := ih (MinHeap.nodup_pop hn)
    refine ⟨fun o => ?_, hn', fun o ho => ?_, htop⟩
    · rw [hu]
      simp only [Unfinished, MinHeap.mem_pop ht hn, AList.mem_erase]
      constructor
      · rintro ⟨⟨ho, hne⟩, hod⟩
        exact ⟨ho, fun h => hod ⟨hne, h⟩⟩
      · rintro ⟨ho, hod⟩
        refine ⟨⟨ho, ?_⟩, fun h => hod h.2⟩
        rintro rfl
        exact hod hd
    · rcases hk o ho with h | h
      · exact .inl ((MinHeap.mem_pop ht hn).mp h).1
      · exact .inr (AList.mem_erase.mp h).2
  | case3 t top ht hd =>
    refine ⟨fun _ => Iff.rfl, hn, fun _ h => h, fun o ho => ?_⟩
    obtain rfl : top = o := Option.mem_unique ht ho
    exact hd

theorem lowestUnfinished_eq_some (hn : t.heap.items.Nodup) (m : Int) :
    t.lowestUnfinished.1 = some m ↔ IsLeast {o | t.Unfinished o} m := by
  have hc := cleanTop_cleaned t hn
  change t.cleanTop.heap.top = some m ↔ _
  constructor
  · intro ht
    refine ⟨(hc.unfinished m).mp ⟨MinHeap.mem_of_top ht, hc.top m ht⟩, fun o ho => ?_⟩
    exact MinHeap.top_le ht ((hc.unfinished o).mpr ho).1
  · rintro ⟨hm, hle⟩
    have hm' := ((hc.unfinished m).mpr hm).1
    cases ht : t.cleanTop.heap.top with
    | none => exact absurd hm' ((MinHeap.top_eq_none _).mp ht m)
    | some o =>
      have ho := (hc.unfinished o).mp ⟨MinHeap.mem_of_top ht, hc.top o ht⟩
      have h₁ : m ≤ o := hle ho
      have h₂ : o ≤ m := MinHeap.top_le ht hm'
      exact congrArg some (le_antisymm h₂ h₁)

theorem lowestUnfinished_eq_none (hn : t.heap.items.Nodup) :
    t.lowestUnfinished.1 = none ↔ ∀ o, ¬t.Unfinished o := by
  have hc := cleanTop_cleaned t hn
  change t.cleanTop.heap.top = none ↔ _
  constructor
  · intro ht o ho
    exact (MinHeap.top_eq_none _).mp ht o ((hc.unfinished o).mpr ho).1
  · intro hno
    cases ht : t.cleanTop.heap.top with
    | none => rfl
    | some o =>
      exact absurd ((hc.unfinished o).mp ⟨MinHeap.mem_of_top ht, hc.top o ht⟩) (hno o)

end OffsetTracker

namespace MarkQueue

/-- The slots from the head on hold exactly `waiting`. -/
def Holds (q : MarkQueue) (waiting : List KafkaMessage) : Prop :=
  q.msgs.drop q.head = waiting.map some ∧ q.head ≤ q.msgs.length

theorem holds_new : new.Holds [] := ⟨rfl, le_refl _⟩

variable {waiting : List KafkaMessage} {q : MarkQueue}

section

variable (h : q.Holds waiting)
include h

theorem Holds.push (m : KafkaMessage) : (q.push m).Holds (waiting ++ [m]) := by
  obtain ⟨hd, hl⟩ := h
  refine ⟨?_, ?_⟩
  · simp only [MarkQueue.push, map_append, map_cons, map_nil]
    rw [drop_append_of_le_length hl, hd]
  · simp only [MarkQueue.push, length_append, length_cons, length_nil]
    omega

theorem Holds.markFrom (lowest : Option Int) :
    (q.markFrom lowest).2 = waiting.takeWhile (markable lowest) ∧
      (q.markFrom lowest).1.Holds (waiting.dropWhile (markable lowest)) := by
  induction waiting generalizing q with
  | nil =>
    obtain ⟨hd, hl⟩ := h
    have hlen : ¬q.head < q.msgs.length := by
      have := drop_eq_nil_iff.mp hd
      omega
    rw [MarkQueue.markFrom, dif_neg hlen]
    exact ⟨rfl, hd, hl⟩
  | cons m rest ih =>
    obtain ⟨hd, hl⟩ := h
    have hlen : q.head < q.msgs.length := by
      by_contra hge
      rw [drop_eq_nil_of_le (by omega)] at hd
      cases hd
    rw [drop_eq_getElem_cons hlen, map_cons] at hd
    obtain ⟨hm, hrest⟩ := List.cons.inj hd
    rw [MarkQueue.markFrom, dif_pos hlen]
    simp only [hm]
    by_cases hmark : markable lowest m
    · -- The slot is released and the head moves past it.
      have hnext : (⟨q.msgs.set q.head none, q.head + 1⟩ : MarkQueue).Holds rest := by
        refine ⟨?_, ?_⟩
        · change (q.msgs.set q.head none).drop (q.head + 1) = _
          rw [drop_set_of_lt (by omega), hrest]
        · simp only [length_set]
          omega
      obtain ⟨h₁, h₂⟩ := ih hnext
      simp only [hmark, ↓reduceIte, takeWhile_cons, dropWhile_cons, h₁]
      exact ⟨trivial, h₂⟩
    · simp only [hmark, Bool.false_eq_true, ↓reduceIte, takeWhile_cons, dropWhile_cons, true_and]
      refine ⟨?_, hl⟩
      rw [drop_eq_getElem_cons hlen, hm, hrest, map_cons]

theorem Holds.compact : q.compact.Holds waiting := by
  unfold MarkQueue.compact
  split
  · exact ⟨h.1, Nat.zero_le _⟩
  · exact h

theorem Holds.advance (t : OffsetTracker) :
    (q.advance t).2.2 = waiting.takeWhile (markable t.lowestUnfinished.1) ∧
      (q.advance t).1.Holds (waiting.dropWhile (markable t.lowestUnfinished.1)) := by
  obtain ⟨h₁, h₂⟩ := h.markFrom t.lowestUnfinished.1
  exact ⟨h₁, h₂.compact⟩

end

theorem takeWhile_markable (lowest : Option Int) (waiting : List KafkaMessage)
    (hs : waiting.Pairwise fun a b => a.offset < b.offset) :
    waiting.takeWhile (markable lowest) = waiting.filter (markable lowest) := by
  induction waiting with
  | nil => rfl
  | cons m rest ih =>
    obtain ⟨hm, hrest⟩ := pairwise_cons.mp hs
    by_cases hmark : markable lowest m
    · simp [hmark, ih hrest]
    · have hnone : rest.filter (markable lowest) = [] := by
        rw [filter_eq_nil_iff]
        intro x hx hmx
        cases lowest with
        | none => exact hmark rfl
        | some low =>
          have hlt := hm x hx
          simp only [markable, decide_eq_true_eq] at hmark hmx
          omega
      simp [hmark, hnone]

end MarkQueue

end Arcade.Propagation
