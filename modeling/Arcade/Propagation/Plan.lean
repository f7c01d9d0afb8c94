import Arcade.Propagation.Chunks

/-!
No plan that keeps the caps has fewer spans than `planChunks` has: a span stops only where the
next transaction would breach a cap, so at every cut the plan is at least as far as any other.
-/

namespace Arcade.Propagation

open List

def totalBytes (rawTxs : List (List UInt8)) : Nat := (rawTxs.map length).sum

variable (rawTxs : List (List UInt8)) (maxCount maxBytes : Int)

/-- A span keeps the caps that are enabled, unless it holds a single transaction. -/
def Allowed (span : ChunkSpan) : Prop :=
  span.stop - span.start = 1 ∨ (maxCount > 0 → ((span.stop - span.start : Nat) : Int) ≤ maxCount) ∧
      (maxBytes > 0 → (totalBytes (span.slice rawTxs) : Int) ≤ maxBytes)

def bytesBefore (i : Nat) : Nat := totalBytes (rawTxs.take i)

theorem bytesBefore_add_slice (span : ChunkSpan) (h : span.start ≤ span.stop) :
    bytesBefore rawTxs span.start + totalBytes (span.slice rawTxs) =
      bytesBefore rawTxs span.stop := by
  obtain ⟨n, hn⟩ := Nat.exists_eq_add_of_le h
  simp [bytesBefore, totalBytes, ChunkSpan.slice, hn, take_add]

/-- The loop is at `i`, with `rest` to come. -/
structure Reached (rest : List (List UInt8)) (i start bytes : Nat) : Prop where
  rest : rawTxs.drop i = rest
  start_le : start ≤ i
  bytes : bytesBefore rawTxs start + bytes = bytesBefore rawTxs i

variable {rawTxs maxCount maxBytes} {tx : List UInt8} {rest : List (List UInt8)} {i start bytes : Nat}

theorem Reached.bytesBefore_succ (h : Reached rawTxs (tx :: rest) i start bytes) :
    bytesBefore rawTxs (i + 1) = bytesBefore rawTxs i + tx.length := by
  simp [bytesBefore, totalBytes, take_add, h.rest]

theorem Reached.next (h : Reached rawTxs (tx :: rest) i start bytes) :
    Reached rawTxs rest (i + 1) start (bytes + tx.length) ∧
      Reached rawTxs rest (i + 1) i tx.length := by
  have hrest : rawTxs.drop (i + 1) = rest := by
    rw [← drop_drop, h.rest]
    rfl
  have hbytes := h.bytesBefore_succ
  have hstart := h.start_le
  have := h.bytes
  exact ⟨⟨hrest, by omega, by omega⟩, hrest, by omega, by omega⟩

theorem allowed_planLoop (h : Reached rawTxs rest i start bytes)
    (hopen : start < i → Allowed rawTxs maxCount maxBytes ⟨start, i⟩) (hsome : start < i ∨ rest ≠ []) :
    ∀ span ∈ planLoop maxCount maxBytes rest i start bytes,
      Allowed rawTxs maxCount maxBytes span := by
  induction rest generalizing i start bytes with
  | nil => simpa [planLoop] using hopen (by simpa using hsome)
  | cons tx rest ih =>
    obtain ⟨hlonger, hnew⟩ := h.next
    have hstart := h.start_le
    rw [planLoop]
    split
    · refine forall_mem_cons.mpr ⟨hopen (by omega), ih hnew (fun _ => .inl ?_) (.inl (by omega))⟩
      exact Nat.add_sub_cancel_left i 1
    · rename_i hfull
      refine ih hlonger (fun _ => ?_) (.inl (by omega))
      by_cases hfirst : start = i
      · exact .inl (by simp [hfirst])
      · -- The transaction was taken because it breaches no cap.
        have hslice := bytesBefore_add_slice rawTxs ⟨start, i + 1⟩ (Nat.le_succ_of_le hstart)
        have hbytes := h.bytesBefore_succ
        have := h.bytes
        simp only [spanFull, decide_eq_true_eq, not_and, not_or] at hfull
        obtain ⟨hcount, hsize⟩ := hfull (by omega)
        dsimp only at hslice
        refine .inr ⟨fun hpos => ?_, fun hpos => ?_⟩
        · dsimp only
          omega
        · omega

theorem stop_le_of_spanFull {span : ChunkSpan} (h : Reached rawTxs (tx :: rest) i start bytes)
    (hlt : start < i) (hfull : spanFull (i - start) bytes tx.length maxCount maxBytes)
    (hspan : span.start ≤ start) (hallowed : Allowed rawTxs maxCount maxBytes span) :
    span.stop ≤ i := by
  by_contra hpast
  have hslice := bytesBefore_add_slice rawTxs span (by omega)
  have hbefore := bytesBefore_add_slice rawTxs ⟨span.start, start⟩ hspan
  have hafter := bytesBefore_add_slice rawTxs ⟨i + 1, span.stop⟩ (Nat.lt_of_not_le hpast)
  dsimp only at hbefore hafter
  have hbytes := h.bytesBefore_succ
  have := h.bytes
  simp only [spanFull, decide_eq_true_eq] at hfull
  rcases hallowed with hone | ⟨hcount, hsize⟩
  · omega
  · rcases hfull with ⟨hpos, hfull⟩ | ⟨hpos, hfull⟩
    · omega
    · omega

theorem length_planLoop_le {a : Nat} {others : List ChunkSpan}
    (h : Reached rawTxs rest i start bytes) (hsome : start < i ∨ rest ≠ []) (ha : a ≤ start)
    (hchained : Chained a (i + rest.length) others)
    (hallowed : ∀ span ∈ others, Allowed rawTxs maxCount maxBytes span) :
    (planLoop maxCount maxBytes rest i start bytes).length ≤ others.length := by
  induction rest generalizing i start bytes a others with
  | nil =>
    cases others with
    | nil =>
      have hend : a = i := hchained
      simp at hsome
      omega
    | cons span others => simp [planLoop]
  | cons tx rest ih =>
    obtain ⟨hlonger, hnew⟩ := h.next
    have hstart := h.start_le
    have hlength : i + (tx :: rest).length = i + 1 + rest.length := by
      simp only [length_cons]
      omega
    rw [hlength] at hchained
    rw [planLoop]
    split
    · rename_i hfull
      cases others with
      | nil =>
        have hend : a = i + 1 + rest.length := hchained
        omega
      | cons span others =>
        obtain ⟨hspan, -, hchained⟩ := hchained
        obtain ⟨hfirst, hallowed⟩ := forall_mem_cons.mp hallowed
        have hle := stop_le_of_spanFull h (by omega) hfull.2 (by omega) hfirst
        exact Nat.succ_le_succ (ih hnew (.inl (by omega)) hle hchained hallowed)
    · exact ih hlonger (.inl (by omega)) ha hchained hallowed

/-- The plan cuts the batch into spans that keep the caps, and no other cut that does has fewer. -/
theorem planChunks_minimal (rawTxs : List (List UInt8)) (maxCount maxBytes : Int) :
    Chained 0 rawTxs.length (planChunks rawTxs maxCount maxBytes) ∧
      (∀ span ∈ planChunks rawTxs maxCount maxBytes, Allowed rawTxs maxCount maxBytes span) ∧
      ∀ others, Chained 0 rawTxs.length others →
        (∀ span ∈ others, Allowed rawTxs maxCount maxBytes span) →
          (planChunks rawTxs maxCount maxBytes).length ≤ others.length := by
  refine ⟨chained_planChunks rawTxs maxCount maxBytes, ?_⟩
  unfold planChunks
  split
  · simp
  · rename_i hne
    have hstart : Reached rawTxs rawTxs 0 0 0 := ⟨rfl, Nat.le_refl 0, rfl⟩
    have hsome : rawTxs ≠ [] := fun h => hne (length_eq_zero_iff.mpr h)
    refine ⟨allowed_planLoop hstart (absurd · (Nat.lt_irrefl 0)) (.inr hsome), ?_⟩
    intro others hchained hallowed
    rw [← Nat.zero_add rawTxs.length] at hchained
    exact length_planLoop_le hstart (.inr hsome) (Nat.le_refl 0) hchained hallowed

end Arcade.Propagation
