import Arcade.Propagation.Narrowing
import Mathlib.Data.Nat.Log

/-!
`planChunks` and `broadcastInChunks`: a batch is cut into spans, and each span is broadcast, and
narrowed, into its own window of the result array. The windows are written by goroutines side by
side; every index lies in one window and is written once, whatever their order.
-/

namespace Arcade.Propagation

open Lib List

/-! ## The plan -/

/-- The half-open range from `start` to `stop`. -/
structure ChunkSpan where
  start : Nat
  stop : Nat
  deriving DecidableEq

def ChunkSpan.contains (span : ChunkSpan) (i : Nat) : Bool := span.start ≤ i ∧ i < span.stop

/-- `batch[start:stop]`. -/
def ChunkSpan.slice {α : Type} (span : ChunkSpan) (batch : List α) : List α :=
  (batch.drop span.start).take (span.stop - span.start)

def spanFull (count bytes next : Nat) (maxCount maxBytes : Int) : Bool :=
  (maxCount > 0 ∧ count ≥ maxCount) ∨ (maxBytes > 0 ∧ ((bytes + next : Nat) : Int) > maxBytes)

/-- The loop of `planChunks` from index `i` on. -/
def planLoop (maxCount maxBytes : Int) : List (List UInt8) → Nat → Nat → Nat → List ChunkSpan
  | [], i, start, _ => [⟨start, i⟩]
  | tx :: rest, i, start, bytes =>
    if i - start > 0 ∧ spanFull (i - start) bytes tx.length maxCount maxBytes then
      ⟨start, i⟩ :: planLoop maxCount maxBytes rest (i + 1) i tx.length
    else planLoop maxCount maxBytes rest (i + 1) start (bytes + tx.length)

def planChunks (rawTxs : List (List UInt8)) (maxCount maxBytes : Int) : List ChunkSpan :=
  if rawTxs.length = 0 then [] else planLoop maxCount maxBytes rawTxs 0 0 0

/-- The spans are not empty, and each one starts where the one before it stops. -/
def Chained : Nat → Nat → List ChunkSpan → Prop
  | a, b, [] => a = b
  | a, b, span :: rest => span.start = a ∧ span.start < span.stop ∧ Chained span.stop b rest

theorem chained_planLoop (maxCount maxBytes : Int) (rawTxs : List (List UInt8))
    (i start bytes : Nat) (h : start < i ∨ start = i ∧ rawTxs ≠ []) :
    Chained start (i + rawTxs.length) (planLoop maxCount maxBytes rawTxs i start bytes) := by
  induction rawTxs generalizing i start bytes with
  | nil =>
    obtain hlt : start < i := by simpa using h
    exact ⟨rfl, hlt, rfl⟩
  | cons tx rest ih =>
    rw [planLoop, length_cons, Nat.add_comm rest.length, ← Nat.add_assoc]
    split
    · exact ⟨rfl, by dsimp only; omega, ih (i + 1) i tx.length (.inl (Nat.lt_succ_self i))⟩
    · exact ih (i + 1) start (bytes + tx.length) (.inl (by omega))

theorem chained_planChunks (rawTxs : List (List UInt8)) (maxCount maxBytes : Int) :
    Chained 0 rawTxs.length (planChunks rawTxs maxCount maxBytes) := by
  unfold planChunks
  split
  · rename_i hzero
    exact hzero.symm
  · rename_i hne
    have := chained_planLoop maxCount maxBytes rawTxs 0 0 0
      (.inr ⟨rfl, fun h => hne (length_eq_zero_iff.mpr h)⟩)
    simpa using this

variable {spans : List ChunkSpan} {a b i : Nat}

section

variable (h : Chained a b spans)
include h

theorem Chained.le : a ≤ b := by
  induction spans generalizing a with
  | nil => exact Nat.le_of_eq h
  | cons span rest ih =>
    obtain ⟨rfl, hlt, hrest⟩ := h
    exact hlt.le.trans (ih hrest)

theorem Chained.mem {span : ChunkSpan} (hs : span ∈ spans) :
    a ≤ span.start ∧ span.start < span.stop ∧ span.stop ≤ b := by
  induction spans generalizing a with
  | nil => cases hs
  | cons first rest ih =>
    obtain ⟨rfl, hlt, hrest⟩ := h
    rcases mem_cons.mp hs with rfl | hs
    · exact ⟨le_rfl, hlt, hrest.le⟩
    · obtain ⟨hge, hrange⟩ := ih hrest hs
      exact ⟨hlt.le.trans hge, hrange⟩

theorem Chained.exists_contains (hai : a ≤ i) (hib : i < b) : ∃ span ∈ spans, span.contains i := by
  induction spans generalizing a with
  | nil =>
    obtain rfl : a = b := h
    omega
  | cons span rest ih =>
    obtain ⟨rfl, hlt, hrest⟩ := h
    by_cases hi : i < span.stop
    · exact ⟨span, mem_cons_self, by simp [ChunkSpan.contains, hai, hi]⟩
    · obtain ⟨s, hs, hc⟩ := ih hrest (by omega)
      exact ⟨s, mem_cons_of_mem _ hs, hc⟩

/-- Of what is made span by span, only the part of the span that contains `i` is about `i`. -/
theorem Chained.filter_flatMap {α : Type} {f : ChunkSpan → List α}
    {p : α → Bool} (hf : ∀ s ∈ spans, s.contains i = false → (f s).filter p = []) {span : ChunkSpan}
    (hs : span ∈ spans) (hi : span.contains i) :
    (spans.flatMap f).filter p = (f span).filter p := by
  induction spans generalizing a with
  | nil => cases hs
  | cons first rest ih =>
    obtain ⟨rfl, hlt, hrest⟩ := h
    have hrange : span.start ≤ i ∧ i < span.stop := by simpa [ChunkSpan.contains] using hi
    rw [flatMap_cons, filter_append]
    rcases mem_cons.mp hs with rfl | hs
    · have hnone : (rest.flatMap f).filter p = [] := by
        rw [List.filter_flatMap, flatMap_eq_nil_iff]
        intro s hs'
        refine hf s (mem_cons_of_mem _ hs') ?_
        have := (hrest.mem hs').1
        simp only [ChunkSpan.contains, decide_eq_false_iff_not]
        omega
      rw [hnone, append_nil]
    · have hfirst : first.contains i = false := by
        have := (hrest.mem hs).1
        simp only [ChunkSpan.contains, decide_eq_false_iff_not]
        omega
      rw [hf first mem_cons_self hfirst, nil_append,
        ih hrest (fun s hs' => hf s (mem_cons_of_mem _ hs')) hs]

end

/-! ## The passes of a chunk and what they write -/

/-- `copy(out, results)` into the window that starts at `start`. -/
structure Copy where
  start : Nat
  results : List TxResult

def Copy.covers (i : Nat) (c : Copy) : Bool := c.start ≤ i ∧ i < c.start + c.results.length

/-- The array, `none` for the zero value, after the copy. -/
def Copy.write (out : List (Option TxResult)) (c : Copy) : List (Option TxResult) :=
  out.mapIdx fun i old => if c.covers i then c.results[i - c.start]? else old

/-- A pass over the transactions from `start` on. -/
structure PassRun where
  start : Nat
  chunk : List PropagationMsg
  pass : Pass

def PassRun.contains (i : Nat) (run : PassRun) : Bool :=
  run.start ≤ i ∧ i < run.start + run.chunk.length

section

variable (parse : TxParser)
  (order : MapOrder Text) (indexOrder : MapOrder Nat)

/-- The copies that `broadcastChunk` makes when the window of its chunk starts at `start`. -/
def copiesOf (start : Nat) (chunk : List PropagationMsg) (peers : List Bool → Pass) : List Copy :=
  if h : Narrows parse order indexOrder chunk (peers []) then
    have := h.2
    copiesOf start (chunk.take (chunk.length / 2)) (fun path => peers (false :: path)) ++
      copiesOf (start + chunk.length / 2) (chunk.drop (chunk.length / 2))
        (fun path => peers (true :: path))
  else [⟨start, (broadcastBatchToEndpoints parse order indexOrder chunk
    (peers [])).1⟩]
termination_by chunk.length
decreasing_by
  · simp only [length_take]
    omega
  · simp only [length_drop]
    omega

/-- The calls of `broadcastBatchToEndpoints` for a chunk, in order. -/
def runsOf (start : Nat) (chunk : List PropagationMsg) (peers : List Bool → Pass) : List PassRun :=
  ⟨start, chunk, peers []⟩ ::
    if h : Narrows parse order indexOrder chunk (peers []) then
      have := h.2
      runsOf start (chunk.take (chunk.length / 2)) (fun path => peers (false :: path)) ++
        runsOf (start + chunk.length / 2) (chunk.drop (chunk.length / 2))
          (fun path => peers (true :: path))
    else []
termination_by chunk.length
decreasing_by
  · simp only [length_take]
    omega
  · simp only [length_drop]
    omega

/-- All copies and all passes of a call of `broadcastInChunks`, span by span. `peers` gives the
responses to the passes of the chunk that starts at an index. -/
def broadcastCopies (batch : List PropagationMsg) (spans : List ChunkSpan)
    (peers : Nat → List Bool → Pass) : List Copy :=
  spans.flatMap fun span => copiesOf parse order indexOrder span.start (span.slice batch)
      (peers span.start)

def broadcastRuns (batch : List PropagationMsg) (spans : List ChunkSpan)
    (peers : Nat → List Bool → Pass) : List PassRun :=
  spans.flatMap fun span => runsOf parse order indexOrder span.start (span.slice batch)
      (peers span.start)

/-- The results when the copies have been made in the order of `writes`. -/
def resultsOf (batch : List PropagationMsg) (writes : List Copy) : List (Option TxResult) :=
  writes.foldl Copy.write (List.replicate batch.length none)

/-! ## One chunk -/

theorem halves (chunk : List PropagationMsg) :
    (chunk.take (chunk.length / 2)).length = chunk.length / 2 ∧
      (chunk.drop (chunk.length / 2)).length = chunk.length - chunk.length / 2 := by
  rw [length_take, length_drop]
  omega

variable (start : Nat) (chunk : List PropagationMsg) (peers : List Bool → Pass)

theorem filter_outside {i : Nat} (hi : i < start ∨ start + chunk.length ≤ i) :
    (copiesOf parse order indexOrder start chunk peers).filter (·.covers i) = [] ∧
      (runsOf parse order indexOrder start chunk peers).filter (·.contains i) = [] := by
  induction start, chunk, peers using copiesOf.induct parse order indexOrder with
  | case1 start chunk peers h hlen ih₁ ih₂ =>
    obtain ⟨htake, hdrop⟩ := halves chunk
    obtain ⟨hc₁, hr₁⟩ := ih₁ (by omega)
    obtain ⟨hc₂, hr₂⟩ := ih₂ (by omega)
    have hout : (⟨start, chunk, peers []⟩ : PassRun).contains i = false := by
      simp only [PassRun.contains, decide_eq_false_iff_not]
      omega
    rw [copiesOf, runsOf, dif_pos h, dif_pos h, filter_append,
      filter_cons_of_neg (by simp [hout]), filter_append, hc₁, hc₂, hr₁, hr₂]
    exact ⟨rfl, rfl⟩
  | case2 start chunk peers h =>
    have hlen := length_results parse order indexOrder chunk (peers [])
    rw [copiesOf, runsOf, dif_neg h, dif_neg h]
    constructor
    · rw [filter_cons_of_neg, filter_nil]
      simp only [Copy.covers, hlen, decide_eq_true_eq]
      omega
    · rw [filter_cons_of_neg, filter_nil]
      simp only [PassRun.contains, decide_eq_true_eq]
      omega

/-- Inside, one copy writes an index: the one of the last pass that contains it, which has the
transaction in the same place. -/
theorem filter_inside {i : Nat} (hi : start ≤ i ∧ i < start + chunk.length) : ∃ run : PassRun,
      ((runsOf parse order indexOrder start chunk peers).filter
        (·.contains i)).getLast? = some run ∧
      (copiesOf parse order indexOrder start chunk peers).filter (·.covers i) =
        [⟨run.start, (broadcastBatchToEndpoints parse order indexOrder run.chunk
          run.pass).1⟩] ∧
      run.contains i ∧ run.chunk[i - run.start]? = chunk[i - start]? := by
  induction start, chunk, peers using copiesOf.induct parse order indexOrder with
  | case1 start chunk peers h hlen ih₁ ih₂ =>
    obtain ⟨htake, hdrop⟩ := halves chunk
    have hin : (⟨start, chunk, peers []⟩ : PassRun).contains i = true := by
      simp only [PassRun.contains, decide_eq_true_eq]
      omega
    rw [copiesOf, runsOf, dif_pos h, dif_pos h, filter_append,
      filter_cons_of_pos hin, filter_append]
    -- The index lies in one half; the other half has nothing for it.
    by_cases hlt : i < start + chunk.length / 2
    · obtain ⟨run, hlast, hcopies, hcontains, hmsg⟩ := ih₁ (by omega)
      obtain ⟨hc₂, hr₂⟩ := filter_outside parse order indexOrder
        (start + chunk.length / 2) (chunk.drop (chunk.length / 2))
        (fun path => peers (true :: path)) (.inl hlt)
      refine ⟨run, ?_, ?_, hcontains, ?_⟩
      · rw [hr₂, append_nil, List.getLast?_cons, hlast]
        rfl
      · rw [hc₂, append_nil, hcopies]
      · rw [hmsg, List.getElem?_take_of_lt (by omega)]
    · obtain ⟨run, hlast, hcopies, hcontains, hmsg⟩ := ih₂ (by omega)
      obtain ⟨hc₁, hr₁⟩ := filter_outside parse order indexOrder start
        (chunk.take (chunk.length / 2)) (fun path => peers (false :: path)) (i := i)
        (.inr (by omega))
      refine ⟨run, ?_, ?_, hcontains, ?_⟩
      · rw [hr₁, nil_append, List.getLast?_cons, hlast]
        rfl
      · rw [hc₁, nil_append, hcopies]
      · rw [hmsg, List.getElem?_drop]
        congr 1
        omega
  | case2 start chunk peers h =>
    have hlen := length_results parse order indexOrder chunk (peers [])
    have hin : (⟨start, chunk, peers []⟩ : PassRun).contains i = true := by
      simp only [PassRun.contains, decide_eq_true_eq]
      omega
    refine ⟨⟨start, chunk, peers []⟩, ?_, ?_, hin, rfl⟩
    · rw [runsOf, dif_neg h, filter_cons_of_pos hin]
      rfl
    · rw [copiesOf, dif_neg h, filter_cons_of_pos, filter_nil]
      simp only [Copy.covers, hlen, decide_eq_true_eq]
      omega

theorem length_runsOf_le (hne : chunk.length ≠ 0) :
    (runsOf parse order indexOrder start chunk peers).length ≤ 2 * chunk.length - 1 := by
  induction start, chunk, peers using copiesOf.induct parse order indexOrder with
  | case1 start chunk peers h hlen ih₁ ih₂ =>
    obtain ⟨htake, hdrop⟩ := halves chunk
    rw [runsOf, dif_pos h, length_cons, length_append]
    omega
  | case2 start chunk peers h =>
    rw [runsOf, dif_neg h, length_singleton]
    omega

/-- The pass asks for a narrowing exactly if it has more transactions than the culprit. -/
def PassRun.Blames (culprit : Nat) (run : PassRun) : Prop :=
  (broadcastBatchToEndpoints parse order indexOrder run.chunk run.pass).2 = true ↔
    run.chunk.length > 1 ∧ run.contains culprit = true

theorem length_runsOf_culprit (culprit : Nat)
    (hblames : ∀ run ∈ runsOf parse order indexOrder start chunk peers,
      run.Blames parse order indexOrder culprit) :
    (runsOf parse order indexOrder start chunk peers).length ≤
      if start ≤ culprit ∧ culprit < start + chunk.length then 1 + 2 * Nat.clog 2 chunk.length
      else 1 := by
  induction start, chunk, peers using copiesOf.induct parse order indexOrder with
  | case1 start chunk peers h hlen ih₁ ih₂ =>
    obtain ⟨htake, hdrop⟩ := halves chunk
    rw [runsOf, dif_pos h] at hblames
    have hself := hblames _ mem_cons_self
    have hin : start ≤ culprit ∧ culprit < start + chunk.length := by
      simpa [PassRun.contains] using (hself.mp h.1).2
    have h₁ := ih₁ fun run hrun => hblames run (mem_cons_of_mem _ (mem_append_left _ hrun))
    have h₂ := ih₂ fun run hrun => hblames run (mem_cons_of_mem _ (mem_append_right _ hrun))
    have hclog : Nat.clog 2 chunk.length = Nat.clog 2 ((chunk.length + 1) / 2) + 1 := by
      simpa using Nat.clog_of_two_le one_lt_two hlen
    have hclog₁ : Nat.clog 2 (chunk.length / 2) ≤ Nat.clog 2 ((chunk.length + 1) / 2) :=
      Nat.clog_mono_right 2 (by omega)
    have hclog₂ : Nat.clog 2 (chunk.length - chunk.length / 2) ≤
        Nat.clog 2 ((chunk.length + 1) / 2) := Nat.clog_mono_right 2 (by omega)
    rw [runsOf, dif_pos h, length_cons, length_append, if_pos hin, hclog]
    rw [htake] at h₁
    rw [hdrop] at h₂
    by_cases hlt : culprit < start + chunk.length / 2
    · rw [if_pos ⟨hin.1, hlt⟩] at h₁
      rw [if_neg (by omega)] at h₂
      omega
    · rw [if_neg (by omega)] at h₁
      rw [if_pos (by omega)] at h₂
      omega
  | case2 start chunk peers h =>
    rw [runsOf, dif_neg h, length_singleton]
    split <;> omega

end

/-! ## The whole call -/

theorem getElem?_foldl_write (writes : List Copy) (out : List (Option TxResult)) :
    (writes.foldl Copy.write out)[i]? = out[i]?.map fun old =>
      (writes.filter (·.covers i)).getLast?.elim old fun c => c.results[i - c.start]? := by
  induction writes using List.reverseRecOn with
  | nil => simp
  | append_singleton writes c ih =>
    rw [foldl_concat, Copy.write, List.getElem?_mapIdx, ih, filter_append, Option.map_map]
    by_cases hc : c.covers i = true <;> simp [hc, Function.comp_def]

section

variable (parse : TxParser)
  (order : MapOrder Text) (indexOrder : MapOrder Nat) (batch : List PropagationMsg)

theorem length_slice {span : ChunkSpan} (h : span.stop ≤ batch.length) :
    (span.slice batch).length = span.stop - span.start := by
  rw [ChunkSpan.slice, length_take, length_drop]
  omega

theorem exists_run {spans : List ChunkSpan} (hspans : Chained 0 batch.length spans)
    (peers : Nat → List Bool → Pass) {i : Nat} (hi : i < batch.length) :
    ∃ run : PassRun, ((broadcastRuns parse order indexOrder batch spans peers).filter
        (·.contains i)).getLast? = some run ∧
      (broadcastCopies parse order indexOrder batch spans peers).filter
        (·.covers i) = [⟨run.start, (broadcastBatchToEndpoints parse order
          indexOrder run.chunk run.pass).1⟩] ∧
      run.contains i ∧ run.chunk[i - run.start]? = batch[i]? := by
  obtain ⟨span, hs, hcontains⟩ := hspans.exists_contains (Nat.zero_le i) hi
  obtain ⟨-, hlt, hstop⟩ := hspans.mem hs
  have hrange : span.start ≤ i ∧ i < span.stop := by
    simpa [ChunkSpan.contains] using hcontains
  have hlen := length_slice batch hstop
  have hout : ∀ s ∈ spans, s.contains i = false →
      i < s.start ∨ s.start + (s.slice batch).length ≤ i := by
    intro s hs' hnot
    rw [length_slice batch (hspans.mem hs').2.2]
    simp only [ChunkSpan.contains, decide_eq_false_iff_not] at hnot
    omega
  obtain ⟨run, hlast, hcopies, hin, hmsg⟩ := filter_inside parse order indexOrder
    span.start (span.slice batch) (peers span.start) (i := i) (by omega)
  refine ⟨run, ?_, ?_, hin, ?_⟩
  · rw [broadcastRuns, hspans.filter_flatMap (fun s hs' hnot => (filter_outside _ _ _ _ _ _
      (hout s hs' hnot)).2) hs hcontains]
    exact hlast
  · rw [broadcastCopies, hspans.filter_flatMap (fun s hs' hnot => (filter_outside _ _ _ _ _ _
      (hout s hs' hnot)).1) hs hcontains]
    exact hcopies
  · rw [hmsg, ChunkSpan.slice, List.getElem?_take_of_lt (by omega), List.getElem?_drop]
    congr 1
    omega

/-- In any order of the copies: each index is written once and ends with what the last pass that
contains the transaction says of it. A chunk of `m` transactions takes at most `2 m - 1` passes, and
at most `1 + 2 ⌈log₂ m⌉` when only the passes with one culprit ask for a narrowing. -/
theorem broadcastInChunks_spec (maxCount maxBytes : Int) (peers : Nat → List Bool → Pass) :
    let spans := planChunks (batch.map (·.rawTx)) maxCount maxBytes
    (∀ writes, writes.Perm
        (broadcastCopies parse order indexOrder batch spans peers) →
      (resultsOf batch writes).length = batch.length ∧
      ∀ i < batch.length, (writes.filter (·.covers i)).length = 1 ∧ ∃ run result,
          ((broadcastRuns parse order indexOrder batch spans peers).filter
            (·.contains i)).getLast? = some run ∧
          run.chunk[i - run.start]? = batch[i]? ∧
          (broadcastBatchToEndpoints parse order indexOrder run.chunk
            run.pass).1[i - run.start]? = some result ∧
          (resultsOf batch writes)[i]? = some (some result)) ∧
    ∀ span ∈ spans,
      let chunk := span.slice batch
      let runs := runsOf parse order indexOrder span.start chunk
        (peers span.start)
      runs.length ≤ 2 * chunk.length - 1 ∧
      ∀ culprit, (∀ run ∈ runs, run.Blames parse order indexOrder culprit) →
        runs.length ≤ 1 + 2 * Nat.clog 2 chunk.length := by
  intro spans
  have hspans : Chained 0 batch.length spans := by
    simpa using chained_planChunks (batch.map (·.rawTx)) maxCount maxBytes
  refine ⟨fun writes hperm => ⟨?_, fun i hi => ?_⟩, fun span hs => ⟨?_, fun culprit hblames => ?_⟩⟩
  · have hlen : ∀ (ws : List Copy) out, (ws.foldl Copy.write out).length = out.length := by
      intro ws
      induction ws with
      | nil => exact fun _ => rfl
      | cons c ws ih => exact fun out => (ih _).trans length_mapIdx
    rw [resultsOf, hlen, length_replicate]
  · obtain ⟨run, hlast, hcopies, hin, hmsg⟩ :=
      exists_run parse order indexOrder batch hspans peers hi
    have hwrites := hperm.filter (·.covers i)
    rw [hcopies, perm_singleton] at hwrites
    have hrange : run.start ≤ i ∧ i < run.start + run.chunk.length := by
      simpa [PassRun.contains] using hin
    have hlen := length_results parse order indexOrder run.chunk run.pass
    obtain ⟨result, hresult⟩ : ∃ result, (broadcastBatchToEndpoints parse order
        indexOrder run.chunk run.pass).1[i - run.start]? = some result :=
      ⟨_, List.getElem?_eq_getElem (by omega)⟩
    refine ⟨by rw [hwrites]; rfl, run, result, hlast, hmsg, hresult, ?_⟩
    rw [resultsOf, getElem?_foldl_write, hwrites, List.getElem?_replicate, if_pos hi]
    exact congrArg some hresult
  · obtain ⟨-, hlt, hstop⟩ := hspans.mem hs
    refine length_runsOf_le _ _ _ _ _ _ ?_
    rw [length_slice batch hstop]
    omega
  · have := length_runsOf_culprit _ _ _ span.start (span.slice batch) (peers span.start) culprit
      hblames
    split at this <;> omega

end

end Arcade.Propagation
