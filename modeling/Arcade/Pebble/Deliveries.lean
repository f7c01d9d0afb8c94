import Arcade.Pebble.Keys
import Arcade.Lib.Transition

/-!
Concurrent calls on the delivery fields of one submission.

`UpdateDeliveryStatus`, `RecordDeliveryAttempt` and `UpdateDeliveryStatusCAS` each read the row,
change some of its fields and write the whole row back. The last two hold `submissionMu` from
before their read until after their write; the first does not, so another call may write between
its read and its write, and it may write between those of another call.
-/

namespace Arcade.Pebble

open Lib
open Propagation (Status)

/-! ## What the calls write -/

def updateDeliveryStatus (lastStatus : Option Status) (retryCount : Int)
    (nextRetry : Option Int64) (ss : StoredSubmission) : StoredSubmission :=
  { ss with lastDeliveredStatus := lastStatus, retryCount, nextRetry := nextRetry.getD 0 }

def recordDeliveryAttempt (attemptAt : Int64) (result : Bytes) (ss : StoredSubmission) :
    StoredSubmission :=
  { ss with attempts := ss.attempts + 1, lastAttempt := attemptAt, lastResult := result }

/-- `none` when the row has moved on from `expected`. -/
def updateDeliveryStatusCAS (expected next : Option Status) (ss : StoredSubmission) :
    Option StoredSubmission :=
  if ss.lastDeliveredStatus ≠ expected then none
  else some { ss with lastDeliveredStatus := next, retryCount := 0, nextRetry := 0 }

inductive DeliveryCall where
  | updateDeliveryStatus (lastStatus : Option Status) (retryCount : Int) (nextRetry : Option Int64)
  | recordDeliveryAttempt (attemptAt : Int64) (result : Bytes)
  | updateDeliveryStatusCAS (expected next : Option Status)
  deriving DecidableEq

/-- What the call makes of the row it has read; `none` if it returns without a write. -/
def DeliveryCall.payload : DeliveryCall → StoredSubmission → Option StoredSubmission
  | .updateDeliveryStatus lastStatus retryCount nextRetry, ss =>
    some (Pebble.updateDeliveryStatus lastStatus retryCount nextRetry ss)
  | .recordDeliveryAttempt attemptAt result, ss =>
    some (Pebble.recordDeliveryAttempt attemptAt result ss)
  | .updateDeliveryStatusCAS expected next, ss => Pebble.updateDeliveryStatusCAS expected next ss

/-- The call takes `submissionMu`. -/
def DeliveryCall.locks : DeliveryCall → Bool
  | .updateDeliveryStatus .. => false
  | .recordDeliveryAttempt .. => true
  | .updateDeliveryStatusCAS .. => true

def DeliveryCall.isAttempt : DeliveryCall → Bool
  | .recordDeliveryAttempt .. => true
  | _ => false

def DeliveryCall.delivered : DeliveryCall → Option (Option Status)
  | .updateDeliveryStatus lastStatus _ _ => some lastStatus
  | .recordDeliveryAttempt .. => none
  | .updateDeliveryStatusCAS _ next => some next

/-! ## Interleavings -/

/-- How far a call is. Between its read and its write it has the row it read and the one it is
going to write. -/
inductive Progress where
  | waiting
  | read (ss payload : StoredSubmission)
  | finished
  deriving DecidableEq

/-- The row, the call that holds `submissionMu`, the calls, and those that have written, in the
order of their writes. -/
structure Deliveries where
  row : StoredSubmission
  holder : Option Nat
  calls : List (DeliveryCall × Progress)
  written : List DeliveryCall

def Deliveries.start (row : StoredSubmission) : Deliveries := ⟨row, none, [], []⟩

def Deliveries.Idle (s : Deliveries) : Prop := ∀ c ∈ s.calls, c.2 = .finished

instance (s : Deliveries) : Decidable s.Idle :=
  inferInstanceAs (Decidable (∀ c ∈ s.calls, c.2 = .finished))

inductive DeliveryEvent where
  | begin (call : DeliveryCall)
  | get (i : Nat)
  | set (i : Nat)
  | fail (i : Nat)

/-- The call returns, and its lock is released. -/
def Deliveries.finish (s : Deliveries) (i : Nat) (call : DeliveryCall) : Deliveries :=
  { s with
    calls := s.calls.set i (call, .finished)
    holder := if s.holder = some i then none else s.holder }

namespace Deliveries

/-- A `get` of a call that takes the lock waits until the lock is free; `fail` is a read or a
write that returns an error. -/
def step (s : Deliveries) : DeliveryEvent → Deliveries
  | .begin call => { s with calls := s.calls ++ [(call, .waiting)] }
  | .get i =>
    match s.calls[i]? with
    | some (call, .waiting) =>
      if call.locks ∧ s.holder ≠ none then s
      else
        match call.payload s.row with
        | none => s.finish i call
        | some payload =>
          { s with
            calls := s.calls.set i (call, .read s.row payload)
            holder := if call.locks then some i else s.holder }
    | _ => s
  | .set i =>
    match s.calls[i]? with
    | some (call, .read _ payload) =>
      { s.finish i call with row := payload, written := s.written ++ [call] }
    | _ => s
  | .fail i =>
    match s.calls[i]? with
    | some (call, .waiting) => s.finish i call
    | some (call, .read ..) => s.finish i call
    | _ => s

/-- The write of the call loses nothing of the row: when `UpdateDeliveryStatus` writes, no attempt
was recorded since its read, and when an attempt is recorded, the delivered status is the one that
was read. -/
def LosesNothing (row : StoredSubmission) : DeliveryCall × Progress → Prop
  | (.updateDeliveryStatus .., .read ss _) => ss.attempts = row.attempts
  | (.recordDeliveryAttempt .., .read ss _) => ss.lastDeliveredStatus = row.lastDeliveredStatus
  | _ => True

instance (row : StoredSubmission) : DecidablePred (LosesNothing row)
  | (.updateDeliveryStatus .., .read ss _) =>
    inferInstanceAs (Decidable (ss.attempts = row.attempts))
  | (.recordDeliveryAttempt .., .read ss _) =>
    inferInstanceAs (Decidable (ss.lastDeliveredStatus = row.lastDeliveredStatus))
  | (.updateDeliveryStatusCAS .., .read ..) | (_, .waiting) | (_, .finished) =>
    isTrue (by simp [LosesNothing])

def Undisturbed (s : Deliveries) : DeliveryEvent → Prop
  | .set i => ∀ c ∈ s.calls[i]?, LosesNothing s.row c
  | _ => True

instance (s : Deliveries) : DecidablePred (Undisturbed s)
  | .set i => inferInstanceAs (Decidable (∀ c ∈ s.calls[i]?, LosesNothing s.row c))
  | .begin _ | .get _ | .fail _ => isTrue trivial

def lastDelivered (first : Option Status) (written : List DeliveryCall) : Option Status :=
  written.foldl (fun last call => call.delivered.getD last) first

theorem lastDelivered_append (first : Option Status) (written : List DeliveryCall)
    (call : DeliveryCall) : lastDelivered first (written ++ [call]) =
      call.delivered.getD (lastDelivered first written) := by
  simp [lastDelivered]

/-- Nothing is lost so far, and a call that holds the lock has read the attempts of the row. -/
structure Kept (row : StoredSubmission) (s : Deliveries) : Prop where
  attempts : s.row.attempts = row.attempts + s.written.countP DeliveryCall.isAttempt
  delivered : s.row.lastDeliveredStatus = lastDelivered row.lastDeliveredStatus s.written
  payload : ∀ (i : Nat) (call : DeliveryCall) (ss payload : StoredSubmission),
    s.calls[i]? = some (call, Progress.read ss payload) → call.payload ss = some payload
  locked : ∀ (i : Nat) (call : DeliveryCall) (ss payload : StoredSubmission),
    s.calls[i]? = some (call, Progress.read ss payload) → call.locks = true →
      s.holder = some i ∧ ss.attempts = s.row.attempts

theorem kept_start (row : StoredSubmission) : Kept row (start row) where
  attempts := by simp [start]
  delivered := rfl
  payload := by simp [start]
  locked := by simp [start]

variable {s : Deliveries} {payload ss row : StoredSubmission} {call : DeliveryCall} {i : Nat}

theorem getElem?_finish {j : Nat} {call' : DeliveryCall}
    (h : (s.finish i call).calls[j]? = some (call', .read ss payload)) :
    j ≠ i ∧ s.calls[j]? = some (call', .read ss payload) := by
  unfold finish at h
  by_cases hj : i = j
  · subst hj
    rw [List.getElem?_set_self'] at h
    cases hc : s.calls[i]? <;> simp [hc] at h
  · rw [List.getElem?_set_ne hj] at h
    exact ⟨Ne.symm hj, h⟩

section

variable (h : Kept row s)
include h

theorem Kept.finish (i : Nat) (call : DeliveryCall) : Kept row (s.finish i call) where
  attempts := h.attempts
  delivered := h.delivered
  payload j call' ss payload hj := h.payload j call' ss payload (getElem?_finish hj).2
  locked j call' ss payload hj hlocks := by
    obtain ⟨hne, hj⟩ := getElem?_finish hj
    obtain ⟨hholder, hatt⟩ := h.locked j call' ss payload hj hlocks
    refine ⟨?_, hatt⟩
    simp [Deliveries.finish, hholder, hne]

theorem Kept.begin (call : DeliveryCall) :
    Kept row { s with calls := s.calls ++ [(call, .waiting)] } := by
  have hold : ∀ (i : Nat) (call' : DeliveryCall) (ss payload : StoredSubmission),
      (s.calls ++ [(call, Progress.waiting)])[i]? = some (call', .read ss payload) →
      s.calls[i]? = some (call', .read ss payload) := by
    intro i call' ss payload hi
    rw [List.getElem?_append] at hi
    split at hi
    · exact hi
    · simp [List.getElem?_singleton] at hi
  exact
    { attempts := h.attempts
      delivered := h.delivered
      payload := fun i call' ss payload hi =>
        h.payload i call' ss payload (hold i call' ss payload hi)
      locked := fun i call' ss payload hi =>
        h.locked i call' ss payload (hold i call' ss payload hi) }

/-- A call reads the row. One that takes the lock finds it free, so that no other call that takes
it is between its read and its write. -/
theorem Kept.read (hpayload : call.payload s.row = some payload)
    (hfree : call.locks = true → s.holder = none) :
    Kept row { s with
      calls := s.calls.set i (call, .read s.row payload)
      holder := if call.locks then some i else s.holder } where
  attempts := h.attempts
  delivered := h.delivered
  payload j call' ss payload' hj := by
    by_cases hij : i = j
    · subst hij
      rw [List.getElem?_set_self'] at hj
      cases hc : s.calls[i]? <;> simp [hc] at hj
      obtain ⟨rfl, rfl, rfl⟩ := hj
      exact hpayload
    · rw [List.getElem?_set_ne hij] at hj
      exact h.payload j call' ss payload' hj
  locked j call' ss payload' hj hlocks := by
    by_cases hij : i = j
    · subst hij
      rw [List.getElem?_set_self'] at hj
      cases hc : s.calls[i]? <;> simp [hc] at hj
      obtain ⟨rfl, rfl, rfl⟩ := hj
      simp [hlocks]
    · rw [List.getElem?_set_ne hij] at hj
      obtain ⟨hholder, hatt⟩ := h.locked j call' ss payload' hj hlocks
      cases hl : call.locks with
      | false => exact ⟨by simpa [hl] using hholder, hatt⟩
      | true => simp [hfree hl] at hholder

theorem Kept.payload_eq (hi : s.calls[i]? = some (call, .read ss payload))
    (hc : Undisturbed s (.set i)) :
    payload.attempts = s.row.attempts + [call].countP DeliveryCall.isAttempt ∧
      payload.lastDeliveredStatus = call.delivered.getD s.row.lastDeliveredStatus := by
  have hp := h.payload i call ss payload hi
  have hund := hc _ hi
  cases call with
  | updateDeliveryStatus lastStatus retryCount nextRetry =>
    obtain rfl := Option.some.inj hp
    have hatt : ss.attempts = s.row.attempts := hund
    exact ⟨by simpa [DeliveryCall.isAttempt, updateDeliveryStatus] using hatt, rfl⟩
  | recordDeliveryAttempt attemptAt result =>
    obtain rfl := Option.some.inj hp
    have hatt := (h.locked i _ ss _ hi rfl).2
    refine ⟨?_, hund⟩
    simp [DeliveryCall.isAttempt, recordDeliveryAttempt, hatt]
  | updateDeliveryStatusCAS expected next =>
    have hatt := (h.locked i _ ss _ hi rfl).2
    simp only [DeliveryCall.payload, Pebble.updateDeliveryStatusCAS] at hp
    split at hp
    · cases hp
    · obtain rfl := Option.some.inj hp
      exact ⟨by simpa [DeliveryCall.isAttempt] using hatt, rfl⟩

/-- A write. The attempts only change when the holder of the lock writes, and then no other call
holds it. -/
theorem Kept.set (hi : s.calls[i]? = some (call, .read ss payload)) (hc : Undisturbed s (.set i)) :
    Kept row { s.finish i call with row := payload, written := s.written ++ [call] } := by
  obtain ⟨hatt, hlast⟩ := h.payload_eq hi hc
  have hfin := h.finish i call
  refine ⟨?_, ?_, hfin.payload, ?_⟩
  · rw [hatt, h.attempts, List.countP_append, Nat.add_assoc]
  · rw [lastDelivered_append, hlast, h.delivered]
  · intro j call' ss' payload' hj hlocks
    obtain ⟨hholder, hatt'⟩ := hfin.locked j call' ss' payload' hj hlocks
    refine ⟨hholder, ?_⟩
    have hnot : call.isAttempt = false := by
      obtain ⟨hne, hj⟩ := getElem?_finish hj
      have hj' := (h.locked j call' ss' payload' hj hlocks).1
      cases call with
      | recordDeliveryAttempt attemptAt result =>
        have hi' := (h.locked i _ ss payload hi rfl).1
        exact absurd (Option.mem_unique hj' hi') hne
      | updateDeliveryStatus _ _ _ => rfl
      | updateDeliveryStatusCAS _ _ => rfl
    rw [hatt', hatt]
    simp [hnot, Deliveries.finish]

theorem Kept.step {e : DeliveryEvent} (hc : Undisturbed s e) : Kept row (s.step e) := by
  cases e with
  | begin call => exact h.begin call
  | get i =>
    simp only [Deliveries.step]
    split
    · split
      · exact h
      · rename_i call _ hlock
        split
        · exact h.finish i call
        · rename_i payload hpayload
          refine h.read hpayload ?_
          intro hl
          by_contra hne
          exact hlock ⟨hl, hne⟩
    · exact h
  | set i =>
    simp only [Deliveries.step]
    split
    · rename_i hi
      exact h.set hi hc
    · exact h
  | fail i =>
    simp only [Deliveries.step]
    split
    · exact h.finish i _
    · exact h.finish i _
    · exact h

end

/-- Runs whose writes are undisturbed: whenever no call is in progress the attempts have grown by
the number of recorded ones, and the delivered status is the one written last. -/
theorem deliveries_kept (row : StoredSubmission) (es : List DeliveryEvent)
    (h : AllSteps step Undisturbed (start row) es) :
    ∀ s ∈ states step (start row) es, s.Idle →
      s.row.attempts = row.attempts + s.written.countP DeliveryCall.isAttempt ∧
        s.row.lastDeliveredStatus = lastDelivered row.lastDeliveredStatus s.written := by
  intro s hs _
  have hkept : Kept row s :=
    states_invariant (fun _ _ h hc => h.step hc) (kept_start row) h s hs
  exact ⟨hkept.attempts, hkept.delivered⟩

/-- One row, `UpdateDeliveryStatus` after the attempt and after a claim. -/
def calmEvents : List DeliveryEvent :=
  [.begin (.recordDeliveryAttempt 5 []), .begin (.updateDeliveryStatusCAS none (some .mined)),
    .get 0, .get 1, .set 0, .get 1, .begin (.updateDeliveryStatus (some .mined) 1 (some 9)), .set 1,
    .get 2, .set 2]

/-- `UpdateDeliveryStatus` has read the row when the attempt is recorded, and writes what it has
read. -/
def racingEvents : List DeliveryEvent :=
  [.begin (.updateDeliveryStatus (some .mined) 1 (some 9)), .get 0,
    .begin (.recordDeliveryAttempt 5 []), .get 1, .set 1, .set 0]

def sampleRow : StoredSubmission where
  submissionID := [1]
  txid := [2]

theorem deliveries_kept_calm : AllSteps step Undisturbed (start sampleRow) calmEvents ∧
      (run step (start sampleRow) calmEvents).Idle ∧
      (run step (start sampleRow) calmEvents).row.attempts = sampleRow.attempts + 1 := by
  have hcalm : AllSteps step Undisturbed (start sampleRow) calmEvents := by
    decide
  have hidle : (run step (start sampleRow) calmEvents).Idle := by decide
  refine ⟨hcalm, hidle, ?_⟩
  have hmem : run step (start sampleRow) calmEvents ∈ states step (start sampleRow) calmEvents :=
    (mem_states_iff _ _ _ _).mpr ⟨calmEvents, [], (List.append_nil _).symm, rfl⟩
  exact (deliveries_kept sampleRow calmEvents hcalm _ hmem hidle).1

theorem attempt_lost : (run step (start sampleRow) racingEvents).Idle ∧
      (run step (start sampleRow) racingEvents).written.countP DeliveryCall.isAttempt = 1 ∧
      (run step (start sampleRow) racingEvents).row.attempts = sampleRow.attempts := by
  decide

end Deliveries

end Arcade.Pebble
