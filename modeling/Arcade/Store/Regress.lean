import Arcade.Propagation.TerminalStatuses
import Arcade.Store.TxRows

/-!
Interleavings of the status writers. A retry worker that gives up on a
transaction first bumps its retry count and then, in a second call, clears the
retry state with REJECTED. `ClearRetryState` does not ask the lattice, so the
confirmed statuses are kept exactly as long as no other writer confirms the
transaction between the two calls.
-/

namespace Arcade.Store

open Lib
open Propagation (Status giveUpReason)

/-- A `schedulePendingRetry` call between its two store calls, with the count
that `BumpRetryCount` returned. -/
structure RetryWorker where
  txid : String
  rawTx : List UInt8
  lastReason : String
  count : Nat

structure StatusTable where
  rows : TxRows
  workers : GoMap Nat RetryWorker

/-- The calls, one row each: a batch form or a call with a list of rows is the
sequence of its rows. -/
inductive StatusEvent where
  | update (txid : String) (update : StatusUpdate)
  | setMined (blockHash : String) (blockHeight : Nat) (txid : String)
  /-- `SetStatusByBlockHash` with SEEN_ON_NETWORK reaches the row. -/
  | revert (blockHash : String) (txid : String)
  /-- `schedulePendingRetry` bumps the retry count. -/
  | bump (worker : Nat) (txid : String) (rawTx : List UInt8) (lastReason : String)
  /-- The worker makes its second call. -/
  | settle (worker : Nat) (nextRetry : Int)

/-- Replace the row of `txid` by what `write` makes of it, if anything. -/
def alterRow (rows : TxRows) (txid : String) (write : TxRow → Option TxRow) : TxRows :=
  match (rows.lookup txid).bind write with
  | none => rows
  | some row => rows.insert txid row

section Runs

variable (maxAttempts : Nat)

/-- The second store call of `schedulePendingRetry`. -/
def RetryWorker.write (w : RetryWorker) (nextRetry : Int) : TxRow → Option TxRow :=
  if w.count > maxAttempts then
    fun row => some (clearRetryState .rejected (giveUpReason maxAttempts w.lastReason) row)
  else setPendingRetryFields w.rawTx nextRetry w.lastReason

def StatusTable.step (s : StatusTable) : StatusEvent → StatusTable
  | .update txid update => { s with rows := alterRow s.rows txid (updateStatus update) }
  | .setMined blockHash blockHeight txid =>
    { s with rows := alterRow s.rows txid (setMined blockHash blockHeight) }
  | .revert blockHash txid =>
    { s with rows := alterRow s.rows txid (setStatusByBlockHash blockHash .seenOnNetwork) }
  | .bump worker txid rawTx lastReason =>
    -- without the row the count is not bumped, and the worker is done
    match s.rows.lookup txid with
    | none => s
    | some row =>
      if rawTx.length = 0 then s
      else
        { rows := s.rows.insert txid (bumpRetryCount row)
          workers := s.workers.insert worker ⟨txid, rawTx, lastReason, row.retryCount + 1⟩ }
  | .settle worker nextRetry =>
    match s.workers.lookup worker with
    | none => s
    | some w =>
      { rows := alterRow s.rows w.txid (w.write maxAttempts nextRetry)
        workers := s.workers.erase worker }

/-- The statuses that stand for a transaction the network has confirmed. -/
def Confirmed (status : Status) : Prop :=
  status = .seenOnNetwork ∨ status = .seenMultipleNodes ∨ status = .mined

/-- The event moves a row with status `before` to `after` as the lattice allows. -/
def Allowed (e : StatusEvent) (txid : String) (row : TxRow) (after : Status) : Prop :=
  (Confirmed row.status → after = row.status ∨
    (after ≠ .rejected ∧ canTransitionFrom after row.status = true) ∨
      (∃ blockHash, e = .revert blockHash txid ∧ row.blockHash = blockHash ∧
        after = .seenOnNetwork)) ∧
    (row.status = .immutable → after = .immutable)

/-- The event keeps every confirmed status and every IMMUTABLE row. -/
def KeepsConfirmed (s : StatusTable) (e : StatusEvent) : Prop :=
  ∀ txid, ∀ row ∈ s.rows.lookup txid, ∀ row' ∈ (s.step maxAttempts e).rows.lookup txid,
    Allowed e txid row row'.status

/-- A worker that gives up finds its row in a status that REJECTED may follow. -/
def GivesUpInTime (s : StatusTable) : StatusEvent → Prop
  | .settle worker _ =>
    ∀ w ∈ s.workers.lookup worker, w.count > maxAttempts →
      ∀ row ∈ s.rows.lookup w.txid, canTransitionFrom .rejected row.status = true
  | _ => True

/-! ## One event -/

theorem lookup_alterRow (rows : TxRows) (txid txid' : String) (write : TxRow → Option TxRow) :
    (alterRow rows txid write).lookup txid' =
      if txid' = txid then (rows.lookup txid).map fun row => (write row).getD row
      else rows.lookup txid' := by
  unfold alterRow
  cases hl : rows.lookup txid with
  | none =>
    by_cases h : txid' = txid
    · subst h
      simp [hl]
    · simp [h]
  | some row =>
    cases hw : write row with
    | none =>
      by_cases h : txid' = txid
      · subst h
        simp [hl, hw]
      · simp [h, hw]
    | some out => simp [hw, GoMap.lookup_insert_eq]

theorem allowed_self (e : StatusEvent) (txid : String) (row : TxRow) :
    Allowed e txid row row.status :=
  ⟨fun _ => .inl rfl, fun h => h⟩

variable {e : StatusEvent} {txid : String}

theorem allowed_of_canTransitionFrom {row : TxRow} {after : Status}
    (h : canTransitionFrom after row.status = true) :
    Allowed e txid row after := by
  constructor
  · intro hc
    refine .inr (.inl ⟨?_, h⟩)
    rintro rfl
    rcases hc with hc | hc | hc <;> rw [hc] at h <;> exact absurd h (by decide)
  · intro hi
    rw [hi] at h
    exact (canTransitionFrom_immutable after).mp h

theorem keeps_of_alterRow {s : StatusTable} {write : TxRow → Option TxRow}
    (hs : (s.step maxAttempts e).rows = alterRow s.rows txid write)
    (hw : ∀ row ∈ s.rows.lookup txid, ∀ out, write row = some out →
      Allowed e txid row out.status) : KeepsConfirmed maxAttempts s e := by
  intro txid' row hr row' hr'
  rw [hs, lookup_alterRow] at hr'
  by_cases h : txid' = txid
  · subst h
    rw [if_pos rfl, hr] at hr'
    cases hout : write row with
    | none =>
      rw [Option.map_some, hout] at hr'
      cases hr'
      exact allowed_self e txid' row
    | some out =>
      rw [Option.map_some, hout] at hr'
      cases hr'
      exact hw row hr out hout
  · rw [if_neg h] at hr'
    obtain rfl : row' = row := Option.mem_unique hr' hr
    exact allowed_self e txid' row'

theorem not_allowed_rejected {row : TxRow} (h : canTransitionFrom .rejected row.status = false) :
    ¬ Allowed e txid row .rejected := by
  rintro ⟨hc, hi⟩
  cases hs : row.status with
  | seenOnNetwork =>
    rcases hc (.inl hs) with h' | ⟨h', -⟩ | ⟨-, -, -, h'⟩
    · exact absurd (h'.trans hs) (by decide)
    · exact h' rfl
    · exact absurd h' (by decide)
  | seenMultipleNodes =>
    rcases hc (.inr (.inl hs)) with h' | ⟨h', -⟩ | ⟨-, -, -, h'⟩
    · exact absurd (h'.trans hs) (by decide)
    · exact h' rfl
    · exact absurd h' (by decide)
  | mined =>
    rcases hc (.inr (.inr hs)) with h' | ⟨h', -⟩ | ⟨-, -, -, h'⟩
    · exact absurd (h'.trans hs) (by decide)
    · exact h' rfl
    · exact absurd h' (by decide)
  | immutable => exact absurd (hi hs) (by decide)
  | unknown | received | sentToNetwork | acceptedByNetwork | doubleSpendAttempted | rejected
  | pendingRetry | stumpProcessing =>
    rw [hs] at h
    exact absurd h (by decide)

theorem settle_rows {s : StatusTable} {worker : Nat} {nextRetry : Int} {w : RetryWorker}
    (hw : s.workers.lookup worker = some w) :
    (s.step maxAttempts (.settle worker nextRetry)).rows =
      alterRow s.rows w.txid (w.write maxAttempts nextRetry) := by
  simp [StatusTable.step, hw]

variable (s : StatusTable)

theorem settle_keeps_iff (worker : Nat) (nextRetry : Int) :
    KeepsConfirmed maxAttempts s (.settle worker nextRetry) ↔
      GivesUpInTime maxAttempts s (.settle worker nextRetry) := by
  cases hw : s.workers.lookup worker with
  | none =>
    have hs : (s.step maxAttempts (.settle worker nextRetry)).rows = s.rows := by
      simp [StatusTable.step, hw]
    constructor
    · intro _ w h
      simp [hw] at h
    · intro _ txid row hr row' hr'
      rw [hs] at hr'
      obtain rfl : row' = row := Option.mem_unique hr' hr
      exact allowed_self _ _ _
  | some w =>
    have hs : (s.step maxAttempts (.settle worker nextRetry)).rows = _ :=
      settle_rows maxAttempts hw
    by_cases hcount : w.count > maxAttempts
    · have hwrite : w.write maxAttempts nextRetry = fun row =>
          some (clearRetryState .rejected (giveUpReason maxAttempts w.lastReason) row) := by
        simp [RetryWorker.write, hcount]
      constructor
      · intro hk w' hw' _ row hr
        obtain rfl : w = w' := Option.mem_unique hw hw'
        by_contra hnot
        have hrow : (s.step maxAttempts (.settle worker nextRetry)).rows.lookup w.txid =
            some (clearRetryState .rejected (giveUpReason maxAttempts w.lastReason) row) := by
          rw [hs, lookup_alterRow, if_pos rfl, Option.mem_def.mp hr, hwrite]
          rfl
        exact not_allowed_rejected (by simpa using hnot) (hk w.txid row hr _ hrow)
      · intro hg
        apply keeps_of_alterRow maxAttempts hs
        intro row hr out hout
        rw [hwrite] at hout
        cases hout
        exact allowed_of_canTransitionFrom (hg w hw hcount row hr)
    · constructor
      · intro _ w' hw' hc
        obtain rfl : w = w' := Option.mem_unique hw hw'
        exact absurd hc hcount
      · intro _
        apply keeps_of_alterRow maxAttempts hs
        intro row _ out hout
        rw [RetryWorker.write, if_neg hcount] at hout
        exact allowed_of_canTransitionFrom (setPendingRetryFields_status hout)

theorem keepsConfirmed_iff (e : StatusEvent) :
    KeepsConfirmed maxAttempts s e ↔ GivesUpInTime maxAttempts s e := by
  cases e with
  | settle worker nextRetry => exact settle_keeps_iff maxAttempts s worker nextRetry
  | update txid update =>
    refine ⟨fun _ => trivial, fun _ => keeps_of_alterRow maxAttempts rfl ?_⟩
    intro row _ out hout
    rcases updateStatus_status hout with h | h
    · rw [h]
      exact allowed_self _ _ _
    · exact allowed_of_canTransitionFrom h
  | setMined blockHash blockHeight txid =>
    refine ⟨fun _ => trivial, fun _ => keeps_of_alterRow maxAttempts rfl ?_⟩
    intro row _ out hout
    obtain ⟨hi, hm, -⟩ := setMined_eq_some hout
    rw [hm]
    exact allowed_of_canTransitionFrom ((mined_canTransitionFrom _).mpr hi)
  | revert blockHash txid =>
    refine ⟨fun _ => trivial, fun _ => keeps_of_alterRow maxAttempts rfl ?_⟩
    intro row _ out hout
    obtain ⟨hb, hi, hseen⟩ := setStatusByBlockHash_eq_some hout
    exact ⟨fun _ => .inr (.inr ⟨blockHash, rfl, hb, hseen⟩), fun h => absurd h hi⟩
  | bump worker txid rawTx lastReason =>
    refine ⟨fun _ => trivial, fun _ => ?_⟩
    intro txid' row hr row' hr'
    have hsame : row'.status = row.status := by
      simp only [StatusTable.step] at hr'
      split at hr'
      · rw [Option.mem_unique hr' hr]
      · rename_i old hold
        split at hr'
        · rw [Option.mem_unique hr' hr]
        · rcases GoMap.of_lookup_insert hr' with ⟨rfl, rfl⟩ | ⟨-, hr'⟩
          · rw [Option.mem_unique hr hold]
            rfl
          · rw [Option.mem_unique hr' hr]
    rw [hsame]
    exact allowed_self _ _ _

/-! ## Runs -/

/-- Over every interleaving, the confirmed statuses are kept exactly when every
worker that gives up does so before its transaction is confirmed. -/
theorem confirmed_kept_iff (s : StatusTable) (es : List StatusEvent) :
    AllSteps (StatusTable.step maxAttempts) (KeepsConfirmed maxAttempts) s es ↔
      AllSteps (StatusTable.step maxAttempts) (GivesUpInTime maxAttempts) s es :=
  ⟨AllSteps.imp fun s e => (keepsConfirmed_iff maxAttempts s e).mp,
    AllSteps.imp fun s e => (keepsConfirmed_iff maxAttempts s e).mpr⟩

end Runs

/-- A broadcast transaction on its last retry. -/
def lastRetry : TxRow where
  status := .pendingRetry
  blockHash := ""
  blockHeight := 0
  extraInfo := ""
  rawTx := []
  retryCount := 3
  nextRetry := 0
  retryReason := ""
  orphanedAnchors := []

/-- Another broadcast is accepted and a callback confirms the transaction after the worker bumped
its count. -/
def confirmedWhileGivingUp : List StatusEvent :=
  [.bump 0 "t" [1] "", .update "t" ⟨some .acceptedByNetwork, "", 0, "", [], 0, 0⟩,
    .update "t" ⟨some .seenOnNetwork, "", 0, "", [], 0, 0⟩, .settle 0 9]

/-- The transaction that was seen on the network ends as REJECTED. -/
theorem confirmedWhileGivingUp_regresses :
    ¬ AllSteps (StatusTable.step 3) (KeepsConfirmed 3) ⟨AList.singleton "t" lastRetry, ∅⟩
      confirmedWhileGivingUp := by
  rintro ⟨-, -, -, h, -⟩
  have hrow := h "t" _ rfl _ rfl
  rcases hrow.1 (.inl rfl) with h' | ⟨h', -⟩ | ⟨-, -, -, h'⟩
  · exact absurd h' (by decide)
  · exact h' rfl
  · exact absurd h' (by decide)

end Arcade.Store
