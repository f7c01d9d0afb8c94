import Arcade.Propagation.Dispatcher

/-!
The transaction rows of the Pebble store: the status lattice of
`models.Status` and the writers of a row. Every writer reads, checks and
writes one row under its lock.
-/

namespace Arcade.Store

open Lib
open Propagation (Status)

/-! ## The lattice -/

def disallowedPreviousStatuses : Status → List Status
  | .unknown | .received =>
    [.sentToNetwork, .acceptedByNetwork, .seenOnNetwork, .seenMultipleNodes, .pendingRetry,
      .stumpProcessing, .rejected, .doubleSpendAttempted, .mined, .immutable]
  | .sentToNetwork =>
    [.sentToNetwork, .acceptedByNetwork, .seenOnNetwork, .seenMultipleNodes, .rejected,
      .doubleSpendAttempted, .mined, .immutable]
  | .acceptedByNetwork =>
    [.acceptedByNetwork, .seenOnNetwork, .seenMultipleNodes, .doubleSpendAttempted, .mined,
      .immutable]
  | .seenOnNetwork =>
    [.seenOnNetwork, .seenMultipleNodes, .pendingRetry, .doubleSpendAttempted, .mined, .immutable]
  | .seenMultipleNodes =>
    [.seenMultipleNodes, .pendingRetry, .doubleSpendAttempted, .mined, .immutable]
  | .pendingRetry =>
    [.seenOnNetwork, .seenMultipleNodes, .rejected, .doubleSpendAttempted, .mined, .immutable]
  | .stumpProcessing => [.rejected, .doubleSpendAttempted, .mined, .immutable]
  | .rejected => [.seenOnNetwork, .seenMultipleNodes, .mined, .immutable]
  | .doubleSpendAttempted => [.mined, .immutable]
  | .mined => [.immutable]
  | .immutable => []

/-- `status.CanTransitionFrom(prev)`. -/
def canTransitionFrom (status prev : Status) : Bool :=
  prev = status || prev ∉ disallowedPreviousStatuses status

theorem canTransitionFrom_immutable (status : Status) :
    canTransitionFrom status .immutable = true ↔ status = .immutable := by
  cases status <;> decide

theorem mined_canTransitionFrom (prev : Status) :
    canTransitionFrom .mined prev = true ↔ prev ≠ .immutable := by
  cases prev <;> decide

/-! ## Rows -/

/-- `storedStatus`; the txid is its key. An empty block hash is no anchor. -/
structure TxRow where
  status : Status
  blockHash : String
  blockHeight : Nat
  extraInfo : String
  rawTx : List UInt8
  retryCount : Nat
  nextRetry : Int
  retryReason : String
  orphanedAnchors : List (String × Nat)
  deriving DecidableEq

abbrev TxRows := GoMap String TxRow

def maxOrphanedAnchors : Nat := 5

/-- Record that the anchor of the row is being superseded. -/
def appendOrphanedAnchor (row : TxRow) : TxRow :=
  if row.blockHash = "" then row
  else if row.orphanedAnchors.getLast?.any (fun a => a.1 = row.blockHash) then row
  else
    let anchors := row.orphanedAnchors ++ [(row.blockHash, row.blockHeight)]
    { row with orphanedAnchors := anchors.drop (anchors.length - maxOrphanedAnchors) }

/-! ## Writers -/

/-- The fields of an `UpdateStatus` call; empty ones keep what the row has. -/
structure StatusUpdate where
  status : Option Status
  blockHash : String
  blockHeight : Nat
  extraInfo : String
  rawTx : List UInt8
  retryCount : Nat
  nextRetry : Int

def mergeStatus (row : TxRow) (update : StatusUpdate) : TxRow where
  status := update.status.getD row.status
  blockHash := if update.blockHash = "" then row.blockHash else update.blockHash
  blockHeight := if update.blockHeight > 0 then update.blockHeight else row.blockHeight
  extraInfo := if update.extraInfo = "" then row.extraInfo else update.extraInfo
  rawTx := if update.rawTx.length > 0 then update.rawTx else row.rawTx
  retryCount := if update.retryCount > 0 then update.retryCount else row.retryCount
  nextRetry := if update.nextRetry = 0 then row.nextRetry else update.nextRetry
  retryReason := row.retryReason
  orphanedAnchors := row.orphanedAnchors

/-- `UpdateStatus` on an existing row; `none` when the lattice refuses it. -/
def updateStatus (update : StatusUpdate) (row : TxRow) : Option TxRow :=
  if update.status.all (canTransitionFrom · row.status) then some (mergeStatus row update)
  else none

/-- `SetMinedByTxIDs` on an existing row. -/
def setMined (blockHash : String) (blockHeight : Nat) (row : TxRow) : Option TxRow :=
  if canTransitionFrom .mined row.status then
    let kept := if row.status = .mined ∧ row.blockHash ≠ blockHash then appendOrphanedAnchor row
      else row
    some { kept with status := .mined, blockHash, blockHeight }
  else none

/-- `SetStatusByBlockHash` on a row of the block's index. -/
def setStatusByBlockHash (blockHash : String) (newStatus : Status) (row : TxRow) : Option TxRow :=
  if row.blockHash ≠ blockHash ∨ row.status = .immutable then none
  else if newStatus = .seenOnNetwork then
    some { appendOrphanedAnchor row with status := newStatus, blockHash := "", blockHeight := 0 }
  else some { row with status := newStatus }

def bumpRetryCount (row : TxRow) : TxRow := { row with retryCount := row.retryCount + 1 }

/-- `SetPendingRetryFields` on an existing row; `none` when the lattice refuses it. -/
def setPendingRetryFields (rawTx : List UInt8) (nextRetry : Int) (lastReason : String)
    (row : TxRow) : Option TxRow :=
  if canTransitionFrom .pendingRetry row.status then
    some { row with status := .pendingRetry, rawTx, nextRetry, retryReason := lastReason }
  else none

/-- `ClearRetryState` on an existing row; it does not ask the lattice. -/
def clearRetryState (finalStatus : Status) (extraInfo : String) (row : TxRow) : TxRow :=
  { row with
    status := finalStatus
    rawTx := []
    nextRetry := 0
    retryReason := ""
    extraInfo := if extraInfo = "" then row.extraInfo else extraInfo }

/-! ## What the writers do to the status -/

variable {row out : TxRow} {blockHash : String}

theorem updateStatus_status {update : StatusUpdate} (h : updateStatus update row = some out) :
    out.status = row.status ∨ canTransitionFrom out.status row.status = true := by
  unfold updateStatus at h
  split at h
  · rename_i hall
    cases h
    cases hs : update.status with
    | none => exact .inl (by simp [mergeStatus, hs])
    | some s => exact .inr (by simpa [mergeStatus, hs] using hall)
  · cases h

theorem setMined_eq_some {blockHeight : Nat} (h : setMined blockHash blockHeight row = some out) :
    row.status ≠ .immutable ∧ out.status = .mined ∧ out.blockHash = blockHash := by
  unfold setMined at h
  split at h
  · rename_i hc
    cases h
    exact ⟨(mined_canTransitionFrom _).mp hc, rfl, rfl⟩
  · cases h

theorem setMined_eq_none {blockHeight : Nat} :
    setMined blockHash blockHeight row = none ↔ row.status = .immutable := by
  unfold setMined
  split
  · rename_i hc
    simpa using (mined_canTransitionFrom _).mp hc
  · rename_i hc
    rw [mined_canTransitionFrom] at hc
    simpa using hc

theorem setPendingRetryFields_status {rawTx : List UInt8} {nextRetry : Int} {lastReason : String}
    (h : setPendingRetryFields rawTx nextRetry lastReason row = some out) :
    canTransitionFrom out.status row.status = true := by
  unfold setPendingRetryFields at h
  split at h
  · rename_i hc
    cases h
    exact hc
  · cases h

theorem setStatusByBlockHash_eq_some {newStatus : Status}
    (h : setStatusByBlockHash blockHash newStatus row = some out) :
    row.blockHash = blockHash ∧ row.status ≠ .immutable ∧ out.status = newStatus := by
  unfold setStatusByBlockHash at h
  split at h
  · cases h
  · rename_i hc
    rw [not_or, not_not] at hc
    split at h
    · cases h
      exact ⟨hc.1, hc.2, rfl⟩
    · cases h
      exact ⟨hc.1, hc.2, rfl⟩

end Arcade.Store
