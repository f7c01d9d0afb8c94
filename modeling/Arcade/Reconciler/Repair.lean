import Arcade.Builder.Handle
import Arcade.Bump.Index
import Arcade.Lib.Slices

/-!
The anchor reconciler: what one pass over an orphaned block reads and writes.

A pass works with a live context; a lost lease shows as calls that fail. The outcome
labels of the block counter stand for what became of the block. Logging with the texts of
the errors that only end up there, the other metrics and the pauses between two attempts
are left out.
-/

namespace Arcade.Reconciler

open Lib
open Bump (Sdk)
open Store (Program BlockRow StoreError)
open Builder (setMinedAndPublish levelZeroTxidsFromBUMP publishAll bulkChunks maxTxIDsPerBulkEvent)
open Prog (send)

variable {H Data : Type}

/-- The settings of `bump_builder.reconciler`; what is not positive is a default. -/
structure Config where
  batchSize : Int
  neighborhoodDepth : Int
  maxDeferAttempts : Int
  revertWhenUnreconcilable : Bool
  fullScanMinHeight : Nat
  fullScanMaxHeight : Nat
  fullScanDepth : Int
  /-- A merkle-service client and a callback URL are there. -/
  canReprocess : Bool

namespace Config

variable (cfg : Config)

def batch : Nat := if cfg.batchSize ≤ 0 then maxTxIDsPerBulkEvent else cfg.batchSize.toNat

def depth : Nat := cfg.neighborhoodDepth.toNat

def maxDefer : Nat := if cfg.maxDeferAttempts ≤ 0 then 10 else cfg.maxDeferAttempts.toNat

theorem batch_pos : 0 < cfg.batch := by
  unfold batch
  split
  · decide
  · omega

end Config

/-- What the process remembers between two passes. -/
structure Memory where
  defers : GoMap String Nat
  pendingRemine : GoMap String Nat

def Memory.deferred (mem : Memory) (hash : String) : Nat := (mem.defers.lookup hash).getD 0

inductive Outcome where
  | error | deferred | resurrected | stale | parked | mixed | reanchored | reverted | empty
  deriving DecidableEq

def extraInfoReorgReanchor : String := "reorg_reanchor"

def extraInfoReorgUnmined : String := "reorg_unmined"

/-! ## Marking from a stored BUMP -/

/-- Mark one batch after the other, up to the first that fails. -/
def remineBatches (blockHash : String) (blockHeight : Nat) :
    List (List String) → Nat → Program H Data (Nat × Option String)
  | [], changed => pure (changed, none)
  | batch :: rest, changed => do
    let done ← setMinedAndPublish blockHash blockHeight batch extraInfoReorgReanchor true
    match done.err with
    | some err => return (changed + done.count, some err)
    | none => remineBatches blockHash blockHeight rest (changed + done.count)

/-- `errMalformedBUMP`, or any other error. -/
inductive RemineError where
  | malformed | failed
  deriving DecidableEq

/-- The rows that changed, whether there was a BUMP to work from, and the error. -/
structure Remined where
  count : Nat
  ok : Bool
  err : Option RemineError

section Remine

variable (sdk : Sdk H Data) (cfg : Config)

/-- `remineFromStoredBUMP` once the level-0 set is known. -/
def remineTxids (blockHash : String) (bumpHeight : Nat) (txids : List String) :
    Program H Data Remined := do
  match ← remineBatches blockHash bumpHeight (slices cfg.batch txids) 0 with
  | (changed, some _) => return ⟨changed, true, some .failed⟩
  | (changed, none) => return ⟨changed, true, none⟩

def remineFromStoredBUMP (blockHash : String) : Program H Data Remined := do
  match ← send (.getBUMP blockHash) with
  | .error .notFound => return ⟨0, false, none⟩
  | .error (.failed _) => return ⟨0, false, some .failed⟩
  | .ok (bumpHeight, bumpBytes) =>
    if sdk.isEmpty bumpBytes then return ⟨0, false, some .malformed⟩
    else match levelZeroTxidsFromBUMP sdk bumpBytes with
      | .error _ => return ⟨0, false, some .malformed⟩
      | .ok txids => remineTxids cfg blockHash bumpHeight txids

def remineRetryAttempts : Nat := 3

/-- A try and up to `left` more, as long as each fails part-way. -/
def remineAttempts (blockHash : String) : (left : Nat) → Nat → Program H Data Remined
  | 0, total => do
    let done ← remineFromStoredBUMP sdk cfg blockHash
    return { done with count := total + done.count }
  | left + 1, total => do
    let done ← remineFromStoredBUMP sdk cfg blockHash
    match done.ok, done.err with
    | true, some .failed => remineAttempts blockHash left (total + done.count)
    | _, _ => return { done with count := total + done.count }

def remineWithRetry (blockHash : String) : Program H Data Remined :=
  remineAttempts sdk cfg blockHash (remineRetryAttempts - 1) 0

end Remine

/-! ## Handing a repair on -/

def handOffAttempts : Nat := 3

def maxPendingRemines : Nat := 256

def requestRebuild (cfg : Config) (blockHash : String) : Program H Data Unit :=
  if cfg.canReprocess then do
    let _ ← send (.reprocess blockHash)
    return
  else pure ()

/-- One attempt; whether the block is on a path that retries it, or else a call was refused. -/
def handOffPartialRemine (cfg : Config) (hash : String) (orphanedAt : Option Int64) :
    Program H Data Bool := do
  match ← send (.requeueOrphanedBlock hash orphanedAt) with
  | .error _ => return false
  | .ok true => return true
  | .ok false =>
    match ← send (.getBlockProcessingStatus hash) with
    | .error .notFound => return true
    | .error (.failed _) => return false
    | .ok row =>
      if row.status ≠ .active then return true
      else do
        requestRebuild cfg hash
        match ← send (.markBlocksOrphaned [hash]) with
        | .error _ => return false
        | .ok _ => return true

/-- Up to so many attempts; whether one was not refused. -/
def handOffLoop (cfg : Config) (hash : String) (orphanedAt : Option Int64) :
    Nat → Program H Data Bool
  | 0 => pure false
  | left + 1 => do
    if ← handOffPartialRemine cfg hash orphanedAt then return true
    else handOffLoop cfg hash orphanedAt left

def keepPartialRemineQueued (cfg : Config) (hash : String) (orphanedAt : Option Int64) :
    Program H Data Bool :=
  handOffLoop cfg hash orphanedAt handOffAttempts

def holdPendingRemine (cfg : Config) (mem : Memory) (hash : String) (height : Nat) :
    Program H Data Memory := do
  requestRebuild cfg hash
  if hash ∉ mem.pendingRemine ∧ maxPendingRemines ≤ mem.pendingRemine.keys.length then return mem
  else return { mem with pendingRemine := mem.pendingRemine.insert hash height }

/-- One round of `keepRemineRetried`; `none` when a call was refused. -/
def retainRemine (cfg : Config) (mem : Memory) (hash : String) (height : Nat)
    (orphanedAt : Option Int64) : Program H Data (Option Memory) := do
  match ← send (.requeueOrphanedBlock hash orphanedAt) with
  | .error _ => return none
  | .ok true => return some mem
  | .ok false =>
    match ← send (.getBlockProcessingStatus hash) with
    | .error .notFound => return some mem
    | .error (.failed _) => return none
    | .ok row =>
      if row.status = .active then do
        let mem ← holdPendingRemine cfg mem hash height
        return some mem
      else return some mem

def retainLoop (cfg : Config) (mem : Memory) (hash : String) (height : Nat)
    (orphanedAt : Option Int64) : Nat → Program H Data (Memory × Bool)
  | 0 => pure (mem, false)
  | left + 1 => do
    match ← retainRemine cfg mem hash height orphanedAt with
    | some mem => return (mem, true)
    | none => retainLoop cfg mem hash height orphanedAt left

def keepRemineRetried (cfg : Config) (mem : Memory) (hash : String) (height : Nat)
    (orphanedAt : Option Int64) : Program H Data (Memory × Bool) :=
  retainLoop cfg mem hash height orphanedAt handOffAttempts

/-! ## The active chain -/

/-- The active-chain block at a height; a failed lookup is no judgement. -/
def activeHashAt (height : Nat) : Program H Data (Except String (Option String)) :=
  if height = 0 ∨ 2 ^ 32 ≤ height then pure (.ok none)
  else send (.getHeaderByHeight height)

def deferForCanonicalBUMP (cfg : Config) (mem : Memory) (orphan canonicalHash : String) :
    Program H Data (Memory × Bool) :=
  if cfg.maxDefer ≤ mem.deferred orphan then pure (mem, false)
  else do
    requestRebuild cfg canonicalHash
    return ({ mem with defers := mem.defers.insert orphan (mem.deferred orphan + 1) }, true)

/-! ## A queued block that is canonical again -/

section Resurrect

variable (sdk : Sdk H Data) (cfg : Config)

/-- `resurrect` from the reactivation on. -/
def reactivate (mem : Memory) (orphan : String) (height : Nat) (orphanedAt : Option Int64) :
    Program H Data (Memory × Outcome) := do
  match ← send (.reactivateBlock orphan height orphanedAt) with
  | .error _ => return (mem, .error)
  | .ok false => return (mem, .stale)
  | .ok true => return ({ mem with defers := mem.defers.erase orphan }, .resurrected)

def resurrect (mem : Memory) (orphan : String) (height : Nat) (orphanedAt : Option Int64) :
    Program H Data (Memory × Outcome) := do
  let done ← remineWithRetry sdk cfg orphan
  match done.err with
  | some .malformed =>
    match ← deferForCanonicalBUMP cfg mem orphan orphan with
    | (mem, true) => return (mem, .deferred)
    | (mem, false) => reactivate mem orphan height orphanedAt
  | some .failed =>
    if done.ok then do
      if ← keepPartialRemineQueued cfg orphan orphanedAt then return (mem, .error)
      else do
        let mem ← holdPendingRemine cfg mem orphan height
        return (mem, .error)
    else return (mem, .error)
  | none => reactivate mem orphan height orphanedAt

end Resurrect

/-! ## The blocks above -/

section Neighborhood

variable [DecidableEq H] (sdk : Sdk H Data) (cfg : Config)

/-- The walk of `reanchorNeighborhood` over `left` heights from `h` on: the rows that were
moved, and whether it came to its end. -/
def walkNeighbors : Nat → Nat → List String → Nat → Program H Data (Nat × Bool)
  | 0, _, _, reanchored => pure (reanchored, true)
  | left + 1, h, affected, reanchored => do
    if affected = [] then return (reanchored, true)
    else match ← activeHashAt h with
      | .error _ => return (reanchored, false)
      | .ok none => return (reanchored, true)
      | .ok (some neighbor) =>
        match ← send (.getBUMP neighbor) with
        | .error .notFound => walkNeighbors left (h + 1) affected reanchored
        | .error (.failed _) => return (reanchored, false)
        | .ok (_, bumpBytes) =>
          if sdk.isEmpty bumpBytes then return (reanchored, false)
          else match Bump.indexCompound sdk bumpBytes with
            | .error _ => return (reanchored, false)
            | .ok index =>
              match ← remineBatches neighbor h
                  (slices cfg.batch (affected.filter (index.contains sdk))) reanchored with
              | (reanchored, some _) => return (reanchored, false)
              | (reanchored, none) =>
                walkNeighbors left (h + 1) (affected.filter fun txid => !index.contains sdk txid)
                  reanchored

def reanchorNeighborhood (affected : List String) (height : Nat) : Program H Data (Nat × Bool) :=
  if height = 0 then pure (0, true)
  else walkNeighbors sdk cfg cfg.depth (height + 1) affected 0

end Neighborhood

/-! ## One orphaned block -/

section Reconcile

variable [DecidableEq H] (sdk : Sdk H Data) (cfg : Config)

/-- The stamp that takes a block off the queue, with the outcome if it is set. -/
def stampReconciled (mem : Memory) (orphan : String) (orphanedAt : Option Int64)
    (outcome : Outcome) : Program H Data (Memory × Outcome) := do
  let _ ← send (.deleteStumpsByBlockHash orphan)
  match ← send (.markBlockReconciled orphan orphanedAt) with
  | .error _ => return (mem, .error)
  | .ok stamped =>
    return ({ mem with defers := mem.defers.erase orphan }, if stamped then outcome else .stale)

def parkBlock (mem : Memory) (orphan : String) (orphanedAt : Option Int64) :
    Program H Data (Memory × Outcome) := do
  let _ ← send (.getTxIDsByBlockHash orphan)
  stampReconciled mem orphan orphanedAt .parked

def publishReverted (txids : List String) : Program H Data Unit := do
  let _ ← publishAll ((bulkChunks txids).map fun chunk =>
    ⟨.seenOnNetwork, "", 0, chunk, extraInfoReorgUnmined⟩)

def revertOutcome (reanchored : Nat) (reverted : List String) : Outcome :=
  if reanchored > 0 then if reverted ≠ [] then .mixed else .reanchored
  else if reverted ≠ [] then .reverted else .empty

def revertBlock (mem : Memory) (orphan : String) (orphanedAt : Option Int64) (reanchored : Nat) :
    Program H Data (Memory × Outcome) := do
  let reverted ← send (.setStatusByBlockHash orphan .seenOnNetwork)
  publishReverted reverted.txids
  match reverted.err with
  | some _ => return (mem, .error)
  | none => stampReconciled mem orphan orphanedAt (revertOutcome reanchored reverted.txids)

/-- `reconcileBlock` once the canonical BUMP is dealt with; `ready` says that it was there
and could be used. -/
def settleRemainder (mem : Memory) (orphan : String) (orphanedAt : Option Int64) (height : Nat)
    (ready : Bool) (reanchored : Nat) : Program H Data (Memory × Outcome) := do
  match ← send (.getTxIDsByBlockHash orphan) with
  | .error _ => return (mem, .error)
  | .ok affected =>
    match ← reanchorNeighborhood sdk cfg affected height with
    | (_, false) => return (mem, .error)
    | (n, true) =>
      if ready = false ∧ cfg.revertWhenUnreconcilable = false then parkBlock mem orphan orphanedAt
      else revertBlock mem orphan orphanedAt (reanchored + n)

/-- The height of the row, or that of the stored BUMP. -/
def resolveHeight (orphan : String) (row : BlockRow) : Program H Data (Option Nat) :=
  if row.blockHeight ≠ 0 then pure (some row.blockHeight)
  else do
    match ← send (.getBUMP orphan) with
    | .ok (height, _) => return some height
    | .error .notFound => return some 0
    | .error (.failed _) => return none

/-- The canonical BUMP cannot be used: wait for it, or do without it at the cap. -/
def awaitCanonicalBUMP (mem : Memory) (orphan canonicalHash : String) (orphanedAt : Option Int64)
    (height reanchored : Nat) : Program H Data (Memory × Outcome) :=
  if canonicalHash = "" then settleRemainder sdk cfg mem orphan orphanedAt height false reanchored
  else do
    match ← deferForCanonicalBUMP cfg mem orphan canonicalHash with
    | (mem, true) => return (mem, .deferred)
    | (mem, false) => settleRemainder sdk cfg mem orphan orphanedAt height false reanchored

/-- `reconcileBlock` from the active-chain block at the height of the orphan on. -/
def reconcileAgainst (mem : Memory) (orphan : String) (orphanedAt : Option Int64) (height : Nat) :
    Option String → Program H Data (Memory × Outcome)
  | none => settleRemainder sdk cfg mem orphan orphanedAt height false 0
  | some canonicalHash => do
    if canonicalHash = orphan then resurrect sdk cfg mem orphan height orphanedAt
    else do
      let done ← remineFromStoredBUMP sdk cfg canonicalHash
      match done.err with
      | some .failed => return (mem, .error)
      | some .malformed =>
        awaitCanonicalBUMP sdk cfg mem orphan canonicalHash orphanedAt height done.count
      | none =>
        if done.ok then settleRemainder sdk cfg mem orphan orphanedAt height true done.count
        else awaitCanonicalBUMP sdk cfg mem orphan canonicalHash orphanedAt height done.count

def reconcileBlock (mem : Memory) (orphan : String) (row : BlockRow) :
    Program H Data (Memory × Outcome) := do
  match ← resolveHeight orphan row with
  | none => return (mem, .error)
  | some height =>
    match ← activeHashAt height with
    | .error _ => return (mem, .error)
    | .ok canonical => reconcileAgainst sdk cfg mem orphan row.orphanGeneration height canonical

end Reconcile

end Arcade.Reconciler
