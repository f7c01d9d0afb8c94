import Arcade.Pebble.Deliveries

/-!
The webhook service on one submission row: which events are delivered, and the steps of one
`deliver` call. The call claims the event by moving `LastDeliveredStatus` on, POSTs it, stamps the
attempt and, after a failed POST, schedules a retry. Each of these is one step, and each of its
store calls is atomic.
-/

namespace Arcade.Webhook

open Lib Pebble
open Propagation (Status)

/-- The fields of `models.TransactionStatus` that the service reads; no status is the empty one. -/
structure TransactionStatus where
  status : Option Status
  extraInfo : Bytes := []
  deriving DecidableEq

def extraInfoReorgReanchor : Bytes := ascii "reorg_reanchor"

/-- The retry settings of the webhook configuration. -/
structure Config where
  maxRetries : Int
  initialBackoffMs : Int64
  maxBackoffMs : Int64

/-- `MaxRetries`, or its default. -/
def Config.retryLimit (cfg : Config) : Int := if cfg.maxRetries ≤ 0 then 10 else cfg.maxRetries

/-! ## Gating -/

/-- The statuses that are delivered without `FullStatusUpdates`. -/
def terminal : Option Status → Bool
  | some .mined | some .rejected | some .immutable | some .doubleSpendAttempted => true
  | _ => false

def shouldDeliver (sub : StoredSubmission) (status : TransactionStatus) : Bool :=
  if sub.lastDeliveredStatus = status.status then
    status.status = some .mined && status.extraInfo = extraInfoReorgReanchor
  else if sub.fullStatusUpdates then true
  else terminal status.status

/-! ## Retries -/

/-- One millisecond, as a `time.Duration`. -/
def millisecond : Int64 := 1000000

/-- The loop of `computeBackoff`, with the number of doublings left. -/
def double (maxBackoff : Int64) : Nat → Int64 → Int64
  | 0, d => if maxBackoff < d then maxBackoff else d
  | n + 1, d => if maxBackoff ≤ d * 2 then maxBackoff else double maxBackoff n (d * 2)

def computeBackoff (cfg : Config) (retryCount : Int) : Int64 :=
  let initial := cfg.initialBackoffMs * millisecond
  let initial := if initial ≤ 0 then 5000 * millisecond else initial
  let maxBackoff := cfg.maxBackoffMs * millisecond
  let maxBackoff := if maxBackoff ≤ 0 then 300000 * millisecond else maxBackoff
  double maxBackoff (retryCount - 1).toNat initial

/-- `recordFailure`, on the row as it is when the call writes; `sub` is the row as the call knows
it. -/
def recordFailure (cfg : Config) (now : Int64) (sub : StoredSubmission)
    (status : TransactionStatus) (row : StoredSubmission) : StoredSubmission :=
  let nextCount := sub.retryCount + 1
  if cfg.retryLimit ≤ nextCount then updateDeliveryStatus status.status nextCount none row
  else
    updateDeliveryStatus status.status nextCount (some (now + computeBackoff cfg nextCount)) row

/-! ## Deliveries -/

/-- What a `deliver` call does next. -/
inductive Phase where
  | claim
  | post
  | recordAttempt (failure : Option Bytes)
  | recordFailure
  | returned
  deriving DecidableEq

/-- A `deliver` call: the submission as its caller read it, and the event. -/
structure Delivery where
  sub : StoredSubmission
  status : TransactionStatus
  phase : Phase
  deriving DecidableEq

/-- How the POST ends. `notSent` is a body or a request that cannot be built. -/
inductive Outcome where
  | delivered
  | failed (reason : Bytes)
  | notSent
  deriving DecidableEq

/-- What a step meets: the clock, whether its store call returns an error, and the outcome of its
POST. -/
structure Reply where
  now : Int64
  storeFails : Bool
  outcome : Outcome
  deriving DecidableEq

def deliveryResultDelivered : Bytes := ascii "delivered"

namespace Delivery

def goto (d : Delivery) (phase : Phase) : Delivery := { d with phase }

/-- One step of `deliver` on the row. An error of the claim ends the call; errors of the later
store calls are logged. -/
def step (cfg : Config) (reply : Reply) (d : Delivery) (row : StoredSubmission) :
    Delivery × StoredSubmission :=
  match d.phase with
  | .claim =>
    if reply.storeFails then (d.goto .returned, row)
    else
      match updateDeliveryStatusCAS d.sub.lastDeliveredStatus d.status.status row with
      | none => (d.goto .returned, row)
      | some claimed => (d.goto .post, claimed)
  | .post =>
    match reply.outcome with
    | .delivered => (d.goto (.recordAttempt none), row)
    | .failed reason => (d.goto (.recordAttempt (some reason)), row)
    | .notSent => (d.goto .returned, row)
  | .recordAttempt failure =>
    (d.goto (if failure.isSome then .recordFailure else .returned),
      if reply.storeFails then row
      else recordDeliveryAttempt reply.now (failure.getD deliveryResultDelivered) row)
  | .recordFailure =>
    (d.goto .returned,
      if reply.storeFails then row else Webhook.recordFailure cfg reply.now d.sub d.status row)
  | .returned => (d, row)

/-- The call makes its POST in this step. -/
def posts (reply : Reply) (d : Delivery) : Bool :=
  d.phase = .post && reply.outcome ≠ .notSent

end Delivery

/-- `dispatchOne` on the submission: the call it starts for the event. -/
def dispatchOne (row : StoredSubmission) (status : TransactionStatus) : Option Delivery :=
  if row.callbackURL = [] then none
  else if !shouldDeliver row status then none
  else some ⟨row, status, .claim⟩

/-- `ListSubmissionsReadyForRetry` selects the row. -/
def readyForRetry (now : Int64) (row : StoredSubmission) : Bool :=
  0 < row.retryCount && 0 < row.nextRetry && row.nextRetry ≤ now

/-- `reapOnce` on the submission: it is delivered again under the status of its last claim. -/
def reapOnce (now : Int64) (row : StoredSubmission) : Option Delivery :=
  if !readyForRetry now row then none
  else if row.callbackURL = [] then none
  else some ⟨row, { status := row.lastDeliveredStatus }, .claim⟩

end Arcade.Webhook
