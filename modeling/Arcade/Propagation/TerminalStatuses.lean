import Arcade.Propagation.FailureLines
import Arcade.Propagation.Settled

/-!
`applyTerminalStatuses`: one store write for the verdicts of a batch, the
notification of the dispatchers, and `persistCascade` for the descendants that
the notifications terminalized. Every store call may fail, a notification may
go unsent or unanswered when the context is canceled, and other goroutines may
drive a dispatcher between two notifications. An offset is marked done when a
notification is processed, the rows of the cascaded descendants are written
later, and nothing undoes the mark when that write fails.
-/

namespace Arcade.Propagation

open Lib List

/-! ## Rows, reasons and calls -/

/-- The fields of `models.TransactionStatus` that the batch path reads. -/
structure TransactionStatus where
  txid : String
  status : Status
  timestamp : Int
  extraInfo : String := ""
  deriving DecidableEq

/-- The calls with an effect outside the dispatcher, in the order made. `ok` is
false when the call returned an error. -/
inductive Call where
  | batchUpdateStatusReturning (rows : List TransactionStatus) (ok : Bool)
  | bumpRetryCount (txid : String)
  | clearRetryState (txid : String) (status : Status) (reason : String) (ok : Bool)
  | setPendingRetryFields (txid : String) (rawTx : List UInt8) (reason : String) (ok : Bool)
  | publishBulkStatus (status : Status) (txids : List String)
  | publishRejections (rows : List TransactionStatus)
  deriving DecidableEq

/-- The call is a store write that returned without error and carries a
terminal or PENDING_RETRY status of `txid`. -/
def Call.Carries (txid : String) : Call → Prop
  | .batchUpdateStatusReturning rows ok =>
    ok ∧ ∃ row ∈ rows, row.txid = txid ∧ row.status.settles
  | .clearRetryState id status _ ok => ok ∧ id = txid ∧ status.settles
  | .setPendingRetryFields id _ _ ok => ok ∧ id = txid
  | _ => False

structure CascadeRejection where
  txid : String
  rawTx : List UInt8
  ancestor : String
  deriving DecidableEq

def cascadeReason (status : Status) (ancestor : String) : String :=
  if status = .pendingRetry then
    "parent parked for durable retry (ancestor " ++ ancestor ++
      "): retryable — the ancestor got no network verdict; both are rebroadcast by the reaper"
  else
    "parent rejected (ancestor " ++ ancestor ++
      "): retryable — resubmit after the ancestor is accepted"

def giveUpReason (maxAttempts : Nat) (lastReason : String) : String :=
  let start := "no network verdict after " ++ toString maxAttempts ++
    " durable retry attempts: giving up"
  if lastReason = "" then start ++ " — no peer ever answered for this transaction"
  else if lineIsMissingParentCondition lastReason.toList then
    start ++ " — a parent this transaction spends has never reached the network; " ++
      "last network response: " ++ lastReason
  else start ++ "; last network response: " ++ lastReason

/-! ## Notifying the dispatchers -/

/-- What becomes of one notification: the dispatcher answered, or the context
was canceled before the event was sent, or after it was sent and before the
answer was read. -/
inductive Outcome where
  | answered | unsent | unanswered
  deriving DecidableEq

/-- One notification of a dispatcher: what other goroutines sent it before, the
order in which it ranges over its maps, and what becomes of the notification. -/
structure Round where
  others : List Dispatcher.Event
  order : MapOrder String
  outcome : Outcome

/-- A notification that a dispatcher processed: the dispatcher as it found it, and
whether the reply was read. -/
structure Notice where
  dispatcher : Dispatcher
  order : MapOrder String
  txid : String
  status : Status
  answered : Bool

namespace Notice

def result (n : Notice) : Dispatcher × List CascadedTx :=
  n.dispatcher.handleTerminal n.order n.txid n.status

/-- The transactions whose offset it marked done: those that it took out of flight. -/
def marks (n : Notice) : List String :=
  n.dispatcher.inFlight.keys.filter fun t => t ∉ n.result.1.inFlight

end Notice

/-- A dispatcher that notifications go to, the rounds still to come, and the
notifications processed so far. When the rounds are used up, notifications are
answered and nothing comes between. -/
structure Target where
  dispatcher : Dispatcher
  rounds : List Round
  notices : List Notice

namespace Target

def nextRound (t : Target) : Round := t.rounds.headD ⟨[], .stored String, .answered⟩

/-- The notification, as the dispatcher meets it in the next round. -/
def notice (t : Target) (txid : String) (status : Status) : Notice where
  dispatcher := run Dispatcher.step t.dispatcher t.nextRound.others
  order := t.nextRound.order
  txid
  status
  answered := t.nextRound.outcome = .answered

/-- The dispatcher processes the event. -/
def process (t : Target) (txid : String) (status : Status) : Target × List CascadedTx :=
  (⟨(t.notice txid status).result.1, t.rounds.tail, t.notices ++ [t.notice txid status]⟩,
    (t.notice txid status).result.2)

/-- The result is `none` when the context was canceled before a reply was
obtained. -/
def notifyTerminalToOne (t : Target) (txid : String) (status : Status) :
    Target × Option (List CascadedTx) :=
  match t.nextRound.outcome with
  | .answered => ((t.process txid status).1, some (t.process txid status).2)
  | .unanswered => ((t.process txid status).1, none)
  | .unsent =>
    ({ t with
      dispatcher := run Dispatcher.step t.dispatcher t.nextRound.others
      rounds := t.rounds.tail }, none)

/-- The fan-out stops at the first target that gives no reply. -/
def notifyTerminalToDispatcher (targets : List Target) (txid : String) (status : Status) :
    List Target × List CascadedTx :=
  match targets with
  | [] => ([], [])
  | t :: ts =>
    match t.notifyTerminalToOne txid status with
    | (t', none) => (t' :: ts, [])
    | (t', some cascaded) =>
      let (ts', more) := notifyTerminalToDispatcher ts txid status
      (t' :: ts', cascaded ++ more)

/-- The notification loop of `applyTerminalStatuses` for one status. -/
def notifyAll (targets : List Target) (status : Status) :
    List String → List Target × List CascadeRejection
  | [] => (targets, [])
  | txid :: rest =>
    let (targets, cascaded) := notifyTerminalToDispatcher targets txid status
    let (targets, more) := notifyAll targets status rest
    (targets, cascaded.map (fun child => ⟨child.txid, child.rawTx, txid⟩) ++ more)

end Target

/-! ## The store -/

/-- The store's answers to `schedulePendingRetry` for one transaction: the new
retry count, `none` on an error, and whether the write that follows succeeds. -/
structure RetryReply where
  count : Option Nat
  ok : Bool

/-- The store's answers to one call of `applyTerminalStatuses`: the previous
status of every row of the batch and whether the write returned without error,
the same for the two cascades, and the retry calls of a parked transaction. -/
structure StoreReplies where
  prevs : List (Option Status)
  batchOk : Bool
  rejectOk : Bool
  parkOk : Bool
  retry : String → RetryReply

/-- The answers to the retry calls of a cascade, in its order. -/
def StoreReplies.retries (store : StoreReplies) (cascaded : List CascadeRejection) (i : Nat) :
    RetryReply :=
  store.retry ((cascaded[i]?).elim "" (·.txid))

section

variable (pendingRetryMaxAttempts : Nat) (now : Int)

def schedulePendingRetry (reply : RetryReply) (txid : String) (rawTx : List UInt8)
    (lastReason : String) : List Call :=
  if rawTx.length = 0 then []
  else match reply.count with
    | none => [.bumpRetryCount txid]
    | some count =>
      if count > pendingRetryMaxAttempts then
        let reason := giveUpReason pendingRetryMaxAttempts lastReason
        .bumpRetryCount txid :: .clearRetryState txid .rejected reason reply.ok ::
          if reply.ok then [.publishRejections [⟨txid, .rejected, 0, reason⟩]] else []
      else [.bumpRetryCount txid, .setPendingRetryFields txid rawTx lastReason reply.ok]

/-- The loop of `persistCascade` over a parked cascade; `i` counts the calls. -/
def scheduleAll (retry : Nat → RetryReply) (i : Nat) : List CascadeRejection → List Call
  | [] => []
  | cr :: rest =>
    schedulePendingRetry pendingRetryMaxAttempts (retry i) cr.txid cr.rawTx
      (cascadeReason .pendingRetry cr.ancestor) ++ scheduleAll retry (i + 1) rest

def cascadeRows (cascaded : List CascadeRejection) (status : Status) : List TransactionStatus :=
  cascaded.map fun cr => ⟨cr.txid, status, now, cascadeReason status cr.ancestor⟩

def persistCascade (ok : Bool) (retry : Nat → RetryReply) (cascaded : List CascadeRejection)
    (status : Status) : List Call :=
  .batchUpdateStatusReturning (cascadeRows now cascaded status) ok ::
    (if status = .pendingRetry then scheduleAll pendingRetryMaxAttempts retry 0 cascaded
      else []) ++
    (if status = .rejected then [.publishRejections (cascadeRows now cascaded status)]
      else [.publishBulkStatus status (cascaded.map (·.txid))])

/-- The rows of `status` whose stored status really changed. -/
def published (status : Status) : List TransactionStatus → List (Option Status) →
    List TransactionStatus
  | [], _ => []
  | _ :: _, [] => []
  | st :: rest, prev :: prevs =>
    match prev with
    | none => published status rest prevs
    | some before =>
      if before ≠ st.status ∧ st.status = status then st :: published status rest prevs
      else published status rest prevs

/-- The transactions of the batch that the dispatchers are told of. -/
def terminals (statuses : List TransactionStatus) (status : Status) : List String :=
  (statuses.filter fun st => st.status = status).map (·.txid)

/-- The effects of one call: the dispatchers it leaves and the calls it makes. -/
structure Applied where
  targets : List Target
  calls : List Call
  rejectCascaded : List CascadeRejection
  parkCascaded : List CascadeRejection

def applyTerminalStatuses (store : StoreReplies) (statuses : List TransactionStatus)
    (dispatchers : List (Dispatcher × List Round)) : Applied :=
  let targets := dispatchers.map fun x => ⟨x.1, x.2, []⟩
  if statuses.length = 0 then ⟨targets, [], [], []⟩
  else
    let calls := [.batchUpdateStatusReturning statuses store.batchOk,
      .publishBulkStatus .acceptedByNetwork
        ((published .acceptedByNetwork statuses store.prevs).map (·.txid)),
      .publishRejections (published .rejected statuses store.prevs),
      .publishBulkStatus .pendingRetry
        ((published .pendingRetry statuses store.prevs).map (·.txid))]
    -- On an error it is unknown which rows persisted, so no dispatcher is told.
    if !store.batchOk then ⟨targets, calls, [], []⟩
    else
      let (targets, _) := Target.notifyAll targets .acceptedByNetwork
        (terminals statuses .acceptedByNetwork)
      let (targets, rejected) := Target.notifyAll targets .rejected (terminals statuses .rejected)
      let (targets, parked) := Target.notifyAll targets .pendingRetry
        (terminals statuses .pendingRetry)
      ⟨targets, calls ++
        (if rejected.length > 0 then
          persistCascade pendingRetryMaxAttempts now store.rejectOk (store.retries rejected) rejected
            .rejected
        else []) ++
        (if parked.length > 0 then
          persistCascade pendingRetryMaxAttempts now store.parkOk (store.retries parked) parked
            .pendingRetry
        else []), rejected, parked⟩

end

/-! ## What a notification does -/

/-- `c` waits on `p`, directly or through transactions that are not among the accepted. -/
def Dispatcher.HeldBehind (d : Dispatcher) (accepted : List String) (p c : String) : Prop :=
  Relation.TransGen (fun p c => Waits d.waiters p c ∧ p ∉ accepted) p c

/-- The event ends the descendants of its transaction too. -/
def Status.cascades : Status → Bool
  | .rejected | .pendingRetry => true
  | _ => false

namespace Dispatcher

variable {d : Dispatcher} {order : MapOrder String} {txid c : String} {status : Status}

theorem heldBehind_nil {p : String} : d.HeldBehind [] p c ↔
    Relation.TransGen (Waits d.waiters) p c := by
  simp [HeldBehind]

theorem handleTerminal_cascades (hs : status.cascades = true) :
    d.handleTerminal order txid status = cascadeReject order (d.settle txid) txid := by
  cases status <;> first | rfl | cases hs

theorem inCascade_handleTerminal (order : MapOrder String) :
    InCascade (d.handleTerminal order txid status).2 c ↔
      status.cascades = true ∧ d.HeldBehind [] txid c := by
  by_cases hs : status.cascades = true
  · rw [handleTerminal_cascades hs, heldBehind_nil,
      (reaching_cascadeReject order (d.settle txid) txid).inCascade_iff]
    simp [hs]
  · have hnone : (d.handleTerminal order txid status).2 = [] := by
      cases status <;> first | rfl | exact absurd rfl hs
    simp [hnone, InCascade, hs]

theorem mem_inFlight_handleTerminal (hs : status.settles = true) :
    c ∈ (d.handleTerminal order txid status).1.inFlight ↔ c ∈ d.inFlight ∧ c ≠ txid ∧
      ¬(status.cascades = true ∧ d.HeldBehind [] txid c) := by
  by_cases hc : status.cascades = true
  · have hr := (reaching_cascadeReject order (d.settle txid) txid).result
    rw [← inCascade_handleTerminal order, handleTerminal_cascades hc]
    simp only [GoMap.mem_iff_lookup, hr.inFlight, settle_inFlight, GoMap.lookup_erase_eq]
    by_cases hx : c = txid <;> simp [hx]
  · have haccepted : status = .acceptedByNetwork := by
      cases status <;> first | rfl | exact absurd rfl hc | cases hs
    subst haccepted
    obtain ⟨visited, -, hr⟩ := released_releaseWaiters order (d.settle txid) txid
    change c ∈ (releaseWaiters order (d.settle txid) txid).inFlight ↔ _
    rw [hr.inFlight]
    simp [Status.cascades, AList.mem_erase, and_comm]

end Dispatcher

theorem Notice.mem_marks {n : Notice} {c : String} (hs : n.status.settles = true) :
    c ∈ n.marks ↔ c ∈ n.dispatcher.inFlight ∧
      (c = n.txid ∨ n.status.cascades = true ∧ n.dispatcher.HeldBehind [] n.txid c) := by
  rw [marks, mem_filter, decide_eq_true_eq, ← AList.mem_keys, result,
    Dispatcher.mem_inFlight_handleTerminal hs]
  tauto

namespace Notice

variable {n : Notice} {x : CascadedTx} {c : String}

theorem held_of_result (n : Notice) (hx : x ∈ n.result.2) :
    n.dispatcher.HeldBehind [] n.txid x.txid :=
  ((Dispatcher.inCascade_handleTerminal n.order).mp ⟨x, hx, rfl⟩).2

theorem raw_of_result (n : Notice) (hx : x ∈ n.result.2) (hne : x.rawTx ≠ []) :
    Dispatcher.heldRawTx n.dispatcher.heldMsgs x.txid ≠ [] := by
  have hs := ((Dispatcher.inCascade_handleTerminal n.order).mp ⟨x, hx, rfl⟩).1
  rw [result, Dispatcher.handleTerminal_cascades hs] at hx
  have hraw := (Dispatcher.reaching_cascadeReject n.order _ n.txid).raw x hx
  rw [hraw.resolve_right hne] at hne
  exact hne

theorem result_of_held (n : Notice) (hs : n.status.cascades = true)
    (h : n.dispatcher.HeldBehind [] n.txid c) :
    ⟨c, Dispatcher.heldRawTx n.dispatcher.heldMsgs c⟩ ∈ n.result.2 := by
  have hin : Dispatcher.InCascade n.result.2 c :=
    (Dispatcher.inCascade_handleTerminal n.order).mpr ⟨hs, h⟩
  rw [result, Dispatcher.handleTerminal_cascades hs] at hin ⊢
  exact (Dispatcher.reaching_cascadeReject n.order _ n.txid).first c hin

end Notice

/-! ## What the notification loops do -/

namespace Target

def allNotices (targets : List Target) : List Notice := targets.flatMap (·.notices)

theorem mem_allNotices_cons {t : Target} {ts : List Target} {n : Notice} :
    n ∈ allNotices (t :: ts) ↔ n ∈ t.notices ∨ n ∈ allNotices ts := by
  simp [allNotices]

/-- A part of the fan-out: the notifications that it added, and the descendants it collected. -/
structure Told (before after : List Target) (status : Status) (txids : List String)
    (collected : List CascadeRejection) (new : List Notice) : Prop where
  notices : ∀ n, n ∈ allNotices after ↔ n ∈ allNotices before ∨ n ∈ new
  about : ∀ n ∈ new, n.status = status ∧ n.txid ∈ txids
  collected : ∀ cr, cr ∈ collected ↔ ∃ n ∈ new, n.answered = true ∧ ∃ x ∈ n.result.2,
    cr = ⟨x.txid, x.rawTx, n.txid⟩

variable {t : Target} {targets : List Target} {txid : String} {status : Status}

theorem told_one (t : Target) (txid : String) (status : Status) :
    ∃ new, Told [t] [(t.notifyTerminalToOne txid status).1] status [txid]
      (((t.notifyTerminalToOne txid status).2.getD []).map fun x => ⟨x.txid, x.rawTx, txid⟩) new := by
  unfold notifyTerminalToOne
  cases ho : t.nextRound.outcome with
  | answered =>
    have hread : (t.notice txid status).answered = true := by simp [notice, ho]
    refine ⟨[t.notice txid status], by simp [allNotices, process], by simp [notice], fun cr => ?_⟩
    simp only [Option.getD_some, mem_map, mem_singleton, exists_eq_left]
    constructor
    · rintro ⟨x, hx, rfl⟩
      exact ⟨hread, x, hx, rfl⟩
    · rintro ⟨-, x, hx, rfl⟩
      exact ⟨x, hx, rfl⟩
  | unanswered =>
    exact ⟨[t.notice txid status], by simp [allNotices, process], by simp [notice],
      by simp [notice, ho]⟩
  | unsent => exact ⟨[], by simp [allNotices], by simp, by simp⟩

theorem told_dispatchers (targets : List Target) (txid : String) (status : Status) :
    ∃ new, Told targets (notifyTerminalToDispatcher targets txid status).1 status [txid]
      ((notifyTerminalToDispatcher targets txid status).2.map fun x => ⟨x.txid, x.rawTx, txid⟩)
      new := by
  induction targets with
  | nil => exact ⟨[], by simp [notifyTerminalToDispatcher], by simp,
      by simp [notifyTerminalToDispatcher]⟩
  | cons t ts ih =>
    obtain ⟨new, hone⟩ := told_one t txid status
    obtain ⟨more, hrest⟩ := ih
    have hnotices : ∀ n, n ∈ (t.notifyTerminalToOne txid status).1.notices ↔
        n ∈ t.notices ∨ n ∈ new := fun n => by simpa [allNotices] using hone.notices n
    unfold notifyTerminalToDispatcher
    cases hr : t.notifyTerminalToOne txid status with
    | mk t' reply =>
      rw [hr] at hone hnotices
      cases reply with
      | none =>
        refine ⟨new, fun n => ?_, hone.about, hone.collected⟩
        rw [mem_allNotices_cons, mem_allNotices_cons, hnotices, or_right_comm]
      | some cascaded =>
        refine ⟨new ++ more, fun n => ?_, fun n hn => ?_, fun cr => ?_⟩
        · rw [mem_allNotices_cons, mem_allNotices_cons, hnotices, hrest.notices, mem_append,
            or_or_or_comm]
        · exact (mem_append.mp hn).elim (hone.about n) (hrest.about n)
        · simp only [map_append, mem_append, hrest.collected, or_and_right, exists_or]
          rw [← hone.collected, Option.getD_some]

theorem told_all (targets : List Target) (status : Status) (txids : List String) :
    ∃ new, Told targets (notifyAll targets status txids).1 status txids
      (notifyAll targets status txids).2 new := by
  induction txids generalizing targets with
  | nil => exact ⟨[], by simp [notifyAll], by simp, by simp [notifyAll]⟩
  | cons txid rest ih =>
    obtain ⟨new, hone⟩ := told_dispatchers targets txid status
    obtain ⟨more, hrest⟩ := ih (notifyTerminalToDispatcher targets txid status).1
    refine ⟨new ++ more, fun n => ?_, fun n hn => ?_, fun cr => ?_⟩
    · change n ∈ allNotices (notifyAll (notifyTerminalToDispatcher targets txid status).1
        status rest).1 ↔ _
      rw [hrest.notices, hone.notices, mem_append, or_assoc]
    · rcases mem_append.mp hn with hn | hn
      · obtain ⟨hs, ht⟩ := hone.about n hn
        exact ⟨hs, mem_cons.mpr (.inl (mem_singleton.mp ht))⟩
      · exact (hrest.about n hn).imp_right (mem_cons_of_mem _)
    · simp only [notifyAll, mem_append, hrest.collected, hone.collected, or_and_right, exists_or]

end Target

/-! ## The coupling -/

namespace Applied

def notices (a : Applied) : List Notice := Target.allNotices a.targets

/-- Whatever is marked done is carried by a store write that returned without
error. -/
def Coupled (a : Applied) : Prop :=
  ∀ n ∈ a.notices, ∀ txid ∈ n.marks, ∃ c ∈ a.calls, c.Carries txid

end Applied

/-- The batch has a row with a terminal or PENDING_RETRY status for `txid`. -/
def InBatch (statuses : List TransactionStatus) (txid : String) : Prop :=
  ∃ st ∈ statuses, st.txid = txid ∧ st.status.settles

/-- The retry calls for a parked descendant go through. -/
def Rescheduled (store : StoreReplies) (d : Dispatcher) (txid : String) : Prop :=
  Dispatcher.heldRawTx d.heldMsgs txid ≠ [] ∧ (store.retry txid).count.isSome ∧ (store.retry txid).ok

variable (maxAttempts : Nat)

theorem carries_schedulePendingRetry (reply : RetryReply) (id : String)
    (rawTx : List UInt8) (reason txid : String) :
    (∃ c ∈ schedulePendingRetry maxAttempts reply id rawTx reason, c.Carries txid) ↔
      id = txid ∧ rawTx.length ≠ 0 ∧ reply.count.isSome ∧ reply.ok := by
  unfold schedulePendingRetry
  by_cases hraw : rawTx.length = 0
  · simp [hraw]
  · cases hc : reply.count with
    | none => simp [Call.Carries]
    | some count =>
      by_cases hmax : count > maxAttempts
      · cases hok : reply.ok with
        | false => simp [hraw, hmax, Call.Carries]
        | true => simp [hraw, hmax, Call.Carries, Status.settles]
      · cases hok : reply.ok <;> simp [hraw, hmax, Call.Carries]

theorem carries_scheduleAll (retry : Nat → RetryReply) (i : Nat)
    (cascaded : List CascadeRejection) (txid : String) :
    (∃ c ∈ scheduleAll maxAttempts retry i cascaded, c.Carries txid) ↔
      ∃ j cr, cascaded[j]? = some cr ∧ cr.txid = txid ∧ cr.rawTx.length ≠ 0 ∧
        (retry (i + j)).count.isSome ∧ (retry (i + j)).ok := by
  induction cascaded generalizing i with
  | nil => simp [scheduleAll]
  | cons cr rest ih =>
    have hhead := carries_schedulePendingRetry maxAttempts (retry i) cr.txid cr.rawTx
      (cascadeReason .pendingRetry cr.ancestor) txid
    simp only [scheduleAll, mem_append, or_and_right, exists_or]
    rw [hhead, ih]
    constructor
    · rintro (⟨ht, hr⟩ | ⟨j, cr', hj, ht, hr⟩)
      · exact ⟨0, cr, rfl, ht, hr⟩
      · refine ⟨j + 1, cr', hj, ht, ?_⟩
        rw [show i + (j + 1) = i + 1 + j by omega]
        exact hr
    · rintro ⟨j, cr', hj, ht, hr⟩
      cases j with
      | zero =>
        obtain rfl : cr = cr' := by simpa using hj
        exact .inl ⟨ht, hr⟩
      | succ j =>
        refine .inr ⟨j, cr', by simpa using hj, ht, ?_⟩
        rw [show i + 1 + j = i + (j + 1) by omega]
        exact hr

/-- The replies go by transaction, so it does not matter which call of the cascade got through. -/
theorem carries_retries (store : StoreReplies) (cascaded : List CascadeRejection) (txid : String) :
    (∃ c ∈ scheduleAll maxAttempts (store.retries cascaded) 0 cascaded, c.Carries txid) ↔
      (∃ cr ∈ cascaded, cr.txid = txid ∧ cr.rawTx ≠ []) ∧ (store.retry txid).count.isSome ∧
        (store.retry txid).ok := by
  rw [carries_scheduleAll]
  constructor
  · rintro ⟨j, cr, hj, rfl, hraw, hreply⟩
    rw [Nat.zero_add, StoreReplies.retries, hj, Option.elim_some] at hreply
    exact ⟨⟨cr, mem_of_getElem? hj, rfl, fun h => hraw (by simp [h])⟩, hreply⟩
  · rintro ⟨⟨cr, hcr, rfl, hraw⟩, hreply⟩
    obtain ⟨j, hj⟩ := mem_iff_getElem?.mp hcr
    refine ⟨j, cr, hj, rfl, by simpa using hraw, ?_⟩
    rwa [Nat.zero_add, StoreReplies.retries, hj, Option.elim_some]

theorem carries_cascadeRows (now : Int) (cascaded : List CascadeRejection) (status : Status)
    (hs : status.settles) (ok : Bool) (txid : String) :
    (Call.batchUpdateStatusReturning (cascadeRows now cascaded status) ok).Carries txid ↔
      ok ∧ ∃ cr ∈ cascaded, cr.txid = txid := by
  simp only [Call.Carries, cascadeRows, mem_map]
  apply and_congr_right
  intro _
  constructor
  · rintro ⟨_, ⟨cr, hcr, rfl⟩, ht, -⟩
    exact ⟨cr, hcr, ht⟩
  · rintro ⟨cr, hcr, ht⟩
    exact ⟨_, ⟨cr, hcr, rfl⟩, ht, hs⟩

section

variable (now : Int) (ok : Bool) (cascaded : List CascadeRejection) (txid : String)

theorem carries_persistCascade_rejected (retry : Nat → RetryReply) :
    (∃ c ∈ if cascaded.length > 0 then
        persistCascade maxAttempts now ok retry cascaded .rejected else [],
      c.Carries txid) ↔ ok ∧ ∃ cr ∈ cascaded, cr.txid = txid := by
  by_cases hl : cascaded.length > 0
  · have hrows := carries_cascadeRows now cascaded .rejected rfl ok txid
    simp only [hl, ↓reduceIte, persistCascade, reduceCtorEq, cons_append, nil_append,
      mem_cons, not_mem_nil, or_false, exists_eq_or_imp, exists_eq_left]
    rw [hrows]
    simp [Call.Carries]
  · have hnil : cascaded = [] := eq_nil_of_length_eq_zero (by omega)
    simp [hnil]

theorem carries_persistCascade_pendingRetry (store : StoreReplies) :
    (∃ c ∈ if cascaded.length > 0 then
        persistCascade maxAttempts now ok (store.retries cascaded) cascaded .pendingRetry else [],
      c.Carries txid) ↔ (ok ∧ ∃ cr ∈ cascaded, cr.txid = txid) ∨
        (∃ cr ∈ cascaded, cr.txid = txid ∧ cr.rawTx ≠ []) ∧ (store.retry txid).count.isSome ∧
          (store.retry txid).ok := by
  by_cases hl : cascaded.length > 0
  · have hrows := carries_cascadeRows now cascaded .pendingRetry rfl ok txid
    have hretry := carries_retries maxAttempts store cascaded txid
    simp only [hl, ↓reduceIte, persistCascade, reduceCtorEq, cons_append, mem_cons,
      mem_append, not_mem_nil, or_false, or_and_right, exists_or, exists_eq_left]
    rw [hrows, hretry]
    simp [Call.Carries]
  · have hnil : cascaded = [] := eq_nil_of_length_eq_zero (by omega)
    simp [hnil]

end

/-- Some notification of the call that was answered finds `txid` held behind its transaction, and
the cascade write that follows goes through. -/
def Written (store : StoreReplies) (notices : List Notice) (txid : String) : Prop :=
  ∃ n ∈ notices, n.answered = true ∧ n.dispatcher.HeldBehind [] n.txid txid ∧
    (n.status = .rejected ∧ store.rejectOk = true ∨
      n.status = .pendingRetry ∧ (store.parkOk = true ∨ Rescheduled store n.dispatcher txid))

/-- The lists that a call collects come from the notifications that were answered. -/
structure FromNotices (statuses : List TransactionStatus) (a : Applied) : Prop where
  inBatch : ∀ n ∈ a.notices, n.status.settles = true ∧ InBatch statuses n.txid
  rejected : ∀ cr, cr ∈ a.rejectCascaded ↔ ∃ n ∈ a.notices, n.status = .rejected ∧
    n.answered = true ∧ ∃ x ∈ n.result.2, cr = ⟨x.txid, x.rawTx, n.txid⟩
  parked : ∀ cr, cr ∈ a.parkCascaded ↔ ∃ n ∈ a.notices, n.status = .pendingRetry ∧
    n.answered = true ∧ ∃ x ∈ n.result.2, cr = ⟨x.txid, x.rawTx, n.txid⟩

variable (now : Int) (store : StoreReplies) (statuses : List TransactionStatus)
  (dispatchers : List (Dispatcher × List Round))

theorem inBatch_of_terminals {status : Status} (hs : status.settles = true) {txid : String}
    (h : txid ∈ terminals statuses status) : InBatch statuses txid := by
  obtain ⟨st, hst, rfl⟩ := mem_map.mp h
  obtain ⟨hst, hstatus⟩ := mem_filter.mp hst
  exact ⟨st, hst, rfl, by rw [of_decide_eq_true hstatus]; exact hs⟩

theorem Target.Told.inBatch {before after : List Target} {status : Status}
    {collected : List CascadeRejection} {new : List Notice} {n : Notice}
    (h : Told before after status (terminals statuses status) collected new)
    (hs : status.settles = true) (hn : n ∈ new) :
    n.status.settles = true ∧ InBatch statuses n.txid := by
  obtain ⟨rfl, ht⟩ := h.about n hn
  exact ⟨hs, inBatch_of_terminals statuses hs ht⟩

theorem fromNotices :
    FromNotices statuses (applyTerminalStatuses maxAttempts now store statuses dispatchers) := by
  have hstart : ∀ n, n ∉ Target.allNotices (dispatchers.map fun x => (⟨x.1, x.2, []⟩ : Target)) := by
    simp [Target.allNotices]
  unfold applyTerminalStatuses
  by_cases hlen : statuses.length = 0
  · simp only [hlen, ↓reduceIte]
    exact ⟨fun n hn => absurd hn (hstart n), by simp [Applied.notices, hstart],
      by simp [Applied.notices, hstart]⟩
  by_cases hok : store.batchOk = true
  · simp only [hlen, hok, ↓reduceIte, Bool.not_true, Bool.false_eq_true]
    obtain ⟨newA, hA⟩ := Target.told_all (dispatchers.map fun x => (⟨x.1, x.2, []⟩ : Target))
      .acceptedByNetwork (terminals statuses .acceptedByNetwork)
    generalize Target.notifyAll _ .acceptedByNetwork _ = toldA at hA ⊢
    obtain ⟨newR, hR⟩ := Target.told_all toldA.1 .rejected (terminals statuses .rejected)
    generalize Target.notifyAll _ .rejected _ = toldR at hR ⊢
    obtain ⟨newP, hP⟩ := Target.told_all toldR.1 .pendingRetry (terminals statuses .pendingRetry)
    generalize Target.notifyAll _ .pendingRetry _ = toldP at hP ⊢
    have hall : ∀ n, n ∈ Target.allNotices toldP.1 ↔ n ∈ newA ∨ n ∈ newR ∨ n ∈ newP := by
      intro n
      rw [hP.notices, hR.notices, hA.notices, or_assoc, or_assoc, or_iff_right (hstart n)]
    -- each status was told of in its own pass
    have hrejected : ∀ n, n ∈ newR ↔ n ∈ Target.allNotices toldP.1 ∧ n.status = .rejected := by
      grind [hA.about, hR.about, hP.about]
    have hparked : ∀ n, n ∈ newP ↔ n ∈ Target.allNotices toldP.1 ∧ n.status = .pendingRetry := by
      grind [hA.about, hR.about, hP.about]
    refine ⟨fun n hn => ?_, fun cr => ?_, fun cr => ?_⟩
    · rcases (hall n).mp hn with h | h | h
      · exact hA.inBatch _ rfl h
      · exact hR.inBatch _ rfl h
      · exact hP.inBatch _ rfl h
    · simp only [hR.collected, hrejected, Applied.notices, and_assoc]
    · simp only [hP.collected, hparked, Applied.notices, and_assoc]
  · simp only [hlen, hok, ↓reduceIte, Bool.not_false]
    exact ⟨fun n hn => absurd hn (hstart n), by simp [Applied.notices, hstart],
      by simp [Applied.notices, hstart]⟩

theorem notices_of_batch_failed (hok : store.batchOk = false) :
    (applyTerminalStatuses maxAttempts now store statuses dispatchers).notices = [] := by
  unfold applyTerminalStatuses
  split <;> simp [hok, Applied.notices, Target.allNotices, flatMap_map]

theorem carries_calls {a : Applied}
    (ha : applyTerminalStatuses maxAttempts now store statuses dispatchers = a) (hne : statuses ≠ [])
    (hok : store.batchOk = true) (txid : String) :
    (∃ c ∈ a.calls, c.Carries txid) ↔ InBatch statuses txid ∨
      (store.rejectOk ∧ ∃ cr ∈ a.rejectCascaded, cr.txid = txid) ∨
      ((store.parkOk ∧ ∃ cr ∈ a.parkCascaded, cr.txid = txid) ∨
        (∃ cr ∈ a.parkCascaded, cr.txid = txid ∧ cr.rawTx ≠ []) ∧
          (store.retry txid).count.isSome ∧ (store.retry txid).ok) := by
  have hlen : ¬statuses.length = 0 := fun hl => hne (eq_nil_of_length_eq_zero hl)
  subst ha
  unfold applyTerminalStatuses InBatch
  simp only [hlen, hok, ↓reduceIte, Bool.not_true, Bool.false_eq_true, mem_append, or_and_right,
    exists_or]
  rw [carries_persistCascade_rejected, carries_persistCascade_pendingRetry, or_assoc]
  apply or_congr_left
  simp [Call.Carries]

theorem carries_iff_written (hne : statuses ≠ []) (hok : store.batchOk = true) (txid : String) :
    (∃ c ∈ (applyTerminalStatuses maxAttempts now store statuses dispatchers).calls,
      c.Carries txid) ↔
    InBatch statuses txid ∨ Written store
      (applyTerminalStatuses maxAttempts now store statuses dispatchers).notices txid := by
  have F := fromNotices maxAttempts now store statuses dispatchers
  rw [carries_calls _ _ _ _ _ rfl hne hok]
  refine or_congr_right ?_
  generalize applyTerminalStatuses maxAttempts now store statuses dispatchers = a at F ⊢
  -- a collected descendant with nonempty bytes was held with these bytes
  have hraw : (∃ cr ∈ a.parkCascaded, cr.txid = txid ∧ cr.rawTx ≠ []) ↔ ∃ n ∈ a.notices,
      n.status = .pendingRetry ∧ n.answered = true ∧ n.dispatcher.HeldBehind [] n.txid txid ∧
        Dispatcher.heldRawTx n.dispatcher.heldMsgs txid ≠ [] := by
    constructor
    · rintro ⟨_, hcr, rfl, hne⟩
      obtain ⟨n, hn, hs, ha, x, hx, rfl⟩ := (F.parked _).mp hcr
      exact ⟨n, hn, hs, ha, n.held_of_result hx, n.raw_of_result hx hne⟩
    · rintro ⟨n, hn, hs, ha, hheld, hne⟩
      exact ⟨_, (F.parked _).mpr ⟨n, hn, hs, ha, _, n.result_of_held (by rw [hs]; rfl) hheld, rfl⟩,
        rfl, hne⟩
  have hcollected : ∀ (status : Status), status.cascades = true →
      ∀ (l : List CascadeRejection), (∀ cr, cr ∈ l ↔ ∃ n ∈ a.notices, n.status = status ∧
        n.answered = true ∧ ∃ x ∈ n.result.2, cr = ⟨x.txid, x.rawTx, n.txid⟩) →
      ((∃ cr ∈ l, cr.txid = txid) ↔ ∃ n ∈ a.notices, n.status = status ∧ n.answered = true ∧
        n.dispatcher.HeldBehind [] n.txid txid) := by
    intro status hs l hl
    constructor
    · rintro ⟨_, hcr, rfl⟩
      obtain ⟨n, hn, hs, ha, x, hx, rfl⟩ := (hl _).mp hcr
      exact ⟨n, hn, hs, ha, n.held_of_result hx⟩
    · rintro ⟨n, hn, rfl, ha, hheld⟩
      exact ⟨_, (hl _).mpr ⟨n, hn, rfl, ha, _, n.result_of_held hs hheld, rfl⟩, rfl⟩
  rw [hraw, hcollected .rejected rfl _ F.rejected, hcollected .pendingRetry rfl _ F.parked]
  constructor
  · rintro (⟨hw, n, hn, hs, ha, hh⟩ | ⟨hw, n, hn, hs, ha, hh⟩ | ⟨⟨n, hn, hs, ha, hh, hr⟩, hw⟩)
    · exact ⟨n, hn, ha, hh, .inl ⟨hs, hw⟩⟩
    · exact ⟨n, hn, ha, hh, .inr ⟨hs, .inl hw⟩⟩
    · exact ⟨n, hn, ha, hh, .inr ⟨hs, .inr ⟨hr, hw⟩⟩⟩
  · rintro ⟨n, hn, ha, hh, ⟨hs, hw⟩ | ⟨hs, hw | ⟨hr, hw⟩⟩⟩
    · exact .inl ⟨hw, n, hn, hs, ha, hh⟩
    · exact .inr (.inl ⟨hw, n, hn, hs, ha, hh⟩)
    · exact .inr (.inr ⟨⟨n, hn, hs, ha, hh, hr⟩, hw⟩)

/-- Everybody in flight outside the batch whom a notification finds held behind its own transaction
is written. -/
def NoticesWritten (notices : List Notice) : Prop :=
  ∀ n ∈ notices, n.status.cascades = true → ∀ txid ∈ n.dispatcher.inFlight,
    n.dispatcher.HeldBehind [] n.txid txid → ¬InBatch statuses txid → Written store notices txid

theorem coupled_iff_notices :
    (applyTerminalStatuses maxAttempts now store statuses dispatchers).Coupled ↔
      store.batchOk = false ∨ NoticesWritten store statuses
        (applyTerminalStatuses maxAttempts now store statuses dispatchers).notices := by
  have F := fromNotices maxAttempts now store statuses dispatchers
  have hcarry := carries_iff_written maxAttempts now store statuses dispatchers
  have hfailed := notices_of_batch_failed maxAttempts now store statuses dispatchers
  generalize applyTerminalStatuses maxAttempts now store statuses dispatchers = a at *
  cases hok : store.batchOk with
  | false => simp [Applied.Coupled, hfailed hok]
  | true =>
    have hcarry : ∀ n ∈ a.notices, ∀ txid, (∃ c ∈ a.calls, c.Carries txid) ↔
        InBatch statuses txid ∨ Written store a.notices txid := by
      intro n hn txid
      obtain ⟨st, hst, -⟩ := (F.inBatch n hn).2
      exact hcarry (ne_nil_of_mem hst) hok txid
    simp only [Bool.true_eq_false, false_or]
    constructor
    · intro hc n hn hcascades txid hin hheld hout
      have hmark := (Notice.mem_marks (F.inBatch n hn).1).mpr ⟨hin, .inr ⟨hcascades, hheld⟩⟩
      exact ((hcarry n hn txid).mp (hc n hn txid hmark)).resolve_left hout
    · intro h n hn txid hmark
      refine (hcarry n hn txid).mpr ?_
      obtain ⟨hin, rfl | ⟨hcascades, hheld⟩⟩ := (Notice.mem_marks (F.inBatch n hn).1).mp hmark
      -- the transaction of the notification is one of the batch
      · exact .inl (F.inBatch n hn).2
      · by_cases hout : InBatch statuses txid
        · exact .inl hout
        · exact .inr (h n hn hcascades txid hin hheld hout)

end Arcade.Propagation
