import Arcade.Propagation.Narrowing
import Arcade.Propagation.TerminalStatuses

/-!
The passes of a transaction through `processBatch` on one claim. A pass registers the
batch with the merkle-service, broadcasts what was registered and sorts the results;
what got no verdict is requeued on one of two budgets or parked.

The counters ride in the message. A registration that succeeds starts the merkle budget
over, so it bounds the failures in a row and not the failures of a claim.
-/

namespace Arcade.Propagation

open Lib List

/-! ## One pass -/

structure Budgets where
  retryMaxAttempts : Nat
  merkleRetryMaxAttempts : Nat

inductive RetryStage where
  | network | merkle
  deriving DecidableEq

/-- The error of a `/watch` call; `canceled` if it is `context.Canceled`. -/
structure WatchError where
  text : String
  canceled : Bool

/-- What a pass is told: the result of each registration, of each broadcast, and the rejected
ancestor the store knows, each by its place in the list it is about. -/
structure Replies where
  watch : Nat → Option WatchError
  results : Nat → TxResult
  ancestor : Nat → Option String

/-- The characters that fit in a number of bytes. -/
def clipBytes : Nat → List Char → List Char
  | _, [] => []
  | n, c :: cs => if c.utf8Size ≤ n then c :: clipBytes (n - c.utf8Size) cs else []

/-- `s[:240]` in bytes, without the torn part of a character that the cut goes through. -/
def clipRetryReason (s : String) : String := String.ofList (clipBytes 240 s.toList)

/-- The loop of `registerBatch` from place `i` on. -/
def registerLoop (watch : Nat → Option WatchError) :
    Nat → List PropagationMsg → List PropagationMsg × List PropagationMsg
  | _, [] => ([], [])
  | i, msg :: rest =>
    let (registered, failed) := registerLoop watch (i + 1) rest
    match watch i with
    | none => ({ msg with merkleRetryCount := 0, merkleFailureReason := "" } :: registered, failed)
    | some err => (registered, (if err.canceled then msg
        else { msg with merkleFailureReason := clipRetryReason err.text }) :: failed)

/-- The registered and the failed part; `enabled` unless there is no merkle client. -/
def registerBatch (enabled : Bool) (watch : Nat → Option WatchError) (batch : List PropagationMsg) :
    List PropagationMsg × List PropagationMsg :=
  if enabled then registerLoop watch 0 batch else (batch, [])

/-- `terminalStatuses`, the missing-parent lists and `toRequeue`. -/
structure Sorted where
  terminal : List TransactionStatus
  missingParents : List (PropagationMsg × Text)
  toRequeue : List PropagationMsg

/-- The loop of `processBatch` over the results from place `i` on. -/
def sortResults (results : Nat → TxResult) (now : Int) : Nat → List PropagationMsg → Sorted
  | _, [] => ⟨[], [], []⟩
  | i, msg :: rest =>
    let s := sortResults results now (i + 1) rest
    let errMsg := (results i).errMsg
    match (results i).cls with
    | .accepted =>
      { s with terminal := ⟨msg.txid, .acceptedByNetwork, now, ""⟩ :: s.terminal }
    | .rejected =>
      { s with terminal := ⟨msg.txid, .rejected, now, String.ofList errMsg⟩ :: s.terminal }
    | .missingParent => { s with missingParents := (msg, errMsg) :: s.missingParents }
    | .requeue =>
      { s with toRequeue := (if errMsg = [] then msg
          else { msg with retryReason := String.ofList errMsg }) :: s.toRequeue }

/-- The loop of `resolveMissingParents` from place `i` on. -/
def resolveMissingParents (ancestor : Nat → Option String) (now : Int) :
    Nat → List (PropagationMsg × Text) → List TransactionStatus × List PropagationMsg
  | _, [] => ([], [])
  | i, (msg, line) :: rest =>
    let (cascaded, requeue) := resolveMissingParents ancestor now (i + 1) rest
    match ancestor i with
    | some txid =>
      (⟨msg.txid, .rejected, now, cascadeReason .rejected txid⟩ :: cascaded, requeue)
    | none => (cascaded, { msg with retryReason := String.ofList line } :: requeue)

/-- Debit every message; those that may go round again, and those whose budget is spent. -/
def chargeBudget (debit : PropagationMsg → PropagationMsg) (count : PropagationMsg → Nat) (max : Nat)
    (msgs : List PropagationMsg) : List PropagationMsg × List PropagationMsg :=
  (msgs.map debit).partition fun m => count m ≤ max

def chargeRetryBudget (b : Budgets) :=
  chargeBudget (fun m => { m with retryCount := m.retryCount + 1 }) (·.retryCount) b.retryMaxAttempts

def chargeMerkleRetryBudget (b : Budgets) :=
  chargeBudget (fun m => { m with merkleRetryCount := m.merkleRetryCount + 1 })
    (·.merkleRetryCount) b.merkleRetryMaxAttempts

/-- The messages that go back to the dispatcher, and those that are parked. -/
def requeueAfterDelayStaged (b : Budgets) :
    RetryStage → List PropagationMsg → List PropagationMsg × List PropagationMsg
  | .network => chargeRetryBudget b
  | .merkle => chargeMerkleRetryBudget b

def merkleParkReason (b : Budgets) (m : PropagationMsg) : String :=
  let base := "merkle-service /watch failed after " ++ toString b.merkleRetryMaxAttempts ++
    " registration attempts: retryable — parked for durable rebroadcast by the propagation " ++
    "reaper; network propagation budget was not consumed"
  if m.merkleFailureReason = "" then base
  else base ++ "; last registration error: " ++ m.merkleFailureReason

def networkParkReason (b : Budgets) (m : PropagationMsg) : String :=
  let base := "no network verdict after " ++ toString b.retryMaxAttempts ++
    " propagation attempts: retryable — parked for durable rebroadcast by the propagation reaper"
  if m.retryReason = "" then base
  else if lineIsMissingParentCondition m.retryReason.toList then
    "parent not yet accepted by the network after " ++ toString b.retryMaxAttempts ++
      " propagation attempts: retryable — parked for durable rebroadcast by the propagation " ++
      "reaper; last error: " ++ m.retryReason
  else base ++ "; last network response: " ++ m.retryReason

/-- The rows of `parkExhaustedRequeues` and `parkExhaustedMerkleRegistrations`. -/
def parkRows (reason : PropagationMsg → String) (now : Int) (msgs : List PropagationMsg) :
    List TransactionStatus :=
  msgs.map fun m => ⟨m.txid, .pendingRetry, now, reason m⟩

/-- What a pass broadcasts, the verdicts it applies, what goes back to the dispatcher at
either stage, and what is parked. -/
structure Passed where
  broadcast : List PropagationMsg
  terminal : List TransactionStatus
  requeued : RetryStage → List PropagationMsg
  parked : RetryStage → List TransactionStatus

/-- `processBatch` while the claim is live. -/
def processBatch (b : Budgets) (enabled : Bool) (replies : Replies) (now : Int)
    (batch : List PropagationMsg) : Passed :=
  let (registered, failed) := registerBatch enabled replies.watch batch
  let merkle := requeueAfterDelayStaged b .merkle failed
  let s := sortResults replies.results now 0 registered
  let (cascaded, requeue) := resolveMissingParents replies.ancestor now 0 s.missingParents
  let network := requeueAfterDelayStaged b .network (s.toRequeue ++ requeue)
  { broadcast := registered
    terminal := s.terminal ++ cascaded
    requeued := fun
      | .network => network.1
      | .merkle => merkle.1
    parked := fun
      | .network => parkRows (networkParkReason b) now network.2
      | .merkle => parkRows (merkleParkReason b) now merkle.2 }

/-- What a pass has no verdict for, by the budget it is charged to. -/
def unsettled (enabled : Bool) (replies : Replies) (now : Int) (batch : List PropagationMsg) :
    RetryStage → List PropagationMsg
  | .network =>
    let s := sortResults replies.results now 0 (registerBatch enabled replies.watch batch).1
    s.toRequeue ++ (resolveMissingParents replies.ancestor now 0 s.missingParents).2
  | .merkle => (registerBatch enabled replies.watch batch).2

namespace RetryStage

def count : RetryStage → PropagationMsg → Nat
  | .network, m => m.retryCount
  | .merkle, m => m.merkleRetryCount

def debit : RetryStage → PropagationMsg → PropagationMsg
  | .network, m => { m with retryCount := m.retryCount + 1 }
  | .merkle, m => { m with merkleRetryCount := m.merkleRetryCount + 1 }

def budget (b : Budgets) : RetryStage → Nat
  | .network => b.retryMaxAttempts
  | .merkle => b.merkleRetryMaxAttempts

theorem txid_debit (stage : RetryStage) (m : PropagationMsg) : (stage.debit m).txid = m.txid := by
  cases stage <;> rfl

theorem count_debit (stage : RetryStage) (m : PropagationMsg) :
    stage.count (stage.debit m) = stage.count m + 1 := by
  cases stage <;> rfl

end RetryStage

theorem requeueAfterDelayStaged_eq (b : Budgets) (stage : RetryStage) :
    requeueAfterDelayStaged b stage = chargeBudget stage.debit stage.count (stage.budget b) := by
  cases stage <;> rfl

/-! ## Every message ends once -/

section Ends

/-- How many messages of a list are about the transaction. -/
def copies (txid : String) (msgs : List PropagationMsg) : Nat := (msgs.map (·.txid)).count txid

def rowsOf (txid : String) (rows : List TransactionStatus) : Nat := (rows.map (·.txid)).count txid

variable (txid : String) (watch : Nat → Option WatchError) (results : Nat → TxResult)
  (ancestor : Nat → Option String) (now : Int)

theorem copies_cons (m : PropagationMsg) (rest : List PropagationMsg) :
    copies txid (m :: rest) = copies txid rest + if m.txid = txid then 1 else 0 := by
  simp [copies, count_cons]

theorem rowsOf_cons (st : TransactionStatus) (rest : List TransactionStatus) :
    rowsOf txid (st :: rest) = rowsOf txid rest + if st.txid = txid then 1 else 0 := by
  simp [rowsOf, count_cons]

theorem copies_registerLoop (i : Nat) (batch : List PropagationMsg) :
    copies txid (registerLoop watch i batch).1 + copies txid (registerLoop watch i batch).2 =
      copies txid batch := by
  induction batch generalizing i with
  | nil => rfl
  | cons msg rest ih =>
    have hrest := ih (i + 1)
    rw [registerLoop, copies_cons]
    cases hw : watch i with
    | none =>
      simp only [copies_cons]
      omega
    | some err =>
      have hid : (if err.canceled = true then msg
          else { msg with merkleFailureReason := clipRetryReason err.text }).txid = msg.txid := by
        split <;> rfl
      simp only [copies_cons, hid]
      omega

theorem copies_registerBatch (enabled : Bool) (batch : List PropagationMsg) :
    copies txid (registerBatch enabled watch batch).1 +
      copies txid (registerBatch enabled watch batch).2 = copies txid batch := by
  unfold registerBatch
  split
  · exact copies_registerLoop txid watch 0 batch
  · simp [copies]

theorem copies_sortResults (i : Nat) (msgs : List PropagationMsg) :
    rowsOf txid (sortResults results now i msgs).terminal +
      copies txid ((sortResults results now i msgs).missingParents.map (·.1)) +
      copies txid (sortResults results now i msgs).toRequeue = copies txid msgs := by
  induction msgs generalizing i with
  | nil => rfl
  | cons msg rest ih =>
    have hrest := ih (i + 1)
    rw [sortResults, copies_cons]
    cases hc : (results i).cls with
    | accepted | rejected =>
      simp only [rowsOf_cons]
      omega
    | missingParent =>
      simp only [map_cons, copies_cons]
      omega
    | requeue =>
      have hid : (if (results i).errMsg = [] then msg
          else { msg with retryReason := String.ofList (results i).errMsg }).txid = msg.txid := by
        split <;> rfl
      simp only [copies_cons, hid]
      omega

theorem copies_resolveMissingParents (i : Nat) (msgs : List (PropagationMsg × Text)) :
    rowsOf txid (resolveMissingParents ancestor now i msgs).1 +
      copies txid (resolveMissingParents ancestor now i msgs).2 = copies txid (msgs.map (·.1)) := by
  induction msgs generalizing i with
  | nil => rfl
  | cons e rest ih =>
    obtain ⟨msg, line⟩ := e
    have hrest := ih (i + 1)
    rw [resolveMissingParents, map_cons, copies_cons]
    cases ancestor i with
    | some a =>
      simp only [rowsOf_cons]
      omega
    | none =>
      simp only [copies_cons]
      omega

theorem copies_requeueAfterDelayStaged (b : Budgets) (stage : RetryStage)
    (msgs : List PropagationMsg) :
    copies txid (requeueAfterDelayStaged b stage msgs).1 +
      copies txid (requeueAfterDelayStaged b stage msgs).2 = copies txid msgs := by
  have hperm := (filter_append_perm (fun m => decide (stage.count m ≤ stage.budget b))
    (msgs.map stage.debit)).map (·.txid)
  have hcount := hperm.count_eq txid
  simp only [map_append, count_append, map_map, Function.comp_def, stage.txid_debit] at hcount
  simpa only [copies, requeueAfterDelayStaged_eq, chargeBudget, partition_eq_filter_filter,
    Function.comp_def] using hcount

theorem copies_append (msgs msgs' : List PropagationMsg) :
    copies txid (msgs ++ msgs') = copies txid msgs + copies txid msgs' := by
  simp [copies]

theorem rowsOf_append (rows rows' : List TransactionStatus) :
    rowsOf txid (rows ++ rows') = rowsOf txid rows + rowsOf txid rows' := by
  simp [rowsOf]

theorem rowsOf_parkRows (reason : PropagationMsg → String) (msgs : List PropagationMsg) :
    rowsOf txid (parkRows reason now msgs) = copies txid msgs := by
  simp [rowsOf, parkRows, copies, Function.comp_def]

theorem copies_processBatch (b : Budgets) (enabled : Bool) (replies : Replies)
    (batch : List PropagationMsg) :
    rowsOf txid (processBatch b enabled replies now batch).terminal +
      copies txid ((processBatch b enabled replies now batch).requeued .network) +
      copies txid ((processBatch b enabled replies now batch).requeued .merkle) +
      rowsOf txid ((processBatch b enabled replies now batch).parked .network) +
      rowsOf txid ((processBatch b enabled replies now batch).parked .merkle) =
      copies txid batch := by
  have hregister := copies_registerBatch txid replies.watch enabled batch
  have hmerkle := copies_requeueAfterDelayStaged txid b .merkle
    (unsettled enabled replies now batch .merkle)
  have hsort := copies_sortResults txid replies.results now 0
    (registerBatch enabled replies.watch batch).1
  have hresolve := copies_resolveMissingParents txid replies.ancestor now 0
    (sortResults replies.results now 0 (registerBatch enabled replies.watch batch).1).missingParents
  have hnetwork := copies_requeueAfterDelayStaged txid b .network
    (unsettled enabled replies now batch .network)
  simp only [unsettled, copies_append] at hmerkle hnetwork
  simp only [processBatch, rowsOf_append, rowsOf_parkRows]
  omega

end Ends

/-! ## The counters of one message -/

section Counters

variable {watch : Nat → Option WatchError} {results : Nat → TxResult}
  {ancestor : Nat → Option String} {now : Int} {b : Budgets} {enabled : Bool} {replies : Replies}
  {batch msgs : List PropagationMsg} {m' : PropagationMsg} {stage : RetryStage}

/-- The message is a copy with both counters as they were. -/
structure SameCounts (m m' : PropagationMsg) : Prop where
  txid : m'.txid = m.txid
  network : m'.retryCount = m.retryCount
  merkle : m'.merkleRetryCount = m.merkleRetryCount

variable {st : TransactionStatus}

/-- A registration that succeeds clears the merkle counter and nothing else; one that fails leaves
both counters. -/
theorem mem_registerLoop (batch : List PropagationMsg) (i : Nat) :
    (∀ m' ∈ (registerLoop watch i batch).1, ∃ j m, batch[j]? = some m ∧ m'.txid = m.txid ∧
      m'.retryCount = m.retryCount ∧ m'.merkleRetryCount = 0 ∧ watch (i + j) = none) ∧
    ∀ m' ∈ (registerLoop watch i batch).2, ∃ m ∈ batch, SameCounts m m' := by
  induction batch generalizing i with
  | nil => exact ⟨nofun, nofun⟩
  | cons msg rest ih =>
    obtain ⟨hregistered, hfailed⟩ := ih (i + 1)
    have hlater : ∀ m' ∈ (registerLoop watch (i + 1) rest).1, ∃ j m, (msg :: rest)[j]? = some m ∧
        m'.txid = m.txid ∧ m'.retryCount = m.retryCount ∧ m'.merkleRetryCount = 0 ∧
        watch (i + j) = none := by
      intro m' hm'
      obtain ⟨j, m, hj, hid, hr, hz, hw⟩ := hregistered m' hm'
      exact ⟨j + 1, m, hj, hid, hr, hz, by rwa [show i + (j + 1) = i + 1 + j by omega]⟩
    have hkept : ∀ m' ∈ (registerLoop watch (i + 1) rest).2, ∃ m ∈ msg :: rest, SameCounts m m' :=
      fun m' hm' => exists_mem_cons_of_exists (hfailed m' hm')
    rw [registerLoop]
    cases hw : watch i with
    | none =>
      exact ⟨forall_mem_cons.mpr ⟨⟨0, msg, rfl, rfl, rfl, rfl, hw⟩, hlater⟩, hkept⟩
    | some err =>
      refine ⟨hlater, forall_mem_cons.mpr ⟨⟨msg, mem_cons_self, ?_⟩, hkept⟩⟩
      split <;> exact ⟨rfl, rfl, rfl⟩

theorem mem_sortResults (msgs : List PropagationMsg) (i : Nat) :
    (∀ st ∈ (sortResults results now i msgs).terminal,
      st.status = .acceptedByNetwork ∨ st.status = .rejected) ∧
    (∀ e ∈ (sortResults results now i msgs).missingParents, e.1 ∈ msgs) ∧
    ∀ m' ∈ (sortResults results now i msgs).toRequeue, ∃ m ∈ msgs, SameCounts m m' := by
  induction msgs generalizing i with
  | nil => exact ⟨nofun, nofun, nofun⟩
  | cons msg rest ih =>
    obtain ⟨hterminal, hmissing, hrequeue⟩ := ih (i + 1)
    have hmissing : ∀ e ∈ (sortResults results now (i + 1) rest).missingParents,
        e.1 ∈ msg :: rest := fun e he => mem_cons_of_mem _ (hmissing e he)
    have hrequeue : ∀ m' ∈ (sortResults results now (i + 1) rest).toRequeue,
        ∃ m ∈ msg :: rest, SameCounts m m' :=
      fun m' hm' => exists_mem_cons_of_exists (hrequeue m' hm')
    rw [sortResults]
    cases (results i).cls with
    | accepted => exact ⟨forall_mem_cons.mpr ⟨.inl rfl, hterminal⟩, hmissing, hrequeue⟩
    | rejected => exact ⟨forall_mem_cons.mpr ⟨.inr rfl, hterminal⟩, hmissing, hrequeue⟩
    | missingParent =>
      exact ⟨hterminal, forall_mem_cons.mpr ⟨mem_cons_self, hmissing⟩, hrequeue⟩
    | requeue =>
      refine ⟨hterminal, hmissing, forall_mem_cons.mpr ⟨⟨msg, mem_cons_self, ?_⟩, hrequeue⟩⟩
      split <;> exact ⟨rfl, rfl, rfl⟩

theorem mem_resolveMissingParents (pairs : List (PropagationMsg × Text)) (i : Nat) :
    (∀ st ∈ (resolveMissingParents ancestor now i pairs).1, st.status = .rejected) ∧
    ∀ m' ∈ (resolveMissingParents ancestor now i pairs).2, ∃ e ∈ pairs, SameCounts e.1 m' := by
  induction pairs generalizing i with
  | nil => exact ⟨nofun, nofun⟩
  | cons e rest ih =>
    obtain ⟨hcascaded, hrequeue⟩ := ih (i + 1)
    have hrequeue : ∀ m' ∈ (resolveMissingParents ancestor now (i + 1) rest).2,
        ∃ e' ∈ e :: rest, SameCounts e'.1 m' :=
      fun m' hm' => exists_mem_cons_of_exists (hrequeue m' hm')
    rw [resolveMissingParents]
    cases ancestor i with
    | some a => exact ⟨forall_mem_cons.mpr ⟨rfl, hcascaded⟩, hrequeue⟩
    | none =>
      exact ⟨hcascaded, forall_mem_cons.mpr ⟨⟨e, mem_cons_self, rfl, rfl, rfl⟩, hrequeue⟩⟩

theorem mem_registered (h : m' ∈ (registerBatch enabled watch batch).1) :
    ∃ i m, batch[i]? = some m ∧ m'.txid = m.txid ∧ m'.retryCount = m.retryCount ∧
      (m'.merkleRetryCount = if enabled then 0 else m.merkleRetryCount) ∧
      (enabled = true → watch i = none) := by
  cases enabled with
  | true =>
    obtain ⟨i, m, hi, hid, hr, hz, hw⟩ := (mem_registerLoop batch 0).1 m' h
    exact ⟨i, m, hi, hid, hr, hz, fun _ => by rwa [Nat.zero_add] at hw⟩
  | false =>
    obtain ⟨i, hi⟩ := mem_iff_getElem?.mp h
    exact ⟨i, m', hi, rfl, rfl, rfl, nofun⟩

/-- What a requeue at a stage makes of the counters. -/
def Debited (enabled : Bool) (m m' : PropagationMsg) : RetryStage → Prop
  | .network => m'.retryCount = m.retryCount + 1 ∧
      m'.merkleRetryCount = if enabled then 0 else m.merkleRetryCount
  | .merkle => enabled = true ∧ m'.retryCount = m.retryCount ∧
      m'.merkleRetryCount = m.merkleRetryCount + 1

theorem mem_unsettled (h : m' ∈ unsettled enabled replies now batch stage) :
    ∃ m ∈ batch, m'.txid = m.txid ∧ stage.count m' = stage.count m ∧
      Debited enabled m (stage.debit m') stage := by
  cases stage with
  | network =>
    obtain ⟨x, hx, hsame⟩ : ∃ x ∈ (registerBatch enabled replies.watch batch).1,
        SameCounts x m' := by
      rcases mem_append.mp h with h | h
      · exact (mem_sortResults _ 0).2.2 m' h
      · obtain ⟨e, he, hsame⟩ := (mem_resolveMissingParents _ 0).2 m' h
        exact ⟨e.1, (mem_sortResults _ 0).2.1 e he, hsame⟩
    obtain ⟨i, m, hi, hid, hr, hmerkle, -⟩ := mem_registered hx
    have hcount := hsame.network.trans hr
    exact ⟨m, mem_of_getElem? hi, hsame.txid.trans hid, hcount, congrArg (· + 1) hcount,
      hsame.merkle.trans hmerkle⟩
  | merkle =>
    cases enabled with
    | true =>
      obtain ⟨m, hm, hsame⟩ := (mem_registerLoop batch 0).2 m' h
      exact ⟨m, hm, hsame.txid, hsame.merkle, rfl, hsame.network, congrArg (· + 1) hsame.merkle⟩
    | false => cases h

variable {debit : PropagationMsg → PropagationMsg} {count : PropagationMsg → Nat}

theorem mem_chargeBudget {max : Nat} : m' ∈ (chargeBudget debit count max msgs).1 ↔
      ∃ m ∈ msgs, debit m = m' ∧ count m' ≤ max := by
  simp only [chargeBudget, partition_eq_filter_filter, mem_filter, mem_map, decide_eq_true_eq]
  tauto

theorem mem_chargeBudget_spent {max : Nat} : m' ∈ (chargeBudget debit count max msgs).2 ↔
      ∃ m ∈ msgs, debit m = m' ∧ max < count m' := by
  simp only [chargeBudget, partition_eq_filter_filter, mem_filter, mem_map,
    Function.comp_apply, Bool.not_eq_true', decide_eq_false_iff_not, not_le]
  tauto

theorem exists_of_requeued (h : m' ∈ (processBatch b enabled replies now batch).requeued stage) :
    ∃ m ∈ batch, m'.txid = m.txid ∧ stage.count m < stage.budget b ∧ Debited enabled m m' stage := by
  replace h : m' ∈ (requeueAfterDelayStaged b stage (unsettled enabled replies now batch stage)).1 := by
    cases stage <;> exact h
  rw [requeueAfterDelayStaged_eq] at h
  obtain ⟨x, hx, rfl, hle⟩ := mem_chargeBudget.mp h
  obtain ⟨m, hm, hid, hcount, hdebited⟩ := mem_unsettled hx
  rw [stage.count_debit, hcount] at hle
  exact ⟨m, hm, (stage.txid_debit x).trans hid, hle, hdebited⟩

theorem exists_of_parked (h : st ∈ (processBatch b enabled replies now batch).parked stage) :
    st.status = .pendingRetry ∧ ∃ m ∈ batch, st.txid = m.txid ∧ stage.budget b ≤ stage.count m := by
  obtain ⟨reason, h⟩ : ∃ reason, st ∈ parkRows reason now
      (requeueAfterDelayStaged b stage (unsettled enabled replies now batch stage)).2 := by
    cases stage <;> exact ⟨_, h⟩
  rw [requeueAfterDelayStaged_eq] at h
  obtain ⟨_, hspent, rfl⟩ := mem_map.mp h
  obtain ⟨x, hx, rfl, hgt⟩ := mem_chargeBudget_spent.mp hspent
  obtain ⟨m, hm, hid, hcount, -⟩ := mem_unsettled hx
  rw [stage.count_debit, hcount] at hgt
  exact ⟨rfl, m, hm, (stage.txid_debit x).trans hid, Nat.le_of_lt_succ hgt⟩

theorem status_of_terminal (h : st ∈ (processBatch b enabled replies now batch).terminal) :
    st.status = .acceptedByNetwork ∨ st.status = .rejected := by
  rcases mem_append.mp h with h | h
  · exact (mem_sortResults _ 0).1 st h
  · exact .inr ((mem_resolveMissingParents _ 0).1 st h)

end Counters

/-! ## The passes of a claim -/

/-- The requeues a transaction has been granted on a claim, the last one first, and the message
that the next pass gets. A batch holds a transaction once. -/
inductive Journey (b : Budgets) (enabled : Bool) : List RetryStage → PropagationMsg → Prop
  | start {m : PropagationMsg} (network : m.retryCount = 0) (merkle : m.merkleRetryCount = 0) :
    Journey b enabled [] m
  | next {stages : List RetryStage} {m m' : PropagationMsg} {batch : List PropagationMsg}
    {replies : Replies} {now : Int} {stage : RetryStage} (before : Journey b enabled stages m)
    (once : (batch.map (·.txid)).Nodup) (mem : m ∈ batch)
    (requeued : m' ∈ (processBatch b enabled replies now batch).requeued stage)
    (same : m'.txid = m.txid) : Journey b enabled (stage :: stages) m'

/-- The merkle failures since the last registration. -/
def merkleRun (stages : List RetryStage) : Nat := (stages.takeWhile (· = .merkle)).length

section Journey

variable {b : Budgets} {enabled : Bool} {stages : List RetryStage} {m m' : PropagationMsg}
  {batch : List PropagationMsg}

theorem eq_of_txid (once : (batch.map (·.txid)).Nodup) (hm : m ∈ batch) (hm' : m' ∈ batch)
    (h : m.txid = m'.txid) : m = m' :=
  inj_on_of_nodup_map once hm hm' h

/-- The counters are what the history says, and the merkle failures of an earlier registration are
within one budget each. -/
structure Charged (b : Budgets) (enabled : Bool) (stages : List RetryStage) (m : PropagationMsg) :
    Prop where
  network : m.retryCount = stages.count .network
  merkle : m.merkleRetryCount = merkleRun stages
  network_le : stages.count .network ≤ b.retryMaxAttempts
  merkle_le : merkleRun stages ≤ b.merkleRetryMaxAttempts
  total : stages.count .merkle ≤ merkleRun stages + b.merkleRetryMaxAttempts * stages.count .network
  disabled : enabled = false → stages.count .merkle = 0

theorem merkleRun_eq_zero (h : stages.count .merkle = 0) : merkleRun stages = 0 := by
  cases stages with
  | nil => rfl
  | cons stage rest =>
    have hne : stage ≠ .merkle := by
      rintro rfl
      exact count_eq_zero.mp h mem_cons_self
    simp [merkleRun, hne]

theorem Charged.requeue_network (h : Charged b enabled stages m)
    (hle : m.retryCount < b.retryMaxAttempts) (hm' : Debited enabled m m' .network) :
    Charged b enabled (.network :: stages) m' := by
  obtain ⟨hr, hm⟩ := hm'
  have hrun : merkleRun (.network :: stages) = 0 := by simp [merkleRun]
  have hnet : (RetryStage.network :: stages).count .network = stages.count .network + 1 :=
    count_cons_self
  have hmer : (RetryStage.network :: stages).count .merkle = stages.count .merkle :=
    count_cons_of_ne (by decide)
  refine ⟨?_, ?_, ?_, ?_, ?_, ?_⟩
  · rw [hr, h.network, hnet]
  · rw [hm, hrun]
    cases enabled with
    | true => rfl
    | false => exact h.merkle.trans (merkleRun_eq_zero (h.disabled rfl))
  · rw [hnet, ← h.network]
    exact hle
  · exact Nat.zero_le _
  · have htotal := h.total
    have hcap := h.merkle_le
    rw [hmer, hnet, hrun, Nat.mul_add]
    omega
  · exact h.disabled

theorem Charged.requeue_merkle (h : Charged b enabled stages m)
    (hle : m.merkleRetryCount < b.merkleRetryMaxAttempts) (hm' : Debited enabled m m' .merkle) :
    Charged b enabled (.merkle :: stages) m' := by
  obtain ⟨he, hr, hm⟩ := hm'
  have hrun : merkleRun (.merkle :: stages) = merkleRun stages + 1 := by simp [merkleRun]
  have hnet : (RetryStage.merkle :: stages).count .network = stages.count .network :=
    count_cons_of_ne (by decide)
  have hmer : (RetryStage.merkle :: stages).count .merkle = stages.count .merkle + 1 :=
    count_cons_self
  refine ⟨?_, ?_, ?_, ?_, ?_, fun hf => absurd (he.symm.trans hf) nofun⟩
  · rw [hr, h.network, hnet]
  · rw [hm, hrun, h.merkle]
  · exact h.network_le
  · rw [hrun, ← h.merkle]
    exact hle
  · have htotal := h.total
    rw [hmer, hnet, hrun]
    omega

theorem Journey.charged (h : Journey b enabled stages m) : Charged b enabled stages m := by
  induction h with
  | start network merkle =>
    exact ⟨network, merkle, Nat.zero_le _, Nat.zero_le _, Nat.zero_le _, fun _ => rfl⟩
  | @next stages m m' batch replies now stage before once mem requeued same ih =>
    obtain ⟨m₀, hm₀, hid, hlt, hdebited⟩ := exists_of_requeued requeued
    obtain rfl := eq_of_txid once mem hm₀ (same.symm.trans hid)
    cases stage with
    | network => exact ih.requeue_network hlt hdebited
    | merkle => exact ih.requeue_merkle hlt hdebited

/-- The network budget is spent by network failures alone, whatever the registrations do. The
merkle budget is spent by the failures since the last registration; a claim grants at most one such
budget before each network requeue and one after the last. What is broadcast was registered
in the same pass, and a pass ends every message in exactly one way. -/
theorem pass_budgets (h : Journey b enabled stages m) (once : (batch.map (·.txid)).Nodup)
    (hm : m ∈ batch) (replies : Replies) (now : Int) :
    (stages.count .network ≤ b.retryMaxAttempts ∧
      (∀ m' ∈ (processBatch b enabled replies now batch).requeued .network, m'.txid = m.txid →
        stages.count .network < b.retryMaxAttempts) ∧
      ∀ st ∈ (processBatch b enabled replies now batch).parked .network, st.txid = m.txid →
        stages.count .network = b.retryMaxAttempts) ∧
    (merkleRun stages ≤ b.merkleRetryMaxAttempts ∧
      stages.count .merkle ≤ b.merkleRetryMaxAttempts * (stages.count .network + 1) ∧
      (∀ m' ∈ (processBatch b enabled replies now batch).requeued .merkle, m'.txid = m.txid →
        merkleRun stages < b.merkleRetryMaxAttempts) ∧
      ∀ st ∈ (processBatch b enabled replies now batch).parked .merkle, st.txid = m.txid →
        merkleRun stages = b.merkleRetryMaxAttempts) ∧
    (∀ m' ∈ (processBatch b enabled replies now batch).broadcast, ∃ i msg, batch[i]? = some msg ∧
      m'.txid = msg.txid ∧ (enabled = true → replies.watch i = none)) ∧
    (∀ txid, rowsOf txid (processBatch b enabled replies now batch).terminal +
      copies txid ((processBatch b enabled replies now batch).requeued .network) +
      copies txid ((processBatch b enabled replies now batch).requeued .merkle) +
      rowsOf txid ((processBatch b enabled replies now batch).parked .network) +
      rowsOf txid ((processBatch b enabled replies now batch).parked .merkle) =
      copies txid batch) ∧
    (∀ st ∈ (processBatch b enabled replies now batch).terminal,
      st.status = .acceptedByNetwork ∨ st.status = .rejected) ∧
    ∀ stage, ∀ st ∈ (processBatch b enabled replies now batch).parked stage,
      st.status = .pendingRetry := by
  have hc := h.charged
  have hrequeued : ∀ stage, ∀ m' ∈ (processBatch b enabled replies now batch).requeued stage,
      m'.txid = m.txid → stage.count m < stage.budget b := by
    intro stage m' hm' hid
    obtain ⟨m₀, hm₀, hid₀, hlt, -⟩ := exists_of_requeued hm'
    obtain rfl := eq_of_txid once hm hm₀ (hid.symm.trans hid₀)
    exact hlt
  have hparked : ∀ stage, ∀ st ∈ (processBatch b enabled replies now batch).parked stage,
      st.txid = m.txid → stage.budget b ≤ stage.count m := by
    intro stage st hst hid
    obtain ⟨-, m₀, hm₀, hid₀, hle⟩ := exists_of_parked hst
    obtain rfl := eq_of_txid once hm hm₀ (hid.symm.trans hid₀)
    exact hle
  refine ⟨⟨hc.network_le, ?_, fun st hst hid => ?_⟩, ⟨hc.merkle_le, ?_, ?_, fun st hst hid => ?_⟩,
    fun m' hm' => ?_, fun txid => copies_processBatch txid now b enabled replies batch,
    fun st hst => status_of_terminal hst, fun stage st hst => (exists_of_parked hst).1⟩
  · rw [← hc.network]
    exact hrequeued .network
  · refine le_antisymm hc.network_le ?_
    rw [← hc.network]
    exact hparked .network st hst hid
  · have htotal := hc.total
    have hcap := hc.merkle_le
    rw [Nat.mul_add]
    omega
  · rw [← hc.merkle]
    exact hrequeued .merkle
  · refine le_antisymm hc.merkle_le ?_
    rw [← hc.merkle]
    exact hparked .merkle st hst hid
  · obtain ⟨i, msg, hi, hid, -, -, hw⟩ := mem_registered hm'
    exact ⟨i, msg, hi, hid, hw⟩

end Journey

/-! ## A budget that starts over -/

def watchFails : Replies := ⟨fun _ => some ⟨"timeout", false⟩, fun _ => ⟨.requeue, [], 0, []⟩, fun _ => none⟩

/-- Every registration succeeds and no peer answers. -/
def noPeer : Replies := ⟨fun _ => none, fun _ => ⟨.requeue, [], 0, []⟩, fun _ => none⟩

/-- A message with its counters; the last registration failed if `merkle` is not 0. -/
def counted (network merkle : Nat) : PropagationMsg where
  txid := "tx"
  rawTx := [1]
  inputTXIDs := []
  retryCount := network
  merkleRetryCount := merkle
  merkleFailureReason := if merkle = 0 then "" else "timeout"

theorem Journey.alone {b : Budgets} {stages : List RetryStage} {m m' : PropagationMsg}
    (h : Journey b true stages m) (replies : Replies) (stage : RetryStage)
    (hm' : m' ∈ (processBatch b true replies 0 [m]).requeued stage) (hid : m'.txid = m.txid) :
    Journey b true (stage :: stages) m' :=
  h.next (by simp) (mem_singleton.mpr rfl) hm' hid

/-- A failed registration, a broadcast without an answer, and a failed registration. -/
theorem journey_counted : Journey ⟨1, 1⟩ true [.merkle, .network, .merkle] (counted 1 1) := by
  have hstart : Journey ⟨1, 1⟩ true [] (counted 0 0) := .start rfl rfl
  have hfirst : Journey ⟨1, 1⟩ true [.merkle] (counted 0 1) :=
    hstart.alone watchFails .merkle (by decide +kernel) rfl
  have hsecond : Journey ⟨1, 1⟩ true [.network, .merkle] (counted 1 0) :=
    hfirst.alone noPeer .network (by decide +kernel) rfl
  exact hsecond.alone watchFails .merkle (by decide +kernel) rfl

/-- With one merkle requeue allowed, the claim has granted two. -/
theorem journey_counted_exceeds : Journey ⟨1, 1⟩ true [.merkle, .network, .merkle] (counted 1 1) ∧
      1 < [RetryStage.merkle, .network, .merkle].count .merkle :=
  ⟨journey_counted, by decide⟩

/-- Another failed registration parks the transaction. -/
theorem pass_budgets_counted :
    (∃ st ∈ (processBatch ⟨1, 1⟩ true watchFails 0 [counted 1 1]).parked .merkle, st.txid = "tx") ∧
      merkleRun [.merkle, .network, .merkle] = 1 := by
  have hparked : ∃ st ∈ (processBatch ⟨1, 1⟩ true watchFails 0 [counted 1 1]).parked .merkle,
      st.txid = "tx" := by decide +kernel
  obtain ⟨st, hst, hid⟩ := hparked
  exact ⟨⟨st, hst, hid⟩, (pass_budgets journey_counted (by simp)
    (mem_singleton.mpr rfl) watchFails 0).2.1.2.2.2 st hst hid⟩

end Arcade.Propagation
