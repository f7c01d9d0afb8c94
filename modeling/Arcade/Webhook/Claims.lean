import Arcade.Webhook.Service

/-!
Deliveries of one submission side by side. A claim that succeeds takes the row over from the call
that claimed it before; what the row then says about the delivery belongs to the new claim. The
failure of an older call is written without a look at the row, so it only leaves the newer claim
alone if the row already says what it writes.
-/

namespace Arcade.Webhook

open Lib Pebble
open Propagation (Status)

/-- The fields of the row that belong to its last claim. -/
structure Claim where
  lastDeliveredStatus : Option Status
  retryCount : Int
  nextRetry : Int64
  deriving DecidableEq

def claimOf (row : StoredSubmission) : Claim :=
  ⟨row.lastDeliveredStatus, row.retryCount, row.nextRetry⟩

/-- The row and the `deliver` calls on it, with two things that only the proofs look at: the call
that claimed the row last, and what that call has written of its claim. -/
structure Deliveries where
  row : StoredSubmission
  calls : List Delivery
  claimant : Option Nat
  claim : Claim

inductive Event where
  | dispatch (status : TransactionStatus)
  | reap (now : Int64)
  | step (i : Nat) (reply : Reply)

namespace Deliveries

def start (row : StoredSubmission) : Deliveries := ⟨row, [], none, claimOf row⟩

/-- A caller has read the row, and may start a call. -/
def spawn (s : Deliveries) (call : Option Delivery) : Deliveries :=
  { s with calls := s.calls ++ call.toList }

/-- The claim of the call that takes this step succeeds. -/
def claims (reply : Reply) (d : Delivery) (row : StoredSubmission) : Bool :=
  d.phase = .claim && !reply.storeFails && d.sub.lastDeliveredStatus = row.lastDeliveredStatus

/-- The step is one of the two writes of a call that say something about its claim. -/
def writesClaim (reply : Reply) (d : Delivery) (row : StoredSubmission) : Bool :=
  claims reply d row || (d.phase = .recordFailure && !reply.storeFails)

/-- A step of the call `i`. -/
def advance (cfg : Config) (s : Deliveries) (i : Nat) (reply : Reply) (d : Delivery) : Deliveries :=
  let (d', row') := d.step cfg reply s.row
  let claimant := if claims reply d s.row then some i else s.claimant
  { row := row'
    calls := s.calls.set i d'
    claimant
    claim := if writesClaim reply d s.row ∧ claimant = some i then claimOf row' else s.claim }

def step (cfg : Config) (s : Deliveries) : Event → Deliveries
  | .dispatch status => s.spawn (dispatchOne s.row status)
  | .reap now => s.spawn (reapOnce now s.row)
  | .step i reply =>
    match s.calls[i]? with
    | none => s
    | some d => s.advance cfg i reply d

/-- A call that has claimed the row, and is not the last one that did. -/
def Superseded (s : Deliveries) (i : Nat) (d : Delivery) : Prop :=
  d.phase ≠ .claim ∧ s.claimant ≠ some i

/-- If the step records a failure of a call that is not the last one to claim the row, the row has
the status of that call's event already, a retry count one above the one that the call read, and the
retry time that goes with it. -/
def SameFailure (cfg : Config) (s : Deliveries) : Event → Prop
  | .step i reply => ∀ d ∈ s.calls[i]?, d.phase = .recordFailure → reply.storeFails = false →
    s.claimant ≠ some i →
      s.row.lastDeliveredStatus = d.status.status ∧ s.row.retryCount = d.sub.retryCount + 1 ∧
      s.row.nextRetry = if cfg.retryLimit ≤ d.sub.retryCount + 1 then 0
        else reply.now + computeBackoff cfg (d.sub.retryCount + 1)
  | _ => True

/-- The step leaves the last claim alone if it is one of a superseded call. -/
def LeavesClaim (cfg : Config) (s : Deliveries) : Event → Prop
  | .step i reply => ∀ d ∈ s.calls[i]?, s.Superseded i d →
    claimOf (s.step cfg (.step i reply)).row = claimOf s.row
  | _ => True

/-! ## One step -/

theorem claimOf_step (cfg : Config) {reply : Reply} {d : Delivery} {row : StoredSubmission}
    (h : writesClaim reply d row = false) : claimOf (d.step cfg reply row).2 = claimOf row := by
  obtain ⟨hclaims, hfailure⟩ := Bool.or_eq_false_iff.mp h
  unfold Delivery.step
  cases hphase : d.phase with
  | claim =>
    cases hfails : reply.storeFails with
    | true => rfl
    | false =>
      have hne : row.lastDeliveredStatus ≠ d.sub.lastDeliveredStatus := by
        rintro heq
        simp [claims, hphase, hfails, heq] at hclaims
      simp [updateDeliveryStatusCAS, hne]
  | post => cases reply.outcome <;> rfl
  | recordAttempt failure => cases reply.storeFails <;> rfl
  | recordFailure =>
    have hfails : reply.storeFails = true := by simpa [hphase] using hfailure
    simp [hfails]
  | returned => rfl

theorem claimOf_recordFailure (cfg : Config) (now : Int64) (sub : StoredSubmission)
    (status : TransactionStatus) (row : StoredSubmission) :
    claimOf (recordFailure cfg now sub status row) =
      ⟨status.status, sub.retryCount + 1, if cfg.retryLimit ≤ sub.retryCount + 1 then 0
        else now + computeBackoff cfg (sub.retryCount + 1)⟩ := by
  unfold recordFailure
  dsimp only
  split_ifs <;> rfl

/-- A superseded call leaves the last claim alone exactly if a failure that it records is the one
that the row has. -/
theorem leavesClaim_iff {cfg : Config} {s : Deliveries} {e : Event} :
    s.LeavesClaim cfg e ↔ s.SameFailure cfg e := by
  cases e with
  | dispatch status => exact Iff.rfl
  | reap now => exact Iff.rfl
  | step i reply =>
    refine forall₂_congr fun d hd => ?_
    have hrow : (s.step cfg (.step i reply)).row = (d.step cfg reply s.row).2 := by
      rw [Option.mem_def] at hd
      simp only [step, hd, advance]
    rw [hrow]
    cases hphase : d.phase with
    | recordFailure =>
      cases hfails : reply.storeFails with
      | true => simp [Delivery.step, hphase, hfails]
      | false =>
        simp only [Delivery.step, hphase, hfails, Bool.false_eq_true, if_false,
          claimOf_recordFailure]
        rw [eq_comm, claimOf, Claim.mk.injEq]
        simp [Superseded, hphase]
    -- no other step of a call that has its claim writes to the fields of the claim
    | _ =>
      refine iff_of_true (fun hsup => claimOf_step cfg ?_) (fun h => by cases h)
      simp_all [writesClaim, claims, Superseded]

/-- The fields of the row are what the call of the last claim has written. -/
def Owned (s : Deliveries) : Prop := claimOf s.row = s.claim

theorem Owned.step {cfg : Config} {s : Deliveries} {e : Event} (h : s.Owned)
    (hc : s.LeavesClaim cfg e) : (s.step cfg e).Owned := by
  cases e with
  | dispatch status => exact h
  | reap now => exact h
  | step i reply =>
    simp only [Deliveries.step]
    split
    · exact h
    · rename_i d hd
      have hleaves := hc d hd
      simp only [Deliveries.step, hd, advance] at hleaves
      simp only [Owned, advance]
      split_ifs with hclaims hown hown
      · rfl
      · simp [writesClaim, hclaims] at hown
      · rfl
      · cases hw : writesClaim reply d s.row with
        | false => rw [claimOf_step cfg hw, h]
        -- the failure of a superseded call
        | true =>
          have hfailure : d.phase = .recordFailure ∧ reply.storeFails = false := by
            simpa [writesClaim, hclaims] using hw
          rw [hleaves ⟨by simp [hfailure.1], fun hlast => hown ⟨hw, hlast⟩⟩, h]

/-! ## Runs -/

/-- In a run no superseded call changes what belongs to a later claim, and the row always says what
the call of the last claim has written, exactly if every failure that a superseded call records is
the one that the row has already. -/
theorem later_claim_kept_iff (cfg : Config) (row : StoredSubmission) (es : List Event) :
    (AllSteps (step cfg) (LeavesClaim cfg) (start row) es ∧
      ∀ s ∈ states (step cfg) (start row) es, s.Owned) ↔
    AllSteps (step cfg) (SameFailure cfg) (start row) es := by
  constructor
  · rintro ⟨h, -⟩
    exact h.imp fun _ _ => leavesClaim_iff.mp
  · intro h
    have hleaves := h.imp fun _ _ => leavesClaim_iff.mpr
    exact ⟨hleaves, states_invariant (fun _ _ howned hc => howned.step hc) rfl hleaves⟩

def sampleConfig : Config := ⟨10, 5000, 300000⟩

def sampleSubscription : StoredSubmission where
  submissionID := [1]
  txid := [2]
  callbackURL := [3]
  fullStatusUpdates := true

def ok : Reply := ⟨1, false, .delivered⟩

def refused : Reply := ⟨1, false, .failed []⟩

/-- The second event is claimed and delivered while the POST of the first one is under way. -/
def overtaken : List Event :=
  [.dispatch ⟨some .seenOnNetwork, []⟩, .step 0 ok, .dispatch ⟨some .mined, []⟩, .step 1 ok,
    .step 1 ok, .step 1 ok, .step 0 refused, .step 0 ok]

/-- A reanchored event is claimed twice and both POSTs fail, the older one last; it is the only
attempt of each. -/
def failedTwice : List Event :=
  [.dispatch ⟨some .mined, extraInfoReorgReanchor⟩, .step 0 ok,
    .dispatch ⟨some .mined, extraInfoReorgReanchor⟩, .step 1 ok, .step 1 refused, .step 1 ok,
    .step 1 ok, .step 0 refused, .step 0 ok, .step 0 ok]

instance (cfg : Config) (s : Deliveries) : DecidablePred (s.SameFailure cfg)
  | .step i _ => inferInstanceAs (Decidable (∀ d ∈ s.calls[i]?, d.phase = .recordFailure → _))
  | .dispatch _ | .reap _ => isTrue trivial

/-- The failure of the older call is written over the newer claim, and changes nothing. -/
theorem later_claim_kept_failedTwice :
    (run (step ⟨1, 5000, 300000⟩) (start sampleSubscription) failedTwice).claimant = some 1 ∧
      (run (step ⟨1, 5000, 300000⟩) (start sampleSubscription) failedTwice).Owned := by
  have h : AllSteps (step ⟨1, 5000, 300000⟩) (SameFailure ⟨1, 5000, 300000⟩)
      (start sampleSubscription) failedTwice := by decide
  exact ⟨by decide, ((later_claim_kept_iff _ _ _).mpr h).2 _
    ((mem_states_iff _ _ _ _).mpr ⟨failedTwice, [], (List.append_nil _).symm, rfl⟩)⟩

/-- The failure of the first call puts the row back to the status of the first claim, with a retry
of its own. -/
theorem later_claim_rolledBack :
    (run (step sampleConfig) (start sampleSubscription) overtaken).claimant = some 1 ∧
      claimOf (run (step sampleConfig) (start sampleSubscription) overtaken).row =
        ⟨some .mined, 0, 0⟩ ∧
      claimOf (run (step sampleConfig) (start sampleSubscription) (overtaken ++ [.step 0 ok])).row =
        ⟨some .seenOnNetwork, 1, 5000000001⟩ := by
  decide

end Deliveries

end Arcade.Webhook
