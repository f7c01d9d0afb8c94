import Arcade.ApiServer.Submit

/-!
REJECTED events of the intake.

`rejectAtIntake` decides to publish from the row that `GetOrInsertStatus` returned. The write
that follows asks the lattice again, against the row of that later moment, and does not report
what it was told. Between the two calls the other writers are free to move the row on.
-/

namespace Arcade.ApiServer

open Lib List
open Propagation (Status)
open Store (TxRow StatusUpdate canTransitionFrom)

/-! ## Calls -/

def PublishesRejected (txid : String) : CallAt Call World → Prop
  | ⟨.publish id status _, _, _, _⟩ => id = txid ∧ status = .rejected
  | _ => False

def InsertsRejected (txid : String) : CallAt Call World → Prop
  | ⟨.getOrInsertStatus id row, _, reply, after⟩ =>
    id = txid ∧ row.status = .rejected ∧ reply = .inserted ∧ after.rows.lookup txid = some row
  | _ => False

/-- The call writes the row with status REJECTED: it is there, and the lattice does not refuse. -/
def WritesRejected (txid : String) : CallAt Call World → Prop
  | ⟨.updateStatus id u, before, _, after⟩ =>
    id = txid ∧ ∃ row row', before.rows.lookup txid = some row ∧
      Store.updateStatus u row = some row' ∧ row'.status = .rejected ∧
      after.rows.lookup txid = some row'
  | _ => False

theorem updateStatus_rejected (reason : String) (row : TxRow) :
    Store.updateStatus (rejectedUpdate reason) row =
      if canTransitionFrom .rejected row.status then
        some (Store.mergeStatus row (rejectedUpdate reason)) else none := rfl

/-! ## When an event is published -/

/-- What `persistRejectedAtIntake` does with the reply of the insert. -/
def afterInsert (txid reason : String) : InsertReply → Program Bool
  | .failed => pure true
  | .inserted => pure true
  | .existing row =>
    if !canTransitionFrom .rejected row.status then pure false
    else do
      let _ ← Prog.send (.updateStatus txid (rejectedUpdate reason))
      pure true

/-- What `rejectAtIntake` does after `persistRejectedAtIntake`. -/
def afterPersist (txid reason : String) (opts : SubmitOptions) (wrote : Bool) : Program Unit := do
  recordSubmission txid opts
  if !wrote || !true then pure () else Prog.send (.publish txid .rejected reason)

theorem calls_afterPersist (txid reason : String) (opts : SubmitOptions) (wrote : Bool)
    (ms : Nat → World × Oracle) :
    ((∃ a ∈ (afterPersist txid reason opts wrote).callsAt env ms, PublishesRejected txid a) ↔
      wrote = true) ∧
    ∀ a ∈ (afterPersist txid reason opts wrote).callsAt env ms,
      ¬ InsertsRejected txid a ∧ ¬ WritesRejected txid a := by
  cases wrote <;> cases h : opts.hasSubscription <;>
    simp [afterPersist, recordSubmission, h, Prog.callsAt, Prog.send, bind, Prog.bind, pure,
      PublishesRejected, InsertsRejected, WritesRejected]

/-- The calls of `rejectAtIntake` with a store and a publisher, at the moments `ms` that the
others leave it; no call fails. -/
def intakeCalls (validator txTracker : Bool) (txid reason : String) (opts : SubmitOptions)
    (ms : Nat → World × Oracle) : List (CallAt Call World) :=
  (rejectAtIntake ⟨true, validator, txTracker, true⟩ txid reason opts).callsAt env
    fun i => ((ms i).1, { (ms i).2 with failed := false })

/-- The call `c` as it is answered at a moment. -/
def answeredAt {ρ : Type} (c : Call ρ) (m : World × Oracle) : CallAt Call World :=
  ⟨c, m.1, (exec { m.2 with failed := false } c m.1).1, (exec { m.2 with failed := false } c m.1).2⟩

section

variable (validator txTracker : Bool) {txid : String} (reason : String) (opts : SubmitOptions)
  {ms : Nat → World × Oracle}

theorem intakeCalls_of_none (h : (ms 0).1.rows.lookup txid = none) :
    ∃ a ∈ intakeCalls validator txTracker txid reason opts ms, InsertsRejected txid a := by
  refine ⟨answeredAt (.getOrInsertStatus txid (rejectedRow reason)) (ms 0), mem_cons_self .., ?_⟩
  simp [answeredAt, exec, getOrInsert, h, InsertsRejected, rejectedRow]

theorem intakeCalls_of_some {row : TxRow} (h : (ms 0).1.rows.lookup txid = some row) :
    ∃ read ms₁ ms₂, intakeCalls validator txTracker txid reason opts ms = read ::
        (if canTransitionFrom .rejected row.status = true then
          answeredAt (.updateStatus txid (rejectedUpdate reason)) (ms 1) ::
            (afterPersist txid reason opts true).callsAt env ms₂
        else (afterPersist txid reason opts false).callsAt env ms₁) ∧
      ¬ PublishesRejected txid read ∧ ¬ InsertsRejected txid read ∧
      ¬ WritesRejected txid read := by
  let o : Nat → Oracle := fun i => { (ms i).2 with failed := false }
  let read := answeredAt (.getOrInsertStatus txid (rejectedRow reason)) (ms 0)
  have hreply : (exec (o 0) (.getOrInsertStatus txid (rejectedRow reason)) (ms 0).1).1 =
      .existing row := by
    simp [exec, getOrInsert, h, o]
  refine ⟨read, fun i => ((ms (i + 1)).1, o (i + 1)), fun i => ((ms (i + 2)).1, o (i + 2)), ?_,
    id, ?_, id⟩
  · have hcalls : intakeCalls validator txTracker txid reason opts ms = read ::
        (afterInsert txid reason
            (exec (o 0) (.getOrInsertStatus txid (rejectedRow reason)) (ms 0).1).1 >>=
          afterPersist txid reason opts).callsAt env fun i => ((ms (i + 1)).1, o (i + 1)) := rfl
    rw [hcalls, hreply]
    dsimp only [afterInsert]
    cases canTransitionFrom .rejected row.status <;> rfl
  · rintro ⟨-, -, hinserted, -⟩
    cases hreply.symm.trans hinserted

theorem writesRejected_iff {reason : String} {m : World × Oracle} :
    WritesRejected txid (answeredAt (.updateStatus txid (rejectedUpdate reason)) m) ↔
      ∃ row, m.1.rows.lookup txid = some row ∧ canTransitionFrom .rejected row.status = true := by
  constructor
  · rintro ⟨-, row, row', hrow, hupd, -⟩
    refine ⟨row, hrow, ?_⟩
    rw [updateStatus_rejected] at hupd
    split at hupd
    · assumption
    · cases hupd
  · rintro ⟨row, hrow, hcan⟩
    have hupd : Store.updateStatus (rejectedUpdate reason) row =
        some (Store.mergeStatus row (rejectedUpdate reason)) := by
      rw [updateStatus_rejected, if_pos hcan]
    refine ⟨rfl, row, _, hrow, hupd, rfl, ?_⟩
    simp [exec, update, hrow, hupd]

end

/-- The event stands for a rejection exactly if the row that the write finds, after the row that
was read allowed REJECTED, still allows it. -/
theorem rejectAtIntake_real_iff (validator txTracker : Bool) (txid reason : String)
    (opts : SubmitOptions) (ms : Nat → World × Oracle) :
    ((∃ a ∈ intakeCalls validator txTracker txid reason opts ms, PublishesRejected txid a) →
      ∃ a ∈ intakeCalls validator txTracker txid reason opts ms,
        InsertsRejected txid a ∨ WritesRejected txid a) ↔
    ∀ row, (ms 0).1.rows.lookup txid = some row → canTransitionFrom .rejected row.status = true →
      ∃ row', (ms 1).1.rows.lookup txid = some row' ∧
        canTransitionFrom .rejected row'.status = true := by
  cases hrow : (ms 0).1.rows.lookup txid with
  | none =>
    obtain ⟨a, ha, hins⟩ := intakeCalls_of_none validator txTracker reason opts hrow
    exact ⟨fun _ _ => nofun, fun _ _ => ⟨a, ha, .inl hins⟩⟩
  | some row =>
    obtain ⟨read, ms₁, ms₂, hcalls, hpub, hins, hwr⟩ :=
      intakeCalls_of_some validator txTracker reason opts hrow
    rw [hcalls]
    cases hcan : canTransitionFrom .rejected row.status with
    | false =>
      constructor
      · rintro - row' ⟨⟩ hrejected
        exact absurd (hcan.symm.trans hrejected) Bool.false_ne_true
      · rintro - ⟨a, ha, hpublished⟩
        rcases mem_cons.mp ha with rfl | ha
        · exact absurd hpublished hpub
        · exact absurd ((calls_afterPersist txid reason opts false ms₁).1.mp ⟨a, ha, hpublished⟩)
            Bool.false_ne_true
    | true =>
      obtain ⟨hpublished, hrest⟩ := calls_afterPersist txid reason opts true ms₂
      constructor
      · intro h row' _ _
        obtain ⟨a, ha, hp⟩ := hpublished.mpr rfl
        obtain ⟨a, ha, hreal⟩ := h ⟨a, mem_cons_of_mem _ (mem_cons_of_mem _ ha), hp⟩
        rcases mem_cons.mp ha with rfl | ha
        · exact (hreal.elim hins hwr).elim
        rcases mem_cons.mp ha with rfl | ha
        · exact writesRejected_iff.mp (hreal.resolve_left id)
        · exact (hreal.elim (hrest a ha).1 (hrest a ha).2).elim
      · intro h _
        exact ⟨_, mem_cons_of_mem _ (mem_cons_self ..),
          .inr (writesRejected_iff.mpr (h row rfl hcan))⟩

/-! A row that goes on while the rejection is under way. -/

def seenUpdate : StatusUpdate := { rejectedUpdate "" with status := some .seenOnNetwork }

def seenRow : TxRow := { receivedRow [] with status := .seenOnNetwork }

/-- RECEIVED when it is read, SEEN_ON_NETWORK when it is written. -/
def overtaken (i : Nat) : World × Oracle :=
  let row := if i = 0 then receivedRow [] else seenRow
  (⟨(∅ : Store.TxRows).insert "tx" row, [], ∅, [], []⟩, ⟨none, false, false, none, fun _ => true⟩)

/-- The event is published, and the row stays SEEN_ON_NETWORK. -/
theorem overtaken_published : Store.updateStatus seenUpdate (receivedRow []) = some seenRow ∧
    (∃ a ∈ intakeCalls true true "tx" "bad script" ⟨"", "", false⟩ overtaken,
      PublishesRejected "tx" a) ∧
    ¬ ∃ a ∈ intakeCalls true true "tx" "bad script" ⟨"", "", false⟩ overtaken,
      InsertsRejected "tx" a ∨ WritesRejected "tx" a := by
  refine ⟨by decide, ⟨_, mem_cons_of_mem _ (mem_cons_of_mem _ (mem_cons_self ..)), rfl, rfl⟩, ?_⟩
  rintro ⟨a, ha, hreal⟩
  have hcalls : intakeCalls true true "tx" "bad script" ⟨"", "", false⟩ overtaken =
      [answeredAt (.getOrInsertStatus "tx" (rejectedRow "bad script")) (overtaken 0),
        answeredAt (.updateStatus "tx" (rejectedUpdate "bad script")) (overtaken 1),
        answeredAt (.publish "tx" .rejected "bad script") (overtaken 2)] := rfl
  rw [hcalls] at ha
  simp only [mem_cons, not_mem_nil, or_false] at ha
  rcases ha with rfl | rfl | rfl
  · rcases hreal with ⟨-, -, h, -⟩ | h
    · cases h
    · exact h
  · obtain ⟨row, hrow, hcan⟩ := writesRejected_iff.mp (hreal.resolve_left id)
    cases hrow
    exact absurd hcan (by decide)
  · exact hreal.elim id id

end Arcade.ApiServer
