import Arcade.ApiServer.Submit
import Arcade.Sse.Catchup

/-!
Resuming a stream of status events.

The services write a row and announce it afterwards, and each reads the clock where it pleases:
the propagator stamps its rows before the broadcast and its events after the write, the callbacks
and the bump builder stamp both with one reading, and some statements leave the stamp to the
database. A frame carries the stamp of the event, or of the row when it comes from a catchup. The
replay of a client that comes back compares that stamp with the stamps of the rows.
-/

namespace Arcade.Sse

open Lib List
open ApiServer (receivedRow rejectedRow)
open Propagation (Status)
open Store (TxRow StatusUpdate)

/-! ## Statements -/

def statusUpdate (status : Status) (extraInfo : String) : StatusUpdate :=
  ⟨some status, "", 0, extraInfo, [], 0, 0⟩

/-- The writers of one row. -/
inductive RowWrite where
  /-- `GetOrInsertStatus`. -/
  | insert (row : TxRow)
  /-- `UpdateStatusReturning`. -/
  | update (status : Status) (extraInfo : String)
  /-- `persistRejectedAtIntake`: the row is inserted, or updated when there is one. -/
  | reject (reason : String)
  | setPendingRetryFields (rawTx : List UInt8) (nextRetry : Int) (reason : String)
  | clearRetryState (finalStatus : Status) (extraInfo : String)

def RowWrite.apply : RowWrite → Option TxRow → Option TxRow
  | .insert row, none => some row
  | .insert _, some _ => none
  | .reject reason, none => some (rejectedRow reason)
  | .reject reason, some row => Store.updateStatus (statusUpdate .rejected reason) row
  | .update status extraInfo, row => row.bind (Store.updateStatus (statusUpdate status extraInfo))
  | .setPendingRetryFields rawTx nextRetry reason, row =>
    row.bind (Store.setPendingRetryFields rawTx nextRetry reason)
  | .clearRetryState finalStatus extraInfo, row =>
    row.map (Store.clearRetryState finalStatus extraInfo)

inductive Statement where
  | one (txid : String) (w : RowWrite)
  | setMinedByTxIDs (blockHash : String) (blockHeight : Nat) (txids : List String)
  | setStatusByBlockHash (blockHash : String) (newStatus : Status)

def Statement.changes : Statement → StatusRows → List (String × TxRow)
  | .one txid w, rows => ((w.apply ((rows.lookup txid).map (·.row))).map (txid, ·)).toList
  | .setMinedByTxIDs blockHash blockHeight txids, rows => txids.filterMap fun txid =>
    (rows.lookup txid).bind fun r => (Store.setMined blockHash blockHeight r.row).map (txid, ·)
  | .setStatusByBlockHash blockHash newStatus, rows => rows.entries.filterMap fun e =>
    (Store.setStatusByBlockHash blockHash newStatus e.2.row).map (e.1, ·)

/-! ## What the services do -/

inductive Task where
  /-- The dedup insert of a submit handler. -/
  | submit (txid : String) (rawTx : List UInt8)
  | rejectAtIntake (txid reason : String)
  /-- `applyTerminalStatuses`: txids with status and reason. -/
  | terminalStatuses (statuses : List (String × Status × String))
  /-- `persistCascade`: txids with reason. -/
  | cascade (status : Status) (children : List (String × String))
  | seenCallback (target : Status) (txids : List String)
  | setMinedAndPublish (blockHash : String) (blockHeight : Nat) (onlyChanged : Bool)
    (txids : List String)
  /-- The revert of an orphaned block by the reconciler. -/
  | revert (orphan : String)
  /-- `schedulePendingRetry` within its budget, and past it. -/
  | schedulePendingRetry (txid : String) (rawTx : List UInt8) (nextRetry : Int) (reason : String)
  | giveUp (txid reason : String)

def Task.statements : Task → List Statement
  | .submit txid rawTx => [.one txid (.insert (receivedRow rawTx))]
  | .rejectAtIntake txid reason => [.one txid (.reject reason)]
  | .terminalStatuses statuses => statuses.map fun st => .one st.1 (.update st.2.1 st.2.2)
  | .cascade status children => children.map fun c => .one c.1 (.update status c.2)
  | .seenCallback target txids => txids.map fun txid => .one txid (.update target "")
  | .setMinedAndPublish blockHash blockHeight _ txids =>
    [.setMinedByTxIDs blockHash blockHeight txids]
  | .revert orphan => [.setStatusByBlockHash orphan .seenOnNetwork]
  | .schedulePendingRetry txid rawTx nextRetry reason =>
    [.one txid (.setPendingRetryFields rawTx nextRetry reason)]
  | .giveUp txid reason => [.one txid (.clearRetryState .rejected reason)]

/-- Statements with `timestamp_at=NOW()`. -/
def Task.stampedByDatabase : Task → Bool
  | .revert _ | .schedulePendingRetry .. | .giveUp .. => true
  | _ => false

inductive EventStamp where
  /-- The clock is read again for the event. -/
  | again
  /-- The event has the stamp of the rows. -/
  | asRows

/-- `none` when the task publishes nothing. -/
def Task.eventStamp : Task → Option EventStamp
  | .submit .. | .schedulePendingRetry .. => none
  | .rejectAtIntake .. | .terminalStatuses _ | .revert _ | .giveUp .. => some .again
  | .cascade .. | .seenCallback .. | .setMinedAndPublish .. => some .asRows

/-- Whether a row that was written is announced. -/
def Task.announces (task : Task) (prev : Option TxRow) (row : TxRow) : Bool :=
  match task with
  | .terminalStatuses _ | .seenCallback .. => prev.any (·.status ≠ row.status)
  | .setMinedAndPublish blockHash _ onlyChanged _ =>
    !(onlyChanged && prev.any fun r => r.status = .mined && r.blockHash = blockHash)
  | _ => true

/-! ## Runs -/

/-- A row to announce, with the number of the statement that wrote it. -/
structure Announced where
  txid : String
  status : Status
  written : Nat

/-- A task under way: the clock when it began, the statements it still has to run, and the rows
it will announce. -/
structure Job where
  task : Task
  stamp : Nat
  todo : List Statement
  announced : List Announced

structure StatusEvent where
  timestamp : Nat
  announced : List Announced

/-- A frame sent to clients of the token, with the statement that wrote what it says. -/
structure Receipt where
  token : String
  id : Nat
  written : Nat

structure Ledger where
  clock : Nat
  writes : Nat
  rows : StatusRows
  submissions : Submissions
  jobs : List Job
  events : List StatusEvent
  sent : List Receipt

def Ledger.empty : Ledger := ⟨0, 0, ∅, [], [], [], []⟩

inductive Event where
  | tick (ns : Nat)
  | submission (txid token : String)
  | begin (task : Task)
  /-- A statement of the job runs. The statements of a batch run in parallel. -/
  | write (job statement : Nat)
  | fail (job statement : Nat)
  | publish (job : Nat)
  /-- The SSE service hands an event to the clients. -/
  | fanOut (event : Nat)
  /-- A pass of `sendCatchup`, at connect or in mid-stream. -/
  | catchup (order : RowOrder) (link : Link) (token : String) (since : Option Int)
    (midstream : Bool) (maxFrames : Nat)

/-- The stamp of the rows that the job writes now. -/
def rowStamp (s : Ledger) (job : Job) : Nat :=
  (if job.task.stampedByDatabase then s.clock else job.stamp) / 1000

def stampRows (rows : StatusRows) (timestampAt written : Nat) (changes : List (String × TxRow)) :
    StatusRows :=
  changes.foldl (fun rows c => rows.insert c.1 ⟨c.2, timestampAt, written⟩) rows

def announcements (s : Ledger) (job : Job) (changes : List (String × TxRow)) : List Announced :=
  (changes.filter fun c => job.task.announces ((s.rows.lookup c.1).map (·.row)) c.2).map fun c =>
    ⟨c.1, c.2.status, s.writes⟩

def fanOut (submissions : Submissions) (event : StatusEvent) : List Receipt :=
  event.announced.flatMap fun a =>
    (submissions.filter (·.1 = a.txid)).map fun sub => ⟨sub.2, event.timestamp, a.written⟩

/-- The frames of a pass, with the statements behind their rows. -/
def replayed (rows : StatusRows) (token : String) (frames : List Frame) : List Receipt :=
  frames.filterMap fun f => (rows.lookup f.row.txid).map fun r => ⟨token, f.id, r.written⟩

def step (s : Ledger) : Event → Ledger
  | .tick ns => if s.clock + ns < 2 ^ 63 then { s with clock := s.clock + ns } else s
  | .submission txid token => { s with submissions := s.submissions ++ [(txid, token)] }
  | .begin task => { s with jobs := s.jobs ++ [⟨task, s.clock, task.statements, []⟩] }
  | .write j k =>
    match s.jobs[j]? with
    | none => s
    | some job =>
      match job.todo[k]? with
      | none => s
      | some statement =>
        let changes := statement.changes s.rows
        { s with
          writes := s.writes + 1
          rows := stampRows s.rows (rowStamp s job) s.writes changes
          jobs := s.jobs.set j { job with
            todo := job.todo.eraseIdx k
            announced := job.announced ++ announcements s job changes } }
  | .fail j k =>
    match s.jobs[j]? with
    | none => s
    | some job => { s with jobs := s.jobs.set j { job with todo := job.todo.eraseIdx k } }
  | .publish j =>
    match s.jobs[j]? with
    | none => s
    | some job =>
      match job.todo, job.task.eventStamp with
      | [], some stamp =>
        let timestamp := match stamp with
          | .again => s.clock
          | .asRows => job.stamp
        { s with
          events := s.events ++ [⟨timestamp, job.announced⟩]
          jobs := s.jobs.set j { job with announced := [] } }
      | _, _ => s
  | .fanOut k =>
    match s.events[k]? with
    | none => s
    | some event => { s with sent := s.sent ++ fanOut s.submissions event }
  | .catchup order link token since midstream maxFrames =>
    let pass := sendCatchup s.rows s.submissions order link token since midstream maxFrames
    { s with sent := s.sent ++ replayed s.rows token pass.1.frames }

/-! ## Stamps and numbers -/

/-- Every stamp was read from the clock, and every number is that of a statement that has run. -/
structure Recorded (s : Ledger) : Prop where
  clock : s.clock < 2 ^ 63
  jobs : ∀ job ∈ s.jobs, job.stamp ≤ s.clock ∧ ∀ a ∈ job.announced, a.written < s.writes
  events : ∀ event ∈ s.events,
    event.timestamp ≤ s.clock ∧ ∀ a ∈ event.announced, a.written < s.writes
  rows : ∀ txid r, s.rows.lookup txid = some r →
    r.timestampAt * 1000 ≤ s.clock ∧ r.written < s.writes
  sent : ∀ x ∈ s.sent, x.id ≤ s.clock ∧ x.written < s.writes

theorem lookup_stampRows {rows : StatusRows} {timestampAt written : Nat}
    {changes : List (String × TxRow)} {txid : String} {r : StatusRow}
    (h : (stampRows rows timestampAt written changes).lookup txid = some r) :
    rows.lookup txid = some r ∧ txid ∉ changes.map Prod.fst ∨
      txid ∈ changes.map Prod.fst ∧ r.timestampAt = timestampAt ∧ r.written = written := by
  induction changes generalizing rows with
  | nil => exact .inl ⟨h, by simp⟩
  | cons c changes ih =>
    rcases ih h with ⟨hrow, hnot⟩ | ⟨hmem, hstamp⟩
    · rcases GoMap.of_lookup_insert hrow with ⟨rfl, rfl⟩ | ⟨hne, hrow⟩
      · exact .inr ⟨by simp, rfl, rfl⟩
      · refine .inl ⟨hrow, ?_⟩
        rw [map_cons, mem_cons, not_or]
        exact ⟨hne, hnot⟩
    · exact .inr ⟨mem_cons_of_mem _ hmem, hstamp⟩

variable {s : Ledger} {job : Job}

theorem mem_replayed {order : RowOrder} {link : Link} {token : String} {since : Option Int}
    {midstream : Bool} {maxFrames : Nat} {x : Receipt} (hx : x ∈ replayed s.rows token
      (sendCatchup s.rows s.submissions order link token since midstream maxFrames).1.frames) :
    ∃ txid r, s.rows.lookup txid = some r ∧ x = ⟨token, r.timestampAt * 1000, r.written⟩ := by
  obtain ⟨f, hf, hx⟩ := mem_filterMap.mp hx
  obtain ⟨r, hr, rfl⟩ := Option.map_eq_some_iff.mp hx
  obtain ⟨⟨txid, r', hlook, hrow⟩, -⟩ := mem_selected.mp (mem_of_sendCatchup hf)
  rw [← hrow] at hr
  rw [show (project txid r').txid = txid from rfl, hlook] at hr
  cases hr
  exact ⟨txid, r, hlook, by rw [Frame.id, ← hrow]; rfl⟩

theorem mem_fanOut {submissions : Submissions} {event : StatusEvent} {x : Receipt} :
    x ∈ fanOut submissions event ↔ ∃ a ∈ event.announced, (a.txid, x.token) ∈ submissions ∧
      x.id = event.timestamp ∧ x.written = a.written := by
  unfold fanOut
  rw [mem_flatMap]
  constructor
  · rintro ⟨a, ha, hx⟩
    obtain ⟨sub, hsub, rfl⟩ := mem_map.mp hx
    obtain ⟨hmem, heq⟩ := mem_filter.mp hsub
    refine ⟨a, ha, ?_, rfl, rfl⟩
    rwa [← of_decide_eq_true heq]
  · rintro ⟨a, ha, hsub, hid, hwritten⟩
    refine ⟨a, ha, mem_map.mpr ⟨(a.txid, x.token), ?_, ?_⟩⟩
    · exact mem_filter.mpr ⟨hsub, by simp⟩
    · rw [← hid, ← hwritten]

theorem recorded_empty : Recorded Ledger.empty where
  clock := by decide
  jobs := by simp [Ledger.empty]
  events := by simp [Ledger.empty]
  rows := by simp [Ledger.empty]
  sent := by simp [Ledger.empty]

theorem Recorded.later (h : Recorded s) {clock writes : Nat} (hclock : s.clock ≤ clock)
    (hbound : clock < 2 ^ 63) (hwrites : s.writes ≤ writes) :
    Recorded { s with clock, writes } where
  clock := hbound
  jobs job hjob := ⟨le_trans (h.jobs job hjob).1 hclock, fun a ha =>
    lt_of_lt_of_le ((h.jobs job hjob).2 a ha) hwrites⟩
  events event hevent := ⟨le_trans (h.events event hevent).1 hclock, fun a ha =>
    lt_of_lt_of_le ((h.events event hevent).2 a ha) hwrites⟩
  rows txid r hr := ⟨le_trans (h.rows txid r hr).1 hclock,
    lt_of_lt_of_le (h.rows txid r hr).2 hwrites⟩
  sent x hx := ⟨le_trans (h.sent x hx).1 hclock, lt_of_lt_of_le (h.sent x hx).2 hwrites⟩

theorem Recorded.set (h : Recorded s) {j : Nat} {job' : Job} (hj : s.jobs[j]? = some job)
    (hstamp : job'.stamp = job.stamp)
    (hannounced : ∀ a ∈ job'.announced, a ∈ job.announced ∨ a.written < s.writes) :
    ∀ other ∈ s.jobs.set j job',
      other.stamp ≤ s.clock ∧ ∀ a ∈ other.announced, a.written < s.writes := by
  intro other hother
  rcases mem_or_eq_of_mem_set hother with hmem | rfl
  · exact h.jobs other hmem
  · obtain ⟨hle, hall⟩ := h.jobs job (mem_of_getElem? hj)
    rw [hstamp]
    refine ⟨hle, ?_⟩
    intro a ha
    rcases hannounced a ha with hold | hnew
    · exact hall a hold
    · exact hnew

theorem rowStamp_le (h : Recorded s) {j : Nat} (hj : s.jobs[j]? = some job) :
    rowStamp s job * 1000 ≤ s.clock := by
  have hstamp := (h.jobs job (mem_of_getElem? hj)).1
  unfold rowStamp
  split <;> omega

theorem written_announcements {changes : List (String × TxRow)} {a : Announced}
    (ha : a ∈ announcements s job changes) : a.written = s.writes := by
  obtain ⟨c, -, rfl⟩ := mem_map.mp ha
  rfl

theorem Recorded.step (h : Recorded s) (e : Event) : Recorded (step s e) := by
  cases e with
  | tick ns =>
    simp only [Sse.step]
    split
    · rename_i hclock
      exact h.later (Nat.le_add_right ..) hclock (le_refl _)
    · exact h
  | submission txid token => exact { h with }
  | begin task =>
    refine { h with jobs := ?_ }
    intro job hjob
    rcases mem_append.mp hjob with hjob | hjob
    · exact h.jobs job hjob
    · cases mem_singleton.mp hjob
      exact ⟨le_refl _, by simp⟩
  | write j k =>
    simp only [Sse.step]
    split
    · exact h
    · rename_i job hj
      split
      · exact h
      · have hlater := h.later (le_refl _) h.clock (Nat.le_succ s.writes)
        refine { hlater with jobs := hlater.set hj rfl ?_, rows := ?_ }
        · intro a ha
          rcases mem_append.mp ha with ha | ha
          · exact .inl ha
          · right
            rw [written_announcements ha]
            exact Nat.lt_succ_self _
        · intro txid r hr
          rcases lookup_stampRows hr with ⟨hold, -⟩ | ⟨-, hstamp, hwritten⟩
          · exact hlater.rows txid r hold
          · rw [hstamp, hwritten]
            exact ⟨rowStamp_le h hj, Nat.lt_succ_self _⟩
  | fail j k =>
    simp only [Sse.step]
    split
    · exact h
    · rename_i job hj
      exact { h with jobs := h.set hj rfl fun a ha => .inl ha }
  | publish j =>
    simp only [Sse.step]
    split
    · exact h
    · rename_i job hj
      split
      · rename_i stamp _ _
        refine { h with jobs := h.set hj rfl (by simp), events := ?_ }
        intro event hevent
        rcases mem_append.mp hevent with hevent | hevent
        · exact h.events event hevent
        · cases mem_singleton.mp hevent
          have hjob := h.jobs job (mem_of_getElem? hj)
          cases stamp with
          | again => exact ⟨le_refl _, hjob.2⟩
          | asRows => exact hjob
      · exact h
  | fanOut k =>
    simp only [Sse.step]
    split
    · exact h
    · rename_i event hevent
      refine { h with sent := ?_ }
      intro x hx
      rcases mem_append.mp hx with hx | hx
      · exact h.sent x hx
      · obtain ⟨a, ha, -, hid, hwritten⟩ := mem_fanOut.mp hx
        have hrecorded := h.events event (mem_of_getElem? hevent)
        rw [hid, hwritten]
        exact ⟨hrecorded.1, hrecorded.2 a ha⟩
  | catchup order link token since midstream maxFrames =>
    refine { h with sent := ?_ }
    intro x hx
    rcases mem_append.mp hx with hx | hx
    · exact h.sent x hx
    · obtain ⟨txid, r, hlook, rfl⟩ := mem_replayed hx
      exact h.rows txid r hlook

theorem recorded_of_mem_states {es : List Event} (hs : s ∈ states step Ledger.empty es) :
    Recorded s :=
  states_invariant (C := fun _ _ => True) (fun _ e h _ => h.step e) recorded_empty
    (allSteps_iff.mpr fun _ _ _ _ => trivial) s hs

/-! ## Resuming -/

/-- The client that comes back with the id of the frame is told the status of every row of its
token that was written after what the frame says, unless the replay is capped or fails. -/
def Resumes (s : Ledger) (x : Receipt) : Prop :=
  ∀ (order : RowOrder) (link : Link),
    let result := (connectCatchup s.rows s.submissions order link x.token (toString x.id)).result
    result.capped = false → result.err = none →
      ∀ txid r, (txid, x.token) ∈ s.submissions → s.rows.lookup txid = some r →
        x.written < r.written → ∃ f ∈ result.frames, f.row.txid = txid ∧ f.row.status = r.row.status

/-- The rows of the token that were written after what the frame says have a stamp of a later
microsecond than the frame. -/
def StampedAfter (s : Ledger) (x : Receipt) : Prop :=
  ∀ txid r, (txid, x.token) ∈ s.submissions → s.rows.lookup txid = some r →
    x.written < r.written → x.id / 1000 < r.timestampAt

/-- In every state of a run, a client that comes back with the id of a frame misses nothing exactly
when the rows written since are stamped after the frame, or there are too many for one replay. -/
theorem connectCatchup_complete_iff (es : List Event) {s : Ledger}
    (hs : s ∈ states step Ledger.empty es) {x : Receipt} (hx : x ∈ s.sent) :
    Resumes s x ↔ Overfull (missed s.rows s.submissions x.token x.id) ∨ StampedAfter s x := by
  have hrecorded := recorded_of_mem_states hs
  have hid : x.id < 2 ^ 63 := lt_of_le_of_lt (hrecorded.sent x hx).1 hrecorded.clock
  constructor
  · intro hresumes
    by_cases hfull : Overfull (missed s.rows s.submissions x.token x.id)
    · exact .inl hfull
    · right
      intro txid r hsub hlook hwritten
      obtain ⟨hcapped, herr⟩ :=
        connectCatchup_fine s.rows s.submissions .stable x.token hid hfull
      obtain ⟨f, hf, htxid, -⟩ := hresumes .stable .fine hcapped herr txid r hsub hlook hwritten
      have hmissed := ((connectCatchup_sends s.rows s.submissions .stable .fine x.token hid
        hcapped herr).2 f.row).mpr ⟨f, hf, rfl⟩
      obtain ⟨⟨txid', r', hlook', hrow⟩, -, hstamp⟩ := mem_missed.mp hmissed
      -- the frame is of the row, since a txid has one row
      have hsame : txid' = txid := by rw [← htxid, ← hrow]; rfl
      subst hsame
      rw [hlook] at hlook'
      cases hlook'
      rw [← hrow] at hstamp
      exact hstamp
  · intro hcond order link result hcapped herr txid r hsub hlook hwritten
    obtain ⟨hfull, hsends⟩ :=
      connectCatchup_sends s.rows s.submissions order link x.token hid hcapped herr
    rcases hcond with hover | hstamped
    · exact absurd hover hfull
    · have hmissed : project txid r ∈ missed s.rows s.submissions x.token x.id :=
        mem_missed.mpr ⟨⟨txid, r, hlook, rfl⟩, hsub, hstamped txid r hsub hlook hwritten⟩
      obtain ⟨f, hf, hrow⟩ := (hsends (project txid r)).mp hmissed
      exact ⟨f, hf, by rw [hrow]; rfl, by rw [hrow]; rfl⟩

/-- Two transactions of a client, each to be announced by a batch of its own. -/
def submitBoth : List Event :=
  [.begin (.submit "aa" []), .write 0 0, .submission "aa" "token",
    .begin (.submit "bb" []), .write 1 0, .submission "bb" "token", .tick 1000000]

def accept (txid : String) : Event := .begin (.terminalStatuses [(txid, .acceptedByNetwork, "")])

/-- The batches follow each other. -/
def inTurnRun : List Event :=
  submitBoth ++ [accept "bb", .tick 2000000, .write 2 0, .publish 2, .fanOut 0, .tick 1000000,
    accept "aa", .write 3 0]

theorem connectCatchup_complete_iff_inTurn :
    Resumes (run step Ledger.empty inTurnRun) ⟨"token", 3000000, 2⟩ := by
  have hstates := (mem_states_iff step Ledger.empty (run step Ledger.empty inTurnRun)
    inTurnRun).mpr ⟨inTurnRun, [], by simp, rfl⟩
  refine (connectCatchup_complete_iff inTurnRun hstates (mem_singleton.mpr rfl)).mpr (.inr ?_)
  intro txid r hsub hlook hwritten
  have hcases : txid = "aa" ∨ txid = "bb" := by
    rcases mem_cons.mp hsub with h | h
    · exact .inl (congrArg Prod.fst h)
    · exact .inr (congrArg Prod.fst (mem_singleton.mp h))
  rcases hcases with rfl | rfl
  · cases hlook
    decide
  · cases hlook
    exact absurd hwritten (by decide)

/-- The broadcast of the first batch is slow: it has read the clock before the second batch, and
it writes its row when the second has been announced. -/
def overtakenRun : List Event :=
  submitBoth ++ [accept "aa", .tick 1000000, accept "bb", .tick 1000000, .write 3 0, .publish 3,
    .fanOut 0, .tick 1000000, .write 2 0]

/-- The client has had the frame of the second transaction. The row of the first is written after
that with an earlier stamp, and the replay says nothing of it. -/
theorem overtakenRun_misses :
    let s := run step Ledger.empty overtakenRun
    (⟨"token", 3000000, 2⟩ : Receipt) ∈ s.sent ∧ ("aa", "token") ∈ s.submissions ∧
      s.rows.lookup "aa" = some ⟨{ receivedRow [] with status := .acceptedByNetwork }, 1000, 3⟩ ∧
      (connectCatchup s.rows s.submissions .stable .fine "token" "3000000").result = .start ∧
      ¬ Resumes s ⟨"token", 3000000, 2⟩ := by
  refine ⟨mem_singleton.mpr rfl, mem_cons_self .., rfl, rfl, ?_⟩
  intro h
  obtain ⟨f, hf, -⟩ := h .stable .fine rfl rfl "aa" _ (mem_cons_self ..) rfl (by decide)
  cases hf

end Arcade.Sse
