import Arcade.ApiServer.Submit

/-!
Seen callbacks and the tracker in front of the store.

`applySeenCallback` drops a txid before it asks the store when the status that the in-process
tracker holds for it refuses the callback. The tracker is written by the submit handlers, by
the hydration at startup and by the callbacks themselves; the rows are also moved by services
that know nothing of it. Callbacks run side by side, one call at a time, and a value on its way
into the tracker was read from the store, or written there, at an earlier moment.
-/

namespace Arcade.ApiServer

open Lib List
open Propagation (Status)
open Store (TxRow TxRows StatusUpdate canTransitionFrom)

/-! ## The callback -/

/-- The status is at the target already, or refuses it. -/
def eclipsed (target status : Status) : Bool :=
  status = target || !canTransitionFrom target status

/-- One row of `BatchUpdateStatusReturning`. -/
inductive RowUpdate where
  | applied (prev : Status)
  | refused (current : Status)
  | absent
  | failed

inductive SeenCall : Type → Type 1 where
  | trackerStatus (txid : String) : SeenCall (Option Status)
  | updateStatusReturning (txid : String) (target : Status) : SeenCall RowUpdate
  | trackerUpdate (txid : String) (status : Status) : SeenCall Unit
  | publishBulk (status : Status) (txids : List String) : SeenCall Unit

/-- The txids that pass the tracker. -/
def prefilter (target : Status) : List String → Prog SeenCall (List String)
  | [] => pure []
  | txid :: txids => do
    let tracked ← Prog.send (.trackerStatus txid)
    let kept ← prefilter target txids
    pure (if tracked.any (eclipsed target) then kept else txid :: kept)

def updateRows (target : Status) : List String → Prog SeenCall (List (String × RowUpdate))
  | [] => pure []
  | txid :: txids => do
    let update ← Prog.send (.updateStatusReturning txid target)
    let updates ← updateRows target txids
    pure ((txid, update) :: updates)

/-- The txids to publish; the tracker follows each row that was moved. -/
def successful (target : Status) : List (String × RowUpdate) → Prog SeenCall (List String)
  | [] => pure []
  | (txid, .applied prev) :: updates =>
    if prev = target then successful target updates
    else do
      Prog.send (.trackerUpdate txid target)
      let txids ← successful target updates
      pure (txid :: txids)
  | (_, _) :: updates => successful target updates

/-- Whether the callback is to be delivered again. -/
def applySeenCallback (target : Status) (txids : List String) : Prog SeenCall Bool := do
  let kept ← prefilter target txids
  if kept = [] then pure false
  else do
    let updates ← updateRows target kept
    let moved ← successful target updates
    if moved = [] then pure ()
    else Prog.send (.publishBulk target moved)
    pure (updates.any fun u => u.2 matches .failed)

/-! ## The store and the tracker -/

structure Shared where
  rows : TxRows
  tracker : GoMap String Status

def seenStatus (target : Status) : StatusUpdate where
  status := some target
  blockHash := ""
  blockHeight := 0
  extraInfo := ""
  rawTx := []
  retryCount := 0
  nextRetry := 0

def updateStatusReturning (s : Shared) (txid : String) (target : Status) : RowUpdate × Shared :=
  match s.rows.lookup txid with
  | none => (.absent, s)
  | some row =>
    match Store.updateStatus (seenStatus target) row with
    | none => (.refused row.status, s)
    | some row' => (.applied row.status, { s with rows := s.rows.insert txid row' })

/-- `TxTracker.UpdateStatus`; a txid that is not tracked stays so. -/
def trackerUpdate (s : Shared) (txid : String) (status : Status) : Shared :=
  if txid ∈ s.tracker then { s with tracker := s.tracker.insert txid status } else s

/-- `failing` has the rows whose write fails. -/
def seenEnv : Env SeenCall (String → Bool) Shared where
  exec failing c s :=
    match c with
    | .trackerStatus txid => (s.tracker.lookup txid, s)
    | .updateStatusReturning txid target =>
      if failing txid then (.failed, s) else updateStatusReturning s txid target
    | .trackerUpdate txid status => ((), trackerUpdate s txid status)
    | .publishBulk _ _ => ((), s)
  ok _ _ _ := True

/-! ## What a callback skips -/

/-- The prefilter's verdict on one txid. -/
def skips (tracker : GoMap String Status) (target : Status) (txid : String) : Bool :=
  (tracker.lookup txid).any (eclipsed target)

/-- The callback, run at this moment, asks the store to move the txid. -/
def AsksStore (s : Shared) (failing : String → Bool) (target : Status) (txids : List String)
    (txid : String) : Prop :=
  ⟨RowUpdate, .updateStatusReturning txid target⟩ ∈
    (applySeenCallback target txids).callsWith seenEnv failing s

section Asks

variable {target : Status} {txid : String} {s : Shared} {failing : String → Bool}

/-- No call to the store. -/
def SeenCall.aside : (ρ : Type) → SeenCall ρ → Prop
  | _, .updateStatusReturning _ _ => False
  | _, _ => True

theorem prefilter_runWith (txids : List String) :
    (prefilter target txids).runWith seenEnv failing s =
      (txids.filter fun txid => !skips s.tracker target txid, s) := by
  induction txids with
  | nil => rfl
  | cons txid txids ih =>
    have hrest := runWith_bind (E := seenEnv) failing (prefilter target txids)
      (fun kept => pure (if skips s.tracker target txid then kept else txid :: kept)) s
    rw [ih, runWith_pure] at hrest
    apply Eq.trans hrest
    rw [filter_cons]
    cases skips s.tracker target txid <;> rfl

theorem makes_prefilter (txids : List String) : (prefilter target txids).Makes SeenCall.aside := by
  induction txids with
  | nil => trivial
  | cons txid txids ih =>
    apply Prog.Makes.call trivial
    intro tracked
    exact ih.bind fun kept => trivial

theorem makes_successful (updates : List (String × RowUpdate)) :
    (successful target updates).Makes SeenCall.aside := by
  fun_induction successful target updates with
  | case1 => trivial
  | case2 txid updates ih => exact ih
  | case3 txid prev updates hprev ih =>
    apply Prog.Makes.call trivial
    intro _
    exact ih.bind fun txids => trivial
  | case4 txid update updates hupdate ih => exact ih

theorem updateRows_asks (txids : List String) :
    ⟨RowUpdate, .updateStatusReturning txid target⟩ ∈
      (updateRows target txids).callsWith seenEnv failing s ↔ txid ∈ txids := by
  induction txids generalizing s with
  | nil => simp [updateRows]
  | cons first txids ih =>
    rw [updateRows, callsWith_call, callsWith_bind, callsWith_pure, append_nil, mem_cons, ih,
      mem_cons]
    simp

theorem asksStore_iff (txids : List String) :
    AsksStore s failing target txids txid ↔ txid ∈ txids ∧ skips s.tracker target txid = false := by
  have hkept : txid ∈ txids ∧ skips s.tracker target txid = false ↔
      txid ∈ txids.filter fun txid => !skips s.tracker target txid := by simp
  rw [hkept, AsksStore, applySeenCallback, callsWith_bind, prefilter_runWith, mem_append,
    or_iff_right (makes_prefilter txids).of_mem_callsWith]
  split
  · rename_i hnil
    rw [callsWith_pure, show txids.filter (fun txid => !skips s.tracker target txid) = [] from hnil]
    simp
  · rw [callsWith_bind, mem_append, updateRows_asks, or_iff_left]
    rw [callsWith_bind, mem_append, not_or]
    refine ⟨(makes_successful _).of_mem_callsWith, ?_⟩
    have hrest : ∀ (moved : List String) (again : Bool), (do
        if moved = [] then pure () else Prog.send (SeenCall.publishBulk target moved)
        pure again : Prog SeenCall Bool).Makes SeenCall.aside := by
      intro moved again
      split
      · trivial
      · exact Prog.Makes.call trivial fun _ => trivial
    exact (hrest _ _).of_mem_callsWith

end Asks

/-! ## The lattice -/

def seenTargets : List Status := [.seenOnNetwork, .seenMultipleNodes]

/-- How many of the two targets the status eclipses, the first one first. -/
def seenRank : Status → Nat
  | .seenOnNetwork => 1
  | .seenMultipleNodes | .doubleSpendAttempted | .pendingRetry | .mined | .immutable => 2
  | .unknown | .received | .sentToNetwork | .acceptedByNetwork | .rejected | .stumpProcessing => 0

theorem eclipsed_iff_rank {target : Status} (htarget : target ∈ seenTargets) (status : Status) :
    eclipsed target status = true ↔ seenRank target ≤ seenRank status := by
  have hall : ∀ target ∈ seenTargets,
      (eclipsed target status = true ↔ seenRank target ≤ seenRank status) := by
    cases status <;> decide
  exact hall target htarget

theorem seenRank_le_of_seen {target row : Status} (htarget : target ∈ seenTargets)
    (hmove : canTransitionFrom target row = true) : seenRank row ≤ seenRank target := by
  have hall : ∀ target ∈ seenTargets,
      canTransitionFrom target row = true → seenRank row ≤ seenRank target := by
    cases row <;> decide
  exact hall target htarget hmove

/-! ## What a callback owes the tracker -/

section Owed

variable {α β : Type} {target : Status} {owed : List String}

/-- The txids whose rows the callback has moved and whose status the tracker has not been given. -/
def owedAfter (target : Status) (owed : List String) : {ρ : Type} → SeenCall ρ → ρ → List String
  | _, .updateStatusReturning txid _, .applied prev =>
    if prev = target then owed else owed ++ [txid]
  | _, .trackerUpdate txid _, _ => owed.erase txid
  | _, _, _ => owed

/-- The tracker is given what it is owed, and no row is moved to another status. -/
def SeenCall.Fits (target : Status) (owed : List String) : {ρ : Type} → SeenCall ρ → Prop
  | _, .updateStatusReturning _ status => status = target
  | _, .trackerUpdate txid status => status = target ∧ txid ∈ owed
  | _, _ => True

/-- Whatever the replies, the calls fit, and `Q` holds of the result and what is owed at the end. -/
def Settles (target : Status) (Q : α → List String → Prop) : Prog SeenCall α → List String → Prop
  | .done a, owed => Q a owed
  | .call c next, owed =>
    c.Fits target owed ∧ ∀ r, Settles target Q (next r) (owedAfter target owed c r)

theorem Settles.bind {p : Prog SeenCall α} {f : α → Prog SeenCall β} {P : α → List String → Prop}
    {Q : β → List String → Prop} (hp : Settles target P p owed)
    (hf : ∀ a left, P a left → Settles target Q (f a) left) : Settles target Q (p >>= f) owed := by
  induction p generalizing owed with
  | done a => exact hf a owed hp
  | call c next ih => exact ⟨hp.1, fun r => ih r (hp.2 r)⟩

/-- What the rows' replies leave to tell the tracker. -/
def owedBy (target : Status) : List (String × RowUpdate) → List String
  | [] => []
  | (txid, .applied prev) :: updates =>
    if prev = target then owedBy target updates else txid :: owedBy target updates
  | (_, _) :: updates => owedBy target updates

theorem settles_prefilter (txids : List String) :
    Settles target (fun _ left => left = owed) (prefilter target txids) owed := by
  induction txids with
  | nil => rfl
  | cons txid txids ih => exact ⟨trivial, fun r => ih.bind fun kept left hleft => hleft⟩

theorem settles_updateRows (txids : List String) :
    Settles target (fun updates left => left = owed ++ owedBy target updates)
      (updateRows target txids) owed := by
  induction txids generalizing owed with
  | nil => exact (append_nil owed).symm
  | cons txid txids ih =>
    refine ⟨rfl, fun r => ih.bind ?_⟩
    rintro updates _ rfl
    cases r with
    | applied prev =>
      show (if prev = target then owed else owed ++ [txid]) ++ owedBy target updates = owed ++
        if prev = target then owedBy target updates else txid :: owedBy target updates
      split <;> simp
    | refused current => rfl
    | absent => rfl
    | failed => rfl

theorem settles_successful (updates : List (String × RowUpdate)) :
    Settles target (fun _ left => left = []) (successful target updates)
      (owedBy target updates) := by
  fun_induction successful target updates with
  | case1 => rfl
  | case2 txid updates ih => simpa [owedBy] using ih
  | case3 txid prev updates hprev ih =>
    rw [owedBy, if_neg hprev]
    refine ⟨⟨rfl, mem_cons_self ..⟩, fun _ => ?_⟩
    rw [show owedAfter target (txid :: owedBy target updates) (.trackerUpdate txid target) () =
      owedBy target updates from erase_cons_head ..]
    exact ih.bind fun txids left hleft => hleft
  | case4 txid update updates hupdate ih =>
    rw [owedBy]
    · exact ih
    · exact hupdate

theorem settles_applySeenCallback (txids : List String) :
    Settles target (fun _ left => left = []) (applySeenCallback target txids) [] := by
  refine (settles_prefilter txids).bind ?_
  rintro kept _ rfl
  split
  · rfl
  · refine (settles_updateRows kept).bind ?_
    rintro updates _ rfl
    refine (settles_successful updates).bind ?_
    rintro moved _ rfl
    split
    · rfl
    · exact ⟨trivial, fun _ => rfl⟩

end Owed

/-! ## The system -/

def tracksStatus : Status → Bool
  | .immutable | .rejected | .doubleSpendAttempted => false
  | _ => true

/-- `TrackerScan.Keep`. -/
def scanKeeps (pruneMinedBelow : Nat) (row : TxRow) : Bool :=
  tracksStatus row.status && !(row.status = .mined && 0 < row.blockHeight && 0 < pruneMinedBelow &&
      row.blockHeight < pruneMinedBelow)

inductive Write where
  | update (u : StatusUpdate)
  | setMined (blockHash : String) (blockHeight : Nat)
  | setStatusByBlockHash (blockHash : String) (status : Status)
  | bumpRetryCount
  | setPendingRetryFields (rawTx : List UInt8) (nextRetry : Int) (reason : String)
  | clearRetryState (finalStatus : Status) (extraInfo : String)

def Write.apply : Write → TxRow → Option TxRow
  | .update u, row => Store.updateStatus u row
  | .setMined hash height, row => Store.setMined hash height row
  | .setStatusByBlockHash hash status, row => Store.setStatusByBlockHash hash status row
  | .bumpRetryCount, row => some (Store.bumpRetryCount row)
  | .setPendingRetryFields rawTx nextRetry reason, row =>
    Store.setPendingRetryFields rawTx nextRetry reason row
  | .clearRetryState status extraInfo, row => some (Store.clearRetryState status extraInfo row)

/-- A callback on its way, with the txids that it owes the tracker. -/
structure Callback where
  target : Status
  owed : List String
  rest : Prog SeenCall Bool

/-- `held` has the statuses that a submit or a scan has read and not yet put into the tracker. -/
structure System extends Shared where
  held : List (String × Status)
  callbacks : List Callback

inductive Event where
  /-- `GetOrInsertStatus` of a submit; a failed call may have inserted the row. -/
  | submit (txid : String) (rawTx : List UInt8) (failed landed : Bool)
  /-- `GetOrInsertStatus` of an intake rejection. -/
  | reject (txid reason : String)
  | scan (txid : String) (pruneMinedBelow : Nat)
  /-- `TxTracker.Add`, and the write of the hydration. -/
  | add (txid : String) (status : Status)
  | receive (target : Status) (txids : List String)
  | call (i : Nat) (failing : String → Bool)
  | write (txid : String) (w : Write)

def heldBySubmit : InsertReply → Status
  | .failed => .received
  | .inserted => .received
  | .existing row => if shouldRepublishExisting row.status then .received else row.status

def step (s : System) : Event → System
  | .submit txid rawTx failed landed =>
    let (reply, rows) := getOrInsert s.rows txid (receivedRow rawTx)
    if failed then
      { s with
        rows := if landed then rows else s.rows
        held := (txid, .received) :: s.held }
    else
      { s with
        rows := rows
        held := (txid, heldBySubmit reply) :: s.held }
  | .reject txid reason => { s with rows := (getOrInsert s.rows txid (rejectedRow reason)).2 }
  | .scan txid pruneMinedBelow =>
    match s.rows.lookup txid with
    | some row =>
      if scanKeeps pruneMinedBelow row then { s with held := (txid, row.status) :: s.held } else s
    | none => s
  | .add txid status =>
    { s with
      tracker := s.tracker.insert txid status
      held := s.held.erase (txid, status) }
  | .receive target txids =>
    { s with callbacks := s.callbacks ++ [⟨target, [], applySeenCallback target txids⟩] }
  | .call i failing =>
    match s.callbacks[i]? with
    | some ⟨target, owed, .call c next⟩ =>
      let out := seenEnv.exec failing c s.toShared
      { s with
        toShared := out.2
        callbacks := s.callbacks.set i ⟨target, owedAfter target owed c out.1, next out.1⟩ }
    | _ => s
  | .write txid w =>
    match s.rows.lookup txid with
    | some row =>
      match w.apply row with
      | some row' => { s with rows := s.rows.insert txid row' }
      | none => s
    | none => s

/-- A status goes into the tracker after it was read, and a callback has one of two targets. -/
def Legal (s : System) : Event → Prop
  | .add txid status => (txid, status) ∈ s.held
  | .receive target _ => target ∈ seenTargets
  | _ => True

/-- The tracker has the status for the txid, or is about to be given it. -/
def System.Knows (s : System) (txid : String) (status : Status) : Prop :=
  s.tracker.lookup txid = some status ∨ (txid, status) ∈ s.held ∨
    ∃ cb ∈ s.callbacks, txid ∈ cb.owed ∧ cb.target = status

def Write.Sets (row : TxRow) (status : Status) : Write → Prop
  | .update u => u.status = some status ∧ canTransitionFrom status row.status = true
  | .setMined _ _ => status = .mined ∧ row.status ≠ .immutable
  | .setStatusByBlockHash hash new => status = new ∧ row.blockHash = hash ∧ row.status ≠ .immutable
  | .bumpRetryCount => False
  | .setPendingRetryFields _ _ _ =>
    status = .pendingRetry ∧ canTransitionFrom .pendingRetry row.status = true
  | .clearRetryState new _ => status = new

/-- No write takes a row down to a rank below a status that the tracker has for it, or is about to
be given. -/
def KeepsPace (s : System) : Event → Prop
  | .write txid w => ∀ row status, s.rows.lookup txid = some row → w.Sets row status →
    seenRank status < seenRank row.status →
    ∀ known, s.Knows txid known → seenRank known ≤ seenRank status
  | _ => True

/-! ## The tracker against the rows -/

/-- A row that is missing takes any callback. -/
def rankOf (rows : TxRows) (txid : String) : Nat :=
  (rows.lookup txid).elim 0 fun row => seenRank row.status

/-- What the tracker has or is about to be given is at most at the rank of the row. -/
def Paced (s : System) : Prop :=
  ∀ txid status, s.Knows txid status → seenRank status ≤ rankOf s.rows txid

/-- The callbacks on their way are `applySeenCallback`'s, and pay the tracker what they owe. -/
def Orderly (s : System) : Prop :=
  ∀ cb ∈ s.callbacks, cb.target ∈ seenTargets ∧
    Settles cb.target (fun _ left => left = []) cb.rest cb.owed

section Rows

variable {rows : TxRows} {txid : String}

theorem rankOf_of_lookup {row : TxRow} (h : rows.lookup txid = some row) :
    rankOf rows txid = seenRank row.status := by
  rw [rankOf, h]
  rfl

theorem rankOf_insert (row : TxRow) (id : String) : rankOf (rows.insert txid row) id =
    if id = txid then seenRank row.status else rankOf rows id := by
  rw [rankOf, GoMap.lookup_insert_eq]
  split <;> rfl

theorem rankOf_getOrInsert (new : TxRow) (id : String) :
    rankOf rows id ≤ rankOf (getOrInsert rows txid new).2 id := by
  unfold getOrInsert
  split
  · exact le_rfl
  · rename_i hnone
    rw [rankOf_insert]
    split
    · rename_i hid
      rw [hid, rankOf, hnone]
      exact Nat.zero_le _
    · exact le_rfl

theorem seenRank_heldBySubmit (new : TxRow) :
    seenRank (heldBySubmit (getOrInsert rows txid new).1) ≤
      rankOf (getOrInsert rows txid new).2 txid := by
  unfold getOrInsert
  split
  · rename_i row hrow
    rw [rankOf_of_lookup hrow, heldBySubmit]
    split
    · exact Nat.zero_le _
    · exact le_rfl
  · exact Nat.zero_le _

end Rows

theorem Write.apply_status {w : Write} {row row' : TxRow} (h : w.apply row = some row') :
    row'.status = row.status ∨ w.Sets row row'.status := by
  cases w with
  | update u =>
    simp only [Write.apply, Store.updateStatus] at h
    split at h
    · rename_i hall
      cases h
      cases hu : u.status with
      | none => exact .inl (by simp [Store.mergeStatus, hu])
      | some status =>
        refine .inr ⟨by simp [Store.mergeStatus, hu], ?_⟩
        simpa [Store.mergeStatus, hu] using hall
    · cases h
  | setMined hash height =>
    obtain ⟨hne, hstatus, -⟩ := Store.setMined_eq_some h
    exact .inr ⟨hstatus, hne⟩
  | setStatusByBlockHash hash status =>
    obtain ⟨hhash, hne, hstatus⟩ := Store.setStatusByBlockHash_eq_some h
    exact .inr ⟨hstatus, hhash, hne⟩
  | bumpRetryCount =>
    cases h
    exact .inl rfl
  | setPendingRetryFields rawTx nextRetry reason =>
    simp only [Write.apply, Store.setPendingRetryFields] at h
    split at h
    · rename_i hmove
      cases h
      exact .inr ⟨rfl, hmove⟩
    · cases h
  | clearRetryState status extraInfo =>
    cases h
    exact .inr rfl

/-! ## One step -/

section Step

variable {s t : System} {txid : String} {status : Status}

theorem Paced.grow (hs : Paced s) (hrows : ∀ id, rankOf s.rows id ≤ rankOf t.rows id)
    (hknows : ∀ id known, t.Knows id known →
      s.Knows id known ∨ seenRank known ≤ rankOf t.rows id) : Paced t := by
  intro id known h
  rcases hknows id known h with h | h
  · exact (hs id known h).trans (hrows id)
  · exact h

theorem Paced.hold {rows : TxRows} (hs : Paced s)
    (hrows : ∀ id, rankOf s.rows id ≤ rankOf rows id)
    (h : seenRank status ≤ rankOf rows txid) :
    Paced { s with rows := rows, held := (txid, status) :: s.held } := by
  refine hs.grow hrows ?_
  rintro id known (hk | hk | hk)
  · exact .inl (.inl hk)
  · rcases mem_cons.mp hk with heq | hk
    · obtain ⟨rfl, rfl⟩ := Prod.mk.inj heq
      exact .inr h
    · exact .inl (.inr (.inl hk))
  · exact .inl (.inr (.inr hk))

/-- What one call of a callback does: no row goes down, the tracker is given what it is owed, and
what is owed has its row at the target. -/
theorem exec_paced {ρ : Type} {c : SeenCall ρ} {target : Status} {owed : List String}
    (htarget : target ∈ seenTargets) (hc : c.Fits target owed) (failing : String → Bool)
    (s : Shared) :
    (∀ id, rankOf s.rows id ≤ rankOf (seenEnv.exec failing c s).2.rows id) ∧
    (∀ id known, (seenEnv.exec failing c s).2.tracker.lookup id = some known →
      s.tracker.lookup id = some known ∨ id ∈ owed ∧ target = known) ∧
    ∀ id ∈ owedAfter target owed c (seenEnv.exec failing c s).1,
      id ∈ owed ∨ seenRank target ≤ rankOf (seenEnv.exec failing c s).2.rows id := by
  cases c with
  | trackerStatus txid => exact ⟨fun _ => le_rfl, fun _ _ h => .inl h, fun _ h => .inl h⟩
  | publishBulk status txids => exact ⟨fun _ => le_rfl, fun _ _ h => .inl h, fun _ h => .inl h⟩
  | updateStatusReturning txid status =>
    obtain rfl : status = target := hc
    simp only [seenEnv, updateStatusReturning]
    split
    · exact ⟨fun _ => le_rfl, fun _ _ h => .inl h, fun _ h => .inl h⟩
    · split
      · exact ⟨fun _ => le_rfl, fun _ _ h => .inl h, fun _ h => .inl h⟩
      · rename_i row hrow
        split
        · exact ⟨fun _ => le_rfl, fun _ _ h => .inl h, fun _ h => .inl h⟩
        · rename_i row' hrow'
          have hset : row'.status = status ∧ seenRank row.status ≤ seenRank status := by
            unfold Store.updateStatus at hrow'
            split at hrow'
            · rename_i hmove
              cases hrow'
              exact ⟨rfl, seenRank_le_of_seen htarget hmove⟩
            · cases hrow'
          refine ⟨fun id => ?_, fun _ _ h => .inl h, fun id hid => ?_⟩
          · rw [rankOf_insert, hset.1]
            split
            · rename_i hid
              rw [hid, rankOf_of_lookup hrow]
              exact hset.2
            · exact le_rfl
          · simp only [owedAfter] at hid
            split at hid
            · exact .inl hid
            · rcases mem_append.mp hid with hid | hid
              · exact .inl hid
              · rw [rankOf_insert, if_pos (mem_singleton.mp hid), hset.1]
                exact .inr le_rfl
  | trackerUpdate txid status =>
    obtain ⟨rfl, howed⟩ := hc
    refine ⟨fun id => ?_, fun id known h => ?_, fun id hid => .inl (mem_of_mem_erase hid)⟩
    · simp only [seenEnv, trackerUpdate]
      split <;> exact le_rfl
    · simp only [seenEnv, trackerUpdate] at h
      split at h
      · rcases GoMap.of_lookup_insert h with ⟨rfl, rfl⟩ | ⟨-, h⟩
        · exact .inr ⟨howed, rfl⟩
        · exact .inl h
      · exact .inl h

theorem step_call {i : Nat} {target : Status} {owed : List String} {ρ : Type} {c : SeenCall ρ}
    {next : ρ → Prog SeenCall Bool} (h : s.callbacks[i]? = some ⟨target, owed, .call c next⟩)
    (failing : String → Bool) : step s (.call i failing) =
      { s with
        toShared := (seenEnv.exec failing c s.toShared).2
        callbacks := s.callbacks.set i
          ⟨target, owedAfter target owed c (seenEnv.exec failing c s.toShared).1,
            next (seenEnv.exec failing c s.toShared).1⟩ } := by
  simp only [step, h]

theorem step_call_cases (s : System) (i : Nat) (failing : String → Bool) :
    step s (.call i failing) = s ∨ ∃ target owed, ∃ ρ, ∃ c : SeenCall ρ, ∃ next,
      s.callbacks[i]? = some ⟨target, owed, .call c next⟩ := by
  cases h : s.callbacks[i]? with
  | none => exact .inl (by simp only [step, h])
  | some cb =>
    obtain ⟨target, owed, rest⟩ := cb
    cases rest with
    | done a => exact .inl (by simp only [step, h])
    | call c next => exact .inr ⟨target, owed, _, c, next, rfl⟩

theorem Orderly.step {e : Event} (hs : Orderly s) (he : Legal s e) : Orderly (step s e) := by
  cases e with
  | receive target txids =>
    intro cb hcb
    rcases mem_append.mp hcb with hcb | hcb
    · exact hs cb hcb
    · obtain rfl := mem_singleton.mp hcb
      exact ⟨he, settles_applySeenCallback txids⟩
  | call i failing =>
    rcases step_call_cases s i failing with h | ⟨target, owed, ρ, c, next, h⟩
    · rw [h]
      exact hs
    · rw [step_call h]
      intro cb hcb
      rcases mem_or_eq_of_mem_set hcb with hcb | rfl
      · exact hs cb hcb
      · obtain ⟨htarget, hsettles⟩ := hs _ (mem_of_getElem? h)
        exact ⟨htarget, hsettles.2 _⟩
  | submit txid rawTx failed landed =>
    simp only [ApiServer.step]
    split <;> exact hs
  | scan txid pruneMinedBelow =>
    simp only [ApiServer.step]
    split
    · split <;> exact hs
    · exact hs
  | write txid w =>
    simp only [ApiServer.step]
    split
    · split <;> exact hs
    · exact hs
  | reject txid reason => exact hs
  | add txid status => exact hs

theorem Paced.call (hs : Paced s) (ho : Orderly s) (i : Nat) (failing : String → Bool) :
    Paced (step s (.call i failing)) := by
  rcases step_call_cases s i failing with h | ⟨target, owed, ρ, c, next, h⟩
  · rw [h]
    exact hs
  · have hcb := mem_of_getElem? h
    obtain ⟨htarget, hsettles⟩ := ho _ hcb
    obtain ⟨hrows, htracker, howed⟩ := exec_paced htarget hsettles.1 failing s.toShared
    rw [step_call h]
    refine hs.grow hrows ?_
    rintro id known (hk | hk | ⟨cb, hin, hid, rfl⟩)
    · rcases htracker id known hk with hk | ⟨hid, rfl⟩
      · exact .inl (.inl hk)
      · exact .inl (.inr (.inr ⟨_, hcb, hid, rfl⟩))
    · exact .inl (.inr (.inl hk))
    · rcases mem_or_eq_of_mem_set hin with hin | rfl
      · exact .inl (.inr (.inr ⟨cb, hin, hid, rfl⟩))
      · rcases howed id hid with hid | hid
        · exact .inl (.inr (.inr ⟨_, hcb, hid, rfl⟩))
        · exact .inr hid

theorem Paced.write {w : Write} (hs : Paced s) (hpace : KeepsPace s (.write txid w)) :
    Paced (step s (.write txid w)) := by
  simp only [step]
  split
  · rename_i row hrow
    split
    · rename_i row' hw
      intro id known hknown
      have hle := hs id known hknown
      rw [rankOf_insert]
      split
      · rename_i hid
        subst hid
        rw [rankOf_of_lookup hrow] at hle
        rcases Write.apply_status hw with heq | hsets
        · rw [heq]
          exact hle
        · by_cases hlt : seenRank row'.status < seenRank row.status
          · exact hpace row _ hrow hsets hlt known hknown
          · omega
      · exact hle
    · exact hs
  · exact hs

theorem Paced.step {e : Event} (hs : Paced s) (ho : Orderly s) (he : Legal s e)
    (hpace : KeepsPace s e) : Paced (step s e) := by
  cases e with
  | submit txid rawTx failed landed =>
    have hrows : ∀ id, rankOf s.rows id ≤
        rankOf (getOrInsert s.rows txid (receivedRow rawTx)).2 id := rankOf_getOrInsert _
    simp only [ApiServer.step]
    split
    · split
      · exact hs.hold hrows (Nat.zero_le _)
      · exact hs.hold (fun _ => le_rfl) (Nat.zero_le _)
    · exact hs.hold hrows (seenRank_heldBySubmit _)
  | reject txid reason => exact hs.grow (rankOf_getOrInsert _) fun _ _ h => .inl h
  | scan txid pruneMinedBelow =>
    simp only [ApiServer.step]
    split
    · rename_i hrow
      split
      · exact hs.hold (fun _ => le_rfl) (rankOf_of_lookup hrow).ge
      · exact hs
    · exact hs
  | add txid status =>
    refine hs.grow (fun _ => le_rfl) ?_
    rintro id known (hk | hk | hk)
    · rcases GoMap.of_lookup_insert hk with ⟨rfl, rfl⟩ | ⟨-, hk⟩
      · exact .inl (.inr (.inl he))
      · exact .inl (.inl hk)
    · exact .inl (.inr (.inl (mem_of_mem_erase hk)))
    · exact .inl (.inr (.inr hk))
  | receive target txids =>
    refine hs.grow (fun _ => le_rfl) ?_
    rintro id known (hk | hk | ⟨cb, hcb, hid, rfl⟩)
    · exact .inl (.inl hk)
    · exact .inl (.inr (.inl hk))
    · rcases mem_append.mp hcb with hcb | hcb
      · exact .inl (.inr (.inr ⟨cb, hcb, hid, rfl⟩))
      · rw [mem_singleton.mp hcb] at hid
        cases hid
  | call i failing => exact hs.call ho i failing
  | write txid w => exact hs.write hpace

end Step

/-! ## Runs -/

/-- What a callback of this moment does not ask the store to move, because of the tracker, the row
refuses, or is already there. -/
def SkipsRefused (s : Shared) : Prop :=
  ∀ target ∈ seenTargets, ∀ txids failing, ∀ txid ∈ txids,
    ¬ AsksStore s failing target txids txid → ∀ row, s.rows.lookup txid = some row →
      row.status = target ∨ canTransitionFrom target row.status = false

theorem Paced.skipsRefused {s : System} (hs : Paced s) : SkipsRefused s.toShared := by
  intro target htarget txids failing txid htxid hasks row hrow
  rw [asksStore_iff, not_and, Bool.not_eq_false, skips] at hasks
  obtain ⟨tracked, ht, hskips⟩ := (Option.any_eq_true ..).mp (hasks htxid)
  have hle := hs txid tracked (.inl ht)
  rw [rankOf_of_lookup hrow] at hle
  rw [eclipsed_iff_rank htarget] at hskips
  simpa [eclipsed] using (eclipsed_iff_rank htarget row.status).mpr (hskips.trans hle)

/-- Nothing is tracked, read or on its way yet. -/
def started (rows : TxRows) : System := ⟨⟨rows, ∅⟩, [], []⟩

/-- In a run of submits, callbacks, hydrations and store writers in which no write takes a row
below what is tracked for it, or read or owed by then: at each moment, what a callback skips
because of the tracker the row refuses. -/
theorem prefilter_safe (rows : TxRows) (es : List Event)
    (hlegal : AllSteps step Legal (started rows) es)
    (hpace : AllSteps step KeepsPace (started rows) es) :
    ∀ s ∈ states step (started rows) es, SkipsRefused s.toShared := by
  have hstart : Orderly (started rows) ∧ Paced (started rows) := by
    refine ⟨fun cb hcb => absurd hcb not_mem_nil, ?_⟩
    rintro txid status (h | h | ⟨cb, hcb, -⟩)
    · cases h
    · cases h
    · cases hcb
  have hrun := states_invariant (J := fun s => Orderly s ∧ Paced s)
    (fun s e hs he => ⟨hs.1.step he.1, hs.2.step hs.1 he.1 he.2⟩) hstart (hlegal.and hpace)
  exact fun s hs => (hrun s hs).2.skipsRefused

/-- A transaction is submitted, seen, mined and taken back to where it was seen. -/
def seenRun : List Event :=
  [.submit "tx" [] false false, .add "tx" .received, .receive .seenOnNetwork ["tx"],
    .call 0 fun _ => false, .call 0 fun _ => false, .call 0 fun _ => false,
    .write "tx" (.setMined "orphan" 7),
    .write "tx" (.setStatusByBlockHash "orphan" .seenOnNetwork)]

theorem prefilter_safe_seenRun : AllSteps step Legal (started ∅) seenRun ∧
    AllSteps step KeepsPace (started ∅) seenRun ∧
    ∀ s ∈ states step (started ∅) seenRun, SkipsRefused s.toShared := by
  have hlegal : AllSteps step Legal (started ∅) seenRun :=
    ⟨trivial, mem_singleton.mpr rfl, mem_cons_self .., trivial, trivial, trivial, trivial, trivial,
      trivial⟩
  have hpace : AllSteps step KeepsPace (started ∅) seenRun := by
    refine ⟨trivial, trivial, trivial, trivial, trivial, trivial, ?_, ?_, trivial⟩
    · rintro row _ ⟨⟩ ⟨rfl, -⟩ hlt
      exact absurd hlt (by decide)
    · rintro row _ ⟨⟩ ⟨rfl, -⟩ - known (h | h | ⟨cb, hcb, hid, -⟩)
      · obtain rfl : Status.seenOnNetwork = known := Option.some.inj h
        exact le_rfl
      · cases h
      · obtain rfl := mem_singleton.mp hcb
        cases hid
  exact ⟨hlegal, hpace, prefilter_safe ∅ seenRun hlegal hpace⟩

/-! A block is orphaned after its transaction was submitted once more. -/

def minedRow : TxRow :=
  { receivedRow [] with
    status := .mined
    blockHash := "orphan"
    blockHeight := 7 }

def revertRun : List Event :=
  [.submit "tx" [] false false, .add "tx" .mined,
    .write "tx" (.setStatusByBlockHash "orphan" .seenOnNetwork)]

/-- The row is back at SEEN_ON_NETWORK and would take SEEN_MULTIPLE_NODES; the callback does not
ask the store. -/
theorem revertRun_drops :
    AllSteps step Legal (started ((∅ : TxRows).insert "tx" minedRow)) revertRun ∧
    ∃ s ∈ states step (started ((∅ : TxRows).insert "tx" minedRow)) revertRun,
      ¬ AsksStore s.toShared (fun _ => false) .seenMultipleNodes ["tx"] "tx" ∧
      ∃ row, s.rows.lookup "tx" = some row ∧ row.status = .seenOnNetwork ∧
        canTransitionFrom .seenMultipleNodes row.status = true := by
  refine ⟨⟨trivial, mem_singleton.mpr rfl, trivial, trivial⟩, _,
    (mem_states_iff ..).mpr ⟨revertRun, [], rfl, rfl⟩, ?_, _, rfl, rfl, rfl⟩
  rw [asksStore_iff]
  decide +kernel

end Arcade.ApiServer
