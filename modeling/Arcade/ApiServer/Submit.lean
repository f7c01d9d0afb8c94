import Arcade.ApiServer.PartitionKeys
import Arcade.Lib.Pool
import Arcade.Store.TxRows

/-!
The submit handlers of the API server.

`POST /tx` and `POST /txs` parse, validate, dedup against the store and publish to the
propagation topic. A handler is a program over the calls it makes to the validator, the
store, the tracker, the submission recorder, the event publisher and the broker; what these
answer is open, and other requests and services act between any two calls.
-/

namespace Arcade.ApiServer

open Lib
open Propagation (Status)
open Store (TxRow TxRows StatusUpdate canTransitionFrom)

/-! ## Requests and responses -/

structure SubmitOptions where
  callbackURL : String
  callbackToken : String
  fullStatusUpdates : Bool

def SubmitOptions.hasSubscription (o : SubmitOptions) : Bool :=
  o.callbackURL ≠ "" || o.callbackToken ≠ ""

inductive Body where
  | error (message : String)
  /-- A stream that stopped parsing, with the number of transactions before that point. -/
  | unparsed (message : String) (parsed : Nat)
  /-- `respondSubmitError`. -/
  | failedValidation (txid reason : String)
  | submitted (txid : String) (txStatus : Status)
  | batch (submitted duplicates total : Nat)

structure Response where
  code : Nat
  body : Body

namespace Response

def badRequest (message : String) : Response := ⟨400, .error message⟩

def submitError (txid reason : String) : Response := ⟨400, .failedValidation txid reason⟩

def accepted (body : Body) : Response := ⟨202, body⟩

end Response

/-- A request, read and decoded: `urlError` is what the callback URL check says, and `body` the
bytes of the body or the text of the 400 that reading or decoding it ends in. -/
structure Request where
  opts : SubmitOptions
  octetStream : Bool
  urlError : Option String
  body : Except String (List UInt8)

/-- Which of the optional parts the server was built with. -/
structure Server where
  store : Bool
  validator : Bool
  txTracker : Bool
  publisher : Bool

/-! ## Calls -/

inductive SendError where
  | backpressure
  | other

inductive InsertReply where
  | failed
  | inserted
  | existing (row : TxRow)

/-- The type of a call is the type of its reply. -/
inductive Call : Type → Type 1 where
  /-- The error text, `none` for a valid transaction. -/
  | validateTransaction (tx : Transaction) : Call (Option String)
  | checkFinality (tx : Transaction) : Call (Option String)
  | getOrInsertStatus (txid : String) (row : TxRow) : Call InsertReply
  /-- Whether the call failed; a write the lattice refuses is no failure. -/
  | updateStatus (txid : String) (update : StatusUpdate) : Call Bool
  | trackerAdd (txid : String) (status : Status) : Call Unit
  /-- The submission record goes to the recorder's queue, or is dropped. -/
  | queueSubmission (txid : String) (opts : SubmitOptions) : Call Unit
  /-- One event; a failure is only logged. -/
  | publish (txid : String) (status : Status) (extraInfo : String) : Call Unit
  | send (msg : KeyValue) : Call (Option SendError)
  | sendBatch (msgs : List KeyValue) : Call (Option SendError)

abbrev Program := Prog Call

/-! ## Handlers -/

def receivedRow (rawTx : List UInt8) : TxRow where
  status := .received
  blockHash := ""
  blockHeight := 0
  extraInfo := ""
  rawTx := rawTx
  retryCount := 0
  nextRetry := 0
  retryReason := ""
  orphanedAnchors := []

def rejectedRow (reason : String) : TxRow :=
  { receivedRow [] with
    status := .rejected
    extraInfo := reason }

def rejectedUpdate (reason : String) : StatusUpdate where
  status := some .rejected
  blockHash := ""
  blockHeight := 0
  extraInfo := reason
  rawTx := []
  retryCount := 0
  nextRetry := 0

def shouldRepublishExisting (status : Status) : Bool := status = .rejected || status = .received

def recordSubmission (txid : String) (opts : SubmitOptions) : Program Unit :=
  if opts.hasSubscription then Prog.send (.queueSubmission txid opts) else pure ()

/-- Whether the REJECTED event is to be published. -/
def persistRejectedAtIntake (s : Server) (txid reason : String) : Program Bool :=
  if !s.store then pure true
  else do
    match ← Prog.send (.getOrInsertStatus txid (rejectedRow reason)) with
    | .failed => pure true
    | .inserted => pure true
    | .existing row =>
      if !canTransitionFrom .rejected row.status then pure false
      else do
        let _ ← Prog.send (.updateStatus txid (rejectedUpdate reason))
        pure true

def rejectAtIntake (s : Server) (txid reason : String) (opts : SubmitOptions) : Program Unit := do
  let wrote ← persistRejectedAtIntake s txid reason
  recordSubmission txid opts
  if !wrote || !s.publisher then pure ()
  else Prog.send (.publish txid .rejected reason)

/-- `s.txTracker.Add` when there is a tracker. -/
def track (s : Server) (txid : String) (status : Status) : Program Unit :=
  if s.txTracker then Prog.send (.trackerAdd txid status) else pure ()

def respondSend (accepted : Body) : Option SendError → Response
  | some .backpressure => ⟨503, .error "service overloaded, retry shortly"⟩
  | some .other => ⟨500, .error "failed to submit"⟩
  | none => .accepted accepted

/-- The validator's verdict on one transaction, if there is a validator. -/
def validate (s : Server) (tx : Transaction) : Program (Option String) :=
  if s.validator then Prog.send (.validateTransaction tx) else pure none

/-- What the store has for the transaction. Without a store it is new. -/
def dedupCAS (s : Server) (txid : String) (rawTx : List UInt8) : Program InsertReply :=
  if s.store then Prog.send (.getOrInsertStatus txid (receivedRow rawTx)) else pure .inserted

def publishTransaction (s : Server) (opts : SubmitOptions) (tx : Transaction)
    (rawTx : List UInt8) : Program Response := do
  track s tx.txid .received
  recordSubmission tx.txid opts
  let err ← Prog.send (.send
    { key := tx.txid
      value :=
        { txid := tx.txid
          rawTx := rawTx
          inputTXIDs := collectInputTXIDs tx } })
  pure (respondSend (.submitted tx.txid .received) err)

/-- `handleSubmitTransaction` once the transaction is parsed. -/
def submitTransaction (s : Server) (opts : SubmitOptions) (tx : Transaction)
    (rawTx : List UInt8) : Program Response := do
  match ← validate s tx with
  | some reason =>
    rejectAtIntake s tx.txid reason opts
    pure (.submitError tx.txid reason)
  | none =>
    match ← Prog.send (.checkFinality tx) with
    | some reason => pure (.submitError tx.txid reason)
    | none =>
      match ← dedupCAS s tx.txid rawTx with
      | .failed => publishTransaction s opts tx rawTx
      | .inserted => publishTransaction s opts tx rawTx
      | .existing row =>
        if shouldRepublishExisting row.status then publishTransaction s opts tx rawTx
        else do
          track s tx.txid row.status
          recordSubmission tx.txid opts
          pure (.accepted (.submitted tx.txid row.status))

/-- The first transaction of the body that the validator refuses, with the reason. -/
def firstInvalid (s : Server) : List ParsedItem → Program (Option (String × String))
  | [] => pure none
  | p :: ps => do
    match ← validate s p.tx with
    | some reason => pure (some (p.txid, reason))
    | none => firstInvalid s ps

def firstNonFinal : List ParsedItem → Program (Option (String × String))
  | [] => pure none
  | p :: ps => do
    match ← Prog.send (.checkFinality p.tx) with
    | some reason => pure (some (p.txid, reason))
    | none => firstNonFinal ps

/-- The part of the body to publish, and the number of duplicates. -/
def dedup (s : Server) (opts : SubmitOptions) : List ParsedItem → Program (List ParsedItem × Nat)
  | [] => pure ([], 0)
  | p :: ps => do
    match ← dedupCAS s p.txid p.raw with
    | .failed => do
      let (toPublish, duplicates) ← dedup s opts ps
      pure (p :: toPublish, duplicates)
    | .inserted => do
      let (toPublish, duplicates) ← dedup s opts ps
      pure (p :: toPublish, duplicates)
    | .existing row =>
      if shouldRepublishExisting row.status then do
        let (toPublish, duplicates) ← dedup s opts ps
        pure (p :: toPublish, duplicates)
      else do
        track s p.txid row.status
        recordSubmission p.txid opts
        let (toPublish, duplicates) ← dedup s opts ps
        pure (toPublish, duplicates + 1)

def publishBatch (s : Server) (opts : SubmitOptions) (parsed toPublish : List ParsedItem)
    (duplicates : Nat) : Program Response := do
  Prog.each (fun p => track s p.txid .received) toPublish
  Prog.each (fun p => recordSubmission p.txid opts) toPublish
  let answer := Body.batch toPublish.length duplicates parsed.length
  if toPublish = [] then pure (.accepted answer)
  else do
    let err ← Prog.send (.sendBatch (batchMessages parsed toPublish))
    pure (respondSend answer err)

/-- `handleSubmitTransactions` once the stream is parsed. -/
def submitTransactions (s : Server) (opts : SubmitOptions) (parsed : List ParsedItem) :
    Program Response := do
  match ← firstInvalid s parsed with
  | some (txid, reason) =>
    rejectAtIntake s txid reason opts
    pure (.submitError txid reason)
  | none =>
    match ← firstNonFinal parsed with
    | some (txid, reason) => pure (.submitError txid reason)
    | none => do
      let (toPublish, duplicates) ← dedup s opts parsed
      publishBatch s opts parsed toPublish duplicates

section Parsing

variable (newTransactionFromStream : List UInt8 → Option (Transaction × Nat))

/-- The transactions of a stream, or how many were read before one did not parse. -/
def parseStream (body : List UInt8) (parsed : List ParsedItem) : Except Nat (List ParsedItem) :=
  if h : body = [] then .ok parsed
  else match newTransactionFromStream body with
    | none => .error parsed.length
    | some (tx, bytesUsed) =>
      if bytesUsed = 0 then .ok parsed
      else parseStream (body.drop bytesUsed) (parsed ++ [⟨tx, body.take bytesUsed⟩])
termination_by body.length
decreasing_by
  have := List.length_pos_iff.mpr h
  simp only [List.length_drop]
  omega

/-- The transactions of a `POST /tx` request, or the response that ends it. -/
def readTransaction (r : Request) : Except Response (Transaction × List UInt8) :=
  match r.urlError with
  | some err => .error (.badRequest ("invalid callback url: " ++ err))
  | none =>
    match r.body with
    | .error message => .error (.badRequest message)
    | .ok rawTx =>
      if rawTx = [] then .error (.badRequest "empty transaction")
      else match newTransactionFromStream rawTx with
        | none => .error (.badRequest "failed to parse transaction")
        | some (tx, _) => .ok (tx, rawTx)

def handleSubmitTransaction (s : Server) (r : Request) : Program Response :=
  match readTransaction newTransactionFromStream r with
  | .error response => pure response
  | .ok (tx, rawTx) => submitTransaction s r.opts tx rawTx

/-- The transactions of a `POST /txs` request, or the response that ends it. -/
def readTransactions (r : Request) : Except Response (List ParsedItem) :=
  if !r.octetStream then .error (.badRequest "Content-Type must be application/octet-stream")
  else match r.urlError with
    | some err => .error (.badRequest ("invalid callback url: " ++ err))
    | none =>
      match r.body with
      | .error message => .error (.badRequest message)
      | .ok body =>
        if body = [] then .error (.badRequest "empty body")
        else match parseStream newTransactionFromStream body [] with
          | .error parsed => .error ⟨400, .unparsed "failed to parse transaction" parsed⟩
          | .ok parsed =>
            if parsed = [] then .error (.badRequest "no transactions parsed") else .ok parsed

def handleSubmitTransactions (s : Server) (r : Request) : Program Response :=
  match readTransactions newTransactionFromStream r with
  | .error response => pure response
  | .ok parsed => submitTransactions s r.opts parsed

end Parsing

/-! ## The world around a handler -/

/-- The store's rows, the propagation messages the broker has accepted, the in-process
tracker, the queued submission records and the published events. -/
structure World where
  rows : TxRows
  queued : List KeyValue
  tracker : GoMap String Status
  submissions : List (String × SubmitOptions)
  events : List (String × Status × String)

/-- A propagation message of the transaction was accepted by the broker. -/
def World.Queued (w : World) (txid : String) : Prop := ∃ m ∈ w.queued, m.value.txid = txid

/-- What is open about one answer. -/
structure Oracle where
  /-- What the validator or the finality gate says. -/
  verdict : Option String
  /-- The store call, the recorder's queue or the event publisher fails. -/
  failed : Bool
  /-- The write of a failed store call was made all the same. -/
  landed : Bool
  sendError : Option SendError
  /-- The messages of a failed send that the broker has accepted. -/
  delivered : KeyValue → Bool

/-- `GetOrInsertStatus` in the store. -/
def getOrInsert (rows : TxRows) (txid : String) (row : TxRow) : InsertReply × TxRows :=
  match rows.lookup txid with
  | some existing => (.existing existing, rows)
  | none => (.inserted, rows.insert txid row)

/-- `UpdateStatus` in the store; the reply says whether the row is missing. -/
def update (rows : TxRows) (txid : String) (u : StatusUpdate) : Bool × TxRows :=
  match rows.lookup txid with
  | none => (true, rows)
  | some row =>
    match Store.updateStatus u row with
    | none => (false, rows)
    | some row' => (false, rows.insert txid row')

def execSend (o : Oracle) (msgs : List KeyValue) (w : World) : Option SendError × World :=
  match o.sendError with
  | none => (none, { w with queued := w.queued ++ msgs })
  | some err => (some err, { w with queued := w.queued ++ msgs.filter o.delivered })

def exec (o : Oracle) : {ρ : Type} → Call ρ → World → ρ × World
  | _, .validateTransaction _, w => (o.verdict, w)
  | _, .checkFinality _, w => (o.verdict, w)
  | _, .getOrInsertStatus txid row, w =>
    let (reply, rows) := getOrInsert w.rows txid row
    if o.failed then (.failed, if o.landed then { w with rows } else w)
    else (reply, { w with rows })
  | _, .updateStatus txid u, w =>
    let (missing, rows) := update w.rows txid u
    if o.failed then (true, if o.landed then { w with rows } else w)
    else (missing, { w with rows })
  | _, .trackerAdd txid status, w => ((), { w with tracker := w.tracker.insert txid status })
  | _, .queueSubmission txid opts, w =>
    ((), if o.failed then w else { w with submissions := w.submissions ++ [(txid, opts)] })
  | _, .publish txid status extraInfo, w =>
    ((), if o.failed then w else { w with events := w.events ++ [(txid, status, extraInfo)] })
  | _, .send msg, w => execSend o [msg] w
  | _, .sendBatch msgs, w => execSend o msgs w

def env : Env Call Oracle World where
  exec o c w := exec o c w
  ok _ _ _ := True

end Arcade.ApiServer
