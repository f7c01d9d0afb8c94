import Arcade.MerkleService.CatchupQueue
import Arcade.Lib.Transition

/-!
The merkle-service pool. `RegisterBatchWithResults` sends a batch to every endpoint whose breaker is
closed and reports an entry registered when one endpoint acknowledged it; the other endpoints then
owe the entry, and get it into their catch-up queues. Drains and the trial `/watch` of a probe take
entries out of a queue and send them again.

All of these run side by side. A task is one call at the point it has reached; a step of it is one
locked section or the answer to one request. The tasks share the endpoints, and the log says what
happened to the registrations, in order.
-/

namespace Arcade.MerkleService

open Lib

/-! ## Errors -/

/-- `register` is a `RegisterError` with its status; `transport` is any other error of a request,
the cancellation of its context included. -/
inductive Err where
  | register (statusCode : Nat)
  | noHealthyEndpoints
  | transport
  deriving DecidableEq

inductive Outcome where
  | ok | auth | err4xx | err5xx | network | canceled
  deriving DecidableEq

/-- `ctxDone` if the context has an error. The second part is whether the breaker counts it. -/
def classify (ctxDone : Bool) : Option Err → Outcome × Bool
  | none => (.ok, false)
  | some err =>
    if ctxDone then (.canceled, false)
    else match err with
      | .register code =>
        if code ≥ 500 then (.err5xx, true)
        else if code = 401 ∨ code = 403 then (.auth, false)
        else (.err4xx, false)
      | _ => (.network, true)

def errRank (ctxDone : Bool) (err : Err) : Nat :=
  match (classify ctxDone (some err)).1 with
  | .canceled => 0
  | .network => 1
  | .err5xx => 2
  | .auth => 3
  | _ => 4

def mergeLoop (ctxDone : Bool) (best : Option Err) (bestRank : Nat) : List (Option Err) → Option Err
  | [] => best
  | none :: _ => none
  | some err :: rest =>
    if errRank ctxDone err < bestRank then mergeLoop ctxDone (some err) (errRank ctxDone err) rest
    else mergeLoop ctxDone best bestRank rest

def mergeErrors (ctxDone : Bool) (errs : List (Option Err)) : Option Err :=
  mergeLoop ctxDone none (2 ^ 63 - 1) errs

def permanentRejection : Err → Bool
  | .register code =>
    if code < 400 ∨ code ≥ 500 then false
    else !(code = 401 ∨ code = 403 ∨ code = 408 ∨ code = 429)
  | _ => false

/-! ## Endpoints -/

structure Endpoint where
  consecutiveFailures : Nat
  isOpen : Bool
  pending : CatchupQueue
  draining : Bool
  backoffTicks : Nat
  skipTicks : Nat

namespace Endpoint

def new (queueSize : Nat) : Endpoint := ⟨0, false, .new queueSize, false, 0, 0⟩

def closeBreaker (ep : Endpoint) : Endpoint :=
  if ep.isOpen then { ep with isOpen := false, consecutiveFailures := 0 } else ep

def record (threshold : Nat) (ctxDone : Bool) (err : Option Err) (ep : Endpoint) : Endpoint :=
  match classify ctxDone err with
  | (.canceled, _) => ep
  | (_, false) =>
    if ep.isOpen ∧ err = none then { ep with consecutiveFailures := 0 }.closeBreaker
    else { ep with consecutiveFailures := 0 }
  | (_, true) =>
    { ep with
      consecutiveFailures := ep.consecutiveFailures + 1
      isOpen := ep.isOpen || ep.consecutiveFailures + 1 ≥ threshold }

/-- The part of `catchupBatch` that adjusts the backoff. -/
def backOff (progress : Nat) (ctxDone : Bool) (ep : Endpoint) : Endpoint :=
  if progress = 0 ∧ !ctxDone then
    let ticks := if ep.backoffTicks = 0 then 1
      else if ep.backoffTicks < 12 then ep.backoffTicks * 2 else ep.backoffTicks
    { ep with backoffTicks := ticks, skipTicks := ticks }
  else if progress > 0 then { ep with backoffTicks := 0 }
  else ep

end Endpoint

structure PoolConfig where
  endpoints : List String
  distinct : endpoints.Nodup
  threshold : Nat
  queueSize : Nat

/-- What happens to a registration at an endpoint: the endpoint acknowledged it, it rejected a
catch-up send of it for good, its queue dropped it; or a resync of the endpoint was requested. -/
inductive Note where
  | acked (url txid : String)
  | rejected (url txid : String)
  | dropped (url txid : String)
  | resync (url : String)
  deriving DecidableEq

structure Shared where
  endpoint : String → Endpoint
  log : List Note

namespace Shared

def update (sh : Shared) (url : String) (f : Endpoint → Endpoint) : Shared :=
  { sh with endpoint := Function.update sh.endpoint url (f (sh.endpoint url)) }

def note (sh : Shared) (notes : List Note) : Shared := { sh with log := sh.log ++ notes }

def add (sh : Shared) (url : String) (reg : Registration) : Shared :=
  let r := (sh.endpoint url).pending.add reg
  (sh.update url fun ep => { ep with pending := r.1 }).note (r.2.map (.dropped url))

def take (sh : Shared) (url : String) (n : Nat) : Shared × List Registration :=
  let r := (sh.endpoint url).pending.take n
  (sh.update url fun ep => { ep with pending := r.1 }, r.2)

def settle (sh : Shared) (url : String) (n : Nat) : Shared :=
  sh.update url fun ep => { ep with pending := ep.pending.settle n }

end Shared

/-! ## A batch for one endpoint -/

inductive Entry where
  | waiting
  | flying
  | answered (err : Option Err)
  deriving DecidableEq

/-- The failure of a catch-up send that is worth another try. -/
def retryable : Option Err → Bool
  | none => false
  | some err => !permanentRejection err

/-- The loop of `sendCatchup` comes when all requests are answered. -/
def Entry.retryable : Entry → Bool
  | .answered err => MerkleService.retryable err
  | _ => true

/-- `runEndpointBatch`: the loop over the registrations and the requests it has started. -/
structure EndpointBatch where
  maxConcurrency : Nat
  entries : List (Registration × Entry)
  deriving DecidableEq

namespace EndpointBatch

def start (registrations : List Registration) (maxConcurrency : Int) : EndpointBatch :=
  ⟨if maxConcurrency ≤ 0 then 10 else maxConcurrency.toNat,
    registrations.map fun reg => (reg, .waiting)⟩

def set (b : EndpointBatch) (j : Nat) (entry : Entry) : EndpointBatch :=
  { b with entries := b.entries.modify j fun x => (x.1, entry) }

/-- The loop comes to its next registration. Either the context of the sends is done, or there is a
slot; then the breaker decides. -/
def launch (b : EndpointBatch) (isOpen sendDone : Bool) : EndpointBatch :=
  match b.entries.findIdx? (·.2 = .waiting) with
  | none => b
  | some j =>
    if sendDone then b.set j (.answered (some .transport))
    else if b.entries.countP (·.2 = .flying) < b.maxConcurrency then
      if isOpen then b.set j (.answered (some .noHealthyEndpoints)) else b.set j .flying
    else b

/-- The endpoint acknowledged something of the batch. -/
def acked (b : EndpointBatch) : Bool := b.entries.any (·.2 = .answered none)

def done (b : EndpointBatch) : Bool :=
  b.entries.all fun x => match x.2 with
    | .answered _ => true
    | _ => false

/-- How many of the batch landed or were dropped. -/
def progress (b : EndpointBatch) : Nat := b.entries.countP fun x => !x.2.retryable

def result (b : EndpointBatch) (j : Nat) : Option Err :=
  match b.entries[j]? with
  | some (_, .answered err) => err
  | _ => none

end EndpointBatch

/-- The answer to one request of a batch. `ctxDone` is about the caller's context and `sendDone`
about that of the sends, which the pool also cancels when it stops waiting for a straggler. -/
structure Answer where
  err : Option Err
  ctxDone : Bool
  sendDone : Bool

section Tasks

variable (cfg : PoolConfig)

/-- The request of place `j` is answered and recorded; `notes` is what the log gets. -/
def land (sh : Shared) (url : String) (b : EndpointBatch) (j : Nat) (a : Answer)
    (notes : Registration → List Note) : Shared × EndpointBatch :=
  match b.entries[j]? with
  | some (reg, .flying) =>
    ((sh.update url (Endpoint.record cfg.threshold
      (a.ctxDone || a.err ≠ none && a.sendDone && b.acked) a.err)).note (notes reg),
      b.set j (.answered a.err))
  | _ => (sh, b)

/-- What the log gets from the answer to a registration. -/
def watchNotes (url : String) (err : Option Err) (reg : Registration) : List Note :=
  if err = none then [.acked url reg.txid] else []

/-- The same for a catch-up send. -/
def catchupNotes (url : String) (err : Option Err) (reg : Registration) : List Note :=
  match err with
  | none => [.acked url reg.txid]
  | some err => if permanentRejection err then [.rejected url reg.txid] else []

/-! ## RegisterBatchWithResults -/

inductive RegisterPhase where
  | checking (unchecked : List String)
  | sending
  | queueing (out : List (Option Err)) (rest : List (String × Registration))
  | returned (out : List (Option Err))
  deriving DecidableEq

/-- `batches` has the endpoints that were found closed, with what is sent to them. -/
structure RegisterCall where
  registrations : List Registration
  maxConcurrency : Int
  batches : List (String × EndpointBatch)
  phase : RegisterPhase
  deriving DecidableEq

namespace RegisterCall

/-- An empty batch returns at once. -/
def start (registrations : List Registration) (maxConcurrency : Int) : RegisterCall :=
  { registrations, maxConcurrency, batches := [],
    phase := if registrations.length = 0 then .returned [] else .checking cfg.endpoints }

/-- `perEndpoint[ep][j]`; `none` for an endpoint that was skipped up front. -/
def result (c : RegisterCall) (url : String) (j : Nat) : Option (Option Err) :=
  (c.batches.find? (·.1 = url)).map fun x => x.2.result j

def merge (c : RegisterCall) (ctxDone : Bool) : List (Option Err) :=
  (List.range c.registrations.length).map fun j =>
    mergeErrors ctxDone (c.batches.map (fun x => x.2.result j) ++
      List.replicate (cfg.endpoints.length - c.batches.length) (some .noHealthyEndpoints))

/-- The entries that go to the queue of an endpoint. -/
def missed (c : RegisterCall) (out : List (Option Err)) (url : String) :
    List (String × Registration) :=
  (c.registrations.zipIdx.filter fun x =>
    out[x.2]? = some none ∧ c.result url x.2 ≠ some none).map fun x => (url, x.1)

/-- The call's own next step. -/
def next (sh : Shared) (c : RegisterCall) (ctxDone : Bool) : Shared × RegisterCall :=
  match c.phase with
  | .checking (url :: unchecked) =>
    let batches := if (sh.endpoint url).isOpen then c.batches
      else c.batches ++ [(url, .start c.registrations c.maxConcurrency)]
    (sh, { c with batches, phase := .checking unchecked })
  | .checking [] =>
    if c.batches.length = 0 then
      (sh, { c with
        phase := .returned (List.replicate c.registrations.length (some .noHealthyEndpoints)) })
    else (sh, { c with phase := .sending })
  | .sending =>
    if c.batches.all fun x => x.2.done then
      let out := c.merge cfg ctxDone
      (sh, { c with phase := .queueing out (cfg.endpoints.flatMap (c.missed out)) })
    else (sh, c)
  | .queueing out ((url, reg) :: rest) => (sh.add url reg, { c with phase := .queueing out rest })
  | .queueing out [] => (sh, { c with phase := .returned out })
  | .returned _ => (sh, c)

def setBatch (c : RegisterCall) (url : String) (b : EndpointBatch) : RegisterCall :=
  { c with batches := c.batches.map fun x => if x.1 = url then (url, b) else x }

/-- A step of the batch of one endpoint, while the batches are being sent. -/
def onBatch (sh : Shared) (c : RegisterCall) (url : String)
    (f : EndpointBatch → Shared × EndpointBatch) : Shared × RegisterCall :=
  match c.phase, c.batches.find? (·.1 = url) with
  | .sending, some (_, b) => ((f b).1, c.setBatch url (f b).2)
  | _, _ => (sh, c)

end RegisterCall

/-! ## The other tasks -/

/-- `endpointService.RegisterBatchWithResults`. -/
inductive ServicePhase where
  | sending (b : EndpointBatch)
  | queueing (rest : List Registration)
  deriving DecidableEq

/-- `drainEndpoint`; in `requeueing` the loop of `sendCatchup` is at place `i`. -/
inductive DrainPhase where
  | taking
  | sending (b : EndpointBatch)
  | requeueing (b : EndpointBatch) (i : Nat)
  | settled
  | resyncing
  | finished
  deriving DecidableEq

/-- `probeEndpoint` with `trialWatch`. -/
inductive ProbePhase where
  | probing
  | taking
  | trying (reg : Registration)
  | answered (reg : Registration) (err : Option Err) (passed : Bool)
  | settling (reg : Registration) (passed : Bool)
  | closing
  | finished
  deriving DecidableEq

inductive Task where
  | register (call : RegisterCall)
  | service (url : String) (phase : ServicePhase)
  | retain (rest : List (String × Registration))
  | drain (url : String) (phase : DrainPhase)
  | probe (url : String) (phase : ProbePhase)
  deriving DecidableEq

/-- A task goes on by itself, its batch loop goes on, or a request of it is answered; `url` is of
use to `register` only. For a probe `go true` stands for a failed `/health`. -/
inductive Move where
  | go (ctxDone : Bool)
  | launch (url : String) (sendDone : Bool)
  | answer (url : String) (j : Nat) (a : Answer)

def retained (registrations : List Registration) (errs : List (Option Err)) :
    List (String × Registration) :=
  cfg.endpoints.flatMap fun url =>
    (registrations.zipIdx.filter fun x => retryable (errs[x.2]?.getD none)).map fun x => (url, x.1)

/-- A step of `endpointService.RegisterBatchWithResults`. -/
def serviceStep (sh : Shared) (url : String) : ServicePhase → Move → Shared × ServicePhase
  | .sending b, .go _ =>
    if b.done then
      (sh, .queueing ((b.entries.zipIdx.filter fun x => retryable (b.result x.2)).map (·.1.1)))
    else (sh, .sending b)
  | .sending b, .launch _ sendDone => (sh, .sending (b.launch (sh.endpoint url).isOpen sendDone))
  | .sending b, .answer _ j a =>
    let r := land cfg sh url b j a (watchNotes url a.err)
    (r.1, .sending r.2)
  | .queueing (reg :: rest), .go _ => (sh.add url reg, .queueing rest)
  | phase, _ => (sh, phase)

def drainStep (sh : Shared) (url : String) : DrainPhase → Move → Shared × DrainPhase
  | .taking, .go _ =>
    let r := sh.take url 500
    (r.1, if r.2.length > 0 then .sending (.start r.2 10) else .settled)
  | .sending b, .go _ => if b.done then (sh, .requeueing b 0) else (sh, .sending b)
  | .sending b, .launch _ sendDone => (sh, .sending (b.launch (sh.endpoint url).isOpen sendDone))
  | .sending b, .answer _ j a =>
    let r := land cfg sh url b j a (catchupNotes url a.err)
    (r.1, .sending r.2)
  | .requeueing b i, .go ctxDone =>
    match b.entries[i]? with
    | some (reg, entry) =>
      (if entry.retryable then sh.add url reg else sh, .requeueing b (i + 1))
    | none =>
      ((sh.settle url b.entries.length).update url (.backOff b.progress ctxDone), .settled)
  | .settled, .go _ =>
    let r := (sh.endpoint url).pending.drainedAfterOverflow
    match r.2 with
    | some _ => (sh.update url fun ep => { ep with pending := r.1 }, .resyncing)
    | none => (sh.update url fun ep => { ep with draining := false }, .finished)
  | .resyncing, .go _ =>
    ((sh.update url fun ep => { ep with draining := false }).note [.resync url], .finished)
  | phase, _ => (sh, phase)

def probeStep (sh : Shared) (url : String) : ProbePhase → Move → Shared × ProbePhase
  | .probing, .go failed => (sh, if failed then .finished else .taking)
  | .taking, .go _ =>
    let r := sh.take url 1
    (r.1, match r.2 with
      | [] => .closing
      | reg :: _ => .trying reg)
  | .trying reg, .answer _ _ a =>
    let r := classify a.ctxDone a.err
    ((sh.update url (.record cfg.threshold a.ctxDone a.err)).note (catchupNotes url a.err reg),
      .answered reg a.err !(r.1 = .canceled || r.2))
  | .answered reg err passed, .go _ =>
    (if retryable err then sh.add url reg else sh, .settling reg passed)
  | .settling _ passed, .go _ => (sh.settle url 1, if passed then .closing else .finished)
  | .closing, .go _ => (sh.update url Endpoint.closeBreaker, .finished)
  | phase, _ => (sh, phase)

def Task.step (sh : Shared) : Task → Move → Shared × Task
  | .register c, .go ctxDone =>
    let r := c.next cfg sh ctxDone
    (r.1, .register r.2)
  | .register c, .launch url sendDone =>
    let r := c.onBatch sh url fun b => (sh, b.launch (sh.endpoint url).isOpen sendDone)
    (r.1, .register r.2)
  | .register c, .answer url j a =>
    let r := c.onBatch sh url fun b => land cfg sh url b j a (watchNotes url a.err)
    (r.1, .register r.2)
  | .service url phase, move =>
    let r := serviceStep cfg sh url phase move
    (r.1, .service url r.2)
  | .retain ((url, reg) :: rest), .go _ => (sh.add url reg, .retain rest)
  | .drain url phase, move =>
    let r := drainStep cfg sh url phase move
    (r.1, .drain url r.2)
  | .probe url phase, move =>
    let r := probeStep cfg sh url phase move
    (r.1, .probe url r.2)
  | task, _ => (sh, task)

end Tasks

/-! ## The pool -/

structure Pool where
  shared : Shared
  tasks : List Task

/-- Calls come in, the background loop ticks, and tasks go on. -/
inductive PoolEvent where
  | registerBatchWithResults (registrations : List Registration) (maxConcurrency : Int)
  | serviceRegister (url : String) (registrations : List Registration) (maxConcurrency : Int)
  | retain (registrations : List Registration) (errs : List (Option Err))
  | drainTick (url : String)
  | probeTick (url : String)
  | step (i : Nat) (move : Move)

namespace Pool

variable (cfg : PoolConfig)

def start : Pool := ⟨⟨fun _ => .new cfg.queueSize, []⟩, []⟩

def begin (s : Pool) (task : Task) : Pool := { s with tasks := s.tasks ++ [task] }

def step (s : Pool) : PoolEvent → Pool
  | .registerBatchWithResults registrations maxConcurrency =>
    s.begin (.register (.start cfg registrations maxConcurrency))
  | .serviceRegister url registrations maxConcurrency =>
    s.begin (.service url (.sending (.start registrations maxConcurrency)))
  | .retain registrations errs => s.begin (.retain (retained cfg registrations errs))
  | .drainTick url =>
    let ep := s.shared.endpoint url
    if ep.isOpen ∨ ep.draining then s
    else if ep.skipTicks > 0 then
      { s with shared := s.shared.update url fun ep => { ep with skipTicks := ep.skipTicks - 1 } }
    else
      { s with shared := s.shared.update url fun ep => { ep with draining := true } }.begin
        (.drain url .taking)
  | .probeTick url => if (s.shared.endpoint url).isOpen then s.begin (.probe url .probing) else s
  | .step i move =>
    match s.tasks[i]? with
    | none => s
    | some task =>
      { shared := (task.step cfg s.shared move).1
        tasks := s.tasks.set i (task.step cfg s.shared move).2 }

end Pool

end Arcade.MerkleService
