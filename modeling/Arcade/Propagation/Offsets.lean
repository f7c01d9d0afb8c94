import Arcade.Lib.GoMap
import Arcade.Lib.MinHeap

/-!
The dispatcher's deferred-commit bookkeeping: `offsetTracker`, a min-heap of
Kafka offsets with lazy deletion, and `markQueue`, the consumed messages that
wait for the commit watermark to pass them.
-/

namespace Arcade.Propagation

open Lib

/-! ## Messages -/

/-- One transaction on its way to the network. The counters and reasons are
process-local and never serialized. -/
structure PropagationMsg where
  txid : String
  rawTx : List UInt8
  inputTXIDs : List String
  retryCount : Nat := 0
  merkleRetryCount : Nat := 0
  merkleFailureReason : String := ""
  retryReason : String := ""
  deriving DecidableEq

/-- A message as it is decoded. -/
def PropagationMsg.fresh (txid : String) (rawTx : List UInt8) (inputTXIDs : List String) :
    PropagationMsg :=
  { txid, rawTx, inputTXIDs }

/-- A message of the partition claim. `value` is what `json.Unmarshal` makes of
the payload, `none` when it does not decode. -/
structure KafkaMessage where
  offset : Int
  value : Option PropagationMsg
  deriving DecidableEq

/-! ## offsetTracker -/

/-- `done` flags offsets that are terminalized but may still lie in the heap. -/
structure OffsetTracker where
  heap : MinHeap Int
  done : GoSet Int

namespace OffsetTracker

def new : OffsetTracker := ⟨.empty, ∅⟩

def add (t : OffsetTracker) (offset : Int) : OffsetTracker :=
  { t with heap := t.heap.push offset }

/-- `Done`. -/
def markDone (t : OffsetTracker) (offset : Int) : OffsetTracker :=
  { t with done := t.done.insert offset () }

/-- Pop done entries off the top until the top is unfinished. A popped offset is
forgotten by the done set too. -/
def cleanTop (t : OffsetTracker) : OffsetTracker :=
  match _h : t.heap.top with
  | none => t
  | some top =>
    if top ∈ t.done then cleanTop ⟨t.heap.pop, t.done.erase top⟩ else t
termination_by t.heap.size
decreasing_by exact MinHeap.size_pop _h

/-- The smallest unfinished offset and the tracker with its top cleaned; `none`
is the source's `(0, false)`. -/
def lowestUnfinished (t : OffsetTracker) : Option Int × OffsetTracker :=
  (t.cleanTop.heap.top, t.cleanTop)

end OffsetTracker

/-! ## markQueue -/

/-- Slots before `head` are marked and released (`nil`). -/
structure MarkQueue where
  msgs : List (Option KafkaMessage)
  head : Nat

namespace MarkQueue

def new : MarkQueue := ⟨[], 0⟩

def push (q : MarkQueue) (m : KafkaMessage) : MarkQueue :=
  { q with msgs := q.msgs ++ [some m] }

/-- The guard of the loop in `advance`: with something unfinished, only
messages strictly below it may be marked. -/
def markable (lowest : Option Int) (m : KafkaMessage) : Bool :=
  match lowest with
  | none => true
  | some low => m.offset < low

/-- The loop of `advance`: hand messages from the head on to `MarkMessage`
while they are markable. Returns them in order. -/
def markFrom (lowest : Option Int) (q : MarkQueue) : MarkQueue × List KafkaMessage :=
  if h : q.head < q.msgs.length then
    match q.msgs[q.head] with
    | none => (q, [])
    | some m =>
      if markable lowest m then
        let (q', marked) := markFrom lowest ⟨q.msgs.set q.head none, q.head + 1⟩
        (q', m :: marked)
      else (q, [])
  else (q, [])
termination_by q.msgs.length - q.head
decreasing_by simp; omega

/-- Drop the consumed prefix once it dominates the slice. -/
def compact (q : MarkQueue) : MarkQueue :=
  if 0 < q.head ∧ q.msgs.length / 2 ≤ q.head then ⟨q.msgs.drop q.head, 0⟩ else q

/-- `advance` with a claim: mark what the watermark has passed, then compact.
Returns the queue, the tracker with its top cleaned, and the messages handed
to `MarkMessage`. -/
def advance (q : MarkQueue) (t : OffsetTracker) : MarkQueue × OffsetTracker × List KafkaMessage :=
  let (lowest, t') := t.lowestUnfinished
  let (q', marked) := q.markFrom lowest
  (q'.compact, t', marked)

end MarkQueue

end Arcade.Propagation
