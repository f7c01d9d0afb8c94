import Arcade.Propagation.Offsets

/-!
The dependency-aware dispatcher: admission, requeue, terminal events with the
release of waiters and the cascade of a rejection. All of it is owned by one
goroutine, so a state and functions on it are a faithful picture.
-/

namespace Arcade.Propagation

open Lib

inductive Status where
  | unknown | received | sentToNetwork | acceptedByNetwork | seenOnNetwork
  | seenMultipleNodes | doubleSpendAttempted | rejected | pendingRetry
  | stumpProcessing | mined | immutable
  deriving DecidableEq

/-- The statuses whose event releases the in-flight entry of a transaction. -/
def Status.settles : Status → Bool
  | .acceptedByNetwork | .rejected | .pendingRetry => true
  | _ => false

/-- The state of one `runDispatcher` loop. `waiters` maps a parent to the held
transactions registered on it. -/
structure Dispatcher where
  inFlight : GoMap String Int
  waiters : GoMap String (GoSet String)
  heldMsgs : GoMap String PropagationMsg
  pendingMsgs : List PropagationMsg
  tracker : OffsetTracker

inductive AdmitResult where
  | admitted | held | duplicate
  deriving DecidableEq

structure CascadedTx where
  txid : String
  rawTx : List UInt8
  deriving DecidableEq

namespace Dispatcher

def new : Dispatcher := ⟨∅, ∅, ∅, [], .new⟩

/-! ## Admission -/

/-- The inputs of `msg` that are in flight, without the empty string and the
transaction itself. -/
def blocking (msg : PropagationMsg) (inFlight : GoMap String Int) : GoSet String :=
  msg.inputTXIDs.foldl (fun blocking parent =>
    if parent = "" ∨ parent = msg.txid then blocking
    else if parent ∈ inFlight then blocking.insert parent ()
    else blocking) ∅

/-- Add `txid` to the waiter set of `parent`. -/
def register (txid : String) (waiters : GoMap String (GoSet String)) (parent : String) :
    GoMap String (GoSet String) :=
  waiters.insert parent (((waiters.lookup parent).getD ∅).insert txid ())

/-- The tail that `handleAdmit` and `handleRequeue` share: hold `msg` on its
blocking parents, or queue it for broadcast. -/
def place (d : Dispatcher) (msg : PropagationMsg) (parents : GoSet String) : Dispatcher :=
  if parents.keys.length > 0 then
    { d with
      waiters := parents.keys.foldl (register msg.txid) d.waiters
      heldMsgs := d.heldMsgs.insert msg.txid msg }
  else { d with pendingMsgs := d.pendingMsgs ++ [msg] }

def handleAdmit (d : Dispatcher) (msg : PropagationMsg) (offset : Int) : Dispatcher × AdmitResult :=
  if msg.txid ∈ d.inFlight then
    -- The original admission keeps its entry; the new offset is added and done at once.
    ({ d with tracker := (d.tracker.add offset).markDone offset }, .duplicate)
  else
    let parents := blocking msg d.inFlight
    let d := { d with
      inFlight := d.inFlight.insert msg.txid offset
      tracker := d.tracker.add offset }
    (d.place msg parents, if parents.keys.length > 0 then .held else .admitted)

def handleRequeue (d : Dispatcher) (msg : PropagationMsg) : Dispatcher :=
  if msg.txid ∈ d.inFlight then d.place msg (blocking msg d.inFlight) else d

/-! ## Release -/

/-- The held message of `child`, if none of its parents is in flight. -/
def canRelease (child : String) (inFlight : GoMap String Int)
    (heldMsgs : GoMap String PropagationMsg) : Option PropagationMsg :=
  match heldMsgs.lookup child with
  | none => none
  | some msg =>
    if msg.inputTXIDs.any fun parent => parent ≠ "" ∧ parent ≠ child ∧ parent ∈ inFlight
    then none else some msg

/-- One round of the loop in `cleanupWaiterEntries`. -/
def dropWaiter (child skipParent : String) (waiters : GoMap String (GoSet String))
    (otherParent : String) : GoMap String (GoSet String) :=
  if otherParent = "" ∨ otherParent = child ∨ otherParent = skipParent then waiters
  else match waiters.lookup otherParent with
    | none => waiters
    | some set =>
      if (set.erase child).keys.length = 0 then waiters.erase otherParent
      else waiters.insert otherParent (set.erase child)

/-- Remove `child` from the waiter set of every input of its held message but
`skipParent`. -/
def cleanupWaiterEntries (child skipParent : String) (waiters : GoMap String (GoSet String))
    (heldMsgs : GoMap String PropagationMsg) : GoMap String (GoSet String) :=
  match heldMsgs.lookup child with
  | none => waiters
  | some msg => msg.inputTXIDs.foldl (dropWaiter child skipParent) waiters

/-- The body of the loop in `releaseWaiters`. -/
def releaseChild (parent : String) (d : Dispatcher) (child : String) : Dispatcher :=
  match canRelease child d.inFlight d.heldMsgs with
  | none => d
  | some msg =>
    { d with
      waiters := cleanupWaiterEntries child parent d.waiters d.heldMsgs
      heldMsgs := d.heldMsgs.erase child
      pendingMsgs := d.pendingMsgs ++ [msg] }

def releaseWaiters (order : MapOrder String) (d : Dispatcher) (parent : String) : Dispatcher :=
  match d.waiters.lookup parent with
  | none => d
  | some children =>
    (order.visit parent children.keys).foldl (releaseChild parent)
      { d with waiters := d.waiters.erase parent }

/-! ## Cascade -/

/-- What every terminalized transaction goes through: if it is in flight its
offset is done, and its entry goes. -/
def settle (d : Dispatcher) (txid : String) : Dispatcher :=
  { d with
    tracker := match d.inFlight.lookup txid with
      | none => d.tracker
      | some offset => d.tracker.markDone offset
    inFlight := d.inFlight.erase txid }

/-- The body of the inner loop of `cascadeReject`. The raw bytes are read before
the held message is dropped. -/
def cascadeChild (parent : String) (s : Dispatcher × List CascadedTx) (child : String) :
    Dispatcher × List CascadedTx :=
  let d := s.1
  let rawTx := match d.heldMsgs.lookup child with
    | none => []
    | some msg => msg.rawTx
  let d := { d with
    waiters := cleanupWaiterEntries child parent d.waiters d.heldMsgs
    heldMsgs := d.heldMsgs.erase child }
  (d.settle child, s.2 ++ [⟨child, rawTx⟩])

/-- The number of (parent, child) pairs in the waiter graph. -/
def waiterCount (waiters : GoMap String (GoSet String)) : Nat :=
  GoMap.weight (fun set => set.keys.length) waiters

theorem waiterCount_dropWaiter_le (child skipParent : String)
    (waiters : GoMap String (GoSet String)) (otherParent : String) :
    waiterCount (dropWaiter child skipParent waiters otherParent) ≤ waiterCount waiters := by
  unfold dropWaiter
  split
  · exact le_refl _
  · split
    · exact le_refl _
    · rename_i set hset
      have hw := GoMap.weight_erase (fun set => set.keys.length) waiters hset
      have hle : (set.erase child).keys.length ≤ set.keys.length := by
        rw [AList.keys_erase]
        exact List.length_erase_le
      split
      · unfold waiterCount
        omega
      · unfold waiterCount
        rw [GoMap.weight_insert]
        omega

theorem waiterCount_cleanup_le (child skipParent : String)
    (waiters : GoMap String (GoSet String)) (heldMsgs : GoMap String PropagationMsg) :
    waiterCount (cleanupWaiterEntries child skipParent waiters heldMsgs) ≤ waiterCount waiters := by
  unfold cleanupWaiterEntries
  split
  · exact le_refl _
  · rename_i msg _
    induction msg.inputTXIDs generalizing waiters with
    | nil => exact le_refl _
    | cons p ps ih =>
      exact (ih _).trans (waiterCount_dropWaiter_le child skipParent waiters p)

theorem waiterCount_cascadeChildren_le (parent : String) (children : List String)
    (s : Dispatcher × List CascadedTx) :
    waiterCount (children.foldl (cascadeChild parent) s).1.waiters ≤ waiterCount s.1.waiters := by
  induction children generalizing s with
  | nil => exact le_refl _
  | cons c cs ih => exact (ih _).trans (waiterCount_cleanup_le c parent _ _)

/-- The work-list loop of `cascadeReject`. Every round takes one parent off the
queue and moves its waiters from the graph to the queue. -/
def cascadeLoop (order : MapOrder String) (queue : List String)
    (s : Dispatcher × List CascadedTx) : Dispatcher × List CascadedTx :=
  match queue with
  | [] => s
  | parent :: queue =>
    match _h : s.1.waiters.lookup parent with
    | none => cascadeLoop order queue s
    | some children =>
      let visited := order.visit parent children.keys
      cascadeLoop order (queue ++ visited)
        (visited.foldl (cascadeChild parent)
          ({ s.1 with waiters := s.1.waiters.erase parent }, s.2))
termination_by queue.length + waiterCount s.1.waiters
decreasing_by
  · simp
  · have hc := waiterCount_cascadeChildren_le parent (order.visit parent children.keys)
      ({ s.1 with waiters := s.1.waiters.erase parent }, s.2)
    have hw := GoMap.weight_erase (fun set => set.keys.length) s.1.waiters _h
    have hl := (order.perm parent children.keys).length_eq
    simp only [waiterCount, List.length_append, List.length_cons] at hc ⊢
    omega

def cascadeReject (order : MapOrder String) (d : Dispatcher) (rejectedTxID : String) :
    Dispatcher × List CascadedTx :=
  cascadeLoop order [rejectedTxID] (d, [])

/-! ## Terminal events and drains -/

def handleTerminal (order : MapOrder String) (d : Dispatcher) (txid : String)
    (status : Status) : Dispatcher × List CascadedTx :=
  match status with
  | .acceptedByNetwork => (releaseWaiters order (d.settle txid) txid, [])
  | .rejected | .pendingRetry => cascadeReject order (d.settle txid) txid
  | _ => (d, [])

/-- Hand over `pendingMsgs` as a batch. -/
def drain (d : Dispatcher) : Dispatcher × List PropagationMsg :=
  ({ d with pendingMsgs := [] }, d.pendingMsgs)

end Dispatcher

end Arcade.Propagation
