import Arcade.Lib.Keyspace
import Arcade.Propagation.Dispatcher
import Mathlib.Data.List.DropRight

/-!
The keyspace of the Pebble store: the records, and the keys of the records and of the secondary
indexes. An index entry is a key without a value; what it points at is the last segment of the key.
-/

namespace Arcade.Pebble

open Lib List
open Propagation (Status)

/-! ## Records -/

structure StoredOrphanedAnchor where
  blockHash : Bytes
  blockHeight : UInt64
  orphaned : Int64
  deriving DecidableEq

/-- `storedStatus`. Times are Unix nanoseconds, and 0 is the zero time. -/
structure StoredStatus where
  txid : Bytes
  status : Status
  statusCode : Int := 0
  blockHash : Bytes := []
  blockHeight : UInt64 := 0
  merklePath : Bytes := []
  extraInfo : Bytes := []
  competingTxs : List Bytes := []
  rawTx : Bytes := []
  retryCount : Int := 0
  timestamp : Int64
  created : Int64 := 0
  nextRetry : Int64 := 0
  retryReason : Bytes := []
  merkleRegistered : Int64 := 0
  orphanedAnchors : List StoredOrphanedAnchor := []
  deriving DecidableEq

/-- `storedSubmission`; no delivered status is the empty one. -/
structure StoredSubmission where
  submissionID : Bytes
  txid : Bytes
  callbackURL : Bytes := []
  callbackToken : Bytes := []
  fullStatusUpdates : Bool := false
  lastDeliveredStatus : Option Status := none
  retryCount : Int := 0
  nextRetry : Int64 := 0
  attempts : Nat := 0
  lastAttempt : Int64 := 0
  lastResult : Bytes := []
  created : Int64 := 0
  deriving DecidableEq

/-- What a key holds, as `json.Unmarshal` reads it back. -/
inductive Value where
  | status (st : StoredStatus)
  | submission (sub : StoredSubmission)
  | index
  deriving DecidableEq

abbrev DB := Keyspace Value

/-! ## Keys -/

def colon : UInt8 := 58

def prefixTx : Bytes := ascii "tx:"

def prefixSub : Bytes := ascii "sub:"

def prefixIdxTxStatus : Bytes := ascii "idx:tx:status:"

def prefixIdxTxBlock : Bytes := ascii "idx:tx:block:"

def prefixIdxTxRetryReady : Bytes := ascii "idx:tx:retry_ready:"

def prefixIdxTxUpdated : Bytes := ascii "idx:tx:updated:"

def prefixIdxSubTxID : Bytes := ascii "idx:sub:txid:"

def prefixIdxSubToken : Bytes := ascii "idx:sub:token:"

def txKey (txid : Bytes) : Bytes := prefixTx ++ txid

def subKey (id : Bytes) : Bytes := prefixSub ++ id

def statusText : Status → Bytes
  | .unknown => ascii "UNKNOWN"
  | .received => ascii "RECEIVED"
  | .sentToNetwork => ascii "SENT_TO_NETWORK"
  | .acceptedByNetwork => ascii "ACCEPTED_BY_NETWORK"
  | .seenOnNetwork => ascii "SEEN_ON_NETWORK"
  | .seenMultipleNodes => ascii "SEEN_MULTIPLE_NODES"
  | .doubleSpendAttempted => ascii "DOUBLE_SPEND_ATTEMPTED"
  | .rejected => ascii "REJECTED"
  | .pendingRetry => ascii "PENDING_RETRY"
  | .stumpProcessing => ascii "STUMP_PROCESSING"
  | .mined => ascii "MINED"
  | .immutable => ascii "IMMUTABLE"

def hexDigit (n : Nat) : UInt8 := if n < 10 then (48 + n).toUInt8 else (87 + n).toUInt8

/-- `%016x`: the digits of the `places` lowest places, highest first. -/
def hexPlaces : Nat → Nat → Bytes
  | 0, _ => []
  | places + 1, n => hexPlaces places (n / 16) ++ [hexDigit (n % 16)]

/-- `%016x` of the time as a `uint64`. -/
def hexTime (t : Int64) : Bytes := hexPlaces 16 t.toUInt64.toNat

def idxTxStatusPrefix (status : Status) : Bytes := prefixIdxTxStatus ++ statusText status ++ [colon]

def idxTxStatusKey (status : Status) (txid : Bytes) : Bytes := idxTxStatusPrefix status ++ txid

def idxTxBlockPrefix (blockHash : Bytes) : Bytes := prefixIdxTxBlock ++ blockHash ++ [colon]

def idxTxBlockKey (blockHash txid : Bytes) : Bytes := idxTxBlockPrefix blockHash ++ txid

def idxTxRetryReadyKey (nextRetry : Int64) (txid : Bytes) : Bytes :=
  prefixIdxTxRetryReady ++ hexTime nextRetry ++ [colon] ++ txid

def idxTxUpdatedKey (updated : Int64) (txid : Bytes) : Bytes :=
  prefixIdxTxUpdated ++ hexTime updated ++ [colon] ++ txid

def idxSubTxIDPrefix (txid : Bytes) : Bytes := prefixIdxSubTxID ++ txid ++ [colon]

def idxSubTxIDKey (txid id : Bytes) : Bytes := idxSubTxIDPrefix txid ++ id

def idxSubTokenPrefix (token : Bytes) : Bytes := prefixIdxSubToken ++ token ++ [colon]

def idxSubTokenKey (token id : Bytes) : Bytes := idxSubTokenPrefix token ++ id

def lastSegment (key : Bytes) : Bytes := key.rtakeWhile (· != colon)

theorem lastSegment_append {front id : Bytes} (h : colon ∉ id) :
    lastSegment (front ++ [colon] ++ id) = id := by
  have hall : ∀ b ∈ id.reverse, (b != colon) = true := by
    intro b hb
    rw [bne_iff_ne]
    rintro rfl
    exact h (mem_reverse.mp hb)
  unfold lastSegment List.rtakeWhile
  rw [reverse_append, reverse_append, takeWhile_append_of_pos hall]
  simp

theorem subKey_injective {id id' : Bytes} (h : subKey id = subKey id') : id = id' :=
  append_cancel_left h

theorem txKey_injective {txid txid' : Bytes} (h : txKey txid = txKey txid') : txid = txid' :=
  append_cancel_left h

end Arcade.Pebble
