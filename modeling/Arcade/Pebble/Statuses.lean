import Arcade.Pebble.Submissions
import Arcade.Store.TxRows

/-!
The writers of the status rows of the Pebble store. Each takes the lock of the row's shard, reads
the row and commits one batch: the index entries of the old row go, the row is replaced, and the
entries of the new row are added. Two of them change nothing that is indexed and replace the row
alone. A writer over many rows takes them one by one, so other writers come in between.
-/

namespace Arcade.Pebble

open Lib
open Propagation (Status)
open Store (canTransitionFrom maxOrphanedAnchors)

/-- `models.TransactionStatus` as the writers take it; a missing time is the zero one, and a missing
status the empty one. -/
structure TransactionStatus where
  txid : Bytes
  status : Option Status := none
  statusCode : Int := 0
  blockHash : Bytes := []
  blockHeight : UInt64 := 0
  merklePath : Bytes := []
  extraInfo : Bytes := []
  competingTxs : List Bytes := []
  rawTx : Bytes := []
  retryCount : Int := 0
  timestamp : Option Int64 := none
  createdAt : Option Int64 := none
  nextRetryAt : Option Int64 := none
  merkleRegisteredAt : Option Int64 := none
  orphanedProofs : List StoredOrphanedAnchor := []
  deriving DecidableEq

/-- The failures of the writers, with what they were about. -/
inductive WriteError where
  | notFound (operation : Bytes)
  deriving DecidableEq

/-! ## Rows and their index entries -/

/-- `fromModel`; `received` stands in for the empty status, as `GetOrInsertStatus` fills it in. -/
def fromModel (m : TransactionStatus) : StoredStatus where
  txid := m.txid
  status := m.status.getD .received
  statusCode := m.statusCode
  blockHash := m.blockHash
  blockHeight := m.blockHeight
  merklePath := m.merklePath
  extraInfo := m.extraInfo
  competingTxs := m.competingTxs
  rawTx := m.rawTx
  retryCount := m.retryCount
  timestamp := m.timestamp.getD 0
  created := m.createdAt.getD 0
  nextRetry := m.nextRetryAt.getD 0
  merkleRegistered := m.merkleRegisteredAt.getD 0
  orphanedAnchors := m.orphanedProofs

def appendOrphanedAnchor (row : StoredStatus) (now : Int64) : StoredStatus :=
  if row.blockHash = [] then row
  else if row.orphanedAnchors.getLast?.any (fun a => a.blockHash = row.blockHash) then row
  else
    let anchors := row.orphanedAnchors ++ [⟨row.blockHash, row.blockHeight, now⟩]
    { row with orphanedAnchors := anchors.drop (anchors.length - maxOrphanedAnchors) }

def statusIndexKeys (st : StoredStatus) : List Bytes :=
  [idxTxStatusKey st.status st.txid] ++
  (if st.blockHash ≠ [] then [idxTxBlockKey st.blockHash st.txid] else []) ++
  (if st.status = .pendingRetry ∧ st.nextRetry ≠ 0 then [idxTxRetryReadyKey st.nextRetry st.txid]
    else []) ++
  (if st.timestamp ≠ 0 then [idxTxUpdatedKey st.timestamp st.txid] else [])

def addStatusIndexes (st : StoredStatus) : List (Keyspace.Write Value) :=
  (statusIndexKeys st).map (.set · .index)

def removeStatusIndexes (st : StoredStatus) : List (Keyspace.Write Value) :=
  (statusIndexKeys st).map .delete

def writeStatusNew (db : DB) (status : TransactionStatus) : DB :=
  let st := fromModel status
  db.commit (.set (txKey status.txid) (.status st) :: addStatusIndexes st)

/-- The batch of the writers that change an indexed field. -/
def rewriteStatus (db : DB) (txid : Bytes) (existing updated : StoredStatus) : DB :=
  db.commit (removeStatusIndexes existing ++
    .set (txKey txid) (.status updated) :: addStatusIndexes updated)

/-! ## Writers of one row -/

/-- The row that is there, or the new one and `true`. -/
def getOrInsertStatus (db : DB) (now : Int64) (status : TransactionStatus) :
    (StoredStatus × Bool) × DB :=
  match readStatus db status.txid with
  | some existing => ((existing, false), db)
  | none =>
    let status := { status with
      timestamp := some (status.timestamp.getD now)
      status := some (status.status.getD .received)
      createdAt := some now }
    ((fromModel status, true), writeStatusNew db status)

def mergeStatus (existing : StoredStatus) (update : TransactionStatus) : StoredStatus where
  txid := update.txid
  status := update.status.getD existing.status
  statusCode := if update.statusCode ≠ 0 then update.statusCode else existing.statusCode
  blockHash := if update.blockHash ≠ [] then update.blockHash else existing.blockHash
  blockHeight := if 0 < update.blockHeight then update.blockHeight else existing.blockHeight
  merklePath := if update.merklePath ≠ [] then update.merklePath else existing.merklePath
  extraInfo := if update.extraInfo ≠ [] then update.extraInfo else existing.extraInfo
  competingTxs := if update.competingTxs ≠ [] then update.competingTxs else existing.competingTxs
  rawTx := if update.rawTx ≠ [] then update.rawTx else existing.rawTx
  retryCount := if 0 < update.retryCount then update.retryCount else existing.retryCount
  timestamp := update.timestamp.getD existing.timestamp
  created := update.createdAt.getD existing.created
  nextRetry := update.nextRetryAt.getD existing.nextRetry
  retryReason := existing.retryReason
  merkleRegistered := update.merkleRegisteredAt.getD existing.merkleRegistered
  orphanedAnchors := existing.orphanedAnchors

/-- `store.StatusUpdate`: the row that was written over, or the one that the lattice kept. -/
structure StatusUpdate where
  prev : Option StoredStatus := none
  current : Option StoredStatus := none
  deriving DecidableEq

def updateStatusReturning (db : DB) (status : TransactionStatus) :
    Except WriteError StatusUpdate × DB :=
  match readStatus db status.txid with
  | none => (.error (.notFound []), db)
  | some existing =>
    if status.status.any (fun s => !canTransitionFrom s existing.status) then
      (.ok { current := some existing }, db)
    else
      (.ok { prev := some existing },
        rewriteStatus db status.txid existing (mergeStatus existing status))

def bumpRetryCount (db : DB) (txid : Bytes) : Except WriteError Int × DB :=
  match readStatus db txid with
  | none => (.error (.notFound (ascii "bump retry count " ++ txid)), db)
  | some existing =>
    let retryCount := existing.retryCount + 1
    (.ok retryCount, db.insert (txKey txid) (.status { existing with retryCount }))

def setPendingRetryFields (db : DB) (now : Int64) (txid rawTx : Bytes) (nextRetryAt : Int64)
    (lastReason : Bytes) : Except WriteError Unit × DB :=
  match readStatus db txid with
  | none => (.error (.notFound (ascii "set pending retry fields " ++ txid)), db)
  | some existing =>
    if !canTransitionFrom .pendingRetry existing.status then (.ok (), db)
    else
      let updated := { existing with
        status := .pendingRetry
        rawTx
        nextRetry := nextRetryAt
        timestamp := now
        retryReason := lastReason }
      (.ok (), rewriteStatus db txid existing updated)

def clearRetryState (db : DB) (now : Int64) (txid : Bytes) (finalStatus : Status)
    (extraInfo : Bytes) : DB :=
  match readStatus db txid with
  | none => db
  | some existing =>
    let updated := { existing with
      status := finalStatus
      timestamp := now
      rawTx := []
      nextRetry := 0
      retryReason := []
      extraInfo := if extraInfo ≠ [] then extraInfo else existing.extraInfo }
    rewriteStatus db txid existing updated

/-! ## Writers of many rows -/

/-- One row of `SetStatusByBlockHash`, and whether it was rewritten. -/
def setStatusRow (db : DB) (now : Int64) (blockHash : Bytes) (newStatus : Status) (txid : Bytes) :
    Bool × DB :=
  match readStatus db txid with
  | none => (false, db)
  | some existing =>
    -- the row has another anchor by now, or is never touched
    if existing.blockHash ≠ blockHash ∨ existing.status = .immutable then (false, db)
    else
      let stamped := { existing with status := newStatus, timestamp := now }
      let updated :=
        if newStatus = .seenOnNetwork then
          { appendOrphanedAnchor stamped now with blockHash := [], blockHeight := 0 }
        else stamped
      (true, rewriteStatus db txid existing updated)

/-- One row of `SetMinedByTxIDs`: the row before and after, if it was rewritten. -/
def setMinedRow (db : DB) (now : Int64) (blockHash : Bytes) (blockHeight : UInt64) (txid : Bytes) :
    Option (StoredStatus × StoredStatus) × DB :=
  match readStatus db txid with
  | none => (none, db)
  | some existing =>
    if !canTransitionFrom .mined existing.status then (none, db)
    else
      let kept :=
        if existing.status = .mined ∧ existing.blockHash ≠ blockHash then
          appendOrphanedAnchor existing now
        else existing
      let updated := { kept with status := .mined, blockHash, blockHeight, timestamp := now }
      (some (existing, updated), rewriteStatus db txid existing updated)

/-- One row of `MarkMerkleRegisteredByTxIDs`; what it writes is not indexed. -/
def markMerkleRegisteredRow (db : DB) (ts : Int64) (txid : Bytes) : DB :=
  match readStatus db txid with
  | none => db
  | some existing => db.insert (txKey txid) (.status { existing with merkleRegistered := ts })

/-- A call under way on many rows: the rows that are left, and what it has to return so far. -/
inductive BulkCall where
  | setStatusByBlockHash (now : Int64) (blockHash : Bytes) (newStatus : Status)
    (candidates txids : List Bytes)
  | setMinedByTxIDs (now : Int64) (blockHash : Bytes) (blockHeight : UInt64) (left : List Bytes)
    (out : List (StoredStatus × StoredStatus))
  | markMerkleRegisteredByTxIDs (ts : Int64) (left : List Bytes)

namespace BulkCall

/-- `SetStatusByBlockHash` reads the index of the block first. -/
def startSetStatusByBlockHash (db : DB) (now : Int64) (blockHash : Bytes) (newStatus : Status) :
    BulkCall :=
  .setStatusByBlockHash now blockHash newStatus
    ((db.scanPrefix (idxTxBlockPrefix blockHash)).map lastSegment) []

def next (db : DB) : BulkCall → BulkCall × DB
  | .setStatusByBlockHash now blockHash newStatus (txid :: candidates) txids =>
    let (rewritten, db') := setStatusRow db now blockHash newStatus txid
    (.setStatusByBlockHash now blockHash newStatus candidates
      (if rewritten then txids ++ [txid] else txids), db')
  | .setMinedByTxIDs now blockHash blockHeight (txid :: left) out =>
    let (row, db') := setMinedRow db now blockHash blockHeight txid
    (.setMinedByTxIDs now blockHash blockHeight left (out ++ row.toList), db')
  | .markMerkleRegisteredByTxIDs ts (txid :: left) =>
    (.markMerkleRegisteredByTxIDs ts left, markMerkleRegisteredRow db ts txid)
  | call => (call, db)

end BulkCall

/-! ## Calls side by side -/

/-- The store, and the calls that are under way on many rows. -/
structure StatusStore where
  db : DB
  calls : List BulkCall

inductive StatusEvent where
  | getOrInsertStatus (now : Int64) (status : TransactionStatus)
  | updateStatus (status : TransactionStatus)
  | bumpRetryCount (txid : Bytes)
  | setPendingRetryFields (now : Int64) (txid rawTx : Bytes) (nextRetryAt : Int64)
    (lastReason : Bytes)
  | clearRetryState (now : Int64) (txid : Bytes) (finalStatus : Status) (extraInfo : Bytes)
  | setStatusByBlockHash (now : Int64) (blockHash : Bytes) (newStatus : Status)
  | setMinedByTxIDs (now : Int64) (blockHash : Bytes) (blockHeight : UInt64) (txids : List Bytes)
  | markMerkleRegisteredByTxIDs (ts : Int64) (txids : List Bytes)
  | next (i : Nat)

namespace StatusStore

def start : StatusStore := ⟨∅, []⟩

def step (s : StatusStore) : StatusEvent → StatusStore
  | .getOrInsertStatus now status => { s with db := (getOrInsertStatus s.db now status).2 }
  | .updateStatus status => { s with db := (updateStatusReturning s.db status).2 }
  | .bumpRetryCount txid => { s with db := (bumpRetryCount s.db txid).2 }
  | .setPendingRetryFields now txid rawTx nextRetryAt lastReason =>
    { s with db := (setPendingRetryFields s.db now txid rawTx nextRetryAt lastReason).2 }
  | .clearRetryState now txid finalStatus extraInfo =>
    { s with db := clearRetryState s.db now txid finalStatus extraInfo }
  | .setStatusByBlockHash now blockHash newStatus =>
    { s with
      calls := s.calls ++ [.startSetStatusByBlockHash s.db now blockHash newStatus] }
  | .setMinedByTxIDs now blockHash blockHeight txids =>
    { s with calls := s.calls ++ [.setMinedByTxIDs now blockHash blockHeight txids []] }
  | .markMerkleRegisteredByTxIDs ts txids =>
    { s with calls := s.calls ++ [.markMerkleRegisteredByTxIDs ts txids] }
  | .next i =>
    match s.calls[i]? with
    | none => s
    | some call => ⟨(call.next s.db).2, s.calls.set i (call.next s.db).1⟩

end StatusStore

end Arcade.Pebble
