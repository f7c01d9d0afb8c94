import Arcade.Store.Access

/-!
`handleMessage` of the bump builder: what one BLOCK_PROCESSED delivery reads,
builds and writes.

The outcome labels of the build histogram stand for what became of the delivery.
Logging and the other metrics are left out.
-/

namespace Arcade.Builder

open Lib
open Bump (Sdk Stump MerklePath levelAt buildCompoundBUMP validateCompoundRoot)
open Store (Program StoreError BlockData BulkEvent TxRow)
open Prog (send)

variable {H Data : Type}

/-- `models.CallbackMessage` of a BLOCK_PROCESSED. -/
structure CallbackMessage (Data : Type) where
  blockHash : String
  expectedSubtreeIndices : List Nat
  merkleRoot : String
  subtreeHashes : List String
  subtreeCount : Nat
  coinbaseBUMP : Data

inductive Outcome where
  | parseFailed
  | storeFailed
  | shortCircuited
  | noStumps
  | deferredIncomplete
  | contextCanceled
  | fetchFailed
  | noSubtrees
  | buildFailed
  | validationFailed
  | skippedInactiveChain
  | finalizedCompleteNoGrace
  | graceWaited
  | rebuilt
  deriving DecidableEq

/-- What `handleMessage` returns: the label of the delivery and its error. -/
abbrev Handled := Outcome × Except String Unit

structure Config where
  /-- A positive `grace_window_ms`. -/
  graceWindow : Bool
  /-- A chain-header reader is wired and `anchor_guard_enabled`. -/
  anchorGuard : Bool

/-! ## What the stored STUMPs and the stored BUMP say -/

section Leaves

variable (sdk : Sdk H Data)

def compoundLeaves (compound : MerklePath H) : List String :=
  ((levelAt compound.path 0).filterMap (·.hash)).map sdk.hashString

variable {sdk} in
theorem mem_compoundLeaves {compound : MerklePath H} {id : String} :
    id ∈ compoundLeaves sdk compound ↔
      ∃ e ∈ levelAt compound.path 0, ∃ x, e.hash = some x ∧ sdk.hashString x = id := by
  simp only [compoundLeaves, List.mem_map, List.mem_filterMap]
  constructor
  · rintro ⟨x, ⟨e, he, hx⟩, rfl⟩
    exact ⟨e, he, x, hx, rfl⟩
  · rintro ⟨e, he, x, hx, rfl⟩
    exact ⟨x, ⟨e, he, hx⟩, rfl⟩

def levelZeroTxidsFromBUMP (bumpData : Data) : Except String (List String) :=
  match sdk.newMerklePathFromBinary bumpData with
  | .error err => .error ("parsing stored BUMP: " ++ err)
  | .ok mp => .ok (compoundLeaves sdk mp)

/-- How many stored leaves the txids do not cover. -/
def leavesNotIn (stored txids : List String) : Nat := (stored.filter fun id => id ∉ txids).length

/-- The leaves of one STUMP that count: the coinbase slot of subtree 0 does not. -/
def countedLeaves (st : Stump Data) (mp : MerklePath H) : List String :=
  (((levelAt mp.path 0).filter fun leaf => !(st.subtreeIndex == 0 && leaf.offset == 0)).filterMap
    (·.hash)).map sdk.hashString

def leavesBeyondStoredBUMP (stumps : List (Stump Data)) (storedTxIDs : List String) :
    Except String (List String) :=
  stumps.foldlM (fun missing st =>
    match sdk.newMerklePathFromBinary st.stumpData with
    | .error err => .error ("stored STUMP for subtree " ++ toString st.subtreeIndex
        ++ " does not parse: " ++ err)
    | .ok mp =>
      if mp.path = [] then .error ("stored STUMP for subtree " ++ toString st.subtreeIndex
        ++ " does not parse: empty merkle path")
      else .ok ((countedLeaves sdk st mp).foldl (fun missing txid =>
        if txid ∈ storedTxIDs ∨ txid ∈ missing then missing else missing ++ [txid]) missing)) []

end Leaves

def missingStumpIndices (expected : List Nat) (stumps : List (Stump Data)) : List Nat :=
  expected.filter fun idx => !stumps.any fun st => st.subtreeIndex == idx

/-- The missing indices as a redelivery counts them: with no STUMP retained every index
would read as missing, so then none counts. -/
def retainedMissing (expected : List Nat) (stumps : List (Stump Data)) : List Nat :=
  if stumps = [] then [] else missingStumpIndices expected stumps

/-- The least number of subtrees that can index every STUMP. -/
def minSubtrees (stumps : List (Stump Data)) : Nat :=
  stumps.foldl (fun least st => max least (st.subtreeIndex + 1)) 0

def callbackBlockData (sdk : Sdk H Data) (callback : CallbackMessage Data) (minSubtrees : Nat) :
    Option (BlockData H Data) :=
  if callback.merkleRoot = "" ∨ callback.subtreeHashes = [] ∨ sdk.isEmpty callback.coinbaseBUMP then
    none
  else if callback.subtreeCount ≠ 0 ∧ callback.subtreeCount ≠ callback.subtreeHashes.length then
    none
  else if callback.subtreeHashes.length < minSubtrees then none
  else match sdk.newHashFromHex callback.merkleRoot,
      callback.subtreeHashes.mapM sdk.newHashFromHex with
    | .ok root, .ok hashes => some ⟨hashes, callback.coinbaseBUMP, some root⟩
    | _, _ => none

/-! ## Marking MINED -/

def maxTxIDsPerBulkEvent : Nat := 5000

/-- The txids of the bulk events, in slices of at most `maxTxIDsPerBulkEvent`. -/
def bulkChunks (txids : List String) : List (List String) :=
  (List.range ((txids.length + maxTxIDsPerBulkEvent - 1) / maxTxIDsPerBulkEvent)).map fun i =>
    (txids.drop (i * maxTxIDsPerBulkEvent)).take maxTxIDsPerBulkEvent

/-- Publish one event after the other; whether one of them failed. -/
def publishAll : List BulkEvent → Program H Data Bool
  | [] => pure false
  | event :: rest => do
    let reply ← send (.publishBulk event)
    let failed ← publishAll rest
    return failed || reply.toOption.isNone

/-- What `setMinedAndPublish` returns, and whether a publish failed on the way. -/
structure MinedAndPublished where
  count : Nat
  err : Option String
  publishFailed : Bool

def changedRows (blockHash : String) (rows : List (String × TxRow)) : List (String × TxRow) :=
  rows.filter fun row => ¬ (row.2.status = .mined ∧ row.2.blockHash = blockHash)

def setMinedAndPublish (blockHash : String) (blockHeight : Nat) (txids : List String)
    (extraInfo : String) (onlyChanged : Bool) : Program H Data MinedAndPublished := do
  let mined ← send (.setMinedByTxIDs blockHash blockHeight txids)
  if mined.err.isSome ∧ mined.rows = [] then
    return ⟨0, mined.err, false⟩
  else
    let rows := if onlyChanged then changedRows blockHash mined.rows else mined.rows
    let failed ← publishAll ((bulkChunks (rows.map (·.1))).map fun chunk =>
      ⟨.mined, blockHash, blockHeight, chunk, extraInfo⟩)
    return ⟨rows.length, mined.err, failed⟩

/-- Whether the rows were all written and every publish went through. -/
def markMinedAndPublish (blockHash : String) (blockHeight : Nat) (txids : List String)
    (onlyChanged : Bool) : Program H Data Bool := do
  let done ← setMinedAndPublish blockHash blockHeight txids "" onlyChanged
  return done.err.isNone && !done.publishFailed

def blockFinalized (blockHash : String) : Program H Data Bool := do
  match ← send (.getBlockProcessingStatus blockHash) with
  | .error _ => return false
  | .ok row => return row.processed ≠ 0

/-- Mark the txids of a block, if there are any. For a block that was finalized before,
only the rows whose anchor changes are announced. -/
def mineTxids (blockHash : String) (blockHeight : Nat) (txids : List String)
    (finalized : Program H Data Bool) : Program H Data Bool :=
  if txids = [] then pure true
  else do
    let onlyChanged ← finalized
    markMinedAndPublish blockHash blockHeight txids onlyChanged

/-! ## Stamping and deferring -/

def markBlockProcessed (blockHash : String) (blockHeight : Nat) : Program H Data Unit := do
  match ← send (.markBlockProcessed blockHash blockHeight) with
  | .error _ => return
  | .ok _ =>
    -- a stamped block owes nothing; a set that is left over costs one more deferral
    let _ ← send (.clearBlockExpectedSubtrees blockHash)

def finalizeEmptyBlock (blockHash : String) : Program H Data Unit := markBlockProcessed blockHash 0

def deferStampedBlock (blockHash : String) : Program H Data (Except String Unit) := do
  match ← send (.getBlockProcessingStatus blockHash) with
  | .error .notFound => return .ok ()
  | .error err => return .error ("reading block_processing for deferral: " ++ err.text)
  | .ok row =>
    if row.processed = 0 then return .ok ()
    else match ← send (.clearBlockProcessed blockHash) with
      | .error err => return .error ("clearing processed_at on deferred block: " ++ err.text)
      | .ok _ => return .ok ()

def deferIncompleteBlock (blockHash : String) (expected : List Nat) :
    Program H Data (Except String Unit) := do
  match ← send (.addBlockExpectedSubtrees blockHash expected) with
  | .error err =>
    return .error ("retaining expected subtrees for deferred block: " ++ err.text)
  | .ok _ => deferStampedBlock blockHash

inductive AnchorVerdict where
  | allow | deny
  deriving DecidableEq

/-- The write-time anchor guard. The header is looked up in any case here; the answer
counts only when the guard is on and the height is one. -/
def anchorDecision (cfg : Config) (blockHash : String) (blockHeight : Nat) :
    Program H Data AnchorVerdict := do
  match ← send (.getHeaderByHeight blockHeight) with
  | .ok (some active) =>
    if cfg.anchorGuard ∧ 0 < blockHeight ∧ blockHeight < 2 ^ 32 ∧ active ≠ blockHash then
      return .deny
    else return .allow
  | _ => return .allow

def handleAnchorDenied (blockHash : String) (blockHeight : Nat) : Program H Data Unit := do
  markBlockProcessed blockHash blockHeight
  let _ ← send (.markBlocksOrphaned [blockHash])
  let _ ← send (.deleteStumpsByBlockHash blockHash)

/-! ## Redeliveries -/

section Handle

variable (sdk : Sdk H Data) (cfg : Config)

def widenExpectedSubtrees (callback : CallbackMessage Data) :
    Program H Data (Except String (CallbackMessage Data)) := do
  match ← send (.getBlockExpectedSubtrees callback.blockHash) with
  | .error err => return .error ("reading retained expected subtrees: " ++ err.text)
  | .ok [] => return .ok callback
  | .ok retained =>
    return .ok { callback with
      expectedSubtreeIndices :=
        Store.sortCompact (callback.expectedSubtreeIndices ++ retained) }

/-- The height and the leaves of the stored BUMP; `none` when there is none that parses. -/
def loadStoredBUMP (blockHash : String) :
    Program H Data (Except String (Option (Nat × List String))) := do
  match ← send (.getBUMP blockHash) with
  | .error .notFound => return .ok none
  | .error err => return .error ("reading stored BUMP: " ++ err.text)
  | .ok (height, bumpBytes) =>
    if sdk.isEmpty bumpBytes then return .ok none
    else match levelZeroTxidsFromBUMP sdk bumpBytes with
      | .error _ => return .ok none
      | .ok txids => return .ok (some (height, txids))

/-- Whether the mine failed to land in full. -/
def shortCircuit (blockHash : String) (existingHeight : Nat) (txids : List String) :
    Program H Data (Except String Bool) := do
  match ← anchorDecision cfg blockHash existingHeight with
  | .deny =>
    handleAnchorDenied blockHash existingHeight
    return .ok false
  | .allow =>
    let minedComplete ← mineTxids blockHash existingHeight txids (blockFinalized blockHash)
    if minedComplete then
      markBlockProcessed blockHash existingHeight
      return .ok false
    else match ← deferStampedBlock blockHash with
      | .error err => return .error err
      | .ok _ => return .ok true

/-- What a delivery means for a block that may have a compound BUMP already. -/
inductive Redelivery where
  /-- No BUMP yet. -/
  | fresh
  /-- The short-circuit dealt with it. -/
  | handled (outcome : Outcome)
  /-- Build again; the new compound must keep these leaves. -/
  | rebuild (storedLeaves : List String)

def handleRedelivery (callback : CallbackMessage Data) :
    Program H Data (Except String Redelivery) := do
  match ← loadStoredBUMP sdk callback.blockHash with
  | .error err => return .error err
  | .ok none => return .ok .fresh
  | .ok (some (height, storedTxIDs)) =>
    match ← send (.getStumpsByBlockHash callback.blockHash) with
    | .error err => return .error err.text
    | .ok stumps =>
      match leavesBeyondStoredBUMP sdk stumps storedTxIDs with
      | .error err => return .error err
      | .ok newLeaves =>
        let missing := retainedMissing callback.expectedSubtreeIndices stumps
        if newLeaves = [] ∧ missing = [] then
          match ← shortCircuit cfg callback.blockHash height storedTxIDs with
          | .error err => return .error err
          | .ok mineFailed =>
            return .ok (.handled (if mineFailed then .storeFailed else .shortCircuited))
        else return .ok (.rebuild storedTxIDs)

/-! ## The STUMPs to build from -/

/-- What `resolveStumps` decides. -/
inductive Resolved (Data : Type) where
  | failed (outcome : Outcome) (err : String)
  | finished (outcome : Outcome)
  | build (stumps : List (Stump Data)) (outcome : Outcome)

/-- The decision once the set is final: complete, incomplete or empty. -/
def gateStumps (blockHash : String) (expected : List Nat) (stumps : List (Stump Data)) :
    Program H Data (Resolved Data) := do
  if missingStumpIndices expected stumps ≠ [] then
    match ← deferIncompleteBlock blockHash expected with
    | .error err => return .failed .storeFailed err
    | .ok _ => return .finished .deferredIncomplete
  else if stumps = [] then
    finalizeEmptyBlock blockHash
    return .finished .noStumps
  else return .build stumps .graceWaited

def resolveStumps (callback : CallbackMessage Data) (rebuild : Bool) :
    Program H Data (Resolved Data) := do
  let expected := callback.expectedSubtreeIndices
  match ← send (.getStumpsByBlockHash callback.blockHash) with
  | .error err => return .failed .storeFailed ("getting STUMPs for block: " ++ err.text)
  | .ok stumps =>
    if ¬ rebuild ∧ expected ≠ [] ∧ missingStumpIndices expected stumps = [] then
      return .build stumps .finalizedCompleteNoGrace
    else if ¬ rebuild ∧ expected = [] ∧ stumps = [] then
      finalizeEmptyBlock callback.blockHash
      return .finished .noStumps
    else if cfg.graceWindow then
      if ← send .wait then
        match ← send (.getStumpsByBlockHash callback.blockHash) with
        | .error err => return .failed .storeFailed ("getting STUMPs for block: " ++ err.text)
        | .ok stumps => gateStumps callback.blockHash expected stumps
      else return .failed .contextCanceled "context canceled"
    else gateStumps callback.blockHash expected stumps

/-! ## Building -/

/-- The block data of the callback, or else of a datahub. -/
def blockDataFor (callback : CallbackMessage Data) (stumps : List (Stump Data)) :
    Program H Data (Except String (BlockData H Data)) := do
  match callbackBlockData sdk callback (minSubtrees stumps) with
  | some data => return .ok data
  | none => send (.fetchBlockData callback.blockHash (minSubtrees stumps))

variable [DecidableEq H]

/-- A compound that may be stored, with the txids of its STUMPs. -/
inductive Built (H : Type) where
  | failed (outcome : Outcome) (err : String)
  | noSubtrees
  /-- It would drop leaves of the stored BUMP. -/
  | drops
  | ok (compound : MerklePath H) (txids : List String)

def buildCompound (blockHash : String) (stored : Option (List String))
    (stumps : List (Stump Data)) (data : BlockData H Data) : Built H :=
  if data.subtreeHashes = [] then .noSubtrees
  else match buildCompoundBUMP sdk stumps data.subtreeHashes data.coinbaseBUMP
      data.headerMerkleRoot with
    | .error err => .failed .buildFailed ("building compound BUMP: " ++ err)
    | .ok (compound, txids) =>
      match validateCompoundRoot sdk compound data.headerMerkleRoot with
      | .error err => .failed .validationFailed
          ("compound BUMP root mismatch for block " ++ blockHash ++ ": " ++ err)
      | .ok _ =>
        if stored.any fun leaves => leavesNotIn leaves (compoundLeaves sdk compound) > 0 then .drops
        else .ok compound txids

def anchorCompound (blockHash : String) (finalized : Bool) (rebuild : Bool) (outcome : Outcome)
    (blockHeight : Nat) (txids : List String) : Program H Data Handled := do
  match ← anchorDecision cfg blockHash blockHeight with
  | .deny =>
    handleAnchorDenied blockHash blockHeight
    return (.skippedInactiveChain, .ok ())
  | .allow =>
    let minedComplete ← mineTxids blockHash blockHeight txids (pure finalized)
    if minedComplete then
      markBlockProcessed blockHash blockHeight
      return (if rebuild then .rebuilt else outcome, .ok ())
    else return (.storeFailed, .ok ())

def storeCompound (blockHash : String) (finalized : Bool) (rebuild : Bool) (outcome : Outcome)
    (compound : MerklePath H) (txids : List String) : Program H Data Handled := do
  match ← send (.markBlockBUMPBuilt blockHash compound.blockHeight) with
  | .error err => return (.storeFailed, .error ("recording bump_built_at: " ++ err.text))
  | .ok _ =>
    match ← send (.insertBUMP blockHash compound.blockHeight (sdk.bytes compound)) with
    | .error err => return (.storeFailed, .error ("storing BUMP: " ++ err.text))
    | .ok _ => anchorCompound cfg blockHash finalized rebuild outcome compound.blockHeight txids

/-- A rebuild of a finalized block takes the stamp off before it touches the BUMP. -/
def unstampForRebuild (blockHash : String) (finalized rebuild : Bool) :
    Program H Data (Except String Unit) := do
  if rebuild ∧ finalized then
    match ← send (.clearBlockProcessed blockHash) with
    | .error err => return .error ("clearing processed_at before rebuild: " ++ err.text)
    | .ok _ => return .ok ()
  else return .ok ()

/-- `handleMessage` from the STUMP set on. -/
def buildBlock (callback : CallbackMessage Data) (finalized : Bool)
    (stored : Option (List String)) (stumps : List (Stump Data)) (outcome : Outcome) :
    Program H Data Handled := do
  match ← blockDataFor sdk callback stumps with
  | .error err => return (.fetchFailed, .error ("fetching block data: " ++ err))
  | .ok data =>
    match buildCompound sdk callback.blockHash stored stumps data with
    | .failed outcome err => return (outcome, .error err)
    | .noSubtrees => return (.noSubtrees, .ok ())
    | .drops =>
      match ← deferIncompleteBlock callback.blockHash callback.expectedSubtreeIndices with
      | .error err => return (.storeFailed, .error err)
      | .ok _ => return (.deferredIncomplete, .ok ())
    | .ok compound txids =>
      match ← unstampForRebuild callback.blockHash finalized stored.isSome with
      | .error err => return (.storeFailed, .error err)
      | .ok _ =>
        storeCompound sdk cfg callback.blockHash finalized stored.isSome outcome compound txids

/-- `handleMessage` after the redelivery check, with the leaves a rebuild must keep. -/
def resolveAndBuild (callback : CallbackMessage Data) (stored : Option (List String)) :
    Program H Data Handled := do
  let finalized ← blockFinalized callback.blockHash
  match ← resolveStumps cfg callback stored.isSome with
  | .failed outcome err => return (outcome, .error err)
  | .finished outcome => return (outcome, .ok ())
  | .build stumps outcome => buildBlock sdk cfg callback finalized stored stumps outcome

def handleMessage (callback : CallbackMessage Data) : Program H Data Handled := do
  if callback.blockHash = "" then
    return (.parseFailed, .error "empty block hash in block_processed message")
  else match ← widenExpectedSubtrees callback with
    | .error err => return (.storeFailed, .error err)
    | .ok callback =>
      match ← handleRedelivery sdk cfg callback with
      | .error err =>
        return (.storeFailed, .error ("reading stored BUMP/STUMPs on redelivery: " ++ err))
      | .ok (.handled outcome) => return (outcome, .ok ())
      | .ok .fresh => resolveAndBuild sdk cfg callback none
      | .ok (.rebuild storedLeaves) => resolveAndBuild sdk cfg callback (some storedLeaves)

end Handle

end Arcade.Builder
