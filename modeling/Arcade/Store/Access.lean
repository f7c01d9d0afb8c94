import Arcade.Lib.Calls
import Arcade.Store.Blocks
import Arcade.Store.TxRows
import Arcade.Bump.Build

/-!
The store as the bump builder and the anchor reconciler call it, together with
the other parties they ask: the event publisher, the chain headers, the datahub and the
merkle-service.

Every call is one atomic step. An oracle decides how it is answered: it
fails or not, with a part of the write already done, and it tells the time.
-/

namespace Arcade.Store

open Lib List
open Propagation (Status)
open Bump (Stump)

/-- A bulk status event; `timestamp` is left out. -/
structure BulkEvent where
  status : Status
  blockHash : String
  blockHeight : Nat
  txids : List String
  extraInfo : String
  deriving DecidableEq

/-- What a BUMP is built from besides the STUMPs. -/
structure BlockData (H Data : Type) where
  subtreeHashes : List H
  coinbaseBUMP : Data
  headerMerkleRoot : Option H

structure Tables (Data : Type) where
  blocks : Blocks
  /-- The expected-subtree sets that deferred deliveries left behind. -/
  expected : GoMap String (List Nat)
  bumps : GoMap String (Nat × Data)
  stumps : GoMap String (List (Stump Data))
  txs : TxRows
  /-- The events that were published without error. -/
  published : List BulkEvent

inductive StoreError where
  | notFound
  | failed (text : String)

def StoreError.text : StoreError → String
  | .notFound => "not found"
  | .failed text => text

/-! ## Calls -/

abbrev Result (α : Type) := Except StoreError α

/-- The rows a call wrote, each with what it was before, and the error that ended it. -/
structure MinedRows where
  rows : List (String × TxRow)
  err : Option String

/-- The txids whose rows a call wrote, and the error that ended it. -/
structure RewrittenRows where
  txids : List String
  err : Option String

inductive Call (H Data : Type) : Type → Type 1 where
  | getBlockExpectedSubtrees (hash : String) : Call H Data (Result (List Nat))
  | addBlockExpectedSubtrees (hash : String) (indices : List Nat) : Call H Data (Result Unit)
  | clearBlockExpectedSubtrees (hash : String) : Call H Data (Result Unit)
  | getBUMP (hash : String) : Call H Data (Result (Nat × Data))
  | insertBUMP (hash : String) (height : Nat) (bumpData : Data) : Call H Data (Result Unit)
  | getStumpsByBlockHash (hash : String) : Call H Data (Result (List (Stump Data)))
  | deleteStumpsByBlockHash (hash : String) : Call H Data (Result Unit)
  | getBlockProcessingStatus (hash : String) : Call H Data (Result BlockRow)
  | listBlockProcessingStatus (beforeHeight limit : Nat) :
    Call H Data (Result (List (String × BlockRow)))
  | getActiveTipBlockHeight : Call H Data (Result Nat)
  | markBlockProcessed (hash : String) (height : Nat) : Call H Data (Result Unit)
  | clearBlockProcessed (hash : String) : Call H Data (Result Unit)
  | markBlockBUMPBuilt (hash : String) (height : Nat) : Call H Data (Result Unit)
  | markBlocksOrphaned (hashes : List String) : Call H Data (Result Unit)
  | markBlockReconciled (hash : String) (token : Option Int64) : Call H Data (Result Bool)
  | requeueOrphanedBlock (hash : String) (token : Option Int64) : Call H Data (Result Bool)
  | reactivateBlock (hash : String) (height : Nat) (token : Option Int64) :
    Call H Data (Result Bool)
  | getTxIDsByBlockHash (hash : String) : Call H Data (Result (List String))
  | setStatusByBlockHash (hash : String) (status : Status) : Call H Data RewrittenRows
  | setMinedByTxIDs (hash : String) (height : Nat) (txids : List String) : Call H Data MinedRows
  | publishBulk (event : BulkEvent) : Call H Data (Result Unit)
  /-- The header of the active chain at a height, `none` when it is not known. -/
  | getHeaderByHeight (height : Nat) : Call H Data (Except String (Option String))
  | fetchBlockData (hash : String) (minSubtrees : Nat) :
    Call H Data (Except String (BlockData H Data))
  /-- Ask the merkle-service to deliver the block again. -/
  | reprocess (hash : String) : Call H Data (Result Unit)
  /-- The grace window. -/
  | wait : Call H Data Bool

abbrev Program (H Data : Type) := Prog (Call H Data)

/-! ## Answers -/

/-- A failure, and how much of a write was done before it: how many rows, or for
a write of one row whether it was done at all. -/
structure Fault where
  text : String
  landed : Nat

structure Oracle (H Data : Type) where
  /-- What `time.Now()` reads. -/
  now : Int64
  fault : Option Fault
  /-- The rows that `SetStatusByBlockHash` cannot read, and passes over. -/
  unread : List String
  header : Except String (Option String)
  blockData : Except String (BlockData H Data)
  /-- The wait was not cut short by the context. -/
  waited : Bool
  /-- How the store ranks block rows of equal height; only Pebble promises an order there, by hash. -/
  rank : String → Nat

/-- `slices.Sort` and `slices.Compact`. -/
def sortCompact (xs : List Nat) : List Nat := (xs.insertionSort (· ≤ ·)).dedup

/-- One row of `SetMinedByTxIDs`. -/
def setMinedRow (blockHash : String) (blockHeight : Nat)
    (acc : TxRows × List (String × TxRow)) (txid : String) : TxRows × List (String × TxRow) :=
  match acc.1.lookup txid with
  | none => acc
  | some prev =>
    match setMined blockHash blockHeight prev with
    | none => acc
    | some row => (acc.1.insert txid row, acc.2 ++ [(txid, prev)])

def setMinedByTxIDs (blockHash : String) (blockHeight : Nat) (txids : List String)
    (txs : TxRows) : TxRows × List (String × TxRow) :=
  txids.foldl (setMinedRow blockHash blockHeight) (txs, [])

/-- The index of the rows that are anchored to a block. -/
def txIDsByBlockHash (blockHash : String) (txs : TxRows) : List String :=
  txs.keys.filter fun txid => (txs.lookup txid).any fun row => row.blockHash = blockHash

/-- One row of `SetStatusByBlockHash`. -/
def setStatusRow (blockHash : String) (status : Status) (unread : List String)
    (acc : TxRows × List String) (txid : String) : TxRows × List String :=
  if txid ∈ unread then acc
  else match acc.1.lookup txid with
    | none => acc
    | some prev =>
      match setStatusByBlockHash blockHash status prev with
      | none => acc
      | some row => (acc.1.insert txid row, acc.2 ++ [txid])

def setStatusRows (blockHash : String) (status : Status) (unread : List String)
    (txids : List String) (txs : TxRows) : TxRows × List String :=
  txids.foldl (setStatusRow blockHash status unread) (txs, [])

/-- Higher blocks first, and at one height as they are ranked. -/
def pageOrder (rank : String → Nat) (a b : String × BlockRow) : Bool :=
  b.2.blockHeight < a.2.blockHeight ∨ b.2.blockHeight = a.2.blockHeight ∧ rank a.1 ≤ rank b.1

def rowsBelow (beforeHeight : Nat) (blocks : Blocks) : List (String × BlockRow) :=
  (blocks.entries.map fun e => (e.1, e.2)).filter fun e =>
    beforeHeight = 0 ∨ e.2.blockHeight < beforeHeight

def blockPage (rank : String → Nat) (beforeHeight limit : Nat) (blocks : Blocks) :
    List (String × BlockRow) :=
  ((rowsBelow beforeHeight blocks).insertionSort (pageOrder rank · ·)).take limit

/-- The height of the highest active row, 0 when there is none. -/
def activeTipBlockHeight (blocks : Blocks) : Nat :=
  ((blocks.entries.filter fun e => e.2.status = .active).map fun e => e.2.blockHeight).foldl max 0

namespace Tables

variable {Data : Type}

def stumpsOf (s : Tables Data) (hash : String) : List (Stump Data) :=
  (s.stumps.lookup hash).getD []

def expectedOf (s : Tables Data) (hash : String) : List Nat :=
  (s.expected.lookup hash).getD []

def read {α : Type} (s : Tables Data) (fault : Option Fault) (v : Result α) :
    Result α × Tables Data :=
  match fault with
  | none => (v, s)
  | some f => (.error (.failed f.text), s)

/-- A write of one row, which takes the tables to `s'`. -/
def write {α : Type} (s : Tables Data) (fault : Option Fault) (v : α) (s' : Tables Data) :
    Result α × Tables Data :=
  match fault with
  | none => (.ok v, s')
  | some f => (.error (.failed f.text), if f.landed = 0 then s else s')

/-- The rows that a write of many gets to. -/
def reached {α : Type} (fault : Option Fault) (xs : List α) : List α :=
  match fault with
  | none => xs
  | some f => xs.take f.landed

def casWrite (s : Tables Data) (fault : Option Fault) (hash : String)
    (f : BlockRow → Option BlockRow) : Result Bool × Tables Data :=
  match (s.blocks.lookup hash).bind f with
  | none => s.write fault false s
  | some row => s.write fault true { s with blocks := s.blocks.insert hash row }

def exec {H ρ : Type} (s : Tables Data) (o : Oracle H Data) : Call H Data ρ → ρ × Tables Data
  | .getBlockExpectedSubtrees hash => s.read o.fault (.ok (s.expectedOf hash))
  | .addBlockExpectedSubtrees hash indices =>
    -- the set belongs to a row: without one there is nothing to hold it
    if indices = [] ∨ s.blocks.lookup hash = none then s.read o.fault (.ok ())
    else s.write o.fault ()
      { s with expected := s.expected.insert hash (sortCompact (s.expectedOf hash ++ indices)) }
  | .clearBlockExpectedSubtrees hash =>
    s.write o.fault () { s with expected := s.expected.erase hash }
  | .getBUMP hash =>
    s.read o.fault (match s.bumps.lookup hash with
      | none => .error .notFound
      | some bump => .ok bump)
  | .insertBUMP hash height bumpData =>
    s.write o.fault () { s with bumps := s.bumps.insert hash (height, bumpData) }
  | .getStumpsByBlockHash hash => s.read o.fault (.ok (s.stumpsOf hash))
  | .deleteStumpsByBlockHash hash =>
    s.write o.fault () { s with stumps := s.stumps.erase hash }
  | .getBlockProcessingStatus hash =>
    s.read o.fault (match s.blocks.lookup hash with
      | none => .error .notFound
      | some row => .ok row)
  | .listBlockProcessingStatus beforeHeight limit =>
    s.read o.fault (.ok (blockPage o.rank beforeHeight limit s.blocks))
  | .getActiveTipBlockHeight => s.read o.fault (.ok (activeTipBlockHeight s.blocks))
  | .markBlockProcessed hash height =>
    let row := markBlockProcessed height o.now (s.blocks.lookup hash)
    s.write o.fault () { s with blocks := s.blocks.insert hash row }
  | .clearBlockProcessed hash =>
    match s.blocks.lookup hash with
    | none => s.read o.fault (.ok ())
    | some row =>
      s.write o.fault () { s with blocks := s.blocks.insert hash (clearBlockProcessed row) }
  | .markBlockBUMPBuilt hash height =>
    let row := markBlockBUMPBuilt height o.now (s.blocks.lookup hash)
    s.write o.fault () { s with blocks := s.blocks.insert hash row }
  | .markBlocksOrphaned hashes =>
    ((match o.fault with
      | none => .ok ()
      | some f => .error (.failed f.text)),
      { s with blocks := (markBlocksOrphaned (reached o.fault hashes) o.now s.blocks).1 })
  | .markBlockReconciled hash token =>
    s.casWrite o.fault hash (markBlockReconciled token o.now)
  | .requeueOrphanedBlock hash token =>
    s.casWrite o.fault hash (requeueOrphanedBlock token)
  | .reactivateBlock hash height token =>
    s.casWrite o.fault hash (reactivateBlock height token)
  | .getTxIDsByBlockHash hash => s.read o.fault (.ok (txIDsByBlockHash hash s.txs))
  | .setStatusByBlockHash hash status =>
    let written := setStatusRows hash status o.unread
      (reached o.fault (txIDsByBlockHash hash s.txs)) s.txs
    (⟨written.2, o.fault.map Fault.text⟩, { s with txs := written.1 })
  | .setMinedByTxIDs hash height txids =>
    let written := setMinedByTxIDs hash height (reached o.fault txids) s.txs
    (⟨written.2, o.fault.map Fault.text⟩, { s with txs := written.1 })
  | .publishBulk event =>
    match o.fault with
    | none => (.ok (), { s with published := s.published ++ [event] })
    | some f => (.error (.failed f.text), s)
  | .getHeaderByHeight _ => (o.header, s)
  | .fetchBlockData _ _ => (o.blockData, s)
  | .reprocess _ => s.read o.fault (.ok ())
  | .wait => (o.waited, s)

end Tables

/-! ## What a call leaves alone -/

/-- The kinds of effect: the tables that are written, the setting of `processed_at`
among the writes of the block rows, and a look at the chain headers. -/
inductive Effect where
  | blocks | stamp | expected | bumps | stumps | txs | published | headers
  deriving DecidableEq

namespace Call

variable {H Data ρ : Type}

def effects : Call H Data ρ → List Effect
  | .addBlockExpectedSubtrees _ _ | .clearBlockExpectedSubtrees _ => [.expected]
  | .insertBUMP _ _ _ => [.bumps]
  | .deleteStumpsByBlockHash _ => [.stumps]
  | .markBlockProcessed _ _ => [.blocks, .stamp]
  | .clearBlockProcessed _ | .markBlockBUMPBuilt _ _ | .markBlocksOrphaned _
  | .markBlockReconciled _ _ | .requeueOrphanedBlock _ _ | .reactivateBlock _ _ _ => [.blocks]
  | .setStatusByBlockHash _ _ | .setMinedByTxIDs _ _ _ => [.txs]
  | .publishBulk _ => [.published]
  | .getHeaderByHeight _ => [.headers]
  | _ => []

end Call

namespace Tables

variable {H Data ρ α : Type} {o : Oracle H Data} {c : Call H Data ρ} {s : Tables Data}
  (fault : Option Fault)

@[simp] theorem read_state (v : Result α) : (s.read fault v).2 = s := by
  cases fault <;> rfl

theorem write_state (v : α) (s' : Tables Data) :
    (s.write fault v s').2 = s ∨ (s.write fault v s').2 = s' := by
  cases fault with
  | none => exact .inr rfl
  | some f => by_cases h : f.landed = 0 <;> simp [write, h]

/-- `s'` differs from `s` only in the tables that `kinds` names. -/
structure Agrees (kinds : List Effect) (s s' : Tables Data) : Prop where
  blocks : Effect.blocks ∉ kinds → s'.blocks = s.blocks
  expected : Effect.expected ∉ kinds → s'.expected = s.expected
  bumps : Effect.bumps ∉ kinds → s'.bumps = s.bumps
  stumps : Effect.stumps ∉ kinds → s'.stumps = s.stumps
  txs : Effect.txs ∉ kinds → s'.txs = s.txs
  published : Effect.published ∉ kinds → s'.published = s.published

theorem Agrees.refl (kinds : List Effect) (s : Tables Data) : Agrees kinds s s :=
  ⟨fun _ => rfl, fun _ => rfl, fun _ => rfl, fun _ => rfl, fun _ => rfl, fun _ => rfl⟩

theorem Agrees.read (kinds : List Effect) (fault : Option Fault) (v : Result α) :
    Agrees kinds s (s.read fault v).2 := by
  rw [read_state]
  exact .refl kinds s

theorem Agrees.write {kinds : List Effect} {s' : Tables Data} (h : Agrees kinds s s')
    (fault : Option Fault) (v : α) : Agrees kinds s (s.write fault v s').2 := by
  rcases s.write_state fault v s' with hw | hw
  · rw [hw]
    exact .refl kinds s
  · rw [hw]
    exact h

theorem Agrees.casWrite (hash : String) (f : BlockRow → Option BlockRow) :
    Agrees [.blocks] s (s.casWrite fault hash f).2 := by
  unfold Tables.casWrite
  split
  · exact (Agrees.refl _ s).write fault _
  · refine Agrees.write ?_ fault _
    constructor <;> simp

theorem exec_agrees (s : Tables Data) (o : Oracle H Data) (c : Call H Data ρ) :
    Agrees c.effects s (s.exec o c).2 := by
  cases c with
  | getBlockExpectedSubtrees | getBUMP | getStumpsByBlockHash | getBlockProcessingStatus
  | listBlockProcessingStatus | getActiveTipBlockHeight | getTxIDsByBlockHash | reprocess =>
    exact Agrees.read _ _ _
  | getHeaderByHeight | fetchBlockData | wait => exact Agrees.refl _ _
  | addBlockExpectedSubtrees hash indices =>
    simp only [exec]
    split
    · exact Agrees.read _ _ _
    · refine Agrees.write ?_ _ _
      constructor <;> simp [Call.effects]
  | clearBlockProcessed hash =>
    simp only [exec]
    split
    · exact Agrees.read _ _ _
    · refine Agrees.write ?_ _ _
      constructor <;> simp [Call.effects]
  | clearBlockExpectedSubtrees | insertBUMP | deleteStumpsByBlockHash | markBlockProcessed
  | markBlockBUMPBuilt =>
    refine Agrees.write ?_ _ _
    constructor <;> simp [Call.effects]
  | markBlockReconciled | requeueOrphanedBlock | reactivateBlock => exact Agrees.casWrite _ _ _
  | markBlocksOrphaned | setStatusByBlockHash | setMinedByTxIDs =>
    constructor <;> simp [Call.effects, exec]
  | publishBulk event =>
    simp only [exec]
    split
    · constructor <;> simp [Call.effects]
    · exact Agrees.refl _ _

end Tables

/-! ## What a call does to the row of a block -/

/-- What a call makes of the row when it gets to it. -/
def Call.rowWrite {H Data ρ : Type} (o : Oracle H Data) (b : String) (row : Option BlockRow) :
    Call H Data ρ → Option BlockRow
  | .markBlockProcessed hash height =>
    if b = hash then some (Store.markBlockProcessed height o.now row) else row
  | .clearBlockProcessed hash => if b = hash then row.map Store.clearBlockProcessed else row
  | .markBlockBUMPBuilt hash height =>
    if b = hash then some (Store.markBlockBUMPBuilt height o.now row) else row
  | .markBlocksOrphaned hashes =>
    if b ∈ hashes then row.map fun prev => (markOrphaned o.now prev).getD prev else row
  | .markBlockReconciled hash token =>
    if b = hash then row.map fun prev => (Store.markBlockReconciled token o.now prev).getD prev
    else row
  | .requeueOrphanedBlock hash token =>
    if b = hash then row.map fun prev => (Store.requeueOrphanedBlock token prev).getD prev
    else row
  | .reactivateBlock hash height token =>
    if b = hash then row.map fun prev => (Store.reactivateBlock height token prev).getD prev
    else row
  | _ => row

namespace Tables

variable {H Data ρ : Type} {o : Oracle H Data} {s : Tables Data} {b : String}
  {P : Option BlockRow → Prop}

theorem foldl_markRow_lookup {hashes : List String} {at_ : Int64} {acc : Blocks × Nat}
    (hstep : b ∈ hashes → ∀ prev, P (some prev) → P (some ((markOrphaned at_ prev).getD prev)))
    (h : P (acc.1.lookup b)) : P ((hashes.foldl (markRow at_) acc).1.lookup b) := by
  induction hashes generalizing acc with
  | nil => exact h
  | cons hash hashes ih =>
    refine ih (fun hm => hstep (mem_cons_of_mem _ hm)) ?_
    unfold markRow
    cases hl : acc.1.lookup hash with
    | none => exact h
    | some prev =>
      simp only
      cases hw : markOrphaned at_ prev with
      | none => exact h
      | some row =>
        simp only [GoMap.lookup_insert_eq]
        split
        · rename_i heq
          have hp := hstep (heq ▸ mem_cons_self ..) prev (hl ▸ heq ▸ h)
          rwa [hw] at hp
        · exact h

theorem exec_lookup {c : Call H Data ρ} (h : P (s.blocks.lookup b))
    (hstep : ∀ row, P row → P (c.rowWrite o b row)) : P ((s.exec o c).2.blocks.lookup b) := by
  have hwrite : ∀ {α : Type} {v : α} {blocks : Blocks}, P (blocks.lookup b) →
      P ((s.write o.fault v { s with blocks }).2.blocks.lookup b) := by
    intro α v blocks hb
    rcases s.write_state o.fault v { s with blocks } with heq | heq <;> rw [heq]
    · exact h
    · exact hb
  have hinsert : ∀ hash row, (b = hash → P (some row)) → P ((s.blocks.insert hash row).lookup b) := by
    intro hash row hr
    rw [GoMap.lookup_insert_eq]
    split
    · exact hr ‹_›
    · exact h
  have hcas : ∀ hash f, (b = hash → P ((s.blocks.lookup b).map fun prev => (f prev).getD prev)) →
      P ((s.casWrite o.fault hash f).2.blocks.lookup b) := by
    intro hash f hf
    unfold casWrite
    cases hb : (s.blocks.lookup hash).bind f with
    | none => exact hwrite h
    | some row =>
      refine hwrite (hinsert hash row ?_)
      rintro rfl
      obtain ⟨prev, hprev, hfp⟩ := Option.bind_eq_some_iff.mp hb
      simpa [hprev, hfp] using hf rfl
  cases c with
  | markBlockProcessed hash height =>
    refine hwrite (hinsert hash _ ?_)
    rintro rfl
    simpa [Call.rowWrite] using hstep _ h
  | markBlockBUMPBuilt hash height =>
    refine hwrite (hinsert hash _ ?_)
    rintro rfl
    simpa [Call.rowWrite] using hstep _ h
  | clearBlockProcessed hash =>
    simp only [exec]
    split
    · rwa [read_state]
    · rename_i row hrow
      refine hwrite (hinsert hash _ ?_)
      rintro rfl
      simpa [Call.rowWrite, hrow] using hstep _ h
  | markBlocksOrphaned hashes =>
    refine foldl_markRow_lookup (fun hm prev hp => ?_) h
    have hm' : b ∈ hashes := by
      cases hf : o.fault with
      | none => simpa [reached, hf] using hm
      | some f => exact mem_of_mem_take (by simpa [reached, hf] using hm)
    simpa [Call.rowWrite, hm'] using hstep _ hp
  | markBlockReconciled hash token | requeueOrphanedBlock hash token
  | reactivateBlock hash height token =>
    refine hcas hash _ ?_
    rintro rfl
    simpa [Call.rowWrite] using hstep _ h
  | _ => rwa [(s.exec_agrees o _).blocks (by simp [Call.effects])]

end Tables

end Arcade.Store
