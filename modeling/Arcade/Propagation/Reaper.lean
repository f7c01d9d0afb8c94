import Arcade.Propagation.Layers
import Arcade.Propagation.Passes

/-!
`reapOnce`: one tick of the reaper. It walks the rows for ones that are stuck and rebroadcasts
them, books a schedule for parked rows that have none, and rebroadcasts the parked rows whose
schedule is due. Both rebroadcasts go out in the layers of `layerByDependency`. The messages of the
parked rows carry the parents of their transactions; those of the stuck rows carry none, so they
are all one layer.
-/

namespace Arcade.Propagation

open Lib List

/-! ## The walk -/

/-- One hour, in nanoseconds. -/
def staleSeenOnNetworkAge : Int := 3600 * 10 ^ 9

@[inherit_doc staleSeenOnNetworkAge]
def staleReceivedAge : Int := 3600 * 10 ^ 9

@[inherit_doc staleSeenOnNetworkAge]
def staleAcceptedByNetworkAge : Int := 3600 * 10 ^ 9

/-- The fields of a row that the walk reads. -/
structure Row where
  txid : String
  status : Status
  rawTx : List UInt8
  timestamp : Int
  nextRetryAt : Option Int := none
  deriving DecidableEq

/-- What the walk collects; `full` once it stopped because the batch is full. -/
structure Walk where
  stuck : List PropagationMsg
  adopt : List PropagationMsg
  full : Bool

section Walking

variable (now : Int)

def Walk.appendStuck (w : Walk) (st : Row) : Walk :=
  { w with stuck := w.stuck ++ [{ txid := st.txid, rawTx := st.rawTx, inputTXIDs := [] }] }

/-- The callback of the walk, while the batch is not full. -/
def Walk.visit (w : Walk) (st : Row) : Walk :=
  if st.rawTx.length = 0 then w
  else match st.status with
    | .seenOnNetwork | .seenMultipleNodes =>
      if ¬ st.timestamp < now - staleSeenOnNetworkAge then w else w.appendStuck st
    | .received => if ¬ st.timestamp < now - staleReceivedAge then w else w.appendStuck st
    | .acceptedByNetwork =>
      if ¬ st.timestamp < now - staleAcceptedByNetworkAge then w else w.appendStuck st
    | .pendingRetry =>
      if st.nextRetryAt = none then
        { w with adopt := w.adopt ++ [{ txid := st.txid, rawTx := st.rawTx, inputTXIDs := [] }] }
      else w
    | _ => w

/-- `IterateStatusesSince` with the callback, which stops the walk at `rebroadcastBatch`. -/
def walk (rebroadcastBatch : Nat) : List Row → Walk → Walk
  | [], w => w
  | st :: rest, w =>
    if rebroadcastBatch ≤ w.stuck.length then { w with full := true }
    else walk rebroadcastBatch rest (w.visit now st)

end Walking

/-! ## Rebroadcast -/

inductive ReaperCall where
  | broadcastInChunks (layer : List PropagationMsg)
  | applyTerminalStatuses (statuses : List TransactionStatus)
  | schedulePendingRetry (txid : String) (rawTx : List UInt8) (lastReason : String)
  deriving DecidableEq

/-- What one `rebroadcastStuck` is told: the result of each registration, and by layer and place the
result of each broadcast and the rejected ancestor the store knows. -/
structure RebroadcastReplies where
  watch : Nat → Option WatchError
  results : Nat → Nat → TxResult
  ancestor : Nat → Nat → Option String

section Rebroadcast

variable (now : Int)

/-- The loop over the results of a layer from place `i` on: the terminal statuses and the messages
without a verdict. -/
def settleResults (results : Nat → TxResult) (ancestor : Nat → Option String) :
    Nat → List PropagationMsg → List TransactionStatus × List PropagationMsg
  | _, [] => ([], [])
  | i, m :: rest =>
    let (terminal, unresolved) := settleResults results ancestor (i + 1) rest
    let errMsg := (results i).errMsg
    match (results i).cls with
    | .accepted => (⟨m.txid, .acceptedByNetwork, now, ""⟩ :: terminal, unresolved)
    | .rejected => (⟨m.txid, .rejected, now, String.ofList errMsg⟩ :: terminal, unresolved)
    | .missingParent =>
      let (cascaded, requeue) := resolveMissingParents (fun _ => ancestor i) now 0 [(m, errMsg)]
      if cascaded.length > 0 then (cascaded ++ terminal, unresolved)
      else (terminal, requeue ++ unresolved)
    | .requeue =>
      (terminal, (if errMsg = [] then m
        else { m with retryReason := String.ofList errMsg }) :: unresolved)

/-- The loop over the layers from number `l` on. -/
def broadcastLayers (replies : RebroadcastReplies) : Nat → List (List PropagationMsg) →
    List ReaperCall × List TransactionStatus × List PropagationMsg
  | _, [] => ([], [], [])
  | l, layer :: rest =>
    let (terminal, unresolved) :=
      settleResults now (replies.results l) (replies.ancestor l) 0 layer
    let (calls, terminal', unresolved') := broadcastLayers replies (l + 1) rest
    (.broadcastInChunks layer :: calls, terminal ++ terminal', unresolved ++ unresolved')

/-- `none` would be a layering that does not end. -/
def rebroadcastStuck (enabled : Bool) (replies : RebroadcastReplies) (msgs : List PropagationMsg)
    (parked : Bool) : Option (List ReaperCall) :=
  let registered := (registerBatch enabled replies.watch msgs).1
  if registered.length = 0 then some []
  else do
    let layers ← layerByDependency registered
    let (calls, terminal, unresolved) := broadcastLayers now replies 0 layers
    return calls ++ .applyTerminalStatuses terminal ::
      if parked then unresolved.map fun m => .schedulePendingRetry m.txid m.rawTx m.retryReason
      else []

end Rebroadcast

/-! ## A tick -/

/-- `parse` is the transaction parser's list of the txids that the inputs of a transaction name. -/
def parentTxIDsOf (parse : List UInt8 → Option (List String)) (msg : PropagationMsg) :
    List String :=
  if msg.inputTXIDs.length > 0 then msg.inputTXIDs else (parse msg.rawTx).getD []

structure PendingRetry where
  txid : String
  rawTx : List UInt8
  lastReason : String

/-- What `GetReadyRetries` returns: rows of a table whose key is the txid. -/
structure ReadyRetries where
  rows : List PendingRetry
  distinct : (rows.map (·.txid)).Nodup

/-- The error of a walk that was not stopped by its callback. -/
inductive ScanError where
  | canceled | failed
  deriving DecidableEq

/-- What a tick is told. `ready` is `none` on an error. -/
structure TickReplies where
  scan : Option ScanError
  stuck : RebroadcastReplies
  ready : Option ReadyRetries
  parked : RebroadcastReplies

structure ReaperConfig where
  enabled : Bool
  rebroadcastBatch : Nat
  parse : List UInt8 → Option (List String)

namespace ReaperConfig

variable (cfg : ReaperConfig)

def parkedMsg (r : PendingRetry) : PropagationMsg :=
  { txid := r.txid
    rawTx := r.rawTx
    inputTXIDs :=
      parentTxIDsOf cfg.parse { txid := r.txid, rawTx := r.rawTx, inputTXIDs := [] }
    retryReason := r.lastReason }

def drainParkedRetries (now : Int) (ready : Option ReadyRetries) (replies : RebroadcastReplies) :
    Option (List ReaperCall) :=
  match ready with
  | none => some []
  | some ready =>
    if ready.rows.length = 0 then some []
    else rebroadcastStuck now cfg.enabled replies (ready.rows.map cfg.parkedMsg) true

/-- The stuck path of a tick. -/
def rebroadcastWalked (now : Int) (replies : RebroadcastReplies) (stuck : List PropagationMsg) :
    Option (List ReaperCall) :=
  if stuck.length > 0 then rebroadcastStuck now cfg.enabled replies stuck false else some []

/-- One tick over the rows that the store hands to the walk. -/
def reapOnce (now : Int) (rows : List Row) (replies : TickReplies) : Option (List ReaperCall) :=
  let w := walk now cfg.rebroadcastBatch rows ⟨[], [], false⟩
  -- A full batch and a canceled context are no failures of the scan.
  if w.full = false ∧ replies.scan = some .failed then some []
  else do
    let stuckCalls ← cfg.rebroadcastWalked now replies.stuck w.stuck
    let parkedCalls ← cfg.drainParkedRetries now replies.ready replies.parked
    return stuckCalls ++
      w.adopt.map (fun m => .schedulePendingRetry m.txid m.rawTx m.retryReason) ++ parkedCalls

end ReaperConfig

/-! ## What the walk selects -/

/-- A row that a tick rebroadcasts when the batch has room for it. -/
def Row.stuck (now : Int) (st : Row) : Bool :=
  st.rawTx.length ≠ 0 && match st.status with
    | .seenOnNetwork | .seenMultipleNodes => decide (st.timestamp < now - staleSeenOnNetworkAge)
    | .received => decide (st.timestamp < now - staleReceivedAge)
    | .acceptedByNetwork => decide (st.timestamp < now - staleAcceptedByNetworkAge)
    | _ => false

def Row.stuckMsg (st : Row) : PropagationMsg :=
  { txid := st.txid, rawTx := st.rawTx, inputTXIDs := [] }

theorem Walk.stuck_visit (now : Int) (w : Walk) (st : Row) :
    (w.visit now st).stuck = if st.stuck now then w.stuck ++ [st.stuckMsg] else w.stuck := by
  -- Either side is decided by the same comparison.
  have hage : ∀ (age : Int) (x y : List PropagationMsg),
      (if ¬ st.timestamp < now - age then x else y) =
        if decide (st.timestamp < now - age) = true then y else x := by
    intro age x y
    by_cases ht : st.timestamp < now - age <;> simp [ht]
  by_cases hraw : st.rawTx.length = 0
  · simp [visit, Row.stuck, hraw]
  · rw [visit, if_neg hraw]
    have hraw' : decide (st.rawTx.length ≠ 0) = true := decide_eq_true hraw
    cases hs : st.status with
    | pendingRetry =>
      simp only [Row.stuck, hs, Bool.and_false]
      split <;> rfl
    | seenOnNetwork | seenMultipleNodes | received | acceptedByNetwork =>
      simp only [Row.stuck, hs, hraw', Bool.true_and, apply_ite Walk.stuck, hage]
      rfl
    | _ => simp [Row.stuck, hs]

theorem stuck_walk (now : Int) (rebroadcastBatch : Nat) (rows : List Row) (w : Walk) :
    (walk now rebroadcastBatch rows w).stuck = w.stuck ++
      ((rows.filter (Row.stuck now)).take (rebroadcastBatch - w.stuck.length)).map
        Row.stuckMsg := by
  induction rows generalizing w with
  | nil => simp [walk]
  | cons st rest ih =>
    rw [walk]
    split
    · have hzero : rebroadcastBatch - w.stuck.length = 0 := by omega
      simp [hzero]
    · rw [ih, Walk.stuck_visit, filter_cons]
      split
      · have hsucc : rebroadcastBatch - w.stuck.length =
            (rebroadcastBatch - (w.stuck.length + 1)) + 1 := by omega
        simp [hsucc]
      · rfl

/-! ## What reaches the wire -/

/-- No transaction of a call spends an output of another one of it. -/
def Apart (parse : List UInt8 → Option (List String)) (layer : List PropagationMsg) : Prop :=
  ∀ a ∈ layer, ∀ b ∈ layer, a.txid ≠ b.txid → a.txid ∉ (parse b.rawTx).getD []

/-- What registration keeps of a message. -/
def wire (m : PropagationMsg) : String × List UInt8 × List String :=
  (m.txid, m.rawTx, m.inputTXIDs)

theorem wire_registerLoop (watch : Nat → Option WatchError) (i : Nat)
    (batch : List PropagationMsg) :
    ((registerLoop watch i batch).1.map wire).Sublist (batch.map wire) := by
  induction batch generalizing i with
  | nil => exact .refl _
  | cons msg rest ih =>
    rw [registerLoop]
    cases watch i with
    | none => exact (ih (i + 1)).cons_cons _
    | some err => exact (ih (i + 1)).cons _

theorem wire_registerBatch (enabled : Bool) (watch : Nat → Option WatchError)
    (batch : List PropagationMsg) :
    ((registerBatch enabled watch batch).1.map wire).Sublist (batch.map wire) := by
  unfold registerBatch
  split
  · exact wire_registerLoop watch 0 batch
  · exact .refl _

theorem exists_wire_of_mem_registerBatch {enabled : Bool} {watch : Nat → Option WatchError}
    {batch : List PropagationMsg} {m : PropagationMsg}
    (h : m ∈ (registerBatch enabled watch batch).1) : ∃ m' ∈ batch, wire m' = wire m := by
  have hmem := (wire_registerBatch enabled watch batch).subset (mem_map_of_mem h)
  simpa using hmem

theorem wire_registerBatch_all (enabled : Bool) (batch : List PropagationMsg) :
    (registerBatch enabled (fun _ => none) batch).1.map wire = batch.map wire := by
  have hloop : ∀ i, (registerLoop (fun _ => none) i batch).1.map wire = batch.map wire := by
    induction batch with
    | nil => exact fun _ => rfl
    | cons msg rest ih =>
      intro i
      rw [registerLoop, map_cons, map_cons, ih (i + 1)]
      rfl
  unfold registerBatch
  split
  · exact hloop 0
  · rfl

section Calls

variable {now : Int} {enabled : Bool} {replies : RebroadcastReplies}

theorem mem_broadcastLayers {layer : List PropagationMsg} (l : Nat)
    (layers : List (List PropagationMsg)) :
    .broadcastInChunks layer ∈ (broadcastLayers now replies l layers).1 ↔ layer ∈ layers := by
  induction layers generalizing l with
  | nil => simp [broadcastLayers]
  | cons first rest ih => simp [broadcastLayers, ih]

theorem exists_rebroadcastStuck (now : Int) (enabled : Bool) (replies : RebroadcastReplies)
    (msgs : List PropagationMsg) (parked : Bool) :
    ∃ calls, rebroadcastStuck now enabled replies msgs parked = some calls ∧
      ∀ layer, .broadcastInChunks layer ∈ calls →
        ∃ layers, Layered (registerBatch enabled replies.watch msgs).1 layers ∧ layer ∈ layers := by
  by_cases hlen : (registerBatch enabled replies.watch msgs).1.length = 0
  · exact ⟨[], by simp only [rebroadcastStuck, hlen, if_true], by simp⟩
  · obtain ⟨layers, hlayers, hlayered⟩ :=
      exists_layered (registerBatch enabled replies.watch msgs).1
    simp only [rebroadcastStuck, hlen, if_false, hlayers]
    refine ⟨_, rfl, ?_⟩
    intro layer hlayer
    refine ⟨layers, hlayered, ?_⟩
    have hcalls : .broadcastInChunks layer ∈ (broadcastLayers now replies 0 layers).1 := by
      cases parked <;> simpa using hlayer
    exact (mem_broadcastLayers 0 layers).mp hcalls

theorem rebroadcastStuck_flat {msgs : List PropagationMsg} (hne : msgs ≠ [])
    (hflat : ∀ m ∈ msgs, m.inputTXIDs = []) (hwatch : replies.watch = fun _ => none)
    (parked : Bool) {calls : List ReaperCall}
    (h : rebroadcastStuck now enabled replies msgs parked = some calls) :
    .broadcastInChunks (registerBatch enabled (fun _ => none) msgs).1 ∈ calls := by
  have hwire := wire_registerBatch_all enabled msgs
  have hlen : (registerBatch enabled (fun _ => none) msgs).1.length ≠ 0 := by
    have := congrArg List.length hwire
    simp only [length_map] at this
    rw [this]
    exact fun h0 => hne (length_eq_zero_iff.mp h0)
  have hlayers : layerByDependency (registerBatch enabled (fun _ => none) msgs).1 =
      some [(registerBatch enabled (fun _ => none) msgs).1] := by
    refine layerByDependency_flat ?_
    intro m hm
    obtain ⟨m', hm', heq⟩ := exists_wire_of_mem_registerBatch hm
    have hinputs : m'.inputTXIDs = m.inputTXIDs := congrArg (fun w => w.2.2) heq
    exact hinputs ▸ hflat m' hm'
  simp only [rebroadcastStuck, hwatch, hlen, if_false, hlayers] at h
  obtain rfl := Option.some.inj h
  simp [broadcastLayers]

end Calls

namespace ReaperConfig

variable (cfg : ReaperConfig) (now : Int) (rows : List Row)

/-- The rows that a tick rebroadcasts from the walk. -/
def stuckRows : List Row := (rows.filter (Row.stuck now)).take cfg.rebroadcastBatch

/-- No row that the walk selects spends an output of another one. -/
def StuckApart : Prop :=
  ∀ a ∈ cfg.stuckRows now rows, ∀ b ∈ cfg.stuckRows now rows,
    a.txid ≠ b.txid → a.txid ∉ (cfg.parse b.rawTx).getD []

theorem stuck_walk_start : (walk now cfg.rebroadcastBatch rows ⟨[], [], false⟩).stuck =
    (cfg.stuckRows now rows).map Row.stuckMsg := by
  simp [stuck_walk, stuckRows]

/-- The parked path: the messages carry their parents, so the layers keep them apart. -/
theorem apart_parked (ready : ReadyRetries) (replies : RebroadcastReplies)
    {layers : List (List PropagationMsg)} (hlayered : Layered
      (registerBatch cfg.enabled replies.watch (ready.rows.map cfg.parkedMsg)).1 layers)
    {layer : List PropagationMsg} (hlayer : layer ∈ layers) : Apart cfg.parse layer := by
  have hnodup : ((registerBatch cfg.enabled replies.watch (ready.rows.map cfg.parkedMsg)).1.map
      (·.txid)).Nodup := by
    have hsub := (wire_registerBatch cfg.enabled replies.watch
      (ready.rows.map cfg.parkedMsg)).map Prod.fst
    rw [map_map, map_map, map_map] at hsub
    exact ready.distinct.sublist hsub
  intro a ha b hb hne
  have hapart := hlayered.apart hnodup layer hlayer a ha b hb hne
  obtain ⟨m, hm, heq⟩ := exists_wire_of_mem_registerBatch
    ((hlayered.inOrder layer hlayer).subset hb)
  obtain ⟨r, -, rfl⟩ := mem_map.mp hm
  have hraw : r.rawTx = b.rawTx := congrArg (fun w => w.2.1) heq
  have hinputs : (cfg.parse r.rawTx).getD [] = b.inputTXIDs := congrArg (fun w => w.2.2) heq
  rwa [← hraw, hinputs]

/-- The stuck path: the messages carry no parents, so they are as far apart as their rows. -/
theorem apart_stuck (hrows : cfg.StuckApart now rows) (replies : RebroadcastReplies)
    {layers : List (List PropagationMsg)} (hlayered : Layered (registerBatch cfg.enabled
      replies.watch ((cfg.stuckRows now rows).map Row.stuckMsg)).1 layers)
    {layer : List PropagationMsg} (hlayer : layer ∈ layers) : Apart cfg.parse layer := by
  have hrow : ∀ m ∈ layer, ∃ st ∈ cfg.stuckRows now rows, st.txid = m.txid ∧ st.rawTx = m.rawTx := by
    intro m hm
    obtain ⟨m', hm', heq⟩ := exists_wire_of_mem_registerBatch
      ((hlayered.inOrder layer hlayer).subset hm)
    obtain ⟨st, hst, rfl⟩ := mem_map.mp hm'
    exact ⟨st, hst, congrArg Prod.fst heq, congrArg (fun w => w.2.1) heq⟩
  intro a ha b hb hne
  obtain ⟨ra, hra, hatxid, -⟩ := hrow a ha
  obtain ⟨rb, hrb, hbtxid, hbraw⟩ := hrow b hb
  have hapart := hrows ra hra rb hrb (by rwa [hatxid, hbtxid])
  rwa [hatxid, hbraw] at hapart

theorem exists_drainParkedRetries (ready : Option ReadyRetries) (replies : RebroadcastReplies) :
    ∃ calls, cfg.drainParkedRetries now ready replies = some calls ∧
      ∀ layer, .broadcastInChunks layer ∈ calls → Apart cfg.parse layer := by
  cases ready with
  | none => exact ⟨[], rfl, by simp⟩
  | some ready =>
    by_cases hlen : ready.rows.length = 0
    · exact ⟨[], by simp only [drainParkedRetries, hlen, if_true], by simp⟩
    · obtain ⟨calls, hcalls, hlayers⟩ := exists_rebroadcastStuck now cfg.enabled replies
        (ready.rows.map cfg.parkedMsg) true
      refine ⟨calls, by simp only [drainParkedRetries, hlen, if_false, hcalls], ?_⟩
      intro layer hlayer
      obtain ⟨layers, hlayered, hmem⟩ := hlayers layer hlayer
      exact cfg.apart_parked ready replies hlayered hmem

theorem exists_rebroadcastWalked (hrows : cfg.StuckApart now rows) (replies : RebroadcastReplies) :
    ∃ calls, cfg.rebroadcastWalked now replies ((cfg.stuckRows now rows).map Row.stuckMsg) =
        some calls ∧
      ∀ layer, .broadcastInChunks layer ∈ calls → Apart cfg.parse layer := by
  unfold rebroadcastWalked
  split
  · obtain ⟨calls, hcalls, hlayers⟩ := exists_rebroadcastStuck now cfg.enabled replies
      ((cfg.stuckRows now rows).map Row.stuckMsg) false
    refine ⟨calls, hcalls, ?_⟩
    intro layer hlayer
    obtain ⟨layers, hlayered, hmem⟩ := hlayers layer hlayer
    exact cfg.apart_stuck now rows hrows replies hlayered hmem
  · exact ⟨[], rfl, by simp⟩

/-- Every registration succeeds, the scan does, and nothing is parked. -/
def calmReplies : TickReplies :=
  let calm : RebroadcastReplies :=
    ⟨fun _ => none, fun _ _ => ⟨.accepted, [], 0, []⟩, fun _ _ => none⟩
  ⟨none, calm, none, calm⟩

theorem reapOnce_calm (hne : cfg.stuckRows now rows ≠ []) {calls : List ReaperCall}
    (h : cfg.reapOnce now rows calmReplies = some calls) :
    .broadcastInChunks (registerBatch cfg.enabled (fun _ => none)
      ((cfg.stuckRows now rows).map Row.stuckMsg)).1 ∈ calls := by
  have hpos : ((cfg.stuckRows now rows).map Row.stuckMsg).length > 0 := by
    simpa using length_pos_iff.mpr hne
  obtain ⟨stuckCalls, hstuck, -⟩ := exists_rebroadcastStuck now cfg.enabled calmReplies.stuck
    ((cfg.stuckRows now rows).map Row.stuckMsg) false
  have hmem := rebroadcastStuck_flat (by simpa using hne)
    (by simp [Row.stuckMsg]) rfl false hstuck
  simp only [reapOnce, stuck_walk_start, rebroadcastWalked, hpos, if_true, hstuck] at h
  simp only [calmReplies, reduceCtorEq, and_false, if_false, drainParkedRetries] at h
  obtain rfl := Option.some.inj h
  simp [hmem]

/-- No call of a tick has a parent and its child, under all replies, exactly if no two rows that the
walk selects are parent and child; the layering always ends, and its layers are in order. -/
theorem never_cobatched_iff : ((∀ replies, ∃ calls, cfg.reapOnce now rows replies = some calls ∧
        ∀ layer, .broadcastInChunks layer ∈ calls → Apart cfg.parse layer) ↔
      cfg.StuckApart now rows) ∧
    ∀ msgs, ∃ layers, layerByDependency msgs = some layers ∧ Layered msgs layers := by
  refine ⟨⟨?_, ?_⟩, exists_layered⟩
  · intro h a ha b hb hne
    obtain ⟨calls, hcalls, hapart⟩ := h calmReplies
    have hcall := cfg.reapOnce_calm now rows (ne_nil_of_mem ha) hcalls
    have hwire := wire_registerBatch_all cfg.enabled ((cfg.stuckRows now rows).map Row.stuckMsg)
    have hsent : ∀ st ∈ cfg.stuckRows now rows, ∃ m ∈ (registerBatch cfg.enabled (fun _ => none)
        ((cfg.stuckRows now rows).map Row.stuckMsg)).1, m.txid = st.txid ∧ m.rawTx = st.rawTx := by
      intro st hst
      have hmem : wire st.stuckMsg ∈ ((cfg.stuckRows now rows).map Row.stuckMsg).map wire :=
        mem_map_of_mem (mem_map_of_mem hst)
      rw [← hwire] at hmem
      obtain ⟨m, hm, heq⟩ := mem_map.mp hmem
      exact ⟨m, hm, congrArg Prod.fst heq, congrArg (fun w => w.2.1) heq⟩
    obtain ⟨ma, hma, hatxid, -⟩ := hsent a ha
    obtain ⟨mb, hmb, hbtxid, hbraw⟩ := hsent b hb
    have hno := hapart _ hcall ma hma mb hmb (by rwa [hatxid, hbtxid])
    rwa [hatxid, hbraw] at hno
  · intro hrows replies
    obtain ⟨stuckCalls, hstuck, hstuckApart⟩ :=
      cfg.exists_rebroadcastWalked now rows hrows replies.stuck
    obtain ⟨parkedCalls, hparked, hparkedApart⟩ :=
      cfg.exists_drainParkedRetries now replies.ready replies.parked
    simp only [reapOnce, stuck_walk_start]
    split
    · exact ⟨[], rfl, by simp⟩
    · rw [hstuck, hparked]
      refine ⟨_, rfl, ?_⟩
      intro layer hlayer
      rcases mem_append.mp hlayer with hlayer | hlayer
      · rcases mem_append.mp hlayer with hlayer | hlayer
        · exact hstuckApart layer hlayer
        · simp at hlayer
      · exact hparkedApart layer hlayer

/-- Two rows that stayed at RECEIVED for two hours, a transaction and one that spends it, go out in
one call. -/
theorem chain_cobatched : let cfg : ReaperConfig :=
      { enabled := true, rebroadcastBatch := 200,
        parse := fun rawTx => if rawTx = [2] then some ["parent"] else some [] }
    let rows : List Row := [⟨"parent", .received, [1], 0, none⟩, ⟨"child", .received, [2], 0, none⟩]
    ∃ calls layer, cfg.reapOnce (7200 * 10 ^ 9) rows calmReplies = some calls ∧
      .broadcastInChunks layer ∈ calls ∧ ¬ Apart cfg.parse layer := by
  intro cfg rows
  refine ⟨_, [⟨"parent", [1], [], 0, 0, "", ""⟩, ⟨"child", [2], [], 0, 0, "", ""⟩], rfl, ?_, ?_⟩
  · decide
  · intro hapart
    exact absurd (hapart _ (.head _) _ (.tail _ (.head _)) (by decide)) (by decide)

end ReaperConfig

end Arcade.Propagation
