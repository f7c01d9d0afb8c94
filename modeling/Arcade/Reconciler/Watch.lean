import Arcade.Builder.Reported
import Arcade.Reconciler.Repair
import Arcade.Store.Orphans

/-!
The tables as the reconciler works on them, with the other edges that write
block_processing rows in between and a log of what happened. No code reads the log.

Marking from a stored BUMP is specified here once: when it ends without an error,
every transaction of the BUMP was written and is MINED in the block, whatever the other edges
did to the rows of the blocks.
-/

namespace Arcade.Reconciler

open Lib List
open Bump (Sdk)
open Store (Program Call Tables Oracle Effect BlockRow Blocks MinedAt)
open Builder (MinesOnly Within setMinedAndPublish publishAll leavesIn leavesOf)
open Prog (send)

variable {H Data ρ : Type}

/-! ## The log -/

/-- What a step did, as far as a pass is judged by it. -/
inductive Deed (Data : Type) where
  /-- `GetBUMP` answered. -/
  | read (hash : String) (bump : Option (Nat × Data))
  /-- `GetBUMP` failed. -/
  | unread (hash : String)
  /-- `SetMinedByTxIDs` wrote these rows. -/
  | mined (hash : String) (txids : List String)
  /-- `MarkBlockReconciled` wrote the row. -/
  | stamped (hash : String)
  /-- `ReactivateBlock` wrote the row. -/
  | reactivated (hash : String)
  | other

structure Entry (Data : Type) where
  /-- The rows of the blocks after the step. -/
  blocks : Blocks
  deed : Deed Data

structure World (Data : Type) where
  store : Tables Data
  /-- The latest entry first. -/
  log : List (Entry Data)

/-- A write of a row by the block-status tracker, a detector of orphans or the watchdog. -/
inductive Edge where
  | reactivate (hash : String) (height : Nat) (token : Option Int64)
  | headerSeen (hash : String) (height : Nat) (seenAt : Int64)
  | orphan (hashes : List String) (orphanedAt : Int64)
  | park (hash : String)

def Edge.write (blocks : Blocks) : Edge → Blocks
  | .reactivate hash height token =>
    Store.writeRow blocks hash ((blocks.lookup hash).bind (Store.reactivateBlock height token))
  | .headerSeen hash height seenAt =>
    blocks.insert hash (Store.upsertBlockHeaderSeen height seenAt (blocks.lookup hash))
  | .orphan hashes orphanedAt => (Store.markBlocksOrphaned hashes orphanedAt blocks).1
  | .park hash => Store.writeRow blocks hash ((blocks.lookup hash).map Store.markBlockParked)

namespace World

def edge (w : World Data) (e : Edge) : World Data :=
  let blocks := e.write w.store.blocks
  ⟨{ w.store with blocks }, ⟨blocks, .other⟩ :: w.log⟩

def after (w : World Data) (edges : List Edge) : World Data := edges.foldl edge w

/-- A generation-checked write was done. -/
def casLanded (s : Tables Data) (o : Oracle H Data) (hash : String)
    (f : BlockRow → Option BlockRow) : Bool :=
  ((s.blocks.lookup hash).bind f).isSome && o.fault.all fun f => f.landed ≠ 0

def deed (s : Tables Data) (o : Oracle H Data) : Call H Data ρ → Deed Data
  | .getBUMP hash => if o.fault.isSome then .unread hash else .read hash (s.bumps.lookup hash)
  | .setMinedByTxIDs hash height txids =>
    .mined hash
      ((Store.setMinedByTxIDs hash height (Tables.reached o.fault txids) s.txs).2.map (·.1))
  | .markBlockReconciled hash token =>
    if casLanded s o hash (Store.markBlockReconciled token o.now) then .stamped hash else .other
  | .reactivateBlock hash height token =>
    if casLanded s o hash (Store.reactivateBlock height token) then .reactivated hash else .other
  | _ => .other

def exec (w : World Data) (o : Oracle H Data) (c : Call H Data ρ) : ρ × World Data :=
  ((w.store.exec o c).1,
    ⟨(w.store.exec o c).2, ⟨(w.store.exec o c).2.blocks, deed w.store o c⟩ :: w.log⟩)

end World

/-- The environment of a pass. Other edges act before a call; `ok` says what is open. -/
def passEnv (ok : {ρ : Type} → World Data → Call H Data ρ → List Edge × Oracle H Data → Prop) :
    Env (Call H Data) (List Edge × Oracle H Data) (World Data) where
  exec o c w := (w.after o.1).exec o.2 c
  ok w c o := ok w c o

/-! ## What the edges leave alone -/

section Edges

variable {w : World Data}

theorem after_cons (e : Edge) (edges : List Edge) :
    w.after (e :: edges) = (w.edge e).after edges := rfl

variable (edges : List Edge)

theorem after_store : ∃ blocks, (w.after edges).store = { w.store with blocks } := by
  induction edges generalizing w with
  | nil => exact ⟨w.store.blocks, rfl⟩
  | cons e edges ih =>
    obtain ⟨blocks, hb⟩ := ih (w := w.edge e)
    exact ⟨blocks, hb⟩

@[simp] theorem after_txs : (w.after edges).store.txs = w.store.txs := by
  obtain ⟨blocks, hb⟩ := after_store (w := w) edges
  rw [hb]

@[simp] theorem after_bumps : (w.after edges).store.bumps = w.store.bumps := by
  obtain ⟨blocks, hb⟩ := after_store (w := w) edges
  rw [hb]

theorem log_after : ∃ entries, (w.after edges).log = entries ++ w.log := by
  induction edges generalizing w with
  | nil => exact ⟨[], rfl⟩
  | cons e edges ih =>
    obtain ⟨entries, he⟩ := ih (w := w.edge e)
    exact ⟨entries ++ [⟨e.write w.store.blocks, .other⟩], by rw [after_cons, he]; simp [World.edge]⟩

end Edges

/-! ## Marking -/

/-- The txids whose rows the log shows as written MINED in the block. -/
def writtenIn (b : String) (log : List (Entry Data)) : List String :=
  log.flatMap fun e => match e.deed with
    | .mined hash txids => if hash = b then txids else []
    | _ => []

/-- Unless the row of the txid is missing or IMMUTABLE, it was written MINED in the block and
is so still. -/
structure Marked (b txid : String) (w : World Data) : Prop where
  mined : MinedAt b w.store.txs txid
  written : ∀ row, w.store.txs.lookup txid = some row → row.status ≠ .immutable →
    txid ∈ writtenIn b w.log

section Marked

variable {b txid : String} {w : World Data} {o : Oracle H Data} {c : Call H Data ρ}

theorem writtenIn_append (entries log : List (Entry Data)) :
    writtenIn b (entries ++ log) = writtenIn b entries ++ writtenIn b log := flatMap_append

theorem Marked.after (h : Marked b txid w) (edges : List Edge) : Marked b txid (w.after edges) := by
  obtain ⟨entries, he⟩ := log_after (w := w) edges
  refine ⟨by rw [after_txs]; exact h.mined, fun row hrow hne => ?_⟩
  rw [after_txs] at hrow
  rw [he, writtenIn_append]
  exact mem_append_right _ (h.written row hrow hne)

theorem Marked.exec (h : Marked b txid w) (hc : MinesOnly b c) : Marked b txid (w.exec o c).2 := by
  refine ⟨Builder.minedAt_exec hc h.mined, fun row hrow hne => ?_⟩
  obtain ⟨prev, hprev, hne'⟩ := Builder.open_of_minesOnly hc ⟨row, hrow, hne⟩
  exact mem_append_right _ (h.written prev hprev hne')

theorem marked_setMinedByTxIDs {height : Nat} {txids : List String} (ht : txid ∈ txids)
    (hf : o.fault = none) : Marked b txid (w.exec o (.setMinedByTxIDs b height txids)).2 := by
  have hreach : Tables.reached o.fault txids = txids := by simp [Tables.reached, hf]
  constructor
  · change MinedAt b (Store.setMinedByTxIDs b height (Tables.reached o.fault txids) w.store.txs).1 txid
    rw [hreach]
    exact Store.minedAt_setMinedByTxIDs ht
  · intro row hrow hne
    have hc : MinesOnly b (Call.setMinedByTxIDs b height txids : Call H Data _) := rfl
    obtain ⟨prev, hprev, hne'⟩ := Builder.open_of_minesOnly hc ⟨row, hrow, hne⟩
    refine mem_append_left _ ?_
    change txid ∈ if b = b then
      (Store.setMinedByTxIDs b height (Tables.reached o.fault txids) w.store.txs).2.map (·.1) else []
    rw [if_pos rfl, hreach]
    exact Store.mem_setMinedByTxIDs.mpr ⟨ht, prev, hprev, hne'⟩

end Marked

/-! ## Attempts -/

/-- The step tried to read the BUMP of the block or to mark from it. -/
def Deed.attempts (b : String) : Deed Data → Bool
  | .read hash _ | .unread hash | .mined hash _ => hash = b
  | _ => false

def Deed.isUnread : Deed Data → Bool
  | .unread _ => true
  | _ => false

/-- The entries from the last attempt on, the latest first. -/
def sinceAttempt (b : String) : List (Entry Data) → List (Entry Data)
  | [] => []
  | e :: log => if e.deed.attempts b then [e] else e :: sinceAttempt b log

/-- The last attempt was a read that failed. -/
def LastUnread (b : String) (log : List (Entry Data)) : Prop :=
  ∃ e ∈ sinceAttempt b log, e.deed.attempts b = true ∧ e.deed.isUnread = true

/-- The call neither reads the BUMP of the block nor marks from it. -/
def Passive (b : String) : Call H Data ρ → Prop
  | .getBUMP hash | .setMinedByTxIDs hash _ _ => hash ≠ b
  | _ => True

section Attempts

variable {b : String} {w : World Data} {o : Oracle H Data} {c : Call H Data ρ}
  {log : List (Entry Data)} {e : Entry Data}

theorem sinceAttempt_cons (h : e.deed.attempts b = false) :
    sinceAttempt b (e :: log) = e :: sinceAttempt b log := by
  rw [sinceAttempt, if_neg (by simp [h])]

theorem lastUnread_cons (h : e.deed.attempts b = false) :
    LastUnread b (e :: log) ↔ LastUnread b log := by
  simp [LastUnread, sinceAttempt_cons h, h]

theorem lastUnread_attempt (h : e.deed.attempts b = true) :
    LastUnread b (e :: log) ↔ e.deed.isUnread = true := by
  simp [LastUnread, sinceAttempt, h]

theorem attempts_deed (hc : Passive b c) (s : Tables Data) :
    (World.deed s o c).attempts b = false := by
  cases c with
  | getBUMP hash =>
    have hne : hash ≠ b := hc
    simp only [World.deed]
    split <;> simp [Deed.attempts, hne]
  | setMinedByTxIDs hash height txids =>
    have hne : hash ≠ b := hc
    simp [World.deed, Deed.attempts, hne]
  | markBlockReconciled | reactivateBlock =>
    simp only [World.deed]
    split <;> rfl
  | _ => rfl

theorem lastUnread_after (edges : List Edge) :
    LastUnread b (w.after edges).log ↔ LastUnread b w.log := by
  induction edges generalizing w with
  | nil => exact Iff.rfl
  | cons e edges ih => exact ih.trans (lastUnread_cons rfl)

theorem lastUnread_exec (hc : Passive b c) : LastUnread b (w.exec o c).2.log ↔ LastUnread b w.log :=
  lastUnread_cons (attempts_deed hc w.store)

end Attempts

/-! ## Marking from a stored BUMP -/

section Specs

variable {ok : {ρ : Type} → World Data → Call H Data ρ → List Edge × Oracle H Data → Prop}
  {R : World Data → World Data → Prop} {b txid : String} {w : World Data} {α : Type}

theorem always_exec {Q : α → World Data → Prop} {c : Call H Data α}
    (h : ∀ edges o, ok w c (edges, o) → R w ((w.after edges).exec o c).2 ∧
      Q ((w.after edges).exec o c).1 ((w.after edges).exec o c).2) :
    Always (passEnv ok) R Q (send c) w := fun o ho => h o.1 o.2 ho

theorem always_mem_log {e : Entry Data} (he : e ∈ w.log) (p : Program H Data α) :
    Yields (passEnv ok) (fun _ w' => e ∈ w'.log) p w := by
  refine Always.of_makes_along (fun _ c o w' _ hw _ => ⟨trivial, ?_⟩) Prog.makes_any he
  obtain ⟨entries, hlog⟩ := log_after (w := w') o.1
  refine mem_cons_of_mem _ ?_
  rw [hlog]
  exact mem_append_right _ hw

theorem always_txs {p : Program H Data α} (hp : p.Makes fun _ c => Effect.txs ∉ c.effects) :
    Yields (passEnv ok) (fun _ w' => w'.store.txs = w.store.txs) p w := by
  refine Always.of_makes_along (fun _ c o w' hc hw _ => ⟨trivial, ?_⟩) hp rfl
  exact (((w'.after o.1).store.exec_agrees o.2 c).txs hc).trans ((after_txs _).trans hw)

theorem always_setMinedAndPublish {height : Nat} {txids : List String} {extraInfo : String}
    {onlyChanged : Bool} :
    Yields (passEnv ok)
      (fun done w' => (done.err = none → ∀ txid ∈ txids, Marked b txid w') ∧ ¬LastUnread b w'.log)
      (setMinedAndPublish b height txids extraInfo onlyChanged) w := by
  refine (always_bind w).mpr (always_exec fun edges o _ => ⟨trivial, ?_⟩)
  have herr : ((w.after edges).exec o (.setMinedByTxIDs b height txids)).1.err =
      o.fault.map Store.Fault.text := rfl
  have hmarked : (o.fault = none → ∀ txid ∈ txids,
      Marked b txid ((w.after edges).exec o (.setMinedByTxIDs b height txids)).2) ∧
      ¬LastUnread b ((w.after edges).exec o (.setMinedByTxIDs b height txids)).2.log := by
    refine ⟨fun hf txid ht => marked_setMinedByTxIDs ht hf, ?_⟩
    intro h
    exact absurd ((lastUnread_attempt (by simp [World.deed, Deed.attempts])).mp h) nofun
  split
  · rename_i hc
    refine ⟨fun hnone => ?_, hmarked.2⟩
    obtain ⟨err, he⟩ := Option.isSome_iff_exists.mp hc.1
    exact absurd (he.symm.trans hnone) nofun
  · refine (Always.of_makes_along (I := fun w' => (o.fault = none → ∀ txid ∈ txids,
      Marked b txid w') ∧ ¬LastUnread b w'.log) (R := fun _ _ => True)
      (S := fun _ c => MinesOnly b c ∧ Passive b c) ?_
      (Builder.makes_publishAll_of (fun _ => ⟨trivial, trivial⟩) _) hmarked).bind ?_
    · intro ρ c o' w' hc hw' _
      exact ⟨trivial, fun hf txid ht => ((hw'.1 hf txid ht).after _).exec hc.1,
        fun h => hw'.2 ((lastUnread_after _).mp ((lastUnread_exec hc.2).mp h))⟩
    · intro failed w' hw'
      refine ⟨fun hnone => hw'.1 ?_, hw'.2⟩
      rwa [herr, Option.map_eq_none_iff] at hnone

theorem makes_remineBatches (height : Nat) (batches : List (List String)) (changed : Nat) :
    (remineBatches b height batches changed : Program H Data _).Makes
      (Within b [.txs, .published]) := by
  induction batches generalizing changed with
  | nil => simp [remineBatches]
  | cons batch rest ih =>
    refine .bind (Builder.makes_setMinedAndPublish _ _ _ _) fun done => ?_
    cases done.err with
    | some err => simp
    | none => exact ih _

theorem always_remineBatches (height : Nat) (batches : List (List String)) (changed : Nat) :
    Yields (passEnv ok)
      (fun r w' => (r.2 = none → ∀ batch ∈ batches, ∀ txid ∈ batch, Marked b txid w') ∧
        (r.2 ≠ none → ¬LastUnread b w'.log))
      (remineBatches b height batches changed) w := by
  induction batches generalizing w changed with
  | nil => exact ⟨fun _ => nofun, fun h => absurd rfl h⟩
  | cons batch rest ih =>
    refine always_setMinedAndPublish.bind fun done w₁ hdone => ?_
    cases he : done.err with
    | some err => exact ⟨nofun, fun _ => hdone.2⟩
    | none =>
      -- the batches to come keep this one marked
      have hkeep : Yields (passEnv ok) (fun _ w' => ∀ txid ∈ batch, Marked b txid w')
          (remineBatches b height rest (changed + done.count)) w₁ :=
        Always.of_makes_along (fun _ _ _ _ hc hw _ =>
          ⟨trivial, fun txid ht => ((hw txid ht).after _).exec hc.2⟩)
          (makes_remineBatches height rest _) (hdone.1 he)
      refine (hkeep.also (ih _)).imp fun r w' h => ?_
      refine ⟨fun hnone batch' hb => ?_, h.2.2⟩
      rcases mem_cons.mp hb with rfl | hb
      · exact h.1
      · exact h.2.1 hnone batch' hb

end Specs

def Readable (sdk : Sdk H Data) (bumpData : Data) : Prop :=
  sdk.isEmpty bumpData = false ∧ ∃ txids, Builder.levelZeroTxidsFromBUMP sdk bumpData = .ok txids

/-- What became of the marking from a stored BUMP. -/
structure Ended (sdk : Sdk H Data) (b : String) (bumps : GoMap String (Nat × Data))
    (done : Remined) (w : World Data) : Prop where
  bumps_eq : w.store.bumps = bumps
  marked : done.err ≠ some .failed → ∀ txid ∈ leavesOf sdk b w.store, Marked b txid w
  read : done.ok = true → ∃ bump, bumps.lookup b = some bump ∧ Readable sdk bump.2 ∧
    ∃ e ∈ w.log, e.deed = .read b (some bump)
  malformed : done.err = some .malformed → ∃ bump, bumps.lookup b = some bump ∧ ¬Readable sdk bump.2
  failed : done.err = some .failed → (LastUnread b w.log ↔ done.ok = false)

/-! ## Handing a repair on -/

/-- The calls that hand a block to a path on which it is retried, and the reactivation. -/
def HandsOff : Call H Data ρ → Prop
  | .requeueOrphanedBlock _ _ | .getBlockProcessingStatus _ | .markBlocksOrphaned _
  | .reprocess _ | .reactivateBlock _ _ _ => True
  | _ => False

/-- The calls of a hand-off of one block are in `S`. -/
structure HandOffIn (orphan : String) (S : (ρ : Type) → Call H Data ρ → Prop) : Prop where
  requeue : ∀ token, S _ (.requeueOrphanedBlock orphan token)
  status : S _ (.getBlockProcessingStatus orphan)
  orphaned : S _ (.markBlocksOrphaned [orphan])
  reprocess : ∀ hash, S _ (.reprocess hash)

theorem handOffIn_handsOff (orphan : String) :
    HandOffIn orphan fun (ρ : Type) (c : Call H Data ρ) => HandsOff c :=
  ⟨fun _ => trivial, trivial, trivial, fun _ => trivial⟩

section HandOff

variable {cfg : Config} {mem : Memory} {orphan : String} {height : Nat} {token : Option Int64}
  {S : (ρ : Type) → Call H Data ρ → Prop}

theorem makes_requestRebuild (hS : ∀ hash, S _ (.reprocess hash)) (hash : String) :
    (requestRebuild cfg hash : Program H Data Unit).Makes S := by
  unfold requestRebuild
  split
  · exact .call (hS hash) fun _ => by simp
  · simp

theorem makes_deferForCanonicalBUMP (hS : ∀ hash, S _ (.reprocess hash)) (canonicalHash : String) :
    (deferForCanonicalBUMP cfg mem orphan canonicalHash : Program H Data _).Makes S := by
  unfold deferForCanonicalBUMP
  split
  · simp
  · exact .bind (makes_requestRebuild hS _) fun _ => by simp

section Calls

variable {S : (ρ : Type) → Call H Data ρ → Prop}

section

variable (hS : HandOffIn orphan S)
include hS

theorem makes_handOffPartialRemine :
    (handOffPartialRemine cfg orphan token : Program H Data _).Makes S := by
  refine .call (hS.requeue token) fun reply => ?_
  split
  · simp
  · simp
  · refine .call hS.status fun row => ?_
    split
    · simp
    · simp
    · split
      · simp
      · refine .bind (makes_requestRebuild hS.reprocess _) fun _ =>
          .call hS.orphaned fun marked => ?_
        cases marked <;> simp

theorem makes_handOffLoop (left : Nat) :
    (handOffLoop cfg orphan token left : Program H Data _).Makes S := by
  induction left with
  | zero => simp [handOffLoop]
  | succ left ih =>
    refine .bind (makes_handOffPartialRemine hS) fun kept => ?_
    split
    · simp
    · exact ih

theorem makes_holdPendingRemine (mem : Memory) :
    (holdPendingRemine cfg mem orphan height : Program H Data _).Makes S :=
  .bind (makes_requestRebuild hS.reprocess _) fun _ => by split <;> simp

theorem makes_retainRemine (mem : Memory) :
    (retainRemine cfg mem orphan height token : Program H Data _).Makes S := by
  refine .call (hS.requeue token) fun reply => ?_
  split
  · simp
  · simp
  · refine .call hS.status fun row => ?_
    split
    · simp
    · simp
    · split
      · exact .bind (makes_holdPendingRemine hS mem) fun _ => by simp
      · simp

theorem makes_retainLoop (mem : Memory) (left : Nat) :
    (retainLoop cfg mem orphan height token left : Program H Data _).Makes S := by
  induction left with
  | zero => simp [retainLoop]
  | succ left ih =>
    refine .bind (makes_retainRemine hS mem) fun kept => ?_
    split
    · simp
    · exact ih

end

end Calls

theorem makes_reactivate (mem : Memory) :
    (reactivate mem orphan height token : Program H Data _).Makes fun _ c => HandsOff c := by
  refine .call trivial fun reply => ?_
  split <;> simp

end HandOff

theorem Ended.count {sdk : Sdk H Data} {b : String} {bumps : GoMap String (Nat × Data)}
    {done : Remined} {w : World Data} (h : Ended sdk b bumps done w) (n : Nat) :
    Ended sdk b bumps { done with count := n } w :=
  ⟨h.bumps_eq, h.marked, h.read, h.malformed, h.failed⟩

section Remine

variable {ok : {ρ : Type} → World Data → Call H Data ρ → List Edge × Oracle H Data → Prop}
  {b : String} {w : World Data} (sdk : Sdk H Data) (cfg : Config)

theorem leavesOf_eq_nil {s : Tables Data}
    (h : ∀ bump, s.bumps.lookup b = some bump → ¬Readable sdk bump.2) : leavesOf sdk b s = [] := by
  unfold leavesOf
  cases hl : s.bumps.lookup b with
  | none => rfl
  | some bump =>
    have hr := h bump hl
    simp only [leavesIn]
    split
    · rfl
    · rename_i he
      cases ht : Builder.levelZeroTxidsFromBUMP sdk bump.2 with
      | error err => rfl
      | ok txids => exact absurd ⟨by simpa using he, txids, ht⟩ hr

theorem leavesOf_eq {s : Tables Data} {bump : Nat × Data} {txids : List String}
    (h : s.bumps.lookup b = some bump) (he : sdk.isEmpty bump.2 = false)
    (ht : Builder.levelZeroTxidsFromBUMP sdk bump.2 = .ok txids) : leavesOf sdk b s = txids := by
  simp [leavesOf, h, leavesIn, he, ht, Except.toOption]

theorem makes_remineTxids (height : Nat) (txids : List String) :
    (remineTxids cfg b height txids : Program H Data _).Makes (Within b [.txs, .published]) :=
  .bind (makes_remineBatches _ _ _) fun r => by split <;> simp

theorem makes_remineFromStoredBUMP :
    (remineFromStoredBUMP sdk cfg b).Makes (Within b [.txs, .published]) := by
  refine .bind (by simp [Within, Call.effects, MinesOnly]) fun reply => ?_
  split
  · simp
  · simp
  · split
    · simp
    · split
      · simp
      · exact makes_remineTxids cfg _ _

theorem always_bumps {α : Type} {p : Program H Data α}
    (hp : p.Makes (Within b [.txs, .published])) :
    Yields (passEnv ok) (fun _ w' => w'.store.bumps = w.store.bumps) p w := by
  refine Always.of_makes_along (fun _ c o w' hc hw _ => ⟨trivial, ?_⟩) hp rfl
  refine (((w'.after o.1).store.exec_agrees o.2 c).bumps ?_).trans ((after_bumps _).trans hw)
  exact fun hm => absurd (hc.1 hm) (by decide)

theorem always_remineTxids {bump : Nat × Data} {txids : List String} {e : Entry Data}
    (hl : w.store.bumps.lookup b = some bump) (hempty : sdk.isEmpty bump.2 = false)
    (ht : Builder.levelZeroTxidsFromBUMP sdk bump.2 = .ok txids) (he : e ∈ w.log)
    (hread : e.deed = .read b (some bump)) :
    Yields (passEnv ok) (Ended sdk b w.store.bumps) (remineTxids cfg b bump.1 txids) w := by
  refine (((always_bumps (makes_remineBatches bump.1 _ _)).also (always_mem_log he _)).also
    (always_remineBatches bump.1 _ 0)).bind ?_
  rintro ⟨changed, err⟩ w' ⟨⟨hb, he'⟩, hdone, htried⟩
  have hreadIn : ∃ bump, w.store.bumps.lookup b = some bump ∧ Readable sdk bump.2 ∧
      ∃ e ∈ w'.log, e.deed = .read b (some bump) := ⟨bump, hl, ⟨hempty, txids, ht⟩, e, he', hread⟩
  cases err with
  | some err =>
    exact ⟨hb, fun h => absurd rfl h, fun _ => hreadIn, nofun,
      fun _ => iff_of_false (htried nofun) nofun⟩
  | none =>
    refine ⟨hb, fun _ txid hmem => ?_, fun _ => hreadIn, nofun, nofun⟩
    rw [leavesOf_eq sdk (by rw [hb, hl]) hempty ht] at hmem
    obtain ⟨batch, hbatch, hin⟩ := exists_mem_slices cfg.batch_pos hmem
    exact hdone rfl batch hbatch txid hin

theorem Ended.of_unusable {done : Remined} {bumps : GoMap String (Nat × Data)}
    (hb : w.store.bumps = bumps) (hr : ∀ bump, bumps.lookup b = some bump → ¬Readable sdk bump.2)
    (hok : done.ok = false) (hfail : done.err ≠ some .failed)
    (hmal : done.err = some .malformed → bumps.lookup b ≠ none) : Ended sdk b bumps done w := by
  refine ⟨hb, fun _ => ?_, fun h => absurd (hok.symm.trans h) nofun, fun h => ?_, fun h => absurd h hfail⟩
  · rw [leavesOf_eq_nil sdk (by rwa [hb])]
    nofun
  · obtain ⟨bump, hl⟩ := Option.ne_none_iff_exists'.mp (hmal h)
    exact ⟨bump, hl, hr bump hl⟩

theorem makes_remineAttempts (left total : Nat) :
    (remineAttempts sdk cfg b left total).Makes (Within b [.txs, .published]) := by
  induction left generalizing total with
  | zero => exact .bind (makes_remineFromStoredBUMP sdk cfg) fun _ => by simp
  | succ left ih =>
    refine .bind (makes_remineFromStoredBUMP sdk cfg) fun done => ?_
    split
    · exact ih _
    · simp

theorem always_remineFromStoredBUMP :
    Yields (passEnv ok) (Ended sdk b w.store.bumps) (remineFromStoredBUMP sdk cfg b) w := by
  refine (always_bind w).mpr (always_exec fun edges o _ => ⟨trivial, ?_⟩)
  have hbumps : ((w.after edges).exec o (.getBUMP b)).2.store.bumps = w.store.bumps := by
    refine Eq.trans ?_ (after_bumps (w := w) edges)
    exact ((w.after edges).store.exec_agrees o (.getBUMP b)).bumps (by simp [Call.effects])
  cases hf : o.fault with
  | some f =>
    have hreply : ((w.after edges).exec o (.getBUMP b)).1 = .error (.failed f.text) := by
      simp [World.exec, Tables.exec, Tables.read, hf]
    have hlast : LastUnread b ((w.after edges).exec o (.getBUMP b)).2.log :=
      (lastUnread_attempt (by simp [World.deed, hf, Deed.attempts])).mpr
        (by simp [World.deed, hf, Deed.isUnread])
    rw [hreply]
    exact ⟨hbumps, fun h => absurd rfl h, by simp, by simp, fun _ => iff_of_true hlast rfl⟩
  | none =>
    cases hl : w.store.bumps.lookup b with
    | none =>
      have hreply : ((w.after edges).exec o (.getBUMP b)).1 = .error .notFound := by
        simp [World.exec, Tables.exec, Tables.read, hf, hl]
      rw [hreply]
      exact .of_unusable sdk hbumps (by simp [hl]) rfl (by simp) (by simp)
    | some bump =>
      have hreply : ((w.after edges).exec o (.getBUMP b)).1 = .ok bump := by
        simp [World.exec, Tables.exec, Tables.read, hf, hl]
      have hdeed : World.deed (w.after edges).store o (.getBUMP b) = .read b (some bump) := by
        simp [World.deed, hf, hl]
      have hbad : ¬Readable sdk bump.2 → Ended sdk b w.store.bumps ⟨0, false, some .malformed⟩
          ((w.after edges).exec o (.getBUMP b)).2 := fun hr =>
        .of_unusable sdk hbumps (by rw [hl]; rintro _ ⟨⟩; exact hr) rfl (by simp) (by simp [hl])
      rw [hreply]
      simp only
      split
      · rename_i he
        refine hbad fun hr => ?_
        cases hr.1.symm.trans he
      · rename_i he
        cases ht : Builder.levelZeroTxidsFromBUMP sdk bump.2 with
        | error err =>
          apply hbad
          rintro ⟨_, txids, htx⟩
          cases ht.symm.trans htx
        | ok txids =>
          rw [← hbumps] at hl ⊢
          exact always_remineTxids sdk cfg hl (by simpa using he) ht mem_cons_self hdeed

theorem always_remineAttempts (left total : Nat) :
    Yields (passEnv ok) (Ended sdk b w.store.bumps) (remineAttempts sdk cfg b left total) w := by
  induction left generalizing w total with
  | zero => exact (always_remineFromStoredBUMP sdk cfg).bind fun _ _ h => h.count _
  | succ left ih =>
    refine (always_remineFromStoredBUMP sdk cfg).bind fun done w₁ h => ?_
    split
    · exact h.bumps_eq ▸ ih _
    · exact h.count _

end Remine

end Arcade.Reconciler
