import Arcade.Lib.Transition
import Arcade.Builder.Handle

/-!
The deliveries of one block: the tables as `handleMessage` finds and leaves them,
what the functions of the builder can write, and the events between two deliveries.
-/

namespace Arcade.Builder

open Lib List
open Bump (Sdk Stump)
open Store (Program Call Tables Oracle Effect TxRow)
open Prog (send)

variable {H Data ρ : Type}

/-- The tables, with two notes on the deliveries so far that no code reads. -/
structure World (Data : Type) where
  store : Tables Data
  /-- The transaction rows there were at the last build or short-circuit. -/
  existing : List String
  passed : List String

namespace World

/-- A write was done, at least in part. -/
def landed (o : Oracle H Data) : Bool := o.fault.all fun f => f.landed ≠ 0

/-- A build is noted when its BUMP is stored, a short-circuit when it consults the
anchor guard. -/
def existingAfter (w : World Data) (o : Oracle H Data) : Call H Data ρ → List String
  | .insertBUMP _ _ _ => if landed o then w.store.txs.keys else w.existing
  | .getHeaderByHeight _ => w.store.txs.keys
  | _ => w.existing

def passedAfter (w : World Data) : Call H Data ρ → List String
  | .setMinedByTxIDs _ _ txids => w.passed ++ txids
  | _ => w.passed

def exec (w : World Data) (o : Oracle H Data) (c : Call H Data ρ) : ρ × World Data :=
  ((w.store.exec o c).1, ⟨(w.store.exec o c).2, w.existingAfter o c, w.passedAfter c⟩)

end World

/-- The environment of the builder; `ok` says which answers are open. -/
def builderEnv (ok : {ρ : Type} → World Data → Call H Data ρ → Oracle H Data → Prop) :
    Env (Call H Data) (Oracle H Data) (World Data) where
  exec o c w := w.exec o c
  ok w c o := ok w c o

@[simp] theorem builderEnv_exec
    (ok : {ρ : Type} → World Data → Call H Data ρ → Oracle H Data → Prop) (o : Oracle H Data)
    (c : Call H Data ρ) (w : World Data) : (builderEnv ok).exec o c w = w.exec o c := rfl

namespace Tables

variable (sdk : Sdk H Data) (s : Tables Data) (hash : String)

/-- `processed_at` is set. -/
def Stamped : Prop := ∃ row, s.blocks.lookup hash = some row ∧ row.processed ≠ 0

/-- The stored BUMP as `loadStoredBUMP` reads it. -/
def storedBUMP : Option (Nat × List String) :=
  (s.bumps.lookup hash).bind fun bump =>
    if sdk.isEmpty bump.2 then none
    else (levelZeroTxidsFromBUMP sdk bump.2).toOption.map fun txids => (bump.1, txids)

end Tables

/-- The callback as `widenExpectedSubtrees` leaves it. -/
def widened (s : Tables Data) (callback : CallbackMessage Data) : CallbackMessage Data :=
  match s.expectedOf callback.blockHash with
  | [] => callback
  | retained => { callback with
      expectedSubtreeIndices :=
        Store.sortCompact (callback.expectedSubtreeIndices ++ retained) }

@[simp] theorem widened_blockHash (s : Tables Data) (callback : CallbackMessage Data) :
    (widened s callback).blockHash = callback.blockHash := by
  unfold widened
  split <;> rfl

theorem mem_widened {s : Tables Data} {callback : CallbackMessage Data} {i : Nat} :
    i ∈ (widened s callback).expectedSubtreeIndices ↔
      i ∈ callback.expectedSubtreeIndices ∨ i ∈ s.expectedOf callback.blockHash := by
  unfold widened
  split
  · simp [*]
  · simp [Store.sortCompact]

theorem callbackBlockData_widened (sdk : Sdk H Data) (s : Tables Data)
    (callback : CallbackMessage Data) (least : Nat) :
    callbackBlockData sdk (widened s callback) least = callbackBlockData sdk callback least := by
  unfold widened
  split <;> rfl

/-! ## What the functions write -/

/-- The call marks transactions only as mined in the block. -/
def MinesOnly (blockHash : String) : Call H Data ρ → Prop
  | .setMinedByTxIDs hash _ _ => hash = blockHash
  | .setStatusByBlockHash _ _ => False
  | _ => True

/-- The call has only the given effects, and mines only against the block. -/
def Within (blockHash : String) (kinds : List Effect) (ρ : Type) (c : Call H Data ρ) : Prop :=
  c.effects ⊆ kinds ∧ MinesOnly blockHash c

section Makes

attribute [local simp] Within Call.effects MinesOnly

variable {b : String} {kinds : List Effect}

theorem Within.mono {kinds' : List Effect} (h : kinds ⊆ kinds') {p : Program H Data ρ}
    (hp : p.Makes (Within b kinds)) : p.Makes (Within b kinds') :=
  hp.imp fun _ _ hc => ⟨fun _ hm => h (hc.1 hm), hc.2⟩

theorem makes_publishAll_of {S : (ρ : Type) → Call H Data ρ → Prop}
    (hS : ∀ event, S _ (.publishBulk event)) (events : List Store.BulkEvent) :
    (publishAll events : Program H Data Bool).Makes S := by
  induction events with
  | nil => simp [publishAll]
  | cons event rest ih =>
    exact .call (hS event) fun _ => .bind ih fun _ => by simp

theorem makes_publishAll (events : List Store.BulkEvent) :
    (publishAll events : Program H Data Bool).Makes (Within b [.published]) :=
  makes_publishAll_of (fun _ => by simp) events

variable (height : Nat) (hash : String) (cfg : Config) (txids : List String)

theorem makes_setMinedAndPublish (extraInfo : String) (onlyChanged : Bool) :
    (setMinedAndPublish b height txids extraInfo onlyChanged : Program H Data _).Makes
      (Within b [.txs, .published]) := by
  refine .bind (by simp) fun mined => ?_
  split
  · simp
  · exact .bind ((makes_publishAll _).imp fun _ _ hc =>
      ⟨fun _ hm => mem_cons_of_mem _ (hc.1 hm), hc.2⟩) fun _ => by simp

theorem makes_markMinedAndPublish (onlyChanged : Bool) :
    (markMinedAndPublish b height txids onlyChanged : Program H Data Bool).Makes
      (Within b [.txs, .published]) :=
  .bind (makes_setMinedAndPublish height txids "" onlyChanged) fun _ => by simp

theorem makes_blockFinalized : (blockFinalized hash : Program H Data Bool).Makes (Within b []) := by
  refine .bind (by simp) fun reply => ?_
  cases reply <;> simp

theorem makes_markBlockProcessed (height : Nat) :
    (markBlockProcessed hash height : Program H Data Unit).Makes
      (Within b [.blocks, .stamp, .expected]) := by
  refine .bind (by simp) fun reply => ?_
  cases reply with
  | error err => simp
  | ok _ =>
    exact .bind (by simp) fun _ => by simp

theorem makes_deferStampedBlock :
    (deferStampedBlock hash : Program H Data _).Makes (Within b [.blocks]) := by
  refine .bind (by simp) fun reply => ?_
  cases reply with
  | error err => cases err <;> simp
  | ok row =>
    simp only
    split
    · simp
    · refine .bind (by simp) fun reply => ?_
      cases reply <;> simp

theorem makes_deferIncompleteBlock (expected : List Nat) :
    (deferIncompleteBlock hash expected : Program H Data _).Makes
      (Within b [.blocks, .expected]) := by
  refine .bind (by simp) fun reply => ?_
  cases reply with
  | error err => simp
  | ok _ => exact Within.mono (by simp) (makes_deferStampedBlock hash)

theorem makes_anchorDecision (hash : String) (height : Nat) :
    (anchorDecision cfg hash height : Program H Data _).Makes (Within b [.headers]) := by
  refine .bind (by simp) fun reply => ?_
  split
  · split <;> simp
  · simp

theorem makes_handleAnchorDenied (height : Nat) :
    (handleAnchorDenied hash height : Program H Data Unit).Makes
      (Within b [.blocks, .stamp, .expected, .stumps]) := by
  refine .bind (Within.mono (by simp) (makes_markBlockProcessed hash height))
    fun _ => ?_
  refine .bind (by simp) fun _ => ?_
  exact .bind (by simp) fun _ => by simp

theorem makes_mineTxids {finalized : Program H Data Bool} (hf : finalized.Makes (Within b [])) :
    (mineTxids b height txids finalized).Makes (Within b [.txs, .published]) := by
  unfold mineTxids
  split
  · simp
  · exact .bind (Within.mono (by simp) hf) fun _ => makes_markMinedAndPublish height txids _

theorem makes_unstampForRebuild (finalized rebuild : Bool) :
    (unstampForRebuild hash finalized rebuild : Program H Data _).Makes (Within b [.blocks]) := by
  unfold unstampForRebuild
  split
  · refine .bind (by simp) fun reply => ?_
    cases reply <;> simp
  · simp

/-- What is done on the way from the BUMP to the stamp, besides marking the txids. -/
def stamping : List Effect := [.blocks, .stamp, .expected, .stumps, .headers]

section Stamping

variable {S : (ρ : Type) → Call H Data ρ → Prop} (hS : ∀ ρ c, Within b stamping ρ c → S ρ c)
include hS

theorem makes_stamping {p : Program H Data ρ} (hk : kinds ⊆ stamping)
    (hp : p.Makes (Within b kinds)) : p.Makes S :=
  (Within.mono hk hp).imp hS

theorem makes_shortCircuit_of (cfg : Config) {height : Nat} {txids : List String}
    (hmine : (mineTxids b height txids (blockFinalized b)).Makes S) :
    (shortCircuit cfg b height txids : Program H Data _).Makes S := by
  refine .bind (makes_stamping hS (by decide) (makes_anchorDecision cfg b height))
    fun verdict => ?_
  cases verdict with
  | deny =>
    exact .bind (makes_stamping hS (by decide) (makes_handleAnchorDenied b height))
      fun _ => by simp
  | allow =>
    refine .bind hmine fun done => ?_
    split
    · exact .bind (makes_stamping hS (by decide) (makes_markBlockProcessed b height))
        fun _ => by simp
    · refine .bind (makes_stamping hS (by decide) (makes_deferStampedBlock b)) fun reply => ?_
      cases reply <;> simp

theorem makes_anchorCompound_of (cfg : Config) {finalized rebuild : Bool} {outcome : Outcome}
    {height : Nat} {txids : List String}
    (hmine : (mineTxids b height txids (pure finalized)).Makes S) :
    (anchorCompound cfg b finalized rebuild outcome height txids : Program H Data _).Makes S := by
  refine .bind (makes_stamping hS (by decide) (makes_anchorDecision cfg b height))
    fun verdict => ?_
  cases verdict with
  | deny =>
    exact .bind (makes_stamping hS (by decide) (makes_handleAnchorDenied b height))
      fun _ => by simp
  | allow =>
    refine .bind hmine fun done => ?_
    split
    · exact .bind (makes_stamping hS (by decide) (makes_markBlockProcessed b height))
        fun _ => by simp
    · simp

end Stamping

/-- Everything but the BUMP. -/
def anchoring : List Effect := stamping ++ [.txs, .published]

theorem makes_shortCircuit (height : Nat) (txids : List String) :
    (shortCircuit cfg b height txids : Program H Data _).Makes (Within b anchoring) :=
  makes_shortCircuit_of (fun _ _ hc => ⟨fun _ hm => mem_append_left _ (hc.1 hm), hc.2⟩) cfg
    (Within.mono (by decide) (makes_mineTxids height txids (makes_blockFinalized b)))

theorem makes_anchorCompound (finalized rebuild : Bool) (outcome : Outcome) (height : Nat)
    (txids : List String) :
    (anchorCompound cfg b finalized rebuild outcome height txids : Program H Data _).Makes
      (Within b anchoring) :=
  makes_anchorCompound_of (fun _ _ hc => ⟨fun _ hm => mem_append_left _ (hc.1 hm), hc.2⟩) cfg
    (Within.mono (by decide) (makes_mineTxids height txids (Prog.makes_pure finalized)))

end Makes

/-! ## The paths of a delivery

Up to its first write a delivery only reads, and the tables decide its path. -/

section Paths

variable {ok : {ρ : Type} → World Data → Call H Data ρ → Oracle H Data → Prop}
  {R : World Data → World Data → Prop} {w : World Data} {α : Type} {hash : String}
  {Q : Handled → World Data → Prop}

theorem always_exec {Q : α → World Data → Prop} {c : Call H Data α}
    (h : ∀ o, ok w c o → R w (w.exec o c).2 ∧ Q (w.exec o c).1 (w.exec o c).2) :
    Always (builderEnv ok) R Q (send c) w := h

theorem always_read {Q : Store.Result α → World Data → Prop} {c : Call H Data (Store.Result α)}
    {v : Store.Result α} (hc : ∀ o, w.exec o c = ((w.store.read o.fault v).1, w)) (hR : R w w)
    (hok : Q v w) (hfail : ∀ text, Q (.error (.failed text)) w) :
    Always (builderEnv ok) R Q (send c) w := by
  refine always_exec fun o _ => ?_
  rw [hc]
  refine ⟨hR, ?_⟩
  cases o.fault with
  | none => exact hok
  | some f => exact hfail f.text

theorem World.exec_read {c : Call H Data (Store.Result α)} {v : Store.Result α} (o : Oracle H Data)
    (hc : w.store.exec o c = w.store.read o.fault v) (he : w.existingAfter o c = w.existing)
    (hp : w.passedAfter c = w.passed) :
    w.exec o c = ((w.store.read o.fault v).1, w) := by
  rw [World.exec, hc, he, hp, Tables.read_state]

variable {sdk : Sdk H Data} {cfg : Config} {callback : CallbackMessage Data}

theorem always_widenExpectedSubtrees {Q : Except String (CallbackMessage Data) → World Data → Prop}
    (hR : R w w) (hok : Q (.ok (widened w.store callback)) w) (hfail : ∀ err, Q (.error err) w) :
    Always (builderEnv ok) R Q (widenExpectedSubtrees callback : Program H Data _) w := by
  refine Always.bind (P := fun reply w' => w' = w ∧
    ∀ retained, reply = .ok retained → retained = w.store.expectedOf callback.blockHash)
    (always_read (fun o => World.exec_read o rfl rfl rfl) hR ⟨rfl, ?_⟩ ?_) ?_
  · rintro retained ⟨⟩
    rfl
  · exact fun text => ⟨rfl, nofun⟩
  · rintro reply w' ⟨rfl, hreply⟩
    cases reply with
    | error err => exact hfail _
    | ok retained =>
      obtain rfl := hreply retained rfl
      unfold widened at hok
      cases hr : w'.store.expectedOf callback.blockHash with
      | nil => simpa [hr] using hok
      | cons i rest => simpa [hr] using hok

theorem always_loadStoredBUMP {Q : Except String (Option (Nat × List String)) → World Data → Prop}
    (hR : R w w) (hok : Q (.ok (Tables.storedBUMP sdk w.store hash)) w)
    (hfail : ∀ err, Q (.error err) w) :
    Always (builderEnv ok) R Q (loadStoredBUMP sdk hash : Program H Data _) w := by
  refine (always_bind w).mpr (always_read (fun o => World.exec_read o rfl rfl rfl) hR ?_
    fun text => hfail _)
  unfold Tables.storedBUMP at hok
  cases hb : w.store.bumps.lookup hash with
  | none => simpa [hb] using hok
  | some bump =>
    obtain ⟨height, bytes⟩ := bump
    simp only [hb, Option.bind_some] at hok ⊢
    split
    · simpa [*] using hok
    · cases hl : levelZeroTxidsFromBUMP sdk bytes with
      | error err => simpa [*, Except.toOption] using hok
      | ok txids => simpa [*, Except.toOption] using hok

theorem always_blockFinalized {Q : Bool → World Data → Prop} (hR : R w w)
    (hQ : ∀ finalized, (finalized = true → Tables.Stamped w.store hash) → Q finalized w) :
    Always (builderEnv ok) R Q (blockFinalized hash : Program H Data Bool) w := by
  refine (always_bind w).mpr (always_read (fun o => World.exec_read o rfl rfl rfl) hR ?_
    fun text => hQ false nofun)
  cases hb : w.store.blocks.lookup hash with
  | none => exact hQ false nofun
  | some row => exact hQ _ fun h => ⟨row, hb, by simpa using h⟩

/-- The STUMPs of the block and the subtrees that the delivery expects. -/
abbrev World.stumps (w : World Data) (callback : CallbackMessage Data) : List (Stump Data) :=
  w.store.stumpsOf callback.blockHash

abbrev World.expects (w : World Data) (callback : CallbackMessage Data) : List Nat :=
  (widened w.store callback).expectedSubtreeIndices

abbrev World.missing (w : World Data) (callback : CallbackMessage Data) : List Nat :=
  missingStumpIndices callback.expectedSubtreeIndices (w.stumps callback)

/-- After a step that may fail: `Q` holds of any failure, and of `done` if there was none. -/
abbrev Settles (Q : α → World Data → Prop) (fail : String → α) (done : α)
    (reply : Except String Unit) (w : World Data) : Prop :=
  (∀ err, Q (fail err) w) ∧ (reply = .ok () → Q done w)

theorem stumps_widened : w.stumps (widened w.store callback) = w.stumps callback := by
  rw [World.stumps, widened_blockHash]

theorem missing_widened : w.missing (widened w.store callback) =
    missingStumpIndices (w.expects callback) (w.stumps callback) := by
  rw [World.missing, stumps_widened]

theorem always_getStumps {Q : Store.Result (List (Stump Data)) → World Data → Prop} (hR : R w w)
    (hok : Q (.ok (w.store.stumpsOf hash)) w) (hfail : ∀ text, Q (.error (.failed text)) w) :
    Always (builderEnv ok) R Q (send (.getStumpsByBlockHash hash) : Program H Data _) w :=
  always_read (fun o => World.exec_read o rfl rfl rfl) hR hok hfail

variable [DecidableEq H]

/-- A delivery either fails on a read, or short-circuits, or goes on to build. -/
theorem always_handleMessage (hR : R w w) (hfail : ∀ outcome err, Q (outcome, .error err) w)
    (hshort : ∀ height leaves,
      Tables.storedBUMP sdk w.store callback.blockHash = some (height, leaves) →
      leavesBeyondStoredBUMP sdk (w.stumps callback) leaves = .ok [] →
      retainedMissing (w.expects callback) (w.stumps callback) = [] →
      Always (builderEnv ok) R (fun reply w' => (∀ err, Q (.storeFailed, .error err) w') ∧
          ∀ failed, reply = .ok failed →
            Q (if failed then .storeFailed else .shortCircuited, .ok ()) w')
        (shortCircuit cfg callback.blockHash height leaves) w)
    (hfresh : Tables.storedBUMP sdk w.store callback.blockHash = none →
      Always (builderEnv ok) R Q (resolveAndBuild sdk cfg (widened w.store callback) none) w)
    (hrebuild : ∀ height leaves new,
      Tables.storedBUMP sdk w.store callback.blockHash = some (height, leaves) →
      leavesBeyondStoredBUMP sdk (w.stumps callback) leaves = .ok new →
      ¬ (new = [] ∧ retainedMissing (w.expects callback) (w.stumps callback) = []) →
      Always (builderEnv ok) R Q
        (resolveAndBuild sdk cfg (widened w.store callback) (some leaves)) w) :
    Always (builderEnv ok) R Q (handleMessage sdk cfg callback) w := by
  unfold handleMessage
  split
  · exact hfail _ _
  refine (always_bind w).mpr (always_widenExpectedSubtrees hR ?_ fun err => hfail _ _)
  refine (always_bind w).mpr ((always_bind w).mpr (always_loadStoredBUMP hR ?_ fun err => hfail _ _))
  rw [widened_blockHash]
  cases hstored : Tables.storedBUMP sdk w.store callback.blockHash with
  | none => exact hfresh hstored
  | some bump =>
    obtain ⟨height, leaves⟩ := bump
    refine (always_bind w).mpr (always_getStumps hR ?_ fun text => hfail _ _)
    dsimp only
    cases hnew : leavesBeyondStoredBUMP sdk (w.store.stumpsOf callback.blockHash) leaves with
    | error err => exact hfail _ _
    | ok new =>
      dsimp only
      split
      · rename_i hc
        obtain ⟨rfl, hmissing⟩ := hc
        refine (hshort height leaves hstored hnew hmissing).bind fun reply w' hQ => ?_
        cases reply with
        | error err => exact hQ.1 _
        | ok failed => exact hQ.2 failed rfl
      · exact hrebuild height leaves new hstored hnew ‹_›

omit [DecidableEq H] in
theorem always_gateStumps {Q : Resolved Data → World Data → Prop} {expected : List Nat}
    {stumps : List (Stump Data)} (hdefer : missingStumpIndices expected stumps ≠ [] →
      Always (builderEnv ok) R (Settles Q (.failed .storeFailed) (.finished .deferredIncomplete))
        (deferIncompleteBlock hash expected) w)
    (hempty : missingStumpIndices expected stumps = [] → stumps = [] →
      Always (builderEnv ok) R (fun _ => Q (.finished .noStumps)) (finalizeEmptyBlock hash) w)
    (hbuild : missingStumpIndices expected stumps = [] → stumps ≠ [] →
      Q (.build stumps .graceWaited) w) :
    Always (builderEnv ok) R Q (gateStumps hash expected stumps : Program H Data _) w := by
  unfold gateStumps
  split
  · rename_i hm
    refine (hdefer hm).bind fun reply w' hQ => ?_
    cases reply with
    | error err => exact hQ.1 err
    | ok _ => exact hQ.2 rfl
  · rename_i hm
    split
    · exact (hempty (not_not.mp hm) ‹_›).bind fun _ _ hQ => hQ
    · exact hbuild (not_not.mp hm) ‹_›

omit [DecidableEq H] in
/-- The STUMPs are read up to twice; nobody writes them in between. -/
theorem always_resolveStumps {Q : Resolved Data → World Data → Prop} {rebuild : Bool} (hR : R w w)
    (hfail : ∀ outcome err, Q (.failed outcome err) w) (hdefer : w.missing callback ≠ [] →
      Always (builderEnv ok) R (Settles Q (.failed .storeFailed) (.finished .deferredIncomplete))
        (deferIncompleteBlock callback.blockHash callback.expectedSubtreeIndices) w)
    (hempty : w.missing callback = [] →
      w.stumps callback = [] → Always (builderEnv ok) R (fun _ => Q (.finished .noStumps))
        (finalizeEmptyBlock callback.blockHash) w)
    (hbuild : w.missing callback = [] →
      w.stumps callback ≠ [] → ∀ outcome, Q (.build (w.stumps callback) outcome) w) :
    Always (builderEnv ok) R Q (resolveStumps cfg callback rebuild : Program H Data _) w := by
  have hgate : Always (builderEnv ok) R Q (gateStumps callback.blockHash
      callback.expectedSubtreeIndices (w.stumps callback) : Program H Data _) w :=
    always_gateStumps hdefer hempty fun hm hs => hbuild hm hs _
  refine (always_bind w).mpr (always_getStumps hR ?_ fun text => hfail _ _)
  dsimp only
  split
  · rename_i hc
    refine hbuild hc.2.2 (fun hnil => ?_) _
    -- an expected index without any STUMP would be missing
    obtain ⟨i, rest, he⟩ := exists_cons_of_ne_nil hc.2.1
    have hm := hc.2.2
    simp [hnil, he, missingStumpIndices] at hm
  · split
    · rename_i hc
      have hm : w.missing callback = [] := by
        simp [hc.2.1, missingStumpIndices]
      exact (hempty hm hc.2.2).bind fun _ _ hQ => hQ
    · split
      · intro o _
        refine ⟨hR, ?_⟩
        change Always (builderEnv ok) R Q (if o.waited = true then _ else _) w
        split
        · exact (always_bind w).mpr (always_getStumps hR hgate fun text => hfail _ _)
        · exact hfail _ _
      · exact hgate

/-- The delivery was given this block data. -/
def GivesData (sdk : Sdk H Data) (callback : CallbackMessage Data) (stumps : List (Stump Data))
    (data : Store.BlockData H Data) : Prop :=
  callbackBlockData sdk callback (minSubtrees stumps) = some data ∨
    callbackBlockData sdk callback (minSubtrees stumps) = none

variable {stored : Option (List String)}

section

variable (hR : R w w) (hfail : ∀ outcome err, Q (outcome, .error err) w)
include hR hfail

theorem always_resolveAndBuild (hdefer : w.missing callback ≠ [] →
      Always (builderEnv ok) R (Settles Q (.storeFailed, .error ·) (.deferredIncomplete, .ok ()))
        (deferIncompleteBlock callback.blockHash callback.expectedSubtreeIndices) w)
    (hempty : w.missing callback = [] →
      w.stumps callback = [] → Always (builderEnv ok) R (fun _ => Q (.noStumps, .ok ()))
        (finalizeEmptyBlock callback.blockHash) w)
    (hbuild : w.missing callback = [] → w.stumps callback ≠ [] → ∀ finalized outcome,
        (finalized = true → Tables.Stamped w.store callback.blockHash) → Always (builderEnv ok) R Q
            (buildBlock sdk cfg callback finalized stored (w.stumps callback) outcome) w) :
    Always (builderEnv ok) R Q (resolveAndBuild sdk cfg callback stored) w := by
  refine (always_bind w).mpr (always_blockFinalized hR fun finalized hfin => ?_)
  refine (always_bind w).mpr (always_resolveStumps hR ?_ hdefer hempty ?_)
  · exact fun outcome err => hfail outcome err
  · exact fun hm hs outcome => hbuild hm hs finalized outcome hfin

theorem always_buildBlock {finalized : Bool}
    {stumps : List (Stump Data)} {outcome : Outcome} (hnone : Q (.noSubtrees, .ok ()) w)
    (hdrop : Always (builderEnv ok) R
        (Settles Q (.storeFailed, .error ·) (.deferredIncomplete, .ok ()))
        (deferIncompleteBlock callback.blockHash callback.expectedSubtreeIndices) w)
    (hstore : ∀ data compound txids, GivesData sdk callback stumps data →
      (callbackBlockData sdk callback (minSubtrees stumps) = none → ∃ o : Oracle H Data,
        ok w (.fetchBlockData callback.blockHash (minSubtrees stumps)) o ∧ o.blockData = .ok data) →
      buildCompound sdk callback.blockHash stored stumps data = .ok compound txids →
        Always (builderEnv ok) R (fun reply w' => (∀ err, Q (.storeFailed, .error err) w') ∧
            (reply = .ok () → Always (builderEnv ok) R Q (storeCompound sdk cfg callback.blockHash
              finalized stored.isSome outcome compound txids) w'))
          (unstampForRebuild callback.blockHash finalized stored.isSome) w) :
    Always (builderEnv ok) R Q
      (buildBlock sdk cfg callback finalized stored stumps outcome) w := by
  have hdata : Always (builderEnv ok) R (fun reply w' => w' = w ∧
      ∀ data, reply = .ok data → GivesData sdk callback stumps data ∧
        (callbackBlockData sdk callback (minSubtrees stumps) = none → ∃ o : Oracle H Data,
          ok w (.fetchBlockData callback.blockHash (minSubtrees stumps)) o ∧
            o.blockData = .ok data))
      (blockDataFor sdk callback stumps) w := by
    unfold blockDataFor
    cases hc : callbackBlockData sdk callback (minSubtrees stumps) with
    | some data =>
      refine ⟨rfl, ?_⟩
      rintro _ ⟨⟩
      exact ⟨.inl hc, nofun⟩
    | none => exact fun o ho => ⟨hR, rfl, fun _ hr => ⟨.inr hc, fun _ => ⟨o, ho, hr⟩⟩⟩
  refine hdata.bind fun reply w' ⟨hw, hgives⟩ => ?_
  subst hw
  cases reply with
  | error err => exact hfail _ _
  | ok data =>
    dsimp only
    cases hb : buildCompound sdk callback.blockHash stored stumps data with
    | failed outcome err => exact hfail _ _
    | noSubtrees => exact hnone
    | drops =>
      refine hdrop.bind fun reply w' hQ => ?_
      cases reply with
      | error err => exact hQ.1 err
      | ok _ => exact hQ.2 rfl
    | ok compound txids =>
      obtain ⟨hgiven, hfetched⟩ := hgives data rfl
      refine (hstore data compound txids hgiven hfetched hb).bind fun reply w' hQ => ?_
      cases reply with
      | error err => exact hQ.1 err
      | ok _ => exact hQ.2 rfl

end

end Paths

/-! The same paths, taken by a run in which the reads answer. -/

section Taken

variable {ok : {ρ : Type} → World Data → Call H Data ρ → Oracle H Data → Prop} {w : World Data}
  {sdk : Sdk H Data} {cfg : Config} {callback : CallbackMessage Data} {o : Oracle H Data}

theorem runs_read {α : Type} {c : Call H Data (Store.Result α)} {v : Store.Result α}
    (hc : w.store.exec o c = w.store.read o.fault v) (he : w.existingAfter o c = w.existing)
    (hp : w.passedAfter c = w.passed) (ho : ok w c o) (hf : o.fault = none) :
    Runs (builderEnv ok) (send c) w (some v) w := by
  have hrun := Runs.send (E := builderEnv ok) o ho
  have hexec : w.exec o c = (v, w) := by rw [World.exec_read o hc he hp, hf]; rfl
  change Runs _ _ w (some (w.exec o c).1) (w.exec o c).2 at hrun
  rwa [hexec] at hrun

variable (ho : ∀ (ρ : Type) (c : Call H Data ρ), ok w c o) (hf : o.fault = none)
include ho hf

theorem runs_widenExpectedSubtrees :
    Runs (builderEnv ok) (widenExpectedSubtrees callback : Program H Data _) w
      (some (.ok (widened w.store callback))) w := by
  refine (runs_read rfl rfl rfl (ho _ _) hf).bind ?_
  unfold widened
  cases w.store.expectedOf callback.blockHash <;> exact .done _ _

theorem runs_loadStoredBUMP {hash : String} :
    Runs (builderEnv ok) (loadStoredBUMP sdk hash : Program H Data _) w
      (some (.ok (Tables.storedBUMP sdk w.store hash))) w := by
  refine (runs_read rfl rfl rfl (ho _ _) hf).bind ?_
  unfold Tables.storedBUMP
  cases hb : w.store.bumps.lookup hash with
  | none => exact .done _ _
  | some bump =>
    obtain ⟨height, bytes⟩ := bump
    simp only [Option.bind_some]
    split
    · simpa [*] using .done _ _
    · cases hl : levelZeroTxidsFromBUMP sdk bytes with
      | error err => exact .done _ _
      | ok txids => exact .done _ _

variable [DecidableEq H]

def shortCircuited : Except String Bool → Handled
  | .error err => (.storeFailed, .error ("reading stored BUMP/STUMPs on redelivery: " ++ err))
  | .ok failed => (if failed then .storeFailed else .shortCircuited, .ok ())

variable {w' : World Data}

section

variable (hhash : callback.blockHash ≠ "")
include hhash

theorem runs_handleMessage_short {height : Nat} {leaves : List String}
    (hstored : Tables.storedBUMP sdk w.store callback.blockHash = some (height, leaves))
    (hnew : leavesBeyondStoredBUMP sdk (w.stumps callback) leaves = .ok [])
    (hmissing : retainedMissing (w.expects callback) (w.stumps callback) = [])
    {out : Option (Except String Bool)}
    (hrun : Runs (builderEnv ok) (shortCircuit cfg callback.blockHash height leaves) w out w') :
    Runs (builderEnv ok) (handleMessage sdk cfg callback) w (out.map shortCircuited) w' := by
  unfold handleMessage
  rw [if_neg hhash]
  refine (runs_widenExpectedSubtrees ho hf).bind ?_
  refine Runs.bind_pure (g := fun reply => reply.map fun failed =>
    Redelivery.handled (if failed then .storeFailed else .shortCircuited)) ?_ ?_
  · refine (runs_loadStoredBUMP ho hf).bind ?_
    simp only [widened_blockHash, hstored]
    refine (runs_read rfl rfl rfl (ho _ _) hf).bind ?_
    dsimp only
    rw [hnew]
    dsimp only
    rw [if_pos ⟨rfl, hmissing⟩]
    refine Runs.bind_pure (g := id) (by simpa using hrun) fun reply => ?_
    cases reply <;> rfl
  · intro reply
    cases reply <;> rfl

theorem runs_handleMessage_fresh
    (hstored : Tables.storedBUMP sdk w.store callback.blockHash = none) {out : Option Handled}
    (hrun : Runs (builderEnv ok) (resolveAndBuild sdk cfg (widened w.store callback) none) w
      out w') :
    Runs (builderEnv ok) (handleMessage sdk cfg callback) w out w' := by
  have hfresh : Runs (builderEnv ok) (handleRedelivery sdk cfg (widened w.store callback)) w
      (some (.ok .fresh)) w := by
    refine (runs_loadStoredBUMP ho hf).bind ?_
    simp only [widened_blockHash, hstored]
    exact .done _ _
  unfold handleMessage
  rw [if_neg hhash]
  exact (runs_widenExpectedSubtrees ho hf).bind (hfresh.bind hrun)

theorem runs_handleMessage_rebuild {height : Nat} {leaves new : List String}
    (hstored : Tables.storedBUMP sdk w.store callback.blockHash = some (height, leaves))
    (hnew : leavesBeyondStoredBUMP sdk (w.stumps callback) leaves = .ok new)
    (hno : ¬ (new = [] ∧ retainedMissing (w.expects callback) (w.stumps callback) = []))
    {out : Option Handled} (hrun : Runs (builderEnv ok)
      (resolveAndBuild sdk cfg (widened w.store callback) (some leaves)) w out w') :
    Runs (builderEnv ok) (handleMessage sdk cfg callback) w out w' := by
  have hrebuild : Runs (builderEnv ok) (handleRedelivery sdk cfg (widened w.store callback)) w
      (some (.ok (.rebuild leaves))) w := by
    refine (runs_loadStoredBUMP ho hf).bind ?_
    simp only [widened_blockHash, hstored]
    refine (runs_read rfl rfl rfl (ho _ _) hf).bind ?_
    dsimp only
    rw [hnew]
    dsimp only
    rw [if_neg hno]
    exact .done _ _
  unfold handleMessage
  rw [if_neg hhash]
  exact (runs_widenExpectedSubtrees ho hf).bind (hrebuild.bind hrun)

end

theorem runs_resolveAndBuild_empty (hexpected : callback.expectedSubtreeIndices = [])
    (hstumps : w.stumps callback = []) {out : Option Unit}
    (hrun : Runs (builderEnv ok) (finalizeEmptyBlock callback.blockHash) w out w') :
    Runs (builderEnv ok) (resolveAndBuild sdk cfg callback none) w
      (out.map fun _ => (.noStumps, .ok ())) w' := by
  have hfin : ∃ finalized, Runs (builderEnv ok) (blockFinalized callback.blockHash) w
      (some finalized) w := by
    refine (Exists.imp fun _ h => (runs_read rfl rfl rfl (ho _ _) hf).bind h) ?_
    cases w.store.blocks.lookup callback.blockHash with
    | none => exact ⟨false, .done _ _⟩
    | some row => exact ⟨_, .done _ _⟩
  obtain ⟨finalized, hfin⟩ := hfin
  refine hfin.bind (Runs.bind_pure (g := fun _ => .finished .noStumps) ?_ fun _ => rfl)
  refine (runs_read rfl rfl rfl (ho _ _) hf).bind ?_
  dsimp only
  rw [if_neg (by simp [hexpected]), if_pos ⟨by simp, hexpected, hstumps⟩]
  exact Runs.bind_pure (g := id) (by simpa using hrun) fun _ => rfl

omit [DecidableEq H] in
theorem runs_resolveStumps_build (cfg : Config) (hwait : o.waited = true) (rebuild : Bool)
    (hmissing : w.missing callback = []) (hstumps : w.stumps callback ≠ []) :
    ∃ outcome, Runs (builderEnv ok) (resolveStumps cfg callback rebuild : Program H Data _) w
      (some (.build (w.stumps callback) outcome)) w := by
  have hgate : Runs (builderEnv ok) (gateStumps callback.blockHash callback.expectedSubtreeIndices
      (w.stumps callback) : Program H Data _) w
      (some (.build (w.stumps callback) .graceWaited)) w := by
    unfold gateStumps
    rw [if_neg (not_not.mpr hmissing), if_neg hstumps]
    exact .done _ _
  have hread : Runs (builderEnv ok) (send (.getStumpsByBlockHash callback.blockHash) :
      Program H Data _) w (some (.ok (w.stumps callback))) w := runs_read rfl rfl rfl (ho _ _) hf
  refine Exists.imp (fun _ h => hread.bind h) ?_
  dsimp only
  split
  · exact ⟨_, .done _ _⟩
  · rw [if_neg fun hc => hstumps hc.2.2]
    split
    · have hw : Runs (builderEnv ok) (send .wait : Program H Data _) w (some true) w := by
        rw [← hwait]
        exact Runs.send o (ho _ _)
      exact ⟨_, hw.bind (hread.bind hgate)⟩
    · exact ⟨_, hgate⟩

theorem runs_resolveAndBuild_build (cfg : Config) (callback : CallbackMessage Data)
    (stored : Option (List String)) (hwait : o.waited = true) {data : Store.BlockData H Data} {compound : Bump.MerklePath H} {txids : List String}
    (hfin : Runs (builderEnv ok) (blockFinalized callback.blockHash) w (some false) w)
    (hmissing : w.missing callback = [])
    (hstumps : w.stumps callback ≠ []) (hdata : o.blockData = .ok data)
    (hgives : GivesData sdk callback (w.stumps callback) data)
    (hbuilt : buildCompound sdk callback.blockHash stored (w.stumps callback) data =
      .ok compound txids) :
    ∃ outcome, ∀ out w', Runs (builderEnv ok) (storeCompound sdk cfg callback.blockHash false
        stored.isSome outcome compound txids) w out w' →
      Runs (builderEnv ok) (resolveAndBuild sdk cfg callback stored) w out w' := by
  obtain ⟨outcome, hres⟩ := runs_resolveStumps_build ho hf cfg hwait stored.isSome
    hmissing hstumps
  refine ⟨outcome, fun out w' hrun => hfin.bind (hres.bind ?_)⟩
  have hblock : Runs (builderEnv ok) (blockDataFor sdk callback (w.stumps callback)) w
      (some (.ok data)) w := by
    unfold blockDataFor
    rcases hgives with hc | hc <;> rw [hc]
    · exact .done _ _
    · rw [← hdata]
      exact Runs.send o (ho _ _)
  have hoff : Runs (builderEnv ok) (unstampForRebuild callback.blockHash false stored.isSome :
      Program H Data _) w (some (.ok ())) w := by
    unfold unstampForRebuild
    rw [if_neg (by simp)]
    exact .done _ _
  refine hblock.bind ?_
  dsimp only
  rw [hbuilt]
  exact hoff.bind hrun

end Taken

/-! Without failures, what is marked and announced is so in full, and the block is stamped. -/

structure Smooth (o : Oracle H Data) : Prop where
  clock : o.now ≠ 0
  answers : o.fault = none
  headless : o.header = .ok none

namespace Smooth

variable {ok : {ρ : Type} → World Data → Call H Data ρ → Oracle H Data → Prop} {cfg : Config}
  {b : String} {o : Oracle H Data} (h : Smooth o)
include h

variable (height : Nat) (txids : List String) (w : World Data)

theorem stamped_markBlockProcessed :
    Tables.Stamped ((markBlockProcessed b height).runWith (builderEnv ok) o w).2.store b := by
  have hrow : (Store.markBlockProcessed height o.now (w.store.blocks.lookup b)).processed ≠ 0 := by
    cases w.store.blocks.lookup b <;> exact h.clock
  have hreply : (w.exec o (.markBlockProcessed b height)).1 = .ok () := by
    simp [World.exec, Tables.exec, h.answers, Tables.write]
  have hlookup : (w.exec o (.markBlockProcessed b height)).2.store.blocks.lookup b =
      some (Store.markBlockProcessed height o.now (w.store.blocks.lookup b)) := by
    simp [World.exec, Tables.exec, h.answers, Tables.write]
  simp only [markBlockProcessed, runWith_bind, runWith_send, builderEnv_exec, hreply, runWith_pure]
  -- clearing the expected set leaves the row alone
  refine ⟨_, ?_, hrow⟩
  rw [← hlookup]
  exact congrArg _ ((Tables.exec_agrees _ o _).blocks (by simp [Call.effects]))

theorem publishAll_fst (events : List Store.BulkEvent) (w : World Data) :
    ((publishAll events).runWith (builderEnv ok) o w).1 = false := by
  induction events generalizing w with
  | nil => rfl
  | cons event rest ih =>
    have hsend : (w.exec o (.publishBulk event)).1 = .ok () := by
      simp [World.exec, Tables.exec, h.answers]
    simp only [publishAll, runWith_bind, ih, runWith_pure, Bool.false_or, runWith_send,
      builderEnv_exec, hsend]
    rfl

theorem markMinedAndPublish_fst (onlyChanged : Bool) (w : World Data) :
    ((markMinedAndPublish b height txids onlyChanged).runWith (builderEnv ok) o w).1 = true := by
  have herr : ((w.exec o (.setMinedByTxIDs b height txids)).1).err = none := by
    simp [World.exec, Tables.exec, h.answers]
  simp only [markMinedAndPublish, setMinedAndPublish, runWith_bind, runWith_send, builderEnv_exec,
    herr, Option.isSome_none, Bool.false_eq_true, false_and, if_false, runWith_pure,
    h.publishAll_fst]
  rfl

theorem mineTxids_fst (finalized : Program H Data Bool) (w : World Data) :
    ((mineTxids b height txids finalized).runWith (builderEnv ok) o w).1 = true := by
  unfold mineTxids
  split
  · rfl
  · rw [runWith_bind, h.markMinedAndPublish_fst]

theorem anchorDecision_fst :
    ((anchorDecision cfg b height).runWith (builderEnv ok) o w).1 = .allow := by
  have hhead : (w.exec o (.getHeaderByHeight height)).1 = .ok none := h.headless
  simp only [anchorDecision, runWith_bind, runWith_send, builderEnv_exec, hhead, runWith_pure]

theorem stamped_shortCircuit :
    Tables.Stamped ((shortCircuit cfg b height txids).runWith (builderEnv ok) o w).2.store b := by
  unfold shortCircuit
  simp only [runWith_bind, h.anchorDecision_fst, h.mineTxids_fst, if_true, runWith_pure]
  exact h.stamped_markBlockProcessed height _

theorem stamped_anchorCompound (finalized rebuild : Bool) (outcome : Outcome) (height : Nat)
    (txids : List String) (w : World Data) :
    Tables.Stamped ((anchorCompound cfg b finalized rebuild outcome height txids).runWith
      (builderEnv ok) o w).2.store b := by
  unfold anchorCompound
  simp only [runWith_bind, h.anchorDecision_fst, h.mineTxids_fst, if_true, runWith_pure]
  exact h.stamped_markBlockProcessed height _

end Smooth

/-! ## Between two deliveries -/

inductive BlockEvent (Data : Type) where
  /-- A BLOCK_PROCESSED for the block. -/
  | deliver (callback : CallbackMessage Data)
  /-- A STUMP is stored, at some place in the order of their keys. -/
  | insertStump (position : Nat) (stump : Stump Data)
  | pruneStumps (keep : Stump Data → Bool)
  | insertTx (txid : String) (row : TxRow)

/-- What an event other than a delivery does to the tables. -/
def BlockEvent.write (blockHash : String) (s : Tables Data) : BlockEvent Data → Tables Data
  | .deliver _ => s
  | .insertStump position stump =>
    let old := s.stumpsOf blockHash
    let new := old.take position ++ stump :: old.drop position
    { s with stumps := s.stumps.insert blockHash new }
  | .pruneStumps keep =>
    { s with stumps := s.stumps.insert blockHash ((s.stumpsOf blockHash).filter keep) }
  | .insertTx txid row =>
    match s.txs.lookup txid with
    | some _ => s
    | none => { s with txs := s.txs.insert txid row }

section Write

variable (b : String) (s : Tables Data) (e : BlockEvent Data)

theorem BlockEvent.agrees_write : Tables.Agrees [.stumps, .txs] s (e.write b s) := by
  cases e with
  | insertTx txid row =>
    simp only [BlockEvent.write]
    split
    · exact .refl _ _
    · constructor <;> simp
  | _ => constructor <;> simp [BlockEvent.write]

theorem BlockEvent.mem_stumpsOf_write {st : Stump Data} (h : st ∈ (e.write b s).stumpsOf b) :
    st ∈ s.stumpsOf b ∨ ∃ position, e = .insertStump position st := by
  cases e with
  | deliver callback => exact .inl h
  | insertStump position stump =>
    simp only [BlockEvent.write, Tables.stumpsOf, AList.lookup_insert, Option.getD_some,
      mem_append, mem_cons] at h
    rcases h with h | rfl | h
    · exact .inl (mem_of_mem_take h)
    · exact .inr ⟨position, rfl⟩
    · exact .inl (mem_of_mem_drop h)
  | pruneStumps keep =>
    simp only [BlockEvent.write, Tables.stumpsOf, AList.lookup_insert, Option.getD_some] at h
    exact .inl (mem_of_mem_filter h)
  | insertTx txid row =>
    simp only [BlockEvent.write] at h
    split at h <;> exact .inl h

end Write

/-- One event of the block. A delivery may end in any state that its run can end in;
`mayDie` says whether the process may die in the middle of it. -/
def BlockStep [DecidableEq H] (E : Env (Call H Data) (Oracle H Data) (World Data))
    (sdk : Sdk H Data) (cfg : Config) (mayDie : Bool) (blockHash : String) :
    BlockEvent Data → World Data → World Data → Prop
  | .deliver callback, w, w' =>
    ∃ out : Option Handled, (mayDie || out.isSome) ∧
      Runs E (handleMessage sdk cfg { callback with blockHash }) w out w'
  | e, w, w' => w' = { w with store := e.write blockHash w.store }

end Arcade.Builder
