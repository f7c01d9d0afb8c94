import Arcade.Builder.Reported
import Arcade.Bump.Reference

/-!
When the `processed_at` stamp can be trusted.

It is taken on trust in two places: a first build does not take it off, although a block
without STUMPs gets it with nothing built, and a short-circuit announces
only what changes under it. `Risky` says when that trust is misplaced. The process may
die after any call.
-/

namespace Arcade.Builder

open Lib List
open Bump (Sdk Stump)
open Store (Program Call Tables Oracle Effect)
open Prog (send)

variable {H Data ρ : Type}

/-! ## Deliveries that keep the promise -/

section Deliver

variable [DecidableEq H] {sdk : Sdk H Data} {cfg : Config} {b : String} {w : World Data}
  {callback : CallbackMessage Data}

theorem sound_resolveAndBuild {stored : Option (List String)} (hb : callback.blockHash = b)
    (hsound : StampSound sdk b w) (hempty : w.stumps callback = [] → AllReported sdk b w)
    (hbuild : ∀ data compound txids,
      w.missing callback = [] → w.stumps callback ≠ [] → GivesData sdk callback (w.stumps callback) data →
      buildCompound sdk b stored (w.stumps callback) data = .ok compound txids →
      ∀ txid ∈ leavesIn sdk (sdk.bytes compound),
        Reported b w.store txid ∨ ¬ Tables.Stamped w.store b ∧ txid ∈ txids) :
    Keeps (allowingEnv H Data b) (StampSound sdk b)
      (resolveAndBuild sdk cfg callback stored) w := by
  subst hb
  refine always_resolveAndBuild hsound (fun _ _ => hsound) ?_ ?_ ?_
  · exact fun _ => (sound_deferIncompleteBlock hsound).imp fun _ _ h => ⟨fun _ => h, fun _ => h⟩
  · exact fun _ hs => (hempty hs).always (Within.mono (by decide) (makes_markBlockProcessed _ 0))
  · intro hm hs finalized outcome hfin
    refine always_buildBlock hsound (fun _ _ => hsound) hsound ?_ ?_
    · exact (sound_deferIncompleteBlock hsound).imp fun _ _ h => ⟨fun _ => h, fun _ => h⟩
    · intro data compound txids hgives _ hbuilt
      have h := hbuild data compound txids hm hs hgives hbuilt
      -- taking the stamp off changes neither what is reported nor an unstamped block
      have hoff : Keeps (allowingEnv H Data callback.blockHash)
          (fun w' => StampSound sdk callback.blockHash w' ∧
            (∀ txid, Reported callback.blockHash w.store txid →
              Reported callback.blockHash w'.store txid) ∧
            (¬ Tables.Stamped w.store callback.blockHash →
              ¬ Tables.Stamped w'.store callback.blockHash))
          (unstampForRebuild callback.blockHash finalized stored.isSome) w := by
        refine Always.of_makes (S := Within callback.blockHash [.blocks]) ?_
          (makes_unstampForRebuild _ finalized stored.isSome) ⟨hsound, fun _ h => h, fun h => h⟩
        intro ρ c o w' hc ⟨h₁, h₂, h₃⟩ _
        refine ⟨h₁.exec ⟨fun k hk => mem_cons.mpr (.inl (by simpa using hc.1 hk)), hc.2⟩,
          fun txid hr => (h₂ txid hr).exec hc.2, fun hs => not_stamped_exec (fun hm => ?_) (h₃ hs)⟩
        simpa using hc.1 hm
      refine (hoff.weaken fun _ _ h => h.1).imp fun reply w' ⟨hsound', hrep, hopen⟩ =>
        ⟨fun _ => hsound', fun _ => sound_storeCompound hsound' fun txid ht => ?_⟩
      refine (h txid ht).imp (hrep txid) fun hc => ⟨?_, hopen hc.1, hc.2⟩
      cases finalized with
      | false => rfl
      | true => exact absurd (hfin rfl) hc.1

/-- The leaves that a build must keep, if the delivery builds at all. -/
def BuildsOver (sdk : Sdk H Data) (w : World Data) (callback : CallbackMessage Data) :
    Option (List String) → Prop
  | none => Tables.storedBUMP sdk w.store callback.blockHash = none
  | some leaves => ∃ height new,
    Tables.storedBUMP sdk w.store callback.blockHash = some (height, leaves) ∧
      leavesBeyondStoredBUMP sdk (w.stumps callback) leaves = .ok new ∧
      ¬ (new = [] ∧ retainedMissing (w.expects callback) (w.stumps callback) = [])

/-- The delivery, if nothing fails, ends with a BUMP of the leaves and marks the txids. -/
inductive Finishes (sdk : Sdk H Data) (w : World Data) (callback : CallbackMessage Data) :
    List String → List String → Prop where
  | short {height : Nat} {leaves : List String} :
    Tables.storedBUMP sdk w.store callback.blockHash = some (height, leaves) →
    leavesBeyondStoredBUMP sdk (w.stumps callback) leaves = .ok [] →
    retainedMissing (w.expects callback) (w.stumps callback) = [] →
      Finishes sdk w callback leaves leaves
  | build {stored : Option (List String)} {data : Store.BlockData H Data}
    {compound : Bump.MerklePath H} {txids : List String} :
    BuildsOver sdk w callback stored →
    missingStumpIndices (w.expects callback) (w.stumps callback) = [] →
    w.stumps callback ≠ [] → GivesData sdk callback (w.stumps callback) data →
    buildCompound sdk callback.blockHash stored (w.stumps callback) data = .ok compound txids →
      Finishes sdk w callback (leavesIn sdk (sdk.bytes compound)) txids

/-- The delivery meets a leaf of its BUMP that is not reported while the block is already
stamped, or that it will not mark. -/
def Risky (sdk : Sdk H Data) (w : World Data) (callback : CallbackMessage Data) : Prop :=
  callback.blockHash ≠ "" ∧ ∃ leaves txids, Finishes sdk w callback leaves txids ∧
    ∃ txid ∈ leaves, ¬ Reported callback.blockHash w.store txid ∧
      (Tables.Stamped w.store callback.blockHash ∨ txid ∉ txids)

omit [DecidableEq H] in
theorem givesData_widened {stumps : List (Stump Data)} {data : Store.BlockData H Data} :
    GivesData sdk (widened w.store callback) stumps data ↔ GivesData sdk callback stumps data := by
  rw [GivesData, callbackBlockData_widened]
  rfl

/-- A delivery that is not risky keeps the promise, whatever fails and wherever it dies. -/
theorem sound_handleMessage (hb : callback.blockHash = b) (hsound : StampSound sdk b w)
    (hsafe : ¬ Risky sdk w callback) :
    Keeps (allowingEnv H Data b) (StampSound sdk b) (handleMessage sdk cfg callback) w := by
  by_cases hhash : callback.blockHash = ""
  · unfold handleMessage
    rw [if_pos hhash]
    exact hsound
  have hleaf : ∀ leaves txids, Finishes sdk w callback leaves txids → ∀ txid ∈ leaves,
      Reported b w.store txid ∨ ¬ Tables.Stamped w.store b ∧ txid ∈ txids := by
    intro leaves txids hfin txid ht
    by_contra hno
    rw [not_or, not_and_or, not_not] at hno
    subst hb
    exact hsafe ⟨hhash, leaves, txids, hfin, txid, ht, hno⟩
  have hwide : (widened w.store callback).blockHash = b := by rw [widened_blockHash, hb]
  have hbuild : ∀ stored, BuildsOver sdk w callback stored →
      (w.stumps callback = [] → AllReported sdk b w) →
      Keeps (allowingEnv H Data b) (StampSound sdk b)
        (resolveAndBuild sdk cfg (widened w.store callback) stored) w := by
    intro stored hover hempty
    refine sound_resolveAndBuild hwide hsound (by rwa [stumps_widened]) ?_
    intro data compound txids hm hs hgives hbuilt
    rw [missing_widened] at hm
    rw [stumps_widened] at hs hgives hbuilt
    subst hb
    exact hleaf _ txids (.build hover hm hs (givesData_widened.mp hgives) hbuilt)
  refine always_handleMessage hsound (fun _ _ => hsound) ?_ ?_ ?_
  · intro height leaves hstored hnew hmissing
    have h := hleaf leaves leaves (.short hstored hnew hmissing)
    rw [hb] at hstored ⊢
    exact (sound_shortCircuit (leavesOf_of_storedBUMP hstored) fun txid ht =>
      (h txid ht).imp_right fun hc => hc.1).imp fun _ _ h => ⟨fun _ => h, fun _ _ => h⟩
  · intro hstored
    refine hbuild none hstored fun _ txid ht => ?_
    rw [hb] at hstored
    simp [leavesOf_of_storedBUMP_none hstored] at ht
  · intro height leaves new hstored hnew hno
    refine hbuild (some leaves) ⟨height, new, hstored, hnew, hno⟩ fun hs => ?_
    -- without STUMPs there is nothing to add and nothing counts as missing
    rw [hs] at hnew hno
    cases hnew
    exact absurd ⟨rfl, rfl⟩ hno

end Deliver

/-! ## Deliveries that break it -/

/-- The call neither marks nor announces the txid. -/
def Spares (txid : String) : Call H Data ρ → Prop
  | .setMinedByTxIDs _ _ txids => txid ∉ txids
  | .setStatusByBlockHash _ _ => False
  | .publishBulk event => txid ∉ event.txids
  | _ => True

/-- The stored BUMP proves the txid, whose row was there at the last build or
short-circuit, but it is not reported. -/
structure Exposed (sdk : Sdk H Data) (b txid : String) (w : World Data) : Prop where
  proved : txid ∈ leavesOf sdk b w.store
  noted : txid ∈ w.existing
  unreported : ¬ Reported b w.store txid

section Exposed

variable {sdk : Sdk H Data} {cfg : Config} {b txid : String} {s : Tables Data} {w : World Data}
  {o : Oracle H Data} {c : Call H Data ρ}

theorem Exposed.not_sound (h : Exposed sdk b txid w) (hs : Tables.Stamped w.store b) :
    ¬ StampSound sdk b w := by
  intro hsound
  rcases hsound hs with hnone | hall
  · have hleaf := h.proved
    simp [leavesOf, hnone] at hleaf
  · exact h.unreported (hall txid h.noted h.proved)

theorem mem_keys_of_unreported (h : ¬ Reported b s txid) : txid ∈ s.txs.keys := by
  simp only [Reported, not_forall] at h
  obtain ⟨row, hrow, -⟩ := h
  exact AList.mem_keys.mpr (GoMap.mem_of_lookup hrow)

theorem spares_of_effects (ht : Effect.txs ∉ c.effects) (hp : Effect.published ∉ c.effects) :
    Spares txid c := by
  cases c with
  | setMinedByTxIDs | setStatusByBlockHash => simp [Call.effects] at ht
  | publishBulk => simp [Call.effects] at hp
  | _ => trivial

theorem reported_of_exec (hc : Spares txid c) (h : Reported b (s.exec o c).2 txid) :
    Reported b s txid := by
  have htxs : (s.exec o c).2.txs.lookup txid = s.txs.lookup txid := by
    rcases Store.exec_txs_cases s o c txid with heq | ⟨m, hm, ht, -⟩ | ⟨hr, -⟩
    · exact heq
    · cases c <;> cases hm
      exact absurd ht hc
    · cases c <;> first | exact hc.elim | cases hr
  intro row hrow hne
  obtain ⟨hm, hb, event, hevent, hst, hbl, htx⟩ := h row (htxs.trans hrow) hne
  refine ⟨hm, hb, event, ?_, hst, hbl, htx⟩
  by_cases hp : Effect.published ∈ c.effects
  · cases c with
    | publishBulk e =>
      cases hf : o.fault with
      | some f => simpa [Tables.exec, hf] using hevent
      | none =>
        simp only [Tables.exec, hf, mem_append, mem_singleton] at hevent
        rcases hevent with hin | rfl
        · exact hin
        · exact absurd htx hc
    | _ => simp [Call.effects] at hp
  · rwa [(s.exec_agrees o c).published hp] at hevent

theorem Exposed.exec (h : Exposed sdk b txid w) (hb : Effect.bumps ∉ c.effects)
    (hc : Spares txid c) : Exposed sdk b txid (w.exec o c).2 where
  proved := (leavesOf_exec hb : leavesOf sdk b (w.store.exec o c).2 = _) ▸ h.proved
  noted := by
    cases c with
    | insertBUMP => simp [Call.effects] at hb
    | getHeaderByHeight => exact mem_keys_of_unreported h.unreported
    | _ => exact h.noted
  unreported := fun hr => h.unreported (reported_of_exec hc hr)

theorem Exposed.always {α : Type} {p : Program H Data α} {kinds : List Effect}
    (h : Exposed sdk b txid w) (hp : p.Makes (Within b kinds))
    (hk : Effect.bumps ∉ kinds ∧ Effect.txs ∉ kinds ∧ Effect.published ∉ kinds) :
    Keeps (allowingEnv H Data b) (Exposed sdk b txid) p w :=
  Always.of_makes (fun _ _ _ _ hc hw _ => hw.exec (fun hm => hk.1 (hc.1 hm))
    (spares_of_effects (fun hm => hk.2.1 (hc.1 hm)) fun hm => hk.2.2 (hc.1 hm))) hp h

theorem makes_publishAll_spares {events : List Store.BulkEvent}
    (h : ∀ event ∈ events, txid ∉ event.txids) :
    (publishAll events : Program H Data Bool).Makes
      (fun _ c => Effect.bumps ∉ c.effects ∧ Spares txid c) := by
  induction events with
  | nil => simp [publishAll]
  | cons event rest ih =>
    refine .bind ?_ fun _ => .bind (ih fun e he => h e (by simp [he]))
      fun _ => by simp
    simpa [Call.effects, Spares] using h event

theorem Exposed.markMinedAndPublish {txids : List String} (h : Exposed sdk b txid w)
    (hno : txid ∉ txids) (height : Nat) (onlyChanged : Bool) :
    Keeps (allowingEnv H Data b) (Exposed sdk b txid)
      (markMinedAndPublish b height txids onlyChanged) w := by
  refine (always_bind w).mpr ((always_bind w).mpr (always_exec fun o _ => ?_))
  have h₁ : Exposed sdk b txid (w.exec o (.setMinedByTxIDs b height txids)).2 :=
    h.exec (by simp [Call.effects]) hno
  refine ⟨h₁, ?_⟩
  have hrows : txid ∉ (w.exec o (.setMinedByTxIDs b height txids)).1.rows.map (·.1) := by
    intro hm
    have hin := (Store.mem_setMinedByTxIDs.mp hm).1
    cases hf : o.fault with
    | none => exact hno (by simpa [Tables.reached, hf] using hin)
    | some f => exact hno (mem_of_mem_take (by simpa [Tables.reached, hf] using hin))
  generalize (w.exec o (.setMinedByTxIDs b height txids)).1 = mined at hrows
  generalize (w.exec o (.setMinedByTxIDs b height txids)).2 = w₁ at h₁
  have hpub : ∀ rows : List (String × Store.TxRow), rows ⊆ mined.rows →
      Keeps (allowingEnv H Data b) (Exposed sdk b txid)
        (publishAll ((bulkChunks (rows.map (·.1))).map fun chunk =>
          (⟨.mined, b, height, chunk, ""⟩ : Store.BulkEvent))) w₁ := by
    intro rows hsub
    refine Always.of_makes (fun _ _ _ _ hc hw _ => hw.exec hc.1 hc.2)
      (makes_publishAll_spares fun event he htx => ?_) h₁
    obtain ⟨chunk, hchunk, rfl⟩ := mem_map.mp he
    exact hrows (map_subset _ hsub (subset_of_mem_slices hchunk htx))
  split
  · exact h₁
  · refine (hpub _ ?_).bind fun _ _ hw => hw
    split
    · exact fun _ hm => mem_of_mem_filter hm
    · exact fun _ hm => hm

theorem Exposed.anchorCompound {finalized rebuild : Bool} {outcome : Outcome} {height : Nat}
    {txids : List String} (h : Exposed sdk b txid w) (hno : txid ∉ txids) :
    Keeps (allowingEnv H Data b) (Exposed sdk b txid)
      (anchorCompound cfg b finalized rebuild outcome height txids) w := by
  refine (h.always (makes_anchorDecision cfg b height) (by decide)).bind fun verdict w₁ h₁ => ?_
  cases verdict with
  | deny =>
    exact (h₁.always (makes_handleAnchorDenied b height) (by decide)).bind fun _ _ hw => hw
  | allow =>
    have hmine : Keeps (allowingEnv H Data b) (Exposed sdk b txid)
        (mineTxids b height txids (pure finalized)) w₁ := by
      unfold mineTxids
      split
      · exact h₁
      · exact h₁.markMinedAndPublish hno height finalized
    refine hmine.bind fun done w₂ h₂ => ?_
    split
    · exact (h₂.always (makes_markBlockProcessed b height) (by decide)).bind fun _ _ hw => hw
    · exact h₂

end Exposed

section Broken

variable {sdk : Sdk H Data} {cfg : Config} {b txid : String} {w : World Data}
  {callback : CallbackMessage Data} {o : Oracle H Data}

/-- Every call succeeds, no chain header is known and the datahub gives this reply. -/
def answering (blockData : Except String (Store.BlockData H Data)) : Oracle H Data where
  now := 1
  fault := none
  unread := []
  header := .ok none
  blockData := blockData
  waited := true
  rank := fun _ => 0

theorem smooth_answering (blockData : Except String (Store.BlockData H Data)) :
    Smooth (answering blockData) :=
  ⟨(by decide : (1 : Int64) ≠ 0), rfl, rfl⟩

theorem Smooth.allows (h : Smooth o) : ∀ active, o.header = .ok (some active) → active = b := by
  intro active hactive
  rw [h.headless] at hactive
  cases hactive

theorem runs_blockFinalized_unread (h : Smooth o) :
    Runs (allowingEnv H Data b) (blockFinalized b) w (some false) w := by
  have hread : Runs (allowingEnv H Data b) (send (.getBlockProcessingStatus b) : Program H Data _) w
      (some (.error (.failed ""))) w :=
    .call { o with fault := some ⟨"", 0⟩ } h.allows (.done _ _)
  exact hread.bind (.done _ _)

def withCompound (sdk : Sdk H Data) (b : String) (o : Oracle H Data)
    (compound : Bump.MerklePath H) (w : World Data) : World Data :=
  ((w.exec o (.markBlockBUMPBuilt b compound.blockHeight)).2.exec o
    (.insertBUMP b compound.blockHeight (sdk.bytes compound))).2

theorem runs_storeCompound (h : Smooth o) {compound : Bump.MerklePath H} {txids : List String}
    {finalized rebuild : Bool} {outcome : Outcome} {out : Option Handled} {w' : World Data}
    (hrun : Runs (allowingEnv H Data b) (anchorCompound cfg b finalized rebuild outcome
      compound.blockHeight txids) (withCompound sdk b o compound w) out w') :
    Runs (allowingEnv H Data b)
      (storeCompound sdk cfg b finalized rebuild outcome compound txids) w out w' := by
  have hwrite : ∀ {w : World Data} {c : Call H Data (Store.Result Unit)}, (w.exec o c).1 = .ok () →
      Runs (allowingEnv H Data b) (send c) w (some (.ok ())) (w.exec o c).2 := by
    intro w c hok
    rw [← hok]
    exact Runs.send o h.allows
  have hmark := hwrite (w := w) (c := .markBlockBUMPBuilt b compound.blockHeight)
    (by simp [World.exec, Tables.exec, h.answers, Tables.write])
  have hins := hwrite (w := (w.exec o (.markBlockBUMPBuilt b compound.blockHeight)).2)
    (c := .insertBUMP b compound.blockHeight (sdk.bytes compound))
    (by simp [World.exec, Tables.exec, h.answers, Tables.write])
  exact hmark.bind (hins.bind hrun)

theorem exposed_withCompound (h : Smooth o) {compound : Bump.MerklePath H}
    (hleaf : txid ∈ leavesIn sdk (sdk.bytes compound)) (hno : ¬ Reported b w.store txid) :
    Exposed sdk b txid (withCompound sdk b o compound w) := by
  have hmark : ¬ Reported b (w.exec o (.markBlockBUMPBuilt b compound.blockHeight)).2.store txid :=
    fun hr => hno (reported_of_exec (c := .markBlockBUMPBuilt b compound.blockHeight)
      (by simp [Spares]) hr)
  unfold withCompound
  rw [exec_insertBUMP, if_pos (by simp [World.landed, h.answers])]
  exact ⟨by simpa [leavesOf] using hleaf, mem_keys_of_unreported hmark, hmark⟩

theorem stamped_withCompound {compound : Bump.MerklePath H} (hs : Tables.Stamped w.store b) :
    Tables.Stamped (withCompound sdk b o compound w).store b := by
  have hmark : Tables.Stamped (w.exec o (.markBlockBUMPBuilt b compound.blockHeight)).2.store b := by
    refine Tables.exec_lookup (P := fun row => ∃ r, row = some r ∧ r.processed ≠ 0) hs ?_
    rintro _ ⟨row, rfl, hp⟩
    exact ⟨{ row with bumpBuilt := o.now }, by simp [Call.rowWrite, Store.markBlockBUMPBuilt], hp⟩
  exact Tables.exec_lookup (P := fun row => ∃ r, row = some r ∧ r.processed ≠ 0) hmark
    fun _ h => h

/-- A risky delivery can end with a stamp that does not hold: it dies as soon as it has come
to its BUMP, or, if the block has no stamp yet, it runs to its end. -/
theorem Risky.broken [DecidableEq H] (h : Risky sdk w callback) (cfg : Config) :
    ∃ out w', Runs (allowingEnv H Data callback.blockHash) (handleMessage sdk cfg callback) w out w' ∧
      ¬ StampSound sdk callback.blockHash w' := by
  obtain ⟨hhash, leaves, txids, hfin, txid, ht, hno, hcase⟩ := h
  cases hfin with
  | short hstored hnew hmissing =>
    have hsm := smooth_answering (.error "" : Except String (Store.BlockData H Data))
    have hs := hcase.resolve_right (not_not.mpr ht)
    have hexposed : Exposed sdk callback.blockHash txid { w with existing := w.store.txs.keys } :=
      ⟨leavesOf_of_storedBUMP hstored ▸ ht, mem_keys_of_unreported hno, hno⟩
    rename_i height
    have hlook : Runs (allowingEnv H Data callback.blockHash)
        (send (.getHeaderByHeight height) : Program H Data _) w none
        { w with existing := w.store.txs.keys } :=
      .call _ hsm.allows (.died _ _)
    exact ⟨none, _, runs_handleMessage_short (fun _ _ => hsm.allows) rfl hhash hstored hnew hmissing
      hlook.bind_died.bind_died, hexposed.not_sound hs⟩
  | build hover hm hstumps hgives hbuilt =>
    rename_i stored data compound
    have hsm := smooth_answering (.ok data)
    have hexposed := exposed_withCompound hsm ht hno
    have hdeliver : ∀ out w', Runs (allowingEnv H Data callback.blockHash) (resolveAndBuild sdk cfg
        (widened w.store callback) stored) w out w' → Runs (allowingEnv H Data callback.blockHash)
          (handleMessage sdk cfg callback) w out w' := by
      intro out w' hrun
      cases stored with
      | none => exact runs_handleMessage_fresh (fun _ _ => hsm.allows) rfl hhash hover hrun
      | some leaves =>
        obtain ⟨height, new, hstored, hnew, hne⟩ := hover
        exact runs_handleMessage_rebuild (fun _ _ => hsm.allows) rfl hhash hstored hnew hne hrun
    obtain ⟨outcome, hrun⟩ := runs_resolveAndBuild_build (fun _ _ => hsm.allows) rfl cfg
      (widened w.store callback) stored rfl
      (runs_blockFinalized_unread hsm) (by rwa [missing_widened]) (by rwa [stumps_widened]) rfl
      (givesData_widened.mpr (by rwa [stumps_widened])) (by rwa [stumps_widened, widened_blockHash])
    rw [widened_blockHash] at hrun
    rcases hcase with hs | hout
    · exact ⟨none, _, hdeliver _ _ (hrun _ _ (runs_storeCompound hsm (.died _ _))),
        hexposed.not_sound (stamped_withCompound hs)⟩
    · have hrest := runs_runWith (E := allowingEnv H Data callback.blockHash)
        (fun _ _ _ => hsm.allows) (anchorCompound cfg callback.blockHash false
        stored.isSome outcome compound.blockHeight txids)
        (withCompound sdk callback.blockHash (answering (.ok data)) compound w)
      refine ⟨_, _, hdeliver _ _ (hrun _ _ (runs_storeCompound hsm hrest)), ?_⟩
      exact ((hexposed.anchorCompound hout).run hexposed hrest).not_sound
        (hsm.stamped_anchorCompound _ _ _ _ _ _)

end Broken

/-! ## Every sequence of deliveries -/

section Sequences

variable [DecidableEq H] {sdk : Sdk H Data} {cfg : Config} {b : String} {w w' : World Data}

/-- What was noted as a row is one. -/
def Noted (w : World Data) : Prop := ∀ txid ∈ w.existing, w.store.txs.lookup txid ≠ none

omit [DecidableEq H] in
theorem Noted.exec (h : Noted w) (o : Oracle H Data) (c : Call H Data ρ) :
    Noted (w.exec o c).2 := by
  have hkeys : ∀ txid ∈ w.store.txs.keys, w.store.txs.lookup txid ≠ none := by
    intro txid ht
    obtain ⟨row, hrow⟩ := (GoMap.mem_iff_lookup _ _).mp (AList.mem_keys.mp ht)
    simp [hrow]
  intro txid ht
  apply Store.exec_txs_ne_none
  cases c with
  | insertBUMP hash height bumpData =>
    simp only [World.exec, World.existingAfter] at ht
    split at ht
    · exact hkeys txid ht
    · exact h txid ht
  | getHeaderByHeight height => exact hkeys txid ht
  | _ => exact h txid ht

theorem Noted.step {e : BlockEvent Data} (h : Noted w)
    (hstep : BlockStep (allowingEnv H Data b) sdk cfg true b e w w') : Noted w' := by
  cases e with
  | deliver callback =>
    obtain ⟨out, -, hrun⟩ := hstep
    have halways : Keeps (allowingEnv H Data b) Noted
        (handleMessage sdk cfg { callback with blockHash := b }) w :=
      Always.of_makes (S := fun _ _ => True) (fun _ c o _ _ hs _ => hs.exec o c) Prog.makes_any h
    exact halways.run h hrun
  | insertTx txid row =>
    obtain rfl := hstep
    intro txid' ht
    simp only [BlockEvent.write]
    split
    · exact h txid' ht
    · rw [GoMap.lookup_insert_eq]
      split
      · simp
      · exact h txid' ht
  | _ =>
    obtain rfl := hstep
    exact h

omit [DecidableEq H] in
theorem StampSound.between (h : StampSound sdk b w) (hnoted : Noted w) (e : BlockEvent Data) :
    StampSound sdk b { w with store := e.write b w.store } := by
  cases e with
  | insertTx txid row =>
    simp only [BlockEvent.write]
    split
    · exact h
    · rename_i hnone
      refine fun hs => (h hs).imp_right fun hall txid' ht hleaf row' hrow' => ?_
      have hne : txid' ≠ txid := by
        rintro rfl
        exact hnoted txid' ht hnone
      rw [GoMap.lookup_insert_eq, if_neg hne] at hrow'
      exact hall txid' ht hleaf row' hrow'
  | _ => exact h

/-- The stamp is sound at every moment between deliveries, whatever fails and wherever a
delivery dies, exactly when no delivery is made in a state in which it is risky. -/
theorem stamp_sound_iff (sdk : Sdk H Data) (cfg : Config) (b : String) (s : Tables Data)
    (es : List (BlockEvent Data)) :
    (∀ es₁ es₂ w, es = es₁ ++ es₂ →
        Reaches (BlockStep (allowingEnv H Data b) sdk cfg true b) ⟨s, [], []⟩ es₁ w →
          StampSound sdk b w) ↔
      ∀ es₁ callback es₂ w, es = es₁ ++ .deliver callback :: es₂ →
        Reaches (BlockStep (allowingEnv H Data b) sdk cfg true b) ⟨s, [], []⟩ es₁ w →
          ¬ Risky sdk w { callback with blockHash := b } := by
  have hiff := reaches_iff (J := Noted) (P := StampSound sdk b)
    (C := fun w e => ∀ callback, e = .deliver callback →
      ¬ Risky sdk w { callback with blockHash := b })
    (fun w w' e h (hs : BlockStep (allowingEnv H Data b) sdk cfg true b e w w') => h.step hs) ?_ (s := ⟨s, [], []⟩) nofun (fun _ => .inr nofun) es
  · rw [hiff]
    constructor
    · intro h es₁ callback es₂ w heq hr
      exact h es₁ _ es₂ w heq hr callback rfl
    · rintro h es₁ _ es₂ w heq hr callback rfl
      exact h es₁ callback es₂ w heq hr
  · intro w e hnoted hsound
    constructor
    · rintro h callback rfl hrisky
      obtain ⟨out, w', hrun, hbad⟩ := hrisky.broken cfg
      exact hbad (h w' ⟨out, rfl, hrun⟩)
    · intro h w' hstep
      cases e with
      | deliver callback =>
        obtain ⟨out, -, hrun⟩ := hstep
        exact (sound_handleMessage rfl hsound (h callback rfl)).run hsound hrun
      | insertStump | pruneStumps | insertTx =>
        obtain rfl := hstep
        exact hsound.between hnoted _

end Sequences

/-! A block of a coinbase and one transaction. Its first delivery comes before its only STUMP,
announces nothing and stamps it as an empty block. -/

section EmptyStamp

open Bump (Bits BitsData MerklePath referenceSdk)

def coinbaseBUMP : MerklePath Bits :=
  ⟨7, [[⟨0, some [true], false, false⟩, ⟨1, some [true, true], false, false⟩]]⟩

def lateStump : Stump BitsData :=
  ⟨0, some ⟨7, [[⟨0, some [], false, false⟩, ⟨1, some [true, true], true, false⟩]]⟩⟩

def announcement (expected : List Nat) : CallbackMessage BitsData :=
  ⟨"b", expected, "10111", ["10111"], 1, some coinbaseBUMP⟩

def seenRow : Store.TxRow := ⟨.seenOnNetwork, "", 0, "", [], 0, 0, "", []⟩

/-- The transaction has a row, and nothing is known of the block. -/
def onlySeen : Tables BitsData := ⟨∅, ∅, ∅, ∅, AList.singleton "11" seenRow, []⟩

/-- The world after the first delivery and the STUMP. -/
def stampedEmpty : World BitsData :=
  let w := ((handleMessage referenceSdk ⟨false, true⟩ (announcement [])).runWith
    (allowingEnv Bits _ "b") (answering (.error "")) ⟨onlySeen, [], []⟩).2
  { w with store := (BlockEvent.insertStump 0 lateStump).write "b" w.store }

/-- The second delivery dies when it has stored the BUMP, its sixth call. -/
def diedBuilding : Option Handled × World BitsData :=
  (handleMessage referenceSdk ⟨false, true⟩ (announcement [0])).play (allowingEnv Bits _ "b")
    (List.replicate 6 (answering (.error ""))) stampedEmpty

theorem exposed_diedBuilding : Exposed referenceSdk "b" "11" diedBuilding.2 where
  proved := by decide +kernel
  noted := by decide +kernel
  unreported h := by
    have hrow : diedBuilding.2.store.txs.lookup "11" = some seenRow := by decide +kernel
    exact absurd (h seenRow hrow (by decide)).1 (by decide)

end EmptyStamp

/-- The build of a block that was stamped as empty dies between `InsertBUMP` and
`SetMinedByTxIDs`, and the stamp stands over a BUMP whose transaction is not mined. -/
theorem empty_stamp_outlives_build :
    ∃ w, Reaches (BlockStep (allowingEnv Bump.Bits _ "b") Bump.referenceSdk ⟨false, true⟩ true "b")
        ⟨onlySeen, [], []⟩ [.deliver (announcement []), .insertStump 0 lateStump,
          .deliver (announcement [0])] w ∧
      ¬ StampSound Bump.referenceSdk "b" w := by
  have hallow := (smooth_answering (.error "" : Except String
    (Store.BlockData Bump.Bits (Option (Bump.MerklePath Bump.Bits))))).allows (b := "b")
  refine ⟨diedBuilding.2, ?_, exposed_diedBuilding.not_sound
    ⟨⟨0, 1, 1, 1, .active, 0, 0⟩, by decide +kernel, by decide⟩⟩
  refine .step ⟨_, rfl, runs_runWith (fun _ _ _ => hallow) _ _⟩ (.step rfl (.step
    ⟨_, rfl, runs_play ?_ _ _⟩ (.refl _)))
  intro o ho _ _ _
  rw [eq_of_mem_replicate ho]
  exact hallow

end Arcade.Builder
