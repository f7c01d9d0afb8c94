import Arcade.Builder.Block
import Arcade.Lib.Slices
import Arcade.Store.Mined

/-!
What the `processed_at` stamp promises: every transaction that the stored BUMP
proves and that had a row at the last build or short-circuit is MINED in the block and
announced. Any call may fail here; the anchor guard always allows the block.

A transaction that was reported stays so, whatever a delivery does. So a stamp is
sound as long as it is set only over a BUMP whose transactions are all reported.
-/

namespace Arcade.Builder

open Lib List
open Bump (Sdk Stump)
open Store (Program Call Tables Oracle Effect MinedAt)
open Prog (send)

variable {H Data ρ : Type}

/-- Any failure is open, but no chain header names another block. -/
def Allows (b : String) {ρ : Type} (_ : World Data) (_ : Call H Data ρ) (o : Oracle H Data) :
    Prop :=
  ∀ active, o.header = .ok (some active) → active = b

abbrev allowingEnv (H Data : Type) (b : String) : Env (Call H Data) (Oracle H Data) (World Data) :=
  builderEnv (Allows b)

/-! ## The promise -/

/-- A MINED event for the block that names the txid was published. -/
def Announced (b : String) (s : Tables Data) (txid : String) : Prop :=
  ∃ event ∈ s.published, event.status = .mined ∧ event.blockHash = b ∧ txid ∈ event.txids

/-- The row of the txid, unless it is missing or IMMUTABLE, is MINED in the block and
announced. -/
def Reported (b : String) (s : Tables Data) (txid : String) : Prop :=
  ∀ row, s.txs.lookup txid = some row → row.status ≠ .immutable →
    row.status = .mined ∧ row.blockHash = b ∧ Announced b s txid

section Promise

variable (sdk : Sdk H Data) (b : String)

/-- The level-0 set of a BUMP; bytes that do not parse have none. -/
def leavesIn (bumpData : Data) : List String :=
  if sdk.isEmpty bumpData then [] else (levelZeroTxidsFromBUMP sdk bumpData).toOption.getD []

/-- The level-0 set of the stored BUMP. -/
def leavesOf (s : Tables Data) : List String :=
  match s.bumps.lookup b with
  | none => []
  | some bump => leavesIn sdk bump.2

/-- If the block is stamped, no BUMP is stored for it, or the rows there were at the last
build or short-circuit are reported as far as the BUMP proves them. -/
def StampSound (w : World Data) : Prop :=
  Tables.Stamped w.store b → w.store.bumps.lookup b = none ∨
    ∀ txid ∈ w.existing, txid ∈ leavesOf sdk b w.store → Reported b w.store txid

/-- Everything that the stored BUMP proves is reported. -/
def AllReported (w : World Data) : Prop :=
  ∀ txid ∈ leavesOf sdk b w.store, Reported b w.store txid

end Promise

section Frames

variable {sdk : Sdk H Data} {b txid : String} {s : Tables Data} {w : World Data}
  {o : Oracle H Data} {c : Call H Data ρ} {kinds : List Effect}

theorem leavesOf_of_storedBUMP {height : Nat} {leaves : List String}
    (h : Tables.storedBUMP sdk s b = some (height, leaves)) : leavesOf sdk b s = leaves := by
  unfold Tables.storedBUMP at h
  unfold leavesOf
  cases hb : s.bumps.lookup b with
  | none => simp [hb] at h
  | some bump =>
    simp only [hb, Option.bind_some] at h
    split at h
    · cases h
    · rename_i he
      obtain ⟨txids, ht, heq⟩ := Option.map_eq_some_iff.mp h
      cases heq
      simp [leavesIn, he, ht]

theorem leavesOf_of_storedBUMP_none (h : Tables.storedBUMP sdk s b = none) :
    leavesOf sdk b s = [] := by
  unfold Tables.storedBUMP at h
  unfold leavesOf
  cases hb : s.bumps.lookup b with
  | none => rfl
  | some bump =>
    simp only [hb, Option.bind_some] at h
    split at h
    · simp [leavesIn, *]
    · simp only [Option.map_eq_none_iff] at h
      simp [leavesIn, h]

theorem mem_published_exec {event : Store.BulkEvent} (h : event ∈ s.published) :
    event ∈ (s.exec o c).2.published := by
  by_cases hp : Effect.published ∈ c.effects
  · cases c with
    | publishBulk e =>
      simp only [Tables.exec]
      split
      · exact mem_append_left _ h
      · exact h
    | _ => simp [Call.effects] at hp
  · rwa [(s.exec_agrees o c).published hp]

theorem Announced.exec (h : Announced b s txid) : Announced b (s.exec o c).2 txid := by
  obtain ⟨event, hevent, hrest⟩ := h
  exact ⟨event, mem_published_exec hevent, hrest⟩

theorem reported_iff : Reported b s txid ↔ MinedAt b s.txs txid ∧
    ((∃ row, s.txs.lookup txid = some row ∧ row.status ≠ .immutable) → Announced b s txid) := by
  constructor
  · intro h
    refine ⟨fun row hrow hne => ⟨(h row hrow hne).1, (h row hrow hne).2.1⟩, ?_⟩
    rintro ⟨row, hrow, hne⟩
    exact (h row hrow hne).2.2
  · rintro ⟨hm, ha⟩ row hrow hne
    exact ⟨(hm row hrow hne).1, (hm row hrow hne).2, ha ⟨row, hrow, hne⟩⟩

theorem MinesOnly.txs (hc : MinesOnly b c) (txid : String) :
    (s.exec o c).2.txs.lookup txid = s.txs.lookup txid ∨ ∃ height,
      (s.exec o c).2.txs.lookup txid = (s.txs.lookup txid).map (Store.minedRow b height) := by
  have hreverts : c.reverts = false := by
    cases c with
    | setStatusByBlockHash => exact hc.elim
    | _ => rfl
  refine (Store.exec_txs_of_not_reverts hreverts txid).imp id ?_
  rintro ⟨m, hm, -, height, heq⟩
  cases c <;> cases hm
  obtain rfl := hc
  exact ⟨height, heq⟩

/-- A row that can still change after it was marked could do so before. -/
theorem open_of_minesOnly (hc : MinesOnly b c)
    (h : ∃ row, (s.exec o c).2.txs.lookup txid = some row ∧ row.status ≠ .immutable) :
    ∃ row, s.txs.lookup txid = some row ∧ row.status ≠ .immutable := by
  obtain ⟨row, hrow, hne⟩ := h
  rcases hc.txs txid with heq | ⟨height, heq⟩
  · exact ⟨row, heq.symm.trans hrow, hne⟩
  · obtain ⟨prev, hprev, rfl⟩ := Option.map_eq_some_iff.mp (heq.symm.trans hrow)
    refine ⟨prev, hprev, fun hi => hne ?_⟩
    rwa [Store.minedRow_immutable hi]

theorem minedAt_exec (hc : MinesOnly b c) (h : MinedAt b s.txs txid) :
    MinedAt b (s.exec o c).2.txs txid := by
  intro row hrow hne
  rcases hc.txs txid with heq | ⟨height, heq⟩
  · exact h row (heq.symm.trans hrow) hne
  · obtain ⟨prev, -, rfl⟩ := Option.map_eq_some_iff.mp (heq.symm.trans hrow)
    exact Store.minedRow_mined b height fun hi => hne (by rwa [Store.minedRow_immutable hi])

theorem Reported.exec (h : Reported b s txid) (hc : MinesOnly b c) :
    Reported b (s.exec o c).2 txid := by
  rw [reported_iff] at h ⊢
  exact ⟨minedAt_exec hc h.1, fun hrow => (h.2 (open_of_minesOnly hc hrow)).exec⟩

theorem not_stamped_iff : ¬ Tables.Stamped s b ↔ ∀ row ∈ s.blocks.lookup b, row.processed = 0 := by
  simp only [Tables.Stamped, not_exists, not_and, not_not, Option.mem_def]

theorem processed_casOrphan {token : Option Int64} {write : Store.BlockRow → Store.BlockRow}
    {prev : Store.BlockRow} (h : (write prev).processed = prev.processed) :
    ((Store.casOrphan token write prev).getD prev).processed = prev.processed := by
  unfold Store.casOrphan
  split
  · exact h
  · rfl

theorem rowWrite_processed {row : Option Store.BlockRow} (hc : Effect.stamp ∉ c.effects)
    (h : ∀ r ∈ row, r.processed = 0) : ∀ r ∈ c.rowWrite o b row, r.processed = 0 := by
  have hmap : ∀ f : Store.BlockRow → Store.BlockRow,
      (∀ prev, prev.processed = 0 → (f prev).processed = 0) →
      ∀ r ∈ row.map f, r.processed = 0 := by
    intro f hf r hr
    obtain ⟨prev, hprev, rfl⟩ := Option.map_eq_some_iff.mp hr
    exact hf prev (h prev hprev)
  cases c with
  | markBlockProcessed => simp [Call.effects] at hc
  | markBlockBUMPBuilt hash height =>
    simp only [Call.rowWrite]
    split
    · rintro r ⟨⟩
      cases row with
      | none => rfl
      | some prev => exact h prev rfl
    · exact h
  | clearBlockProcessed hash =>
    simp only [Call.rowWrite]
    split
    · exact hmap _ fun _ _ => rfl
    · exact h
  | markBlocksOrphaned hashes =>
    simp only [Call.rowWrite]
    split
    · refine hmap _ fun prev hp => ?_
      unfold Store.markOrphaned
      split <;> exact hp
    · exact h
  | markBlockReconciled | requeueOrphanedBlock | reactivateBlock =>
    simp only [Call.rowWrite]
    split
    · refine hmap _ fun prev hp => ?_
      rw [← hp]
      exact processed_casOrphan rfl
    · exact h
  | _ => exact h

theorem not_stamped_exec (hc : Effect.stamp ∉ c.effects) (h : ¬ Tables.Stamped s b) :
    ¬ Tables.Stamped (s.exec o c).2 b := by
  rw [not_stamped_iff] at h ⊢
  exact Tables.exec_lookup (P := fun row => ∀ r ∈ row, r.processed = 0) h
    fun _ hr => rowWrite_processed hc hr

theorem leavesOf_exec (hc : Effect.bumps ∉ c.effects) :
    leavesOf sdk b (s.exec o c).2 = leavesOf sdk b s := by
  unfold leavesOf
  rw [(s.exec_agrees o c).bumps hc]

theorem existing_exec (hc : Effect.bumps ∉ c.effects) (hc' : Effect.headers ∉ c.effects) :
    (w.exec o c).2.existing = w.existing := by
  cases c with
  | insertBUMP => simp [Call.effects] at hc
  | getHeaderByHeight => simp [Call.effects] at hc'
  | _ => rfl

theorem AllReported.exec (h : AllReported sdk b w) (hc : MinesOnly b c)
    (hc' : Effect.bumps ∉ c.effects) : AllReported sdk b (w.exec o c).2 := by
  intro txid ht
  rw [World.exec, leavesOf_exec hc'] at ht
  exact (h txid ht).exec hc

theorem AllReported.sound (h : AllReported sdk b w) : StampSound sdk b w :=
  fun _ => .inr fun txid _ ht => h txid ht

theorem StampSound.exec (h : StampSound sdk b w) (hc : Within b [.blocks, .expected] ρ c) :
    StampSound sdk b (w.exec o c).2 := by
  have hout : ∀ k, k ∉ [Effect.blocks, .expected] → k ∉ c.effects := fun k hk hm => hk (hc.1 hm)
  intro hs
  have hbefore : Tables.Stamped w.store b := by
    by_contra hno
    exact not_stamped_exec (hout _ (by decide)) hno hs
  rcases h hbefore with hnone | hall
  · left
    rwa [World.exec, (w.store.exec_agrees o c).bumps (hout _ (by decide))]
  · right
    intro txid ht hleaf
    rw [existing_exec (hout _ (by decide)) (hout _ (by decide))] at ht
    rw [World.exec, leavesOf_exec (hout _ (by decide))] at hleaf
    exact (hall txid ht hleaf).exec hc.2

theorem sound_of_not_stamped (h : ¬ Tables.Stamped w.store b) : StampSound sdk b w :=
  fun hs => absurd hs h

end Frames

/-! ## Marking MINED -/

section Mining

variable {sdk : Sdk H Data} {b : String} {w : World Data}

theorem always_publishAll (events : List Store.BulkEvent) : Yields (allowingEnv H Data b)
      (fun failed w' => failed = false → ∀ event ∈ events, event ∈ w'.store.published)
      (publishAll events) w := by
  induction events generalizing w with
  | nil => exact fun _ _ h => absurd h not_mem_nil
  | cons event rest ih =>
    refine (always_bind w).mpr (always_exec fun o _ => ⟨trivial, ?_⟩)
    have hkept : Keeps (allowingEnv H Data b)
        (fun w' => event ∈ (w.exec o (.publishBulk event)).2.store.published →
          event ∈ w'.store.published) (publishAll rest) (w.exec o (.publishBulk event)).2 :=
      Always.of_makes (fun _ _ _ _ _ h _ hm => mem_published_exec (h hm)) Prog.makes_any fun h => h
    refine ((ih.and hkept).weaken fun _ _ _ => trivial).bind fun failed w' ⟨hrest, hkeep⟩ => ?_
    intro hfailed e he
    rw [Bool.or_eq_false_iff] at hfailed
    rcases mem_cons.mp he with rfl | he
    · apply hkeep
      cases hf : o.fault with
      | none => simp [World.exec, Tables.exec, hf]
      | some f => simp [World.exec, Tables.exec, hf, Except.toOption] at hfailed
    · exact hrest hfailed.1 e he

theorem mem_bulkChunks {txid : String} {txids : List String} (h : txid ∈ txids) :
    ∃ chunk ∈ bulkChunks txids, txid ∈ chunk :=
  exists_mem_slices (by decide : 0 < maxTxIDsPerBulkEvent) h

theorem always_markMinedAndPublish (height : Nat) (txids : List String) :
    Yields (allowingEnv H Data b)
      (fun done w' => done = true → ∀ txid ∈ txids, Reported b w'.store txid)
      (markMinedAndPublish b height txids false) w := by
  refine (always_bind w).mpr ((always_bind w).mpr (always_exec fun o _ => ⟨trivial, ?_⟩))
  have hreply : (w.exec o (.setMinedByTxIDs b height txids)).1 =
      ⟨(Store.setMinedByTxIDs b height (Tables.reached o.fault txids) w.store.txs).2,
        o.fault.map Store.Fault.text⟩ := rfl
  rw [hreply]
  cases hf : o.fault with
  | some f =>
    split
    · simp
    · exact (always_of_forall (fun _ _ => trivial) (fun _ _ => trivial) _ _).bind fun _ _ _ => by simp
  | none =>
    set w₁ := (w.exec o (.setMinedByTxIDs b height txids)).2 with hw₁
    have htxs : w₁.store.txs = (Store.setMinedByTxIDs b height txids w.store.txs).1 := by
      simp [hw₁, World.exec, Tables.exec, Tables.reached, hf]
    have hsame : ∀ events, Keeps (allowingEnv H Data b) (fun w' => w'.store.txs = w₁.store.txs)
        (publishAll events) w₁ := by
      refine fun events => Always.of_makes ?_ (makes_publishAll (b := b) events) rfl
      intro ρ c o w' hc hw' _
      have hno : Effect.txs ∉ c.effects := fun hm => by simpa using hc.1 hm
      exact ((w'.store.exec_agrees o c).txs hno).trans hw'
    refine (((always_publishAll _).and (hsame _)).weaken fun _ _ _ => trivial).bind ?_
    rintro failed w' ⟨hout, hw'⟩ hdone txid ht
    have hfailed : failed = false := by simpa using hdone
    rw [reported_iff, hw']
    refine ⟨htxs ▸ Store.minedAt_setMinedByTxIDs ht, fun hrow => ?_⟩
    have hc : MinesOnly b (Call.setMinedByTxIDs b height txids : Call H Data _) := rfl
    have hmem : txid ∈ (Store.setMinedByTxIDs b height txids w.store.txs).2.map (·.1) :=
      Store.mem_setMinedByTxIDs.mpr ⟨ht, open_of_minesOnly hc hrow⟩
    obtain ⟨chunk, hchunk, htc⟩ := mem_bulkChunks hmem
    exact ⟨⟨.mined, b, height, chunk, ""⟩, hout hfailed _ (mem_map_of_mem hchunk), rfl, rfl, htc⟩

/-- A block without its stamp keeps none while its txids are marked, and if all of it
succeeds, everything that the BUMP proves is reported. -/
theorem always_mineTxids {txids : List String} {finalized : Program H Data Bool} (height : Nat)
    (hs : ¬ Tables.Stamped w.store b)
    (hfin : Always (allowingEnv H Data b) (fun _ w' => w' = w) (fun f w' => w' = w ∧ f = false)
      finalized w)
    (hleaves : ∀ txid ∈ leavesOf sdk b w.store, Reported b w.store txid ∨ txid ∈ txids) :
    Always (allowingEnv H Data b) (fun _ w' => ¬ Tables.Stamped w'.store b)
      (fun done w' => ¬ Tables.Stamped w'.store b ∧ (done = true → AllReported sdk b w'))
      (mineTxids b height txids finalized) w := by
  unfold mineTxids
  split
  · rename_i ht
    refine ⟨hs, fun _ txid hl => (hleaves txid hl).resolve_right ?_⟩
    simp [ht]
  · refine (hfin.weaken ?_).bind ?_
    · rintro _ _ rfl
      exact hs
    · rintro f w₁ ⟨hw, rfl⟩
      rw [hw]
      -- the leaves are those from before, and what was reported still is
      have hkept : Keeps (allowingEnv H Data b)
          (fun w' => ¬ Tables.Stamped w'.store b ∧ leavesOf sdk b w'.store = leavesOf sdk b w.store ∧
            ∀ txid, Reported b w.store txid → Reported b w'.store txid)
          (markMinedAndPublish b height txids false) w := by
        refine Always.of_makes ?_ (makes_markMinedAndPublish height txids false)
          ⟨hs, rfl, fun _ h => h⟩
        intro ρ c o w' hc ⟨hs', hl', hr'⟩ _
        have hstamp : Effect.stamp ∉ c.effects := fun hm => by simpa using hc.1 hm
        have hbumps : Effect.bumps ∉ c.effects := fun hm => by simpa using hc.1 hm
        exact ⟨not_stamped_exec hstamp hs', (leavesOf_exec hbumps).trans hl',
          fun txid h => (hr' txid h).exec hc.2⟩
      refine ((hkept.and (always_markMinedAndPublish height txids)).weaken fun _ _ h => h.1.1).imp ?_
      rintro done w' ⟨⟨hs', hl', hr'⟩, hm⟩
      refine ⟨hs', fun hdone txid ht => ?_⟩
      rw [hl'] at ht
      rcases hleaves txid ht with hr | hin
      · exact hr' txid hr
      · exact hm hdone txid hin

end Mining

/-! ## From the BUMP to the stamp -/

section Sound

variable {sdk : Sdk H Data} {cfg : Config} {b : String} {w : World Data} {height : Nat}
  {txids : List String}

theorem always_anchorDecision {R : World Data → World Data → Prop}
    {Q : AnchorVerdict → World Data → Prop} (hR : R w { w with existing := w.store.txs.keys })
    (hQ : Q .allow { w with existing := w.store.txs.keys }) :
    Always (allowingEnv H Data b) R Q (anchorDecision cfg b height) w := by
  refine (always_bind w).mpr (always_exec fun o ho => ⟨hR, ?_⟩)
  split
  · rename_i active hactive
    rw [if_neg fun hc => hc.2.2.2 (ho active hactive)]
    exact hQ
  · exact hQ

theorem AllReported.always {α : Type} {p : Program H Data α} (h : AllReported sdk b w)
    (hp : p.Makes (Within b anchoring)) :
    Keeps (allowingEnv H Data b) (StampSound sdk b) p w := by
  have hall : Keeps (allowingEnv H Data b) (AllReported sdk b) p w :=
    Always.of_makes (fun ρ c o w' hc hw' _ => hw'.exec hc.2 fun hm => by
      simpa [anchoring, stamping] using hc.1 hm) hp h
  exact (hall.weaken fun _ _ h => h.sound).imp fun _ _ h => h.sound

theorem sound_mineTxids {α : Type} {finalized : Program H Data Bool}
    {next : Bool → Program H Data α} (hs : ¬ Tables.Stamped w.store b)
    (hfin : Always (allowingEnv H Data b) (fun _ w' => w' = w) (fun f w' => w' = w ∧ f = false)
      finalized w)
    (hleaves : ∀ txid ∈ leavesOf sdk b w.store, Reported b w.store txid ∨ txid ∈ txids)
    (htrue : (next true).Makes (Within b anchoring))
    (hfalse : (next false).Makes (Within b [.blocks])) :
    Keeps (allowingEnv H Data b) (StampSound sdk b)
      (mineTxids b height txids finalized >>= next) w := by
  refine ((always_mineTxids height hs hfin hleaves).weaken fun _ _ h => sound_of_not_stamped h).bind ?_
  rintro done w' ⟨hs', hdone⟩
  cases done with
  | true => exact (hdone rfl).always htrue
  | false =>
    have hopen : Keeps (allowingEnv H Data b) (fun w' => ¬ Tables.Stamped w'.store b)
        (next false) w' :=
      Always.of_makes (fun ρ c o _ hc hw' _ => not_stamped_exec (fun hm => by
        simpa using hc.1 hm) hw') hfalse hs'
    exact (hopen.weaken fun _ _ h => sound_of_not_stamped h).imp fun _ _ h => sound_of_not_stamped h

theorem sound_shortCircuit {leaves : List String} (hstored : leavesOf sdk b w.store = leaves)
    (h : ∀ txid ∈ leaves, Reported b w.store txid ∨ ¬ Tables.Stamped w.store b) :
    Keeps (allowingEnv H Data b) (StampSound sdk b) (shortCircuit cfg b height leaves) w := by
  by_cases hs : Tables.Stamped w.store b
  · have hall : AllReported sdk b w := fun txid ht =>
      (h txid (hstored ▸ ht)).resolve_right (not_not.mpr hs)
    exact hall.always (makes_shortCircuit cfg height leaves)
  · refine (always_bind w).mpr (always_anchorDecision (sound_of_not_stamped hs) ?_)
    refine sound_mineTxids hs (always_blockFinalized rfl fun f hf => ⟨rfl, ?_⟩) ?_ ?_ ?_
    · cases f with
      | false => rfl
      | true => exact absurd (hf rfl) hs
    · exact fun txid ht => .inr (hstored ▸ ht)
    · exact .bind (Within.mono (by decide) (makes_markBlockProcessed b height))
        fun _ => by simp
    · refine .bind (makes_deferStampedBlock b) fun reply => ?_
      cases reply <;> simp

/-- Each leaf is reported, or will be marked on the way to a first stamp. -/
def Covered (b : String) (w : World Data) (finalized : Bool) (txids leaves : List String) : Prop :=
  ∀ txid ∈ leaves, Reported b w.store txid ∨
    finalized = false ∧ ¬ Tables.Stamped w.store b ∧ txid ∈ txids

theorem sound_anchorCompound {finalized rebuild : Bool} {outcome : Outcome}
    (h : Covered b w finalized txids (leavesOf sdk b w.store)) :
    Keeps (allowingEnv H Data b) (StampSound sdk b)
      (anchorCompound cfg b finalized rebuild outcome height txids) w := by
  by_cases hs : finalized = false ∧ ¬ Tables.Stamped w.store b
  · obtain ⟨rfl, hs⟩ := hs
    refine (always_bind w).mpr (always_anchorDecision (sound_of_not_stamped hs) ?_)
    refine sound_mineTxids hs ⟨rfl, rfl⟩ ?_ ?_ ?_
    · exact fun txid ht => (h txid ht).imp_right fun hc => hc.2.2
    · exact .bind (Within.mono (by decide) (makes_markBlockProcessed b height))
        fun _ => by simp
    · simp
  · have hall : AllReported sdk b w := fun txid ht =>
      (h txid ht).resolve_right fun hc => hs ⟨hc.1, hc.2.1⟩
    exact hall.always (makes_anchorCompound cfg finalized rebuild outcome height txids)

theorem exec_insertBUMP (o : Oracle H Data) (height : Nat) (bumpData : Data) :
    (w.exec o (.insertBUMP b height bumpData)).2 =
      if World.landed o then
        { w with
          store := { w.store with bumps := w.store.bumps.insert b (height, bumpData) }
          existing := w.store.txs.keys }
      else w := by
  cases hf : o.fault with
  | none => simp [World.exec, Tables.exec, Tables.write, World.landed,
      World.existingAfter, World.passedAfter, hf]
  | some f =>
    by_cases hl : f.landed = 0 <;> simp [World.exec, Tables.exec, Tables.write,
      World.landed, World.existingAfter, World.passedAfter, hf, hl]

theorem insertBUMP_error {o : Oracle H Data} (hl : ¬ World.landed o) (height : Nat) (bumpData : Data) :
    ∃ err, (w.exec o (.insertBUMP b height bumpData)).1 = .error err := by
  cases hf : o.fault with
  | none => simp [World.landed, hf] at hl
  | some f => exact ⟨.failed f.text, by simp [World.exec, Tables.exec, Tables.write, hf]⟩

theorem sound_storeCompound {finalized rebuild : Bool} {outcome : Outcome}
    {compound : Bump.MerklePath H} (hsound : StampSound sdk b w)
    (h : Covered b w finalized txids (leavesIn sdk (sdk.bytes compound))) :
    Keeps (allowingEnv H Data b) (StampSound sdk b)
      (storeCompound sdk cfg b finalized rebuild outcome compound txids) w := by
  refine (always_bind w).mpr (always_exec fun o _ => ?_)
  have hsound₁ : StampSound sdk b (w.exec o (.markBlockBUMPBuilt b compound.blockHeight)).2 :=
    hsound.exec ⟨by simp [Call.effects], trivial⟩
  have h₁ : Covered b (w.exec o (.markBlockBUMPBuilt b compound.blockHeight)).2 finalized txids
      (leavesIn sdk (sdk.bytes compound)) := by
    intro txid ht
    refine (h txid ht).imp (fun hr => hr.exec trivial) ?_
    exact fun hc => ⟨hc.1, not_stamped_exec (by simp [Call.effects]) hc.2.1, hc.2.2⟩
  refine ⟨hsound₁, ?_⟩
  generalize (w.exec o (.markBlockBUMPBuilt b compound.blockHeight)).2 = w₁ at hsound₁ h₁
  cases (w.exec o (.markBlockBUMPBuilt b compound.blockHeight)).1 with
  | error err => exact hsound₁
  | ok _ =>
    refine (always_bind w₁).mpr (always_exec fun o' _ => ?_)
    rw [exec_insertBUMP]
    by_cases hl : World.landed o'
    · rw [if_pos hl]
      have hleaves : leavesOf sdk b { w₁.store with
          bumps := w₁.store.bumps.insert b (compound.blockHeight, sdk.bytes compound) } =
          leavesIn sdk (sdk.bytes compound) := by
        simp [leavesOf]
      have hsound₂ : StampSound sdk b { w₁ with
          store := { w₁.store with
            bumps := w₁.store.bumps.insert b (compound.blockHeight, sdk.bytes compound) }
          existing := w₁.store.txs.keys } := by
        by_cases hs : Tables.Stamped w₁.store b
        · refine AllReported.sound fun txid ht => ?_
          exact (h₁ txid (hleaves ▸ ht)).resolve_right fun hc => hc.2.1 hs
        · exact sound_of_not_stamped hs
      refine ⟨hsound₂, ?_⟩
      cases (w₁.exec o' (.insertBUMP b compound.blockHeight (sdk.bytes compound))).1 with
      | error err => exact hsound₂
      | ok _ => exact sound_anchorCompound fun txid ht => h₁ txid (hleaves ▸ ht)
    · rw [if_neg hl]
      refine ⟨hsound₁, ?_⟩
      obtain ⟨err, herr⟩ := insertBUMP_error (w := w₁) (b := b) hl compound.blockHeight
        (sdk.bytes compound)
      rw [herr]
      exact hsound₁

theorem sound_deferIncompleteBlock {expected : List Nat} (hsound : StampSound sdk b w) :
    Keeps (allowingEnv H Data b) (StampSound sdk b) (deferIncompleteBlock b expected) w :=
  Always.of_makes (fun _ _ _ _ hc hw _ => hw.exec hc) (makes_deferIncompleteBlock b expected) hsound

end Sound

end Arcade.Builder
