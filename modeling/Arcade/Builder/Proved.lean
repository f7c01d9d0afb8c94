import Arcade.Builder.Stamp
import Arcade.Bump.Carried

/-!
No transaction that was marked MINED loses its proof: the leaves of the stored BUMP only
grow, and every txid passed to `SetMinedByTxIDs` is one of them, the placeholder of the
coinbase apart.

Any call may fail and the process may die after any of them. The BUMPs that are stored
parse, and the block data fits the STUMPs.
-/

namespace Arcade.Builder

open Lib List
open Bump (Sdk Stump MerklePath Marked levelAt WithinSubtrees SlotIsPlaceholder)
open Store (Program Call Tables Oracle Effect BlockData)
open Prog (send)

variable {H Data ρ : Type}

/-! ## Builds -/

section Builds

variable {sdk : Sdk H Data} {stumps : List (Stump Data)}

/-- There is a subtree for every STUMP, and their elements lie within it. -/
structure FitsStumps (sdk : Sdk H Data) (stumps : List (Stump Data)) (data : BlockData H Data) :
    Prop where
  count : minSubtrees stumps ≤ data.subtreeHashes.length
  within : 2 ≤ data.subtreeHashes.length →
    WithinSubtrees sdk stumps data.subtreeHashes data.coinbaseBUMP

theorem lt_minSubtrees {st : Stump Data} (h : st ∈ stumps) : st.subtreeIndex < minSubtrees stumps := by
  have key : ∀ (todo : List (Stump Data)) (least : Nat),
      least ≤ todo.foldl (fun least st => max least (st.subtreeIndex + 1)) least ∧
        ∀ st ∈ todo, st.subtreeIndex <
          todo.foldl (fun least st => max least (st.subtreeIndex + 1)) least := by
    intro todo
    induction todo with
    | nil => exact fun least => ⟨le_refl _, by simp⟩
    | cons st todo ih =>
      intro least
      obtain ⟨hle, hlt⟩ := ih (max least (st.subtreeIndex + 1))
      rw [foldl_cons]
      refine ⟨by omega, fun st' hst' => ?_⟩
      rcases mem_cons.mp hst' with rfl | hst'
      · omega
      · exact hlt st' hst'
  exact (key stumps 0).2 st h

theorem mem_leavesIn_bytes [DecidableEq H] (hsdk : sdk.Lawful) (hlevel : sdk.LevelFaithful)
    {compound : MerklePath H} (hmarked : Marked (levelAt compound.path 0))
    (hparse : ∃ q, sdk.newMerklePathFromBinary (sdk.bytes compound) = .ok q) {id : String} :
    id ∈ leavesIn sdk (sdk.bytes compound) ↔ id ∈ compoundLeaves sdk compound := by
  obtain ⟨q, hq⟩ := hparse
  have hleaves : leavesIn sdk (sdk.bytes compound) = compoundLeaves sdk q := by
    simp [leavesIn, hsdk.empty _ q hq, levelZeroTxidsFromBUMP, hq, Except.toOption]
  rw [hleaves, mem_compoundLeaves, mem_compoundLeaves]
  have hperm := hlevel compound q 0 hq hmarked
  exact exists_congr fun e => and_congr_left fun _ => hperm.mem_iff

variable [DecidableEq H]

theorem buildCompound_eq_ok {b : String} {stored : Option (List String)} {data : BlockData H Data}
    {compound : MerklePath H} {txids : List String}
    (h : buildCompound sdk b stored stumps data = .ok compound txids) :
    ∃ header, Bump.buildCompoundBUMP sdk stumps data.subtreeHashes data.coinbaseBUMP (some header) =
        .ok (compound, txids) ∧
      Bump.validateCompoundRoot sdk compound (some header) = .ok () ∧
      ∀ leaves, stored = some leaves → leaves ⊆ compoundLeaves sdk compound := by
  unfold buildCompound at h
  split at h
  · cases h
  · cases hb : Bump.buildCompoundBUMP sdk stumps data.subtreeHashes data.coinbaseBUMP
      data.headerMerkleRoot with
    | error err => simp [hb] at h
    | ok built =>
      obtain ⟨compound', txids'⟩ := built
      simp only [hb] at h
      cases hv : Bump.validateCompoundRoot sdk compound' data.headerMerkleRoot with
      | error err => simp [hv] at h
      | ok _ =>
        simp only [hv] at h
        split at h
        · cases h
        · rename_i hdrop
          cases h
          cases hr : data.headerMerkleRoot with
          | none =>
            rw [hr] at hv
            cases hv
          | some header =>
            rw [hr] at hb hv
            refine ⟨header, hb, hv, ?_⟩
            rintro leaves rfl txid ht
            by_contra hno
            refine hdrop ?_
            simp only [Option.any_some, decide_eq_true_eq]
            exact length_pos_of_mem (mem_filter.mpr ⟨ht, by simpa using hno⟩)

/-- What a build may store has the leaves of the BUMP before and the txids of its STUMPs. -/
theorem carried_of_buildCompound (hsdk : sdk.Lawful) {zero : H} {b : String}
    {stored : Option (List String)} {data : BlockData H Data} {compound : MerklePath H}
    {txids : List String} (hfits : FitsStumps sdk stumps data)
    (hslots : ∀ st ∈ stumps, SlotIsPlaceholder sdk zero st)
    (h : buildCompound sdk b stored stumps data = .ok compound txids) :
    Marked (levelAt compound.path 0) ∧
      (∀ leaves, stored = some leaves → leaves ⊆ compoundLeaves sdk compound) ∧
      ∀ id ∈ txids, id = sdk.hashString zero ∨ id ∈ compoundLeaves sdk compound := by
  obtain ⟨header, hb, hv, hkept⟩ := buildCompound_eq_ok h
  have hrange : ∀ st ∈ stumps, st.subtreeIndex < data.subtreeHashes.length := fun st hst =>
    lt_of_lt_of_le (lt_minSubtrees hst) hfits.count
  obtain ⟨hmarked, htx⟩ := Bump.accepted_carries hsdk hrange hfits.within hslots hb hv
  exact ⟨hmarked, hkept, fun id hid => (htx id hid).imp_right mem_compoundLeaves.mpr⟩

end Builds

/-! ## The invariant -/

/-- The BUMPs that are stored parse, and the datahub's data fits the STUMPs. -/
def Readable (sdk : Sdk H Data) (b : String) {ρ : Type} (w : World Data) (c : Call H Data ρ)
    (o : Oracle H Data) : Prop :=
  match c with
  | .insertBUMP _ _ bumpData => ∃ q, sdk.newMerklePathFromBinary bumpData = .ok q
  | .fetchBlockData _ least => ∀ data, o.blockData = .ok data →
    least ≤ data.subtreeHashes.length ∧ (2 ≤ data.subtreeHashes.length →
      WithinSubtrees sdk (w.store.stumpsOf b) data.subtreeHashes data.coinbaseBUMP)
  | _ => True

abbrev readableEnv (sdk : Sdk H Data) (b : String) :
    Env (Call H Data) (Oracle H Data) (World Data) :=
  builderEnv (Readable sdk b)

/-- The stored BUMP has every txid that was passed to `SetMinedByTxIDs`, except for the
placeholder, which is all that the STUMPs have in the coinbase slot. -/
structure Proven (sdk : Sdk H Data) (zero : H) (b : String) (w : World Data) : Prop where
  slots : ∀ st ∈ w.store.stumpsOf b, SlotIsPlaceholder sdk zero st
  passed : ∀ txid ∈ w.passed, txid = sdk.hashString zero ∨ txid ∈ leavesOf sdk b w.store

/-- The stored BUMP loses no leaf on the way to such a world. -/
def Grows (sdk : Sdk H Data) (zero : H) (b : String) (w w' : World Data) : Prop :=
  leavesOf sdk b w.store ⊆ leavesOf sdk b w'.store ∧ Proven sdk zero b w'

/-- The call passes only such txids. -/
def Marks (P : String → Prop) : Call H Data ρ → Prop
  | .setMinedByTxIDs _ _ txids => ∀ txid ∈ txids, P txid
  | _ => True

section Marks

variable {P : String → Prop} {b : String}

theorem marks_of_effects {c : Call H Data ρ} (h : Effect.txs ∉ c.effects) : Marks P c := by
  cases c with
  | setMinedByTxIDs => simp [Call.effects] at h
  | _ => trivial

theorem makes_mineTxids_marks {height : Nat} {txids : List String}
    {finalized : Program H Data Bool} (hf : finalized.Makes (Within b []))
    (h : ∀ txid ∈ txids, P txid) :
    (mineTxids b height txids finalized).Makes
      (fun _ c => Effect.bumps ∉ c.effects ∧ Marks P c) := by
  have hquiet : ∀ {α : Type} {kinds : List Effect} {p : Program H Data α},
      Effect.bumps ∉ kinds → Effect.txs ∉ kinds → p.Makes (Within b kinds) →
        p.Makes (fun _ c => Effect.bumps ∉ c.effects ∧ Marks P c) :=
    fun hb ht hp => hp.imp fun _ _ hc =>
      ⟨fun hm => hb (hc.1 hm), marks_of_effects fun hm => ht (hc.1 hm)⟩
  unfold mineTxids
  split
  · simp
  · refine .bind (hquiet (by simp) (by simp) hf) fun onlyChanged => ?_
    refine .bind (.bind ?_ fun mined => ?_) fun _ => by simp
    · simpa [Call.effects, Marks] using h
    · split
      · simp
      · exact .bind (hquiet (by simp) (by simp) (makes_publishAll _)) fun _ => by simp

end Marks

section Invariant

variable {sdk : Sdk H Data} {zero : H} {b : String} {w : World Data} {o : Oracle H Data}
  {c : Call H Data ρ}

theorem Proven.grows (h : Proven sdk zero b w) : Grows sdk zero b w w := ⟨fun _ ht => ht, h⟩

theorem stumpsOf_exec (s : Tables Data) (o : Oracle H Data) (c : Call H Data ρ) :
    (s.exec o c).2.stumpsOf b ⊆ s.stumpsOf b := by
  by_cases hs : Effect.stumps ∈ c.effects
  · cases c with
    | deleteStumpsByBlockHash hash =>
      simp only [Tables.exec]
      rcases s.write_state o.fault () { s with stumps := s.stumps.erase hash } with heq | heq <;>
        rw [heq]
      · exact fun _ h => h
      · simp only [Tables.stumpsOf, GoMap.lookup_erase_eq]
        split
        · simp
        · exact fun _ h => h
    | _ => simp [Call.effects] at hs
  · rw [Tables.stumpsOf, (s.exec_agrees o c).stumps hs]
    exact fun _ h => h

theorem Proven.exec (h : Proven sdk zero b w) (hb : Effect.bumps ∉ c.effects)
    (hm : Marks (fun txid => txid = sdk.hashString zero ∨ txid ∈ leavesOf sdk b w.store) c) :
    Proven sdk zero b (w.exec o c).2 := by
  have hsame : leavesOf sdk b (w.exec o c).2.store = leavesOf sdk b w.store := leavesOf_exec hb
  refine ⟨fun st hst => h.slots st (stumpsOf_exec w.store o c hst), fun txid ht => ?_⟩
  rw [hsame]
  cases c with
  | setMinedByTxIDs hash height txids =>
    rcases mem_append.mp ht with ht | ht
    · exact h.passed txid ht
    · exact hm txid ht
  | _ => exact h.passed txid ht

theorem Proven.always {α : Type} {p : Program H Data α} (h : Proven sdk zero b w)
    (hp : p.Makes (fun _ c => Effect.bumps ∉ c.effects ∧
      Marks (fun txid => txid = sdk.hashString zero ∨ txid ∈ leavesOf sdk b w.store) c)) :
    Always (readableEnv sdk b) (Grows sdk zero b)
      (fun _ w' => Proven sdk zero b w' ∧ leavesOf sdk b w'.store = leavesOf sdk b w.store) p w := by
  refine Always.of_makes_along ?_ hp ⟨h, rfl⟩
  intro ρ c o w₁ ⟨hb, hm⟩ ⟨h₁, hw₁⟩ _
  have hsame : leavesOf sdk b (w₁.exec o c).2.store = leavesOf sdk b w₁.store := leavesOf_exec hb
  have h₂ : Proven sdk zero b (w₁.exec o c).2 := h₁.exec hb (hw₁ ▸ hm)
  exact ⟨⟨hsame ▸ fun _ ht => ht, h₂⟩, h₂, hsame.trans hw₁⟩

theorem Proven.always_within {α : Type} {p : Program H Data α} {kinds : List Effect}
    (h : Proven sdk zero b w) (hp : p.Makes (Within b kinds))
    (hk : Effect.bumps ∉ kinds ∧ Effect.txs ∉ kinds) :
    Always (readableEnv sdk b) (Grows sdk zero b)
      (fun _ w' => Proven sdk zero b w' ∧ leavesOf sdk b w'.store = leavesOf sdk b w.store) p w :=
  h.always (hp.imp fun _ _ hc =>
    ⟨fun hm => hk.1 (hc.1 hm), marks_of_effects fun hm => hk.2 (hc.1 hm)⟩)

theorem stamping_marks {P : String → Prop} (ρ : Type) (c : Call H Data ρ)
    (hc : Within b stamping ρ c) : Effect.bumps ∉ c.effects ∧ Marks P c :=
  ⟨fun hm => by simpa [stamping] using hc.1 hm,
    marks_of_effects fun hm => by simpa [stamping] using hc.1 hm⟩

variable {cfg : Config}

theorem proven_shortCircuit {height : Nat} {leaves : List String} (h : Proven sdk zero b w)
    (hstored : leavesOf sdk b w.store = leaves) :
    Always (readableEnv sdk b) (Grows sdk zero b) (fun _ _ => True)
      (shortCircuit cfg b height leaves) w :=
  (h.always (makes_shortCircuit_of stamping_marks cfg (makes_mineTxids_marks
    (makes_blockFinalized b) fun _ ht => .inr (hstored ▸ ht)))).imp fun _ _ _ => trivial

theorem proven_anchorCompound {finalized rebuild : Bool} {outcome : Outcome} {height : Nat}
    {txids : List String} (h : Proven sdk zero b w)
    (htx : ∀ id ∈ txids, id = sdk.hashString zero ∨ id ∈ leavesOf sdk b w.store) :
    Always (readableEnv sdk b) (Grows sdk zero b) (fun _ _ => True)
      (anchorCompound cfg b finalized rebuild outcome height txids) w :=
  (h.always (makes_anchorCompound_of stamping_marks cfg (makes_mineTxids_marks
    (Prog.makes_pure finalized) htx))).imp fun _ _ _ => trivial

end Invariant

/-! ## A delivery -/

section Deliver

variable [DecidableEq H] {sdk : Sdk H Data} {zero : H} {b : String} {w : World Data}
  {cfg : Config} {callback : CallbackMessage Data}

omit [DecidableEq H] in
theorem exec_insertBUMP_cases (sdk : Sdk H Data) (b : String) (w : World Data) (o : Oracle H Data)
    (height : Nat) (bumpData : Data) :
    (w.exec o (.insertBUMP b height bumpData)).2.store.stumpsOf b = w.store.stumpsOf b ∧
      (w.exec o (.insertBUMP b height bumpData)).2.passed = w.passed ∧
      (leavesOf sdk b (w.exec o (.insertBUMP b height bumpData)).2.store = leavesIn sdk bumpData ∨
        leavesOf sdk b (w.exec o (.insertBUMP b height bumpData)).2.store = leavesOf sdk b w.store ∧
          ∃ err, (w.exec o (.insertBUMP b height bumpData)).1 = .error err) := by
  rw [exec_insertBUMP]
  split
  · exact ⟨rfl, rfl, .inl (by simp [leavesOf])⟩
  · exact ⟨rfl, rfl, .inr ⟨rfl, insertBUMP_error ‹_› height bumpData⟩⟩

theorem proven_storeCompound (hsdk : sdk.Lawful) (hlevel : sdk.LevelFaithful)
    {finalized rebuild : Bool} {outcome : Outcome} {compound : MerklePath H} {txids : List String}
    (h : Proven sdk zero b w) (hmarked : Marked (levelAt compound.path 0))
    (hkept : leavesOf sdk b w.store ⊆ compoundLeaves sdk compound)
    (htx : ∀ id ∈ txids, id = sdk.hashString zero ∨ id ∈ compoundLeaves sdk compound) :
    Always (readableEnv sdk b) (Grows sdk zero b) (fun _ _ => True)
      (storeCompound sdk cfg b finalized rebuild outcome compound txids) w := by
  have hmark : (send (.markBlockBUMPBuilt b compound.blockHeight) : Program H Data _).Makes
      (Within b [.blocks]) := by
    simp [Within, Call.effects, MinesOnly]
  refine (h.always_within hmark (by decide)).bind ?_
  rintro reply w₁ ⟨h₁, hsame⟩
  cases reply with
  | error err => trivial
  | ok _ =>
    refine (always_bind w₁).mpr (always_exec fun o hparse => ?_)
    have hleaves : ∀ id, id ∈ leavesIn sdk (sdk.bytes compound) ↔
        id ∈ compoundLeaves sdk compound := fun id => mem_leavesIn_bytes hsdk hlevel hmarked hparse
    have hgrow : leavesOf sdk b w₁.store ⊆ leavesIn sdk (sdk.bytes compound) := fun id hid =>
      (hleaves id).mpr (hkept (hsame ▸ hid))
    obtain ⟨hstumps, hpassed, hcases⟩ := exec_insertBUMP_cases sdk b w₁ o compound.blockHeight
      (sdk.bytes compound)
    rcases hcases with hnew | ⟨hold, err, herr⟩
    · have h₂ : Proven sdk zero b
          (w₁.exec o (.insertBUMP b compound.blockHeight (sdk.bytes compound))).2 := by
        refine ⟨fun st hst => h₁.slots st (hstumps ▸ hst), fun txid ht => ?_⟩
        rw [hnew]
        exact (h₁.passed txid (hpassed ▸ ht)).imp_right fun hm => hgrow hm
      refine ⟨⟨hnew ▸ hgrow, h₂⟩, ?_⟩
      split
      · trivial
      · refine proven_anchorCompound h₂ fun id hid => (htx id hid).imp_right fun hm => ?_
        rw [hnew]
        exact (hleaves id).mpr hm
    · refine ⟨⟨hold ▸ fun _ ht => ht, ?_⟩, ?_⟩
      · refine ⟨fun st hst => h₁.slots st (hstumps ▸ hst), fun txid ht => ?_⟩
        rw [hold]
        exact h₁.passed txid (hpassed ▸ ht)
      · rw [herr]
        trivial

theorem length_of_mapM {α β : Type} {f : α → Except String β} {xs : List α} {ys : List β}
    (h : xs.mapM f = .ok ys) : ys.length = xs.length := by
  induction xs generalizing ys with
  | nil =>
    cases h
    rfl
  | cons x xs ih =>
    rw [mapM_cons] at h
    obtain ⟨y, _, h⟩ := Lib.Outcome.bind_ok h
    obtain ⟨zs, hzs, h⟩ := Lib.Outcome.bind_ok h
    cases h
    simp [ih hzs]

omit [DecidableEq H] in
theorem length_of_callbackBlockData {least : Nat} {data : BlockData H Data}
    (h : callbackBlockData sdk callback least = some data) :
    data.subtreeHashes.length = callback.subtreeHashes.length ∧
      least ≤ data.subtreeHashes.length := by
  unfold callbackBlockData at h
  split at h
  · cases h
  split at h
  · cases h
  split at h
  · cases h
  · split at h
    · rename_i root hashes hroot hhashes
      cases h
      have hlen : hashes.length = callback.subtreeHashes.length := length_of_mapM hhashes
      exact ⟨hlen, by rw [hlen]; omega⟩
    · cases h

/-- The block data that comes with a delivery fits the STUMPs. -/
def DataWithin (sdk : Sdk H Data) (stumps : List (Stump Data)) (callback : CallbackMessage Data) :
    Prop :=
  ∀ data, callbackBlockData sdk callback (minSubtrees stumps) = some data →
    2 ≤ data.subtreeHashes.length → WithinSubtrees sdk stumps data.subtreeHashes data.coinbaseBUMP

section

variable (hsdk : sdk.Lawful) (hlevel : sdk.LevelFaithful) (hb : callback.blockHash = b)
  (h : Proven sdk zero b w)
include hsdk hlevel hb h

theorem proven_resolveAndBuild {stored : Option (List String)}
    (hdata : DataWithin sdk (w.stumps callback) callback)
    (hstored : leavesOf sdk b w.store = stored.getD []) :
    Always (readableEnv sdk b) (Grows sdk zero b) (fun _ _ => True)
      (resolveAndBuild sdk cfg callback stored) w := by
  subst hb
  have hdefer := h.always_within (makes_deferIncompleteBlock callback.blockHash
    callback.expectedSubtreeIndices) (by decide)
  refine always_resolveAndBuild h.grows (fun _ _ => trivial) ?_ ?_ ?_
  · exact fun _ => hdefer.imp fun _ _ _ => ⟨fun _ => trivial, fun _ => trivial⟩
  · exact fun _ _ => (h.always_within (makes_markBlockProcessed _ 0) (by decide)).imp
      fun _ _ _ => trivial
  · intro _ _ finalized outcome _
    refine always_buildBlock h.grows (fun _ _ => trivial) trivial ?_ ?_
    · exact hdefer.imp fun _ _ _ => ⟨fun _ => trivial, fun _ => trivial⟩
    · intro data compound txids hgives hfetched hbuilt
      have hfits : FitsStumps sdk (w.stumps callback) data := by
        cases hcb : callbackBlockData sdk callback (minSubtrees (w.stumps callback)) with
        | some data' =>
          obtain rfl : data' = data := by
            rcases hgives with hg | hg
            · exact Option.mem_unique hcb hg
            · rw [hcb] at hg
              cases hg
          exact ⟨(length_of_callbackBlockData hcb).2, hdata data' hcb⟩
        | none =>
          obtain ⟨o, hread, ho⟩ := hfetched hcb
          exact ⟨(hread data ho).1, (hread data ho).2⟩
      obtain ⟨hmarked, hkept, htx⟩ := carried_of_buildCompound hsdk hfits h.slots hbuilt
      have hsub : leavesOf sdk callback.blockHash w.store ⊆ compoundLeaves sdk compound := by
        rw [hstored]
        cases stored with
        | none => simp
        | some leaves => exact hkept leaves rfl
      refine (h.always_within (makes_unstampForRebuild _ finalized _) (by decide)).imp
        fun reply w₁ ⟨h₁, hsame⟩ => ⟨fun _ => trivial, fun _ => ?_⟩
      exact proven_storeCompound hsdk hlevel h₁ hmarked (hsame ▸ hsub) htx

theorem proven_handleMessage (hdata : DataWithin sdk (w.store.stumpsOf b) callback) :
    Always (readableEnv sdk b) (Grows sdk zero b) (fun _ _ => True)
      (handleMessage sdk cfg callback) w := by
  subst hb
  have hbuild : ∀ stored, leavesOf sdk callback.blockHash w.store = stored.getD [] →
      Always (readableEnv sdk callback.blockHash) (Grows sdk zero callback.blockHash)
        (fun _ _ => True) (resolveAndBuild sdk cfg (widened w.store callback) stored) w := by
    intro stored hstored
    refine proven_resolveAndBuild hsdk hlevel (widened_blockHash ..) h ?_ hstored
    intro data hgiven
    rw [stumps_widened, callbackBlockData_widened] at hgiven
    rw [stumps_widened]
    exact hdata data hgiven
  refine always_handleMessage h.grows (fun _ _ => trivial) ?_ ?_ ?_
  · intro height leaves hstored _ _
    exact (proven_shortCircuit h (leavesOf_of_storedBUMP hstored)).imp
      fun _ _ _ => ⟨fun _ => trivial, fun _ _ => trivial⟩
  · exact fun hnone => hbuild none (leavesOf_of_storedBUMP_none hnone)
  · exact fun height leaves new hstored _ _ => hbuild (some leaves) (leavesOf_of_storedBUMP hstored)

end

end Deliver

/-! ## Every moment of every sequence of deliveries -/

/-- The builder between two calls, and the tables. -/
structure Moment (H Data : Type) where
  process : Process (Call H Data) Handled
  world : World Data

/-- What comes from outside: the STUMPs have the placeholder in the coinbase slot, and the
block data of a delivery fits the STUMPs. -/
def Admissible (sdk : Sdk H Data) (zero : H) (b : String) (w : World Data) : BlockEvent Data → Prop
  | .deliver callback => DataWithin sdk (w.store.stumpsOf b) callback
  | .insertStump _ stump => SlotIsPlaceholder sdk zero stump
  | _ => True

/-- An event for the idle builder, or a step of the one that handles a delivery. -/
inductive MomentStep [DecidableEq H] (E : Env (Call H Data) (Oracle H Data) (World Data))
    (sdk : Sdk H Data) (zero : H) (cfg : Config) (b : String) :
    Option (BlockEvent Data) → Moment H Data → Moment H Data → Prop where
  | deliver {w : World Data} (callback : CallbackMessage Data) :
    Admissible sdk zero b w (.deliver callback) →
      MomentStep E sdk zero cfg b (some (.deliver callback)) ⟨.idle, w⟩
        ⟨.running (handleMessage sdk cfg { callback with blockHash := b }), w⟩
  | event {w : World Data} {e : BlockEvent Data} : (∀ callback, e ≠ .deliver callback) →
    Admissible sdk zero b w e → MomentStep E sdk zero cfg b (some e) ⟨.idle, w⟩
      ⟨.idle, { w with store := e.write b w.store }⟩
  | process {m m' : Moment H Data} : Process.Step E m.process m.world m'.process m'.world →
      MomentStep E sdk zero cfg b none m m'

section Moments

variable [DecidableEq H] {sdk : Sdk H Data} {zero : H} {b : String} {cfg : Config}

theorem reaches_of_runs {E : Env (Call H Data) (Oracle H Data) (World Data)}
    {p : Program H Data Handled} {w w' : World Data} {out : Option Handled}
    (h : Runs E p w out w') :
    ∃ es, Reaches (MomentStep E sdk zero cfg b) ⟨.running p, w⟩ es ⟨.idle, w'⟩ := by
  induction h with
  | done a w => exact ⟨[none], .step (.process (.finish a w)) (.refl _)⟩
  | died p w => exact ⟨[none], .step (.process (.die p w)) (.refl _)⟩
  | call o ho _ ih =>
    obtain ⟨es, hes⟩ := ih
    exact ⟨none :: es, .step (.process (.call o ho)) hes⟩

structure Guarded (sdk : Sdk H Data) (zero : H) (b : String) (m : Moment H Data) : Prop where
  proven : Proven sdk zero b m.world
  follows : m.process.Follows (readableEnv sdk b) (Grows sdk zero b) m.world

omit [DecidableEq H] in
theorem Proven.between {w : World Data} (h : Proven sdk zero b w) {e : BlockEvent Data}
    (he : Admissible sdk zero b w e) :
    Grows sdk zero b w { w with store := e.write b w.store } := by
  have hleaves : leavesOf sdk b (e.write b w.store) = leavesOf sdk b w.store := by
    rw [leavesOf, (e.agrees_write b w.store).bumps (by simp)]
    rfl
  refine ⟨hleaves ▸ fun _ ht => ht, fun st hst => ?_, hleaves ▸ h.passed⟩
  rcases e.mem_stumpsOf_write b w.store hst with hst | ⟨position, rfl⟩
  · exact h.slots st hst
  · exact he

theorem Guarded.step (hsdk : sdk.Lawful) (hlevel : sdk.LevelFaithful) {m m' : Moment H Data}
    {e : Option (BlockEvent Data)} (h : Guarded sdk zero b m)
    (hstep : MomentStep (readableEnv sdk b) sdk zero cfg b e m m') :
    leavesOf sdk b m.world.store ⊆ leavesOf sdk b m'.world.store ∧ Guarded sdk zero b m' := by
  cases hstep with
  | deliver callback hdata =>
    exact ⟨fun _ ht => ht, h.proven, proven_handleMessage hsdk hlevel rfl h.proven hdata⟩
  | event _ he =>
    obtain ⟨hsub, hproven⟩ := h.proven.between he
    exact ⟨hsub, hproven, trivial⟩
  | process hp =>
    obtain ⟨hcase, hfollows⟩ := hp.follows h.follows
    rcases hcase with heq | ⟨hsub, hproven⟩
    · rw [heq] at hfollows ⊢
      exact ⟨fun _ ht => ht, heq ▸ h.proven, heq ▸ hfollows⟩
    · exact ⟨hsub, hproven, hfollows⟩

/-- The stored BUMP never loses a leaf, and whatever was passed to `SetMinedByTxIDs` up to
some moment, the placeholder apart, is one of its leaves from that moment on. -/
theorem proofs_kept (hsdk : sdk.Lawful) (hlevel : sdk.LevelFaithful) (cfg : Config)
    {s : Tables Data} (hslots : ∀ st ∈ s.stumpsOf b, SlotIsPlaceholder sdk zero st)
    {es es' : List (Option (BlockEvent Data))} {m m' : Moment H Data}
    (h : Reaches (MomentStep (readableEnv sdk b) sdk zero cfg b) ⟨.idle, s, [], []⟩ es m)
    (h' : Reaches (MomentStep (readableEnv sdk b) sdk zero cfg b) m es' m') :
    leavesOf sdk b m.world.store ⊆ leavesOf sdk b m'.world.store ∧ ∀ txid ∈ m.world.passed,
        txid = sdk.hashString zero ∨ txid ∈ leavesOf sdk b m'.world.store := by
  have hm : Guarded sdk zero b m :=
    h.invariant (C := fun _ => True) (fun _ _ _ hg _ hstep => (hg.step hsdk hlevel hstep).2)
      (fun _ _ => trivial) ⟨⟨hslots, nofun⟩, trivial⟩
  have hboth := h'.invariant (C := fun _ => True)
    (J := fun m' => leavesOf sdk b m.world.store ⊆ leavesOf sdk b m'.world.store ∧
      Guarded sdk zero b m') ?_ (fun _ _ => trivial) ⟨fun _ ht => ht, hm⟩
  · exact ⟨hboth.1, fun txid ht => (hm.proven.passed txid ht).imp_right fun hl => hboth.1 hl⟩
  · intro m₁ m₂ e ⟨hsub, hg⟩ _ hstep
    obtain ⟨hsub', hg'⟩ := hg.step hsdk hlevel hstep
    exact ⟨fun _ ht => hsub' (hsub ht), hg'⟩

end Moments

/-! A delivery of a block of a coinbase and one transaction. -/

section Slots

open Bump (Bits BitsData referenceSdk)

theorem referenceSdk_levelFaithful : referenceSdk.LevelFaithful := by
  intro p q l h _
  obtain rfl := Option.some.inj (Bump.referenceSdk_parse.mp h).1
  exact List.Perm.refl _

/-- The check of `Readable` for deliveries that bring their block data along. -/
def readable {ρ : Type} (_ : World BitsData)
    (c : Call Bits BitsData ρ) (_ : Oracle Bits BitsData) :
    Bool :=
  match c with
  | .insertBUMP _ _ bumpData => (referenceSdk.newMerklePathFromBinary bumpData).toOption.isSome
  | .fetchBlockData _ _ => false
  | _ => true

theorem readable_sound (b : String) (w : World BitsData) (ρ : Type)
    (c : Call Bits BitsData ρ) (o : Oracle Bits BitsData)
    (h : readable w c o = true) : (readableEnv referenceSdk b).ok w c o := by
  cases c with
  | insertBUMP hash height bumpData =>
    cases hp : referenceSdk.newMerklePathFromBinary bumpData with
    | error err => simp [readable, hp, Except.toOption] at h
    | ok q => exact ⟨q, hp⟩
  | fetchBlockData => cases h
  | _ => trivial

def withStump (st : Stump BitsData) : Tables BitsData :=
  { onlySeen with stumps := AList.singleton "b" [st] }

def delivered (st : Stump BitsData) :
    Option Handled × World BitsData :=
  (handleMessage referenceSdk ⟨false, true⟩ (announcement [0])).play (readableEnv referenceSdk "b")
    (List.replicate 20 (answering (.error ""))) ⟨withStump st, [], []⟩

theorem dataWithin_announcement (stumps : List (Stump BitsData)) :
    DataWithin referenceSdk stumps (announcement [0]) := by
  intro data hdata htwo
  rw [(length_of_callbackBlockData hdata).1] at htwo
  exact absurd htwo (by decide)

theorem reaches_delivered (st : Stump BitsData)
    (h : (handleMessage referenceSdk ⟨false, true⟩ (announcement [0])).playSafe
      (readableEnv referenceSdk "b") readable (List.replicate 20 (answering (.error "")))
      ⟨withStump st, [], []⟩ = true) :
    ∃ es, Reaches (MomentStep (readableEnv referenceSdk "b") referenceSdk [] ⟨false, true⟩ "b")
      ⟨.idle, withStump st, [], []⟩ es ⟨.idle, (delivered st).2⟩ := by
  obtain ⟨es, hes⟩ := reaches_of_runs (runs_play_safe (readable_sound "b") h)
  exact ⟨_, .step (.deliver (announcement [0]) (dataWithin_announcement _)) hes⟩

/-- A STUMP with a hash of its own in the coinbase slot. -/
def filledSlot : Stump BitsData :=
  ⟨0, some ⟨7, [[⟨0, some [false], true, false⟩, ⟨1, some [true, true], true, false⟩]]⟩⟩

end Slots

theorem proofs_kept_lateStump : "11" ∈ (delivered lateStump).2.passed ∧
      "11" ∈ leavesOf Bump.referenceSdk "b" (delivered lateStump).2.store := by
  have hslots : ∀ st ∈ (withStump lateStump).stumpsOf "b",
      SlotIsPlaceholder Bump.referenceSdk [] st := by
    intro st hst _ p hp
    obtain rfl : st = lateStump := mem_singleton.mp hst
    obtain rfl := Option.some.inj (Bump.referenceSdk_parse.mp hp).1
    decide
  obtain ⟨es, hes⟩ := reaches_delivered lateStump (by decide +kernel)
  have hpassed : "11" ∈ (delivered lateStump).2.passed := by decide +kernel
  have hkept := proofs_kept Bump.referenceSdk_lawful referenceSdk_levelFaithful ⟨false, true⟩ hslots
    hes (.refl _)
  exact ⟨hpassed, (hkept.2 "11" hpassed).resolve_left (by decide)⟩

/-- The coinbase takes the place of the hash in the slot, which is marked all the same. -/
theorem filled_slot_unproved :
    WithinSubtrees Bump.referenceSdk [filledSlot] [[true, false, true, true, true]]
        (some coinbaseBUMP) ∧
      ∃ es, Reaches (MomentStep (readableEnv Bump.referenceSdk "b") Bump.referenceSdk []
          ⟨false, true⟩ "b") ⟨.idle, withStump filledSlot, [], []⟩ es
          ⟨.idle, (delivered filledSlot).2⟩ ∧
        "0" ∈ (delivered filledSlot).2.passed ∧ "0" ≠ Bump.referenceSdk.hashString [] ∧
        "0" ∉ leavesOf Bump.referenceSdk "b" (delivered filledSlot).2.store := by
  refine ⟨⟨by decide +kernel, ?_⟩, ?_⟩
  · intro st hst p hp l hl
    obtain rfl : st = filledSlot := mem_singleton.mp hst
    obtain rfl := Option.some.inj (Bump.referenceSdk_parse.mp hp).1
    revert l
    decide +kernel
  · obtain ⟨es, hes⟩ := reaches_delivered filledSlot (by decide +kernel)
    exact ⟨es, hes, by decide +kernel, by decide, by decide +kernel⟩

end Arcade.Builder
