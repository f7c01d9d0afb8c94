import Arcade.Bump.Reference
import Arcade.Reconciler.Watch

/-!
A pass over one orphaned block takes no transaction out of a block that still has it.

The header source gives every height one answer during the pass, no one else writes, and
any call may fail. Up to the point where the rest is parked or reverted, a pass only moves
transactions to other blocks. When it gets there, no row that is MINED in the orphan is
listed by the active block at its height or by one of the blocks above, and that is what
both the revert and the stamp need.
-/

namespace Arcade.Reconciler

open Lib List
open Bump (Sdk)
open Store (Program Call Tables Oracle Effect BlockRow MinedAt)
open Builder (MinesOnly Within leavesIn leavesOf)
open Prog (send)

variable {H Data ρ : Type}

/-! ## The active chain during a pass -/

/-- The answer of the header source to a lookup is that of the height. -/
def Steady (headers : Nat → Except String (Option String)) : Call H Data ρ → Oracle H Data → Prop
  | .getHeaderByHeight height, o => o.header = headers height
  | _, _ => True

/-- Nobody else writes. -/
def steadyEnv (H Data : Type) (headers : Nat → Except String (Option String)) :
    Env (Call H Data) (List Edge × Oracle H Data) (World Data) :=
  passEnv fun _ c o => o.1 = [] ∧ Steady headers c o.2

/-- The active block at a height, if it is known. -/
def activeAt (headers : Nat → Except String (Option String)) (height : Nat) : Option String :=
  if height = 0 ∨ 2 ^ 32 ≤ height then none else (headers height).toOption.join

/-- The active blocks from a height on, up to the first that is not known. -/
def activeFrom (headers : Nat → Except String (Option String)) : Nat → Nat → List String
  | 0, _ => []
  | left + 1, height =>
    match activeAt headers height with
    | none => []
    | some hash => hash :: activeFrom headers left (height + 1)

/-- The height of a row, or else of the stored BUMP; 0 when neither tells. -/
def heightOf (s : Tables Data) (orphan : String) (row : BlockRow) : Nat :=
  if row.blockHeight ≠ 0 then row.blockHeight else ((s.bumps.lookup orphan).map (·.1)).getD 0

/-- The blocks above a height that a pass looks at; without a height there are none. -/
def neighborhood (cfg : Config) (headers : Nat → Except String (Option String)) (height : Nat) :
    List String :=
  if height = 0 then [] else activeFrom headers cfg.depth (height + 1)

/-! ## Rows of the orphan -/

/-- The row of the txid is MINED in the block. -/
def MinedIn (b txid : String) (s : Tables Data) : Prop :=
  ∃ row, s.txs.lookup txid = some row ∧ row.status = .mined ∧ row.blockHash = b

def IsMined (txid : String) (s : Tables Data) : Prop :=
  ∃ row, s.txs.lookup txid = some row ∧ row.status = .mined

/-- The call neither reverts rows nor marks any in the block. -/
def Spares (orphan : String) : Call H Data ρ → Prop
  | .setMinedByTxIDs hash _ _ => hash ≠ orphan
  | .setStatusByBlockHash _ _ => False
  | _ => True

/-- The call reverts no row, stamps no block and writes no BUMP. -/
def Mild : Call H Data ρ → Prop
  | .setStatusByBlockHash _ _ | .markBlockReconciled _ _ | .insertBUMP _ _ _ => False
  | _ => True

section Rows

variable {orphan b txid : String} {s : Tables Data} {o : Oracle H Data} {c : Call H Data ρ}

theorem not_minedIn_of_minedAt (h : MinedAt b s.txs txid) (hne : b ≠ orphan) :
    ¬MinedIn orphan txid s := by
  rintro ⟨row, hrow, hmined, hblock⟩
  exact hne ((h row hrow (by simp [hmined])).2.symm.trans hblock)

theorem spares_of_minesOnly (hc : MinesOnly b c) (hne : b ≠ orphan) : Spares orphan c := by
  cases c with
  | setMinedByTxIDs hash height txids => exact fun h => hne (hc.symm.trans h)
  | setStatusByBlockHash => exact hc
  | _ => trivial

theorem MinedIn.of_exec (hc : Spares orphan c) (h : MinedIn orphan txid (s.exec o c).2) :
    MinedIn orphan txid s := by
  have hreverts : c.reverts = false := by
    cases c with
    | setStatusByBlockHash => exact hc.elim
    | _ => rfl
  obtain ⟨row, hrow, hmined, hblock⟩ := h
  rcases Store.exec_txs_of_not_reverts hreverts txid with heq | ⟨m, hm, -, height, heq⟩
  · exact ⟨row, heq.symm.trans hrow, hmined, hblock⟩
  · obtain ⟨prev, hprev, rfl⟩ := Option.map_eq_some_iff.mp (heq.symm.trans hrow)
    cases c <;> cases hm
    by_cases hi : prev.status = .immutable
    · rw [Store.minedRow_immutable hi] at hmined
      exact absurd (hi.symm.trans hmined) nofun
    · exact absurd ((Store.minedRow_mined _ height hi).2.symm.trans hblock) hc

theorem Mild.txs {row : Store.TxRow} (hc : Mild c) (hrow : s.txs.lookup txid = some row)
    (hne : row.status ≠ .immutable) : ∃ out, (s.exec o c).2.txs.lookup txid = some out ∧
      (out = row ∨ out.status = .mined) := by
  have hreverts : c.reverts = false := by
    cases c with
    | setStatusByBlockHash => exact hc.elim
    | _ => rfl
  rcases Store.exec_txs_of_not_reverts hreverts txid with heq | ⟨m, -, -, height, heq⟩
  · exact ⟨row, heq.trans hrow, .inl rfl⟩
  · rw [hrow] at heq
    exact ⟨_, heq, .inr (Store.minedRow_mined m.1 height hne).1⟩

theorem IsMined.exec (hc : Mild c) (h : IsMined txid s) : IsMined txid (s.exec o c).2 := by
  obtain ⟨row, hrow, hmined⟩ := h
  obtain ⟨out, hout, rfl | hm⟩ := hc.txs hrow (by simp [hmined])
  · exact ⟨out, hout, hmined⟩
  · exact ⟨out, hout, hm⟩

theorem Mild.bumps (hc : Mild c) : (s.exec o c).2.bumps = s.bumps := by
  refine (s.exec_agrees o c).bumps ?_
  cases c with
  | insertBUMP => exact hc.elim
  | _ => simp [Call.effects]

theorem HandsOff.mild (hc : HandsOff c) : Mild c := by
  cases c with
  | setStatusByBlockHash | markBlockReconciled | insertBUMP => exact hc
  | _ => trivial

theorem handOffIn_mild (orphan : String) :
    HandOffIn orphan fun (ρ : Type) (c : Call H Data ρ) => Mild c :=
  ⟨fun _ => trivial, trivial, trivial, fun _ => trivial⟩

theorem mild_of_within {kinds : List Effect} (hc : Within b kinds ρ c)
    (hk : Effect.blocks ∉ kinds ∧ Effect.bumps ∉ kinds) : Mild c := by
  cases c with
  | setStatusByBlockHash => exact hc.2
  | markBlockReconciled => exact hk.1 (hc.1 (by simp [Call.effects]))
  | insertBUMP => exact hk.2 (hc.1 (by simp [Call.effects]))
  | _ => trivial

end Rows

/-! ## What a pass has done so far -/

section Pass

variable (sdk : Sdk H Data) (cfg : Config) (headers : Nat → Except String (Option String))
  (orphan : String) (height : Nat) (s : Tables Data)

/-- The active block at the height of the orphan is another one, its stored BUMP was read, and
neither it nor a block above lists the txid. -/
structure Disowned (log : List (Entry Data)) (txid : String) : Prop where
  canonical : ∃ hash bump, activeAt headers height = some hash ∧ hash ≠ orphan ∧
    s.bumps.lookup hash = some bump ∧ (∃ e ∈ log, e.deed = .read hash (some bump)) ∧
    Readable sdk bump.2 ∧ txid ∉ leavesIn sdk bump.2
  neighbors : ∀ hash ∈ neighborhood cfg headers height, txid ∉ leavesOf sdk hash s

/-- No row that one of these blocks lists is MINED in the orphan. -/
def ClearOf (hashes : List String) (w : World Data) : Prop :=
  ∀ hash ∈ hashes, ∀ txid ∈ leavesOf sdk hash s, ¬MinedIn orphan txid w.store

/-- The active block at the height of the orphan, if known, and those above. -/
def claimants : List String :=
  (activeAt headers height).toList ++ neighborhood cfg headers height

/-- Nothing was reverted yet, and the orphan is not stamped. -/
structure Untouched (w : World Data) : Prop where
  bumps : w.store.bumps = s.bumps
  mined : ∀ txid, MinedIn orphan txid s → IsMined txid w.store
  unstamped : ∀ e ∈ w.log, e.deed ≠ .stamped orphan

/-- What was reverted was disowned, and the orphan may be stamped. -/
structure Settled (w : World Data) : Prop where
  mined : ∀ txid, MinedIn orphan txid s →
    IsMined txid w.store ∨ Disowned sdk cfg headers orphan height s w.log txid
  clear : ClearOf sdk orphan s (claimants cfg headers height) w

/-- What holds at every moment of a pass. -/
def Safe (w : World Data) : Prop :=
  Untouched orphan s w ∨ Settled sdk cfg headers orphan height s w

end Pass

section Steps

variable {sdk : Sdk H Data} {cfg : Config} {headers : Nat → Except String (Option String)}
  {orphan : String} {height : Nat} {s : Tables Data} {w : World Data} {α : Type}
  {p : Program H Data α} {mem : Memory} {token : Option Int64} {settled affected : List String}

theorem always_steady {Q : α → World Data → Prop} {R : World Data → World Data → Prop}
    {c : Call H Data α}
    (h : ∀ o, Steady headers c o → R w (w.exec o c).2 ∧ Q (w.exec o c).1 (w.exec o c).2) :
    Always (steadyEnv H Data headers) R Q (send c) w := by
  refine always_exec fun edges o ho => ?_
  obtain ⟨rfl, ho⟩ := ho
  exact h o ho

theorem Untouched.exec {c : Call H Data ρ} {o : Oracle H Data} (h : Untouched orphan s w)
    (hc : Mild c) : Untouched orphan s (w.exec o c).2 := by
  refine ⟨hc.bumps.trans h.bumps, fun txid hm => (h.mined txid hm).exec hc, fun e he => ?_⟩
  rcases mem_cons.mp he with rfl | he
  · cases c with
    | markBlockReconciled => exact hc.elim
    | getBUMP | reactivateBlock =>
      simp only [World.deed]
      split <;> simp
    | _ => simp [World.deed]
  · exact h.unstamped e he

theorem Untouched.always (h : Untouched orphan s w) (hp : p.Makes fun _ c => Mild c) :
    Keeps (steadyEnv H Data headers) (Untouched orphan s) p w := by
  refine Always.of_makes (fun _ c o w hc hw ho => ?_) hp h
  obtain ⟨edges, o⟩ := o
  obtain ⟨rfl, -⟩ := ho
  exact hw.exec hc

theorem Settled.always (h : Settled sdk cfg headers orphan height s w)
    (hp : p.Makes fun _ c => Effect.txs ∉ c.effects) :
    Keeps (steadyEnv H Data headers) (Settled sdk cfg headers orphan height s) p w := by
  refine Always.of_makes (fun _ c o w hc hw ho => ?_) hp h
  obtain ⟨edges, o⟩ := o
  obtain ⟨rfl, -⟩ := ho
  have htxs : (w.exec o c).2.store.txs = w.store.txs := (w.store.exec_agrees o c).txs hc
  constructor
  · intro txid hm
    change IsMined txid (w.exec o c).2.store ∨ _
    rw [IsMined, htxs]
    refine (hw.mined txid hm).imp id fun hd => ⟨?_, hd.neighbors⟩
    obtain ⟨hash, bump, ha, hne, hl, ⟨e, he, hd'⟩, hr, hno⟩ := hd.canonical
    exact ⟨hash, bump, ha, hne, hl, ⟨e, mem_cons_of_mem _ he, hd'⟩, hr, hno⟩
  · intro hash hh txid ht
    change ¬MinedIn orphan txid (w.exec o c).2.store
    rw [MinedIn, htxs]
    exact hw.clear hash hh txid ht

/-! ## The walk over the blocks above -/

/-- The rows of the orphan are among the affected ones, and are none of those that the
active block at its height has. -/
structure Walking (orphan : String) (s : Tables Data) (settled affected : List String)
    (w : World Data) : Prop where
  untouched : Untouched orphan s w
  rows : ∀ txid, MinedIn orphan txid w.store → txid ∈ affected
  aside : ∀ txid, MinedIn orphan txid w.store → txid ∉ settled

theorem Walking.exec {c : Call H Data ρ} {o : Oracle H Data} (h : Walking orphan s settled affected w)
    (hc : Mild c) (hs : Spares orphan c) : Walking orphan s settled affected (w.exec o c).2 :=
  ⟨h.untouched.exec hc, fun txid hm => h.rows txid (hm.of_exec hs),
    fun txid hm => h.aside txid (hm.of_exec hs)⟩

variable {I : World Data → Prop}

theorem always_activeHashAt (height : Nat) (h : I w)
    (hI : ∀ o : Oracle H Data, I (w.exec o (.getHeaderByHeight height)).2) :
    Always (steadyEnv H Data headers) (fun _ => I)
      (fun reply w' => I w' ∧ ∀ canonical, reply = .ok canonical → activeAt headers height = canonical)
      (activeHashAt height) w := by
  unfold activeHashAt
  split
  · rename_i hout
    refine ⟨h, ?_⟩
    rintro canonical ⟨⟩
    exact if_pos hout
  · rename_i hin
    refine always_steady fun o ho => ⟨hI o, hI o, ?_⟩
    intro canonical hreply
    have hanswer : headers height = .ok canonical := ho.symm.trans hreply
    rw [activeAt, if_neg hin, hanswer]
    rfl

theorem always_getBUMP (hash : String) (hI : ∀ o : Oracle H Data, I (w.exec o (.getBUMP hash)).2) :
    Always (steadyEnv H Data headers) (fun _ => I)
      (fun reply w' => I w' ∧ (reply = .error .notFound → w.store.bumps.lookup hash = none) ∧
        ∀ bump, reply = .ok bump → w.store.bumps.lookup hash = some bump)
      (send (.getBUMP hash)) w := by
  refine always_steady fun o _ => ⟨hI o, hI o, ?_⟩
  cases hf : o.fault <;> cases hl : w.store.bumps.lookup hash <;>
    simp [World.exec, Tables.exec, Tables.read, hf, hl]

theorem contains_of_mem_leavesIn [DecidableEq H] (hsdk : sdk.Lawful) {bumpData : Data}
    {index : Bump.CompoundIndex H} (h : Bump.indexCompound sdk bumpData = .ok index)
    {txid : String} (ht : txid ∈ leavesIn sdk bumpData) : index.contains sdk txid = true := by
  unfold Bump.indexCompound at h
  cases hp : sdk.newMerklePathFromBinary bumpData with
  | error err => simp [hp, Except.map] at h
  | ok compound =>
    obtain rfl : Bump.CompoundIndex.ofCompound compound = index := by simpa [hp, Except.map] using h
    have hleaves : txid ∈ Builder.compoundLeaves sdk compound := by
      simpa [leavesIn, hsdk.empty _ compound hp, Builder.levelZeroTxidsFromBUMP, hp,
        Except.toOption] using ht
    obtain ⟨leaf, hleaf, x, hx, rfl⟩ := Builder.mem_compoundLeaves.mp hleaves
    exact Bump.CompoundIndex.contains_of_leaf sdk (hsdk.hex x) hleaf hx

theorem Walking.reanchor {neighbor : String} {contains : String → Bool}
    (h : Walking orphan s settled affected w) (hne : neighbor ≠ orphan) (height reanchored : Nat) :
    Always (steadyEnv H Data headers) (fun _ => Untouched orphan s)
      (fun r w' => Walking orphan s settled affected w' ∧
        (r.2 = none → Walking orphan s settled (affected.filter fun txid => !contains txid) w'))
      (remineBatches neighbor height (slices cfg.batch (affected.filter contains)) reanchored) w := by
  have hkeep : Keeps (steadyEnv H Data headers) (Walking orphan s settled affected)
      (remineBatches neighbor height (slices cfg.batch (affected.filter contains)) reanchored) w := by
    refine Always.of_makes (fun _ c o w' hc hw ho => ?_) (makes_remineBatches height _ _) h
    obtain ⟨edges, o⟩ := o
    obtain ⟨rfl, -⟩ := ho
    exact hw.exec (mild_of_within hc (by decide)) (spares_of_minesOnly hc.2 hne)
  refine ((hkeep.weaken fun _ _ h => h.untouched).also (always_remineBatches height _ _)).imp
    fun r w' hw => ⟨hw.1, fun hnone => ?_⟩
  refine ⟨hw.1.untouched, fun txid hm => mem_filter.mpr ⟨hw.1.rows txid hm, ?_⟩, hw.1.aside⟩
  by_contra hcon
  have hmem : txid ∈ affected.filter contains :=
    mem_filter.mpr ⟨hw.1.rows txid hm, by simpa using hcon⟩
  obtain ⟨batch, hbatch, hin⟩ := exists_mem_slices cfg.batch_pos hmem
  exact not_minedIn_of_minedAt (hw.2.1 hnone batch hbatch txid hin).mined hne hm

theorem clearOf_nil : ClearOf sdk orphan s [] w := by
  intro hash hh
  cases hh

theorem always_walkNeighbors [DecidableEq H] (hsdk : sdk.Lawful) (left height reanchored : Nat)
    (horphan : orphan ∉ activeFrom headers left height) (h : Walking orphan s settled affected w) :
    Always (steadyEnv H Data headers) (fun _ => Untouched orphan s)
      (fun r w' => Walking orphan s settled affected w' ∧
        (r.2 = true → ClearOf sdk orphan s (activeFrom headers left height) w'))
      (walkNeighbors sdk cfg left height affected reanchored) w := by
  induction left generalizing w height affected reanchored with
  | zero => exact ⟨h, fun _ => clearOf_nil⟩
  | succ left ih =>
    unfold walkNeighbors
    split
    · rename_i hnil
      exact ⟨h, fun _ hash _ txid _ hm => absurd (h.rows txid hm) (by simp [hnil])⟩
    · refine ((always_activeHashAt height h fun o : Oracle H Data => h.exec trivial trivial).weaken
        fun _ _ h => h.untouched).bind ?_
      rintro reply w₁ ⟨h₁, hreply⟩
      split
      · exact ⟨h₁, by simp⟩
      · have hnone := hreply none rfl
        refine ⟨h₁, fun _ => ?_⟩
        rw [activeFrom, hnone]
        exact clearOf_nil
      · rename_i neighbor
        have hfrom : activeFrom headers (left + 1) height =
            neighbor :: activeFrom headers left (height + 1) := by
          rw [activeFrom, hreply (some neighbor) rfl]
        rw [hfrom] at horphan ⊢
        obtain ⟨hne, hrest⟩ := not_or.mp (mt mem_cons.mpr horphan)
        -- what the neighbor lists is gone from the rows that the rest of the walk starts with
        have hstep : ∀ (affected' : List String) (reanchored : Nat) (w₂ : World Data),
            Walking orphan s settled affected' w₂ → affected' ⊆ affected →
            (∀ txid ∈ leavesOf sdk neighbor s, txid ∉ affected') →
            Always (steadyEnv H Data headers) (fun _ => Untouched orphan s)
              (fun r w' => Walking orphan s settled affected w' ∧ (r.2 = true →
                ClearOf sdk orphan s (neighbor :: activeFrom headers left (height + 1)) w'))
              (walkNeighbors sdk cfg left (height + 1) affected' reanchored) w₂ := by
          intro affected' reanchored w₂ h₂ hsub hgone
          refine (ih (height + 1) reanchored hrest h₂).imp fun r w' hw => ?_
          refine ⟨⟨hw.1.untouched, fun txid hm => hsub (hw.1.rows txid hm), hw.1.aside⟩,
            fun htrue hash hh => ?_⟩
          rcases mem_cons.mp hh with rfl | hh
          · exact fun txid ht hm => hgone txid ht (hw.1.rows txid hm)
          · exact hw.2 htrue hash hh
        refine ((always_getBUMP neighbor fun o : Oracle H Data => h₁.exec trivial trivial).weaken
          fun _ _ h => h.untouched).bind ?_
        rintro reply w₂ ⟨h₂, hmissing, hfound⟩
        rw [h₁.untouched.bumps] at hmissing hfound
        split
        · have hnone := hmissing rfl
          refine hstep affected reanchored w₂ h₂ (fun _ hm => hm) fun txid ht => ?_
          simp [leavesOf, hnone] at ht
        · exact ⟨h₂, by simp⟩
        · rename_i bumpHeight bumpData
          have hl := hfound _ rfl
          split
          · exact ⟨h₂, by simp⟩
          · split
            · exact ⟨h₂, by simp⟩
            · rename_i contains hindex
              refine (h₂.reanchor (Ne.symm hne) height reanchored).bind fun r w₃ h₃ => ?_
              obtain ⟨count, err⟩ := r
              cases err with
              | some err => exact ⟨h₃.1, by simp⟩
              | none =>
                refine hstep _ count w₃ (h₃.2 rfl)
                  (fun _ hm => mem_of_mem_filter hm) fun txid ht => ?_
                have hin : txid ∈ leavesIn sdk bumpData := by simpa [leavesOf, hl] using ht
                simp [contains_of_mem_leavesIn hsdk hindex hin]

theorem always_reanchorNeighborhood [DecidableEq H] (hsdk : sdk.Lawful) (height : Nat)
    (horphan : orphan ∉ neighborhood cfg headers height) (h : Walking orphan s settled affected w) :
    Always (steadyEnv H Data headers) (fun _ => Untouched orphan s)
      (fun r w' => Walking orphan s settled affected w' ∧
        (r.2 = true → ClearOf sdk orphan s (neighborhood cfg headers height) w'))
      (reanchorNeighborhood sdk cfg affected height) w := by
  unfold reanchorNeighborhood
  unfold neighborhood at horphan ⊢
  split
  · exact ⟨h, fun _ => nofun⟩
  · rename_i hz
    rw [if_neg hz] at horphan
    exact always_walkNeighbors hsdk _ _ _ horphan h

/-! ## Parking and reverting -/

/-- The active block at the height of the orphan is another one, and its BUMP was read. -/
def CanonicalRead (sdk : Sdk H Data) (headers : Nat → Except String (Option String))
    (orphan : String) (height : Nat) (s : Tables Data) (w : World Data) : Prop :=
  ∃ hash bump, activeAt headers height = some hash ∧ hash ≠ orphan ∧
    s.bumps.lookup hash = some bump ∧ (∃ e ∈ w.log, e.deed = .read hash (some bump)) ∧
    Readable sdk bump.2

theorem CanonicalRead.always {ready : Bool}
    (h : ready = true → CanonicalRead sdk headers orphan height s w) (p : Program H Data α) :
    Yields (steadyEnv H Data headers)
      (fun _ w' => ready = true → CanonicalRead sdk headers orphan height s w') p w := by
  cases ready with
  | false => exact always_of_forall (fun _ _ => trivial) (fun _ _ => nofun) p w
  | true =>
    obtain ⟨hash, bump, ha, hne, hl, ⟨e, he, hd⟩, hr⟩ := h rfl
    exact (always_mem_log he p).imp fun _ _ he' _ => ⟨hash, bump, ha, hne, hl, ⟨e, he', hd⟩, hr⟩

theorem Settled.of_untouched (h : Untouched orphan s w)
    (hclear : ClearOf sdk orphan s (claimants cfg headers height) w) :
    Settled sdk cfg headers orphan height s w :=
  ⟨fun txid hm => .inl (h.mined txid hm), hclear⟩

theorem Settled.safe (h : Settled sdk cfg headers orphan height s w) (hp : p.Makes fun _ c => Effect.txs ∉ c.effects) :
    Keeps (steadyEnv H Data headers) (Safe sdk cfg headers orphan height s) p w :=
  ((h.always hp).weaken fun _ _ hw => .inr hw).imp fun _ _ hw => .inr hw

theorem Untouched.safe (h : Untouched orphan s w) (hp : p.Makes fun _ c => Mild c) :
    Always (steadyEnv H Data headers) (fun _ => Safe sdk cfg headers orphan height s)
      (fun _ => Untouched orphan s) p w :=
  (h.always hp).weaken fun _ _ hw => .inl hw

theorem Settled.revert {o : Oracle H Data} (h : Untouched orphan s w)
    (hclear : ClearOf sdk orphan s (claimants cfg headers height) w)
    (hread : CanonicalRead sdk headers orphan height s w) :
    Settled sdk cfg headers orphan height s
      (w.exec o (.setStatusByBlockHash orphan .seenOnNetwork)).2 := by
  have hrows : ∀ txid, Store.Rewritten orphan .seenOnNetwork (w.store.txs.lookup txid)
      ((w.exec o (.setStatusByBlockHash orphan .seenOnNetwork)).2.store.txs.lookup txid) :=
    fun txid => Store.rewritten_setStatusRows
  constructor
  · intro txid hm
    obtain ⟨row, hrow, hmined⟩ := h.mined txid hm
    rcases hrows txid with heq | ⟨prev, out, hprev, hblock, -, -, -⟩
    · exact .inl ⟨row, heq.trans hrow, hmined⟩
    · obtain rfl : row = prev := Option.mem_unique hrow hprev
      have hat : MinedIn orphan txid w.store := ⟨row, hrow, hmined, hblock⟩
      obtain ⟨hash, bump, ha, hne, hl, ⟨e, he, hd⟩, hr⟩ := hread
      refine .inr ⟨⟨hash, bump, ha, hne, hl, ⟨e, mem_cons_of_mem _ he, hd⟩, hr, fun ht => ?_⟩,
        fun hash' hh ht => ?_⟩
      · refine hclear hash (mem_append_left _ (by simp [ha])) txid ?_ hat
        simpa [leavesOf, hl] using ht
      · exact hclear hash' (mem_append_right _ hh) txid ht hat
  · rintro hash hh txid ht ⟨row, hrow, hmined, hblock⟩
    rcases hrows txid with heq | ⟨prev, out, -, -, -, hout, hseen⟩
    · exact hclear hash hh txid ht ⟨row, heq.symm.trans hrow, hmined, hblock⟩
    · obtain rfl : row = out := Option.mem_unique hrow hout
      cases hseen.symm.trans hmined

theorem makes_stampReconciled (outcome : Outcome) :
    (stampReconciled mem orphan token outcome : Program H Data _).Makes
      fun _ c => Effect.txs ∉ c.effects := by
  refine .bind (by simp [Call.effects]) fun _ => .bind (by simp [Call.effects]) fun reply => ?_
  cases reply <;> simp

theorem always_revertBlock (reanchored : Nat) (h : Untouched orphan s w)
    (hclear : ClearOf sdk orphan s (claimants cfg headers height) w)
    (hread : CanonicalRead sdk headers orphan height s w) :
    Keeps (steadyEnv H Data headers) (Safe sdk cfg headers orphan height s)
      (revertBlock mem orphan token reanchored) w := by
  refine (always_bind w).mpr (always_steady fun o _ => ?_)
  have hsettled : Settled sdk cfg headers orphan height s
      (w.exec o (.setStatusByBlockHash orphan .seenOnNetwork)).2 := .revert h hclear hread
  refine ⟨.inr hsettled, hsettled.safe ?_⟩
  refine .bind ?_ fun _ => ?_
  · exact .bind (Builder.makes_publishAll_of (fun _ => by simp [Call.effects]) _)
      fun _ => by simp
  · split
    · simp
    · exact makes_stampReconciled _

theorem mem_txIDsByBlockHash {txid : String} (h : MinedIn orphan txid s) :
    txid ∈ Store.txIDsByBlockHash orphan s.txs := by
  obtain ⟨row, hrow, -, hblock⟩ := h
  refine mem_filter.mpr ⟨AList.mem_keys.mp (GoMap.mem_of_lookup hrow), ?_⟩
  simp [hrow, hblock]

theorem always_getTxIDsByBlockHash : Yields (steadyEnv H Data headers)
      (fun reply w' => w'.store = w.store ∧ ∀ affected, reply = .ok affected →
        affected = Store.txIDsByBlockHash orphan w.store.txs)
      (send (.getTxIDsByBlockHash orphan)) w := by
  refine always_steady fun o _ => ⟨trivial, ?_⟩
  cases hf : o.fault <;> simp [World.exec, Tables.exec, Tables.read, hf, eq_comm]

/-- From the point on where the active block at the height of the orphan is dealt with. -/
theorem always_settleRemainder [DecidableEq H] (hsdk : sdk.Lawful) (hcfg : cfg.revertWhenUnreconcilable = false)
    (horphan : orphan ∉ neighborhood cfg headers height) {ready : Bool} (reanchored : Nat)
    (h : Untouched orphan s w) (hclear : ClearOf sdk orphan s (activeAt headers height).toList w)
    (hread : ready = true → CanonicalRead sdk headers orphan height s w) :
    Keeps (steadyEnv H Data headers) (Safe sdk cfg headers orphan height s)
      (settleRemainder sdk cfg mem orphan token height ready reanchored) w := by
  have hmild : (send (.getTxIDsByBlockHash orphan) : Program H Data _).Makes fun _ c => Mild c :=
    .send trivial
  refine (((h.safe hmild).also always_getTxIDsByBlockHash).also (CanonicalRead.always hread _)).bind ?_
  rintro reply w₁ ⟨⟨h₁, hstore, hreply⟩, hread₁⟩
  cases reply with
  | error err => exact .inl h₁
  | ok affected =>
    have hwalk : Walking orphan s ((activeAt headers height).toList.flatMap fun hash =>
        leavesOf sdk hash s) affected w₁ := by
      refine ⟨h₁, fun txid hm => ?_, fun txid hm hin => ?_⟩
      · rw [hreply affected rfl]
        exact mem_txIDsByBlockHash (hstore ▸ hm)
      · obtain ⟨hash, hh, ht⟩ := mem_flatMap.mp hin
        exact hclear hash hh txid ht (hstore ▸ hm)
    refine (((always_reanchorNeighborhood hsdk height horphan hwalk).weaken fun _ _ h => .inl h).also
      (CanonicalRead.always hread₁ _)).bind ?_
    rintro ⟨n, complete⟩ w₂ ⟨⟨hwalk₂, hneighbors⟩, hread₂⟩
    cases complete with
    | false => exact .inl hwalk₂.untouched
    | true =>
      have hclear₂ : ClearOf sdk orphan s (claimants cfg headers height) w₂ := by
        intro hash hh
        rcases mem_append.mp hh with hh | hh
        · exact fun txid ht hm => hwalk₂.aside txid hm (mem_flatMap.mpr ⟨hash, hh, ht⟩)
        · exact hneighbors rfl hash hh
      cases ready with
      | true => exact always_revertBlock _ hwalk₂.untouched hclear₂ (hread₂ rfl)
      | false =>
        simp only [hcfg, and_self, if_true]
        refine (Settled.of_untouched hwalk₂.untouched hclear₂).safe ?_
        exact .bind (by simp [Call.effects]) fun _ => makes_stampReconciled _

/-! ## The whole pass -/

theorem makes_resurrect : (resurrect sdk cfg mem orphan height token).Makes fun _ c => Mild c := by
  refine .bind ((makes_remineAttempts sdk cfg _ _).imp fun _ _ hc =>
    mild_of_within hc (by decide)) fun done => ?_
  split
  · refine .bind (makes_deferForCanonicalBUMP (fun _ => trivial) _) fun deferred => ?_
    split
    · simp
    · exact (makes_reactivate _).imp fun _ _ hc => hc.mild
  · split
    · refine .bind (makes_handOffLoop (handOffIn_mild _) _) fun kept => ?_
      split
      · simp
      · exact .bind (makes_holdPendingRemine (handOffIn_mild _) _) fun _ => by simp
    · simp
  · exact (makes_reactivate _).imp fun _ _ hc => hc.mild

theorem always_resolveHeight (row : BlockRow) (h : Untouched orphan s w) :
    Always (steadyEnv H Data headers) (fun _ => Untouched orphan s)
      (fun height w' => Untouched orphan s w' ∧
        ∀ h, height = some h → h = heightOf w.store orphan row)
      (resolveHeight orphan row) w := by
  unfold resolveHeight heightOf
  split
  · exact ⟨h, fun h hh => (Option.some.inj hh).symm⟩
  · refine (always_getBUMP orphan fun o : Oracle H Data => h.exec trivial).bind fun reply w' hw => ?_
    split
    · refine ⟨hw.1, fun h hh => ?_⟩
      rw [hw.2.2 _ rfl]
      exact (Option.some.inj hh).symm
    · refine ⟨hw.1, fun h hh => ?_⟩
      rw [hw.2.1 rfl]
      exact (Option.some.inj hh).symm
    · exact ⟨hw.1, nofun⟩

variable [DecidableEq H]

section

variable (hsdk : sdk.Lawful) (hcfg : cfg.revertWhenUnreconcilable = false)
include hsdk hcfg

theorem always_awaitCanonicalBUMP
    (horphan : orphan ∉ neighborhood cfg headers height) (canonicalHash : String)
    (reanchored : Nat) (h : Untouched orphan s w)
    (hclear : ClearOf sdk orphan s (activeAt headers height).toList w) :
    Keeps (steadyEnv H Data headers) (Safe sdk cfg headers orphan height s)
      (awaitCanonicalBUMP sdk cfg mem orphan canonicalHash token height reanchored) w := by
  unfold awaitCanonicalBUMP
  split
  · exact always_settleRemainder hsdk hcfg horphan _ h hclear nofun
  · refine ((h.safe (makes_deferForCanonicalBUMP (fun _ => trivial) _)).also
      (always_txs (makes_deferForCanonicalBUMP (fun _ => by simp [Call.effects]) _))).bind ?_
    rintro ⟨mem', deferred⟩ w' ⟨h', htxs⟩
    cases deferred with
    | true => exact .inl h'
    | false =>
      refine always_settleRemainder hsdk hcfg horphan _ h' ?_ nofun
      intro hash hh txid ht
      rw [MinedIn, htxs]
      exact hclear hash hh txid ht

theorem always_reconcileAgainst
    (horphan : orphan ∉ neighborhood cfg headers height) (h : Untouched orphan s w) :
    Keeps (steadyEnv H Data headers) (Safe sdk cfg headers orphan height s)
      (reconcileAgainst sdk cfg mem orphan token height (activeAt headers height)) w := by
  cases hactive : activeAt headers height with
  | none =>
    refine always_settleRemainder hsdk hcfg horphan _ h ?_ (by simp)
    rw [hactive]
    intro hash hh
    cases hh
  | some canonicalHash =>
    simp only [reconcileAgainst]
    split
    · exact (h.safe makes_resurrect).imp fun _ _ hw => .inl hw
    · rename_i hne
      refine ((h.safe ((makes_remineFromStoredBUMP sdk cfg).imp fun _ _ hc =>
        mild_of_within hc (by decide))).also (always_remineFromStoredBUMP sdk cfg)).bind ?_
      rintro ⟨count, ok, err⟩ w' ⟨h', hended⟩
      have hclear : err ≠ some .failed →
          ClearOf sdk orphan s (activeAt headers height).toList w' := by
        intro herr hash hh txid ht
        obtain rfl : hash = canonicalHash := by simpa [hactive, eq_comm] using hh
        refine not_minedIn_of_minedAt (hended.marked herr txid ?_).mined hne
        rwa [leavesOf, h'.bumps]
      cases err with
      | some err =>
        cases err with
        | failed => exact .inl h'
        | malformed =>
          exact always_awaitCanonicalBUMP hsdk hcfg horphan _ _ h' (hclear (by simp))
      | none =>
        cases ok with
        | false => exact always_awaitCanonicalBUMP hsdk hcfg horphan _ _ h' (hclear (by simp))
        | true =>
          refine always_settleRemainder hsdk hcfg horphan _ h' (hclear (by simp)) fun _ => ?_
          obtain ⟨bump, hl, hread, he⟩ := hended.read rfl
          rw [h.bumps] at hl
          exact ⟨canonicalHash, bump, hactive, hne, hl, he, hread⟩

/-- What holds at every moment of a pass over an orphan. -/
theorem always_reconcileBlock
    (row : BlockRow) (horphan : orphan ∉ neighborhood cfg headers (heightOf s orphan row)) :
    Keeps (steadyEnv H Data headers) (Safe sdk cfg headers orphan (heightOf s orphan row) s)
      (reconcileBlock sdk cfg mem orphan row) ⟨s, []⟩ := by
  have h : Untouched orphan s ⟨s, []⟩ :=
    ⟨rfl, fun txid ⟨r, hr, hm, _⟩ => ⟨r, hr, hm⟩, nofun⟩
  refine ((always_resolveHeight row h).weaken fun _ _ h => .inl h).bind ?_
  rintro resolved w₁ ⟨h₁, hheight⟩
  cases resolved with
  | none => exact .inl h₁
  | some height =>
    obtain rfl : height = heightOf s orphan row := hheight height rfl
    generalize heightOf s orphan row = height at horphan ⊢
    refine ((always_activeHashAt height h₁ fun o : Oracle H Data => h₁.exec trivial).weaken
      fun _ _ h => .inl h).bind ?_
    rintro reply w₂ ⟨h₂, hactive⟩
    cases reply with
    | error err => exact .inl h₂
    | ok canonical =>
      obtain rfl := hactive canonical rfl
      exact always_reconcileAgainst hsdk hcfg horphan h₂

end

/-- Whatever fails during a pass, with the revert of what cannot be reconciled off: a row that
went from MINED in the orphan to SEEN_ON_NETWORK was disowned, and an orphan that was stamped
has no row left that one of the active blocks looked at lists. -/
theorem reconcileBlock_safe (hsdk : sdk.Lawful) (hcfg : cfg.revertWhenUnreconcilable = false)
    {row : BlockRow} (horphan : orphan ∉ neighborhood cfg headers (heightOf s orphan row))
    {out : Option (Memory × Outcome)}
    (hrun : Runs (steadyEnv H Data headers) (reconcileBlock sdk cfg mem orphan row) ⟨s, []⟩ out w) :
    (∀ txid, MinedIn orphan txid s →
      (∃ r, w.store.txs.lookup txid = some r ∧ r.status = .seenOnNetwork) →
      Disowned sdk cfg headers orphan (heightOf s orphan row) s w.log txid) ∧
    ((∃ e ∈ w.log, e.deed = .stamped orphan) →
      ClearOf sdk orphan s (claimants cfg headers (heightOf s orphan row)) w) := by
  have hsafe : Safe sdk cfg headers orphan (heightOf s orphan row) s w :=
    (always_reconcileBlock hsdk hcfg row horphan).run
      (.inl ⟨rfl, fun txid ⟨r, hr, hm, _⟩ => ⟨r, hr, hm⟩, nofun⟩) hrun
  have hseen : ∀ txid, IsMined txid w.store →
      ¬∃ r, w.store.txs.lookup txid = some r ∧ r.status = .seenOnNetwork := by
    rintro txid ⟨r, hr, hm⟩ ⟨r', hr', hs⟩
    obtain rfl : r = r' := Option.mem_unique hr hr'
    exact absurd (hm.symm.trans hs) nofun
  rcases hsafe with h | h
  · exact ⟨fun txid hm hs => absurd hs (hseen txid (h.mined txid hm)),
      fun ⟨e, he, hd⟩ => absurd hd (h.unstamped e he)⟩
  · exact ⟨fun txid hm hs => (h.mined txid hm).resolve_left fun him => hseen txid him hs,
      fun _ => h.clear⟩

end Steps

/-! ## Two passes -/

section Forked

open Bump (Bits BitsData referenceSdk)

def listing (leaf : Bits) : Nat × BitsData :=
  (7, some ⟨7, [[⟨0, some leaf, true, false⟩]]⟩)

def orphanRow : BlockRow := ⟨7, 1, 1, 1, .orphaned, 5, 0⟩

/-- The transaction 11 is MINED in an orphan that lists it; the active block lists another. -/
def forked : Tables BitsData where
  blocks := AList.singleton "orphan" orphanRow
  expected := ∅
  bumps := (AList.singleton "orphan" (listing [true, true])).insert "active" (listing [true])
  stumps := ∅
  txs := AList.singleton "11" ⟨.mined, "orphan", 7, "", [], 0, 0, "", []⟩
  published := []

/-- The settings with a neighborhood of one block. -/
def oneAbove : Config := ⟨0, 1, 0, false, 0, 0, 0, false⟩

def headed (header : Except String (Option String)) : List Edge × Oracle Bits BitsData :=
  ([], ⟨9, none, [], header, .error "", true, fun _ => 0⟩)

/-- The blocks above an active block at height 7. -/
def chainWith (above : String) (height : Nat) : Except String (Option String) :=
  .ok (some (if height ≤ 7 then "active" else above))

/-- The pass over the orphan when nothing fails. -/
def passed (above : String) : Option (Memory × Outcome) × World BitsData :=
  (reconcileBlock referenceSdk oneAbove ⟨∅, ∅⟩ "orphan" orphanRow).play
    (steadyEnv Bits _ (chainWith above))
    (List.replicate 4 (headed (.ok (some "active"))) ++ List.replicate 20 (headed (.ok (some above))))
    ⟨forked, []⟩

def steadySafe (headers : Nat → Except String (Option String)) {ρ : Type}
    (_ : World BitsData) (c : Call Bits BitsData ρ)
    (o : List Edge × Oracle Bits BitsData) : Bool :=
  o.1.isEmpty && match c with
    | .getHeaderByHeight height => decide (o.2.header = headers height)
    | _ => true

theorem runs_passed (above : String)
    (h : (reconcileBlock referenceSdk oneAbove ⟨∅, ∅⟩ "orphan" orphanRow).playSafe
      (steadyEnv Bits _ (chainWith above)) (steadySafe (chainWith above))
      (List.replicate 4 (headed (.ok (some "active"))) ++
        List.replicate 20 (headed (.ok (some above)))) ⟨forked, []⟩ = true) :
    Runs (steadyEnv Bits _ (chainWith above))
      (reconcileBlock referenceSdk oneAbove ⟨∅, ∅⟩ "orphan" orphanRow) ⟨forked, []⟩
      (passed above).1 (passed above).2 := by
  refine runs_play_safe (fun w ρ c o hsafe => ?_) h
  cases c with
  | getHeaderByHeight height =>
    have hok : o.1 = [] ∧ o.2.header = chainWith above height := by
      simpa [steadySafe] using hsafe
    exact hok
  | _ => exact ⟨by simpa [steadySafe] using hsafe, trivial⟩

theorem minedIn_forked : MinedIn "orphan" "11" forked := ⟨_, rfl, rfl, rfl⟩

theorem seen_passed {above : String}
    (h : ((passed above).2.store.txs.lookup "11").map (·.status) = some .seenOnNetwork) :
    ∃ r, (passed above).2.store.txs.lookup "11" = some r ∧ r.status = .seenOnNetwork :=
  Option.map_eq_some_iff.mp h

end Forked

/-- The active block and the one above do not list the transaction, which is reverted. -/
theorem reconcileBlock_safe_forked :
    (∃ r, (passed "other").2.store.txs.lookup "11" = some r ∧ r.status = .seenOnNetwork) ∧
      Disowned Bump.referenceSdk oneAbove (chainWith "other") "orphan" 7 forked
        (passed "other").2.log "11" := by
  have hcfg : oneAbove.revertWhenUnreconcilable = false := rfl
  have horphan : "orphan" ∉ neighborhood oneAbove (chainWith "other")
    (heightOf forked "orphan" orphanRow) := by decide +kernel
  have hseen : ∃ r, (passed "other").2.store.txs.lookup "11" = some r ∧
    r.status = .seenOnNetwork := seen_passed (by decide +kernel)
  exact ⟨hseen, (reconcileBlock_safe Bump.referenceSdk_lawful hcfg horphan
    (runs_passed "other" (by decide +kernel))).1 "11" minedIn_forked hseen⟩

/-- With the orphan itself at the height above, the transaction is marked in it and then
reverted, although that active block lists it. -/
theorem orphan_above_unmined : Runs (steadyEnv Bump.Bits _ (chainWith "orphan"))
        (reconcileBlock Bump.referenceSdk oneAbove ⟨∅, ∅⟩ "orphan" orphanRow) ⟨forked, []⟩
        (passed "orphan").1 (passed "orphan").2 ∧
      MinedIn "orphan" "11" forked ∧
      (∃ r, (passed "orphan").2.store.txs.lookup "11" = some r ∧ r.status = .seenOnNetwork) ∧
      "orphan" ∈ neighborhood oneAbove (chainWith "orphan") 7 ∧
      "11" ∈ leavesOf Bump.referenceSdk "orphan" forked :=
  ⟨runs_passed "orphan" (by decide +kernel), minedIn_forked, seen_passed (by decide +kernel),
    by decide +kernel, by decide +kernel⟩

end Arcade.Reconciler
