import Arcade.Reconciler.Reconcile

/-!
A queued block that is canonical again, and what becomes of its repair.

Any call may fail, and the other edges may write the row at any time. A pass has to leave
the repair done, or the block where another pass finds it. It does, except when its last
word is a read of the BUMP that failed: then it returns as if the row were still queued,
while another edge may have made it active.
-/

namespace Arcade.Reconciler

open Lib List
open Bump (Sdk)
open Store (Program Call Tables Oracle Effect BlockRow Blocks)
open Builder (MinesOnly Within leavesOf)
open Prog (send)

variable {H Data ρ : Type}

/-- Any failure is open, and so is what the other edges do. -/
def openEnv (H Data : Type) : Env (Call H Data) (List Edge × Oracle H Data) (World Data) :=
  passEnv fun _ _ _ => True

/-! ## The row during a pass -/

/-- The row is gone, parked, or on the queue. -/
def Shelved (row : Option BlockRow) : Prop := ∀ r ∈ row, r.Queued ∨ r.status = .parked

def OnQueue (row : Option BlockRow) : Prop := ∀ r ∈ row, r.status = .orphaned → r.reconciledAt = 0

def IsActive (row : Option BlockRow) : Prop := ∃ r ∈ row, r.status = .active

instance (row : Option BlockRow) : Decidable (IsActive row) :=
  inferInstanceAs (Decidable (∃ r ∈ row, r.status = .active))

theorem OnQueue.shelved_iff {row : Option BlockRow} (h : OnQueue row) :
    Shelved row ↔ ¬IsActive row := by
  constructor
  · rintro hs ⟨r, hr, ha⟩
    rcases hs r hr with hq | hp
    · exact absurd (ha.symm.trans hq.1) nofun
    · exact absurd (ha.symm.trans hp) nofun
  · intro hn r hr
    cases hs : r.status with
    | active => exact absurd ⟨r, hr, hs⟩ hn
    | orphaned => exact .inl ⟨hs, h r hr hs⟩
    | parked => exact .inr rfl

theorem OnQueue.markOrphaned {row : BlockRow} (h : OnQueue (some row)) (gen : Int64) :
    OnQueue (some ((Store.markOrphaned gen row).getD row)) := by
  cases hm : Store.markOrphaned gen row with
  | none => exact h
  | some out =>
    rintro _ ⟨⟩ _
    exact (Store.markOrphaned_queued hm).2

theorem onQueue_of_eq {row out : BlockRow} (h : OnQueue (some row)) (hs : out.status = row.status)
    (hr : out.reconciledAt = row.reconciledAt) : OnQueue (some out) := by
  rintro _ ⟨⟩ ho
  rw [hr]
  exact h row rfl (hs ▸ ho)

theorem OnQueue.casOrphan {row : BlockRow} (h : OnQueue (some row)) {token : Option Int64}
    {write : BlockRow → BlockRow} (hw : (write row).reconciledAt = 0) :
    OnQueue (some ((Store.casOrphan token write row).getD row)) := by
  cases hc : Store.casOrphan token write row with
  | none => exact h
  | some out =>
    obtain ⟨-, -, rfl⟩ := Store.casOrphan_eq_some.mp hc
    rintro _ ⟨⟩ _
    exact hw

theorem OnQueue.rowWrite {row : Option BlockRow} {c : Call H Data ρ} {o : Oracle H Data}
    {b : String} (hc : Mild c) (h : OnQueue row) : OnQueue (c.rowWrite o b row) := by
  cases c with
  | markBlockReconciled => exact hc.elim
  | markBlockProcessed hash height | markBlockBUMPBuilt hash height =>
    simp only [Call.rowWrite]
    split
    · cases row with
      | none => rintro _ ⟨⟩ ⟨⟩
      | some row => exact onQueue_of_eq h rfl rfl
    · exact h
  | clearBlockProcessed hash =>
    simp only [Call.rowWrite]
    split
    · cases row with
      | none => rintro _ ⟨⟩ ⟨⟩
      | some row => exact onQueue_of_eq h rfl rfl
    · exact h
  | markBlocksOrphaned hashes =>
    simp only [Call.rowWrite]
    split
    · cases row with
      | none => rintro _ ⟨⟩ ⟨⟩
      | some row => exact h.markOrphaned o.now
    · exact h
  | requeueOrphanedBlock hash token | reactivateBlock hash height token =>
    simp only [Call.rowWrite]
    split
    · cases row with
      | none => rintro _ ⟨⟩ ⟨⟩
      | some row => exact h.casOrphan rfl
    · exact h
  | _ => exact h

theorem onQueue_writeRow {blocks : Blocks} {b hash : String} {row : Option BlockRow}
    (h : OnQueue (blocks.lookup b)) (hrow : b = hash → OnQueue row) :
    OnQueue ((Store.writeRow blocks hash row).lookup b) := by
  cases row with
  | none => exact h
  | some row =>
    rw [Store.writeRow, GoMap.lookup_insert_eq]
    split
    · exact hrow ‹_›
    · exact h

theorem OnQueue.edge {blocks : Blocks} {b : String} (h : OnQueue (blocks.lookup b)) (e : Edge) :
    OnQueue ((e.write blocks).lookup b) := by
  cases e with
  | reactivate hash height token =>
    refine onQueue_writeRow h ?_
    rintro rfl
    cases hl : blocks.lookup b with
    | none => nofun
    | some row =>
      intro r hr _
      have hcas : Store.reactivateBlock height token row = some r := hr
      obtain ⟨-, -, rfl⟩ := Store.casOrphan_eq_some.mp hcas
      rfl
  | headerSeen hash height seenAt =>
    rw [Edge.write, GoMap.lookup_insert_eq]
    split
    · rintro _ ⟨⟩ hs
      cases hl : blocks.lookup hash <;> rw [hl] at hs <;> cases hs
    · exact h
  | orphan hashes orphanedAt =>
    exact Tables.foldl_markRow_lookup (fun _ prev hp => hp.markOrphaned orphanedAt) h
  | park hash =>
    refine onQueue_writeRow h ?_
    rintro rfl
    cases hl : blocks.lookup b with
    | none => nofun
    | some row =>
      rintro _ ⟨⟩ hs
      rw [hl] at h
      unfold Store.markBlockParked at hs ⊢
      split
      · rw [if_pos ‹_›] at hs
        cases hs
      · rw [if_neg ‹_›] at hs
        exact h row rfl hs

/-! ## Where a repair is found again -/

section Found

variable {b : String} {w : World Data} {o : Oracle H Data} {c : Call H Data ρ}

/-- Whenever the row was orphaned, it was on the queue. -/
structure Clean (b : String) (w : World Data) : Prop where
  row : OnQueue (w.store.blocks.lookup b)
  log : ∀ e ∈ w.log, OnQueue (e.blocks.lookup b)

theorem Clean.edge (h : Clean b w) (e : Edge) : Clean b (w.edge e) := by
  refine ⟨h.row.edge e, fun entry hm => ?_⟩
  rcases mem_cons.mp hm with rfl | hm
  · exact h.row.edge e
  · exact h.log entry hm

theorem Clean.after (h : Clean b w) (edges : List Edge) : Clean b (w.after edges) := by
  induction edges generalizing w with
  | nil => exact h
  | cons e edges ih => exact ih (h.edge e)

theorem Clean.exec (h : Clean b w) (hc : Mild c) : Clean b (w.exec o c).2 := by
  have hrow : OnQueue ((w.exec o c).2.store.blocks.lookup b) :=
    Tables.exec_lookup h.row fun row hr => hr.rowWrite hc
  refine ⟨hrow, fun entry hm => ?_⟩
  rcases mem_cons.mp hm with rfl | hm
  · exact hrow
  · exact h.log entry hm

/-- At some moment since the last attempt the row was gone, parked, or on the queue. -/
def Caught (b : String) (w : World Data) : Prop :=
  ∃ e ∈ sinceAttempt b w.log, Shelved (e.blocks.lookup b)

theorem Caught.after (h : Caught b w) (edges : List Edge) : Caught b (w.after edges) := by
  induction edges generalizing w with
  | nil => exact h
  | cons e edges ih =>
    apply ih
    obtain ⟨entry, hm, hs⟩ := h
    refine ⟨entry, ?_, hs⟩
    exact mem_cons_of_mem _ hm

theorem Caught.of_exec (hc : Passive b c)
    (h : Shelved ((w.exec o c).2.store.blocks.lookup b)) : Caught b (w.exec o c).2 := by
  refine ⟨⟨(w.exec o c).2.store.blocks, World.deed w.store o c⟩, ?_, h⟩
  rw [World.exec, sinceAttempt_cons (attempts_deed hc w.store)]
  exact mem_cons_self

/-- Every transaction of the stored BUMP was written by the pass. -/
def AllWritten (sdk : Sdk H Data) (b : String) (w : World Data) : Prop :=
  ∀ txid ∈ leavesOf sdk b w.store, ∀ row, w.store.txs.lookup txid = some row →
    row.status ≠ .immutable → txid ∈ writtenIn b w.log

/-- The repair is done, or the block is where another pass finds it. -/
def Retained (sdk : Sdk H Data) (b : String) (mem : Memory) (w : World Data) : Prop :=
  AllWritten sdk b w ∨ Caught b w ∨ b ∈ mem.pendingRemine

/-- The last attempt was a read that failed, the row is active from there on, the block was not
held before, and something is left to be marked. -/
structure Dropped (sdk : Sdk H Data) (b : String) (mem : Memory) (w : World Data) : Prop where
  unread : LastUnread b w.log
  active : ∀ e ∈ sinceAttempt b w.log, IsActive (e.blocks.lookup b)
  unheld : b ∉ mem.pendingRemine
  unwritten : ∃ txid ∈ leavesOf sdk b w.store, ∃ row, w.store.txs.lookup txid = some row ∧
    row.status ≠ .immutable ∧ txid ∉ writtenIn b w.log

theorem HandsOff.passive (hc : HandsOff c) : Passive b c := by
  cases c with
  | getBUMP | setMinedByTxIDs => exact hc.elim
  | _ => trivial

end Found

/-! ## Handing on -/

section HandOff

variable {cfg : Config} {mem : Memory} {b : String} {height : Nat} {token : Option Int64}
  {w : World Data} {α : Type} {p : Program H Data α}

theorem Clean.always (h : Clean b w) (hp : p.Makes fun _ c => Mild c) :
    Yields (openEnv H Data) (fun _ => Clean b) p w :=
  Always.of_makes_along (fun _ _ _ _ hc hw _ => ⟨trivial, (hw.after _).exec hc⟩) hp h

theorem always_open {Q : α → World Data → Prop} {c : Call H Data α}
    (h : ∀ edges o, Q ((w.after edges).exec o c).1 ((w.after edges).exec o c).2) :
    Yields (openEnv H Data) Q (send c) w :=
  always_exec fun edges o _ => ⟨trivial, h edges o⟩

theorem caught_requeue : Yields (openEnv H Data) (fun reply w' => reply = .ok true → Caught b w')
      (send (.requeueOrphanedBlock b token)) w := by
  refine always_open fun edges o hreply => Caught.of_exec trivial ?_
  generalize w.after edges = w at hreply ⊢
  change (w.store.casWrite o.fault b (Store.requeueOrphanedBlock token)).1 = .ok true at hreply
  change Shelved ((w.store.casWrite o.fault b (Store.requeueOrphanedBlock token)).2.blocks.lookup b)
  unfold Tables.casWrite at hreply ⊢
  cases hrow : (w.store.blocks.lookup b).bind (Store.requeueOrphanedBlock token) with
  | none => cases hf : o.fault <;> simp [hrow, hf, Tables.write] at hreply
  | some row =>
    cases hf : o.fault with
    | some f => simp [hrow, hf, Tables.write] at hreply
    | none =>
      obtain ⟨prev, -, hcas⟩ := Option.bind_eq_some_iff.mp hrow
      obtain ⟨hs, -, rfl⟩ := Store.casOrphan_eq_some.mp hcas
      simp only [Tables.write, AList.lookup_insert]
      rintro _ ⟨⟩
      exact .inl ⟨hs, rfl⟩

theorem caught_getBlockProcessingStatus (h : Clean b w) :
    Yields (openEnv H Data) (fun reply w' => Clean b w' ∧ (reply = .error .notFound → Caught b w') ∧
        ∀ row, reply = .ok row → row.status ≠ .active → Caught b w')
      (send (.getBlockProcessingStatus b)) w := by
  refine always_open fun edges o => ?_
  have hclean := h.after edges
  generalize w.after edges = w at hclean
  have hstore : (w.exec o (.getBlockProcessingStatus b)).2.store = w.store := by
    simp [World.exec, Tables.exec]
  have hcaught : Shelved (w.store.blocks.lookup b) →
      Caught b (w.exec o (.getBlockProcessingStatus b)).2 :=
    fun hs => Caught.of_exec trivial (hstore ▸ hs)
  refine ⟨hclean.exec trivial, fun hreply => hcaught ?_, fun row hreply hne => hcaught ?_⟩
  · cases hf : o.fault <;> cases hl : w.store.blocks.lookup b <;>
      simp [World.exec, Tables.exec, Tables.read, hf, hl] at hreply
    rintro _ ⟨⟩
  · rw [hclean.row.shelved_iff]
    rintro ⟨r, hr, hactive⟩
    cases hf : o.fault <;>
      simp [World.exec, Tables.exec, Tables.read, hf, Option.mem_def.mp hr] at hreply
    exact hne (hreply ▸ hactive)

theorem caught_markBlocksOrphaned (h : Clean b w) :
    Yields (openEnv H Data) (fun reply w' => reply = .ok () → Caught b w')
      (send (.markBlocksOrphaned [b])) w := by
  refine always_open fun edges o hreply => Caught.of_exec trivial ?_
  have hclean := h.after edges
  generalize w.after edges = w at hclean hreply ⊢
  cases hf : o.fault with
  | some f => simp [World.exec, Tables.exec, hf] at hreply
  | none =>
    change Shelved ((Store.markBlocksOrphaned (Tables.reached o.fault [b]) o.now
      w.store.blocks).1.lookup b)
    rw [hf, Tables.reached, Store.markBlocksOrphaned, foldl_cons, foldl_nil,
      Store.lookup_markRow, if_pos rfl]
    cases hl : w.store.blocks.lookup b with
    | none => rintro _ ⟨⟩
    | some prev =>
      cases hm : Store.markOrphaned o.now prev with
      | none =>
        have horphaned := (Store.markOrphaned_eq_none.mp hm).1
        have hqueued : prev.Queued := ⟨horphaned, hclean.row prev hl horphaned⟩
        intro r hr
        obtain rfl : prev = r := by simpa [hm] using hr
        exact .inl hqueued
      | some row =>
        intro r hr
        obtain rfl : row = r := by simpa [hm] using hr
        exact .inl (Store.markOrphaned_queued hm)

theorem caught_handOffPartialRemine (h : Clean b w) :
    Yields (openEnv H Data) (fun kept w' => kept = true → Caught b w')
      (handOffPartialRemine cfg b token) w := by
  have hrequeue : (send (.requeueOrphanedBlock b token) : Program H Data _).Makes
      fun _ c => Mild c := .send trivial
  refine ((h.always hrequeue).also caught_requeue).bind fun reply w₁ h₁ => ?_
  split
  · nofun
  · exact fun _ => h₁.2 rfl
  · refine (caught_getBlockProcessingStatus h₁.1).bind fun status w₂ h₂ => ?_
    split
    · exact fun _ => h₂.2.1 rfl
    · nofun
    · rename_i row
      split
      · rename_i hne
        exact fun _ => h₂.2.2 row rfl hne
      · refine (h₂.1.always (makes_requestRebuild (fun _ => trivial) b)).bind fun _ w₃ h₃ => ?_
        refine (caught_markBlocksOrphaned h₃).bind fun marked w₄ h₄ => ?_
        split
        · nofun
        · exact fun _ => h₄ rfl

theorem caught_handOffLoop (left : Nat) (h : Clean b w) :
    Yields (openEnv H Data) (fun kept w' => kept = true → Caught b w')
      (handOffLoop cfg b token left) w := by
  induction left generalizing w with
  | zero => nofun
  | succ left ih =>
    refine ((h.always (makes_handOffPartialRemine (handOffIn_mild b))).also
      (caught_handOffPartialRemine h)).bind fun kept w₁ h₁ => ?_
    split
    · rename_i hkept
      exact fun _ => h₁.2 hkept
    · exact ih h₁.1

theorem always_not_lastUnread (hp : p.Makes fun _ c => HandsOff c) (h : ¬LastUnread b w.log) :
    Yields (openEnv H Data) (fun _ w' => ¬LastUnread b w'.log) p w := by
  refine Always.of_makes_along (fun _ c o w' hc hw _ => ⟨trivial, fun hu => hw ?_⟩) hp h
  exact (lastUnread_after _).mp ((lastUnread_exec hc.passive).mp hu)

theorem always_holdPendingRemine (hroom : mem.pendingRemine.keys.length < maxPendingRemines) :
    Yields (openEnv H Data) (fun mem' _ => b ∈ mem'.pendingRemine)
      (holdPendingRemine cfg mem b height) w := by
  refine (always_of_forall (fun _ _ => trivial) (fun _ _ => trivial) _ w).bind
    (P := fun _ _ => True) fun _ w' _ => ?_
  rw [if_neg (by omega)]
  simp

end HandOff

/-! ## The repair -/

section Repair

variable {sdk : Sdk H Data} {cfg : Config} {mem : Memory} {b : String} {height : Nat}
  {token : Option Int64} {s : Tables Data} {w : World Data} {bump : Nat × Data}

theorem AllWritten.of_marked (h : ∀ txid ∈ leavesOf sdk b w.store, Marked b txid w) :
    AllWritten sdk b w := fun txid ht => (h txid ht).written

theorem AllWritten.after (h : AllWritten sdk b w) (edges : List Edge) :
    AllWritten sdk b (w.after edges) := by
  intro txid ht row hrow hne
  obtain ⟨entries, he⟩ := log_after (w := w) edges
  rw [he, writtenIn_append]
  rw [leavesOf, after_bumps] at ht
  rw [after_txs] at hrow
  exact mem_append_right _ (h txid ht row hrow hne)

theorem HandsOff.effects {c : Call H Data ρ} (hc : HandsOff c) : Effect.txs ∉ c.effects := by
  cases c <;> first | exact hc.elim | simp [Call.effects]

theorem AllWritten.exec {c : Call H Data ρ} {o : Oracle H Data} (h : AllWritten sdk b w)
    (hc : Mild c) (htxs : Effect.txs ∉ c.effects) : AllWritten sdk b (w.exec o c).2 := by
  intro txid ht row hrow hne
  rw [leavesOf, show (w.exec o c).2.store.bumps = w.store.bumps from hc.bumps] at ht
  rw [show (w.exec o c).2.store.txs = w.store.txs from (w.store.exec_agrees o c).txs htxs] at hrow
  exact mem_append_right _ (h txid ht row hrow hne)

/-- How a pass ends: done, caught, held, or with a read that failed. -/
def Finished (sdk : Sdk H Data) (b : String) (mem : Memory) (r : Memory × Outcome) (w : World Data) :
    Prop :=
  (AllWritten sdk b w ∨ Caught b w ∨ b ∈ r.1.pendingRemine ∧ ¬LastUnread b w.log) ∨
    LastUnread b w.log ∧ r.1 = mem

theorem finished_reactivate (h : AllWritten sdk b w) :
    Yields (openEnv H Data) (Finished sdk b mem) (reactivate mem b height token) w := by
  have hkeep : Yields (openEnv H Data) (fun _ => AllWritten sdk b)
      (reactivate mem b height token) w :=
    Always.of_makes_along (fun _ _ _ _ hc hw _ => ⟨trivial, (hw.after _).exec hc.mild hc.effects⟩)
      (makes_reactivate mem) h
  exact hkeep.imp fun _ _ hw => .inl (.inl hw)

theorem finished_resurrect (hl : w.store.bumps.lookup b = some bump) (hread : Readable sdk bump.2)
    (hroom : mem.pendingRemine.keys.length < maxPendingRemines) (h : Clean b w) :
    Yields (openEnv H Data) (fun r w' => Clean b w' ∧ Finished sdk b mem r w')
      (resurrect sdk cfg mem b height token) w := by
  refine (h.always makes_resurrect).also ?_
  have hmild : (remineWithRetry sdk cfg b).Makes fun _ c => Mild c :=
    (makes_remineAttempts sdk cfg _ _).imp fun _ _ hc => mild_of_within hc (by decide)
  refine ((h.always hmild).also (always_remineAttempts sdk cfg _ _)).bind ?_
  rintro ⟨count, ok, err⟩ w₁ ⟨h₁, hended⟩
  cases err with
  | none => exact finished_reactivate (.of_marked (hended.marked nofun))
  | some err =>
    cases err with
    | malformed =>
      obtain ⟨bump', hl', hbad⟩ := hended.malformed rfl
      obtain rfl : bump = bump' := Option.mem_unique hl hl'
      exact absurd hread hbad
    | failed =>
      have hlast := hended.failed rfl
      cases ok with
      | false => exact .inr ⟨hlast.mpr rfl, rfl⟩
      | true =>
        have htried : ¬LastUnread b w₁.log := fun hu => absurd (hlast.mp hu) nofun
        refine ((always_not_lastUnread (makes_handOffLoop (handOffIn_handsOff b) _) htried).also
          (caught_handOffLoop _ h₁)).bind fun kept w₂ h₂ => ?_
        split
        · rename_i hkept
          exact .inl (.inr (.inl (h₂.2 hkept)))
        · refine ((always_not_lastUnread
            (makes_holdPendingRemine (handOffIn_handsOff b) _) h₂.1).also
            (always_holdPendingRemine hroom)).bind fun mem' w₃ h₃ => ?_
          exact .inl (.inr (.inr ⟨h₃.2, h₃.1⟩))

theorem sinceAttempt_subset (log : List (Entry Data)) : sinceAttempt b log ⊆ log := by
  induction log with
  | nil => exact fun _ h => h
  | cons e log ih =>
    rw [sinceAttempt]
    split
    · simp
    · exact cons_subset_cons e ih

theorem Clean.caught_iff (h : Clean b w) :
    Caught b w ↔ ¬∀ e ∈ sinceAttempt b w.log, IsActive (e.blocks.lookup b) := by
  simp only [Caught, not_forall, exists_prop]
  refine exists_congr fun e => and_congr_right fun he => ?_
  exact (h.log e (sinceAttempt_subset _ he)).shelved_iff

theorem allWritten_iff : AllWritten sdk b w ↔ ¬∃ txid ∈ leavesOf sdk b w.store,
    ∃ row, w.store.txs.lookup txid = some row ∧ row.status ≠ .immutable ∧
      txid ∉ writtenIn b w.log := by
  simp only [AllWritten, not_exists, not_and, not_not]

theorem dropped_iff (h : Clean b w) : Dropped sdk b mem w ↔
    LastUnread b w.log ∧ ¬Caught b w ∧ b ∉ mem.pendingRemine ∧ ¬AllWritten sdk b w := by
  rw [h.caught_iff, allWritten_iff, not_not, not_not]
  exact ⟨fun hd => ⟨hd.unread, hd.active, hd.unheld, hd.unwritten⟩,
    fun ⟨hu, ha, hh, hw⟩ => ⟨hu, ha, hh, hw⟩⟩

theorem Finished.after {r : Memory × Outcome} (h : Finished sdk b mem r w) (edges : List Edge) :
    Finished sdk b mem r (w.after edges) := by
  rw [Finished, lastUnread_after]
  exact h.imp (Or.imp (fun hw => hw.after edges) (Or.imp (fun hc => hc.after edges) id)) id

variable (hl : s.bumps.lookup b = some bump) (hread : Readable sdk bump.2) {row : BlockRow}
  (hrow : s.blocks.lookup b = some row) (hqueued : row.Queued)
  (hroom : mem.pendingRemine.keys.length < maxPendingRemines) {mem' : Memory} {outcome : Outcome}
  (hrun : Runs (openEnv H Data) (resurrect sdk cfg mem b height row.orphanGeneration) ⟨s, []⟩
    (some (mem', outcome)) w)

include hl hread hrow hqueued hroom hrun

theorem finished_of_run (edges : List Edge) :
    Clean b (w.after edges) ∧ Finished sdk b mem (mem', outcome) (w.after edges) := by
  have hstart : Clean b ⟨s, []⟩ := by
    refine ⟨fun r hr _ => ?_, nofun⟩
    obtain rfl : row = r := Option.mem_unique hrow hr
    exact hqueued.2
  obtain ⟨hclean, hfinished⟩ := ((finished_resurrect hl hread hroom hstart).run
    (I := fun _ => True) trivial hrun fun _ _ _ => trivial).2 _ rfl
  exact ⟨hclean.after edges, hfinished.after edges⟩

/-- If the last attempt was not a read that failed, the repair is done or the block is where
another pass finds it. -/
theorem retained_of_tried (htried : ¬LastUnread b w.log) (edges : List Edge) :
    Retained sdk b mem' (w.after edges) := by
  rcases (finished_of_run hl hread hrow hqueued hroom hrun edges).2 with hdone | ⟨hu, -⟩
  · exact hdone.imp_right (Or.imp_right And.left)
  · exact absurd ((lastUnread_after edges).mp hu) htried

/-- A pass over a queued block that is canonical again, at its return and after any writes of
the other edges that come before it: the repair is done, or the block is where another pass finds
it, unless the last attempt was a read that failed while the row was active. -/
theorem resurrect_retained_iff (edges : List Edge) :
    Retained sdk b mem' (w.after edges) ↔ ¬Dropped sdk b mem (w.after edges) := by
  obtain ⟨hclean, hfinished⟩ := finished_of_run hl hread hrow hqueued hroom hrun edges
  rw [dropped_iff hclean, Retained]
  rcases hfinished with (hw | hc | ⟨hp, hu⟩) | ⟨hu, heq⟩
  · simp [hw]
  · simp [hc]
  · simp [hp, hu]
  · obtain rfl : mem' = mem := heq
    tauto

end Repair

/-! ## A read that fails -/

section Unread

open Bump (Bits BitsData referenceSdk)

/-- The orphan is queued, and its transaction is not MINED anywhere. -/
def unanchored : Tables BitsData :=
  { forked with txs := AList.singleton "11" ⟨.seenOnNetwork, "", 0, "", [], 0, 0, "", []⟩ }

/-- The pass over it when the read of the BUMP fails after the edges have acted. -/
def unreadAfter (edges : List Edge) :
    Option (Memory × Outcome) × World BitsData :=
  (resurrect referenceSdk oneAbove ⟨∅, ∅⟩ "orphan" 7 orphanRow.orphanGeneration).play (openEnv Bits _)
    [(edges, ⟨9, some ⟨"timeout", 0⟩, [], .error "", .error "", true, fun _ => 0⟩)] ⟨unanchored, []⟩

theorem runs_unreadAfter (edges : List Edge) : Runs (openEnv Bits _)
      (resurrect referenceSdk oneAbove ⟨∅, ∅⟩ "orphan" 7 orphanRow.orphanGeneration) ⟨unanchored, []⟩
      (some (⟨∅, ∅⟩, .error)) (unreadAfter edges).2 := by
  have hout : (unreadAfter edges).1 = some (⟨∅, ∅⟩, .error) := rfl
  rw [← hout]
  exact runs_play (fun _ _ _ _ _ => trivial) _ _

theorem readable_orphan : Readable referenceSdk (listing [true, true]).2 := ⟨rfl, _, rfl⟩

end Unread

/-- While nobody else writes, the row is still queued when the pass returns. -/
theorem resurrect_retained_iff_quiet :
    Retained Bump.referenceSdk "orphan" ⟨∅, ∅⟩ (unreadAfter []).2 := by
  have hl : unanchored.bumps.lookup "orphan" = some (listing [true, true]) := by decide +kernel
  have hrow : unanchored.blocks.lookup "orphan" = some orphanRow := by decide +kernel
  have hroom : (⟨∅, ∅⟩ : Memory).pendingRemine.keys.length < maxPendingRemines := by decide
  refine (resurrect_retained_iff hl readable_orphan hrow (by decide) hroom (runs_unreadAfter [])
    []).mpr fun hdropped => ?_
  exact absurd hdropped.active (by decide +kernel)

/-- The tracker sees the header of the block again before the read fails. The pass returns, the
row is active, and nothing was marked. -/
theorem reactivated_unread_dropped : Runs (openEnv Bump.Bits _)
        (resurrect Bump.referenceSdk oneAbove ⟨∅, ∅⟩ "orphan" 7 orphanRow.orphanGeneration)
        ⟨unanchored, []⟩ (some (⟨∅, ∅⟩, .error)) (unreadAfter [.headerSeen "orphan" 7 9]).2 ∧
      orphanRow.Queued ∧ unanchored.blocks.lookup "orphan" = some orphanRow ∧
      unanchored.bumps.lookup "orphan" = some (listing [true, true]) ∧
      Readable Bump.referenceSdk (listing [true, true]).2 ∧
      ¬Retained Bump.referenceSdk "orphan" ⟨∅, ∅⟩ (unreadAfter [.headerSeen "orphan" 7 9]).2 := by
  refine ⟨runs_unreadAfter _, by decide, by decide +kernel, by decide +kernel, readable_orphan, ?_⟩
  rintro (hwritten | ⟨e, he, hs⟩ | hheld)
  · have hmem := hwritten "11" (by decide +kernel) ⟨.seenOnNetwork, "", 0, "", [], 0, 0, "", []⟩
      (by decide +kernel) (by decide)
    exact absurd hmem (by decide +kernel)
  · have hactive : ∀ e ∈ sinceAttempt "orphan" (unreadAfter [.headerSeen "orphan" 7 9]).2.log,
        IsActive (e.blocks.lookup "orphan") := by decide +kernel
    obtain ⟨r, hr, ha⟩ := hactive e he
    rcases hs r hr with hq | hp
    · exact absurd (ha.symm.trans hq.1) nofun
    · exact absurd (ha.symm.trans hp) nofun
  · exact absurd hheld (by decide)

end Arcade.Reconciler
