import Arcade.Reconciler.Resurrect
import Arcade.Store.OrphanQueue
import Arcade.Store.Pager

/-!
The startup full-scan: every row of a window of heights is judged against the active chain,
active rows that are off it are orphaned, and orphaned rows that are on it are repaired.

The header source has one answer for each height, but a lookup may fail. Nobody else
writes, and any call may fail. Only a scan that reports completion retires the one-shot, so
that report has to account for every row of the window.
-/

namespace Arcade.Reconciler

open Lib List
open Bump (Sdk)
open Store (Program Call Tables Oracle Effect BlockRow Blocks forEachBlockProcessing)
open Builder (Within leavesOf)
open Prog (send)

variable {H Data ρ : Type}

/-! ## Judging -/

/-- `markedSet`, `resurrectSet` and `unjudged`. -/
structure ScanSets where
  marked : GoMap String Nat
  resurrect : GoMap String BlockRow
  unjudged : Nat

def defaultFullScanDepth : Nat := 144

/-- The window: the lowest height, and the highest unless it is 0. -/
def fullScanBounds (cfg : Config) : Program H Data (Nat × Nat) :=
  if cfg.fullScanMinHeight > 0 ∨ cfg.fullScanMaxHeight > 0 then
    pure (cfg.fullScanMinHeight, cfg.fullScanMaxHeight)
  else do
    let depth := if cfg.fullScanDepth ≤ 0 then defaultFullScanDepth else cfg.fullScanDepth.toNat
    match ← send .getActiveTipBlockHeight with
    | .error _ => return (0, 0)
    | .ok tip => if tip = 0 ∨ tip ≤ depth then return (0, 0) else return (tip - depth, 0)

def Judged (maxHeight : Nat) (row : BlockRow) : Prop :=
  (row.status = .active ∨ row.status = .orphaned) ∧ 0 < row.blockHeight ∧ row.blockHeight < 2 ^ 32 ∧
    (maxHeight > 0 → row.blockHeight ≤ maxHeight)

instance (maxHeight : Nat) (row : BlockRow) : Decidable (Judged maxHeight row) :=
  inferInstanceAs (Decidable (_ ∧ _))

/-- What the walk does with a row; it never fails. -/
def judgeRow (maxHeight : Nat) (sets : ScanSets) (e : String × BlockRow) :
    Program H Data (ScanSets × Option String) :=
  if ¬Judged maxHeight e.2 ∨ e.1 ∈ sets.marked ∨ e.1 ∈ sets.resurrect then pure (sets, none)
  else do
    match ← activeHashAt e.2.blockHeight with
    | .ok (some canonical) =>
      if e.2.status = .active ∧ canonical ≠ e.1 then
        return ({ sets with marked := sets.marked.insert e.1 e.2.blockHeight }, none)
      else if e.2.status = .orphaned ∧ canonical = e.1 then
        return ({ sets with resurrect := sets.resurrect.insert e.1 e.2 }, none)
      else return (sets, none)
    | _ => return ({ sets with unjudged := sets.unjudged + 1 }, none)

/-! ## Active rows that are off the chain -/

/-- Look at the candidates once more: those to be marked, and whether all could be judged. -/
def recheckMarked (set : GoMap String Nat) :
    List String → List String → Bool → Program H Data (List String × Bool)
  | [], marked, complete => pure (marked, complete)
  | hash :: rest, marked, complete => do
    match ← activeHashAt ((set.lookup hash).getD 0) with
    | .ok (some canonical) =>
      if canonical = hash then recheckMarked set rest marked complete
      else recheckMarked set rest (marked ++ [hash]) complete
    | _ => recheckMarked set rest marked false

def fullScanMarkOrphaned (order : MapOrder String) (set : GoMap String Nat) :
    Program H Data Bool := do
  match ← recheckMarked set (order.visit "marked" set.keys) [] true with
  | ([], complete) => return complete
  | (marked, complete) =>
    match ← send (.markBlocksOrphaned marked) with
    | .error _ => return false
    | .ok _ => return complete

/-! ## Orphaned rows that are on the chain -/

section Resurrect

variable (sdk : Sdk H Data) (cfg : Config)

def requeueForTick (hash : String) (row : BlockRow) : Program H Data Bool := do
  match ← send (.requeueOrphanedBlock hash row.orphanGeneration) with
  | .error _ => return false
  | .ok _ => return true

/-- `holdPendingRemine` where a hand-off was refused; the scan is not complete. -/
def holdRefused (mem : Memory) (hash : String) (height : Nat) : Program H Data (Memory × Bool) := do
  let mem ← holdPendingRemine cfg mem hash height
  return (mem, false)

/-- A repaired block goes back to active if it is still the active-chain block. -/
def reactivateHealed (mem : Memory) (hash : String) (row : BlockRow) :
    Program H Data (Memory × Bool) := do
  match ← activeHashAt row.blockHeight with
  | .ok (some canonical) =>
    if canonical ≠ hash then do
      let requeued ← requeueForTick hash row
      return (mem, requeued)
    else
      match ← send (.reactivateBlock hash row.blockHeight row.orphanGeneration) with
      | .error _ => return (mem, false)
      | .ok false => return (mem, true)
      | .ok true => return ({ mem with defers := mem.defers.erase hash }, true)
  | _ => return (mem, false)

/-- One round of `fullScanResurrect`; whether the row was healed or handed off. -/
def healRow (mem : Memory) (hash : String) (row : BlockRow) : Program H Data (Memory × Bool) := do
  let done ← remineWithRetry sdk cfg hash
  match done.err with
  | none => reactivateHealed mem hash row
  | some .malformed =>
    match ← keepRemineRetried cfg mem hash row.blockHeight row.orphanGeneration with
    | (mem, true) => return (mem, true)
    | (mem, false) => holdRefused cfg mem hash row.blockHeight
  | some .failed =>
    if done.ok then do
      if ← keepPartialRemineQueued cfg hash row.orphanGeneration then return (mem, true)
      else holdRefused cfg mem hash row.blockHeight
    else
      -- the row is handed off, and the scan tries the read again
      match ← keepRemineRetried cfg mem hash row.blockHeight row.orphanGeneration with
      | (mem, true) => return (mem, false)
      | (mem, false) => holdRefused cfg mem hash row.blockHeight

def healRows (set : GoMap String BlockRow) :
    List String → Memory → Bool → Program H Data (Memory × Bool)
  | [], mem, complete => pure (mem, complete)
  | hash :: rest, mem, complete =>
    match set.lookup hash with
    | none => healRows set rest mem complete
    | some row => do
      let (mem, healed) ← healRow sdk cfg mem hash row
      healRows set rest mem (complete && healed)

def fullScanResurrect (order : MapOrder String) (mem : Memory) (set : GoMap String BlockRow) :
    Program H Data (Memory × Bool) :=
  healRows sdk cfg set (order.visit "resurrect" set.keys) mem true

end Resurrect

/-! ## The scan -/

/-- The window of a scan, and whether it completed. -/
structure Scanned where
  minHeight : Nat
  maxHeight : Nat
  complete : Bool

/-- Both halves always run. -/
def healSets (sdk : Sdk H Data) (cfg : Config) (order : MapOrder String) (mem : Memory)
    (sets : ScanSets) : Program H Data (Memory × Bool) := do
  let markedOK ← fullScanMarkOrphaned order sets.marked
  let (mem, resurrectedOK) ← fullScanResurrect sdk cfg order mem sets.resurrect
  return (mem, markedOK && resurrectedOK)

/-- The scan with so many rounds of the pager. -/
def fullScan (sdk : Sdk H Data) (cfg : Config) (order : MapOrder String) (rounds : Nat)
    (mem : Memory) : Program H Data (Memory × Scanned) := do
  let (minHeight, maxHeight) ← fullScanBounds cfg
  let (sets, how) ← forEachBlockProcessing rounds minHeight 1000 (judgeRow maxHeight) ⟨∅, ∅, 0⟩
  let complete := match how with
    | .done => decide (sets.unjudged = 0)
    | _ => false
  let (mem, healed) ← healSets sdk cfg order mem sets
  return (mem, ⟨minHeight, maxHeight, complete && healed⟩)

/-! ## What holds during a scan -/

/-- A lookup gives the answer of the height, or fails. -/
def Answered (headers : Nat → Option String) : Call H Data ρ → Oracle H Data → Prop
  | .getHeaderByHeight height, o => o.header = .ok (headers height) ∨ ∃ err, o.header = .error err
  | _, _ => True

def fixedEnv (H Data : Type) (headers : Nat → Option String) :
    Env (Call H Data) (List Edge × Oracle H Data) (World Data) :=
  passEnv fun _ c o => o.1 = [] ∧ Answered headers c o.2

def OpenRow (s : Tables Data) (txid : String) : Prop :=
  ∃ row, s.txs.lookup txid = some row ∧ row.status ≠ .immutable

/-- When a block was moved to active, everything its BUMP lists had been written before. -/
def Backed (sdk : Sdk H Data) (s : Tables Data) : List (Entry Data) → Prop
  | [] => True
  | e :: log => (∀ hash, e.deed = .reactivated hash → ∀ txid ∈ leavesOf sdk hash s,
      OpenRow s txid → txid ∈ writtenIn hash log) ∧ Backed sdk s log

structure Scanning (sdk : Sdk H Data) (s : Tables Data) (w : World Data) : Prop where
  bumps : w.store.bumps = s.bumps
  rows : ∀ txid, OpenRow s txid → OpenRow w.store txid
  backed : Backed sdk s w.log

def Idle : Call H Data ρ → Prop
  | .reactivateBlock _ _ _ => False
  | _ => True

section Scanning

variable {headers : Nat → Option String} {sdk : Sdk H Data} {cfg : Config} {s : Tables Data}
  {w : World Data} {α : Type} {o : Oracle H Data} {maxHeight : Nat} {mem : Memory}

theorem always_fixed {Q : α → World Data → Prop} {R : World Data → World Data → Prop}
    {c : Call H Data α}
    (h : ∀ o, Answered headers c o → R w (w.exec o c).2 ∧ Q (w.exec o c).1 (w.exec o c).2) :
    Always (fixedEnv H Data headers) R Q (send c) w := by
  refine always_exec fun edges o ho => ?_
  obtain ⟨rfl, ho⟩ := ho
  exact h o ho

theorem always_kept {S : (ρ : Type) → Call H Data ρ → Prop} {I : World Data → Prop}
    (hcall : ∀ ρ (c : Call H Data ρ) o w, S ρ c → I w → I (w.exec o c).2) {p : Program H Data α}
    (hp : p.Makes S) (hw : I w) :
    Keeps (fixedEnv H Data headers) I p w := by
  refine Always.of_makes (fun ρ c o w hc hI ho => ?_) hp hw
  obtain ⟨edges, o⟩ := o
  obtain ⟨rfl, -⟩ := ho
  exact hcall ρ c o w hc hI

variable {c : Call H Data ρ}

theorem OpenRow.exec {txid : String} (hc : Mild c) (h : OpenRow s txid) :
    OpenRow (s.exec o c).2 txid := by
  obtain ⟨row, hrow, hne⟩ := h
  obtain ⟨out, hout, rfl | hm⟩ := hc.txs hrow hne
  · exact ⟨out, hout, hne⟩
  · exact ⟨out, hout, by simp [hm]⟩

theorem deed_ne_reactivated (hc : Idle c) (hash : String) :
    World.deed s o c ≠ .reactivated hash := by
  cases c with
  | reactivateBlock => exact hc.elim
  | getBUMP | markBlockReconciled =>
    simp only [World.deed]
    split <;> simp
  | _ => simp [World.deed]

theorem Scanning.exec (h : Scanning sdk s w) (hc : Mild c) (hi : Idle c) :
    Scanning sdk s (w.exec o c).2 :=
  ⟨hc.bumps.trans h.bumps, fun txid ht => (h.rows txid ht).exec hc,
    fun hash hd => absurd hd (deed_ne_reactivated hi hash), h.backed⟩

theorem Scanning.reactivate {hash : String} {height : Nat} {token : Option Int64}
    (h : Scanning sdk s w) (hw : AllWritten sdk hash w) :
    Scanning sdk s (w.exec o (.reactivateBlock hash height token)).2 := by
  have hc : Mild (.reactivateBlock hash height token : Call H Data _) := trivial
  refine ⟨hc.bumps.trans h.bumps, fun txid ht => (h.rows txid ht).exec hc, fun hash' hd txid ht ho => ?_,
    h.backed⟩
  obtain rfl : hash = hash' := by
    simp only [World.deed] at hd
    split at hd
    · cases hd
      rfl
    · cases hd
  obtain ⟨row, hrow, hne⟩ := h.rows txid ho
  refine hw txid ?_ row hrow hne
  rwa [leavesOf, h.bumps]

theorem always_asked {R : World Data → World Data → Prop}
    {Q : Except String (Option String) → World Data → Prop} {height : Nat} (hlow : 0 < height)
    (hhigh : height < 2 ^ 32)
    (h : ∀ o : Oracle H Data, (∀ canonical, o.header = .ok canonical → headers height = canonical) →
      R w (w.exec o (.getHeaderByHeight height)).2 ∧
        Q o.header (w.exec o (.getHeaderByHeight height)).2) :
    Always (fixedEnv H Data headers) R Q (activeHashAt height) w := by
  unfold activeHashAt
  rw [if_neg (by omega)]
  refine always_fixed fun o ho => h o fun canonical hreply => ?_
  rcases ho with ho | ⟨err, ho⟩
  · exact Except.ok.inj (ho.symm.trans hreply)
  · exact absurd (ho.symm.trans hreply) nofun

/-! ## The walk -/

/-- The sets hold only rows that are on the wrong side. -/
structure SoundSets (headers : Nat → Option String) (s : Tables Data) (maxHeight : Nat)
    (sets : ScanSets) : Prop where
  marked : ∀ hash height, sets.marked.lookup hash = some height → ∃ row,
    s.blocks.lookup hash = some row ∧ row.blockHeight = height ∧ Judged maxHeight row ∧
      row.status = .active ∧ headers height ≠ some hash
  resurrect : ∀ hash row, sets.resurrect.lookup hash = some row →
    s.blocks.lookup hash = some row ∧ Judged maxHeight row ∧ row.status = .orphaned ∧
      headers row.blockHeight = some hash

/-- The row is in a set if it has to be, or some row could not be judged. -/
def SeenIn (headers : Nat → Option String) (maxHeight : Nat) (sets : ScanSets)
    (e : String × BlockRow) : Prop :=
  Judged maxHeight e.2 → 0 < sets.unjudged ∨ e.1 ∈ sets.marked ∨ e.1 ∈ sets.resurrect ∨
    e.2.status = .active ∧ headers e.2.blockHeight = some e.1 ∨
    e.2.status = .orphaned ∧ headers e.2.blockHeight ≠ some e.1

theorem SeenIn.mono {sets sets' : ScanSets} {e : String × BlockRow}
    (h : SeenIn headers maxHeight sets e) (hu : sets.unjudged ≤ sets'.unjudged)
    (hm : ∀ hash, hash ∈ sets.marked → hash ∈ sets'.marked)
    (hr : ∀ hash, hash ∈ sets.resurrect → hash ∈ sets'.resurrect) :
    SeenIn headers maxHeight sets' e :=
  fun hj => (h hj).imp (fun hp => by omega) (Or.imp (hm e.1) (Or.imp_left (hr e.1)))

/-- The tables during the walk. -/
def Paging (sdk : Sdk H Data) (s : Tables Data) (w : World Data) : Prop :=
  w.store = s ∧ Scanning sdk s w

theorem Paging.asked (hw : Paging sdk s w) (o : Oracle H Data) (height : Nat) :
    Paging sdk s (w.exec o (.getHeaderByHeight height)).2 :=
  ⟨hw.1, hw.2.exec trivial trivial⟩

theorem always_judgeRow {sets : ScanSets} {e : String × BlockRow} (hw : Paging sdk s w)
    (hsets : SoundSets headers s maxHeight sets) (he : s.blocks.lookup e.1 = some e.2) :
    Always (fixedEnv H Data headers) (fun _ => Paging sdk s)
      (fun r t => Paging sdk s t ∧ SoundSets headers s maxHeight r.1 ∧
        (∀ e', SeenIn headers maxHeight sets e' → SeenIn headers maxHeight r.1 e') ∧
        (r.2 = none → SeenIn headers maxHeight r.1 e))
      (judgeRow maxHeight sets e) w := by
  unfold judgeRow
  split
  · rename_i hskip
    refine ⟨hw, hsets, fun _ h => h, fun _ hj => ?_⟩
    rcases hskip with hn | hm | hr
    · exact absurd hj hn
    · exact .inr (.inl hm)
    · exact .inr (.inr (.inl hr))
  · rename_i hskip
    simp only [not_or, not_not] at hskip
    obtain ⟨hj, hm, hr⟩ := hskip
    refine (always_bind _).mpr (always_asked hj.2.1 hj.2.2.1 fun o hanswer => ?_)
    have ht := hw.asked o e.2.blockHeight
    refine ⟨ht, ?_⟩
    split
    · rename_i canonical hreply
      have hcanon := hanswer _ hreply
      split
      · rename_i hoff
        refine ⟨ht, ⟨fun hash height hl => ?_, hsets.resurrect⟩, fun e' h => h.mono (le_refl _)
          (fun _ h => (AList.mem_insert _).mpr (.inr h)) fun _ h => h,
          fun _ _ => .inr (.inl ((AList.mem_insert _).mpr (.inl rfl)))⟩
        rcases GoMap.of_lookup_insert hl with ⟨rfl, rfl⟩ | ⟨-, hl⟩
        · refine ⟨e.2, he, rfl, hj, hoff.1, fun hc => hoff.2 ?_⟩
          exact Option.mem_unique hcanon hc
        · exact hsets.marked hash height hl
      · rename_i hnotOff
        split
        · rename_i hon
          refine ⟨ht, ⟨hsets.marked, fun hash row hl => ?_⟩, fun e' h => h.mono (le_refl _)
            (fun _ h => h) fun _ h => (AList.mem_insert _).mpr (.inr h),
            fun _ _ => .inr (.inr (.inl ((AList.mem_insert _).mpr (.inl rfl))))⟩
          rcases GoMap.of_lookup_insert hl with ⟨rfl, rfl⟩ | ⟨-, hl⟩
          · exact ⟨he, hj, hon.1, hon.2 ▸ hcanon⟩
          · exact hsets.resurrect hash row hl
        · rename_i hnotOn
          refine ⟨ht, hsets, fun _ h => h, fun _ _ => .inr (.inr (.inr ?_))⟩
          rw [hcanon, ne_eq, Option.some.injEq]
          rcases hj.1 with ha | ho
          · exact .inl ⟨ha, by_contra fun hne => hnotOff ⟨ha, hne⟩⟩
          · exact .inr ⟨ho, fun heq => hnotOn ⟨ho, heq⟩⟩
    · exact ⟨ht, ⟨hsets.marked, hsets.resurrect⟩, fun e' h => h.mono (Nat.le_succ _) (fun _ h => h)
        fun _ h => h, fun _ _ => .inl (Nat.succ_pos _)⟩

theorem visits_judgeRow {minHeight : Nat} : Store.Visits (fixedEnv H Data headers) (Paging sdk s)
    Set.univ s.blocks minHeight (judgeRow maxHeight) (SoundSets headers s maxHeight) (fun _ => True)
    (SeenIn headers maxHeight) := by
  refine ⟨fun w o before limit hw ho => ?_, fun sets e w hw hsets he _ => ?_, fun _ _ => trivial⟩
  swap
  · exact (always_judgeRow hw hsets he).imp fun _ _ h =>
      ⟨h.1, h.2.1, h.2.2.1, h.2.2.2, fun _ _ => trivial⟩
  obtain ⟨edges, o⟩ := o
  obtain ⟨rfl, -⟩ := ho
  have hstore : (w.exec o (.listBlockProcessingStatus before limit)).2.store = s := by
    rw [← hw.1]
    simp [World.exec, Tables.exec]
  refine ⟨⟨hstore, hw.2.exec trivial trivial⟩, fun rows hrows => ?_, fun _ _ => trivial⟩
  change (w.store.exec o (.listBlockProcessingStatus before limit)).1 = .ok rows at hrows
  rw [hw.1] at hrows
  cases hf : o.fault <;> simp [Tables.exec, Tables.read, hf] at hrows
  exact ⟨o.rank, trivial, hrows.symm⟩

/-! ## The first half -/

variable {set : GoMap String Nat}

/-- The row is still there, at its height, and on the queue. -/
def Requeued (s : Tables Data) (hash : String) (w : World Data) : Prop :=
  ∃ row row', s.blocks.lookup hash = some row ∧ w.store.blocks.lookup hash = some row' ∧
    row'.blockHeight = row.blockHeight ∧ row'.Queued

/-- The candidate is at a height that can be asked for, and is not the block there. -/
def OffChain (headers : Nat → Option String) (set : GoMap String Nat) (hash : String) : Prop :=
  ∃ height, set.lookup hash = some height ∧ 0 < height ∧ height < 2 ^ 32 ∧
    headers height ≠ some hash

theorem always_recheckMarked (hw : Paging sdk s w) (hashes marked : List String) (complete : Bool)
    (hset : ∀ hash ∈ hashes, OffChain headers set hash) :
    Always (fixedEnv H Data headers) (fun _ => Paging sdk s)
      (fun r w' => Paging sdk s w' ∧ (∀ hash ∈ r.1, hash ∈ marked ∨ hash ∈ hashes) ∧
        (r.2 = true → complete = true ∧ ∀ hash, hash ∈ marked ∨ hash ∈ hashes → hash ∈ r.1))
      (recheckMarked set hashes marked complete) w := by
  induction hashes generalizing w marked complete with
  | nil => exact ⟨hw, fun _ h => .inl h, fun hc => ⟨hc, fun _ h => h.resolve_right nofun⟩⟩
  | cons hash rest ih =>
    obtain ⟨height, hl, hlow, hhigh, hoff⟩ := hset hash mem_cons_self
    have hrest : ∀ hash' ∈ rest, OffChain headers set hash' :=
      fun hash' hm => hset hash' (mem_cons_of_mem _ hm)
    unfold recheckMarked
    rw [hl, Option.getD_some]
    refine (always_bind _).mpr (always_asked hlow hhigh fun o hanswer => ⟨hw.asked o height, ?_⟩)
    split
    · rename_i canonical hreply
      rw [if_neg fun heq : canonical = hash => hoff (heq ▸ hanswer _ hreply)]
      refine (ih (hw.asked o height) (marked ++ [hash]) complete hrest).imp
        fun r w' hr => ⟨hr.1, ?_, ?_⟩
      · intro hash' hm
        have := hr.2.1 hash' hm
        simp only [mem_append, mem_cons, not_mem_nil, or_false] at this ⊢
        tauto
      · intro hc
        refine ⟨(hr.2.2 hc).1, fun hash' hm => (hr.2.2 hc).2 hash' ?_⟩
        simp only [mem_append, mem_cons, not_mem_nil, or_false] at hm ⊢
        tauto
    · refine (ih (hw.asked o height) marked false hrest).imp fun r w' hr =>
        ⟨hr.1, fun hash' hm => ?_, fun hc => absurd (hr.2.2 hc).1 nofun⟩
      exact (hr.2.1 hash' hm).imp_right (mem_cons_of_mem _)

theorem iterate_markOnce_blockHeight (gen : Int64) (n : Nat) (row : BlockRow) :
    ((Store.Pebble.markOnce gen)^[n] row).blockHeight = row.blockHeight := by
  induction n generalizing row with
  | zero => rfl
  | succ n ih =>
    rw [Function.iterate_succ_apply, ih]
    unfold Store.Pebble.markOnce Store.markOrphaned
    split <;> rfl

/-- A half that completes has demoted all its candidates, and in any case no other row. -/
theorem always_fullScanMarkOrphaned (order : MapOrder String) (hw : Paging sdk s w)
    (hset : ∀ hash ∈ set, OffChain headers set hash ∧
      ∃ row, s.blocks.lookup hash = some row ∧ row.status = .active) :
    Always (fixedEnv H Data headers) (fun _ => Scanning sdk s)
      (fun ok w' => Scanning sdk s w' ∧
        (∀ b, b ∉ set → w'.store.blocks.lookup b = s.blocks.lookup b) ∧
        (ok = true → ∀ hash ∈ set, Requeued s hash w'))
      (fullScanMarkOrphaned order set) w := by
  have hkeys : ∀ hash, hash ∈ order.visit "marked" set.keys ↔ hash ∈ set := fun hash =>
    ((order.perm "marked" set.keys).mem_iff).trans AList.mem_keys.symm
  refine ((always_recheckMarked hw _ [] true fun hash hm =>
    (hset hash ((hkeys hash).mp hm)).1).weaken fun _ _ h => h.2).bind ?_
  rintro ⟨marked, complete⟩ w₁ ⟨⟨hstore, hs⟩, hsub, hall⟩
  have hmarked : ∀ hash ∈ marked, hash ∈ set := fun hash hm =>
    (hkeys hash).mp ((hsub hash hm).resolve_left not_mem_nil)
  split
  · rename_i heq
    cases heq
    refine ⟨hs, fun b _ => by rw [hstore], fun hc hash hm => ?_⟩
    exact absurd ((hall hc).2 hash (.inr ((hkeys hash).mpr hm))) not_mem_nil
  · rename_i heq
    cases heq
    refine (always_bind _).mpr (always_fixed fun o _ => ?_)
    have hs' : Scanning sdk s (w₁.exec o (.markBlocksOrphaned marked)).2 := hs.exec trivial trivial
    refine ⟨hs', ?_⟩
    have hother : ∀ b, b ∉ set → (w₁.exec o (.markBlocksOrphaned marked)).2.store.blocks.lookup b =
        s.blocks.lookup b := by
      intro b hb
      have hb : b ∉ marked := fun hm => hb (hmarked b hm)
      rw [← hstore]
      exact Tables.exec_lookup (P := (· = w₁.store.blocks.lookup b)) rfl
        fun row hrow => by simpa [Call.rowWrite, hb] using hrow
    cases hf : o.fault with
    | some f =>
      have hreply : (w₁.exec o (.markBlocksOrphaned marked)).1 = .error (.failed f.text) := by
        simp [World.exec, Tables.exec, hf]
      rw [hreply]
      exact ⟨hs', hother, by simp⟩
    | none =>
      have hreply : (w₁.exec o (.markBlocksOrphaned marked)).1 = .ok () := by
        simp [World.exec, Tables.exec, hf]
      have hblocks : (w₁.exec o (.markBlocksOrphaned marked)).2.store.blocks =
          (Store.markBlocksOrphaned marked o.now s.blocks).1 := by
        simp [World.exec, Tables.exec, hf, Tables.reached, hstore]
      rw [hreply]
      refine ⟨hs', hother, fun hc hash hm => ?_⟩
      obtain ⟨row, hrow, hactive⟩ := (hset hash hm).2
      have hcount : 0 < marked.count hash :=
        count_pos_iff.mpr ((hall hc).2 hash (.inr ((hkeys hash).mpr hm)))
      have hlive : ¬ (row.status = .orphaned ∧ o.now < row.orphanedAt) := by simp [hactive]
      refine ⟨row, (Store.Pebble.markOnce o.now)^[marked.count hash] row, hrow, ?_,
        iterate_markOnce_blockHeight _ _ _, Store.Pebble.iterate_markOnce_queued hlive hcount.ne'⟩
      rw [hblocks, Store.Pebble.lookup_markBlocksOrphaned, hrow, Option.map_some]

/-! ## The second half -/

variable {hash : String} {row : BlockRow}

/-- The row is as it was judged, up to its stamp. -/
def SameGeneration (hash : String) (row : BlockRow) (w : World Data) : Prop :=
  ∃ r, w.store.blocks.lookup hash = some r ∧ r.status = .orphaned ∧
    r.orphanedAt = row.orphanedAt ∧ r.blockHeight = row.blockHeight

/-- The row is where the scan wants it. -/
def Healed (hash : String) (row : BlockRow) (w : World Data) : Prop :=
  ∃ r, w.store.blocks.lookup hash = some r ∧ r.blockHeight = row.blockHeight ∧
    (r.status = .active ∨ r.Queued)

section

variable (h : SameGeneration hash row w)
include h

/-- A guarded write finds the row as it was judged; one that fails may have landed. -/
theorem SameGeneration.exec_cas {o : Oracle H Data}
    {c : Call H Data (Store.Result Bool)} {write : BlockRow → BlockRow} (hc : w.store.exec o c =
      w.store.casWrite o.fault hash (Store.casOrphan row.orphanGeneration write)) :
    ∃ r, (r.status = .orphaned ∧ r.orphanedAt = row.orphanedAt ∧ r.blockHeight = row.blockHeight) ∧
      (w.exec o c).1 ≠ .ok false ∧
      ((w.exec o c).1 = .ok true → (w.exec o c).2.store.blocks.lookup hash = some (write r)) ∧
      ((w.exec o c).2.store.blocks.lookup hash = some (write r) ∨
        (w.exec o c).2.store.blocks = w.store.blocks) := by
  obtain ⟨r, hr, ho, hg, hh⟩ := h
  refine ⟨r, ⟨ho, hg, hh⟩, ?_⟩
  have hcas : (w.store.blocks.lookup hash).bind (Store.casOrphan row.orphanGeneration write) =
      some (write r) := by
    rw [hr, Option.bind_some, Store.casOrphan_eq_some]
    refine ⟨ho, fun g hm => ?_, rfl⟩
    unfold BlockRow.orphanGeneration at hm
    split at hm
    · rw [hg]
      exact Option.some.inj hm
    · cases hm
  rw [World.exec, hc, Tables.casWrite, hcas]
  cases o.fault with
  | none => exact ⟨by simp [Tables.write], fun _ => AList.lookup_insert _, .inl (AList.lookup_insert _)⟩
  | some f =>
    refine ⟨by simp [Tables.write], by simp [Tables.write], ?_⟩
    simp only [Tables.write]
    split
    · exact .inr rfl
    · exact .inl (AList.lookup_insert _)

theorem SameGeneration.of_blocks_eq {w' : World Data}
    (heq : w'.store.blocks = w.store.blocks) : SameGeneration hash row w' := by
  rwa [SameGeneration, heq]

theorem always_requeue : Yields (fixedEnv H Data headers)
      (fun reply w' => SameGeneration hash row w' ∧ reply ≠ .ok false ∧
        (reply = .ok true → Healed hash row w'))
      (send (.requeueOrphanedBlock hash row.orphanGeneration)) w := by
  refine always_fixed fun o _ => ⟨trivial, ?_⟩
  obtain ⟨r, hr, hne, hdone, hland⟩ := h.exec_cas (o := o)
    (c := .requeueOrphanedBlock hash row.orphanGeneration) rfl
  refine ⟨?_, hne, fun hreply => ⟨_, hdone hreply, hr.2.2, .inr ⟨hr.1, rfl⟩⟩⟩
  rcases hland with hland | hland
  · exact ⟨_, hland, hr⟩
  · exact h.of_blocks_eq hland

theorem always_handOffPartialRemine : Yields (fixedEnv H Data headers)
      (fun kept w' => (kept = true → Healed hash row w') ∧ (kept = false → SameGeneration hash row w'))
      (handOffPartialRemine cfg hash row.orphanGeneration) w := by
  refine (always_requeue h).bind fun reply w₁ h₁ => ?_
  split
  · exact ⟨nofun, fun _ => h₁.1⟩
  · exact ⟨fun _ => h₁.2.2 rfl, nofun⟩
  · exact absurd rfl h₁.2.1

end

theorem always_handOffLoop (left : Nat) (h : SameGeneration hash row w) :
    Yields (fixedEnv H Data headers) (fun kept w' => kept = true → Healed hash row w')
      (handOffLoop cfg hash row.orphanGeneration left) w := by
  induction left generalizing w with
  | zero => nofun
  | succ left ih =>
    refine (always_handOffPartialRemine h).bind fun kept w₁ h₁ => ?_
    split
    · rename_i hk
      exact fun _ => h₁.1 hk
    · rename_i hk
      exact ih (h₁.2 (by simpa using hk))

theorem always_retainLoop (height left : Nat) (h : SameGeneration hash row w) :
    Yields (fixedEnv H Data headers) (fun r w' => r.2 = true → Healed hash row w')
      (retainLoop cfg mem hash height row.orphanGeneration left) w := by
  induction left generalizing w with
  | zero => nofun
  | succ left ih =>
    refine ((always_bind _).mpr ((always_requeue h).imp fun reply w₁ h₁ => ?_)).bind
      (P := fun kept w' => (kept ≠ none → Healed hash row w') ∧
        (kept = none → SameGeneration hash row w')) fun kept w₁ h₁ => ?_
    · split
      · exact ⟨fun hn => absurd rfl hn, fun _ => h₁.1⟩
      · exact ⟨fun _ => h₁.2.2 rfl, nofun⟩
      · exact absurd rfl h₁.2.1
    · split
      · exact fun _ => h₁.1 nofun
      · exact ih (h₁.2 rfl)

/-- The call writes no block row but that of the block. -/
def OwnRow (hash : String) (c : Call H Data ρ) : Prop :=
  ∀ o b, b ≠ hash → ∀ row, c.rowWrite o b row = row

theorem handOffIn_scan (hash : String) : HandOffIn hash fun (ρ : Type) (c : Call H Data ρ) =>
    (Mild c ∧ Idle c) ∧ OwnRow hash c :=
  ⟨fun token => ⟨⟨trivial, trivial⟩, fun o b hb row => by simp [Call.rowWrite, hb]⟩,
    ⟨⟨trivial, trivial⟩, fun _ _ _ _ => rfl⟩,
    ⟨⟨trivial, trivial⟩, fun o b hb row => by simp [Call.rowWrite, hb]⟩,
    fun _ => ⟨⟨trivial, trivial⟩, fun _ _ _ _ => rfl⟩⟩

theorem makes_remineWithRetry_scan (hash : String) : (remineWithRetry sdk cfg hash).Makes
    fun _ c => (Mild c ∧ Idle c) ∧ Effect.blocks ∉ c.effects := by
  refine (makes_remineAttempts sdk cfg _ _).imp fun ρ c hc => ?_
  have hblocks : Effect.blocks ∉ c.effects := fun hm => absurd (hc.1 hm) (by decide)
  refine ⟨⟨mild_of_within hc (by decide), ?_⟩, hblocks⟩
  cases c with
  | reactivateBlock => exact hblocks (by simp [Call.effects])
  | _ => trivial

/-- While a row is healed, the scan goes on and no other row is written. -/
structure Healing (sdk : Sdk H Data) (s : Tables Data) (hash : String) (w₀ w : World Data) :
    Prop where
  scanning : Scanning sdk s w
  others : ∀ b, b ≠ hash → w.store.blocks.lookup b = w₀.store.blocks.lookup b

variable {w₀ : World Data}

theorem Healing.others_exec (h : Healing sdk s hash w₀ w) {c : Call H Data ρ} (hc : OwnRow hash c)
    {o : Oracle H Data} {b : String} (hb : b ≠ hash) :
    (w.exec o c).2.store.blocks.lookup b = w₀.store.blocks.lookup b :=
  Tables.exec_lookup (P := (· = w₀.store.blocks.lookup b)) (h.others b hb)
    fun row hrow => (hc o b hb row).trans hrow

theorem Healing.always {p : Program H Data α} (h : Healing sdk s hash w₀ w)
    (hp : p.Makes fun _ c => (Mild c ∧ Idle c) ∧ OwnRow hash c) :
    Keeps (fixedEnv H Data headers) (Healing sdk s hash w₀) p w :=
  always_kept (fun _ _ _ _ hc hw =>
    ⟨hw.scanning.exec hc.1.1 hc.1.2, fun _ hb => hw.others_exec hc.2 hb⟩) hp h

/-- The row is healed if the program says so. -/
abbrev Heals (headers : Nat → Option String) (sdk : Sdk H Data) (s : Tables Data) (hash : String)
    (row : BlockRow) (w₀ : World Data) (p : Program H Data (Memory × Bool)) (w : World Data) : Prop :=
  Always (fixedEnv H Data headers) (fun _ => Healing sdk s hash w₀)
    (fun r w' => Healing sdk s hash w₀ w' ∧ (r.2 = true → Healed hash row w')) p w

section

variable (hon : headers row.blockHeight = some hash) (hlow : 0 < row.blockHeight)
  (hhigh : row.blockHeight < 2 ^ 32) (hs : Healing sdk s hash w₀ w)
include hon hlow hhigh hs

theorem heals_reactivateHealed (hw : AllWritten sdk hash w) (h : SameGeneration hash row w) :
    Heals headers sdk s hash row w₀ (reactivateHealed mem hash row) w := by
  refine (always_bind _).mpr (always_asked hlow hhigh fun o hanswer => ?_)
  have hs₁ : Healing sdk s hash w₀ (w.exec o (.getHeaderByHeight row.blockHeight)).2 :=
    ⟨hs.scanning.exec trivial trivial, hs.others⟩
  have hw₁ : AllWritten sdk hash (w.exec o (.getHeaderByHeight row.blockHeight)).2 :=
    hw.exec trivial (by simp [Call.effects])
  have h₁ : SameGeneration hash row (w.exec o (.getHeaderByHeight row.blockHeight)).2 := h
  refine ⟨hs₁, ?_⟩
  generalize (w.exec o (.getHeaderByHeight row.blockHeight)).2 = w₁ at hs₁ hw₁ h₁
  split
  · rename_i canonical hreply
    obtain rfl : canonical = hash := Option.some.inj ((hanswer _ hreply).symm.trans hon)
    rw [if_neg fun hne => hne rfl]
    refine (always_bind _).mpr (always_fixed fun o _ => ?_)
    have hs₂ : Healing sdk s canonical w₀
        (w₁.exec o (.reactivateBlock canonical row.blockHeight row.orphanGeneration)).2 :=
      ⟨hs₁.scanning.reactivate hw₁,
        fun b hb => hs₁.others_exec (fun o b hb row => by simp [Call.rowWrite, hb]) hb⟩
    obtain ⟨r, -, hne, hdone, -⟩ := h₁.exec_cas (o := o)
      (c := .reactivateBlock canonical row.blockHeight row.orphanGeneration) rfl
    refine ⟨hs₂, ?_⟩
    split
    · exact ⟨hs₂, by simp⟩
    · exact absurd ‹_› hne
    · exact ⟨hs₂, fun _ => ⟨_, hdone ‹_›, rfl, .inl rfl⟩⟩
  · exact ⟨hs₁, by simp⟩

theorem heals_healRow (h : SameGeneration hash row w) :
    Heals headers sdk s hash row w₀ (healRow sdk cfg mem hash row) w := by
  have hremine : Keeps (fixedEnv H Data headers)
      (fun w' => Healing sdk s hash w₀ w' ∧ w'.store.blocks = w.store.blocks)
      (remineWithRetry sdk cfg hash) w := by
    refine always_kept (fun ρ c o w' hc hw' => ?_) (makes_remineWithRetry_scan hash) ⟨hs, rfl⟩
    have hblocks : (w'.exec o c).2.store.blocks = w'.store.blocks :=
      (w'.store.exec_agrees o c).blocks hc.2
    exact ⟨⟨hw'.1.scanning.exec hc.1.1 hc.1.2, hblocks ▸ hw'.1.others⟩, hblocks.trans hw'.2⟩
  have hold : ∀ mem w₁, Healing sdk s hash w₀ w₁ →
      Heals headers sdk s hash row w₀ (holdRefused cfg mem hash row.blockHeight) w₁ :=
    fun mem w₁ hs₁ => (hs₁.always (makes_holdPendingRemine (handOffIn_scan hash) mem)).bind
      fun _ _ hs₂ => ⟨hs₂, nofun⟩
  have hretain : ∀ w₁, Healing sdk s hash w₀ w₁ → SameGeneration hash row w₁ →
      Heals headers sdk s hash row w₀
        (keepRemineRetried cfg mem hash row.blockHeight row.orphanGeneration) w₁ := fun w₁ hs₁ h₁ =>
    (hs₁.always (makes_retainLoop (handOffIn_scan hash) mem _)).also (always_retainLoop _ _ h₁)
  refine (hremine.weaken fun _ _ h => h.1).also (always_remineAttempts sdk cfg _ _) |>.bind ?_
  rintro done w₁ ⟨⟨hs₁, hb₁⟩, hended⟩
  have h₁ : SameGeneration hash row w₁ := h.of_blocks_eq hb₁
  split
  · rename_i herr
    exact heals_reactivateHealed hon hlow hhigh hs₁
      (.of_marked (hended.marked (by simp [herr]))) h₁
  · refine (hretain w₁ hs₁ h₁).bind ?_
    rintro ⟨mem', kept⟩ w₂ ⟨hs₂, hkept⟩
    split
    · rename_i heq
      cases heq
      exact ⟨hs₂, hkept⟩
    · exact hold _ w₂ hs₂
  · split
    · refine ((hs₁.always (makes_handOffLoop (handOffIn_scan hash) _)).also
        (always_handOffLoop _ h₁)).bind ?_
      rintro kept w₂ ⟨hs₂, hkept⟩
      split
      · rename_i hk
        exact ⟨hs₂, fun _ => hkept hk⟩
      · exact hold _ w₂ hs₂
    · refine (hretain w₁ hs₁ h₁).bind ?_
      rintro ⟨mem', kept⟩ w₂ ⟨hs₂, hkept⟩
      split
      · exact ⟨hs₂, nofun⟩
      · exact hold _ w₂ hs₂

end

theorem always_healRows {set : GoMap String BlockRow} (keys : List String) (complete : Bool)
    (hnodup : keys.Nodup) (hs : Scanning sdk s w)
    (hset : ∀ hash ∈ keys, ∀ row, set.lookup hash = some row → headers row.blockHeight = some hash ∧
      0 < row.blockHeight ∧ row.blockHeight < 2 ^ 32 ∧ SameGeneration hash row w) :
    Always (fixedEnv H Data headers) (fun _ => Scanning sdk s)
      (fun r w' => Scanning sdk s w' ∧
        (∀ b, b ∉ keys → w'.store.blocks.lookup b = w.store.blocks.lookup b) ∧
        (r.2 = true → complete = true ∧ ∀ hash ∈ keys, ∀ row, set.lookup hash = some row →
          Healed hash row w'))
      (healRows sdk cfg set keys mem complete) w := by
  induction keys generalizing w mem complete with
  | nil => exact ⟨hs, fun _ _ => rfl, fun hc => ⟨hc, nofun⟩⟩
  | cons hash rest ih =>
    obtain ⟨hnot, hnodup⟩ := nodup_cons.mp hnodup
    have hrest : ∀ hash' ∈ rest, hash' ≠ hash := fun _ hm heq => hnot (heq ▸ hm)
    unfold healRows
    cases hl : set.lookup hash with
    | none =>
      refine (ih complete hnodup hs fun hash' hm => hset hash' (mem_cons_of_mem _ hm)).imp ?_
      rintro r w' ⟨hs', hother, hdone⟩
      refine ⟨hs', fun b hb => hother b fun hm => hb (mem_cons_of_mem _ hm), fun hc => ?_⟩
      refine ⟨(hdone hc).1, fun hash' hm row hrow => ?_⟩
      rcases mem_cons.mp hm with rfl | hm
      · cases hl.symm.trans hrow
      · exact (hdone hc).2 hash' hm row hrow
    | some row =>
      obtain ⟨hon, hlow, hhigh, hgen⟩ := hset hash mem_cons_self row hl
      refine ((heals_healRow hon hlow hhigh ⟨hs, fun _ _ => rfl⟩ hgen).weaken
        fun _ _ h => h.scanning).bind ?_
      rintro ⟨mem', healed⟩ w₁ ⟨⟨hs₁, hframe⟩, hhealed⟩
      refine (ih (complete && healed) hnodup hs₁ fun hash' hm row' hrow' => ?_).imp ?_
      · obtain ⟨hon', hlow', hhigh', hgen'⟩ := hset hash' (mem_cons_of_mem _ hm) row' hrow'
        refine ⟨hon', hlow', hhigh', ?_⟩
        rw [SameGeneration, hframe hash' (hrest hash' hm)]
        exact hgen'
      · rintro r w' ⟨hs', hother, hdone⟩
        refine ⟨hs', fun b hb => ?_, fun hc => ?_⟩
        · rw [mem_cons, not_or] at hb
          exact (hother b hb.2).trans (hframe b hb.1)
        · obtain ⟨hboth, hall⟩ := hdone hc
          rw [Bool.and_eq_true] at hboth
          refine ⟨hboth.1, fun hash' hm row' hrow' => ?_⟩
          rcases mem_cons.mp hm with rfl | hm
          · obtain rfl := Option.mem_unique hl hrow'
            rw [Healed, hother hash' hnot]
            exact hhealed hboth.2
          · exact hall hash' hm row' hrow'

/-! ## The whole scan -/

variable {order : MapOrder String} {rounds : Nat}

/-- Where a completed scan leaves a row: where the chain has it, or on the queue. -/
def Accounted (headers : Nat → Option String) (hash : String) (row : BlockRow) (w : World Data) :
    Prop :=
  ∃ row', w.store.blocks.lookup hash = some row' ∧ row'.blockHeight = row.blockHeight ∧
    (row'.status = .active ∧ headers row.blockHeight = some hash ∨
      row'.status = .orphaned ∧ headers row.blockHeight ≠ some hash ∨ row'.Queued)

theorem always_fullScanBounds (hw : Paging sdk s w) :
    Keeps (fixedEnv H Data headers) (Paging sdk s) (fullScanBounds cfg) w := by
  unfold fullScanBounds
  split
  · exact hw
  · refine (always_bind _).mpr (always_fixed fun o _ => ?_)
    have hw' : Paging sdk s (w.exec o .getActiveTipBlockHeight).2 := by
      refine ⟨?_, hw.2.exec trivial trivial⟩
      rw [← hw.1]
      simp [World.exec, Tables.exec]
    refine ⟨hw', ?_⟩
    split
    · exact hw'
    · split <;> split <;> exact hw'

theorem always_healSets {sets : ScanSets} (hw : Paging sdk s w)
    (hsets : SoundSets headers s maxHeight sets) :
    Always (fixedEnv H Data headers) (fun _ => Scanning sdk s)
      (fun r w' => Scanning sdk s w' ∧ (∀ b, b ∉ sets.marked → b ∉ sets.resurrect →
          w'.store.blocks.lookup b = s.blocks.lookup b) ∧
        (r.2 = true → (∀ hash ∈ sets.marked, Requeued s hash w') ∧
          ∀ hash row, sets.resurrect.lookup hash = some row → Healed hash row w'))
      (healSets sdk cfg order mem sets) w := by
  have hoff : ∀ hash ∈ sets.marked, OffChain headers sets.marked hash ∧
      ∃ row, s.blocks.lookup hash = some row ∧ row.status = .active := by
    intro hash hm
    obtain ⟨height, hl⟩ := (GoMap.mem_iff_lookup _ _).mp hm
    obtain ⟨row, hrow, rfl, hj, hactive, hne⟩ := hsets.marked hash height hl
    exact ⟨⟨_, hl, hj.2.1, hj.2.2.1, hne⟩, row, hrow, hactive⟩
  -- a row of one set is active and a row of the other is orphaned
  have hdisjoint : ∀ hash ∈ sets.marked, hash ∉ sets.resurrect := by
    intro hash hm hr
    obtain ⟨-, row, hrow, hactive⟩ := hoff hash hm
    obtain ⟨row', hl⟩ := (GoMap.mem_iff_lookup _ _).mp hr
    obtain ⟨hrow', -, horphaned, -⟩ := hsets.resurrect hash row' hl
    obtain rfl := Option.mem_unique hrow hrow'
    exact absurd (hactive.symm.trans horphaned) nofun
  have hkeys : ∀ hash, hash ∈ order.visit "resurrect" sets.resurrect.keys ↔
      hash ∈ sets.resurrect := fun hash =>
    ((order.perm "resurrect" _).mem_iff).trans AList.mem_keys.symm
  refine (always_fullScanMarkOrphaned order hw hoff).bind ?_
  rintro markedOK w₁ ⟨hs₁, hframe, hmarked⟩
  refine (always_healRows (order.visit "resurrect" sets.resurrect.keys) true
    ((order.perm "resurrect" _).nodup_iff.mpr sets.resurrect.keys_nodup) hs₁
    fun hash hm row hrow => ?_).bind ?_
  · obtain ⟨hl, hj, horphaned, hon⟩ := hsets.resurrect hash row hrow
    refine ⟨hon, hj.2.1, hj.2.2.1, row, ?_, horphaned, rfl, rfl⟩
    rw [hframe hash fun hm' => hdisjoint hash hm' ((hkeys hash).mp hm), hl]
  · rintro ⟨mem', resurrectedOK⟩ w₂ ⟨hs₂, hother, hhealed⟩
    refine ⟨hs₂, fun b hm hr => ?_, fun hc => ?_⟩
    · rw [hother b fun h => hr ((hkeys b).mp h), hframe b hm]
    · rw [Bool.and_eq_true] at hc
      refine ⟨fun hash hm => ?_, fun hash row hrow => ?_⟩
      · obtain ⟨row, row', hrow, hrow', hh, hq⟩ := hmarked hc.1 hash hm
        refine ⟨row, row', hrow, ?_, hh, hq⟩
        rw [hother hash fun h => hdisjoint hash hm ((hkeys hash).mp h), hrow']
      · exact (hhealed hc.2).2 hash ((hkeys hash).mpr (GoMap.mem_of_lookup hrow)) row hrow

theorem always_fullScan (hw : Paging sdk s w) :
    Always (fixedEnv H Data headers) (fun _ => Scanning sdk s)
      (fun r w' => Scanning sdk s w' ∧ (r.2.complete = true →
        ∀ hash row, s.blocks.lookup hash = some row → Judged r.2.maxHeight row →
          r.2.minHeight ≤ row.blockHeight → Accounted headers hash row w'))
      (fullScan sdk cfg order rounds mem) w := by
  refine ((always_fullScanBounds hw).weaken fun _ _ h => h.2).bind ?_
  rintro ⟨minHeight, maxHeight⟩ w₁ hw₁
  have hempty : SoundSets headers s maxHeight ⟨∅, ∅, 0⟩ :=
    ⟨fun hash height hl => by simp at hl, fun hash row hl => by simp at hl⟩
  refine ((Store.always_pagerLoop visits_judgeRow rounds 0 1000 hw₁ hempty
    (by decide)).weaken fun _ _ h => h.2).bind ?_
  rintro ⟨sets, how⟩ w₂ hwalked
  refine (always_healSets hwalked.state hwalked.acc).bind ?_
  rintro ⟨mem', healed⟩ w₃ ⟨hs₃, hframe, hall⟩
  refine ⟨hs₃, fun hc hash row hrow hj hmin => ?_⟩
  obtain ⟨hpaged, hhealed⟩ := Bool.and_eq_true_iff.mp hc
  obtain ⟨hdone, hzero⟩ : how = .done ∧ sets.unjudged = 0 := by
    cases how with
    | done => exact ⟨rfl, of_decide_eq_true hpaged⟩
    | failed err => cases hpaged
    | running => cases hpaged
  have hseen : SeenIn headers maxHeight sets (hash, row) :=
    hwalked.complete hdone _ ⟨Store.mem_rowsBelow.mpr ⟨hrow, .inl rfl⟩, hmin, .inl hj.2.1⟩
  by_cases hm : hash ∈ sets.marked
  · obtain ⟨row₁, row', hrow₁, hrow', hh, hq⟩ := (hall hhealed).1 hash hm
    obtain rfl := Option.mem_unique hrow hrow₁
    exact ⟨row', hrow', hh, .inr (.inr hq)⟩
  · by_cases hr : hash ∈ sets.resurrect
    · obtain ⟨row₁, hl⟩ := (GoMap.mem_iff_lookup _ _).mp hr
      obtain ⟨hrow₁, -, -, hon⟩ := hwalked.acc.resurrect hash row₁ hl
      obtain rfl := Option.mem_unique hrow hrow₁
      obtain ⟨row', hrow', hh, hstatus⟩ := (hall hhealed).2 hash row hl
      exact ⟨row', hrow', hh, hstatus.imp (⟨·, hon⟩) .inr⟩
    · refine ⟨row, (hframe hash hm hr).trans hrow, rfl, ?_⟩
      rcases hseen hj with hu | hm' | hr' | hon | hoff
      · omega
      · exact absurd hm' hm
      · exact absurd hr' hr
      · exact .inl hon
      · exact .inr (.inl hoff)

/-- A scan that reports completion has healed or handed off every row of its window, and what it
moved to active had been marked. -/
theorem fullScan_complete {mem' : Memory} {scan : Scanned}
    (hrun : Runs (fixedEnv H Data headers) (fullScan sdk cfg order rounds mem) ⟨s, []⟩
      (some (mem', scan)) w) (hcomplete : scan.complete = true) :
    (∀ hash row, s.blocks.lookup hash = some row → Judged scan.maxHeight row →
      scan.minHeight ≤ row.blockHeight → Accounted headers hash row w) ∧ Backed sdk s w.log := by
  have hstart : Paging sdk s ⟨s, []⟩ := ⟨rfl, rfl, fun _ h => h, trivial⟩
  obtain ⟨hscan, hend⟩ := (always_fullScan hstart).run hstart.2 hrun fun _ _ h => h.1
  exact ⟨(hend _ rfl).2 hcomplete, hscan.backed⟩

end Scanning

section Rejoined

open Bump (Bits BitsData referenceSdk)

/-- The orphan is the active block again, and the row of its rival still says active. -/
def rejoined : Tables BitsData :=
  { forked with
    blocks := (AList.singleton "orphan" orphanRow).insert "active" ⟨7, 1, 1, 1, .active, 0, 0⟩
    txs := AList.singleton "11" ⟨.seenOnNetwork, "", 0, "", [], 0, 0, "", []⟩ }

/-- The settings with a window from height 1 on. -/
def fromOne : Config := { oneAbove with fullScanMinHeight := 1 }

def scanned : Option (Memory × Scanned) × World BitsData :=
  (fullScan referenceSdk fromOne (.stored _) 3 ⟨∅, ∅⟩).play (fixedEnv Bits _ fun _ => some "orphan")
    (List.replicate 21 (headed (.ok (some "orphan")))) ⟨rejoined, []⟩

/-- Nobody else acts, and every header is that of the orphan. -/
def rejoinedSafe {ρ : Type} (_ : World BitsData)
    (c : Call Bits BitsData ρ)
    (o : List Edge × Oracle Bits BitsData) : Bool :=
  o.1.isEmpty && match c with
    | .getHeaderByHeight _ => decide (o.2.header = .ok (some "orphan"))
    | _ => true

theorem runs_scanned : Runs (fixedEnv Bits _ fun _ => some "orphan")
    (fullScan referenceSdk fromOne (.stored _) 3 ⟨∅, ∅⟩) ⟨rejoined, []⟩ scanned.1 scanned.2 := by
  refine runs_play_safe (fun w ρ c o hsafe => ?_)
    (show Prog.playSafe _ rejoinedSafe _ _ _ = true by decide +kernel)
  cases c with
  | getHeaderByHeight height =>
    have hok : o.1 = [] ∧ o.2.header = .ok (some "orphan") := by
      simpa [rejoinedSafe] using hsafe
    exact ⟨hok.1, .inl hok.2⟩
  | _ => exact ⟨by simpa [rejoinedSafe] using hsafe, trivial⟩

end Rejoined

/-- The orphan goes back to active and its rival off the chain is queued. -/
theorem fullScan_complete_rejoined :
    Accounted (fun _ => some "orphan") "orphan" orphanRow scanned.2 ∧
      Accounted (fun _ => some "orphan") "active" ⟨7, 1, 1, 1, .active, 0, 0⟩ scanned.2 ∧
      "11" ∈ writtenIn "orphan" scanned.2.log := by
  have hend : scanned.1.map (fun r => (r.2.minHeight, r.2.maxHeight, r.2.complete)) =
    some (1, 0, true) := by decide +kernel
  obtain ⟨⟨mem', minHeight, maxHeight, complete⟩, hout, hend⟩ := Option.map_eq_some_iff.mp hend
  cases hend
  obtain ⟨hall, -⟩ := fullScan_complete (hout ▸ runs_scanned) rfl
  exact ⟨hall "orphan" orphanRow (by decide +kernel) (by decide) (by decide),
    hall "active" _ (by decide +kernel) (by decide) (by decide), by decide +kernel⟩

end Arcade.Reconciler
