import Arcade.Lib.Transition
import Arcade.Store.TxRows

/-!
The orphaned anchors of a row are the last of the blocks it was MINED in before.

A row loses its anchor when it is MINED in another block, and when the block is reverted.
-/

namespace Arcade.Store

open Lib List
open Propagation (Status)

theorem canTransitionFrom_mined (status : Status) :
    canTransitionFrom status .mined = true ↔ status = .mined ∨ status = .immutable := by
  cases status <;> decide

/-- The calls that write the row. -/
inductive AnchorEvent where
  | setMined (blockHash : String) (blockHeight : Nat)
  | setStatusByBlockHash (blockHash : String) (newStatus : Status)
  | updateStatus (update : StatusUpdate)

/-- A row without a block hash is in the index of no block. -/
def AnchorEvent.write : AnchorEvent → TxRow → Option TxRow
  | .setMined blockHash blockHeight, row => Store.setMined blockHash blockHeight row
  | .setStatusByBlockHash blockHash newStatus, row =>
    if row.blockHash = "" then none else Store.setStatusByBlockHash blockHash newStatus row
  | .updateStatus update, row => Store.updateStatus update row

/-- Blocks have hashes, a block is reverted or made final, and `UpdateStatus` does not anchor. -/
def AnchorEvent.Legal : AnchorEvent → Prop
  | .setMined blockHash _ => blockHash ≠ ""
  | .setStatusByBlockHash _ newStatus => newStatus = .seenOnNetwork ∨ newStatus = .immutable
  | .updateStatus update => update.status ≠ some .mined ∧ update.blockHash = ""

/-- The row with what happened to it: the anchors that it lost while it was MINED, and the status
that it had before its own. -/
structure Traced where
  row : TxRow
  superseded : List (String × Nat)
  before : Status

namespace Traced

def step (t : Traced) (e : AnchorEvent) : Traced :=
  let row := (e.write t.row).getD t.row
  { row
    superseded := if t.row.status = .mined ∧ row.blockHash ≠ t.row.blockHash then
      t.superseded ++ [(t.row.blockHash, t.row.blockHeight)] else t.superseded
    before := if row.status = t.row.status then t.before else t.row.status }

end Traced

/-- Of consecutive anchors in one block the first is kept. -/
def collapse (anchors : List (String × Nat)) : List (String × Nat) :=
  anchors.foldl (fun acc a => if acc.getLast?.any (fun b => b.1 = a.1) then acc else acc ++ [a]) []

/-- The last `min 5 n` of `n` anchors. -/
def recent (anchors : List (String × Nat)) : List (String × Nat) :=
  anchors.drop (anchors.length - maxOrphanedAnchors)

section History

variable {anchors : List (String × Nat)} {a : String × Nat}

theorem collapse_snoc : collapse (anchors ++ [a]) =
    if (collapse anchors).getLast?.any (fun b => b.1 = a.1) then collapse anchors
    else collapse anchors ++ [a] := by
  rw [collapse, foldl_append]
  rfl

theorem getLast?_recent : (recent anchors).getLast? = anchors.getLast? := by
  rw [recent, List.getLast?_drop]
  split
  · rename_i h
    have : anchors = [] := by
      rw [← length_eq_zero_iff]
      simp only [maxOrphanedAnchors] at h
      omega
    simp [this]
  · rfl

theorem recent_snoc : recent (recent anchors ++ [a]) = recent (anchors ++ [a]) := by
  have hle : anchors.length - maxOrphanedAnchors ≤ anchors.length := Nat.sub_le _ _
  have heq : recent anchors ++ [a] =
      (anchors ++ [a]).drop (anchors.length - maxOrphanedAnchors) := by
    rw [recent, drop_append_of_le_length hle]
  rw [recent, heq, drop_drop, recent]
  congr 1
  simp only [maxOrphanedAnchors, length_drop, length_append, length_singleton]
  omega

theorem orphanedAnchors_append {row : TxRow} (h : row.orphanedAnchors = recent (collapse anchors))
    (hne : row.blockHash ≠ "") : (appendOrphanedAnchor row).orphanedAnchors =
      recent (collapse (anchors ++ [(row.blockHash, row.blockHeight)])) := by
  rw [appendOrphanedAnchor, if_neg hne, collapse_snoc, h, getLast?_recent]
  split
  · exact h
  · exact recent_snoc

end History

namespace Traced

/-- The orphaned anchors are the most recent ones that the row lost, and it has a block hash while
it is MINED and when it became IMMUTABLE so. -/
structure Exact (t : Traced) : Prop where
  history : t.row.orphanedAnchors = recent (collapse t.superseded)
  anchored : t.row.blockHash ≠ "" ↔
    t.row.status = .mined ∨ t.row.status = .immutable ∧ t.before = .mined

variable {t : Traced}

theorem step_of_none {e : AnchorEvent} (h : e.write t.row = none) : t.step e = t := by
  simp [step, h]

section Writes

variable {e : AnchorEvent} {row : TxRow} (hw : e.write t.row = some row)

include hw

theorem Exact.lose (h : t.Exact) (hm : t.row.status = .mined)
    (hne : row.blockHash ≠ t.row.blockHash)
    (ha : row.orphanedAnchors = (appendOrphanedAnchor t.row).orphanedAnchors)
    (hs : row.blockHash ≠ "" ∧ row.status = .mined ∨
      row.blockHash = "" ∧ row.status = .seenOnNetwork) : (t.step e).Exact := by
  have hrow : (t.step e).row = row := by simp [step, hw]
  have hlost : (t.step e).superseded = t.superseded ++ [(t.row.blockHash, t.row.blockHeight)] := by
    simp [step, hw, hm, hne]
  constructor
  · rw [hrow, hlost, ha]
    exact orphanedAnchors_append h.history (h.anchored.mpr (.inl hm))
  · rw [hrow]
    rcases hs with ⟨hb, hs⟩ | ⟨hb, hs⟩ <;> simp [hb, hs]

theorem Exact.keep (h : t.Exact) (ha : row.orphanedAnchors = t.row.orphanedAnchors)
    (hb : t.row.status = .mined → row.blockHash = t.row.blockHash)
    (hs : row.blockHash ≠ "" ↔ row.status = .mined ∨ row.status = .immutable ∧
      (if row.status = t.row.status then t.before else t.row.status) = .mined) :
    (t.step e).Exact := by
  have hrow : (t.step e).row = row := by simp [step, hw]
  have hkept : (t.step e).superseded = t.superseded := by
    simp only [step, hw, Option.getD_some]
    exact if_neg fun hc => hc.2 (hb hc.1)
  refine ⟨by rw [hrow, hkept, ha, h.history], ?_⟩
  rw [hrow, hs]
  simp [step, hw]

end Writes

theorem Exact.setMined (h : t.Exact) {blockHash : String} (hne : blockHash ≠ "") (blockHeight : Nat) :
    (t.step (.setMined blockHash blockHeight)).Exact := by
  by_cases hi : t.row.status = .immutable
  · have hnone : (AnchorEvent.setMined blockHash blockHeight).write t.row = none :=
      setMined_eq_none.mpr hi
    rwa [step_of_none hnone]
  have hc := (mined_canTransitionFrom _).mpr hi
  by_cases hlost : t.row.status = .mined ∧ t.row.blockHash ≠ blockHash
  · have hw : (AnchorEvent.setMined blockHash blockHeight).write t.row =
        some { appendOrphanedAnchor t.row with status := .mined, blockHash, blockHeight } := by
      rw [AnchorEvent.write, Store.setMined, if_pos hc, if_pos hlost]
    exact h.lose hw hlost.1 (Ne.symm hlost.2) rfl (.inl ⟨hne, rfl⟩)
  · have hw : (AnchorEvent.setMined blockHash blockHeight).write t.row =
        some { t.row with status := .mined, blockHash, blockHeight } := by
      rw [AnchorEvent.write, Store.setMined, if_pos hc, if_neg hlost]
    refine h.keep hw rfl (fun hm => ?_) (by simp [hne])
    exact (not_not.mp fun hb => hlost ⟨hm, hb⟩).symm

theorem Exact.setStatusByBlockHash (h : t.Exact) (blockHash : String) {newStatus : Status}
    (hnew : newStatus = .seenOnNetwork ∨ newStatus = .immutable) :
    (t.step (.setStatusByBlockHash blockHash newStatus)).Exact := by
  cases hw : (AnchorEvent.setStatusByBlockHash blockHash newStatus).write t.row with
  | none => rwa [step_of_none hw]
  | some row =>
    have hwritten := hw
    rw [AnchorEvent.write] at hwritten
    split at hwritten
    · cases hwritten
    · rename_i hne
      have hi := (setStatusByBlockHash_eq_some hwritten).2.1
      have hm : t.row.status = .mined := (h.anchored.mp hne).resolve_right fun hs => hi hs.1
      rw [Store.setStatusByBlockHash, if_neg (by simp [hi, (setStatusByBlockHash_eq_some hwritten).1])]
        at hwritten
      rcases hnew with rfl | rfl
      · cases hwritten
        exact h.lose hw hm (Ne.symm hne) rfl (.inr ⟨rfl, rfl⟩)
      · cases hwritten
        exact h.keep hw rfl (fun _ => rfl) (by simp [hne, hm])

theorem Exact.updateStatus (h : t.Exact) {update : StatusUpdate} (hs : update.status ≠ some .mined)
    (hb : update.blockHash = "") : (t.step (.updateStatus update)).Exact := by
  cases hw : (AnchorEvent.updateStatus update).write t.row with
  | none => rwa [step_of_none hw]
  | some row =>
    have hwritten := hw
    rw [AnchorEvent.write, Store.updateStatus] at hwritten
    split at hwritten
    · rename_i hall
      cases hwritten
      have hkept : (mergeStatus t.row update).blockHash = t.row.blockHash := if_pos hb
      refine h.keep hw rfl (fun _ => hkept) ?_
      rw [hkept, h.anchored]
      cases hst : update.status with
      | none => simp [mergeStatus, hst]
      | some status =>
        have hnew : (mergeStatus t.row update).status = status := by simp [mergeStatus, hst]
        have hc : canTransitionFrom status t.row.status = true := by simpa [hst] using hall
        have hne : status ≠ .mined := fun heq => hs (hst.trans (congrArg some heq))
        rw [hnew]
        by_cases hi : status = .immutable
        · by_cases hp : t.row.status = .immutable
          · simp [hi, hp]
          · simp [hi, hp, Ne.symm hp]
        · have hm : t.row.status ≠ .mined := fun heq =>
            ((canTransitionFrom_mined _).mp (heq ▸ hc)).elim hne hi
          have hp : t.row.status ≠ .immutable := fun heq =>
            hi ((canTransitionFrom_immutable _).mp (heq ▸ hc))
          simp [hne, hi, hm, hp]
    · cases hwritten

theorem Exact.step (h : t.Exact) {e : AnchorEvent} (he : e.Legal) : (t.step e).Exact := by
  cases e with
  | setMined blockHash blockHeight => exact h.setMined he blockHeight
  | setStatusByBlockHash blockHash newStatus => exact h.setStatusByBlockHash blockHash he
  | updateStatus update => exact h.updateStatus he.1 he.2

/-- A row that starts without a history, and not as MINED in no block. -/
theorem orphanedAnchors_recent {row : TxRow} (hhash : row.blockHash = "")
    (hanchors : row.orphanedAnchors = []) (hmined : row.status ≠ .mined)
    {es : List AnchorEvent} (hes : ∀ e ∈ es, e.Legal) :
    (run step ⟨row, [], row.status⟩ es).Exact := by
  have hstart : Exact ⟨row, [], row.status⟩ := ⟨hanchors, by simp [hhash, hmined]⟩
  have hlegal : AllSteps step (fun _ e => e.Legal) ⟨row, [], row.status⟩ es :=
    allSteps_iff.mpr fun es₁ e es₂ heq => hes e (by simp [heq])
  exact run_invariant (fun _ _ h he => h.step he) hstart hlegal

def fresh (status : Status) : TxRow := ⟨status, "", 0, "", [], 0, 0, "", []⟩

/-- Two blocks in turn, and a revert. -/
theorem orphanedAnchors_recent_flipFlop :
    (run step ⟨fresh .received, [], .received⟩ [.setMined "a" 7, .setMined "b" 7, .setMined "a" 7,
        .setStatusByBlockHash "a" .seenOnNetwork]).row.orphanedAnchors =
      [("a", 7), ("b", 7), ("a", 7)] := by
  refine (orphanedAnchors_recent rfl rfl (by decide) ?_).history
  simp [AnchorEvent.Legal]

/-- A row that is MINED in no block. -/
theorem mined_nowhere_not_exact : (fresh .mined).blockHash = "" ∧
    (fresh .mined).orphanedAnchors = [] ∧ ¬(run step ⟨fresh .mined, [], .mined⟩ []).Exact :=
  ⟨rfl, rfl, fun h => h.anchored.mpr (.inl rfl) rfl⟩

end Traced

end Arcade.Store
