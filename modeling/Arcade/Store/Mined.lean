import Arcade.Store.Access

/-!
What `SetMinedByTxIDs` does to the table of transactions as a whole, and the
claim that a txid is MINED in a block.
-/

namespace Arcade.Store

open Lib List

section SetMined

variable {blockHash : String} {blockHeight : Nat} {txid txid' : String} {txids : List String}
  {txs : TxRows}

/-- The row that `SetMinedByTxIDs` leaves; an IMMUTABLE one stays as it is. -/
def minedRow (blockHash : String) (blockHeight : Nat) (row : TxRow) : TxRow :=
  (setMined blockHash blockHeight row).getD row

theorem minedRow_immutable {row : TxRow} (h : row.status = .immutable) :
    minedRow blockHash blockHeight row = row := by
  rw [minedRow, setMined_eq_none.mpr h]
  rfl

theorem minedRow_mined (blockHash : String) (blockHeight : Nat) {row : TxRow} (h : row.status ≠ .immutable) :
    (minedRow blockHash blockHeight row).status = .mined ∧
      (minedRow blockHash blockHeight row).blockHash = blockHash := by
  unfold minedRow
  cases hs : setMined blockHash blockHeight row with
  | none => exact absurd (setMined_eq_none.mp hs) h
  | some out => exact (setMined_eq_some hs).2

theorem minedRow_minedRow (row : TxRow) :
    minedRow blockHash blockHeight (minedRow blockHash blockHeight row) =
      minedRow blockHash blockHeight row := by
  by_cases h : row.status = .immutable
  · rw [minedRow_immutable h, minedRow_immutable h]
  · obtain ⟨hs, hb⟩ := minedRow_mined blockHash blockHeight h
    have hheight : (minedRow blockHash blockHeight row).blockHeight = blockHeight := by
      simp [minedRow, setMined, (mined_canTransitionFrom row.status).mpr h]
    generalize minedRow blockHash blockHeight row = out at hs hb hheight
    obtain ⟨status, hash, height⟩ := out
    subst hs hb hheight
    simp [minedRow, setMined, canTransitionFrom]

variable (acc : TxRows × List (String × TxRow))

theorem setMinedRow_lookup : (setMinedRow blockHash blockHeight acc txid).1.lookup txid' =
      if txid' = txid then (acc.1.lookup txid').map (minedRow blockHash blockHeight)
      else acc.1.lookup txid' := by
  by_cases h : txid' = txid
  · subst h
    unfold setMinedRow
    cases hl : acc.1.lookup txid' with
    | none => simpa using hl
    | some prev =>
      simp only [Option.map_some, minedRow]
      cases setMined blockHash blockHeight prev with
      | none => exact hl
      | some row => exact AList.lookup_insert _
  · rw [if_neg h]
    unfold setMinedRow
    split
    · rfl
    · split
      · rfl
      · rw [GoMap.lookup_insert_eq, if_neg h]

theorem foldl_setMinedRow_lookup :
    (txids.foldl (setMinedRow blockHash blockHeight) acc).1.lookup txid' =
      if txid' ∈ txids then (acc.1.lookup txid').map (minedRow blockHash blockHeight)
      else acc.1.lookup txid' := by
  induction txids generalizing acc with
  | nil => simp
  | cons txid txids ih =>
    rw [foldl_cons, ih, setMinedRow_lookup]
    by_cases h : txid' = txid
    · subst h
      by_cases h' : txid' ∈ txids
      · cases acc.1.lookup txid' with
        | none => simp
        | some row => simp [minedRow_minedRow]
      · simp [h']
    · simp [h]

theorem setMinedByTxIDs_lookup : (setMinedByTxIDs blockHash blockHeight txids txs).1.lookup txid =
      if txid ∈ txids then (txs.lookup txid).map (minedRow blockHash blockHeight)
      else txs.lookup txid :=
  foldl_setMinedRow_lookup (txs, [])

theorem mem_foldl_setMinedRow :
    txid' ∈ (txids.foldl (setMinedRow blockHash blockHeight) acc).2.map (·.1) ↔
      txid' ∈ acc.2.map (·.1) ∨
        txid' ∈ txids ∧ ∃ row, acc.1.lookup txid' = some row ∧ row.status ≠ .immutable := by
  induction txids generalizing acc with
  | nil => simp
  | cons txid txids ih =>
    have hrow : (∃ row, (setMinedRow blockHash blockHeight acc txid).1.lookup txid' = some row ∧
        row.status ≠ .immutable) ↔ ∃ row, acc.1.lookup txid' = some row ∧
          row.status ≠ .immutable := by
      rw [setMinedRow_lookup]
      split
      · cases acc.1.lookup txid' with
        | none => simp
        | some row =>
          by_cases hi : row.status = .immutable
          · simp [minedRow_immutable hi]
          · simp [(minedRow_mined blockHash blockHeight hi).1, hi]
      · exact Iff.rfl
    have hmem : txid' ∈ (setMinedRow blockHash blockHeight acc txid).2.map (·.1) ↔
        txid' ∈ acc.2.map (·.1) ∨
          txid' = txid ∧ ∃ row, acc.1.lookup txid' = some row ∧ row.status ≠ .immutable := by
      unfold setMinedRow
      cases hl : acc.1.lookup txid with
      | none =>
        refine ⟨.inl, ?_⟩
        rintro (h | ⟨rfl, row, hr, -⟩)
        · exact h
        · rw [hl] at hr
          cases hr
      | some prev =>
        simp only
        cases hm : setMined blockHash blockHeight prev with
        | none =>
          have hi := setMined_eq_none.mp hm
          refine ⟨.inl, ?_⟩
          rintro (h | ⟨rfl, row, hr, hne⟩)
          · exact h
          · rw [hl] at hr
            cases hr
            exact absurd hi hne
        | some row =>
          have hi := (setMined_eq_some hm).1
          simp only [map_append, map_cons, map_nil, mem_append, mem_singleton]
          refine or_congr_right ⟨?_, fun h => h.1⟩
          rintro rfl
          exact ⟨rfl, prev, hl, hi⟩
    rw [foldl_cons, ih, hrow, hmem, mem_cons, or_assoc, or_and_right]

theorem mem_setMinedByTxIDs : txid ∈ (setMinedByTxIDs blockHash blockHeight txids txs).2.map (·.1) ↔
      txid ∈ txids ∧ ∃ row, txs.lookup txid = some row ∧ row.status ≠ .immutable := by
  rw [setMinedByTxIDs, mem_foldl_setMinedRow]
  simp

end SetMined

/-! ## MINED in a block -/

/-- The row of the txid, unless it is missing or IMMUTABLE, is MINED in the block. -/
def MinedAt (blockHash : String) (txs : TxRows) (txid : String) : Prop :=
  ∀ row, txs.lookup txid = some row → row.status ≠ .immutable →
    row.status = .mined ∧ row.blockHash = blockHash

section MinedAt

variable {blockHash : String} {blockHeight : Nat} {txid : String} {txids : List String}
  {txs : TxRows}

theorem minedAt_setMinedByTxIDs (h : txid ∈ txids) :
    MinedAt blockHash (setMinedByTxIDs blockHash blockHeight txids txs).1 txid := by
  intro row hrow hne
  rw [setMinedByTxIDs_lookup, if_pos h, Option.map_eq_some_iff] at hrow
  obtain ⟨prev, -, rfl⟩ := hrow
  by_cases hi : prev.status = .immutable
  · rw [minedRow_immutable hi] at hne
    exact absurd hi hne
  · exact minedRow_mined _ _ hi

end MinedAt

/-! ## Rows do not vanish -/

variable {status : Propagation.Status} {unread : List String} {blockHash txid : String}
  {txids : List String}

/-- What `SetStatusByBlockHash` may make of a row. -/
def Rewritten (blockHash : String) (status : Propagation.Status) (before after : Option TxRow) :
    Prop :=
  after = before ∨ ∃ prev out, before = some prev ∧ prev.blockHash = blockHash ∧
    prev.status ≠ .immutable ∧ after = some out ∧ out.status = status

theorem Rewritten.trans {r r' r'' : Option TxRow} (h : Rewritten blockHash status r r')
    (h' : Rewritten blockHash status r' r'') : Rewritten blockHash status r r'' := by
  rcases h with rfl | ⟨prev, out, rfl, hb, hi, rfl, hs⟩
  · exact h'
  · rcases h' with rfl | ⟨prev', out', -, -, -, rfl, hs'⟩
    · exact .inr ⟨prev, out, rfl, hb, hi, rfl, hs⟩
    · exact .inr ⟨prev, out', rfl, hb, hi, rfl, hs'⟩

theorem rewritten_setStatusRow {txid' : String} (acc : TxRows × List String) :
    Rewritten blockHash status (acc.1.lookup txid)
      ((setStatusRow blockHash status unread acc txid').1.lookup txid) := by
  unfold setStatusRow
  split
  · exact .inl rfl
  · split
    · exact .inl rfl
    · rename_i prev hprev
      split
      · exact .inl rfl
      · rename_i out hout
        obtain ⟨hb, hi, hs⟩ := setStatusByBlockHash_eq_some hout
        rw [GoMap.lookup_insert_eq]
        split
        · rename_i he
          exact .inr ⟨prev, out, he ▸ hprev, hb, hi, rfl, hs⟩
        · exact .inl rfl

theorem rewritten_setStatusRows {txs : TxRows} : Rewritten blockHash status (txs.lookup txid)
      ((setStatusRows blockHash status unread txids txs).1.lookup txid) := by
  unfold setStatusRows
  generalize hacc : (txs, ([] : List String)) = acc
  rw [show txs = acc.1 from hacc ▸ rfl]
  clear hacc
  induction txids generalizing acc with
  | nil => exact .inl rfl
  | cons txid' txids ih => exact (rewritten_setStatusRow acc).trans (ih _)

/-- The block and the txids of a call that marks transactions. -/
def Call.marks {H Data ρ : Type} : Call H Data ρ → Option (String × List String)
  | .setMinedByTxIDs hash _ txids => some (hash, txids)
  | _ => none

def Call.reverts {H Data ρ : Type} : Call H Data ρ → Bool
  | .setStatusByBlockHash _ _ => true
  | _ => false

section Exec

variable {H Data ρ : Type} {s : Tables Data} {o : Oracle H Data} {c : Call H Data ρ}

theorem exec_txs_cases (s : Tables Data) (o : Oracle H Data) (c : Call H Data ρ) (txid : String) :
    (s.exec o c).2.txs.lookup txid = s.txs.lookup txid ∨
    (∃ m ∈ c.marks, txid ∈ m.2 ∧ ∃ height,
      (s.exec o c).2.txs.lookup txid = (s.txs.lookup txid).map (minedRow m.1 height)) ∨
    c.reverts = true ∧ ∃ hash status,
      Rewritten hash status (s.txs.lookup txid) ((s.exec o c).2.txs.lookup txid) := by
  by_cases ht : Effect.txs ∈ c.effects
  · cases c with
    | setMinedByTxIDs hash height txids =>
      have hrow : (s.exec o (.setMinedByTxIDs hash height txids)).2.txs.lookup txid =
        if txid ∈ Tables.reached o.fault txids then
          (s.txs.lookup txid).map (minedRow hash height) else s.txs.lookup txid :=
        setMinedByTxIDs_lookup
      split at hrow
      · rename_i hm
        refine .inr (.inl ⟨(hash, txids), rfl, ?_, height, hrow⟩)
        unfold Tables.reached at hm
        split at hm
        · exact hm
        · exact mem_of_mem_take hm
      · exact .inl hrow
    | setStatusByBlockHash hash status =>
      exact .inr (.inr ⟨rfl, hash, status, rewritten_setStatusRows⟩)
    | _ => simp [Call.effects] at ht
  · exact .inl (by rw [(s.exec_agrees o c).txs ht])

theorem exec_txs_of_not_reverts (hc : c.reverts = false) (txid : String) :
    (s.exec o c).2.txs.lookup txid = s.txs.lookup txid ∨
    ∃ m ∈ c.marks, txid ∈ m.2 ∧ ∃ height,
      (s.exec o c).2.txs.lookup txid = (s.txs.lookup txid).map (minedRow m.1 height) :=
  (exec_txs_cases s o c txid).imp id fun h => h.resolve_right fun hr => by simp [hc] at hr

theorem exec_txs_ne_none (h : s.txs.lookup txid ≠ none) :
    (s.exec o c).2.txs.lookup txid ≠ none := by
  rcases exec_txs_cases s o c txid with
    heq | ⟨m, -, -, height, heq⟩ | ⟨-, hash, status, heq | ⟨prev, out, -, -, -, heq, -⟩⟩ <;>
    simp [heq, h]

end Exec

end Arcade.Store
