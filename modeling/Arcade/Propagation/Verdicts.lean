import Arcade.Lib.Transition
import Arcade.Propagation.FailureLines

/-!
How `broadcastBatchToEndpoints` turns the responses of the peers into votes. A
transaction that a peer's failure list does not name counts as accepted by that
peer, but only when every line of the list was placed on a submitted
transaction.
-/

namespace Arcade.Propagation

open Lib Teranode List

/-! ## Votes -/

/-- What the responses so far say about one transaction. -/
structure TxTally where
  acceptedByAny : Bool := false
  rejectionLine : Text := []
  rejectionStatus : Nat := 0
  missingParentLine : Text := []
  infraLine : Text := []
  deriving DecidableEq

namespace TxTally

/-- `route`: file a line under what it says. `statusHint` is the HTTP status when
the peer described exactly one transaction, and 0 otherwise. -/
def route (line : Text) (statusHint : Nat) (t : TxTally) : TxTally :=
  if lineIsMissingParentCondition line ∨ (statusHint = 422 ∧ lineIsOpaqueProcessing line) then
    { t with missingParentLine := preferRejectionLine t.missingParentLine line }
  else if lineIsInfraCondition line ∨ (statusHint ≥ 500 ∧ lineIsOpaqueProcessing line) ∨
      (statusHint = 0 ∧ lineIsOpaqueProcessing line) then
    { t with infraLine := preferRejectionLine t.infraLine line }
  else
    let kept := preferRejectionLine t.rejectionLine line
    { t with
      rejectionStatus := if kept = line then statusHint else t.rejectionStatus
      rejectionLine := kept }

@[simp] theorem route_acceptedByAny (line : Text) (statusHint : Nat) (t : TxTally) :
    (t.route line statusHint).acceptedByAny = t.acceptedByAny := by
  unfold route
  split
  · rfl
  · split <;> rfl

end TxTally

structure Tally where
  txs : List TxTally
  needsNarrowing : Bool

def Tally.new (batch : List PropagationMsg) : Tally := ⟨batch.map fun _ => {}, false⟩

section

-- `NewTransactionFromBytes` of the SDK, and the order of ranging over maps.
variable (parse : TxParser)
  (order : MapOrder Text) (indexOrder : MapOrder Nat)

def lowerTxids (batch : List PropagationMsg) : List Text :=
  batch.map fun msg => Text.lower msg.txid.toList

/-- What one failure list says, worked out before any vote is cast. -/
structure Placement where
  bestAlien : Text
  attributed : GoMap Nat Text
  unplaceable : Nat

def placement (batch : List PropagationMsg) (failures : TxsFailures) : Placement :=
  let (alienCount, bestAlien) := alienFailureLines order failures.byKey (lowerTxids batch)
  let attributed :=
    if alienCount > 0 then
      attributeConflictLines failures.byKey (lowerTxids batch)
        (buildSubmittedOutpointIndex parse batch)
    else ∅
  ⟨bestAlien, attributed, (alienCount - attributed.keys.length) + failures.unkeyed.length⟩

/-- The vote of a failure list on the transaction at index `j` of the chunk. -/
def voteOne (failures : TxsFailures) (pl : Placement) (statusHint : Nat) (j : Nat) (lower : Text)
    (t : TxTally) : TxTally :=
  match failures.byKey.lookup lower with
  | some line => t.route line statusHint
  | none =>
    if j ∉ pl.attributed ∧ pl.unplaceable = 0 then { t with acceptedByAny := true } else t

/-- The votes of one parsed failure list on the whole chunk. -/
def voteFailures (batch : List PropagationMsg) (status : Nat) (failures : TxsFailures)
    (tally : Tally) : Tally :=
  let statusHint := if failures.len = 1 then status else 0
  let pl := placement parse order batch failures
  let txs := (List.zip tally.txs (lowerTxids batch)).mapIdx fun j x =>
    voteOne failures pl statusHint j x.2 x.1
  let txs := (indexOrder.visit 0 pl.attributed.keys).foldl (fun txs idx =>
    txs.modify idx (TxTally.route ((pl.attributed.lookup idx).getD []) statusHint)) txs
  let txs :=
    if pl.unplaceable > 0 ∧ batch.length = 1 then
      txs.modify 0 (TxTally.route (bestUnplaceableLine pl.bestAlien failures.unkeyed) statusHint)
    else txs
  ⟨txs, tally.needsNarrowing || decide (pl.unplaceable > 0)⟩

/-- One response. A refusal by shape and an error without a failure list carry
no vote. -/
def vote (batch : List PropagationMsg) (result : Submitted) (tally : Tally) : Tally :=
  match result with
  | .accepted => { tally with txs := tally.txs.map fun t => { t with acceptedByAny := true } }
  | .tooLarge | .infra _ => tally
  | .failed status failures =>
    if failures.len = 0 then tally
    else voteFailures parse order indexOrder batch status failures tally

/-- Whether a response alone gives the transaction at index `i` an acceptance
vote. -/
def acceptedBy (batch : List PropagationMsg) (result : Submitted) (i : Nat) : Bool :=
  match (vote parse order indexOrder batch result (Tally.new batch)).txs[i]? with
  | none => false
  | some t => t.acceptedByAny

/-! ## When a transaction gets an acceptance vote -/

variable (batch : List PropagationMsg) (failures : TxsFailures)

/-- The lines filed under a key outside the batch, in the order of ranging over the map. -/
def alienLines (order : MapOrder Text) (batch : List PropagationMsg) (failures : TxsFailures) :
    List Text :=
  ((order.visit [] failures.byKey.keys).filter fun key => !(lowerTxids batch).contains key).map
    fun key => (failures.byKey.lookup key).getD []

omit parse indexOrder in
theorem alienFailureLines_eq : alienFailureLines order failures.byKey (lowerTxids batch) =
    ((alienLines order batch failures).length,
      (alienLines order batch failures).foldl preferRejectionLine []) := by
  have hcount : ∀ (lines : List Text) (s : Nat × Text),
      lines.foldl (fun s line => (s.1 + 1, preferRejectionLine s.2 line)) s =
        (s.1 + lines.length, lines.foldl preferRejectionLine s.2) := by
    intro lines
    induction lines with
    | nil => exact fun _ => rfl
    | cons line lines ih =>
      intro s
      rw [foldl_cons, ih, foldl_cons, length_cons, Nat.add_assoc, Nat.add_comm 1]
  rw [← Nat.zero_add (alienLines order batch failures).length, ← hcount _ (0, []), alienLines,
    foldl_map, foldl_filter]
  simp [alienFailureLines]

omit parse indexOrder in
theorem alienFailureLines_count : (alienFailureLines order failures.byKey (lowerTxids batch)).1 =
      (failures.byKey.keys.filter fun key => key ∉ lowerTxids batch).length := by
  rw [alienFailureLines_eq, ← ((order.perm [] failures.byKey.keys).filter _).length_eq]
  simp [alienLines]

/-- The transaction that the line filed under `key` condemns by an outpoint. -/
def condemned (key : Text) : Option Nat :=
  attributeOneConflictLine ((failures.byKey.lookup key).getD [])
    (buildSubmittedOutpointIndex parse batch)

/-- `key` is the key of a line and names no submitted transaction. -/
def Alien (key : Text) : Prop := key ∈ failures.byKey ∧ key ∉ lowerTxids batch

/-- Every alien line condemns a submitted transaction, and no two the same. -/
def AliensPlaced : Prop :=
  (∀ key, Alien batch failures key → ∃ i, condemned parse batch failures key = some i) ∧
  ∀ key key', Alien batch failures key → Alien batch failures key' →
    condemned parse batch failures key = condemned parse batch failures key' → key = key'

end

theorem attributeRefs_of_empty {owners : Owners} (h : owners.keys.length = 0)
    (found : Option Nat) (refs : List Text) : attributeRefs owners found refs = found := by
  induction refs with
  | nil => rfl
  | cons ref refs ih =>
    have hnone : owners.lookup (Text.lower ref) = none := by
      rw [AList.lookup_eq_none, AList.mem_keys, eq_nil_of_length_eq_zero h]
      exact not_mem_nil
    simp only [attributeRefs, hnone, ih]

theorem mem_attributeConflictLines (failures : GoMap Text Text) (inBatch : List Text)
    (owners : Owners) (i : Nat) :
    i ∈ attributeConflictLines failures inBatch owners ↔ ∃ key, (key ∈ failures ∧ key ∉ inBatch) ∧
        attributeOneConflictLine ((failures.lookup key).getD []) owners = some i := by
  have hkey : ∀ (acc : GoMap Nat Text) (key : Text), i ∈ attributeKey failures owners acc key ↔
      i ∈ acc ∨ attributeOneConflictLine ((failures.lookup key).getD []) owners = some i := by
    intro acc key
    cases ha : attributeOneConflictLine ((failures.lookup key).getD []) owners with
    | none => simp [attributeKey, ha]
    | some idx => simp [attributeKey, ha, or_comm, eq_comm]
  unfold attributeConflictLines
  split
  · rename_i hguard
    constructor
    · intro hi
      exact absurd hi (AList.notMem_empty i)
    · rintro ⟨key, ⟨hkey, -⟩, ha⟩
      rcases hguard with hempty | hempty
      · rw [AList.mem_keys, eq_nil_of_length_eq_zero hempty] at hkey
        cases hkey
      · rw [attributeOneConflictLine, attributeRefs_of_empty hempty] at ha
        cases ha
  · rw [foldl_iff (i ∈ ·) hkey]
    simp only [alienKeys, mem_insertionSort, mem_filter, decide_eq_true_eq, ← AList.mem_keys]
    constructor
    · rintro (hi | hex)
      · exact absurd hi (AList.notMem_empty i)
      · exact hex
    · exact .inr

section

variable (parse : TxParser)
  (order : MapOrder Text) (indexOrder : MapOrder Nat) (batch : List PropagationMsg)
  (failures : TxsFailures)

theorem no_alien_of_count_zero
    (h : ¬(alienFailureLines order failures.byKey (lowerTxids batch)).1 > 0) (key : Text) :
    ¬Alien batch failures key := by
  rintro ⟨hkey, hout⟩
  have hmem : key ∈ failures.byKey.keys.filter fun key => key ∉ lowerTxids batch :=
    mem_filter.mpr ⟨AList.mem_keys.mp hkey, by simpa using hout⟩
  have hpos := length_pos_of_mem hmem
  rw [alienFailureLines_count] at h
  omega

theorem mem_attributed (i : Nat) : i ∈ (placement parse order batch failures).attributed ↔
      ∃ key, Alien batch failures key ∧ condemned parse batch failures key = some i := by
  unfold placement
  dsimp only
  split
  · exact mem_attributeConflictLines failures.byKey (lowerTxids batch) _ i
  · rename_i hcount
    refine iff_of_false (AList.notMem_empty i) ?_
    rintro ⟨key, halien, -⟩
    exact no_alien_of_count_zero order batch failures hcount key halien

theorem unplaceable_eq_zero : (placement parse order batch failures).unplaceable = 0 ↔
      failures.unkeyed = [] ∧ AliensPlaced parse batch failures := by
  have hmem := mem_attributed parse order batch failures
  have hcount := alienFailureLines_count order batch failures
  have hun : (placement parse order batch failures).unplaceable =
      ((alienFailureLines order failures.byKey (lowerTxids batch)).1 -
        (placement parse order batch failures).attributed.keys.length) +
      failures.unkeyed.length := rfl
  have halien : ∀ key, key ∈ (failures.byKey.keys.filter fun key => key ∉ lowerTxids batch) ↔
      Alien batch failures key := by
    intro key
    rw [mem_filter, ← AList.mem_keys, decide_eq_true_eq]
    exact Iff.rfl
  have hplaced := GoMap.length_le_keys_iff
    (failures.byKey.keys_nodup.filter fun key => key ∉ lowerTxids batch)
    (condemned parse batch failures)
    (placement parse order batch failures).attributed
    (fun i => (hmem i).trans (exists_congr fun key => and_congr_left fun _ => (halien key).symm))
  rw [hun, hcount, Nat.add_eq_zero_iff, Nat.sub_eq_zero_iff_le, hplaced, and_comm,
    length_eq_zero_iff]
  refine and_congr_right fun _ => ?_
  simp only [halien]
  exact and_congr_right fun _ =>
    ⟨fun h key key' hk hk' => h key hk key' hk', fun h key hk key' hk' => h key key' hk hk'⟩

/-- What a response makes of the tally of the transaction at index `i`. -/
def voteTx (result : Submitted) (i : Nat) (t : TxTally) : TxTally :=
  match result with
  | .accepted => { t with acceptedByAny := true }
  | .tooLarge | .infra _ => t
  | .failed status failures =>
    if failures.len = 0 then t
    else
      let hint := if failures.len = 1 then status else 0
      let pl := placement parse order batch failures
      let t := voteOne failures pl hint i ((lowerTxids batch).getD i []) t
      let t := (pl.attributed.lookup i).elim t fun line => t.route line hint
      if pl.unplaceable > 0 ∧ batch.length = 1 then
        t.route (bestUnplaceableLine pl.bestAlien failures.unkeyed) hint
      else t

theorem getElem?_foldl_modify {idxs : List Nat} (hnodup : idxs.Nodup) (f : Nat → TxTally → TxTally)
    (txs : List TxTally) (i : Nat) :
    (idxs.foldl (fun txs idx => txs.modify idx (f idx)) txs)[i]? =
      if i ∈ idxs then txs[i]?.map (f i) else txs[i]? := by
  induction idxs generalizing txs with
  | nil => simp
  | cons idx idxs ih =>
    obtain ⟨hidx, hnodup⟩ := nodup_cons.mp hnodup
    rw [foldl_cons, ih hnodup, List.getElem?_modify]
    by_cases hi : idx = i
    · subst hi
      simp [hidx]
    · have hi' : ¬ i = idx := fun h => hi h.symm
      simp [hi, hi']

variable (result : Submitted)

theorem getElem?_vote {tally : Tally} {t : TxTally} {i : Nat}
    (hlen : tally.txs.length = batch.length) (ht : tally.txs[i]? = some t) :
    (vote parse order indexOrder batch result tally).txs[i]? =
      some (voteTx parse order batch result i t) := by
  have hi : i < batch.length := hlen ▸ (List.getElem?_eq_some_iff.mp ht).1
  cases result with
  | accepted => simp [vote, voteTx, ht]
  | tooLarge => simp [vote, voteTx, ht]
  | infra status => simp [vote, voteTx, ht]
  | failed status failures =>
    simp only [vote, voteTx]
    split
    · exact ht
    simp only [voteFailures]
    generalize placement parse order batch failures = pl
    generalize (if failures.len = 1 then status else 0) = hint
    have hzip : (List.zip tally.txs (lowerTxids batch))[i]? =
        some (t, (lowerTxids batch).getD i []) := by
      rw [List.getElem?_zip_eq_some]
      exact ⟨ht, by simp [lowerTxids, getD_eq_getElem?_getD, hi]⟩
    have hperm := indexOrder.perm 0 pl.attributed.keys
    have hrouted : ((indexOrder.visit 0 pl.attributed.keys).foldl (fun txs idx =>
        txs.modify idx (TxTally.route ((pl.attributed.lookup idx).getD []) hint))
        ((List.zip tally.txs (lowerTxids batch)).mapIdx fun j x =>
          voteOne failures pl hint j x.2 x.1))[i]? =
        some ((pl.attributed.lookup i).elim
          (voteOne failures pl hint i ((lowerTxids batch).getD i []) t) fun line =>
          (voteOne failures pl hint i ((lowerTxids batch).getD i []) t).route line hint) := by
      rw [getElem?_foldl_modify (hperm.nodup_iff.mpr pl.attributed.keys_nodup),
        List.getElem?_mapIdx, hzip]
      have hmem : i ∈ indexOrder.visit 0 pl.attributed.keys ↔ i ∈ pl.attributed :=
        hperm.mem_iff.trans AList.mem_keys.symm
      cases hl : pl.attributed.lookup i with
      | none => rw [if_neg fun h => AList.lookup_eq_none.mp hl (hmem.mp h)]; rfl
      | some line => rw [if_pos (hmem.mpr (GoMap.mem_of_lookup hl))]; rfl
    by_cases hone : pl.unplaceable > 0 ∧ batch.length = 1
    · obtain rfl : i = 0 := by omega
      rw [if_pos hone, if_pos hone, List.getElem?_modify_eq, hrouted]
      rfl
    · rw [if_neg hone, if_neg hone, hrouted]

theorem acceptedByAny_voteTx (i : Nat) (t : TxTally) :
    (voteTx parse order batch result i t).acceptedByAny =
      (t.acceptedByAny || (voteTx parse order batch result i {}).acceptedByAny) := by
  cases result with
  | failed status failures =>
    simp only [voteTx, voteOne]
    generalize placement parse order batch failures = pl
    cases failures.byKey.lookup ((lowerTxids batch).getD i []) <;>
      cases pl.attributed.lookup i <;> simp only [Option.elim] <;> split_ifs <;> simp
  | _ => simp [voteTx]

theorem acceptedBy_eq_voteTx {i : Nat} (hi : i < batch.length) :
    acceptedBy parse order indexOrder batch result i =
      (voteTx parse order batch result i {}).acceptedByAny := by
  have hnew : (Tally.new batch).txs[i]? = some {} := by simp [Tally.new, hi]
  rw [acceptedBy, getElem?_vote parse order indexOrder batch result (by simp [Tally.new]) hnew]

/-- A failure list gives an acceptance vote exactly to the transactions that no
line is filed under and no alien line condemns, and to none of them while a line
is not placed. -/
theorem acceptedBy_failed {i : Nat} {msg : PropagationMsg} (hi : batch[i]? = some msg)
    (hlen : failures.len ≠ 0) (status : Nat) :
    acceptedBy parse order indexOrder batch (.failed status failures) i = true ↔
      Text.lower msg.txid.toList ∉ failures.byKey ∧
      (¬∃ key, Alien batch failures key ∧ condemned parse batch failures key = some i) ∧
      failures.unkeyed = [] ∧ AliensPlaced parse batch failures := by
  have hlower : (lowerTxids batch).getD i [] = Text.lower msg.txid.toList := by
    simp [lowerTxids, getD_eq_getElem?_getD, hi]
  have haccepted : acceptedBy parse order indexOrder batch (.failed status failures) i =
      (voteOne failures (placement parse order batch failures)
        (if failures.len = 1 then status else 0) i (Text.lower msg.txid.toList) {}).acceptedByAny := by
    rw [acceptedBy_eq_voteTx parse order indexOrder batch _ (List.getElem?_eq_some_iff.mp hi).1]
    simp only [voteTx, hlen, ↓reduceIte, hlower]
    cases (placement parse order batch failures).attributed.lookup i <;> split <;> simp
  rw [haccepted, ← unplaceable_eq_zero parse order, ← mem_attributed parse order]
  unfold voteOne
  cases hl : failures.byKey.lookup (Text.lower msg.txid.toList) with
  | some line =>
    simp only [TxTally.route_acceptedByAny, Bool.false_eq_true, false_iff, not_and]
    exact fun hn => absurd (GoMap.mem_of_lookup hl) hn
  | none =>
    have hn := AList.lookup_eq_none.mp hl
    by_cases hcond : i ∉ (placement parse order batch failures).attributed ∧
        (placement parse order batch failures).unplaceable = 0
    · simp [hcond, hn]
    · refine iff_of_false (by simp [hcond]) ?_
      rintro ⟨-, h₁, h₂⟩
      exact hcond ⟨h₁, h₂⟩

end

end Arcade.Propagation
