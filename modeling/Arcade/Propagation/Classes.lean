import Arcade.Propagation.Narrowing
import Arcade.Propagation.Outpoints

/-!
What one pass makes of the responses, whatever their order. The class of a transaction depends on
its acceptance votes and on the kinds of the lines routed to it. The lines are the same in every
order, with one exception: in a chunk of one, the line that stands for those that could not be
placed is found by ranging over a map, and lines that rank the same may be of different kinds.
-/

namespace Arcade.Propagation

open Lib Lib.GoMap Teranode List

/-! ## Kinds of lines -/

inductive LineKind where
  | infra
  | missingParent
  | verdict
  deriving DecidableEq

def LineKind.rank : LineKind → Nat
  | .infra => 0
  | .missingParent => 1
  | .verdict => 2

/-- The bucket that `route` files a line in. -/
def lineKind (line : Text) (statusHint : Nat) : LineKind :=
  if lineIsMissingParentCondition line ∨ (statusHint = 422 ∧ lineIsOpaqueProcessing line) then
    .missingParent
  else if lineIsInfraCondition line ∨ (statusHint ≥ 500 ∧ lineIsOpaqueProcessing line) ∨
      (statusHint = 0 ∧ lineIsOpaqueProcessing line) then .infra
  else .verdict

def TxTally.bucket (t : TxTally) : LineKind → Text
  | .infra => t.infraLine
  | .missingParent => t.missingParentLine
  | .verdict => t.rejectionLine

theorem preferRejectionLine_ne_nil (current candidate : Text) :
    preferRejectionLine current candidate ≠ [] ↔ current ≠ [] ∨ candidate ≠ [] := by
  by_cases hcandidate : candidate = []
  · simp [preferRejectionLine, hcandidate]
  · by_cases hcurrent : current = []
    · simp [preferRejectionLine, hcandidate, hcurrent]
    · rcases preferRejectionLine_eq current candidate with h | h <;> simp [h, hcandidate, hcurrent]

theorem bucket_route (line : Text) (statusHint : Nat) (t : TxTally) (k : LineKind) :
    (t.route line statusHint).bucket k ≠ [] ↔
      t.bucket k ≠ [] ∨ (line ≠ [] ∧ lineKind line statusHint = k) := by
  unfold TxTally.route lineKind
  split
  · cases k <;> simp [TxTally.bucket, preferRejectionLine_ne_nil]
  · split
    · cases k <;> simp [TxTally.bucket, preferRejectionLine_ne_nil]
    · cases k <;> simp [TxTally.bucket, preferRejectionLine_ne_nil]

variable (t : TxTally)

theorem classify_cls : t.classify.cls =
    if t.acceptedByAny then .accepted
    else if t.bucket .verdict ≠ [] then .rejected
    else if t.bucket .missingParent ≠ [] then .missingParent
    else .requeue := by
  unfold TxTally.classify TxTally.bucket
  split
  · rfl
  · split
    · rfl
    · split <;> rfl

/-! ## The lines of a response -/

/-- The status, where the response describes one transaction only. -/
def statusHintOf : Submitted → Nat
  | .failed status failures => if failures.len = 1 then status else 0
  | _ => 0

section

variable (parse : TxParser)

/-- The lines of a response that are routed to the transaction at index `i`. -/
def routed (order : MapOrder Text) (batch : List PropagationMsg) (result : Submitted) (i : Nat) :
    List Text :=
  match result with
  | .failed _ failures =>
    if failures.len = 0 then []
    else
      let pl := placement parse order batch failures
      ((lowerTxids batch)[i]?.bind failures.byKey.lookup).toList ++
        (pl.attributed.lookup i).toList ++
        if pl.unplaceable > 0 ∧ batch.length = 1 ∧ i = 0 then
          [bestUnplaceableLine pl.bestAlien failures.unkeyed]
        else []
  | _ => []

variable (order : MapOrder Text) (indexOrder : MapOrder Nat) (batch : List PropagationMsg)

theorem bucket_voteOne (failures : TxsFailures) (pl : Placement) (hint j : Nat) (lower : Text)
    (t : TxTally) (k : LineKind) :
    (voteOne failures pl hint j lower t).bucket k ≠ [] ↔ t.bucket k ≠ [] ∨
      ∃ line ∈ (failures.byKey.lookup lower).toList, line ≠ [] ∧ lineKind line hint = k := by
  unfold voteOne
  cases failures.byKey.lookup lower with
  | some line => simp [bucket_route]
  | none =>
    simp only [Option.toList_none, not_mem_nil, false_and, exists_false, or_false]
    split
    · cases k <;> rfl
    · exact Iff.rfl

theorem bucket_voteTx (result : Submitted) {i : Nat} (hi : i < batch.length) (t : TxTally)
    (k : LineKind) :
    (voteTx parse order batch result i t).bucket k ≠ [] ↔ t.bucket k ≠ [] ∨
      ∃ line ∈ routed parse order batch result i,
        line ≠ [] ∧ lineKind line (statusHintOf result) = k := by
  cases result with
  | accepted => cases k <;> simp [voteTx, TxTally.bucket, routed]
  | tooLarge => simp [voteTx, routed]
  | infra status => simp [voteTx, routed]
  | failed status failures =>
    by_cases hzero : failures.len = 0
    · simp [voteTx, routed, hzero]
    have hlower : (lowerTxids batch)[i]? = some ((lowerTxids batch).getD i []) := by
      simp [lowerTxids, getD_eq_getElem?_getD, hi]
    simp only [voteTx, routed, hzero, ↓reduceIte, hlower, Option.bind_some, statusHintOf,
      mem_append]
    generalize placement parse order batch failures = pl
    generalize (if failures.len = 1 then status else 0) = hint
    generalize (lowerTxids batch).getD i [] = lower
    have hone := bucket_voteOne failures pl hint i lower t k
    -- After the attributed line.
    have hrouted : ((pl.attributed.lookup i).elim (voteOne failures pl hint i lower t) fun line =>
        (voteOne failures pl hint i lower t).route line hint).bucket k ≠ [] ↔ t.bucket k ≠ [] ∨
          ∃ line, (line ∈ (failures.byKey.lookup lower).toList ∨
            line ∈ (pl.attributed.lookup i).toList) ∧ line ≠ [] ∧ lineKind line hint = k := by
      cases pl.attributed.lookup i with
      | none => simpa using hone
      | some line =>
        rw [Option.elim_some, bucket_route, hone]
        simp only [Option.toList_some, mem_singleton, or_and_right, exists_or,
          exists_eq_left, or_assoc]
    by_cases hbest : pl.unplaceable > 0 ∧ batch.length = 1
    · rw [if_pos hbest, if_pos ⟨hbest.1, hbest.2, by omega⟩, bucket_route, hrouted]
      simp only [mem_singleton, or_and_right, exists_or, exists_eq_left, or_assoc]
    · rw [if_neg hbest, if_neg fun h => hbest ⟨h.1, h.2.1⟩, hrouted]
      simp only [not_mem_nil, or_false]

/-! ## All responses of a pass -/

end

/-- A response, with the orders in which the maps of its failure list are ranged over. -/
structure Heard where
  result : Submitted
  order : MapOrder Text
  indexOrder : MapOrder Nat

section

variable (parse : TxParser)
  (batch : List PropagationMsg)

def heardTally (heard : List Heard) : Tally :=
  heard.foldl (fun tally h => vote parse h.order h.indexOrder batch h.result tally)
    (Tally.new batch)

/-- The classes and the flag that `broadcastBatchToEndpoints` returns. -/
def aggregate (heard : List Heard) (reason : Text) : List TxResultClass × Bool :=
  let tally := heardTally parse batch heard
  let tally := if heard.any (fun h => Submitted.isTooLarge h.result) then tally.sizeRejected reason else tally
  (tally.txs.map (·.classify.cls), tally.needsNarrowing)

theorem aggregate_eq_broadcast (order : MapOrder Text) (indexOrder : MapOrder Nat) (pass : Pass) :
    aggregate parse batch
      (pass.responses.map fun result => ⟨result, order, indexOrder⟩)
      (sizeReason batch pass.refusal) =
    ((broadcastBatchToEndpoints parse order indexOrder batch pass).1.map (·.cls),
      (broadcastBatchToEndpoints parse order indexOrder batch pass).2) := by
  simp only [aggregate, heardTally, broadcastBatchToEndpoints, tallyOf, foldl_map, any_map,
    map_map, Function.comp_def]

/-- Some response accepts the transaction. -/
def Voted (heard : List Heard) (i : Nat) : Prop :=
  ∃ h ∈ heard, acceptedBy parse h.order h.indexOrder batch h.result i = true

/-- Some response routes a line of the kind to the transaction. -/
def Filed (heard : List Heard) (i : Nat) (k : LineKind) : Prop :=
  ∃ h ∈ heard, ∃ line ∈ routed parse h.order batch h.result i,
    lineKind line (statusHintOf h.result) = k

/-- Some line of the response could not be placed. -/
def Unplaced : Submitted → Prop
  | .failed _ failures => failures.len ≠ 0 ∧
    ¬ (failures.unkeyed = [] ∧ AliensPlaced parse batch failures)
  | _ => False

/-- The class of each transaction and the flag, by the votes and the lines. -/
structure Classified (heard : List Heard) (classes : List TxResultClass) (narrow : Bool) : Prop where
  length : classes.length = batch.length
  accepted : ∀ i < batch.length, classes[i]? = some .accepted ↔ Voted parse batch heard i
  rejected : ∀ i < batch.length, classes[i]? = some .rejected ↔ ¬ Voted parse batch heard i ∧
      Filed parse batch heard i .verdict
  missingParent : ∀ i < batch.length, classes[i]? = some .missingParent ↔
    ¬ Voted parse batch heard i ∧ ¬ Filed parse batch heard i .verdict ∧
      Filed parse batch heard i .missingParent
  requeue : ∀ i < batch.length, classes[i]? = some .requeue ↔ ¬ Voted parse batch heard i ∧
      ¬ Filed parse batch heard i .verdict ∧
      ¬ Filed parse batch heard i .missingParent
  narrow : narrow = true ↔ (∃ h ∈ heard, Unplaced parse batch h.result) ∨
    (∃ h ∈ heard, Submitted.isTooLarge h.result = true) ∧ ∃ i < batch.length,
      ¬ Voted parse batch heard i ∧ ∀ k, ¬ Filed parse batch heard i k

/-! ## Every pass is classified by its votes and lines -/

variable (heard : List Heard)

theorem heardTally_concat (h : Heard) : heardTally parse batch (heard ++ [h]) =
    vote parse h.order h.indexOrder batch h.result (heardTally parse batch heard) := by
  simp [heardTally]

theorem length_heardTally : (heardTally parse batch heard).txs.length = batch.length := by
  induction heard using List.reverseRecOn with
  | nil => exact length_new batch
  | append_singleton heard h ih =>
    rw [heardTally_concat]
    exact length_vote _ _ _ _ h.result ih

theorem getElem?_heardTally {i : Nat} (hi : i < batch.length) :
    ∃ t, (heardTally parse batch heard).txs[i]? = some t ∧
      (t.acceptedByAny = true ↔ Voted parse batch heard i) ∧
      ∀ k, t.bucket k ≠ [] ↔ ∃ h ∈ heard, ∃ line ∈ routed parse h.order batch h.result i,
          line ≠ [] ∧ lineKind line (statusHintOf h.result) = k := by
  induction heard using List.reverseRecOn with
  | nil =>
    refine ⟨{}, by simp [heardTally, Tally.new, hi], by simp [Voted], fun k => ?_⟩
    cases k <;> simp [TxTally.bucket]
  | append_singleton heard h ih =>
    obtain ⟨t, ht, hacc, hbucket⟩ := ih
    have hlen := length_heardTally parse batch heard
    rw [heardTally_concat]
    refine ⟨_, getElem?_vote parse h.order h.indexOrder batch h.result hlen ht, ?_, fun k => ?_⟩
    · rw [acceptedByAny_vote parse h.order h.indexOrder batch h.result hlen ht, Bool.or_eq_true, hacc]
      simp [Voted, or_and_right, exists_or]
    · rw [bucket_voteTx parse h.order batch h.result hi, hbucket]
      simp [or_and_right, exists_or]

theorem needsNarrowing_vote (h : Heard) (tally : Tally) :
    (vote parse h.order h.indexOrder batch h.result tally).needsNarrowing = true ↔
      tally.needsNarrowing = true ∨ Unplaced parse batch h.result := by
  cases h.result with
  | accepted => simp [vote, Unplaced]
  | tooLarge => simp [vote, Unplaced]
  | infra status => simp [vote, Unplaced]
  | failed status failures =>
    by_cases hzero : failures.len = 0
    · simp [vote, Unplaced, hzero]
    · simp only [vote, hzero, ↓reduceIte, voteFailures, Bool.or_eq_true, decide_eq_true_eq,
        Unplaced, ne_eq, not_false_eq_true, true_and, ← unplaceable_eq_zero parse h.order]
      exact or_congr_right Nat.pos_iff_ne_zero

theorem needsNarrowing_heardTally : (heardTally parse batch heard).needsNarrowing = true ↔
      ∃ h ∈ heard, Unplaced parse batch h.result :=
  (foldl_iff (·.needsNarrowing = true) (fun tally h => needsNarrowing_vote parse batch h tally)
    _ heard).trans (by simp [Tally.new])

def NonBlank : Submitted → Prop
  | .failed _ failures =>
    (∀ key line, failures.byKey.lookup key = some line → line ≠ []) ∧ [] ∉ failures.unkeyed
  | _ => True

end

theorem nonBlank_submitTransactions (status : Nat) (body : Option Text) :
    NonBlank (submitTransactions status body) := by
  have hadd : ∀ f line, NonBlank (.failed 0 f) → NonBlank (.failed 0 (f.addLine line)) := by
    rintro f line ⟨hkeys, hunkeyed⟩
    unfold TxsFailures.addLine
    split
    · exact ⟨hkeys, hunkeyed⟩
    · rename_i hne
      split
      · exact ⟨hkeys, by simpa [hunkeyed] using Ne.symm hne⟩
      · refine ⟨fun key' line' hlookup => ?_, hunkeyed⟩
        rcases of_lookup_insert hlookup with ⟨-, rfl⟩ | ⟨-, hlookup⟩
        · exact hne
        · exact hkeys key' line' hlookup
  have hparsed : ∀ text failures, parseTxsFailures text = some failures →
      NonBlank (.failed 0 failures) := by
    intro text failures hparse
    unfold parseTxsFailures at hparse
    dsimp only at hparse
    split at hparse
    · cases hparse
    · split at hparse
      · cases hparse
      · split_ifs at hparse
        obtain rfl := Option.some.inj hparse
        exact run_keeps hadd ⟨fun key line h => (by cases h), not_mem_nil⟩ _
  unfold submitTransactions
  split_ifs
  · trivial
  · trivial
  · split
    · trivial
    · split
      · rename_i hparse
        exact hparsed _ _ hparse
      · split <;> trivial

theorem alienLines_perm (order order' : MapOrder Text) (batch : List PropagationMsg)
    (failures : TxsFailures) :
    (alienLines order batch failures).Perm (alienLines order' batch failures) :=
  (((order.perm [] _).trans (order'.perm [] _).symm).filter _).map _

theorem foldl_preferRejectionLine_ne_nil (lines : List Text) (best : Text) :
    lines.foldl preferRejectionLine best ≠ [] ↔ best ≠ [] ∨ ∃ line ∈ lines, line ≠ [] :=
  foldl_iff (· ≠ []) preferRejectionLine_ne_nil best lines

theorem ne_nil_of_mem_alienLines {order : MapOrder Text} {batch : List PropagationMsg}
    {status : Nat} {failures : TxsFailures} (hblank : NonBlank (.failed status failures))
    {line : Text} (hline : line ∈ alienLines order batch failures) : line ≠ [] := by
  obtain ⟨key, hkey, rfl⟩ := mem_map.mp hline
  have hmem : key ∈ failures.byKey :=
    AList.mem_keys.mpr ((order.perm [] _).mem_iff.mp (mem_of_mem_filter hkey))
  obtain ⟨line, hlookup⟩ := (mem_iff_lookup _ _).mp hmem
  rw [hlookup]
  exact hblank.1 key line hlookup

section

variable (parse : TxParser)
  (batch : List PropagationMsg) {order : MapOrder Text}

theorem bestAlien_eq (order : MapOrder Text) (failures : TxsFailures) :
    (placement parse order batch failures).bestAlien =
      (alienLines order batch failures).foldl preferRejectionLine [] :=
  congrArg Prod.snd (alienFailureLines_eq order batch failures)

theorem bestUnplaceableLine_ne_nil {status : Nat} {failures : TxsFailures}
    (hblank : NonBlank (.failed status failures))
    (hun : (placement parse order batch failures).unplaceable > 0) :
    bestUnplaceableLine (placement parse order batch failures).bestAlien
      failures.unkeyed ≠ [] := by
  unfold bestUnplaceableLine
  rw [foldl_preferRejectionLine_ne_nil, bestAlien_eq, foldl_preferRejectionLine_ne_nil]
  by_cases hunkeyed : failures.unkeyed = []
  · -- Then it is an alien line.
    simp only [placement, alienFailureLines_eq, hunkeyed, length_nil, Nat.add_zero] at hun
    obtain ⟨line, hline⟩ := exists_mem_of_length_pos (Nat.zero_lt_of_lt (Nat.lt_of_sub_pos hun))
    exact .inl (.inr ⟨line, hline, ne_nil_of_mem_alienLines hblank hline⟩)
  · obtain ⟨line, hline⟩ := exists_mem_of_ne_nil _ hunkeyed
    exact .inr ⟨line, hline, fun h => hblank.2 (h ▸ hline)⟩

theorem ne_nil_of_mem_routed {result : Submitted} (hblank : NonBlank result) {i : Nat} {line : Text}
    (hline : line ∈ routed parse order batch result i) : line ≠ [] := by
  cases result with
  | accepted => cases hline
  | tooLarge => cases hline
  | infra status => cases hline
  | failed status failures =>
    simp only [routed] at hline
    split at hline
    · cases hline
    · rcases mem_append.mp hline with hplaced | hbest
      · rcases mem_append.mp hplaced with hkeyed | hattributed
        · obtain ⟨lower, -, hlookup⟩ := Option.bind_eq_some_iff.mp (Option.mem_toList.mp hkeyed)
          exact hblank.1 lower line hlookup
        · have hlookup := Option.mem_toList.mp hattributed
          simp only [placement] at hlookup
          split at hlookup
          · rw [lookup_attributeConflictLines] at hlookup
            split at hlookup
            · cases hlookup
            · rename_i hne
              obtain rfl := Option.some.inj hlookup
              obtain ⟨key, hkey, -⟩ := (mem_contributions _ _ _ _ _).mp
                (foldl_preferRejectionLine_mem hne)
              exact hblank.1 key _ hkey
          · cases hlookup
      · split at hbest
        · rename_i hun
          obtain rfl := mem_singleton.mp hbest
          exact bestUnplaceableLine_ne_nil parse batch hblank hun.1
        · cases hbest

theorem silent_iff (t : TxTally) :
    t.silent = true ↔ t.acceptedByAny = false ∧ ∀ k, t.bucket k = [] := by
  simp only [TxTally.silent, Bool.and_eq_true, Bool.not_eq_eq_eq_not, Bool.not_true,
    decide_eq_true_eq, and_assoc]
  refine and_congr_right fun _ => ⟨fun ⟨h₁, h₂, h₃⟩ k => ?_, fun h => ⟨h .verdict, h .missingParent,
    h .infra⟩⟩
  cases k
  · exact h₃
  · exact h₂
  · exact h₁

theorem classified_aggregate {heard : List Heard} (hblank : ∀ h ∈ heard, NonBlank h.result)
    (reason : Text) :
    Classified parse batch heard
      (aggregate parse batch heard reason).1
      (aggregate parse batch heard reason).2 := by
  have hlen := length_heardTally parse batch heard
  -- The class of a transaction, with the buckets read as lines.
  have hclass : ∀ i < batch.length, ∃ t, (heardTally parse batch heard).txs[i]? = some t ∧
      (t.acceptedByAny = true ↔ Voted parse batch heard i) ∧
      (∀ k, t.bucket k ≠ [] ↔ Filed parse batch heard i k) ∧
      (aggregate parse batch heard reason).1[i]? = some t.classify.cls := by
    intro i hi
    obtain ⟨t, ht, hacc, hbucket⟩ := getElem?_heardTally parse batch heard hi
    refine ⟨t, ht, hacc, fun k => ?_, ?_⟩
    · rw [hbucket]
      refine exists_congr fun h => and_congr_right fun hh => exists_congr fun line =>
        and_congr_right fun hline => and_iff_right ?_
      exact ne_nil_of_mem_routed parse batch (hblank h hh) hline
    · simp only [aggregate]
      split
      · simp only [Tally.sizeRejected, List.getElem?_map, ht, Option.map_some, Option.some.injEq]
        split
        · rw [classify_cls, classify_cls]
          rfl
        · rfl
      · simp only [List.getElem?_map, ht, Option.map_some]
  refine ⟨?_, fun i hi => ?_, fun i hi => ?_, fun i hi => ?_, fun i hi => ?_, ?_⟩
  · simp only [aggregate]
    split <;> simp [Tally.sizeRejected, hlen]
  · obtain ⟨t, -, hacc, hfiled, hcls⟩ := hclass i hi
    rw [hcls, Option.some.injEq, classify_accepted_iff, hacc]
  · obtain ⟨t, -, hacc, hfiled, hcls⟩ := hclass i hi
    rw [hcls, Option.some.injEq, classify_cls, ← hacc, ← hfiled]
    clear hfiled
    split_ifs <;> simp [*]
  · obtain ⟨t, -, hacc, hfiled, hcls⟩ := hclass i hi
    rw [hcls, Option.some.injEq, classify_cls, ← hacc, ← hfiled, ← hfiled]
    clear hfiled
    split_ifs <;> simp [*]
  · obtain ⟨t, -, hacc, hfiled, hcls⟩ := hclass i hi
    rw [hcls, Option.some.injEq, classify_cls, ← hacc, ← hfiled, ← hfiled]
    clear hfiled
    split_ifs <;> simp [*]
  · have hsilent : (heardTally parse batch heard).txs.any TxTally.silent = true ↔
        ∃ i < batch.length, ¬ Voted parse batch heard i ∧ ∀ k, ¬ Filed parse batch heard i k := by
      have hone : ∀ i t, i < batch.length → (heardTally parse batch heard).txs[i]? = some t →
          (t.silent = true ↔ ¬ Voted parse batch heard i ∧ ∀ k, ¬ Filed parse batch heard i k) := by
        intro i t hi ht
        obtain ⟨t', ht', hacc, hfiled, -⟩ := hclass i hi
        obtain rfl := Option.mem_unique ht ht'
        rw [silent_iff, ← hacc]
        simp only [← hfiled, ne_eq, not_not, Bool.not_eq_true]
      rw [any_eq_true]
      constructor
      · rintro ⟨t, hmem, hsilent⟩
        obtain ⟨i, ht⟩ := mem_iff_getElem?.mp hmem
        have hi : i < batch.length := hlen ▸ (List.getElem?_eq_some_iff.mp ht).1
        exact ⟨i, hi, (hone i t hi ht).mp hsilent⟩
      · rintro ⟨i, hi, hnone⟩
        obtain ⟨t, ht, -⟩ := hclass i hi
        exact ⟨t, mem_of_getElem? ht, (hone i t hi ht).mpr hnone⟩
    have hnarrow := needsNarrowing_heardTally parse batch heard
    simp only [aggregate]
    split
    · rename_i hlarge
      rw [Tally.sizeRejected]
      rw [Bool.or_eq_true, hnarrow, hsilent]
      refine or_congr_right (and_iff_right ?_).symm
      simpa using hlarge
    · rename_i hlarge
      rw [hnarrow]
      refine (or_iff_left ?_).symm
      rintro ⟨⟨h, hh, htoo⟩, -⟩
      exact hlarge (any_eq_true.mpr ⟨h, hh, htoo⟩)

end

end Arcade.Propagation
