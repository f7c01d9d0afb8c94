import Arcade.Propagation.Acceptance

/-!
`broadcastChunk`: a chunk is broadcast as one batch, and again in two halves when some
response could not be bound to its transactions. A pass counts every acceptance vote
it gets, but the results of a pass that is narrowed are thrown away with its votes.
-/

namespace Arcade.Propagation

open Lib Teranode List

/-! ## The verdict of a failure line -/

def verdictSpecificity (name : Text) : Int :=
  if ["UTXO_SPENT".toList, "TX_INVALID_DOUBLE_SPEND".toList, "TX_CONFLICTING".toList].contains name
  then 50
  else if ["TX_LOCKED".toList, "UTXO_FROZEN".toList, "TX_LOCK_TIME".toList,
    "UTXO_NON_FINAL".toList].contains name then 40
  else if name = "TX_INVALID".toList then 30
  else if name = "PROCESSING".toList then 10
  else if codeNameScore name = 30 then 20
  else 15

/-- The most specific code a line mentions, the leftmost of several. -/
def verdictCodeName (line : Text) : Option Text :=
  let best := (codeNames line).foldl (fun (best : Text × Int) name =>
    if verdictSpecificity name > best.2 then (name, verdictSpecificity name) else best) ([], -1)
  if best.2 ≥ 0 then some best.1 else Text.cut line " (".toList

/-- The message for the row, and the ARC status code, 0 for none. -/
def classifyFailureLine (line : Text) (httpStatus : Nat) : Text × Nat :=
  match verdictCodeName line with
  | none => (line, 0)
  | some name =>
    if ["TX_LOCK_TIME".toList, "UTXO_NON_FINAL".toList].contains name then
      (line ++ (" — retryable: the transaction is not final against this peer's chain view; " ++
        "resubmit after the locktime expires").toList, 476)
    else if ["TX_CONFLICTING".toList, "UTXO_SPENT".toList, "TX_INVALID_DOUBLE_SPEND".toList,
      "TX_LOCKED".toList].contains name then (line, 466)
    else if name = "TX_INVALID".toList then (line, 467)
    else if name = "UTXO_FROZEN".toList then (line, 471)
    else if name = "PROCESSING".toList ∧ httpStatus = 403 then
      (line ++ (" — the peer answered HTTP 403 (forbidden): the transaction spends a frozen or " ++
        "administratively blocked utxo. The peer's error boundary does not surface the " ++
        "frozen-utxo code itself, so this status is the whole of the available detail.").toList,
        471)
    else (line, 0)

/-! ## Results -/

inductive TxResultClass where
  | accepted | rejected | requeue | missingParent
  deriving DecidableEq

structure TxResult where
  cls : TxResultClass
  errMsg : Text
  arcCode : Nat
  competing : List Text
  deriving DecidableEq

/-- The class of a transaction by what was tallied for it. -/
def TxTally.classify (t : TxTally) : TxResult :=
  if t.acceptedByAny then ⟨.accepted, [], 0, []⟩
  else if t.rejectionLine ≠ [] then
    let (errMsg, arcCode) := classifyFailureLine t.rejectionLine t.rejectionStatus
    ⟨.rejected, errMsg, arcCode, if arcCode = 466 then competingSpenders t.rejectionLine else []⟩
  else if t.missingParentLine ≠ [] then ⟨.missingParent, t.missingParentLine, 0, []⟩
  else ⟨.requeue, t.infraLine, 0, []⟩

def TxTally.silent (t : TxTally) : Bool :=
  !t.acceptedByAny && t.rejectionLine = [] && t.missingParentLine = [] && t.infraLine = []

/-- The responses to one pass, in the order they come in. Peers that are not healthy and
submissions that were canceled have none. `refusal` is the text of the last `ErrBatchTooLarge`. -/
structure Pass where
  responses : List Submitted
  refusal : Text

def Submitted.isTooLarge : Submitted → Bool
  | .tooLarge => true
  | _ => false

def rawTxsBytes (batch : List PropagationMsg) : Nat := (batch.map (·.rawTx.length)).sum

def sizeReason (batch : List PropagationMsg) (refusal : Text) : Text :=
  "teranode rejected the batch as submitted (".toList ++ Nat.toDigits 10 batch.length ++
    " txs, ".toList ++ Nat.toDigits 10 (rawTxsBytes batch) ++ " bytes): ".toList ++ refusal

/-- What a refusal by shape leaves to be done: the transactions nobody voted on. -/
def Tally.sizeRejected (reason : Text) (tally : Tally) : Tally where
  txs := tally.txs.map fun t => if t.silent then { t with infraLine := reason } else t
  needsNarrowing := tally.needsNarrowing || tally.txs.any TxTally.silent

section

variable (parse : TxParser)
  (order : MapOrder Text) (indexOrder : MapOrder Nat)

def tallyOf (batch : List PropagationMsg) (pass : Pass) : Tally :=
  let tally := pass.responses.foldl (fun tally result =>
    vote parse order indexOrder batch result tally) (Tally.new batch)
  if pass.responses.any Submitted.isTooLarge then tally.sizeRejected (sizeReason batch pass.refusal)
  else tally

def broadcastBatchToEndpoints (batch : List PropagationMsg) (pass : Pass) : List TxResult × Bool :=
  let tally := tallyOf parse order indexOrder batch pass
  (tally.txs.map TxTally.classify, tally.needsNarrowing)

/-- The pass is followed by one for each half of the chunk. -/
def Narrows (chunk : List PropagationMsg) (pass : Pass) : Prop :=
  (broadcastBatchToEndpoints parse order indexOrder chunk pass).2 = true ∧ chunk.length > 1

instance (chunk : List PropagationMsg) (pass : Pass) :
    Decidable (Narrows parse order indexOrder chunk pass) :=
  inferInstanceAs (Decidable (_ ∧ _))

/-- `broadcastChunk` and `narrowChunk`: the results that `out` holds in the end. `peers` gives the
responses to each pass; it is indexed by the halves taken on the way to the pass, `false` for
the first one. -/
def broadcastChunk (chunk : List PropagationMsg) (peers : List Bool → Pass) : List TxResult :=
  if h : Narrows parse order indexOrder chunk (peers []) then
    have := h.2
    broadcastChunk (chunk.take (chunk.length / 2)) (fun path => peers (false :: path)) ++
      broadcastChunk (chunk.drop (chunk.length / 2)) (fun path => peers (true :: path))
  else (broadcastBatchToEndpoints parse order indexOrder chunk (peers [])).1
termination_by chunk.length
decreasing_by
  · simp only [length_take]
    omega
  · simp only [length_drop]
    omega

/-- A pass that was made, with the place of a transaction in its chunk. -/
structure Made where
  chunk : List PropagationMsg
  index : Nat
  pass : Pass

/-- Some peer gives the transaction an acceptance vote in the pass. -/
def Made.Accepts (m : Made) : Prop :=
  ∃ result ∈ m.pass.responses, acceptedBy parse order indexOrder m.chunk result m.index = true

/-- The passes that contain the transaction at index `i`, in the order they are made. -/
def passesOf (chunk : List PropagationMsg) (peers : List Bool → Pass) (i : Nat) : List Made :=
  ⟨chunk, i, peers []⟩ ::
    if h : Narrows parse order indexOrder chunk (peers []) then
      have := h.2
      if i < chunk.length / 2 then
        passesOf (chunk.take (chunk.length / 2)) (fun path => peers (false :: path)) i
      else
        passesOf (chunk.drop (chunk.length / 2)) (fun path => peers (true :: path))
          (i - chunk.length / 2)
    else []
termination_by chunk.length
decreasing_by
  · simp only [length_take]
    omega
  · simp only [length_drop]
    omega

end

/-! ## What a pass tallies -/

section

variable (parse : TxParser)
  (order : MapOrder Text) (indexOrder : MapOrder Nat) (batch : List PropagationMsg)

theorem length_foldl_modify (idxs : List Nat) (f : Nat → TxTally → TxTally) (txs : List TxTally) :
    (idxs.foldl (fun txs idx => txs.modify idx (f idx)) txs).length = txs.length := by
  induction idxs generalizing txs with
  | nil => rfl
  | cons idx idxs ih => rw [foldl_cons, ih, length_modify]

variable {tally : Tally} {i : Nat} (chunk : List PropagationMsg) (result : Submitted)

theorem length_vote (h : tally.txs.length = batch.length) :
    (vote parse order indexOrder batch result tally).txs.length = batch.length := by
  cases result with
  | accepted => simp [vote, h]
  | tooLarge => exact h
  | infra status => exact h
  | failed status failures =>
    simp only [vote]
    split
    · exact h
    · simp only [voteFailures]
      split <;> simp [length_foldl_modify, h, lowerTxids]

theorem acceptedByAny_vote {t : TxTally}
    (hlen : tally.txs.length = batch.length) (ht : tally.txs[i]? = some t) :
    (voteTx parse order batch result i t).acceptedByAny =
      (t.acceptedByAny || acceptedBy parse order indexOrder batch result i) := by
  have hi : i < batch.length := hlen ▸ (List.getElem?_eq_some_iff.mp ht).1
  rw [acceptedByAny_voteTx, acceptedBy_eq_voteTx parse order indexOrder batch result hi]

theorem acceptedByAny_foldl_vote (responses : List Submitted) {t : TxTally}
    (hlen : tally.txs.length = batch.length) (ht : tally.txs[i]? = some t) :
    ∃ t', (responses.foldl (fun tally result =>
        vote parse order indexOrder batch result tally) tally).txs[i]? = some t' ∧
      t'.acceptedByAny = (t.acceptedByAny || responses.any fun result =>
        acceptedBy parse order indexOrder batch result i) := by
  induction responses generalizing tally t with
  | nil => exact ⟨t, ht, by simp⟩
  | cons result responses ih =>
    have hacc := acceptedByAny_vote parse order indexOrder batch result hlen ht
    obtain ⟨t', ht', hacc'⟩ := ih (length_vote _ _ _ _ result hlen)
      (getElem?_vote parse order indexOrder batch result hlen ht)
    exact ⟨t', ht', by rw [hacc', hacc, any_cons, Bool.or_assoc]⟩

theorem length_foldl_vote (responses : List Submitted) (hlen : tally.txs.length = batch.length) :
    (responses.foldl (fun tally result =>
      vote parse order indexOrder batch result tally) tally).txs.length =
      batch.length :=
  run_keeps (P := fun t : Tally => t.txs.length = batch.length)
    (fun _ result h => length_vote _ _ _ _ result h) hlen responses

theorem length_new : (Tally.new batch).txs.length = batch.length := by simp [Tally.new]

theorem length_results (pass : Pass) :
    (broadcastBatchToEndpoints parse order indexOrder batch pass).1.length = batch.length := by
  have hlen := length_foldl_vote parse order indexOrder batch pass.responses
    (length_new batch)
  simp only [broadcastBatchToEndpoints, tallyOf]
  split <;> simp [Tally.sizeRejected, hlen]

theorem classify_accepted_iff (t : TxTally) : t.classify.cls = .accepted ↔ t.acceptedByAny = true := by
  unfold TxTally.classify
  split
  · simp [*]
  · split
    · simp [*]
    · split <;> simp [*]

theorem accepted_iff_accepts (pass : Pass) (hi : i < batch.length) :
    ((broadcastBatchToEndpoints parse order indexOrder batch pass).1[i]?).map
      (·.cls) = some .accepted ↔
      (⟨batch, i, pass⟩ : Made).Accepts parse order indexOrder := by
  have hnew : (Tally.new batch).txs[i]? = some {} := by simp [Tally.new, hi]
  obtain ⟨t, ht, hacc⟩ := acceptedByAny_foldl_vote parse order indexOrder batch
    pass.responses (length_new batch) hnew
  have hkept : ∀ t' : TxTally, t'.acceptedByAny = t.acceptedByAny → (t'.classify.cls = .accepted ↔
        (⟨batch, i, pass⟩ : Made).Accepts parse order indexOrder) := by
    intro t' heq
    rw [classify_accepted_iff, heq, hacc]
    simp [Made.Accepts]
  simp only [broadcastBatchToEndpoints, tallyOf, List.getElem?_map]
  split
  · simp only [Tally.sizeRejected, List.getElem?_map, ht, Option.map_some, Option.some.injEq]
    apply hkept
    split <;> rfl
  · simp only [ht, Option.map_some, Option.some.injEq]
    exact hkept t rfl

/-! ## What survives the narrowing -/

variable (peers : List Bool → Pass)

theorem length_broadcastChunk :
    (broadcastChunk parse order indexOrder chunk peers).length = chunk.length := by
  induction chunk, peers using broadcastChunk.induct parse order indexOrder with
  | case1 chunk peers h hlen ih₁ ih₂ =>
    rw [broadcastChunk, dif_pos h, length_append, ih₁, ih₂, length_take, length_drop]
    omega
  | case2 chunk peers h => rw [broadcastChunk, dif_neg h, length_results]

theorem passesOf_ne_nil (i : Nat) : passesOf parse order indexOrder chunk peers i ≠ [] := by
  rw [passesOf]
  exact cons_ne_nil _ _

/-- Only the last pass that contains a transaction decides. -/
theorem broadcastChunk_accepted_iff (hi : i < chunk.length) :
    ((broadcastChunk parse order indexOrder chunk peers)[i]?).map (·.cls) = some .accepted ↔
    ∃ last, (passesOf parse order indexOrder chunk peers i).getLast? = some last ∧
      last.Accepts parse order indexOrder := by
  induction chunk, peers using broadcastChunk.induct parse order indexOrder
    generalizing i with
  | case1 chunk peers h hlen ih₁ ih₂ =>
    have htake : (chunk.take (chunk.length / 2)).length = chunk.length / 2 := by
      rw [length_take]
      omega
    have hdrop : (chunk.drop (chunk.length / 2)).length = chunk.length - chunk.length / 2 :=
      length_drop
    have hfirst := length_broadcastChunk parse order indexOrder
      (chunk.take (chunk.length / 2)) fun path => peers (false :: path)
    rw [broadcastChunk, dif_pos h, passesOf, dif_pos h]
    by_cases hlt : i < chunk.length / 2
    · rw [List.getElem?_append_left (by omega), if_pos hlt,
        List.getLast?_cons_of_ne_nil (passesOf_ne_nil _ _ _ _ _ _), ih₁ (by omega)]
    · rw [List.getElem?_append_right (by omega), if_neg hlt,
        List.getLast?_cons_of_ne_nil (passesOf_ne_nil _ _ _ _ _ _), hfirst, htake, ih₂ (by omega)]
  | case2 chunk peers h =>
    rw [broadcastChunk, dif_neg h, passesOf, dif_neg h, accepted_iff_accepts _ _ _ _ _ hi]
    simp

theorem getLast?_of_not_narrows {m : Made} (hm : m ∈ passesOf parse order indexOrder chunk peers i)
    (hn : ¬Narrows parse order indexOrder m.chunk m.pass) :
    (passesOf parse order indexOrder chunk peers i).getLast? = some m := by
  induction chunk, peers using broadcastChunk.induct parse order indexOrder
    generalizing i with
  | case1 chunk peers h hlen ih₁ ih₂ =>
    rw [passesOf, dif_pos h] at hm ⊢
    rcases mem_cons.mp hm with rfl | hm
    · exact absurd h hn
    · rw [List.getLast?_cons_of_ne_nil (ne_nil_of_mem hm)]
      by_cases hlt : i < chunk.length / 2
      · rw [if_pos hlt] at hm ⊢
        exact ih₁ hm
      · rw [if_neg hlt] at hm ⊢
        exact ih₂ hm
  | case2 chunk peers h =>
    rw [passesOf, dif_neg h] at hm ⊢
    rw [mem_singleton.mp hm, List.getLast?_singleton]

/-- The acceptances of a pass that is narrowed are lost exactly where the pass that the
narrowing ends in does not repeat them. -/
theorem broadcastChunk_sticky_iff (chunk : List PropagationMsg) (peers : List Bool → Pass) :
    (∀ i < chunk.length, (∃ m ∈ passesOf parse order indexOrder chunk peers i,
        m.Accepts parse order indexOrder) →
      ((broadcastChunk parse order indexOrder chunk peers)[i]?).map (·.cls) = some .accepted) ↔
    ∀ i < chunk.length, ∀ m ∈ passesOf parse order indexOrder chunk peers i,
      Narrows parse order indexOrder m.chunk m.pass →
      m.Accepts parse order indexOrder →
      ∃ last, (passesOf parse order indexOrder chunk peers i).getLast? = some last ∧
        last.Accepts parse order indexOrder := by
  refine forall₂_congr fun i hi => ?_
  rw [broadcastChunk_accepted_iff _ _ _ _ _ hi]
  constructor
  · intro h m hm _ ha
    exact h ⟨m, hm, ha⟩
  · rintro h ⟨m, hm, ha⟩
    by_cases hn : Narrows parse order indexOrder m.chunk m.pass
    · exact h m hm hn ha
    · exact ⟨m, getLast?_of_not_narrows _ _ _ _ _ hm hn, ha⟩

end

/-! ## A vote that is lost -/

/-- One peer accepts the whole chunk, another gives a line that names no transaction; after that
nobody answers. -/
def lostVote : List Bool → Pass
  | [] => ⟨[.accepted, .failed 400 ⟨∅, ["TX_INVALID (31): bad script".toList]⟩], []⟩
  | _ => ⟨[.infra 502], []⟩

/-- The first transaction has an acceptance vote and is requeued. -/
theorem lostVote_requeued :
    (∃ m ∈ passesOf sampleParse (.stored Text) (.stored Nat) sampleBatch lostVote 0,
      m.Accepts sampleParse (.stored Text) (.stored Nat)) ∧
    ((broadcastChunk sampleParse (.stored Text) (.stored Nat) sampleBatch lostVote)[0]?).map
      (·.cls) = some .requeue := by
  constructor
  · refine ⟨⟨sampleBatch, 0, lostVote []⟩, ?_, .accepted, mem_cons_self, by decide +kernel⟩
    rw [passesOf]
    exact mem_cons_self
  · decide +kernel

end Arcade.Propagation
