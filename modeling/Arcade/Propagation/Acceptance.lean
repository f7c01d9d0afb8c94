import Arcade.Propagation.Verdicts

/-!
Whether a peer's failure list can hand an acceptance vote to a transaction that
failed at that peer. Lines are filed under one key each and a later line
replaces an earlier one under the same key, so two lines that name the same hash
leave one of their transactions out of the account; so does a conflict line whose
hash happens to name another submitted transaction.
-/

namespace Arcade.Propagation

open Lib Teranode List

/-! ## What the parser keeps of the lines -/

theorem lineKey_nil : lineKey [] = none := by decide

theorem addLine_byKey (f : TxsFailures) (line key : Text) :
    key ∈ (f.addLine line).byKey ↔ key ∈ f.byKey ∨ lineKey line = some key := by
  unfold TxsFailures.addLine
  split
  · rename_i hblank
    simp [hblank, lineKey_nil]
  · cases hk : lineKey line with
    | none => simp
    | some k =>
      simp only [AList.mem_insert, Option.some.injEq]
      constructor
      · rintro (rfl | h)
        · exact .inr rfl
        · exact .inl h
      · rintro (h | rfl)
        · exact .inr h
        · exact .inl rfl

theorem addLine_unkeyed (f : TxsFailures) (line l : Text) :
    l ∈ (f.addLine line).unkeyed ↔ l ∈ f.unkeyed ∨ (l = line ∧ line ≠ [] ∧ lineKey line = none) := by
  unfold TxsFailures.addLine
  split
  · rename_i hblank
    simp [hblank]
  · rename_i hne
    cases hk : lineKey line with
    | none => simp [hne]
    | some k => simp

variable (lines : List Text)

theorem mem_byKey_fileLines (key : Text) :
    key ∈ (fileLines lines).byKey ↔ ∃ line ∈ lines, lineKey line = some key :=
  (foldl_iff (key ∈ ·.byKey) (fun f line => addLine_byKey f line key) _ lines).trans (by simp)

theorem mem_unkeyed_fileLines (l : Text) :
    l ∈ (fileLines lines).unkeyed ↔ l ∈ lines ∧ l ≠ [] ∧ lineKey l = none := by
  refine (foldl_iff (l ∈ ·.unkeyed) (fun f line => addLine_unkeyed f line l) _ lines).trans ?_
  simp only [not_mem_nil, false_or]
  constructor
  · rintro ⟨line, hline, rfl, h⟩
    exact ⟨hline, h⟩
  · exact fun ⟨hline, h⟩ => ⟨l, hline, rfl, h⟩

theorem len_fileLines_eq_zero : (fileLines lines).len = 0 ↔ ∀ line ∈ lines, line = [] := by
  unfold TxsFailures.len
  rw [Nat.add_eq_zero_iff, length_eq_zero_iff, length_eq_zero_iff]
  constructor
  · rintro ⟨hkeys, hun⟩ line hline
    by_contra hne
    cases hk : lineKey line with
    | none =>
      have hmem := (mem_unkeyed_fileLines lines line).mpr ⟨hline, hne, hk⟩
      rw [hun] at hmem
      cases hmem
    | some key =>
      have hmem := AList.mem_keys.mp ((mem_byKey_fileLines lines key).mpr ⟨line, hline, hk⟩)
      rw [hkeys] at hmem
      cases hmem
  · intro hblank
    refine ⟨eq_nil_iff_forall_not_mem.mpr fun key hkey => ?_,
      eq_nil_iff_forall_not_mem.mpr fun l hl => ?_⟩
    · obtain ⟨line, hline, hk⟩ := (mem_byKey_fileLines lines key).mp (AList.mem_keys.mpr hkey)
      rw [hblank line hline, lineKey_nil] at hk
      cases hk
    · obtain ⟨hline, hne, -⟩ := (mem_unkeyed_fileLines lines l).mp hl
      exact hne (hblank l hline)

/-! ## Fabricated acceptance -/

section

variable (parse : TxParser)
  (order : MapOrder Text) (indexOrder : MapOrder Nat) (batch : List PropagationMsg)
  (lines : List Text)

/-- Some line is filed under the transaction at index `i`, or a line that was
kept and names no submitted transaction condemns it. -/
def AccountedFor (i : Nat) : Prop :=
  (∃ msg line, batch[i]? = some msg ∧ line ∈ lines ∧
    lineKey line = some (Text.lower msg.txid.toList)) ∨
  ∃ key, Alien batch (fileLines lines) key ∧ condemned parse batch (fileLines lines) key = some i

theorem acceptedBy_fileLines {i : Nat} (hi : i < batch.length)
    (hlen : (fileLines lines).len ≠ 0) (status : Nat) :
    acceptedBy parse order indexOrder batch
      (.failed status (fileLines lines)) i = true ↔
    ¬AccountedFor parse batch lines i ∧ (∀ line ∈ lines, line ≠ [] → lineKey line ≠ none) ∧
      AliensPlaced parse batch (fileLines lines) := by
  obtain ⟨msg, hmsg⟩ : ∃ msg, batch[i]? = some msg := ⟨_, List.getElem?_eq_getElem hi⟩
  have hnamed : (∃ msg line, batch[i]? = some msg ∧ line ∈ lines ∧
      lineKey line = some (Text.lower msg.txid.toList)) ↔
      Text.lower msg.txid.toList ∈ (fileLines lines).byKey := by
    rw [mem_byKey_fileLines]
    constructor
    · rintro ⟨msg', line, hmsg', hline, hk⟩
      obtain rfl := Option.mem_unique hmsg hmsg'
      exact ⟨line, hline, hk⟩
    · rintro ⟨line, hline, hk⟩
      exact ⟨msg, line, hmsg, hline, hk⟩
  have hunkeyed : (fileLines lines).unkeyed = [] ↔
      ∀ line ∈ lines, line ≠ [] → lineKey line ≠ none := by
    rw [eq_nil_iff_forall_not_mem]
    simp only [mem_unkeyed_fileLines, not_and]
  rw [acceptedBy_failed parse order indexOrder batch _ hmsg hlen, hunkeyed,
    AccountedFor, hnamed, not_or, and_assoc]

/-- Of the transactions that failed at a peer, none gets an acceptance vote from
its failure list exactly when the peer refused the batch by size, nothing but
blank lines came, some line names no hash, some alien line is not placed, or
every failed transaction is accounted for. -/
theorem failed_not_accepted_iff (status newlines : Nat) (failed : List Nat)
    (hstatus : status ≠ 200) (hlines : ∀ line ∈ lines, '\n' ∉ line)
    (hfailed : ∀ i ∈ failed, i < batch.length) :
    (∀ i ∈ failed, acceptedBy parse order indexOrder batch
      (submitTransactions status (some (failureBody lines newlines))) i = false) ↔
    status = 413 ∨ (∀ line ∈ lines, line = []) ∨ (∃ line ∈ lines, line ≠ [] ∧ lineKey line = none) ∨
      ¬AliensPlaced parse batch (fileLines lines) ∨
      ∀ i ∈ failed, AccountedFor parse batch lines i := by
  have hsilent : ∀ i : Nat, (Tally.new batch).txs[i]? = none ∨
      (Tally.new batch).txs[i]? = some ({} : TxTally) := by
    intro i
    simp only [Tally.new, List.getElem?_map]
    cases batch[i]? <;> simp
  have hnovote : ∀ result i, (result = .tooLarge ∨ ∃ s, result = .infra s) →
      acceptedBy parse order indexOrder batch result i = false := by
    rintro result i (rfl | ⟨s, rfl⟩) <;> rcases hsilent i with h | h <;> simp [acceptedBy, vote, h]
  by_cases h413 : status = 413
  · refine iff_of_true (fun i _ => hnovote _ i (.inl ?_)) (.inl h413)
    simp [submitTransactions, h413]
  by_cases hblank : ∀ line ∈ lines, line = []
  · refine iff_of_true (fun i _ => hnovote _ i ?_) (.inr (.inl hblank))
    simp only [submitTransactions, hstatus, h413, ↓reduceIte, parse_failureBody lines newlines hlines,
      (len_fileLines_eq_zero lines).mpr hblank]
    split
    · exact .inl rfl
    · exact .inr ⟨_, rfl⟩
  · have hlen : (fileLines lines).len ≠ 0 := fun h => hblank ((len_fileLines_eq_zero lines).mp h)
    have hresult : submitTransactions status (some (failureBody lines newlines)) =
        .failed status (fileLines lines) := by
      simp only [submitTransactions, hstatus, h413, ↓reduceIte,
        parse_failureBody lines newlines hlines, hlen]
    rw [hresult]
    simp only [h413, hblank, false_or]
    constructor
    · intro hnone
      by_cases hkeyed : ∃ line ∈ lines, line ≠ [] ∧ lineKey line = none
      · exact .inl hkeyed
      · by_cases hplaced : AliensPlaced parse batch (fileLines lines)
        · refine .inr (.inr fun i hi => ?_)
          by_contra hacc
          have haccepted := (acceptedBy_fileLines parse order indexOrder batch
            lines (hfailed i hi) hlen status).mpr ⟨hacc, fun line hl hne hk =>
              hkeyed ⟨line, hl, hne, hk⟩, hplaced⟩
          rw [hnone i hi] at haccepted
          cases haccepted
        · exact .inr (.inl hplaced)
    · intro hcond i hi
      by_contra haccepted
      rw [Bool.not_eq_false, acceptedBy_fileLines parse order indexOrder batch
        lines (hfailed i hi) hlen] at haccepted
      obtain ⟨hacc, hkeyed, hplaced⟩ := haccepted
      rcases hcond with ⟨line, hl, hne, hk⟩ | hnot | hall
      · exact hkeyed line hl hne hk
      · exact hnot hplaced
      · exact hacc (hall i hi)

end

/-! ## The lines Teranode sends -/

/-- `line` holds the outpoint reference `txid:vout` at a position where `txid` is
its first run of 64 hexadecimal characters. -/
def StartsWithOutpoint (line txid : Text) (vout : Nat) : Prop :=
  ∃ position < line.length, (∀ p < position, txsTxidPattern (line.drop p) = none) ∧
    txsTxidPattern (line.drop position) = some 64 ∧
    (outpointRefPattern (line.drop position)).map ((line.drop position).take ·) =
      some (txid ++ ':' :: Nat.toDigits 10 vout)

/-- The three shapes of a failure line for one transaction: it carries the
wrapper with the txid, it has no wrapper and starts with an outpoint that the
transaction spends, or it names no hash at all. -/
def Describes (txid : Text) (inputs : List (Option TxInput)) (line : Text) : Prop :=
  wrapperOpen ++ txid ++ [']'] <:+: line ∨
  (wrappedTxid line = none ∧ ∃ input ∈ inputs, ∃ i ∈ input, ∃ source ∈ i.sourceTXID,
    StartsWithOutpoint line source i.sourceTxOutIndex) ∨
  txsTxidPattern.find line = none

/-- A failure list with one line for each failed transaction of a chunk with
distinct txids and raw bytes that parse. -/
structure Reports (parse : TxParser)
    (batch : List PropagationMsg) (failed : List Nat) (lines : List Text) : Prop where
  distinct : (batch.map (·.txid)).Nodup
  parses : ∀ msg ∈ batch, (parse msg.rawTx).isSome
  once : failed.Nodup
  lines : List.Forall₂ (fun i line => ∃ msg inputs, batch[i]? = some msg ∧
    parse msg.rawTx = some inputs ∧
    Describes msg.txid.toList inputs line) failed lines

instance (line txid : Text) (vout : Nat) : Decidable (StartsWithOutpoint line txid vout) :=
  inferInstanceAs (Decidable (∃ position < line.length, _))

/-- The transaction whose outputs 0 and 1 the sample chunk spends. -/
def sampleParent : Text := List.replicate 64 'a'

/-- A conflict line for the output `vout` of `parent`. -/
def spentLine (parent : Text) (vout : Char) : Text :=
  "UTXO_SPENT (70): ".toList ++ parent ++ [':', vout] ++ " utxo already spent by tx ".toList ++
    List.replicate 64 'f' ++ "[0]".toList

/-- The raw bytes are the number of the output that is spent. -/
def sampleParse (rawTx : List UInt8) : Option (List (Option TxInput)) :=
  some [some ⟨some sampleParent, rawTx.length⟩]

/-- Two transactions that spend different outputs of one parent. -/
def sampleBatch : List PropagationMsg :=
  [{ txid := "1111111111111111111111111111111111111111111111111111111111111111"
     rawTx := []
     inputTXIDs := [] },
    { txid := "2222222222222222222222222222222222222222222222222222222222222222"
      rawTx := [0]
      inputTXIDs := [] }]

/-- Only the first transaction failed; its line is placed on it. -/
theorem failed_not_accepted_iff_oneConflict :
    (∀ i ∈ [0], acceptedBy sampleParse (.stored Text) (.stored Nat) sampleBatch
      (submitTransactions 409 (some (failureBody [spentLine sampleParent '0'] 1))) i = false) ↔
    409 = 413 ∨ (∀ line ∈ [spentLine sampleParent '0'], line = []) ∨
      (∃ line ∈ [spentLine sampleParent '0'], line ≠ [] ∧ lineKey line = none) ∨
      ¬AliensPlaced sampleParse sampleBatch (fileLines [spentLine sampleParent '0']) ∨
      ∀ i ∈ [0], AccountedFor sampleParse sampleBatch [spentLine sampleParent '0'] i :=
  failed_not_accepted_iff sampleParse (.stored Text) (.stored Nat) sampleBatch
    [spentLine sampleParent '0'] 409 1 [0] (by decide) (by decide +kernel) (by decide)

/-- Both transactions failed on outputs of one parent. The second line replaces
the first, is placed on the second transaction, and the first one counts as
accepted by the peer that rejected it. -/
theorem sharedParent_accepts_failed :
    Reports sampleParse sampleBatch [0, 1] [spentLine sampleParent '0', spentLine sampleParent '1'] ∧
    acceptedBy sampleParse (.stored Text) (.stored Nat) sampleBatch
      (submitTransactions 409
        (some (failureBody [spentLine sampleParent '0', spentLine sampleParent '1'] 1))) 0 = true := by
  refine ⟨⟨by decide +kernel, by decide +kernel, by decide, ?_⟩, by decide +kernel⟩
  refine .cons ⟨_, _, rfl, rfl, .inr (.inl ⟨by decide +kernel, ?_⟩)⟩
    (.cons ⟨_, _, rfl, rfl, .inr (.inl ⟨by decide +kernel, ?_⟩)⟩ .nil)
  · exact ⟨some ⟨some sampleParent, 0⟩, mem_singleton.mpr rfl, _, rfl, sampleParent, rfl,
      by decide +kernel⟩
  · exact ⟨some ⟨some sampleParent, 1⟩, mem_singleton.mpr rfl, _, rfl, sampleParent, rfl,
      by decide +kernel⟩

end Arcade.Propagation
