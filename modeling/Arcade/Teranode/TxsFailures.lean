import Arcade.Lib.GoMap
import Arcade.Lib.Scan

/-!
The client side of Teranode's `POST /txs`: the failure list in the body of a
response and what the client makes of the response as a whole. Text is a list of
characters; the patterns only look for ASCII.
-/

namespace Arcade.Teranode

open Lib List

/-! ## Patterns -/

/-- `[0-9a-fA-F]`. -/
def isHex (c : Char) : Bool :=
  c.isDigit || ('a' ≤ c && c ≤ 'f') || ('A' ≤ c && c ≤ 'F')

/-- `[0-9a-fA-F]{64}`. -/
def txsTxidPattern : Matcher := .exactly isHex 64

def wrapperOpen : Text := "[ProcessTransaction][".toList

/-- `\[ProcessTransaction\]\[([0-9a-fA-F]{64})\]`. -/
def txsWrappedTxidPattern : Matcher :=
  (Matcher.literal wrapperOpen).andThen ((Matcher.exactly isHex 64).andThen (.literal [']']))

/-- The submatch of `txsWrappedTxidPattern`. -/
def wrappedTxid (line : Text) : Option Text :=
  (txsWrappedTxidPattern.find line).map fun m => (m.drop wrapperOpen.length).take 64

/-- The hash a failure line is filed under: the wrapped txid, or else the first
64 hexadecimal characters. -/
def lineKey (line : Text) : Option Text :=
  match wrappedTxid line with
  | some txid => some (Text.lower txid)
  | none => (txsTxidPattern.find line).map Text.lower

/-! ## The failure list -/

structure TxsFailures where
  byKey : GoMap Text Text
  unkeyed : List Text

namespace TxsFailures

def len (f : TxsFailures) : Nat := f.byKey.keys.length + f.unkeyed.length

/-- One round of the loop of `parseTxsFailures`. A later line under the same key
replaces the earlier one. -/
def addLine (f : TxsFailures) (line : Text) : TxsFailures :=
  if line = [] then f
  else match lineKey line with
    | none => { f with unkeyed := f.unkeyed ++ [line] }
    | some key => { f with byKey := f.byKey.insert key line }

end TxsFailures

def txsFailureHeader : Text := "Failed to process transactions:".toList

def parseTxsFailures (body : Text) : Option TxsFailures :=
  let text := body.rdropWhile (· == '\n')
  if text = [] then none
  else match text.splitOn '\n' with
    | [] => none
    | first :: lines =>
      if first ≠ txsFailureHeader then none
      else
        let out := lines.foldl TxsFailures.addLine ⟨∅, []⟩
        if out.len = 0 then none else some out

/-! ## The response -/

def txsBatchLimitBodies : List Text :=
  ["Invalid request body: too many transactions".toList,
    "Invalid request body: too much data".toList,
    "Invalid request body: too many submissions".toList]

/-- `unicode.IsSpace`. -/
def isSpace (c : Char) : Bool :=
  [0x09, 0x0a, 0x0b, 0x0c, 0x0d, 0x20, 0x85, 0xa0, 0x1680, 0x2028, 0x2029, 0x202f, 0x205f,
    0x3000].contains c.toNat || (0x2000 ≤ c.toNat && c.toNat ≤ 0x200a)

def isTxsBatchLimitBody (body : Text) : Bool :=
  txsBatchLimitBodies.contains ((body.dropWhile isSpace).rdropWhile isSpace)

/-- What `SubmitTransactions` returns for a response: acceptance of the whole
batch, `ErrBatchTooLarge`, a failure list, or an error without one. -/
inductive Submitted where
  | accepted
  | tooLarge
  | failed (status : Nat) (failures : TxsFailures)
  | infra (status : Nat)

/-- `body` is `none` when reading it failed. -/
def submitTransactions (status : Nat) (body : Option Text) : Submitted :=
  if status = 200 then .accepted
  else if status = 413 then .tooLarge
  else match body with
    | none => .infra status
    | some body =>
      match parseTxsFailures body with
      | some failures => .failed status failures
      | none => if status = 400 ∧ isTxsBatchLimitBody body then .tooLarge else .infra status

/-! ## What a failure list says -/

/-- The body with one line per failure; Teranode may end it with newlines. -/
def failureBody (lines : List Text) (newlines : Nat) : Text :=
  ['\n'].intercalate (txsFailureHeader :: lines) ++ List.replicate newlines '\n'

/-- The lines the parser keeps. -/
def fileLines (lines : List Text) : TxsFailures := lines.foldl TxsFailures.addLine ⟨∅, []⟩

theorem splitOn_append_newlines (s : Text) (n : Nat) :
    (s ++ List.replicate n '\n').splitOn '\n' = s.splitOn '\n' ++ List.replicate n [] := by
  induction n with
  | zero => simp
  | succ n ih =>
    rw [replicate_succ', ← append_assoc, splitOn_eq_splitOnP,
      splitOnP_append_cons _ _ (by simp), splitOnP_nil, ← splitOn_eq_splitOnP, ih,
      replicate_succ', append_assoc]

theorem foldl_addLine_blank (f : TxsFailures) (n : Nat) :
    (List.replicate n []).foldl TxsFailures.addLine f = f := by
  induction n with
  | zero => rfl
  | succ n ih => rw [replicate_succ, foldl_cons]; exact ih

theorem parse_failureBody (lines : List Text) (newlines : Nat) (hl : ∀ line ∈ lines, '\n' ∉ line) :
    parseTxsFailures (failureBody lines newlines) =
      if (fileLines lines).len = 0 then none else some (fileLines lines) := by
  have hsplit : (failureBody lines newlines).splitOn '\n' =
      txsFailureHeader :: (lines ++ List.replicate newlines []) := by
    unfold failureBody
    rw [splitOn_append_newlines, splitOn_intercalate]
    · rfl
    · intro l hmem
      rcases mem_cons.mp hmem with rfl | hmem
      · decide
      · exact hl l hmem
    · simp
  obtain ⟨k, hk⟩ := Text.splitOn_trimRight (failureBody lines newlines)
  rw [hsplit] at hk
  unfold parseTxsFailures
  generalize (failureBody lines newlines).rdropWhile (· == '\n') = text at hk ⊢
  cases ht : text.splitOn '\n' with
  | nil => exact absurd ht (splitOn_ne_nil _ _)
  | cons first rest =>
    rw [ht, cons_append] at hk
    obtain ⟨hfirst, hrest⟩ := List.cons.inj hk
    have hne : text ≠ [] := by
      rintro rfl
      obtain ⟨rfl, -⟩ := List.cons.inj ht
      revert hfirst
      decide
    have hfile : rest.foldl TxsFailures.addLine ⟨∅, []⟩ = fileLines lines := by
      have h := congrArg (List.foldl TxsFailures.addLine ⟨∅, []⟩) hrest
      rw [foldl_append, foldl_append, foldl_addLine_blank, foldl_addLine_blank] at h
      exact h.symm
    subst hfirst
    simp only [hne, ht, ↓reduceIte, ne_eq, not_true_eq_false, hfile]

end Arcade.Teranode
