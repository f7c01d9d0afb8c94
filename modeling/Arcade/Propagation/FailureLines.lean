import Arcade.Propagation.Offsets
import Arcade.Teranode.TxsFailures
import Mathlib.Data.Char
import Mathlib.Data.List.Lex

/-!
Reading one failure line of a peer: the condition it describes, how informative
it is, and which submitted transaction a conflict line condemns by the outpoint
it names.
-/

namespace Arcade.Propagation

open Lib Teranode

/-! ## Conditions -/

def lineIsMissingParentCondition (line : Text) : Bool :=
  line.contains "TX_MISSING_PARENT (".toList || line.contains "TX_NOT_FOUND (".toList

def isUpper (c : Char) : Bool := 'A' ≤ c && c ≤ 'Z'

/-- `[A-Z][A-Z0-9_]* \(\d+\)`. -/
def teranodeNamedCode : Matcher :=
  (Matcher.exactly isUpper 1).andThen <|
    (Matcher.many fun c => isUpper c || c.isDigit || c == '_').andThen <|
      (Matcher.literal " (".toList).andThen <| (Matcher.some1 Char.isDigit).andThen (.literal [')'])

/-- The names of the codes a line mentions, from left to right. -/
def codeNames (line : Text) : List Text :=
  (teranodeNamedCode.findAll line).map fun m => (Text.cut m " (".toList).getD m

def lineHasNestedTeranodeVerdict (line : Text) : Bool :=
  (codeNames line).any fun name => name ≠ "PROCESSING".toList

def lineIsOpaqueProcessing (line : Text) : Bool :=
  line.contains "PROCESSING (".toList && !lineHasNestedTeranodeVerdict line

def lineIsInfraCondition (line : Text) : Bool :=
  match Text.cut line " (".toList with
  | none => false
  | some name =>
    ["STORAGE_ERROR".toList, "SERVICE_ERROR".toList, "ERROR".toList].contains name

/-! ## Ranking -/

def codeNameScore (name : Text) : Int :=
  if ["UTXO_SPENT".toList, "TX_INVALID_DOUBLE_SPEND".toList, "TX_CONFLICTING".toList].contains name
  then 40
  else if ["TX_INVALID".toList, "TX_POLICY".toList, "TX_LOCK_TIME".toList,
    "TX_MISSING_PARENT".toList, "TX_LOCKED".toList, "TX_COINBASE_IMMATURE".toList,
    "UTXO_FROZEN".toList, "UTXO_NON_FINAL".toList, "UTXO_INVALID_SIZE".toList,
    "INVALID_ARGUMENT".toList].contains name
  then 30
  else if name = "PROCESSING".toList then 20
  else 25

def rejectionLineScore (line : Text) : Int :=
  let best := (codeNames line).foldl (fun best name => max best (codeNameScore name)) (-1)
  if 0 ≤ best then best
  else match Text.cut line " (".toList with
    | none => 0
    | some name => codeNameScore name

/-- Equality under `(?i)`. The long s and the Kelvin sign fold to ASCII too. -/
def sameFold (c d : Char) : Bool :=
  let fold := fun c : Char => if c = 'ſ' then 's' else if c = 'K' then 'k' else c.toLower
  fold c == fold d

def alreadySpentBy : Text := "already spent by tx ".toList

/-- `(?i)already spent by tx ([0-9a-f]{64})`. -/
def competingSpenderPattern : Matcher :=
  (Matcher.word sameFold alreadySpentBy).andThen (.exactly isHex 64)

/-- The distinct spenders a line names, lowercased, in first-seen order. -/
def competingSpenders (line : Text) : List Text :=
  (competingSpenderPattern.findAll line).foldl (fun out m =>
    let txid := Text.lower (m.drop alreadySpentBy.length)
    if txid ∈ out then out else out ++ [txid]) []

def preferRejectionLine (current candidate : Text) : Text :=
  if candidate = [] then current
  else if current = [] then candidate
  else if rejectionLineScore candidate > rejectionLineScore current then candidate
  else if rejectionLineScore candidate = rejectionLineScore current ∧
    (competingSpenders candidate).length > 0 ∧ (competingSpenders current).length = 0
  then candidate
  else current

def bestUnplaceableLine (bestAlien : Text) (unkeyed : List Text) : Text :=
  unkeyed.foldl preferRejectionLine bestAlien

/-! ## Lines that name no submitted transaction -/

/-- The lines filed under a key outside the batch: how many, and the most
informative one. `order` is the order in which the map is ranged over. -/
def alienFailureLines (order : MapOrder Text) (failures : GoMap Text Text) (inBatch : List Text) :
    Nat × Text :=
  (order.visit [] failures.keys).foldl (fun s key =>
    if key ∈ inBatch then s
    else (s.1 + 1, preferRejectionLine s.2 ((failures.lookup key).getD []))) (0, [])

/-- `[0-9a-fA-F]{64}:[0-9]{1,10}`. -/
def outpointRefPattern : Matcher :=
  (Matcher.exactly isHex 64).andThen ((Matcher.literal [':']).andThen (.upTo Char.isDigit 10))

structure TxInput where
  sourceTXID : Option Text
  sourceTxOutIndex : Nat
  deriving DecidableEq

/-- `NewTransactionFromBytes`: the inputs of the transaction, `none` when the bytes do not parse. -/
abbrev TxParser : Type := List UInt8 → Option (List (Option TxInput))

/-- `<txid>:<vout>` in lower case. -/
def outpointKey (txid : Text) (vout : Nat) : Text :=
  Text.lower txid ++ ':' :: Nat.toDigits 10 vout

/-- The single owner of an outpoint; `none` is `outpointOwnerAmbiguous`. -/
abbrev Owners := GoMap Text (Option Nat)

/-- The body of the inner loop of `buildSubmittedOutpointIndex`. -/
def addOwner (i : Nat) (owners : Owners) (input : Option TxInput) : Owners :=
  match input with
  | none => owners
  | some input =>
    match input.sourceTXID with
    | none => owners
    | some txid =>
      let key := outpointKey txid input.sourceTxOutIndex
      match owners.lookup key with
      | none => owners.insert key (some i)
      | some prev => if prev ≠ some i then owners.insert key none else owners.insert key (some i)

section

variable (parse : TxParser)

/-- The loop of `buildSubmittedOutpointIndex` from batch index `i` on. -/
def addOwners (i : Nat) (owners : Owners) : List PropagationMsg → Owners
  | [] => owners
  | msg :: rest =>
    match parse msg.rawTx with
    | none => addOwners (i + 1) owners rest
    | some inputs => addOwners (i + 1) (inputs.foldl (addOwner i) owners) rest

def buildSubmittedOutpointIndex (batch : List PropagationMsg) : Owners :=
  addOwners parse 0 ∅ batch

end

/-- The loop of `attributeOneConflictLine`. `found` is the transaction met so
far. -/
def attributeRefs (owners : Owners) (found : Option Nat) : List Text → Option Nat
  | [] => found
  | ref :: refs =>
    match owners.lookup (Text.lower ref) with
    | none | some none => attributeRefs owners found refs
    | some (some idx) =>
      match found with
      | none => attributeRefs owners (some idx) refs
      | some prev => if prev ≠ idx then none else attributeRefs owners (some idx) refs

def attributeOneConflictLine (line : Text) (owners : Owners) : Option Nat :=
  attributeRefs owners none (outpointRefPattern.findAll line)

/-- The keys outside the batch, sorted. -/
def alienKeys (failures : GoMap Text Text) (inBatch : List Text) : List Text :=
  (failures.keys.filter fun key => key ∉ inBatch).insertionSort (· ≤ ·)

/-- The body of the loop of `attributeConflictLines`. -/
def attributeKey (failures : GoMap Text Text) (owners : Owners) (attributed : GoMap Nat Text)
    (key : Text) : GoMap Nat Text :=
  let line := (failures.lookup key).getD []
  match attributeOneConflictLine line owners with
  | none => attributed
  | some idx =>
    attributed.insert idx (preferRejectionLine ((attributed.lookup idx).getD []) line)

def attributeConflictLines (failures : GoMap Text Text) (inBatch : List Text) (owners : Owners) :
    GoMap Nat Text :=
  if failures.keys.length = 0 ∨ owners.keys.length = 0 then ∅
  else (alienKeys failures inBatch).foldl (attributeKey failures owners) ∅

end Arcade.Propagation
