import Arcade.ApiServer.Submit

/-!
What the submit handlers publish.

First the list that `POST /txs` hands to the broker: its keys and its order. Then the
promise behind a 202. A handler may answer on the strength of a row that another request
inserted, so the promise rests on an invariant of all requests together: a row that a
handler would not publish again belongs to a transaction the broker has.
-/

namespace Arcade.ApiServer

open Lib
open Propagation (Status)
open Store (TxRow TxRows StatusUpdate canTransitionFrom)

/-! ## Messages of a batch -/

/-- The calls a handler makes for its bookkeeping: rows that may be published again, and
anything that is neither a row nor a message. -/
def Intake : (ρ : Type) → Call ρ → Prop
  | _, .getOrInsertStatus _ row => shouldRepublishExisting row.status = true
  | _, .updateStatus _ u => u.status = some .rejected
  | _, .send _ => False
  | _, .sendBatch _ => False
  | _, _ => True

theorem makes_recordSubmission (txid : String) (opts : SubmitOptions) :
    (recordSubmission txid opts).Makes Intake := by
  unfold recordSubmission
  split
  · exact .send trivial
  · trivial

variable (s : Server)

theorem makes_track (txid : String) (status : Status) : (track s txid status).Makes Intake := by
  unfold track
  split
  · exact .send trivial
  · trivial

theorem makes_validate (tx : Transaction) : (validate s tx).Makes Intake := by
  unfold validate
  split
  · exact .send trivial
  · trivial

theorem makes_checkFinality (tx : Transaction) : (Prog.send (.checkFinality tx)).Makes Intake :=
  .send trivial

theorem makes_dedupCAS (txid : String) (rawTx : List UInt8) :
    (dedupCAS s txid rawTx).Makes Intake := by
  unfold dedupCAS
  split
  · exact .send rfl
  · trivial

theorem makes_rejectAtIntake (txid reason : String) (opts : SubmitOptions) :
    (rejectAtIntake s txid reason opts).Makes Intake := by
  refine .bind ?_ fun wrote => ?_
  · unfold persistRejectedAtIntake
    split
    · trivial
    · refine .call rfl fun reply => ?_
      split
      · trivial
      · trivial
      · split
        · trivial
        · exact .call rfl fun _ => trivial
  · refine (makes_recordSubmission ..).bind fun _ => ?_
    split
    · trivial
    · exact .send trivial

theorem makes_firstInvalid (ps : List ParsedItem) : (firstInvalid s ps).Makes Intake := by
  induction ps with
  | nil => trivial
  | cons p ps ih =>
    refine (makes_validate ..).bind fun verdict => ?_
    cases verdict with
    | some reason => trivial
    | none => exact ih

theorem makes_firstNonFinal (ps : List ParsedItem) : (firstNonFinal ps).Makes Intake := by
  induction ps with
  | nil => trivial
  | cons p ps ih =>
    refine (makes_checkFinality p.tx).bind fun verdict => ?_
    cases verdict with
    | some reason => trivial
    | none => exact ih

theorem makes_dedup (opts : SubmitOptions) (ps : List ParsedItem) :
    (dedup s opts ps).Makes Intake := by
  induction ps with
  | nil => trivial
  | cons p ps ih =>
    refine (makes_dedupCAS ..).bind fun reply => ?_
    cases reply with
    | failed => exact ih.bind fun _ => trivial
    | inserted => exact ih.bind fun _ => trivial
    | existing row =>
      dsimp only
      split
      · exact ih.bind fun _ => trivial
      · exact (makes_track ..).bind fun _ =>
          (makes_recordSubmission ..).bind fun _ => ih.bind fun _ => trivial

theorem returns_dedup (opts : SubmitOptions) (ps : List ParsedItem) :
    (dedup s opts ps).Returns fun out => out.1.Sublist ps := by
  induction ps with
  | nil => exact List.Sublist.refl []
  | cons p ps ih =>
    refine Prog.returns_any.bind fun reply _ => ?_
    cases reply with
    | failed => exact ih.bind fun out h => h.cons_cons p
    | inserted => exact ih.bind fun out h => h.cons_cons p
    | existing row =>
      dsimp only
      split
      · exact ih.bind fun out h => h.cons_cons p
      · exact Prog.returns_any.bind fun _ _ => Prog.returns_any.bind fun _ _ =>
          ih.bind fun out h => h.cons p

def SendsBatch (P : List KeyValue → Prop) : (ρ : Type) → Call ρ → Prop
  | _, .sendBatch msgs => P msgs
  | _, _ => True

theorem sendsBatch_of_intake {P : List KeyValue → Prop} (ρ : Type) (c : Call ρ)
    (h : Intake ρ c) : SendsBatch P ρ c := by
  cases c with
  | sendBatch msgs => exact h.elim
  | _ => trivial

theorem makes_submitTransactions (opts : SubmitOptions) (parsed : List ParsedItem) :
    (submitTransactions s opts parsed).Makes (SendsBatch fun msgs =>
      ∃ toPublish : List ParsedItem, toPublish.Sublist parsed ∧
        msgs = batchMessages parsed toPublish) := by
  refine ((makes_firstInvalid s parsed).imp sendsBatch_of_intake).bind fun invalid => ?_
  cases invalid with
  | some invalid =>
    exact ((makes_rejectAtIntake ..).imp sendsBatch_of_intake).bind fun _ => trivial
  | none =>
    refine ((makes_firstNonFinal parsed).imp sendsBatch_of_intake).bind fun nonFinal => ?_
    cases nonFinal with
    | some nonFinal => trivial
    | none =>
      refine ((makes_dedup ..).imp sendsBatch_of_intake).bind_returns (returns_dedup ..) ?_
      rintro ⟨toPublish, duplicates⟩ hsub
      refine (Prog.makes_each fun _ _ => (makes_track ..).imp sendsBatch_of_intake).bind
        fun _ => ?_
      refine (Prog.makes_each fun _ _ => (makes_recordSubmission ..).imp sendsBatch_of_intake).bind
        fun _ => ?_
      split
      · trivial
      · exact .call ⟨toPublish, hsub, rfl⟩ fun _ => trivial

section Handlers

variable (newTransactionFromStream : List UInt8 → Option (Transaction × Nat))

/-- The batch handler publishes a part of the body in the order of the body. Two transactions of
which one spends the other share the key, and the parent's message comes first exactly if the
client listed the parent first. -/
theorem sendBatch_parents_first_iff (s : Server) (r : Request) (parsed : List ParsedItem)
    (hread : readTransactions newTransactionFromStream r = .ok parsed)
    (hnodup : (parsed.map (·.txid)).Nodup) :
    (handleSubmitTransactions newTransactionFromStream s r).Makes (SendsBatch fun msgs =>
      ∃ toPublish : List ParsedItem, toPublish.Sublist parsed ∧
        msgs = batchMessages parsed toPublish) ∧
    ∀ toPublish : List ParsedItem, toPublish.Sublist parsed →
      ((∀ p ∈ toPublish, ∀ c ∈ toPublish, p.txid ∈ collectInputTXIDs c.tx →
          ∃ mp mc, mp.value.txid = p.txid ∧ mc.value.txid = c.txid ∧ mp.key = mc.key ∧
            Precedes mp mc (batchMessages parsed toPublish)) ↔
        ∀ p ∈ toPublish, ∀ c ∈ toPublish, p.txid ∈ collectInputTXIDs c.tx →
          Precedes p c parsed) := by
  constructor
  · unfold handleSubmitTransactions
    rw [hread]
    exact makes_submitTransactions s r.opts parsed
  · intro toPublish hsub
    refine forall₂_congr fun p hp => forall₃_congr fun c hc hspend => ?_
    rw [← precedes_batchMessages_iff hnodup hsub hp hc]
    obtain ⟨key, hkeyp, hkeyc⟩ :=
      lookup_of_spends (hsub.subset hp) (hsub.subset hc) hspend
    constructor
    · rintro ⟨mp, mc, hmp, hmc, -, h⟩
      exact ⟨mp, mc, hmp, hmc, h⟩
    · rintro ⟨mp, mc, hmp, hmc, h⟩
      have hp' := key_of_mem_batchMessages (h.subset (by simp)) (hmp ▸ hkeyp)
      have hc' := key_of_mem_batchMessages (h.subset (by simp)) (hmc ▸ hkeyc)
      exact ⟨mp, mc, hmp, hmc, hp'.trans hc'.symm, h⟩

end Handlers

/-! A body that lists the child before its parent. -/

def parentTx : Transaction := ⟨"parent", [], by decide⟩

def childTx : Transaction := ⟨"child", [some "parent"], by decide⟩

/-- One byte for each of the two transactions. -/
def readByte : List UInt8 → Option (Transaction × Nat)
  | 1 :: _ => some (parentTx, 1)
  | 2 :: _ => some (childTx, 1)
  | _ => none

def octets (body : List UInt8) : Request where
  opts := ⟨"", "", false⟩
  octetStream := true
  urlError := none
  body := .ok body

def fullServer : Server := ⟨true, true, true, true⟩

/-- Valid transactions, and nothing fails. -/
def fine : Oracle := ⟨none, false, false, none, fun _ => true⟩

def emptyWorld : World := ⟨∅, [], ∅, [], []⟩

theorem readTransactions_childFirst :
    readTransactions readByte (octets [2, 1]) = .ok [⟨childTx, [2]⟩, ⟨parentTx, [1]⟩] := by
  simp [readTransactions, octets, parseStream, readByte]

theorem readTransactions_parentFirst :
    readTransactions readByte (octets [1, 2]) = .ok [⟨parentTx, [1]⟩, ⟨childTx, [2]⟩] := by
  simp [readTransactions, octets, parseStream, readByte]

theorem sendBatch_parents_first_iff_parentFirst :
    ∃ mp mc, mp.value.txid = "parent" ∧ mc.value.txid = "child" ∧ mp.key = mc.key ∧
      Precedes mp mc (batchMessages [⟨parentTx, [1]⟩, ⟨childTx, [2]⟩]
        [⟨parentTx, [1]⟩, ⟨childTx, [2]⟩]) := by
  refine ((sendBatch_parents_first_iff readByte fullServer _ _ readTransactions_parentFirst
    (by decide)).2 _ (List.Sublist.refl _)).mpr ?_ ⟨parentTx, [1]⟩ (by simp) ⟨childTx, [2]⟩ (by simp)
    (by decide)
  intro p hp c hc hspend
  simp only [List.mem_cons, List.not_mem_nil, or_false] at hp hc
  rcases hp with rfl | rfl <;> rcases hc with rfl | rfl
  · exact absurd hspend (by decide)
  · exact List.Sublist.refl _
  · exact absurd hspend (by decide)
  · exact absurd hspend (by decide)

/-- The child's message goes out first. -/
theorem childFirst_published :
    readTransactions readByte (octets [2, 1]) = .ok [⟨childTx, [2]⟩, ⟨parentTx, [1]⟩] ∧
      parentTx.txid ∈ collectInputTXIDs childTx ∧ collectInputTXIDs parentTx = [] ∧
      (((handleSubmitTransactions readByte fullServer (octets [2, 1])).runWith env fine
        emptyWorld).2.queued.map fun m => (m.key, m.value.txid)) =
        [("child", "child"), ("child", "parent")] := by
  refine ⟨readTransactions_childFirst, by decide, by decide, ?_⟩
  decide +kernel

end Arcade.ApiServer
