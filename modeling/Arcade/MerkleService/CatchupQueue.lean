import Arcade.Lib.GoMap

/-!
`catchupQueue`: the registrations that one merkle-service endpoint still owes, in the order they
came and without repetition. A full queue drops its oldest entries and remembers that it did; the
flag is cleared when the queue is next found empty.
-/

namespace Arcade.MerkleService

open Lib List

structure Registration where
  txid : String
  callbackURL : String
  callbackToken : String
  deriving DecidableEq

/-- `order` and `byTxID` are one set of registrations; `inflight` counts the taken ones that are
not settled. -/
structure CatchupQueue where
  max : Nat
  order : List String
  byTxID : GoMap String Registration
  inflight : Int
  dropped : Nat
  overflowed : Bool

namespace CatchupQueue

def new (capacity : Nat) : CatchupQueue := ⟨capacity, [], ∅, 0, 0, false⟩

/-- The loop of `add` that makes room, with the txids it drops. -/
def makeRoom (max : Nat) :
    List String → GoMap String Registration → List String × GoMap String Registration × List String
  | [], byTxID => ([], byTxID, [])
  | oldest :: rest, byTxID =>
    if (oldest :: rest).length ≥ max then
      let (order, byTxID', gone) := makeRoom max rest (byTxID.erase oldest)
      (order, byTxID', oldest :: gone)
    else (oldest :: rest, byTxID, [])

/-- The queue after `add`, and the txids that it dropped. -/
def add (q : CatchupQueue) (reg : Registration) : CatchupQueue × List String :=
  if reg.txid ∈ q.byTxID then ({ q with byTxID := q.byTxID.insert reg.txid reg }, [])
  else
    let (order, byTxID, gone) := makeRoom q.max q.order q.byTxID
    ({ q with
      order := order ++ [reg.txid]
      byTxID := byTxID.insert reg.txid reg
      dropped := q.dropped + gone.length
      overflowed := q.overflowed || gone.length > 0 }, gone)

def takeLoop : List String → GoMap String Registration →
    List Registration × GoMap String Registration
  | [], byTxID => ([], byTxID)
  | txid :: rest, byTxID =>
    let (out, byTxID') := takeLoop rest (byTxID.erase txid)
    ((byTxID.lookup txid).getD ⟨"", "", ""⟩ :: out, byTxID')

/-- The queue after `take`, and what it returns. -/
def take (q : CatchupQueue) (n : Nat) : CatchupQueue × List Registration :=
  let n := if n > q.order.length then q.order.length else n
  let (out, byTxID) := takeLoop (q.order.take n) q.byTxID
  ({ q with order := q.order.drop n, byTxID, inflight := q.inflight + out.length }, out)

def settle (q : CatchupQueue) (n : Nat) : CatchupQueue := { q with inflight := q.inflight - n }

/-- The result is `some` with the number of dropped entries when a resync is due. -/
def drainedAfterOverflow (q : CatchupQueue) : CatchupQueue × Option Nat :=
  if ¬ q.overflowed ∨ q.order.length + q.inflight > 0 then (q, none)
  else ({ q with overflowed := false, dropped := 0 }, some q.dropped)

/-! ## The order and the map -/

/-- The order and the map hold the same txids, none twice, and at most `max` of them. -/
structure Valid (q : CatchupQueue) : Prop where
  nodup : q.order.Nodup
  same : ∀ txid, txid ∈ q.order ↔ txid ∈ q.byTxID
  keyed : ∀ txid reg, q.byTxID.lookup txid = some reg → reg.txid = txid
  bounded : q.order.length ≤ q.max

theorem valid_new (capacity : Nat) : (new capacity).Valid where
  nodup := nodup_nil
  same txid := by simp [new]
  keyed txid reg h := by simp [new] at h
  bounded := Nat.zero_le _

theorem mem_kept_iff {gone kept : List String} {byTxID byTxID' : GoMap String Registration}
    (hnodup : (gone ++ kept).Nodup) (hsame : ∀ txid, txid ∈ gone ++ kept ↔ txid ∈ byTxID)
    (hlookup : ∀ txid, byTxID'.lookup txid = if txid ∈ gone then none else byTxID.lookup txid)
    (txid : String) : txid ∈ kept ↔ txid ∈ byTxID' := by
  have hmem := hsame txid
  rw [GoMap.mem_iff_lookup, mem_append] at hmem
  rw [GoMap.mem_iff_lookup, hlookup]
  by_cases hgone : txid ∈ gone
  · have hapart := (nodup_append.mp hnodup).2.2 txid hgone txid
    simpa [hgone] using fun hkept => hapart hkept rfl
  · simpa [hgone] using hmem

section Add

/-- What making room leaves: a suffix of the order, and the map on it. -/
theorem makeRoom_spec (max : Nat) (order : List String) (byTxID : GoMap String Registration) :
    order = (makeRoom max order byTxID).2.2 ++ (makeRoom max order byTxID).1 ∧
      (0 < max → (makeRoom max order byTxID).1.length < max) ∧
      ∀ txid, (makeRoom max order byTxID).2.1.lookup txid =
        if txid ∈ (makeRoom max order byTxID).2.2 then none else byTxID.lookup txid := by
  induction order generalizing byTxID with
  | nil => simp [makeRoom]
  | cons oldest rest ih =>
    rw [makeRoom]
    split
    · obtain ⟨horder, hlen, hlookup⟩ := ih (byTxID.erase oldest)
      refine ⟨by simpa using horder, hlen, ?_⟩
      intro txid
      simp only [hlookup, GoMap.lookup_erase_eq, mem_cons]
      by_cases hfirst : txid = oldest <;> simp [hfirst]
    · rename_i hroom
      exact ⟨rfl, fun _ => Nat.lt_of_not_le hroom, fun _ => by simp⟩

variable {q : CatchupQueue} (reg : Registration)

@[simp] theorem add_max : (q.add reg).1.max = q.max := by
  unfold add
  split <;> rfl

theorem mem_order_add {txid : String} (h : txid ∈ q.order) :
    txid ∈ (q.add reg).1.order ∨ txid ∈ (q.add reg).2 := by
  unfold add
  split
  · exact .inl h
  · rw [(makeRoom_spec q.max q.order q.byTxID).1] at h
    rcases mem_append.mp h with hgone | hkept
    · exact .inr hgone
    · exact .inl (mem_append_left _ hkept)

theorem overflowed_add {txid : String} (h : txid ∈ (q.add reg).2) : (q.add reg).1.overflowed := by
  unfold add at h ⊢
  split at h
  · cases h
  · rename_i hnew
    rw [if_neg hnew]
    simp [length_pos_of_mem h]

theorem overflowed_add_of_overflowed (h : q.overflowed) : (q.add reg).1.overflowed := by
  unfold add
  split
  · exact h
  · simp [h]

theorem self_mem_order_add (hq : q.Valid) : reg.txid ∈ (q.add reg).1.order := by
  unfold add
  split
  · rename_i hdup
    exact (hq.same reg.txid).mpr hdup
  · exact mem_append_right _ mem_cons_self

theorem Valid.add (hq : q.Valid) (hmax : 0 < q.max) : (q.add reg).1.Valid := by
  unfold CatchupQueue.add
  split
  · rename_i hdup
    refine ⟨hq.nodup, ?_, ?_, hq.bounded⟩
    · intro txid
      rw [hq.same, AList.mem_insert]
      exact ⟨.inr, fun h => h.elim (fun h => h ▸ hdup) id⟩
    · intro txid reg' hlookup
      rcases GoMap.of_lookup_insert hlookup with ⟨rfl, rfl⟩ | ⟨-, hlookup⟩
      · rfl
      · exact hq.keyed txid reg' hlookup
  · rename_i hnew
    obtain ⟨horder, hlen, hlookup⟩ := makeRoom_spec q.max q.order q.byTxID
    have hnodup := horder ▸ hq.nodup
    have hmem := mem_kept_iff hnodup (fun txid => horder ▸ hq.same txid) hlookup
    refine ⟨?_, ?_, ?_, ?_⟩
    · refine nodup_append.mpr
        ⟨(nodup_append.mp hnodup).2.1, nodup_singleton _, ?_⟩
      rintro txid htxid txid' htxid' rfl
      obtain rfl := mem_singleton.mp htxid'
      refine hnew ((hq.same reg.txid).mp ?_)
      rw [horder]
      exact mem_append_right _ htxid
    · intro txid
      rw [mem_append, mem_singleton, AList.mem_insert, hmem, or_comm]
    · intro txid reg' h
      rw [GoMap.lookup_insert_eq, hlookup] at h
      split at h
      · rename_i heq
        exact heq ▸ Option.some.inj h ▸ rfl
      · split at h
        · cases h
        · exact hq.keyed txid reg' h
    · simp only [length_append, length_singleton]
      omega

end Add

section Take

theorem takeLoop_spec {txids : List String} (hnodup : txids.Nodup)
    (byTxID : GoMap String Registration) (hmem : ∀ txid ∈ txids, txid ∈ byTxID)
    (hkeyed : ∀ txid reg, byTxID.lookup txid = some reg → reg.txid = txid) :
    (takeLoop txids byTxID).1.map (·.txid) = txids ∧ ∀ txid, (takeLoop txids byTxID).2.lookup txid =
        if txid ∈ txids then none else byTxID.lookup txid := by
  induction txids generalizing byTxID with
  | nil => simp [takeLoop]
  | cons first rest ih =>
    obtain ⟨hnot, hnodup⟩ := nodup_cons.mp hnodup
    have hmem' : ∀ txid ∈ rest, txid ∈ byTxID.erase first := fun txid h =>
      AList.mem_erase.mpr ⟨fun heq => hnot (heq ▸ h), hmem txid (mem_cons_of_mem _ h)⟩
    have hkeyed' : ∀ txid reg, (byTxID.erase first).lookup txid = some reg → reg.txid = txid := by
      intro txid reg h
      rw [GoMap.lookup_erase_eq] at h
      split at h
      · cases h
      · exact hkeyed txid reg h
    obtain ⟨hout, hlookup⟩ := ih hnodup (byTxID.erase first) hmem' hkeyed'
    obtain ⟨reg, hreg⟩ := (GoMap.mem_iff_lookup byTxID first).mp (hmem first mem_cons_self)
    refine ⟨?_, ?_⟩
    · simp [takeLoop, hout, hreg, hkeyed first reg hreg]
    · intro txid
      simp only [takeLoop, hlookup, GoMap.lookup_erase_eq, mem_cons]
      by_cases hfirst : txid = first <;> simp [hfirst]

variable {q : CatchupQueue} (n : Nat)

@[simp] theorem take_max : (q.take n).1.max = q.max := rfl

@[simp] theorem take_overflowed : (q.take n).1.overflowed = q.overflowed := rfl

theorem length_takeLoop (txids : List String) (byTxID : GoMap String Registration) :
    (takeLoop txids byTxID).1.length = txids.length := by
  induction txids generalizing byTxID with
  | nil => rfl
  | cons txid rest ih => simp [takeLoop, ih]

theorem length_take_le : (q.take n).2.length ≤ n := by
  simp only [CatchupQueue.take, length_takeLoop, length_take]
  split <;> omega

theorem take_spec (hq : q.Valid) : q.order = (q.take n).2.map (·.txid) ++ (q.take n).1.order ∧
      ∀ txid, (q.take n).1.byTxID.lookup txid =
        if txid ∈ (q.take n).2.map (·.txid) then none else q.byTxID.lookup txid := by
  have hspec := fun k => takeLoop_spec (hq.nodup.sublist (take_sublist k q.order)) q.byTxID
    (fun txid h => (hq.same txid).mp (mem_of_mem_take h)) hq.keyed
  simp only [CatchupQueue.take, (hspec _).1]
  exact ⟨(take_append_drop _ _).symm, (hspec _).2⟩

theorem mem_order_take (hq : q.Valid) {txid : String} (h : txid ∈ q.order) :
    txid ∈ (q.take n).1.order ∨ txid ∈ (q.take n).2.map (·.txid) := by
  rw [(take_spec n hq).1] at h
  exact (mem_append.mp h).symm

theorem Valid.take (hq : q.Valid) : (q.take n).1.Valid := by
  obtain ⟨horder, hlookup⟩ := take_spec n hq
  have hnodup := horder ▸ hq.nodup
  refine ⟨(nodup_append.mp hnodup).2.1,
    mem_kept_iff hnodup (fun txid => horder ▸ hq.same txid) hlookup, ?_, ?_⟩
  · intro txid reg h
    rw [hlookup] at h
    split at h
    · cases h
    · exact hq.keyed txid reg h
  · have hlen := hq.bounded
    rw [horder, length_append] at hlen
    rw [take_max]
    omega

end Take

theorem Valid.of_eq {q q' : CatchupQueue} (hq : q.Valid) (hmax : q'.max = q.max)
    (horder : q'.order = q.order) (hbyTxID : q'.byTxID = q.byTxID) : q'.Valid where
  nodup := horder ▸ hq.nodup
  same := by rw [horder, hbyTxID]; exact hq.same
  keyed := hbyTxID ▸ hq.keyed
  bounded := by rw [horder, hmax]; exact hq.bounded

theorem drainedAfterOverflow_fields (q : CatchupQueue) :
    q.drainedAfterOverflow.1.max = q.max ∧ q.drainedAfterOverflow.1.order = q.order ∧
      q.drainedAfterOverflow.1.byTxID = q.byTxID ∧
      (q.drainedAfterOverflow.2 = none → q.drainedAfterOverflow.1 = q) := by
  unfold drainedAfterOverflow
  split <;> simp

end CatchupQueue

end Arcade.MerkleService
