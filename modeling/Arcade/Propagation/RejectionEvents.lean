import Arcade.Lib.Grouping
import Arcade.Propagation.Acceptance

/-!
The events of `publishRejections`. An event's fields apply to every txid it carries, so rejections
ride together only if they agree on all of them. The code compares a key in which the competing
transactions are joined with commas; on txids the join loses nothing.
-/

namespace Arcade.Propagation

open Lib Teranode List

/-- The fields that every txid of an event shares. -/
structure Payload where
  extraInfo : String
  statusCode : Int
  competingTxs : List Text
  deriving DecidableEq

structure RejectedStatus where
  txid : String
  payload : Payload
  deriving DecidableEq

/-- A bulk event with the status REJECTED. -/
structure RejectionEvent where
  timestamp : Int
  payload : Payload
  txids : List String
  deriving DecidableEq

/-- The key of the groups; the competing transactions are joined. -/
structure Reason where
  extraInfo : String
  statusCode : Int
  competing : Text
  deriving DecidableEq

def reasonOf (p : Payload) : Reason :=
  ⟨p.extraInfo, p.statusCode, [','].intercalate p.competingTxs⟩

/-- One round of the loop: find or open the group, and append the txid. -/
def groupRejection (ts : Int) (s : GoMap Reason Nat × List RejectionEvent) (st : RejectedStatus) :
    GoMap Reason Nat × List RejectionEvent :=
  let key := reasonOf st.payload
  let appendTxid := fun g : RejectionEvent => { g with txids := g.txids ++ [st.txid] }
  match s.1.lookup key with
  | some i => (s.1, s.2.modify i appendTxid)
  | none => (s.1.insert key s.2.length, s.2 ++ [appendTxid ⟨ts, st.payload, []⟩])

/-- The events in the order in which they are published. `publisher` tells whether there is one. -/
def publishRejections (publisher : Bool) (ts : Int) (rejected : List RejectedStatus) :
    List RejectionEvent :=
  if publisher = false ∨ rejected.length = 0 then []
  else (rejected.foldl (groupRejection ts) (∅, [])).2

/-! ## Keys and payloads -/

/-- 64 hexadecimal characters. -/
def IsTxid (t : Text) : Prop := t.length = 64 ∧ t.all isHex = true

instance (t : Text) : Decidable (IsTxid t) := inferInstanceAs (Decidable (_ ∧ _))

theorem isHex_toLower {c : Char} (h : isHex c = true) : isHex c.toLower = true := by
  have hlt : c.toNat < 128 := by
    simp only [isHex, Char.isDigit, Bool.or_eq_true, Bool.and_eq_true, decide_eq_true_eq, Char.le_def,
      ge_iff_le, UInt32.le_iff_toNat_le] at h
    rcases h with (h | h) | h <;> exact h.2.trans_lt (by decide)
  have hall : ∀ n < 128, isHex (Char.ofNat n) = true → isHex (Char.ofNat n).toLower = true := by
    decide
  have hc := hall c.toNat hlt
  rw [Char.ofNat_toNat] at hc
  exact hc h

theorem isTxid_competingSpenders {line t : Text} (h : t ∈ competingSpenders line) : IsTxid t := by
  have hfold : competingSpenders line = ((competingSpenderPattern.findAll line).map
      fun m => Text.lower (m.drop alreadySpentBy.length)).foldl
        (fun out t => if t ∈ out then out else out ++ [t]) [] := by
    rw [foldl_map]
    rfl
  rw [hfold, mem_foldl_insertNew] at h
  obtain ⟨m, hm, rfl⟩ := mem_map.mp h
  obtain ⟨tail, n, hn, rfl⟩ := Matcher.mem_findAll hm
  obtain ⟨n₁, n₂, hword, hhex, rfl⟩ := Matcher.andThen_eq_some hn
  obtain rfl := Matcher.word_eq_some hword
  obtain ⟨rfl, hlen, hall⟩ := Matcher.exactly_eq_some hhex
  have hdrop : (tail.take (alreadySpentBy.length + 64)).drop alreadySpentBy.length =
      (tail.drop alreadySpentBy.length).take 64 := by
    rw [drop_take, Nat.add_sub_cancel_left]
  rw [hdrop]
  refine ⟨by rw [Text.lower, length_map, hlen], ?_⟩
  simp only [Text.lower, all_map, all_eq_true, Function.comp_apply] at hall ⊢
  exact fun c hc => isHex_toLower (hall c hc)

theorem intercalate_inj {l l' : List Text} (h : ∀ t ∈ l, IsTxid t) (h' : ∀ t ∈ l', IsTxid t)
    (heq : [','].intercalate l = [','].intercalate l') : l = l' := by
  have hcomma : ∀ {l : List Text}, (∀ t ∈ l, IsTxid t) → ∀ t ∈ l, ',' ∉ t := by
    intro l h t ht hmem
    have hhex := all_eq_true.mp (h t ht).2 ',' hmem
    exact absurd hhex (by decide)
  have hne : ∀ {l : List Text}, (∀ t ∈ l, IsTxid t) → [','].intercalate l = [] → l = [] := by
    intro l h hnil
    by_contra hl
    have hsplit := splitOn_intercalate ',' (hcomma h) hl
    rw [hnil, splitOn_nil] at hsplit
    exact absurd (h [] (hsplit ▸ mem_singleton_self _)).1 (by decide)
  by_cases hl : l = []
  · subst hl
    exact (hne h' heq.symm).symm
  · have hl' : l' ≠ [] := by
      rintro rfl
      exact hl (hne h heq)
    rw [← splitOn_intercalate ',' (hcomma h) hl, heq, splitOn_intercalate ',' (hcomma h') hl']

theorem reasonOf_inj {p p' : Payload} (h : ∀ t ∈ p.competingTxs, IsTxid t)
    (h' : ∀ t ∈ p'.competingTxs, IsTxid t) : reasonOf p = reasonOf p' ↔ p = p' := by
  constructor
  · intro heq
    have hcompeting := intercalate_inj h h' (congrArg Reason.competing heq)
    have hinfo : p.extraInfo = p'.extraInfo := congrArg Reason.extraInfo heq
    have hcode : p.statusCode = p'.statusCode := congrArg Reason.statusCode heq
    cases p
    cases p'
    simp_all
  · rintro rfl
    rfl

/-! ## Who rides where -/

/-- `rides` lists, for each event, the statuses it stands for with their positions in the input. -/
structure Rides (rejected : List RejectedStatus) (events : List RejectionEvent)
    (rides : List (List (RejectedStatus × Nat))) : Prop where
  txids : events.map (·.txids) = rides.map fun ride => ride.map (·.1.txid)
  all : rides.flatten.Perm rejected.zipIdx
  payload : List.Forall₂ (fun event ride => ∀ x ∈ ride, event.payload = x.1.payload) events rides
  carried : ∀ ride ∈ rides, ride ≠ []
  inOrder : ∀ ride ∈ rides, ride.Pairwise fun x y => x.2 < y.2
  firstSeen : rides.Pairwise fun ride ride' => ∀ y ∈ ride', ∃ x ∈ ride, x.2 < y.2
  shared : ∀ x ∈ rejected.zipIdx, ∀ y ∈ rejected.zipIdx,
    (∃ ride ∈ rides, x ∈ ride ∧ y ∈ ride) ↔ x.1.payload = y.1.payload

theorem groupRejection_eq_collect (ts : Int) : groupRejection ts =
    collect (fun st => reasonOf st.payload) (fun st => ⟨ts, st.payload, []⟩)
      (fun g st => { g with txids := g.txids ++ [st.txid] }) := rfl

theorem foldl_append_txids (group : List RejectedStatus) (event : RejectionEvent) :
    group.foldl (fun g st => { g with txids := g.txids ++ [st.txid] }) event =
      { event with txids := event.txids ++ group.map (·.txid) } := by
  induction group generalizing event with
  | nil => simp
  | cons st group ih =>
    rw [foldl_cons, ih]
    simp

/-- Every rejection is on one event and the event carries its own reason, code and competing
transactions; events come in the order of their first rejection, and rejections ride together
exactly if they agree on all three. -/
theorem publishRejections_own_payload (ts : Int) (rejected : List RejectedStatus)
    (htxids : ∀ st ∈ rejected, ∀ t ∈ st.payload.competingTxs, IsTxid t) :
    ((publishRejections true ts rejected).flatMap (·.txids)).Perm (rejected.map (·.txid)) ∧
      ∃ rides, Rides rejected (publishRejections true ts rejected) rides := by
  have hevents : publishRejections true ts rejected =
      (rejected.foldl (groupRejection ts) (∅, [])).2 := by
    cases rejected <;> rfl
  let key := fun x : RejectedStatus × Nat => reasonOf x.1.payload
  have hzip : rejected.zipIdx.map Prod.fst = rejected := zipIdx_map_fst 0 rejected
  have hpos : rejected.zipIdx.Pairwise fun x y => x.2 < y.2 := by
    refine pairwise_map.mp ?_
    rw [zipIdx_map_snd]
    exact pairwise_lt_range'
  -- Within a ride the keys agree, so the payloads do.
  have hkey : ∀ x ∈ rejected.zipIdx, ∀ y ∈ rejected.zipIdx,
      key x = key y ↔ x.1.payload = y.1.payload := by
    intro x hx y hy
    exact reasonOf_inj (htxids x.1 (hzip ▸ mem_map_of_mem hx))
      (htxids y.1 (hzip ▸ mem_map_of_mem hy))
  have hride : ∀ ride ∈ grouped key rejected.zipIdx, ∀ x ∈ ride, ∀ y ∈ ride,
      x.1.payload = y.1.payload := by
    intro ride hride x hx y hy
    obtain ⟨a, -, rfl⟩ := (mem_grouped key).mp hride
    obtain ⟨hx, hxa⟩ := mem_filter.mp hx
    obtain ⟨hy, hya⟩ := mem_filter.mp hy
    exact (hkey x hx y hy).mp ((of_decide_eq_true hxa).trans (of_decide_eq_true hya).symm)
  have hmade : List.Forall₂ (fun event ride => event.txids = ride.map (·.1.txid) ∧
      ∃ x ∈ ride, event.payload = x.1.payload)
      (publishRejections true ts rejected) (grouped key rejected.zipIdx) := by
    have hcollect := (collect_grouped (fun st => reasonOf st.payload)
      (fun st => (⟨ts, st.payload, []⟩ : RejectionEvent))
      (fun g st => { g with txids := g.txids ++ [st.txid] }) rejected).2
    rw [← groupRejection_eq_collect, ← hevents] at hcollect
    nth_rewrite 2 [← hzip] at hcollect
    rw [grouped_map, forall₂_map_right_iff] at hcollect
    refine hcollect.imp fun event ride => ?_
    rintro ⟨a, rest, hmap, rfl⟩
    have ha : a ∈ ride.map Prod.fst := hmap ▸ mem_cons_self
    obtain ⟨x, hx, rfl⟩ := mem_map.mp ha
    rw [foldl_append_txids]
    exact ⟨by simp [Function.comp_def], x, hx, rfl⟩
  have hids : (publishRejections true ts rejected).map (·.txids) =
      (grouped key rejected.zipIdx).map fun ride => ride.map (·.1.txid) := by
    rw [← forall₂_eq_eq_eq, forall₂_map_left_iff, forall₂_map_right_iff]
    exact hmade.imp fun _ _ h => h.1
  constructor
  · rw [flatMap_def, hids, ← map_flatten]
    have hperm := (grouped_flatten_perm key rejected.zipIdx).map (·.1.txid)
    rwa [show rejected.zipIdx.map (·.1.txid) = rejected.map (·.txid) by
      rw [← congrArg (List.map (·.txid)) hzip, map_map]; rfl] at hperm
  · refine ⟨grouped key rejected.zipIdx, hids, grouped_flatten_perm key _, ?_, ?_, ?_,
      grouped_pairwise key hpos, ?_⟩
    · refine List.Forall₂.flip (((forall₂_and_left _ _).mpr ⟨hride, hmade.flip⟩).imp ?_)
      rintro ride event ⟨hsame, -, x, hx, hpayload⟩ y hy
      exact hpayload.trans (hsame x hx y hy)
    · intro ride hmem hnil
      obtain ⟨a, ha, rfl⟩ := (mem_grouped key).mp hmem
      exact filter_eq_nil_iff.mp hnil a ha (by simp)
    · intro ride hmem
      obtain ⟨a, -, rfl⟩ := (mem_grouped key).mp hmem
      exact hpos.filter _
    · intro x hx y hy
      constructor
      · rintro ⟨ride, hmem, hxr, hyr⟩
        exact hride ride hmem x hxr y hyr
      · intro heq
        refine ⟨_, (mem_grouped key).mpr ⟨x, hx, rfl⟩, mem_filter.mpr ⟨hx, by simp⟩,
          mem_filter.mpr ⟨hy, decide_eq_true ((hkey x hx y hy).mpr heq).symm⟩⟩

/-- Two conflicts with one spender around a conflict with another. -/
theorem publishRejections_own_payload_conflicts : ((publishRejections true 7
        [⟨"1", "spent", 466, competingSpenders (spentLine sampleParent '0')⟩,
          ⟨"2", "spent", 466, []⟩,
          ⟨"3", "spent", 466, competingSpenders (spentLine sampleParent '1')⟩]).flatMap
      (·.txids)).Perm ["1", "2", "3"] :=
  (publishRejections_own_payload 7 _ (by
    intro st hst t ht
    rcases mem_cons.mp hst with rfl | hst
    · exact isTxid_competingSpenders ht
    · rcases mem_cons.mp hst with rfl | hst
      · cases ht
      · obtain rfl := mem_singleton.mp hst
        exact isTxid_competingSpenders ht)).1

end Arcade.Propagation
