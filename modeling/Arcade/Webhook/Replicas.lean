import Arcade.Webhook.Service
import Arcade.Store.TxRows
import Arcade.Lib.Tasks

/-!
Replicas of the service over one submission. Each receives the same events in the same order and
takes them one at a time through `dispatchOne`; their reads, claims and POSTs interleave as they
like, and nothing fails. The claim compares the delivered status only, so it tells a replica that
lags behind from one that is ahead exactly when no two of the events need different claims.
-/

namespace Arcade.Webhook

open Lib Pebble List
open Propagation (Status)

/-- A replica: the event it is at, and its `deliver` call if it has one. -/
structure Replica where
  position : Nat
  call : Option Delivery
  deriving DecidableEq

/-- The row, the replicas, and the events that were POSTed. -/
structure Replicas where
  row : StoredSubmission
  replicas : List Replica
  posted : List Nat

/-- What a step without failures meets. -/
def noFailure (now : Int64) : Reply := ⟨now, false, .delivered⟩

namespace Replicas

def start (n : Nat) (row : StoredSubmission) : Replicas :=
  ⟨row, List.replicate n ⟨0, none⟩, []⟩

/-- The replica at an event after a step of its call. -/
def settle (position : Nat) (d : Delivery) : Replica :=
  if d.phase = .returned then ⟨position + 1, none⟩ else ⟨position, some d⟩

/-- The replica without a call reads the row for its next event. -/
def read (row : StoredSubmission) (position : Nat) (status : TransactionStatus) : Replica :=
  match dispatchOne row status with
  | none => ⟨position + 1, none⟩
  | some d => ⟨position, some d⟩

def step (cfg : Config) (events : List TransactionStatus) (s : Replicas) (e : Nat × Int64) :
    Replicas :=
  match s.replicas[e.1]? with
  | none => s
  | some ⟨position, none⟩ =>
    match events[position]? with
    | none => s
    | some status => { s with replicas := s.replicas.set e.1 (read s.row position status) }
  | some ⟨position, some d⟩ =>
    let (d', row') := d.step cfg (noFailure e.2) s.row
    { row := row'
      replicas := s.replicas.set e.1 (settle position d')
      posted := if d.posts (noFailure e.2) then s.posted ++ [position] else s.posted }

/-- At most one POST for each event, in total. -/
def AtMostOnce (s : Replicas) : Prop := s.posted.Nodup

end Replicas

/-! ## Events -/

/-- An event that the submission asks for. -/
def passes (full : Bool) (status : TransactionStatus) : Bool := full || terminal status.status

/-- A MINED event of a reorg that is delivered whatever was delivered before. -/
def reanchored (status : TransactionStatus) : Bool :=
  status.status = some .mined && status.extraInfo = extraInfoReorgReanchor

theorem passes_of_reanchored (full : Bool) {status : TransactionStatus}
    (h : reanchored status = true) : passes full status = true := by
  have hmined : status.status = some .mined := by
    simp only [reanchored, Bool.and_eq_true, decide_eq_true_eq] at h
    exact h.1
  simp [passes, hmined, terminal]

theorem shouldDeliver_iff (sub : StoredSubmission) (status : TransactionStatus) :
    shouldDeliver sub status = true ↔ reanchored status = true ∨
      sub.lastDeliveredStatus ≠ status.status ∧ passes sub.fullStatusUpdates status = true := by
  have hpasses := @passes_of_reanchored sub.fullStatusUpdates status
  unfold shouldDeliver
  by_cases heq : sub.lastDeliveredStatus = status.status
  · simp [heq, reanchored]
  · cases hfull : sub.fullStatusUpdates <;> simp_all [passes]

/-- One status serves every event that the submission asks for, and none is a re-anchor. -/
def OneClaim (full : Bool) (events : List TransactionStatus) : Prop :=
  ∃ c, ∀ e ∈ events, passes full e = true → e.status = c ∧ reanchored e = false

/-- The delivered status after the events, for a replica that takes them alone. -/
def lastAfter (full : Bool) (last : Option Status) (events : List TransactionStatus) :
    Option Status :=
  events.foldl (fun last e => if passes full e then e.status else last) last

theorem lastAfter_append (full : Bool) (last : Option Status) (pre : List TransactionStatus)
    (e : TransactionStatus) : lastAfter full last (pre ++ [e]) =
      if passes full e then e.status else lastAfter full last pre := by
  simp [lastAfter]

/-- The event is delivered by a replica that has taken the events before it alone, whatever the row
said when it began. -/
def Repeated (full : Bool) (pre : List TransactionStatus) (e : TransactionStatus) : Prop :=
  reanchored e = true ∨ passes full e = true ∧ ∀ last, lastAfter full last pre ≠ e.status

/-- Without a repeated event, what is delivered after an event that was asked for is its status. -/
theorem oneClaim_of_not_repeated (full : Bool) (events : List TransactionStatus)
    (h : ∀ pre e post, events = pre ++ e :: post → ¬ Repeated full pre e) :
    ∃ c, (∀ e ∈ events, passes full e = true → e.status = c ∧ reanchored e = false) ∧
      ((∀ e ∈ events, passes full e = false) ∨ ∀ last, lastAfter full last events = c) := by
  induction events using List.reverseRecOn with
  | nil => exact ⟨none, by simp⟩
  | append_singleton events e ih =>
    obtain ⟨c, hall, hlast⟩ := ih fun pre e' post heq => h pre e' (post ++ [e]) (by simp [heq])
    cases hp : passes full e with
    | false =>
      refine ⟨c, forall_mem_append.mpr ⟨hall, by simp [hp]⟩, hlast.imp (fun hnone => ?_) ?_⟩
      · exact forall_mem_append.mpr ⟨hnone, by simpa using hp⟩
      · exact fun hlast last => by simp [lastAfter_append, hp, hlast]
    | true =>
      obtain ⟨hr, last, hc⟩ : reanchored e = false ∧ ∃ last, lastAfter full last events = e.status := by
        simpa [Repeated, hp] using h events e [] rfl
      refine ⟨e.status, forall_mem_append.mpr ⟨fun e' he' hp' => ?_, by simp [hr]⟩,
        .inr fun last => by simp [lastAfter_append, hp]⟩
      rcases hlast with hnone | hlast
      · simp [hnone e' he'] at hp'
      · rw [← hc, hlast]
        exact hall e' he' hp'

namespace Replicas

variable {cfg : Config} {events : List TransactionStatus}

/-! ## One step -/

variable {s : Replicas} {status : TransactionStatus} {r k m : Nat}

theorem step_read (hr : s.replicas[r]? = some ⟨k, none⟩) (he : events[k]? = some status)
    (now : Int64) :
    step cfg events s (r, now) = { s with replicas := s.replicas.set r (read s.row k status) } := by
  simp [step, hr, he]

/-- What a step does: nothing, a read, or a step of a call. -/
theorem step_cases (cfg : Config) (events : List TransactionStatus) (s : Replicas)
    (e : Nat × Int64) :
    step cfg events s e = s ∨
    (∃ k status, s.replicas[e.1]? = some ⟨k, none⟩ ∧ events[k]? = some status ∧
      step cfg events s e = { s with replicas := s.replicas.set e.1 (read s.row k status) }) ∨
    ∃ k d, s.replicas[e.1]? = some ⟨k, some d⟩ ∧ step cfg events s e =
      { row := (d.step cfg (noFailure e.2) s.row).2
        replicas := s.replicas.set e.1 (settle k (d.step cfg (noFailure e.2) s.row).1)
        posted := if d.phase = .post then s.posted ++ [k] else s.posted } := by
  cases hr : s.replicas[e.1]? with
  | none => exact .inl (by simp [step, hr])
  | some replica =>
    obtain ⟨k, call⟩ := replica
    cases call with
    | none =>
      cases he : events[k]? with
      | none => exact .inl (by simp [step, hr, he])
      | some status => exact .inr (.inl ⟨k, status, rfl, he, step_read hr he e.2⟩)
    | some d => exact .inr (.inr ⟨k, d, rfl, by simp [step, hr, Delivery.posts, noFailure]⟩)

theorem row_step (cfg : Config) (d : Delivery) (reply : Reply) (row : StoredSubmission) :
    (d.step cfg reply row).2.callbackURL = row.callbackURL ∧
      (d.step cfg reply row).2.fullStatusUpdates = row.fullStatusUpdates := by
  unfold Delivery.step updateDeliveryStatusCAS Webhook.recordFailure
  cases d.phase with
  | claim => split_ifs <;> exact ⟨rfl, rfl⟩
  | post => cases reply.outcome <;> exact ⟨rfl, rfl⟩
  | recordAttempt failure => cases reply.storeFails <;> exact ⟨rfl, rfl⟩
  | recordFailure => dsimp only; split_ifs <;> exact ⟨rfl, rfl⟩
  | returned => exact ⟨rfl, rfl⟩

theorem exists_goto (cfg : Config) (d : Delivery) (now : Int64) (row : StoredSubmission) :
    ∃ p, (d.step cfg (noFailure now) row).1 = d.goto p ∧ p ≠ .claim ∧
      (p = .post ∧ d.phase = .claim ∧ row.lastDeliveredStatus = d.sub.lastDeliveredStatus ∧
          (d.step cfg (noFailure now) row).2.lastDeliveredStatus = d.status.status ∨
        p ≠ .post ∧
          ((d.step cfg (noFailure now) row).2.lastDeliveredStatus = row.lastDeliveredStatus ∨
            (d.step cfg (noFailure now) row).2.lastDeliveredStatus = d.status.status)) := by
  unfold Delivery.step
  cases hphase : d.phase with
  | claim =>
    by_cases heq : row.lastDeliveredStatus = d.sub.lastDeliveredStatus
    · exact ⟨.post, by simp [noFailure, updateDeliveryStatusCAS, heq]⟩
    · exact ⟨.returned, by simp [noFailure, updateDeliveryStatusCAS, heq]⟩
  | post => exact ⟨.recordAttempt none, by simp [noFailure]⟩
  | recordAttempt failure =>
    refine ⟨_, rfl, ?_, .inr ⟨?_, .inl rfl⟩⟩ <;> cases failure <;> simp
  | recordFailure =>
    refine ⟨.returned, rfl, by simp, .inr ⟨by simp, .inr ?_⟩⟩
    simp only [noFailure, Bool.false_eq_true, if_false, Webhook.recordFailure]
    split_ifs <;> rfl
  | returned =>
    have hsame : d = d.goto .returned := by rw [Delivery.goto, ← hphase]
    exact ⟨.returned, hsame, by simp⟩

/-! ## One replica -/

/-- The events below this one may have been POSTed by the replica. -/
def reached (replica : Replica) : Nat :=
  match replica.call with
  | none => replica.position
  | some d => if d.phase = .claim ∨ d.phase = .post then replica.position else replica.position + 1

theorem le_reached_read (row : StoredSubmission) (k : Nat) (status : TransactionStatus) :
    k ≤ reached (read row k status) := by
  unfold read
  cases hd : dispatchOne row status with
  | none => simp [reached]
  | some d =>
    simp only [reached]
    split <;> omega

theorem reached_settle (cfg : Config) (d : Delivery) (k : Nat) (now : Int64)
    (row : StoredSubmission) :
    (if d.phase = .post then k + 1 else reached ⟨k, some d⟩) ≤
      reached (settle k (d.step cfg (noFailure now) row).1) := by
  obtain ⟨p, hgoto, hne, ⟨rfl, hphase, -⟩ | ⟨hpost, -⟩⟩ := exists_goto cfg d now row
  · simp [hgoto, hphase, reached, settle, Delivery.goto]
  · have hpast : k + 1 ≤ reached (settle k (d.goto p)) := by
      unfold settle
      split <;> simp [reached, Delivery.goto, hne, hpost]
    rw [hgoto]
    refine le_trans ?_ hpast
    simp only [reached]
    split_ifs <;> omega

/-- A replica alone POSTs the events in their order. -/
structure InOrder (s : Replicas) : Prop where
  single : s.replicas.length ≤ 1
  nodup : s.posted.Nodup
  before : ∀ replica ∈ s.replicas, ∀ k ∈ s.posted, k < reached replica

theorem eq_singleton_of_getElem? {α : Type} {l : List α} (hlen : l.length ≤ 1) {i : Nat} {a : α}
    (h : l[i]? = some a) : l = [a] ∧ i = 0 := by
  obtain ⟨hi, -⟩ := List.getElem?_eq_some_iff.mp h
  obtain rfl : i = 0 := by omega
  obtain ⟨b, rfl⟩ := length_eq_one_iff.mp (show l.length = 1 by omega)
  exact ⟨by simpa using h, rfl⟩

theorem InOrder.step (h : s.InOrder) (e : Nat × Int64) : (step cfg events s e).InOrder := by
  rcases step_cases cfg events s e with
    heq | ⟨k, status, hr, -, heq⟩ | ⟨k, d, hr, heq⟩
  · rwa [heq]
  · obtain ⟨hl, he⟩ := eq_singleton_of_getElem? h.single hr
    rw [heq]
    refine ⟨by simpa using h.single, h.nodup, ?_⟩
    intro replica hrep k' hk'
    have hlt : k' < k := h.before ⟨k, none⟩ (by simp [hl]) k' hk'
    obtain rfl : replica = read s.row k status := by simpa [hl, he] using hrep
    exact lt_of_lt_of_le hlt (le_reached_read s.row k status)
  · obtain ⟨hl, he⟩ := eq_singleton_of_getElem? h.single hr
    have hbefore : ∀ k' ∈ s.posted, k' < reached ⟨k, some d⟩ := h.before _ (by simp [hl])
    have hle := reached_settle cfg d k e.2 s.row
    rw [heq]
    refine ⟨by simpa using h.single, ?_, ?_⟩
    · split
      · rename_i hphase
        refine nodup_append.mpr ⟨h.nodup, nodup_singleton k, ?_⟩
        intro k' hk' k'' hk'' hkk
        have hlt := hbefore k' hk'
        simp only [reached, hphase, or_true, if_true] at hlt
        simp_all
      · exact h.nodup
    · intro replica hrep k' hk'
      obtain rfl : replica = settle k (d.step cfg (noFailure e.2) s.row).1 := by
        simpa [hl, he] using hrep
      refine lt_of_lt_of_le ?_ hle
      split at hk'
      · rename_i hphase
        rw [if_pos hphase]
        rcases mem_append.mp hk' with hk' | hk'
        · have hlt := hbefore k' hk'
          simp only [reached, hphase, or_true, if_true] at hlt
          omega
        · simp at hk'
          omega
      · rename_i hphase
        rw [if_neg hphase]
        exact hbefore k' hk'

/-! ## One claim -/

def atPost (replica : Replica) : Bool := replica.call.any (·.phase = .post)

/-- The POSTs that were made, and those that a claim allows. -/
def credit (s : Replicas) : Nat := s.posted.length + s.replicas.countP atPost

/-- Every call is for the status `c`, and was begun when another one was delivered. -/
structure Claimed (full : Bool) (c : Option Status) (s : Replicas) : Prop where
  full : s.row.fullStatusUpdates = full
  calls : ∀ replica ∈ s.replicas, ∀ d ∈ replica.call,
    d.status.status = c ∧ (d.phase = .claim → d.sub.lastDeliveredStatus ≠ c)
  credit_le : s.credit ≤ 1
  unclaimed : s.row.lastDeliveredStatus ≠ c → s.credit = 0

theorem dispatchOne_eq_some {row : StoredSubmission} {d : Delivery}
    (h : dispatchOne row status = some d) :
    d = ⟨row, status, .claim⟩ ∧ shouldDeliver row status = true := by
  unfold dispatchOne at h
  split_ifs at h with hurl hskip
  exact ⟨(Option.some.inj h).symm, by simpa using hskip⟩

theorem atPost_read (row : StoredSubmission) (k : Nat) (status : TransactionStatus) :
    atPost (read row k status) = false := by
  unfold read
  cases hd : dispatchOne row status with
  | none => rfl
  | some d =>
    obtain ⟨rfl, -⟩ := dispatchOne_eq_some hd
    rfl

theorem credit_set {old : Replica} (hr : s.replicas[r]? = some old) (new : Replica)
    (row : StoredSubmission) (posted : List Nat) :
    credit ⟨row, s.replicas.set r new, posted⟩ + s.posted.length + (if atPost old then 1 else 0) =
      s.credit + posted.length + if atPost new then 1 else 0 := by
  have h := countP_task_set atPost hr new
  simp only [credit]
  omega

theorem credit_read (hr : s.replicas[r]? = some ⟨k, none⟩) (status : TransactionStatus) :
    credit { s with replicas := s.replicas.set r (read s.row k status) } = s.credit := by
  have h := credit_set hr (read s.row k status) s.row s.posted
  simp only [atPost_read, show atPost ⟨k, none⟩ = false from rfl] at h
  omega

theorem credit_call {d : Delivery} (hr : s.replicas[r]? = some ⟨k, some d⟩)
    (row' : StoredSubmission) (replica : Replica) :
    credit ⟨row', s.replicas.set r replica, if d.phase = .post then s.posted ++ [k] else s.posted⟩ =
      s.credit + if atPost replica then 1 else 0 := by
  have h := credit_set hr replica row' (if d.phase = .post then s.posted ++ [k] else s.posted)
  have hold : atPost ⟨k, some d⟩ = decide (d.phase = .post) := rfl
  by_cases hphase : d.phase = .post <;> simp [hold, hphase] at h ⊢ <;> omega

theorem Claimed.step {full : Bool} {c : Option Status} (h : s.Claimed full c)
    (hone : ∀ e ∈ events, passes full e = true → e.status = c ∧ reanchored e = false)
    (e : Nat × Int64) : (step cfg events s e).Claimed full c := by
  rcases step_cases cfg events s e with
    heq | ⟨k, status, hr, he, heq⟩ | ⟨k, d, hr, heq⟩
  · rwa [heq]
  · rw [heq]
    refine ⟨h.full, ?_, by rw [credit_read hr]; exact h.credit_le, ?_⟩
    · intro replica hrep d hd
      rcases mem_or_eq_of_mem_set hrep with hrep | rfl
      · exact h.calls replica hrep d hd
      · unfold read at hd
        cases hdis : dispatchOne s.row status with
        | none => simp [hdis] at hd
        | some d' =>
          obtain rfl : d' = d := by simpa [hdis] using hd
          obtain ⟨rfl, hshould⟩ := dispatchOne_eq_some hdis
          have hmem : status ∈ events := mem_of_getElem? he
          rcases (shouldDeliver_iff s.row status).mp hshould with hre | ⟨hne, hpasses⟩
          · exact absurd hre (by simp [(hone status hmem (passes_of_reanchored _ hre)).2])
          · obtain ⟨rfl, -⟩ := hone status hmem (h.full ▸ hpasses)
            exact ⟨rfl, fun _ => hne⟩
    · intro hne
      rw [credit_read hr]
      exact h.unclaimed hne
  · obtain ⟨hstatus, hclaim⟩ := h.calls ⟨k, some d⟩ (mem_of_getElem? hr) d rfl
    obtain ⟨p, hgoto, hne, hcases⟩ := exists_goto cfg d e.2 s.row
    have hcredit := credit_call hr (d.step cfg (noFailure e.2) s.row).2
      (settle k (d.step cfg (noFailure e.2) s.row).1)
    have hatPost : atPost (settle k (d.goto p)) = decide (p = .post) := by
      by_cases hp : p = .returned <;> simp [settle, atPost, Delivery.goto, hp]
    rw [hgoto, hatPost] at hcredit
    rw [heq, hgoto]
    refine ⟨(row_step cfg d _ s.row).2.trans h.full, ?_, ?_, ?_⟩
    · intro replica hrep d' hd'
      rcases mem_or_eq_of_mem_set hrep with hrep | rfl
      · exact h.calls replica hrep d' hd'
      · unfold settle at hd'
        split at hd'
        · cases hd'
        · obtain rfl := Option.mem_some_iff.mp hd'
          exact ⟨hstatus, fun hclaim => absurd hclaim hne⟩
    · rw [hcredit]
      rcases hcases with ⟨-, hphase, heq', -⟩ | ⟨hpost, -⟩
      · have hzero := h.unclaimed (heq' ▸ hclaim hphase)
        split <;> omega
      · simpa [hpost] using h.credit_le
    · intro hne
      rw [hcredit]
      rcases hcases with ⟨-, -, -, hlast⟩ | ⟨hpost, hlast | hlast⟩
      · exact absurd (hlast.trans hstatus) hne
      · have hzero := h.unclaimed (hlast ▸ hne)
        simp [hpost, hzero]
      · exact absurd (hlast.trans hstatus) hne

theorem claimed_start (n : Nat) (row : StoredSubmission) (c : Option Status) :
    (start n row).Claimed row.fullStatusUpdates c := by
  have hcredit : (start n row).credit = 0 := by
    simp [credit, start, countP_replicate, atPost]
  refine ⟨rfl, ?_, by omega, fun _ => hcredit⟩
  intro replica hrep d hd
  obtain rfl := eq_of_mem_replicate hrep
  cases hd

/-! ## Two replicas, one after the other -/

/-- The replica `r` has taken the first `m` events alone, from the state `s`. -/
structure Alone (events : List TransactionStatus) (s : Replicas) (r m : Nat) (t : Replicas) :
    Prop where
  replicas : t.replicas = s.replicas.set r ⟨m, none⟩
  url : t.row.callbackURL = s.row.callbackURL
  full : t.row.fullStatusUpdates = s.row.fullStatusUpdates
  last : t.row.lastDeliveredStatus =
    lastAfter s.row.fullStatusUpdates s.row.lastDeliveredStatus (events.take m)
  posted : ∃ more, t.posted = s.posted ++ more

theorem alone_refl (hr : s.replicas[r]? = some ⟨0, none⟩) : Alone events s r 0 s := by
  obtain ⟨hi, hget⟩ := List.getElem?_eq_some_iff.mp hr
  exact ⟨by rw [← hget, set_getElem_self], rfl, rfl, rfl, [], (append_nil _).symm⟩

section

variable (cfg : Config)

theorem run_delivers {t : Replicas} (hr : t.replicas[r]? = some ⟨m, none⟩)
    (he : events[m]? = some status) (hurl : t.row.callbackURL ≠ [])
    (hshould : shouldDeliver t.row status = true) :
    ∃ row', run (step cfg events) t (List.replicate 4 (r, 0)) =
        ⟨row', t.replicas.set r ⟨m + 1, none⟩, t.posted ++ [m]⟩ ∧
      row'.callbackURL = t.row.callbackURL ∧
      row'.fullStatusUpdates = t.row.fullStatusUpdates ∧
      row'.lastDeliveredStatus = status.status := by
  obtain ⟨hi, -⟩ := List.getElem?_eq_some_iff.mp hr
  have hread : read t.row m status = ⟨m, some ⟨t.row, status, .claim⟩⟩ := by
    simp [read, dispatchOne, hurl, hshould]
  simp only [List.replicate, run_cons, run_nil, step_read hr he, hread]
  simp [step, hi, Delivery.step, noFailure, updateDeliveryStatusCAS, Delivery.goto, settle,
    Delivery.posts, recordDeliveryAttempt]

theorem Alone.event {t : Replicas} (h : Alone events s r m t)
    (hr : r < s.replicas.length) (hurl : s.row.callbackURL ≠ []) (he : events[m]? = some status) :
    ∃ es, Alone events s r (m + 1) (run (step cfg events) t es) ∧
      (shouldDeliver t.row status = true →
        (run (step cfg events) t es).posted = t.posted ++ [m]) := by
  have hr' : t.replicas[r]? = some ⟨m, none⟩ := by simp [h.replicas, hr]
  have hurl' : t.row.callbackURL ≠ [] := h.url ▸ hurl
  have htake : events.take (m + 1) = events.take m ++ [status] := by
    rw [take_add_one, he]
    rfl
  obtain ⟨more, hmore⟩ := h.posted
  cases hshould : shouldDeliver t.row status with
  | true =>
    obtain ⟨row', hrun, hu, hf, hl⟩ := run_delivers cfg hr' he hurl' hshould
    refine ⟨List.replicate 4 (r, 0), ?_, fun _ => by rw [hrun]⟩
    rw [hrun]
    have hpasses : passes s.row.fullStatusUpdates status = true := by
      rcases (shouldDeliver_iff t.row status).mp hshould with hre | ⟨-, hp⟩
      · exact passes_of_reanchored _ hre
      · rwa [h.full] at hp
    refine ⟨by simp [h.replicas], hu.trans h.url, hf.trans h.full, ?_, more ++ [m], ?_⟩
    · rw [htake, lastAfter_append, if_pos hpasses]
      exact hl
    · simp [hmore]
  | false =>
    have hread : read t.row m status = ⟨m + 1, none⟩ := by
      simp [read, dispatchOne, hurl', hshould]
    refine ⟨[(r, 0)], ?_, by simp⟩
    rw [run_cons, run_nil, step_read hr' he, hread]
    refine ⟨by simp [h.replicas], h.url, h.full, ?_, more, hmore⟩
    rw [htake, lastAfter_append]
    split
    · -- an event that was asked for is only left out if its status is the delivered one
      by_contra hne
      have : shouldDeliver t.row status = true :=
        (shouldDeliver_iff t.row status).mpr (.inr ⟨hne, by rwa [h.full]⟩)
      simp [this] at hshould
    · exact h.last

theorem exists_alone (hr : s.replicas[r]? = some ⟨0, none⟩)
    (hurl : s.row.callbackURL ≠ []) (hm : m ≤ events.length) :
    ∃ es, Alone events s r m (run (step cfg events) s es) := by
  induction m with
  | zero => exact ⟨[], alone_refl hr⟩
  | succ m ih =>
    obtain ⟨es, h⟩ := ih (by omega)
    have hlt : r < s.replicas.length := (List.getElem?_eq_some_iff.mp hr).1
    obtain ⟨es', h', -⟩ := h.event cfg hlt hurl
      (List.getElem?_eq_getElem (show m < events.length by omega))
    exact ⟨es ++ es', by rwa [run_append]⟩

theorem posts_repeated (hr : s.replicas[r]? = some ⟨0, none⟩)
    (hurl : s.row.callbackURL ≠ []) {pre post : List TransactionStatus} {e : TransactionStatus}
    (hevents : events = pre ++ e :: post) (hrep : Repeated s.row.fullStatusUpdates pre e) :
    ∃ es, Alone events s r (pre.length + 1) (run (step cfg events) s es) ∧
      ∃ more, (run (step cfg events) s es).posted = s.posted ++ more ++ [pre.length] := by
  obtain ⟨es, h⟩ := exists_alone cfg hr hurl
    (show pre.length ≤ events.length by simp [hevents])
  have hlt : r < s.replicas.length := (List.getElem?_eq_some_iff.mp hr).1
  obtain ⟨es', h', hposts⟩ := h.event cfg hlt hurl
    (show events[pre.length]? = some e by simp [hevents])
  have hshould : shouldDeliver (run (step cfg events) s es).row e = true := by
    refine (shouldDeliver_iff _ e).mpr ?_
    rcases hrep with hre | ⟨hpasses, hlast⟩
    · exact .inl hre
    · refine .inr ⟨?_, by rwa [h.full]⟩
      rw [h.last, hevents, take_left]
      exact hlast _
  obtain ⟨more, hmore⟩ := h.posted
  refine ⟨es ++ es', by rwa [run_append], more, ?_⟩
  rw [run_append, hposts hshould, hmore]

theorem exists_twice {n : Nat} (hn : 2 ≤ n) {row : StoredSubmission}
    (hurl : row.callbackURL ≠ []) {pre post : List TransactionStatus} {e : TransactionStatus}
    (hevents : events = pre ++ e :: post) (hrep : Repeated row.fullStatusUpdates pre e) :
    ∃ es, ¬(run (step cfg events) (start n row) es).AtMostOnce := by
  obtain ⟨es, h, more, hmore⟩ := posts_repeated cfg (s := start n row) (r := 0)
    (by simp [start, show 0 < n by omega]) hurl hevents hrep
  obtain ⟨es', -, more', hmore'⟩ := posts_repeated cfg
    (s := run (step cfg events) (start n row) es) (r := 1)
    (by rw [h.replicas]; simp [start, show 1 < n by omega]) (h.url ▸ hurl) hevents (h.full ▸ hrep)
  refine ⟨es ++ es', ?_⟩
  rw [run_append, AtMostOnce, hmore', hmore, append_assoc, nodup_append]
  rintro ⟨-, -, hdisj⟩
  exact hdisj pre.length (by simp) pre.length (by simp) rfl

end

/-! ## At most once -/

/-- Every event of the sequence is POSTed at most once in every interleaving exactly if there is
one replica, or one claim serves the whole sequence. -/
theorem atMostOnce_iff (cfg : Config) (n : Nat) (row : StoredSubmission)
    (events : List TransactionStatus) (hurl : row.callbackURL ≠ []) :
    (∀ es, (run (step cfg events) (start n row) es).AtMostOnce) ↔
      n ≤ 1 ∨ OneClaim row.fullStatusUpdates events := by
  constructor
  · intro h
    by_contra hnot
    obtain ⟨hn, hone⟩ := not_or.mp hnot
    obtain ⟨c, hall, -⟩ := oneClaim_of_not_repeated row.fullStatusUpdates events
      fun pre e post he hrep => by
        obtain ⟨es, hes⟩ := exists_twice cfg (show 2 ≤ n by omega) hurl he hrep
        exact hes (h es)
    exact hone ⟨c, hall⟩
  · rintro (hn | ⟨c, hone⟩) es
    · have hstart : (start n row).InOrder :=
        ⟨by simpa [start] using hn, nodup_nil, by simp [start]⟩
      exact (run_keeps (fun s e h => h.step e) hstart es).nodup
    · have hclaimed : (run (step cfg events) (start n row) es).Claimed row.fullStatusUpdates c :=
        run_keeps (fun s e h => h.step hone e) (claimed_start n row c) es
      have hlen : (run (step cfg events) (start n row) es).posted.length ≤ 1 :=
        le_trans (Nat.le_add_right _ _) hclaimed.credit_le
      unfold AtMostOnce
      rcases hposted : (run (step cfg events) (start n row) es).posted with _ | ⟨k, _ | ⟨k', ks⟩⟩
      · exact nodup_nil
      · exact nodup_singleton k
      · simp [hposted] at hlen

/-- A submission that asks for the terminal statuses. -/
def sampleSubscriber : StoredSubmission where
  submissionID := [1]
  txid := [2]
  callbackURL := [3]

def sampleReplicaConfig : Config := ⟨10, 5000, 300000⟩

/-- Two replicas and one MINED event. -/
theorem atMostOnce_iff_mined :
    (run (step sampleReplicaConfig [⟨some .mined, []⟩]) (start 2 sampleSubscriber)
      [(0, 1), (1, 1), (0, 1), (1, 1), (0, 1), (1, 1)]).AtMostOnce := by
  refine (atMostOnce_iff sampleReplicaConfig 2 sampleSubscriber [⟨some .mined, []⟩]
    (by decide)).mpr (.inr ⟨some .mined, ?_⟩) _
  decide

/-- A transaction is mined, and then mined in another block by a reorg. -/
def reorgEvents : List TransactionStatus :=
  [⟨some .mined, []⟩, ⟨some .mined, extraInfoReorgReanchor⟩]

/-- Both replicas take the second event as one to deliver although MINED was delivered, and both
claims, from MINED to MINED, succeed. -/
theorem reanchor_postedTwice : Store.canTransitionFrom .mined .mined = true ∧
    (run (step sampleReplicaConfig reorgEvents) (start 2 sampleSubscriber)
      ([(0, 1), (0, 1), (0, 1), (0, 1), (1, 1)] ++ [(0, 1), (0, 1), (0, 1), (0, 1)] ++
        [(1, 1), (1, 1), (1, 1), (1, 1)])).posted = [0, 1, 1] := by
  decide

end Replicas

end Arcade.Webhook
