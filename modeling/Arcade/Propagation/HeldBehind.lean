import Arcade.Propagation.TerminalStatuses

/-!
Who must be written in a call of `applyTerminalStatuses`, in terms of the dispatchers before it.

While nobody else acts, a call first lets the accepted transactions go, which frees their children,
and then ends the rejected and the parked ones with everybody who is still held behind them. A
transaction behind both a rejected and a parked one goes with the rejected one, which comes first.
-/

namespace Arcade.Propagation

open Lib List
open Dispatcher (heldBehind_nil handleTerminal_cascades mem_inFlight_handleTerminal cascadeReject)

def Dispatcher.HeldBehindAny (d : Dispatcher) (accepted txids : List String) (c : String) : Prop :=
  ∃ p ∈ txids, d.HeldBehind accepted p c

open Dispatcher (HeldBehindAny)

/-- Every waiter entry is a registered one, and its parent is in flight. -/
structure Tidy (d : Dispatcher) : Prop where
  registered : Registered d
  inFlight : ∀ p c, Waits d.waiters p c → p ∈ d.inFlight

section

variable {d : Dispatcher}

theorem waits_place {inFlight : GoMap String Int} {msg : PropagationMsg} {p c : String}
    (h : Waits (d.place msg (Dispatcher.blocking msg inFlight)).waiters p c) :
    Waits d.waiters p c ∨ p ∈ inFlight := by
  rcases Dispatcher.place_cases d msg inFlight with ⟨-, -, -, hw⟩ | ⟨-, hp⟩
  · exact ((hw p c).mp h).imp_right fun h => h.2.1
  · rw [hp] at h
    exact .inl h

theorem inFlight_step {e : Dispatcher.Event} (hc : Coherent d)
    (h : ∀ p c, Waits d.waiters p c → p ∈ d.inFlight) (p c : String)
    (hw : Waits (d.step e).waiters p c) : p ∈ (d.step e).inFlight := by
  cases e with
  | admission msg offset =>
    simp only [Dispatcher.step, Dispatcher.handleAdmit] at hw ⊢
    split at hw
    · rename_i hdup
      rw [if_pos hdup]
      exact h p c hw
    · rename_i hnew
      rw [if_neg hnew, Dispatcher.place_inFlight]
      exact (AList.mem_insert _).mpr (.inr ((waits_place hw).elim (h p c) id))
  | requeue msg =>
    simp only [Dispatcher.step, Dispatcher.handleRequeue] at hw ⊢
    split at hw
    · rename_i hin
      rw [if_pos hin, Dispatcher.place_inFlight]
      exact (waits_place hw).elim (h p c) id
    · rename_i hin
      rw [if_neg hin]
      exact h p c hw
  | drain => exact h p c hw
  | terminal order txid status =>
    change Waits (d.handleTerminal order txid status).1.waiters p c at hw
    change p ∈ (d.handleTerminal order txid status).1.inFlight
    cases hs : status.settles with
    | false =>
      have hsame : (d.handleTerminal order txid status).1 = d := by
        cases status <;> first | rfl | cases hs
      rw [hsame] at hw ⊢
      exact h p c hw
    | true =>
      rw [mem_inFlight_handleTerminal hs]
      by_cases hcas : status.cascades = true
      · rw [handleTerminal_cascades hcas] at hw
        have hreg : Registered (d.settle txid) := hc.registered
        have C := Dispatcher.cascading_cascadeReject order hreg txid
        have hw₀ : Waits d.waiters p c := C.result.waits p c hw
        obtain ⟨-, hp, hout⟩ := C.closed hw₀ fun hin => C.not_waits hin p hw
        rw [C.inCascade_iff] at hout
        exact ⟨h p c hw₀, hp, fun hx => hout (heldBehind_nil.mp hx.2)⟩
      · have haccepted : status = .acceptedByNetwork := by
          cases status <;> first | rfl | exact absurd rfl hcas | cases hs
        subst haccepted
        obtain ⟨visited, -, hr⟩ := Dispatcher.released_releaseWaiters order (d.settle txid) txid
        obtain ⟨hp, hw₀⟩ := (Dispatcher.waits_erase _ _ _ _).mp ((hr.waits p c).mp hw).1
        exact ⟨h p c hw₀, hp, fun hx => hcas hx.1⟩

theorem tidy_run {es : List Dispatcher.Event}
    (h : AllSteps Dispatcher.step Dispatcher.SparesHeld .new es) :
    Tidy (run Dispatcher.step .new es) := by
  have hinv := run_invariant (C := Dispatcher.SparesHeld)
    (J := fun d => Coherent d ∧ ∀ p c, Waits d.waiters p c → p ∈ d.inFlight)
    (fun d e hd hc => ⟨Dispatcher.step_coherent hd.1 hc, inFlight_step hd.1 hd.2⟩)
    ⟨.new, fun p c hw => absurd hw (Dispatcher.not_waits_of_none rfl c)⟩ h
  exact ⟨hinv.1.registered, hinv.2⟩

end

/-! ## The dispatcher during a call -/

/-- What is left of `d₀` when some transactions were accepted and then others ended with their
descendants. -/
structure Swept (d₀ : Dispatcher) (accepted ended : List String) (d : Dispatcher) : Prop where
  registered : Registered d
  waits : ∀ p c, Waits d.waiters p c ↔
    (Waits d₀.waiters p c ∧ p ∉ accepted) ∧ ¬d₀.HeldBehindAny accepted ended c
  inFlight : ∀ c, c ∈ d.inFlight ↔ c ∈ d₀.inFlight ∧ c ∉ accepted ∧ c ∉ ended ∧
    ¬d₀.HeldBehindAny accepted ended c
  held : ∀ p c, Waits d.waiters p c → d.heldMsgs.lookup c = d₀.heldMsgs.lookup c

namespace Swept

variable {d₀ d : Dispatcher} {accepted ended : List String} {order : MapOrder String}
  {txid c : String} {status : Status}

theorem start (h : Tidy d₀) : Swept d₀ [] [] d₀ :=
  ⟨h.registered, by simp [HeldBehindAny], by simp [HeldBehindAny],
    fun _ _ _ => rfl⟩

/-- The parents that are left are in flight, so no child is released that still waits on one. -/
theorem accept (h : Swept d₀ accepted [] d) (h₀ : Tidy d₀) (order : MapOrder String)
    (txid : String) :
    Swept d₀ (accepted ++ [txid]) [] (d.handleTerminal order txid .acceptedByNetwork).1 := by
  obtain ⟨visited, -, hr⟩ := Dispatcher.released_releaseWaiters order (d.settle txid) txid
  have hparent : ∀ p c, p ≠ txid → Waits d.waiters p c → p ∈ d.inFlight.erase txid := by
    intro p c hp hw
    obtain ⟨⟨hw₀, hacc⟩, -⟩ := (h.waits p c).mp hw
    exact AList.mem_erase.mpr ⟨hp, (h.inFlight p).mpr
      ⟨h₀.inFlight p c hw₀, hacc, not_mem_nil, by simp [HeldBehindAny]⟩⟩
  have hblocked : ∀ p c, p ≠ txid → Waits d.waiters p c →
      Dispatcher.canRelease c (d.inFlight.erase txid) d.heldMsgs = none := by
    intro p c hp hw
    obtain ⟨m, hm, hinput, hempty, hself⟩ := h.registered p c hw
    rw [Option.eq_none_iff_forall_ne_some]
    intro msg hmsg
    obtain ⟨hm', hfree⟩ := (Dispatcher.canRelease_eq_some _ _ _ _).mp hmsg
    obtain rfl := Option.mem_unique hm hm'
    exact hfree p hinput hempty hself (hparent p c hp hw)
  have hwaits : ∀ p c, Waits (d.handleTerminal order txid .acceptedByNetwork).1.waiters p c ↔
      p ≠ txid ∧ Waits d.waiters p c := by
    intro p c
    refine (hr.waits p c).trans ?_
    rw [Dispatcher.waits_erase]
    refine and_iff_left_of_imp ?_
    rintro ⟨hp, hw⟩ ⟨-, -, -, -, msg, hmsg, -⟩
    exact absurd (hblocked p c hp hw) (hmsg ▸ by simp)
  have hheld : ∀ p c, p ≠ txid → Waits d.waiters p c →
      (d.handleTerminal order txid .acceptedByNetwork).1.heldMsgs.lookup c = d.heldMsgs.lookup c := by
    intro p c hp hw
    refine (hr.held c).trans (if_neg ?_)
    rintro ⟨-, hready⟩
    change (Dispatcher.canRelease c (d.inFlight.erase txid) d.heldMsgs).isSome = true at hready
    rw [hblocked p c hp hw] at hready
    cases hready
  refine ⟨fun p c hw => ?_, fun p c => ?_, fun c => ?_, fun p c hw => ?_⟩
  · obtain ⟨hp, hw⟩ := (hwaits p c).mp hw
    rw [hheld p c hp hw]
    exact h.registered p c hw
  · rw [hwaits, h.waits]
    simp only [HeldBehindAny, mem_append, mem_singleton, not_mem_nil]
    tauto
  · rw [mem_inFlight_handleTerminal rfl, h.inFlight]
    simp only [HeldBehindAny, Status.cascades, mem_append, mem_singleton, not_mem_nil]
    tauto
  · obtain ⟨hp, hw⟩ := (hwaits p c).mp hw
    rw [hheld p c hp hw, h.held p c hw]

theorem heldBehind_iff (h : Swept d₀ accepted ended d) :
    d.HeldBehind [] txid c ↔
      d₀.HeldBehind accepted txid c ∧ ¬d₀.HeldBehindAny accepted ended c := by
  rw [heldBehind_nil]
  constructor
  · intro hheld
    obtain ⟨p, -, hw⟩ := Relation.TransGen.tail'_iff.mp hheld
    exact ⟨Relation.TransGen.mono (fun p c hw => ((h.waits p c).mp hw).1) _ _ hheld,
      ((h.waits p c).mp hw).2⟩
  · rintro ⟨hheld, hout⟩
    induction hheld with
    | single hw => exact .single ((h.waits _ _).mpr ⟨hw, hout⟩)
    | tail hb hw ih =>
      refine .tail (ih fun ⟨q, hq, hqb⟩ => hout ⟨q, hq, hqb.tail hw⟩) ?_
      exact (h.waits _ _).mpr ⟨hw, hout⟩

theorem cascade (h : Swept d₀ accepted ended d) (hs : status.cascades = true)
    (order : MapOrder String) (txid : String) :
    Swept d₀ accepted (ended ++ [txid]) (d.handleTerminal order txid status).1 := by
  have hsettles : status.settles = true := by cases status <;> first | rfl | cases hs
  have hany : ∀ c, d₀.HeldBehindAny accepted (ended ++ [txid]) c ↔
      d₀.HeldBehindAny accepted ended c ∨ d.HeldBehind [] txid c := by
    intro c
    rw [h.heldBehind_iff, or_and_left, and_iff_left (em _)]
    simp [HeldBehindAny, or_and_right, exists_or]
  have hreg : Registered (d.settle txid) := h.registered
  have hc := Dispatcher.cascading_cascadeReject order hreg txid
  have hin : ∀ c, Dispatcher.InCascade (cascadeReject order (d.settle txid) txid).2 c ↔
      d.HeldBehind [] txid c := fun c => (hc.inCascade_iff c).trans heldBehind_nil.symm
  rw [handleTerminal_cascades hs]
  have hwaits : ∀ p c, Waits (cascadeReject order (d.settle txid) txid).1.waiters p c ↔
      Waits d.waiters p c ∧ ¬d.HeldBehind [] txid c := by
    intro p c
    rw [← hin]
    exact ⟨fun hw => ⟨hc.result.waits p c hw, fun hgone => hc.not_waits hgone p hw⟩,
      fun ⟨hw, hleft⟩ => (hc.closed hw hleft).1⟩
  refine ⟨hc.registered, fun p c => ?_, fun c => ?_, fun p c hw => ?_⟩
  · rw [hwaits, h.waits, hany]
    tauto
  · rw [← handleTerminal_cascades hs, mem_inFlight_handleTerminal hsettles,
      h.inFlight, hany]
    simp only [hs, mem_append, mem_singleton]
    tauto
  · obtain ⟨hw, hleft⟩ := (hwaits p c).mp hw
    rw [← h.held p c hw]
    exact Option.ext fun m => (hc.result.held c m).trans (and_iff_left (mt (hin c).mp hleft))

end Swept

/-! ## The notifications of a quiet call -/

/-- Nobody else acts during these rounds, and every notification is answered. -/
def Quiet (rounds : List Round) : Prop := ∀ r ∈ rounds, r.others = [] ∧ r.outcome = .answered

namespace Target

/-- The dispatcher processes the transactions one after the other. -/
def tell (status : Status) (t : Target) (txids : List String) : Target :=
  txids.foldl (fun t txid => (t.process txid status).1) t

variable {t : Target} {targets : List Target} {status : Status} {txid : String}
  {txids : List String}

theorem nextRound_quiet (h : Quiet t.rounds) :
    t.nextRound.others = [] ∧ t.nextRound.outcome = .answered := by
  unfold nextRound
  cases hr : t.rounds with
  | nil => exact ⟨rfl, rfl⟩
  | cons r rest => exact h r (hr ▸ mem_cons_self)

theorem quiet_process (h : Quiet t.rounds) : Quiet (t.process txid status).1.rounds :=
  fun r hr => h r (mem_of_mem_tail hr)

theorem notice_quiet (h : Quiet t.rounds) :
    (t.notice txid status).dispatcher = t.dispatcher ∧ (t.notice txid status).answered = true := by
  obtain ⟨hothers, houtcome⟩ := nextRound_quiet h
  simp [notice, hothers, houtcome]

theorem notifyTerminalToDispatcher_quiet (h : ∀ t ∈ targets, Quiet t.rounds) :
    (notifyTerminalToDispatcher targets txid status).1 =
      targets.map fun t => (t.process txid status).1 := by
  induction targets with
  | nil => rfl
  | cons t ts ih =>
    obtain ⟨ht, hts⟩ := forall_mem_cons.mp h
    have hone : t.notifyTerminalToOne txid status =
        ((t.process txid status).1, some (t.process txid status).2) := by
      simp only [notifyTerminalToOne, (nextRound_quiet ht).2]
    simp only [notifyTerminalToDispatcher, hone, ih hts, map_cons]

theorem notifyAll_quiet (h : ∀ t ∈ targets, Quiet t.rounds) :
    (notifyAll targets status txids).1 = targets.map (tell status · txids) := by
  induction txids generalizing targets with
  | nil => simp [notifyAll, tell]
  | cons txid rest ih =>
    have hnext : ∀ t ∈ (notifyTerminalToDispatcher targets txid status).1, Quiet t.rounds := by
      rw [notifyTerminalToDispatcher_quiet h]
      intro t' ht'
      obtain ⟨t, ht, rfl⟩ := mem_map.mp ht'
      exact quiet_process (h t ht)
    change (notifyAll (notifyTerminalToDispatcher targets txid status).1 status rest).1 = _
    rw [ih hnext, notifyTerminalToDispatcher_quiet h, map_map]
    rfl

theorem quiet_tell (h : Quiet t.rounds) : Quiet (tell status t txids).rounds := by
  induction txids generalizing t with
  | nil => exact h
  | cons txid rest ih => exact ih (quiet_process h)

variable {d₀ : Dispatcher} {accepted ended : List String}

theorem tell_accepted (h₀ : Tidy d₀) (hq : Quiet t.rounds)
    (h : Swept d₀ accepted [] t.dispatcher) (txids : List String) :
    Swept d₀ (accepted ++ txids) [] (tell .acceptedByNetwork t txids).dispatcher ∧
      ∃ new, (tell .acceptedByNetwork t txids).notices = t.notices ++ new ∧
        ∀ n ∈ new, n.status = .acceptedByNetwork := by
  induction txids generalizing t accepted with
  | nil => exact ⟨by simpa [tell] using h, [], by simp [tell]⟩
  | cons txid rest ih =>
    have hstep : Swept d₀ (accepted ++ [txid]) []
        (t.process txid .acceptedByNetwork).1.dispatcher := by
      change Swept _ _ _ ((t.notice txid .acceptedByNetwork).dispatcher.handleTerminal _ _ _).1
      rw [(notice_quiet hq).1]
      exact h.accept h₀ _ txid
    obtain ⟨hrest, new, hnew, habout⟩ := ih (quiet_process hq) hstep
    refine ⟨by rwa [append_assoc] at hrest, t.notice txid .acceptedByNetwork :: new, ?_, ?_⟩
    · change (tell _ (t.process txid .acceptedByNetwork).1 rest).notices = _
      rw [hnew]
      simp [process]
    · exact forall_mem_cons.mpr ⟨rfl, habout⟩

/-- One of the statuses that cascade: the new notifications find exactly those who are behind one
of its transactions and were not ended before. -/
structure Sweep (d₀ : Dispatcher) (accepted ended : List String) (status : Status)
    (txids : List String) (new : List Notice) : Prop where
  about : ∀ n ∈ new, n.status = status ∧ n.answered = true
  found : ∀ n ∈ new, ∀ c, n.dispatcher.HeldBehind [] n.txid c →
    (d₀.HeldBehindAny accepted txids c ∧ ¬d₀.HeldBehindAny accepted ended c) ∧
      n.dispatcher.heldMsgs.lookup c = d₀.heldMsgs.lookup c ∧
      (c ∉ accepted → c ∉ ended ++ txids → (c ∈ n.dispatcher.inFlight ↔ c ∈ d₀.inFlight))
  finds : ∀ c, d₀.HeldBehindAny accepted txids c → ¬d₀.HeldBehindAny accepted ended c →
    ∃ n ∈ new, n.dispatcher.HeldBehind [] n.txid c

theorem tell_cascades {s : Status} (hs : s.cascades = true) (hq : Quiet t.rounds)
    (h : Swept d₀ accepted ended t.dispatcher) (txids : List String) :
    Swept d₀ accepted (ended ++ txids) (tell s t txids).dispatcher ∧
      ∃ new, (tell s t txids).notices = t.notices ++ new ∧
        Sweep d₀ accepted ended s txids new := by
  induction txids generalizing t ended with
  | nil =>
    exact ⟨by simpa [tell] using h, [], by simp [tell],
      by simp, by simp, by simp [HeldBehindAny]⟩
  | cons txid rest ih =>
    have hn : (t.notice txid s).dispatcher = t.dispatcher := (notice_quiet hq).1
    have hstep : Swept d₀ accepted (ended ++ [txid])
        (t.process txid s).1.dispatcher := by
      change Swept _ _ _ ((t.notice txid s).dispatcher.handleTerminal _ _ _).1
      rw [hn]
      exact h.cascade hs _ txid
    obtain ⟨hrest, new, hnew, hsw⟩ := ih (quiet_process hq) hstep
    have hcons : ∀ c, d₀.HeldBehindAny accepted (txid :: rest) c ↔
        d₀.HeldBehind accepted txid c ∨ d₀.HeldBehindAny accepted rest c := by
      simp [HeldBehindAny]
    have hend : ∀ c, d₀.HeldBehindAny accepted (ended ++ [txid]) c ↔
        d₀.HeldBehindAny accepted ended c ∨ d₀.HeldBehind accepted txid c := by
      simp [HeldBehindAny, or_and_right, exists_or]
    refine ⟨by rwa [append_assoc] at hrest, t.notice txid s :: new, ?_, ?_, ?_, ?_⟩
    · change (tell _ (t.process txid s).1 rest).notices = _
      rw [hnew]
      simp [process]
    · exact forall_mem_cons.mpr ⟨⟨rfl, (notice_quiet hq).2⟩, hsw.about⟩
    · refine forall_mem_cons.mpr ⟨fun c hc => ?_, fun n hnm c hc => ?_⟩
      · rw [hn] at hc ⊢
        obtain ⟨hbehind, hout⟩ := h.heldBehind_iff.mp hc
        obtain ⟨p, -, hw⟩ := Relation.TransGen.tail'_iff.mp (heldBehind_nil.mp hc)
        refine ⟨⟨(hcons c).mpr (.inl hbehind), hout⟩, h.held p c hw, fun hacc hnot => ?_⟩
        rw [h.inFlight]
        exact and_iff_left ⟨hacc, fun hx => hnot (mem_append_left _ hx), hout⟩
      · obtain ⟨⟨hany, hout⟩, hmsg, hin⟩ := hsw.found n hnm c hc
        refine ⟨⟨(hcons c).mpr (.inr hany), fun hx => hout ((hend c).mpr (.inl hx))⟩, hmsg, ?_⟩
        rwa [append_assoc] at hin
    · intro c hany hout
      by_cases hbehind : d₀.HeldBehind accepted txid c
      · refine ⟨_, mem_cons_self, ?_⟩
        rw [hn]
        exact h.heldBehind_iff.mpr ⟨hbehind, hout⟩
      · obtain ⟨n, hnm, hc⟩ := hsw.finds c (((hcons c).mp hany).resolve_left hbehind)
          fun hx => ((hend c).mp hx).elim hout hbehind
        exact ⟨n, mem_cons_of_mem _ hnm, hc⟩

/-- A target in a call on which nobody intrudes. -/
def toldAll (statuses : List TransactionStatus) (x : Dispatcher × List Round) : Target :=
  tell .pendingRetry (tell .rejected (tell .acceptedByNetwork ⟨x.1, x.2, []⟩
    (terminals statuses .acceptedByNetwork)) (terminals statuses .rejected))
    (terminals statuses .pendingRetry)

end Target

/-! ## Before the call -/

section Before

variable (store : StoreReplies) (statuses : List TransactionStatus)

/-- Held behind a row of the batch with this status, and not through an accepted one. -/
def Dispatcher.Behind (d : Dispatcher) (status : Status) (txid : String) : Prop :=
  d.HeldBehindAny (terminals statuses .acceptedByNetwork) (terminals statuses status) txid

/-- The cascade that a transaction goes with; those of the rejected rows come first. -/
def Dispatcher.GoesWith (d : Dispatcher) (txid : String) : Status → Prop
  | .rejected => d.Behind statuses .rejected txid
  | .pendingRetry => d.Behind statuses .pendingRetry txid ∧ ¬d.Behind statuses .rejected txid
  | _ => False

/-- The cascade that `txid` goes with is written, or its own retry. -/
def WrittenBehind (ds : List Dispatcher) (txid : String) : Prop :=
  ∃ d ∈ ds, d.GoesWith statuses txid .rejected ∧ store.rejectOk = true ∨
    d.GoesWith statuses txid .pendingRetry ∧ (store.parkOk = true ∨ Rescheduled store d txid)

/-- Everybody in flight outside the batch who is held behind one of its REJECTED or PENDING_RETRY
rows is written. -/
def HeldWritten (ds : List Dispatcher) : Prop :=
  ∀ d ∈ ds, ∀ txid ∈ d.inFlight, ¬InBatch statuses txid →
    d.Behind statuses .rejected txid ∨ d.Behind statuses .pendingRetry txid →
    WrittenBehind store statuses ds txid

variable {store statuses} {dispatchers : List (Dispatcher × List Round)} {txid : String}
  {x : Dispatcher × List Round}

theorem Dispatcher.goesWith_iff {d : Dispatcher} :
    (∃ status : Status, status.cascades = true ∧ d.GoesWith statuses txid status) ↔
      d.Behind statuses .rejected txid ∨ d.Behind statuses .pendingRetry txid := by
  constructor
  · rintro ⟨status, -, h⟩
    cases status with
    | rejected => exact .inl h
    | pendingRetry => exact .inr h.1
    | _ => exact h.elim
  · intro h
    by_cases hrejected : d.Behind statuses .rejected txid
    · exact ⟨.rejected, rfl, hrejected⟩
    · exact ⟨.pendingRetry, rfl, h.resolve_left hrejected, hrejected⟩

theorem notices_toldAll (statuses : List TransactionStatus) (hx : Quiet x.2 ∧ Tidy x.1) :
    (∀ n ∈ (Target.toldAll statuses x).notices, n.status.cascades = true → ∀ txid,
      n.dispatcher.HeldBehind [] n.txid txid → x.1.GoesWith statuses txid n.status ∧
        n.dispatcher.heldMsgs.lookup txid = x.1.heldMsgs.lookup txid ∧
        (¬InBatch statuses txid → (txid ∈ n.dispatcher.inFlight ↔ txid ∈ x.1.inFlight))) ∧
    ∀ status txid, x.1.GoesWith statuses txid status → ∃ n ∈ (Target.toldAll statuses x).notices,
      n.status = status ∧ n.answered = true ∧ n.dispatcher.HeldBehind [] n.txid txid := by
  obtain ⟨hq, ht⟩ := hx
  obtain ⟨hA, newA, hnA, aboutA⟩ := Target.tell_accepted (t := ⟨x.1, x.2, []⟩) ht hq (.start ht)
    (terminals statuses .acceptedByNetwork)
  obtain ⟨hR, newR, hnR, R⟩ := Target.tell_cascades (s := .rejected) rfl (Target.quiet_tell hq) hA
    (terminals statuses .rejected)
  obtain ⟨-, newP, hnP, P⟩ := Target.tell_cascades (s := .pendingRetry) rfl
    (Target.quiet_tell (Target.quiet_tell hq)) hR (terminals statuses .pendingRetry)
  have hout : ∀ {txid}, ¬InBatch statuses txid → ∀ status : Status, status.settles = true →
      txid ∉ terminals statuses status :=
    fun hb status hs ht => hb (inBatch_of_terminals statuses hs ht)
  rw [Target.toldAll, hnP, hnR, hnA, nil_append]
  refine ⟨fun n hn hs txid hheld => ?_, fun status txid h => ?_⟩
  · rw [mem_append, mem_append] at hn
    rcases hn with (hn | hn) | hn
    · rw [aboutA n hn] at hs
      cases hs
    · obtain ⟨⟨hany, -⟩, hmsg, hin⟩ := R.found n hn txid hheld
      rw [(R.about n hn).1]
      exact ⟨hany, hmsg, fun hb => hin (hout hb _ rfl) (hout hb _ rfl)⟩
    · obtain ⟨hgoes, hmsg, hin⟩ := P.found n hn txid hheld
      rw [(P.about n hn).1]
      exact ⟨hgoes, hmsg, fun hb => hin (hout hb _ rfl)
        (not_mem_append (hout hb _ rfl) (hout hb _ rfl))⟩
  · cases status with
    | rejected =>
      obtain ⟨n, hn, hheld⟩ := R.finds txid h (by simp [HeldBehindAny])
      exact ⟨n, by simp [hn], (R.about n hn).1, (R.about n hn).2, hheld⟩
    | pendingRetry =>
      obtain ⟨n, hn, hheld⟩ := P.finds txid h.1 h.2
      exact ⟨n, by simp [hn], (P.about n hn).1, (P.about n hn).2, hheld⟩
    | _ => exact h.elim

theorem mem_toldAll {n : Notice} :
    n ∈ Target.allNotices (dispatchers.map (Target.toldAll statuses)) ↔
      ∃ x ∈ dispatchers, n ∈ (Target.toldAll statuses x).notices := by
  simp [Target.allNotices]

section

variable (hquiet : ∀ x ∈ dispatchers, Quiet x.2 ∧ Tidy x.1)
include hquiet

theorem written_iff_behind :
    Written store (Target.allNotices (dispatchers.map (Target.toldAll statuses))) txid ↔
      WrittenBehind store statuses (dispatchers.map (·.1)) txid := by
  have hraw : ∀ {d d' : Dispatcher}, d.heldMsgs.lookup txid = d'.heldMsgs.lookup txid →
      (Rescheduled store d txid ↔ Rescheduled store d' txid) := by
    intro d d' h
    rw [Rescheduled, Rescheduled, Dispatcher.heldRawTx, h, ← Dispatcher.heldRawTx]
  simp only [Written, WrittenBehind, mem_toldAll, mem_map, exists_exists_and_eq_and]
  constructor
  · rintro ⟨n, ⟨x, hx, hn⟩, -, hheld, hwritten⟩
    have hfound := (notices_toldAll statuses (hquiet x hx)).1 n hn
    refine ⟨x, hx, hwritten.imp ?_ ?_⟩
    · rintro ⟨hs, hok⟩
      exact ⟨hs ▸ (hfound (by rw [hs]; rfl) txid hheld).1, hok⟩
    · rintro ⟨hs, hok⟩
      obtain ⟨hgoes, hmsg, -⟩ := hfound (by rw [hs]; rfl) txid hheld
      exact ⟨hs ▸ hgoes, hok.imp_right (hraw hmsg).mp⟩
  · rintro ⟨x, hx, hgoes⟩
    obtain ⟨hfound, hfinds⟩ := notices_toldAll statuses (hquiet x hx)
    rcases hgoes with ⟨hgoes, hok⟩ | ⟨hgoes, hok⟩
    · obtain ⟨n, hn, hs, ha, hheld⟩ := hfinds _ _ hgoes
      exact ⟨n, ⟨x, hx, hn⟩, ha, hheld, .inl ⟨hs, hok⟩⟩
    · obtain ⟨n, hn, hs, ha, hheld⟩ := hfinds _ _ hgoes
      obtain ⟨-, hmsg, -⟩ := hfound n hn (by rw [hs]; rfl) txid hheld
      exact ⟨n, ⟨x, hx, hn⟩, ha, hheld, .inr ⟨hs, hok.imp_right (hraw hmsg).mpr⟩⟩

theorem heldWritten_iff : HeldWritten store statuses (dispatchers.map (·.1)) ↔
    NoticesWritten store statuses
      (Target.allNotices (dispatchers.map (Target.toldAll statuses))) := by
  simp only [HeldWritten, NoticesWritten, forall_mem_map, written_iff_behind hquiet, mem_toldAll]
  constructor
  · rintro h n ⟨x, hx, hn⟩ hs txid hin hheld hb
    obtain ⟨hgoes, -, hflight⟩ := (notices_toldAll statuses (hquiet x hx)).1 n hn hs txid hheld
    exact h x hx txid ((hflight hb).mp hin) hb (Dispatcher.goesWith_iff.mp ⟨_, hs, hgoes⟩)
  · intro h x hx txid hin hb hbehind
    obtain ⟨hfound, hfinds⟩ := notices_toldAll statuses (hquiet x hx)
    obtain ⟨_, hs, hgoes⟩ := Dispatcher.goesWith_iff.mpr hbehind
    obtain ⟨n, hn, rfl, -, hheld⟩ := hfinds _ _ hgoes
    exact h n ⟨x, hx, hn⟩ hs txid (((hfound n hn hs txid hheld).2.2 hb).mpr hin) hheld hb

theorem notices_quiet {maxAttempts : Nat} {now : Int} (hok : store.batchOk = true) :
    (applyTerminalStatuses maxAttempts now store statuses dispatchers).notices =
      Target.allNotices (dispatchers.map (Target.toldAll statuses)) := by
  have hstart : ∀ t ∈ dispatchers.map fun x => (⟨x.1, x.2, []⟩ : Target), Quiet t.rounds :=
    forall_mem_map.mpr fun x hx => (hquiet x hx).1
  have htell : ∀ {targets : List Target} {status : Status} {txids : List String},
      (∀ t ∈ targets, Quiet t.rounds) →
        ∀ t ∈ targets.map (Target.tell status · txids), Quiet t.rounds := by
    intro targets status txids h
    exact forall_mem_map.mpr fun t ht => Target.quiet_tell (h t ht)
  unfold applyTerminalStatuses Applied.notices
  by_cases hlen : statuses.length = 0
  · obtain rfl := eq_nil_of_length_eq_zero hlen
    rfl
  · simp only [hlen, hok, ↓reduceIte, Bool.not_true, Bool.false_eq_true]
    rw [Target.notifyAll_quiet hstart, Target.notifyAll_quiet (htell hstart),
      Target.notifyAll_quiet (htell (htell hstart)), map_map, map_map, map_map]
    rfl

end

end Before

/-- The watermark and the ledger are coupled exactly if the batch write failed, so that nothing is
marked, or every transaction in flight outside the batch that a notification finds held behind its
own is named by a cascade write that goes through. When nobody else acts during the call, these are
the transactions that are held behind REJECTED and PENDING_RETRY rows before it. -/
theorem coupled_iff_heldBehind (maxAttempts : Nat) (now : Int) (store : StoreReplies)
    (statuses : List TransactionStatus) (dispatchers : List (Dispatcher × List Round)) :
    ((applyTerminalStatuses maxAttempts now store statuses dispatchers).Coupled ↔
      store.batchOk = false ∨ NoticesWritten store statuses
        (applyTerminalStatuses maxAttempts now store statuses dispatchers).notices) ∧
    ((∀ x ∈ dispatchers, Quiet x.2 ∧ Tidy x.1) →
      ((applyTerminalStatuses maxAttempts now store statuses dispatchers).Coupled ↔
        store.batchOk = false ∨ HeldWritten store statuses (dispatchers.map (·.1)))) := by
  have hgeneral := coupled_iff_notices maxAttempts now store statuses dispatchers
  refine ⟨hgeneral, fun hquiet => hgeneral.trans ?_⟩
  cases hok : store.batchOk with
  | false => simp
  | true => rw [heldWritten_iff hquiet, notices_quiet hquiet hok]

/-- A parent out with a batch and a child held on it. -/
def heldChildEvents : List Dispatcher.Event :=
  [.admission (.fresh "p" [1] []) 0, .admission (.fresh "c" [2] ["p"]) 1, .drain]

def heldChild : Dispatcher := run Dispatcher.step .new heldChildEvents

/-- Every store call goes through but the write of the rejected cascade. -/
def cascadeWriteFails : StoreReplies :=
  { prevs := [some .received]
    batchOk := true
    rejectOk := false
    parkOk := true
    retry := fun _ => ⟨some 1, true⟩ }

def rejectedParent : Applied :=
  applyTerminalStatuses 10 0 cascadeWriteFails [⟨"p", .rejected, 0, "TX_INVALID (31)"⟩]
    [(heldChild, [])]

/-- With the cascade write the child's row is written, and its offset may be done. -/
theorem coupled_iff_heldBehind_written :
    (applyTerminalStatuses 10 0 { cascadeWriteFails with rejectOk := true }
      [⟨"p", .rejected, 0, "TX_INVALID (31)"⟩] [(heldChild, [])]).Coupled := by
  have htidy : Tidy heldChild := tidy_run (by decide +kernel)
  refine ((coupled_iff_heldBehind _ _ _ _ _).2 ?_).mpr (.inr ?_)
  · exact forall_mem_singleton.mpr ⟨by simp [Quiet], htidy⟩
  · rintro d hd txid - - (hbehind | ⟨p, hp, -⟩)
    · exact ⟨d, hd, .inl ⟨hbehind, rfl⟩⟩
    · simp [terminals] at hp

/-- The parent's rejection marks the child's offset done, and no row of the
child is ever written. -/
theorem cascadeWriteFails_uncoupled :
    (∃ n ∈ rejectedParent.notices, "c" ∈ n.marks) ∧ ¬rejectedParent.Coupled := by
  have hmarks : (rejectedParent.notices.any fun n => decide ("c" ∈ n.marks)) = true := by
    decide +kernel
  have hrejected : (rejectedParent.notices.all fun n => decide (n.status = .rejected)) = true := by
    decide +kernel
  obtain ⟨n, hn, hmark⟩ := any_eq_true.mp hmarks
  have hmark := of_decide_eq_true hmark
  refine ⟨⟨n, hn, hmark⟩, fun hc => ?_⟩
  have hwritten : InBatch [⟨"p", .rejected, 0, "TX_INVALID (31)"⟩] "c" ∨
      Written cascadeWriteFails rejectedParent.notices "c" :=
    (carries_iff_written 10 0 cascadeWriteFails _ _ (by simp) rfl "c").mp (hc n hn "c" hmark)
  rcases hwritten with ⟨st, hst, ht, -⟩ | ⟨m, hm, -, -, ⟨-, hok⟩ | ⟨hs, -⟩⟩
  · obtain rfl := mem_singleton.mp hst
    exact absurd ht (by decide)
  · cases hok
  · cases hs.symm.trans (of_decide_eq_true (all_eq_true.mp hrejected m hm))

end Arcade.Propagation
