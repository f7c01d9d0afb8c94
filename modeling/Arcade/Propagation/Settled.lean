import Arcade.Propagation.Cascade

/-!
Runs of one dispatcher in which terminal events may arrive at any time for any
transaction: a batch's own verdict, or the reaper's fan-out, which can settle a
transaction that is still held. `Coherent` ties the waiter sets to the held
messages and these to the in-flight map; a terminal event for a held
transaction breaks it, and a later cascade or release then touches a
transaction that is already settled.
-/

namespace Arcade.Propagation

open Lib

/-- Every registered waiter is held, with the parent among its parents, and
every held transaction is in flight. -/
structure Coherent (d : Dispatcher) : Prop where
  key : ∀ c m, d.heldMsgs.lookup c = some m → m.txid = c
  waits : ∀ p c, Waits d.waiters p c → ∃ m, d.heldMsgs.lookup c = some m ∧ m.HasParent p
  held : ∀ c, c ∈ d.heldMsgs → c ∈ d.inFlight

namespace Coherent

theorem new : Coherent Dispatcher.new where
  key := by intro c m h; simp [Dispatcher.new] at h
  waits := by rintro p c ⟨set, h, -⟩; simp [Dispatcher.new] at h
  held := by intro c h; simp [Dispatcher.new] at h

variable {d : Dispatcher}

section

variable (h : Coherent d) (msg : PropagationMsg)
include h

theorem place (inFlight : GoMap String Int) (hin : msg.txid ∈ d.inFlight)
    (hsame : ∀ m, d.heldMsgs.lookup msg.txid = some m → m.inputTXIDs = msg.inputTXIDs) :
    Coherent (d.place msg (Dispatcher.blocking msg inFlight)) := by
  rcases Dispatcher.place_cases d msg inFlight with ⟨-, hh, -, hw⟩ | ⟨-, hp⟩
  · refine ⟨fun c m hm => ?_, fun p c hpc => ?_, fun c hc => ?_⟩
    · rw [hh] at hm
      rcases GoMap.of_lookup_insert hm with ⟨rfl, rfl⟩ | ⟨-, hm⟩
      · rfl
      · exact h.key c m hm
    · rw [hh, GoMap.lookup_insert_eq]
      rcases (hw p c).mp hpc with hpc | ⟨hpar, -, rfl⟩
      · obtain ⟨m, hm, hpar⟩ := h.waits p c hpc
        by_cases hc : c = msg.txid
        · subst hc
          refine ⟨msg, by simp, ?_⟩
          obtain ⟨h₁, h₂, h₃⟩ := hpar
          exact ⟨hsame m hm ▸ h₁, h₂, h.key _ m hm ▸ h₃⟩
        · exact ⟨m, by simpa [hc] using hm, hpar⟩
      · exact ⟨msg, by simp, hpar⟩
    · rw [hh, AList.mem_insert] at hc
      rw [Dispatcher.place_inFlight]
      rcases hc with rfl | hc
      · exact hin
      · exact h.held c hc
  · rw [hp]
    exact ⟨h.key, h.waits, h.held⟩

theorem handleAdmit (offset : Int) : Coherent (d.handleAdmit msg offset).1 := by
  unfold Dispatcher.handleAdmit
  split
  · exact ⟨h.key, h.waits, h.held⟩
  · rename_i hnew
    have h' : Coherent { d with
        inFlight := d.inFlight.insert msg.txid offset
        tracker := d.tracker.add offset } :=
      ⟨h.key, h.waits, fun c hc => (AList.mem_insert _).mpr (.inr (h.held c hc))⟩
    apply h'.place msg d.inFlight ((AList.mem_insert _).mpr (.inl rfl))
    intro m hm
    exact absurd (h.held _ (GoMap.mem_of_lookup hm)) hnew

theorem handleRequeue
    (hsame : ∀ m, d.heldMsgs.lookup msg.txid = some m → m.inputTXIDs = msg.inputTXIDs) :
    Coherent (d.handleRequeue msg) := by
  unfold Dispatcher.handleRequeue
  split
  · rename_i hin
    exact h.place msg d.inFlight hin hsame
  · exact h

end

theorem settle (h : Coherent d) {txid : String} (hn : txid ∉ d.heldMsgs) :
    Coherent (d.settle txid) := by
  refine ⟨h.key, h.waits, fun c hc => AList.mem_erase.mpr ⟨?_, h.held c hc⟩⟩
  rintro rfl
  exact hn hc

theorem releaseWaiters (h : Coherent d) (order : MapOrder String) (parent : String) :
    Coherent (Dispatcher.releaseWaiters order d parent) := by
  obtain ⟨visited, hv, hr⟩ := Dispatcher.released_releaseWaiters order d parent
  refine ⟨fun c m hm => ?_, fun p c hw => ?_, fun c hc => ?_⟩
  · rw [hr.held] at hm
    split at hm
    · cases hm
    · exact h.key c m hm
  · rw [hr.waits, Dispatcher.waits_erase] at hw
    obtain ⟨⟨hp, hw⟩, hkept⟩ := hw
    obtain ⟨m, hm, hpar⟩ := h.waits p c hw
    refine ⟨m, ?_, hpar⟩
    rw [hr.held]
    split
    · -- A released child leaves the sets of all its parents but the one processed.
      rename_i hrel
      obtain ⟨msg, hmsg⟩ := Option.isSome_iff_exists.mp hrel.2
      have heq := ((Dispatcher.canRelease_eq_some _ _ _ _).mp hmsg).1
      obtain rfl : m = msg := Option.mem_unique hm heq
      have hkey := h.key c m hm
      exact absurd ⟨hrel.1, hp, hpar.2.1, hkey ▸ hpar.2.2, m, hmsg, hpar.1⟩ hkept
    · exact hm
  · rw [hr.inFlight]
    obtain ⟨m, hm⟩ := (GoMap.mem_iff_lookup _ c).mp hc
    rw [hr.held] at hm
    split at hm
    · cases hm
    · exact h.held c (GoMap.mem_of_lookup hm)

theorem cascadeRound {s s' : Dispatcher × List CascadedTx} {parent : String}
    {visited : List String} (h : Coherent s.1) (hc : Dispatcher.Cascaded parent visited
      ({ s.1 with waiters := s.1.waiters.erase parent }, s.2) s') : Coherent s'.1 := by
  refine ⟨fun c m hm => ?_, fun p c hw => ?_, fun c hcm => ?_⟩
  · rw [hc.held] at hm
    split at hm
    · cases hm
    · exact h.key c m hm
  · rw [hc.waits, Dispatcher.waits_erase] at hw
    obtain ⟨⟨hp, hw⟩, hkept⟩ := hw
    obtain ⟨m, hm, hpar⟩ := h.waits p c hw
    refine ⟨m, ?_, hpar⟩
    rw [hc.held]
    split
    · rename_i hv
      have hkey := h.key c m hm
      exact absurd ⟨hv, hp, hpar.2.1, hkey ▸ hpar.2.2, m, hm, hpar.1⟩ hkept
    · exact hm
  · obtain ⟨m, hm⟩ := (GoMap.mem_iff_lookup _ c).mp hcm
    rw [hc.held] at hm
    split at hm
    · cases hm
    · rename_i hv
      rw [GoMap.mem_iff_lookup]
      simpa [hc.inFlight, hv] using (GoMap.mem_iff_lookup _ c).mp (h.held c (GoMap.mem_of_lookup hm))

theorem registered (h : Coherent d) : Registered d := by
  intro p c hw
  obtain ⟨m, hm, hinput, hempty, hself⟩ := h.waits p c hw
  exact ⟨m, hm, hinput, hempty, h.key c m hm ▸ hself⟩

/-- In a coherent state a cascade returns held transactions only, and it is
closed: whoever is left waits on nobody that the cascade settled. -/
theorem cascadeReject (h : Coherent d) (order : MapOrder String) (rejected : String) :
    Coherent (Dispatcher.cascadeReject order d rejected).1 ∧
    (∀ c, Dispatcher.InCascade (Dispatcher.cascadeReject order d rejected).2 c → c ∈ d.heldMsgs) ∧
    (∀ p c, Waits d.waiters p c →
      ¬Dispatcher.InCascade (Dispatcher.cascadeReject order d rejected).2 c →
      Waits (Dispatcher.cascadeReject order d rejected).1.waiters p c ∧ p ≠ rejected ∧
        ¬Dispatcher.InCascade (Dispatcher.cascadeReject order d rejected).2 p) := by
  have hc := Dispatcher.cascading_cascadeReject order h.registered rejected
  refine ⟨?_, fun c hin => ?_, fun p c hw hn => hc.closed hw hn⟩
  · exact Dispatcher.cascadeLoop_rule order (fun _ s => Coherent s.1)
      (fun _ _ _ _ _ hcoh _ hround => hcoh.cascadeRound hround) [rejected] (d, []) h
  · -- The last edge of the path to `c` makes it a waiter.
    obtain ⟨p, -, hw⟩ := Relation.TransGen.tail'_iff.mp ((hc.inCascade_iff c).mp hin)
    obtain ⟨m, hm, -⟩ := h.waits p c hw
    exact GoMap.mem_of_lookup hm

theorem handleTerminal (h : Coherent d) (order : MapOrder String) (txid : String)
    (status : Status) (hn : status.settles → txid ∉ d.heldMsgs) :
    Coherent (d.handleTerminal order txid status).1 := by
  cases status with
  | acceptedByNetwork => exact (h.settle (hn rfl)).releaseWaiters order txid
  | rejected | pendingRetry => exact ((h.settle (hn rfl)).cascadeReject order txid).1
  | _ => exact h

end Coherent

namespace Dispatcher

/-! ## Runs -/

inductive Event where
  | admission (msg : PropagationMsg) (offset : Int)
  | requeue (msg : PropagationMsg)
  | terminal (order : MapOrder String) (txid : String) (status : Status)
  | drain

def step (d : Dispatcher) : Event → Dispatcher
  | .admission msg offset => (d.handleAdmit msg offset).1
  | .requeue msg => d.handleRequeue msg
  | .terminal order txid status => (d.handleTerminal order txid status).1
  | .drain => d.drain.1

/-- The messages an event appended to `pendingMsgs`. -/
def appended (before after : Dispatcher) : List PropagationMsg :=
  after.pendingMsgs.drop before.pendingMsgs.length

/-- A terminal event touches transactions in flight only: every cascaded one was
in flight before the event, and every released one is in flight when it is
appended. -/
def TouchesInFlight (d : Dispatcher) : Event → Prop
  | .terminal order txid status =>
    (∀ x ∈ (d.handleTerminal order txid status).2, x.txid ∈ d.inFlight) ∧
    (∀ m ∈ appended d (d.handleTerminal order txid status).1,
      m.txid ∈ (d.handleTerminal order txid status).1.inFlight)
  | _ => True

/-- No verdict settles a transaction that is held at that moment, and a requeue
for a held transaction names the inputs of the held message. -/
def SparesHeld (d : Dispatcher) : Event → Prop
  | .requeue msg => ∀ m ∈ d.heldMsgs.lookup msg.txid, m.inputTXIDs = msg.inputTXIDs
  | .terminal _ txid status => status.settles → txid ∉ d.heldMsgs
  | _ => True

instance (d : Dispatcher) : (e : Event) → Decidable (d.TouchesInFlight e)
  | .terminal _ _ _ => inferInstanceAs (Decidable (_ ∧ _))
  | .admission _ _ | .requeue _ | .drain => isTrue trivial

instance (d : Dispatcher) : (e : Event) → Decidable (d.SparesHeld e)
  | .requeue msg => inferInstanceAs (Decidable (∀ m ∈ d.heldMsgs.lookup msg.txid, _))
  | .terminal _ _ _ => inferInstanceAs (Decidable (_ → _))
  | .admission _ _ | .drain => isTrue trivial

variable {d : Dispatcher}

theorem step_coherent {e : Event} (h : Coherent d) (hs : d.SparesHeld e) : Coherent (d.step e) := by
  cases e with
  | admission msg offset => exact h.handleAdmit msg offset
  | requeue msg => exact h.handleRequeue msg hs
  | terminal order txid status => exact h.handleTerminal order txid status hs
  | drain => exact ⟨h.key, h.waits, h.held⟩

theorem appended_releaseWaiters (h : Coherent d) (order : MapOrder String) (parent : String) :
    ∀ m ∈ appended d (releaseWaiters order d parent),
      m.txid ∈ (releaseWaiters order d parent).inFlight := by
  intro m hm
  obtain ⟨visited, -, hr⟩ := released_releaseWaiters order d parent
  rw [appended, hr.pending, List.drop_left] at hm
  obtain ⟨c, -, hc⟩ := List.mem_filterMap.mp hm
  have hheld := ((canRelease_eq_some _ _ _ _).mp hc).1
  rw [hr.inFlight, h.key c m hheld]
  exact h.held c (GoMap.mem_of_lookup hheld)

theorem touchesInFlight_of_coherent {e : Event} (h : Coherent d)
    (hs : d.SparesHeld e) : d.TouchesInFlight e := by
  cases e with
  | terminal order txid status =>
    have hcascade : status.settles → ∀ x ∈ (cascadeReject order (d.settle txid) txid).2,
        x.txid ∈ d.inFlight := by
      intro hset x hx
      exact h.held _ (((h.settle (hs hset)).cascadeReject order txid).2.1 _ ⟨x, hx, rfl⟩)
    have hnone : ∀ m ∈ appended d (cascadeReject order (d.settle txid) txid).1,
        m.txid ∈ (cascadeReject order (d.settle txid) txid).1.inFlight := by
      intro m hm
      rw [appended, (cascadeReject_result order (d.settle txid) txid).pending] at hm
      simp at hm
    cases status with
    | acceptedByNetwork =>
      exact ⟨by simp [Dispatcher.handleTerminal],
        appended_releaseWaiters (h.settle (hs rfl)) order txid⟩
    | rejected => exact ⟨hcascade rfl, hnone⟩
    | pendingRetry => exact ⟨hcascade rfl, hnone⟩
    | _ => exact ⟨by simp [Dispatcher.handleTerminal], by simp [Dispatcher.handleTerminal, appended]⟩
  | _ => trivial

/-- As long as no verdict settles a held transaction, no terminal event of the
run ever cascades or re-dispatches a transaction that is already settled. -/
theorem settled_never_touched (es : List Event) (h : AllSteps step SparesHeld .new es) :
    AllSteps step TouchesInFlight .new es := by
  have hall : ∀ (es : List Event) (d : Dispatcher), Coherent d →
      AllSteps step SparesHeld d es → AllSteps step TouchesInFlight d es := by
    intro es
    induction es with
    | nil => intros; trivial
    | cons e es ih =>
      intro d hd hs
      exact ⟨touchesInFlight_of_coherent hd hs.1, ih _ (step_coherent hd hs.1) hs.2⟩
  exact hall es .new .new h

/-- A parent, its child and its grandchild; the parent is rejected. -/
def rejectedChain : List Event :=
  [.admission (.fresh "p" [1] []) 0, .admission (.fresh "c" [2] ["p"]) 1,
    .admission (.fresh "g" [3] ["c"]) 2, .drain,
    .terminal (.stored String) "p" .rejected]

theorem settled_never_touched_rejectedChain :
    AllSteps step SparesHeld .new rejectedChain ∧ AllSteps step TouchesInFlight .new rejectedChain :=
  ⟨by decide +kernel, settled_never_touched rejectedChain (by decide +kernel)⟩

/-- The child is accepted off the reaper's path while it is held on its parent;
the parent's rejection then cascades over the settled child. -/
def heldChildSettled : List Event :=
  [.admission (.fresh "p" [1] []) 0, .admission (.fresh "c" [2] ["p"]) 1, .drain,
    .terminal (.stored String) "c" .acceptedByNetwork,
    .terminal (.stored String) "p" .rejected]

theorem heldChildSettled_cascades_settled :
    ¬ AllSteps step TouchesInFlight .new heldChildSettled := by
  decide +kernel

end Dispatcher

end Arcade.Propagation
