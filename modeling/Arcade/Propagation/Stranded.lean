import Arcade.Propagation.Batches

/-!
Whether a held transaction can still be reached. A held child is released or
cascaded only by a terminal event of a parent that it is registered on. An
acceptance of one parent drops the child's registration there, so a child that
stays held because of a parent admitted after it is left with no registration.
That is the only way to strand a transaction.
-/

namespace Arcade.Propagation

open Lib List

namespace Dispatcher

/-- `child` waits on a parent of its held message that is still in flight. -/
def Reachable (d : Dispatcher) (child : String) (m : PropagationMsg) : Prop :=
  ∃ p ∈ m.inputTXIDs, p ≠ child ∧ p ∈ d.inFlight ∧ Waits d.waiters p child

def NoneStranded (d : Dispatcher) : Prop :=
  ∀ c, ∀ m ∈ d.heldMsgs.lookup c, c ∈ d.inFlight ∧ d.Reachable c m

/-- `m` has a parent other than `accepted` in flight. -/
def StaysHeld (d : Dispatcher) (accepted : String) (m : PropagationMsg) : Prop :=
  ∃ q ∈ m.inputTXIDs, q ≠ "" ∧ q ≠ m.txid ∧ q ≠ accepted ∧ q ∈ d.inFlight

/-- Every child that `accepted` cannot release yet is registered on another
parent in flight. -/
def KeepsWaiters (d : Dispatcher) (accepted : String) : Prop :=
  ∀ c ∈ d.children accepted, ∀ m ∈ d.heldMsgs.lookup c, d.StaysHeld accepted m →
    ∃ q ∈ m.inputTXIDs, q ≠ c ∧ q ≠ accepted ∧ q ∈ d.inFlight ∧ Waits d.waiters q c

instance (d : Dispatcher) (accepted : String) (m : PropagationMsg) :
    Decidable (d.StaysHeld accepted m) :=
  inferInstanceAs (Decidable (∃ q ∈ m.inputTXIDs, _))

instance (d : Dispatcher) (accepted : String) : Decidable (d.KeepsWaiters accepted) :=
  inferInstanceAs (Decidable (∀ c ∈ d.children accepted, ∀ m ∈ d.heldMsgs.lookup c, _))

/-! ## What one operation does -/

variable {d : Dispatcher}

theorem NoneStranded.place (h : NoneStranded d) {msg : PropagationMsg}
    (inFlight : GoMap String Int) (hin : msg.txid ∈ d.inFlight)
    (hsub : ∀ p, p ∈ inFlight → p ∈ d.inFlight) :
    NoneStranded (d.place msg (blocking msg inFlight)) := by
  rcases place_cases d msg inFlight with ⟨⟨p, hpar, hp⟩, hh, -, hw⟩ | ⟨-, hp⟩
  · intro c m hm
    rw [place_inFlight]
    rw [hh] at hm
    rcases GoMap.of_lookup_insert hm with ⟨rfl, rfl⟩ | ⟨-, hm⟩
    · refine ⟨hin, p, hpar.1, hpar.2.2, ?_, (hw p _).mpr (.inr ⟨hpar, hp, rfl⟩)⟩
      rw [place_inFlight]
      exact hsub p hp
    · obtain ⟨hcin, q, hq, hne, hqin, hqw⟩ := h c m hm
      refine ⟨hcin, q, hq, hne, ?_, (hw q c).mpr (.inl hqw)⟩
      rw [place_inFlight]
      exact hqin
  · rw [hp]
    exact h

theorem NoneStranded.enter (h : NoneStranded d) (txid : String) (offset : Int) (t : OffsetTracker) :
    NoneStranded { d with inFlight := d.inFlight.insert txid offset, tracker := t } := by
  intro c m hm
  obtain ⟨hcin, q, hq, hne, hqin, hqw⟩ := h c m hm
  exact ⟨(AList.mem_insert _).mpr (.inr hcin), q, hq, hne,
    (AList.mem_insert _).mpr (.inr hqin), hqw⟩

/-- A cascade strands nobody: whoever is left waits on a parent that the
cascade did not settle. -/
theorem NoneStranded.cascadeReject (h : NoneStranded d) (hcoh : Coherent d)
    {txid : String} (hheld : txid ∉ d.heldMsgs) (order : MapOrder String) :
    NoneStranded (cascadeReject order (d.settle txid) txid).1 := by
  have hres := cascadeReject_result order (d.settle txid) txid
  obtain ⟨hcoh', -, hclosed⟩ := (hcoh.settle hheld).cascadeReject order txid
  intro c m hm
  obtain ⟨hmd, hnc⟩ := (hres.held c m).mp hm
  obtain ⟨-, q, hq, hne, hqin, hqw⟩ := h c m hmd
  obtain ⟨hw, hqt, hnq⟩ := hclosed q c hqw hnc
  refine ⟨hcoh'.held c (GoMap.mem_of_lookup hm), q, hq, hne, ?_, hw⟩
  obtain ⟨o, ho⟩ := (GoMap.mem_iff_lookup _ q).mp hqin
  have hos : (d.settle txid).inFlight.lookup q = some o := by
    rw [settle_inFlight, AList.lookup_erase_ne hqt]
    exact ho
  exact GoMap.mem_of_lookup ((hres.inFlight q o).mpr ⟨hos, hnq⟩)

theorem canRelease_settle_isSome {c txid : String} {m : PropagationMsg} (hcoh : Coherent d)
    (hm : d.heldMsgs.lookup c = some m) :
    (canRelease c (d.settle txid).inFlight (d.settle txid).heldMsgs).isSome ↔
      ¬d.StaysHeld txid m := by
  have hkey := hcoh.key c m hm
  rw [Option.isSome_iff_exists]
  constructor
  · rintro ⟨m', hm'⟩ ⟨q, hq, hne, hqc, hqt, hqin⟩
    obtain ⟨hl, hfree⟩ := (canRelease_eq_some _ _ _ _).mp hm'
    obtain rfl : m = m' := Option.mem_unique hm hl
    exact hfree q hq hne (hkey ▸ hqc) (AList.mem_erase.mpr ⟨hqt, hqin⟩)
  · intro hn
    refine ⟨m, (canRelease_eq_some _ _ _ _).mpr ⟨hm, fun q hq hne hqc hqin => ?_⟩⟩
    obtain ⟨hqt, hqin⟩ := AList.mem_erase.mp hqin
    exact hn ⟨q, hq, hne, hkey.symm ▸ hqc, hqt, hqin⟩

/-- An acceptance strands nobody exactly when every child that stays held keeps
a registration. -/
theorem noneStranded_releaseWaiters (h : NoneStranded d) (hcoh : Coherent d)
    {txid : String} (hheld : txid ∉ d.heldMsgs) (order : MapOrder String) :
    NoneStranded (releaseWaiters order (d.settle txid) txid) ↔ d.KeepsWaiters txid := by
  obtain ⟨visited, hv, hr⟩ := released_releaseWaiters order (d.settle txid) txid
  have hvis : ∀ c, c ∈ visited ↔ c ∈ d.children txid := fun c => hv.mem_iff
  have hkeep : ∀ c m, d.heldMsgs.lookup c = some m →
      (c ∈ visited ∧ (canRelease c (d.settle txid).inFlight (d.settle txid).heldMsgs).isSome ↔
        c ∈ d.children txid ∧ ¬d.StaysHeld txid m) := by
    intro c m hm
    rw [hvis, canRelease_settle_isSome hcoh hm]
  constructor
  · intro hs c hc m hm hst
    have hheld' : (releaseWaiters order (d.settle txid) txid).heldMsgs.lookup c = some m := by
      rw [hr.held, if_neg]
      · exact hm
      · exact fun hx => ((hkeep c m hm).mp hx).2 hst
    obtain ⟨-, q, hq, hne, hqin, hqw⟩ := hs c m hheld'
    rw [hr.inFlight] at hqin
    obtain ⟨hqw, -⟩ := (hr.waits q c).mp hqw
    obtain ⟨hqt, hqw⟩ := (waits_erase _ _ _ _).mp hqw
    exact ⟨q, hq, hne, hqt, (AList.mem_erase.mp hqin).2, hqw⟩
  · intro hk c m hm
    rw [Option.mem_def, hr.held] at hm
    split at hm
    · cases hm
    · rename_i hn
      have hmd : d.heldMsgs.lookup c = some m := hm
      obtain ⟨hcin, q, hq, hne, hqin, hqw⟩ := h c m hmd
      have hct : c ≠ txid := by
        rintro rfl
        exact hheld (GoMap.mem_of_lookup hmd)
      -- A child registered on the accepted parent needs the condition; another one keeps `q`.
      have hother : ∃ q ∈ m.inputTXIDs, q ≠ c ∧ q ≠ txid ∧ q ∈ d.inFlight ∧
          Waits d.waiters q c := by
        by_cases hc : c ∈ d.children txid
        · have hst : d.StaysHeld txid m := by
            by_contra hst
            exact hn ((hkeep c m hmd).mpr ⟨hc, hst⟩)
          exact hk c hc m hmd hst
        · refine ⟨q, hq, hne, ?_, hqin, hqw⟩
          rintro rfl
          exact hc ((mem_children d q c).mpr hqw)
      obtain ⟨q, hq, hne, hqt, hqin, hqw⟩ := hother
      rw [Reachable, hr.inFlight]
      refine ⟨AList.mem_erase.mpr ⟨hct, hcin⟩, q, hq, hne, AList.mem_erase.mpr ⟨hqt, hqin⟩, ?_⟩
      refine (hr.waits q c).mpr ⟨(waits_erase _ _ _ _).mpr ⟨hqt, hqw⟩, ?_⟩
      rintro ⟨hcv, -, -, -, m', hm', -⟩
      exact hn ⟨hcv, by rw [hm']; rfl⟩

end Dispatcher

namespace Pipeline

/-! ## Runs -/

/-- The condition on one step: an acceptance leaves every child that stays held
registered on another parent in flight. -/
def KeepsWaiters (w : Pipeline) : Dispatcher.Event → Prop
  | .terminal _ txid .acceptedByNetwork => w.dispatcher.KeepsWaiters txid
  | _ => True

instance (w : Pipeline) : (e : Dispatcher.Event) → Decidable (w.KeepsWaiters e)
  | .terminal _ txid status =>
    match status with
    | .acceptedByNetwork => inferInstanceAs (Decidable (w.dispatcher.KeepsWaiters txid))
    | .unknown | .received | .sentToNetwork | .seenOnNetwork | .seenMultipleNodes
    | .doubleSpendAttempted | .rejected | .pendingRetry | .stumpProcessing | .mined
    | .immutable => isTrue trivial
  | .admission _ _ | .requeue _ | .drain => isTrue trivial

theorem step_noneStranded {w : Pipeline} {e : Dispatcher.Event}
    (h : Located none w.dispatcher w.live) (hs : w.dispatcher.NoneStranded) (ho : w.OwnsBatch e) :
    (w.step e).dispatcher.NoneStranded ↔ w.KeepsWaiters e := by
  have hcases := step_effect h ho
  cases hcases with
  | quiet hne _ _ hin hw hh =>
    refine iff_of_true ?_ ?_
    · intro c m hm
      rw [Dispatcher.Reachable, hin, hw]
      rw [hh] at hm
      exact hs c m hm
    · cases e with
      | terminal order txid status =>
        cases status with
        | acceptedByNetwork => exact absurd rfl (hne order txid)
        | _ => trivial
      | _ => trivial
  | enter msg offset d hnew hd _ hp _ =>
    refine iff_of_true ?_ trivial
    rw [hp, hd]
    refine (hs.enter msg.txid offset _).place w.dispatcher.inFlight
      ((AList.mem_insert _).mpr (.inl rfl)) fun p hp => ?_
    exact (AList.mem_insert _).mpr (.inr hp)
  | requeue msg m hm hsame _ hp _ =>
    refine iff_of_true ?_ trivial
    rw [hp]
    have hin := (h.inFlight m (mem_append_right _ hm)).1
    exact hs.place w.dispatcher.inFlight (hsame.1 ▸ hin) fun _ hp => hp
  | release order m hm _ hr _ =>
    rw [hr]
    exact Dispatcher.noneStranded_releaseWaiters hs h.coherent
      (h.inFlight m (mem_append_right _ hm)).2 order
  | cascade order m status hm hst _ hr _ =>
    refine iff_of_true ?_ ?_
    · rw [hr]
      exact hs.cascadeReject h.coherent (h.inFlight m (mem_append_right _ hm)).2 order
    · rcases hst with rfl | rfl <;> trivial

/-- A run strands nobody exactly when each of its acceptances leaves the
children it cannot release yet registered on another parent in flight. -/
theorem noneStranded_iff_keepsWaiters (es : List Dispatcher.Event)
    (ho : AllSteps step OwnsBatch .new es) :
    (∀ w ∈ states step .new es, w.dispatcher.NoneStranded) ↔
      AllSteps step KeepsWaiters .new es := by
  refine states_iff_allSteps (J := fun w : Pipeline => Located none w.dispatcher w.live)
    (P := fun w : Pipeline => w.dispatcher.NoneStranded)
    (fun w e h ho => step_located h ho) (fun w e h hs ho => step_noneStranded h hs ho)
    Located.new ?_ ho
  intro c m hm
  simp [new, Dispatcher.new] at hm

/-- Both parents are admitted before the child, which waits on both. -/
def twoParents : List Dispatcher.Event :=
  [.admission (.fresh "p" [1] []) 0, .admission (.fresh "q" [2] []) 1,
    .admission (.fresh "c" [3] ["p", "q"]) 2, .drain,
    .terminal (.stored String) "p" .acceptedByNetwork,
    .terminal (.stored String) "q" .acceptedByNetwork]

theorem noneStranded_iff_keepsWaiters_twoParents : AllSteps step OwnsBatch .new twoParents ∧
    ((∀ w ∈ states step .new twoParents, w.dispatcher.NoneStranded) ↔
      AllSteps step KeepsWaiters .new twoParents) ∧
    AllSteps step KeepsWaiters .new twoParents :=
  ⟨by decide +kernel, noneStranded_iff_keepsWaiters twoParents (by decide +kernel),
    by decide +kernel⟩

/-- The child is held on `p` when its other parent `q` is admitted. -/
def lateParent : List Dispatcher.Event :=
  [.admission (.fresh "p" [1] []) 0, .admission (.fresh "c" [2] ["p", "q"]) 1,
    .admission (.fresh "q" [3] []) 2, .drain,
    .terminal (.stored String) "p" .acceptedByNetwork,
    .terminal (.stored String) "q" .acceptedByNetwork]

/-- The child is still held at the end, and no transaction it could wait on is
in flight. -/
theorem lateParent_strands : AllSteps step OwnsBatch .new lateParent ∧
    ∃ w ∈ states step .new lateParent,
      "c" ∈ w.dispatcher.heldMsgs ∧ ¬w.dispatcher.NoneStranded := by
  refine ⟨by decide +kernel, run step .new lateParent, ?_, by decide +kernel, fun h => ?_⟩
  · exact (mem_states_iff _ _ _ _).mpr ⟨lateParent, [], by simp, rfl⟩
  · have hheld : (run step .new lateParent).dispatcher.heldMsgs.lookup "c" =
        some (.fresh "c" [2] ["p", "q"]) := by decide +kernel
    obtain ⟨-, p, hp, -, hin, -⟩ := h "c" _ hheld
    have hout : ∀ p ∈ ["p", "q"], p ∉ (run step .new lateParent).dispatcher.inFlight := by
      decide +kernel
    exact hout p hp hin

end Pipeline

end Arcade.Propagation
