import Arcade.Propagation.Settled
import Arcade.Propagation.Watermark

/-!
The loop of `runDispatcher` over a partition claim: claim messages, requeues,
terminal events, drains and flush ticks, with the calls of `MarkMessage` that it
makes. The watermark bookkeeping is exact in every run. The direct mark of a
malformed message goes around it, and only that can commit past a transaction
that is still in flight.
-/

namespace Arcade.Propagation

open Lib List

/-- `pushed` are the messages put on the mark queue, `advanced` and `dropped` the
calls of `MarkMessage`: those made by `advance`, and those for malformed
messages. -/
structure Loop where
  dispatcher : Dispatcher
  marks : MarkQueue
  pushed : List KafkaMessage
  advanced : List KafkaMessage
  dropped : List KafkaMessage

namespace Loop

inductive Event where
  | claimMessage (msg : KafkaMessage)
  | requeue (msg : PropagationMsg)
  | terminal (order : MapOrder String) (txid : String) (status : Status)
  | drain
  /-- `slotFree` says whether a `processBatch` slot could be acquired. -/
  | flushTick (slotFree : Bool)
  /-- The context is done or the claim's channel is closed: the final advance. -/
  | stop

def new : Loop := ⟨.new, .new, [], [], []⟩

/-- What the loop admits: a payload that decodes and has a raw transaction. -/
def wellFormed (msg : KafkaMessage) : Option PropagationMsg :=
  match msg.value with
  | none => none
  | some propMsg => if propMsg.rawTx.length = 0 then none else some propMsg

def take (s : Loop) (msg : KafkaMessage) : Loop :=
  match wellFormed msg with
  | none => { s with dropped := s.dropped ++ [msg] }
  | some propMsg =>
    { s with
      dispatcher := (s.dispatcher.handleAdmit propMsg msg.offset).1
      marks := s.marks.push msg
      pushed := s.pushed ++ [msg] }

/-- `marks.advance(claim, tracker)`. -/
def advance (s : Loop) : Loop :=
  let (marks, tracker, marked) := s.marks.advance s.dispatcher.tracker
  { s with
    dispatcher := { s.dispatcher with tracker := tracker }
    marks := marks
    advanced := s.advanced ++ marked }

def drain (s : Loop) : Loop := { s with dispatcher := s.dispatcher.drain.1 }

/-- Backpressure: the claim takes part in the select only while fewer than
`maxPending` messages are pending. -/
def HasRoom (maxPending : Int) (s : Loop) : Prop :=
  maxPending ≤ 0 ∨ s.dispatcher.pendingMsgs.length < maxPending

instance (maxPending : Int) (s : Loop) : Decidable (HasRoom maxPending s) :=
  inferInstanceAs (Decidable (_ ∨ _))

/-- One round of the select. A claim message that there is no room for stays in
its channel. -/
def step (maxPending : Int) (s : Loop) : Event → Loop
  | .claimMessage msg => if HasRoom maxPending s then s.take msg else s
  | .requeue msg => { s with dispatcher := s.dispatcher.handleRequeue msg }
  | .terminal order txid status =>
    { s with dispatcher := (s.dispatcher.handleTerminal order txid status).1 }
  | .drain => s.drain
  | .flushTick slotFree =>
    if s.dispatcher.pendingMsgs.length = 0 then s.advance
    else if slotFree then s.advance.drain else s.advance
  | .stop => s.advance

/-- The claim delivers messages with strictly increasing offsets. -/
def Increasing (s : Loop) : Event → Prop
  | .claimMessage msg => ∀ m ∈ s.pushed ++ s.dropped, m.offset < msg.offset
  | _ => True

instance (s : Loop) : (e : Event) → Decidable (Increasing s e)
  | .claimMessage _ => inferInstanceAs (Decidable (∀ m ∈ s.pushed ++ s.dropped, _))
  | .requeue _ | .terminal _ _ _ | .drain | .flushTick _ | .stop => isTrue trivial

def Event.advances : Event → Bool
  | .flushTick _ | .stop => true
  | _ => false

/-! ## The tracker follows the in-flight map -/

/-- The unfinished offsets are the offsets of the in-flight map, and no two
transactions share one. -/
structure Tracks (d : Dispatcher) : Prop where
  nodup : d.tracker.heap.items.Nodup
  unfinished : ∀ o, d.tracker.Unfinished o ↔ ∃ t, d.inFlight.lookup t = some o
  inj : ∀ t t' o, d.inFlight.lookup t = some o → d.inFlight.lookup t' = some o → t = t'

namespace Tracks

variable {d : Dispatcher}

theorem new : Tracks .new where
  nodup := nodup_nil
  unfinished := by
    intro o
    simp [OffsetTracker.Unfinished, Dispatcher.new, OffsetTracker.new]
  inj := by simp [Dispatcher.new]

theorem handleAdmit (h : Tracks d) {offset : Int} (hn : ¬d.tracker.Knows offset)
    (msg : PropagationMsg) : Tracks (d.handleAdmit msg offset).1 := by
  have hnodup : (d.tracker.add offset).heap.items.Nodup :=
    MinHeap.nodup_push (fun hm => hn (.inl hm)) h.nodup
  have hfresh : ∀ t, d.inFlight.lookup t ≠ some offset := by
    intro t ht
    exact hn (.inl ((h.unfinished offset).mpr ⟨t, ht⟩).1)
  unfold Dispatcher.handleAdmit
  split
  · refine ⟨hnodup, fun o => ?_, h.inj⟩
    rw [OffsetTracker.unfinished_markDone, OffsetTracker.unfinished_add hn, ← h.unfinished]
    constructor
    · rintro ⟨rfl | ho, hne⟩
      · exact absurd rfl hne
      · exact ho
    · intro ho
      refine ⟨.inr ho, ?_⟩
      rintro rfl
      exact hn (.inl ho.1)
  · rename_i hnew
    have hnone : d.inFlight.lookup msg.txid = none := AList.lookup_eq_none.mpr hnew
    refine ⟨?_, fun o => ?_, fun t t' o ht ht' => ?_⟩
    · rw [Dispatcher.place_tracker]
      exact hnodup
    · rw [Dispatcher.place_tracker, Dispatcher.place_inFlight]
      simp only [OffsetTracker.unfinished_add hn, h.unfinished, GoMap.lookup_insert_eq]
      constructor
      · rintro (rfl | ⟨t, ht⟩)
        · exact ⟨msg.txid, by simp⟩
        · refine ⟨t, ?_⟩
          rw [if_neg]
          · exact ht
          · rintro rfl
            simp [hnone] at ht
      · rintro ⟨t, ht⟩
        split at ht
        · exact .inl (Option.some.inj ht).symm
        · exact .inr ⟨t, ht⟩
    · rw [Dispatcher.place_inFlight] at ht ht'
      simp only [GoMap.lookup_insert_eq] at ht ht'
      split at ht <;> split at ht'
      · simp_all
      · obtain rfl := Option.some.inj ht
        exact absurd ht' (hfresh t')
      · obtain rfl := Option.some.inj ht'
        exact absurd ht (hfresh t)
      · exact h.inj t t' o ht ht'

end Tracks

/-- `d'` is `d` with some transactions taken out of flight and their offsets
done. -/
structure Shrinks (d d' : Dispatcher) : Prop where
  tracks : Tracks d → Tracks d'
  knows : Tracks d → ∀ o, d'.tracker.Knows o → d.tracker.Knows o
  inFlight : ∀ t o, d'.inFlight.lookup t = some o → d.inFlight.lookup t = some o

namespace Shrinks

variable {d d' d'' : Dispatcher}

theorem trans (h : Shrinks d d') (h' : Shrinks d' d'') : Shrinks d d'' where
  tracks := fun ht => h'.tracks (h.tracks ht)
  knows := fun ht o ho => h.knows ht o (h'.knows (h.tracks ht) o ho)
  inFlight := fun t o ho => h.inFlight t o (h'.inFlight t o ho)

theorem of_eq (hi : d'.inFlight = d.inFlight) (ht : d'.tracker = d.tracker) : Shrinks d d' where
  tracks := fun h => ⟨by rw [ht]; exact h.nodup, by rw [ht, hi]; exact h.unfinished,
    by rw [hi]; exact h.inj⟩
  knows := by rw [ht]; exact fun _ _ ho => ho
  inFlight := by rw [hi]; exact fun _ _ ho => ho

theorem of_settled {P : String → Prop} (hheap : d'.tracker.heap = d.tracker.heap)
    (hdone : ∀ o, o ∈ d'.tracker.done ↔ o ∈ d.tracker.done ∨
      ∃ t, P t ∧ d.inFlight.lookup t = some o)
    (hin : ∀ t o, d'.inFlight.lookup t = some o ↔ d.inFlight.lookup t = some o ∧ ¬P t) :
    Shrinks d d' where
  tracks := by
    intro h
    refine ⟨by rw [hheap]; exact h.nodup, fun o => ?_, fun t t' o ht ht' => ?_⟩
    · rw [OffsetTracker.Unfinished, hheap, hdone, not_or, ← and_assoc]
      change d.tracker.Unfinished o ∧ _ ↔ _
      simp only [h.unfinished, hin]
      constructor
      · rintro ⟨⟨t, ht⟩, hn⟩
        exact ⟨t, ht, fun hc => hn ⟨t, hc, ht⟩⟩
      · rintro ⟨t, ht, hn⟩
        refine ⟨⟨t, ht⟩, ?_⟩
        rintro ⟨t', hc, ht'⟩
        exact hn (h.inj t' t o ht' ht ▸ hc)
    · exact h.inj t t' o ((hin t o).mp ht).1 ((hin t' o).mp ht').1
  knows := by
    intro h o ho
    rw [OffsetTracker.Knows, hheap, hdone] at ho
    rcases ho with ho | ho | ⟨t, -, ho⟩
    · exact .inl ho
    · exact .inr ho
    · exact .inl ((h.unfinished o).mpr ⟨t, ho⟩).1
  inFlight := fun t o ho => ((hin t o).mp ho).1

theorem settle (d : Dispatcher) (txid : String) : Shrinks d (d.settle txid) := by
  refine of_settled (P := (· = txid)) (Dispatcher.settle_heap d txid) (fun o => ?_) fun t o => ?_
  · simp [Dispatcher.mem_settle_done]
  · rw [Dispatcher.settle_inFlight, GoMap.lookup_erase_eq]
    by_cases ht : t = txid <;> simp [ht]

theorem cascadeReject (order : MapOrder String) (d : Dispatcher) (rejected : String) :
    Shrinks d (Dispatcher.cascadeReject order d rejected).1 :=
  have hres := Dispatcher.cascadeReject_result order d rejected
  of_settled hres.heap hres.done hres.inFlight

theorem handleTerminal (order : MapOrder String) (d : Dispatcher) (txid : String)
    (status : Status) : Shrinks d (d.handleTerminal order txid status).1 := by
  have hsettle := settle d txid
  cases status with
  | acceptedByNetwork =>
    obtain ⟨visited, -, hr⟩ := Dispatcher.released_releaseWaiters order (d.settle txid) txid
    exact hsettle.trans (of_eq hr.inFlight hr.tracker)
  | rejected | pendingRetry => exact hsettle.trans (cascadeReject order _ txid)
  | _ => exact of_eq rfl rfl

theorem handleRequeue (d : Dispatcher) (msg : PropagationMsg) :
    Shrinks d (d.handleRequeue msg) := by
  unfold Dispatcher.handleRequeue
  split
  · exact of_eq (Dispatcher.place_inFlight d msg _) (Dispatcher.place_tracker d msg _)
  · exact of_eq rfl rfl

end Shrinks

/-! ## The state of the loop -/

/-- What holds in every state of a run: the tracker follows the in-flight map
and knows offsets of pushed messages only, the queue holds what was pushed and
not marked yet, and everything `advance` marked lies below all that is in
flight. -/
structure Exact (s : Loop) : Prop where
  tracks : Tracks s.dispatcher
  known : ∀ o, s.dispatcher.tracker.Knows o → ∃ m ∈ s.pushed, m.offset = o
  increasing : s.pushed.Pairwise fun a b => a.offset < b.offset
  queue : ∃ waiting, s.pushed = s.advanced ++ waiting ∧ s.marks.Holds waiting
  below : ∀ m ∈ s.advanced, ∀ t o, s.dispatcher.inFlight.lookup t = some o → m.offset < o

namespace Exact

variable {s : Loop}

theorem new : Exact .new where
  tracks := .new
  known := by
    intro o ho
    simp [OffsetTracker.Knows, Loop.new, Dispatcher.new, OffsetTracker.new] at ho
  increasing := .nil
  queue := ⟨[], rfl, MarkQueue.holds_new⟩
  below := by simp [Loop.new]

theorem shrink (h : Exact s) {d : Dispatcher} (hd : Shrinks s.dispatcher d) :
    Exact { s with dispatcher := d } where
  tracks := hd.tracks h.tracks
  known := fun o ho => h.known o (hd.knows h.tracks o ho)
  increasing := h.increasing
  queue := h.queue
  below := fun m hm t o ho => h.below m hm t o (hd.inFlight t o ho)

theorem offset_of_inFlight (h : Exact s) {t : String} {o : Int}
    (ho : s.dispatcher.inFlight.lookup t = some o) : ∃ m ∈ s.pushed, m.offset = o :=
  h.known o (.inl ((h.tracks.unfinished o).mpr ⟨t, ho⟩).1)

theorem knows_handleAdmit (d : Dispatcher) (msg : PropagationMsg) (offset o : Int)
    (ho : (d.handleAdmit msg offset).1.tracker.Knows o) : d.tracker.Knows o ∨ o = offset := by
  unfold Dispatcher.handleAdmit at ho
  split at ho
  · simp only [OffsetTracker.Knows, OffsetTracker.markDone, OffsetTracker.add,
      MinHeap.mem_push, AList.mem_insert] at ho ⊢
    tauto
  · simp only [OffsetTracker.Knows, Dispatcher.place_tracker, OffsetTracker.add,
      MinHeap.mem_push] at ho ⊢
    tauto

theorem inFlight_handleAdmit (d : Dispatcher) (msg : PropagationMsg) (offset : Int)
    (t : String) (o : Int) (ho : (d.handleAdmit msg offset).1.inFlight.lookup t = some o) :
    d.inFlight.lookup t = some o ∨ o = offset := by
  unfold Dispatcher.handleAdmit at ho
  split at ho
  · exact .inl ho
  · rw [Dispatcher.place_inFlight] at ho
    rcases GoMap.of_lookup_insert ho with ⟨-, rfl⟩ | ⟨-, ho⟩
    · exact .inr rfl
    · exact .inl ho

section

variable (h : Exact s)
include h

theorem take (msg : KafkaMessage)
    (hinc : ∀ m ∈ s.pushed ++ s.dropped, m.offset < msg.offset) : Exact (s.take msg) := by
  unfold Loop.take
  cases wellFormed msg with
  | none => exact ⟨h.tracks, h.known, h.increasing, h.queue, h.below⟩
  | some propMsg =>
    have hpushed : ∀ m ∈ s.pushed, m.offset < msg.offset := fun m hm =>
      hinc m (mem_append_left _ hm)
    have hfresh : ¬s.dispatcher.tracker.Knows msg.offset := by
      intro hk
      obtain ⟨m, hm, he⟩ := h.known _ hk
      have := hpushed m hm
      omega
    obtain ⟨waiting, hw, hq⟩ := h.queue
    refine ⟨h.tracks.handleAdmit hfresh propMsg, fun o ho => ?_, ?_,
      ⟨waiting ++ [msg], by rw [← append_assoc, ← hw], hq.push msg⟩, fun m hm t o ho => ?_⟩
    · rcases knows_handleAdmit _ _ _ o ho with hk | rfl
      · obtain ⟨m, hm, he⟩ := h.known o hk
        exact ⟨m, mem_append_left _ hm, he⟩
      · exact ⟨msg, by simp, rfl⟩
    · rw [pairwise_append]
      exact ⟨h.increasing, pairwise_singleton _ _, by simpa using hpushed⟩
    · rcases inFlight_handleAdmit _ _ _ t o ho with ho | rfl
      · exact h.below m hm t o ho
      · exact hpushed m (by rw [hw]; exact mem_append_left _ hm)

/-- In an exact state a message that may be marked lies below everything in
flight. -/
theorem markable_iff (m : KafkaMessage) :
    MarkQueue.markable s.dispatcher.tracker.lowestUnfinished.1 m ↔
      ∀ t o, s.dispatcher.inFlight.lookup t = some o → m.offset < o := by
  cases hl : s.dispatcher.tracker.lowestUnfinished.1 with
  | none =>
    have hno := (OffsetTracker.lowestUnfinished_eq_none h.tracks.nodup).mp hl
    refine iff_of_true rfl fun t o ho => ?_
    exact absurd ((h.tracks.unfinished o).mpr ⟨t, ho⟩) (hno o)
  | some low =>
    obtain ⟨hlow, hle⟩ := (OffsetTracker.lowestUnfinished_eq_some h.tracks.nodup low).mp hl
    simp only [MarkQueue.markable, decide_eq_true_eq]
    constructor
    · intro hlt t o ho
      have := hle ((h.tracks.unfinished o).mpr ⟨t, ho⟩)
      omega
    · intro hall
      obtain ⟨t, ht⟩ := (h.tracks.unfinished low).mp hlow
      exact hall t low ht

theorem advanced_advance : s.advance.advanced =
      s.pushed.filter (MarkQueue.markable s.dispatcher.tracker.lowestUnfinished.1) := by
  obtain ⟨waiting, hw, hq⟩ := h.queue
  have hinc := h.increasing
  rw [hw, pairwise_append] at hinc
  have hold : s.advanced.filter (MarkQueue.markable s.dispatcher.tracker.lowestUnfinished.1) =
      s.advanced := by
    rw [filter_eq_self]
    intro m hm
    exact (h.markable_iff m).mpr (h.below m hm)
  change s.advanced ++ (s.marks.advance s.dispatcher.tracker).2.2 = _
  rw [hw, filter_append, hold, (hq.advance _).1, MarkQueue.takeWhile_markable _ _ hinc.2.1]

theorem advance : Exact s.advance := by
  have hmarked := h.advanced_advance
  have hc := OffsetTracker.cleanTop_cleaned s.dispatcher.tracker h.tracks.nodup
  obtain ⟨waiting, hw, hq⟩ := h.queue
  obtain ⟨hm, hq'⟩ := hq.advance s.dispatcher.tracker
  refine ⟨⟨hc.nodup, fun o => (hc.unfinished o).trans (h.tracks.unfinished o), h.tracks.inj⟩,
    fun o ho => h.known o (hc.knows o ho), h.increasing, ⟨_, ?_, hq'⟩, fun m hm => ?_⟩
  · change s.pushed = s.advanced ++ (s.marks.advance s.dispatcher.tracker).2.2 ++ _
    rw [hm, append_assoc, takeWhile_append_dropWhile, hw]
  · rw [hmarked] at hm
    exact (h.markable_iff m).mp (mem_filter.mp hm).2

theorem drain : Exact s.drain := h.shrink (.of_eq rfl rfl)

theorem step (maxPending : Int) {e : Event} (hinc : Increasing s e) :
    Exact (s.step maxPending e) := by
  cases e with
  | claimMessage msg =>
    simp only [Loop.step]
    split
    · exact h.take msg hinc
    · exact h
  | requeue msg => exact h.shrink (.handleRequeue s.dispatcher msg)
  | terminal order txid status => exact h.shrink (.handleTerminal order s.dispatcher txid status)
  | drain => exact h.drain
  | flushTick slotFree =>
    simp only [Loop.step]
    split
    · exact h.advance
    · split
      · exact h.advance.drain
      · exact h.advance
  | stop => exact h.advance

end

end Exact

/-! ## Exactness of the watermark -/

variable (maxPending : Int)

theorem advanced_of_advances (s : Loop) {e : Event} (he : e.advances) :
    (s.step maxPending e).advanced = s.advance.advanced := by
  cases e with
  | flushTick slotFree =>
    simp only [step]
    split
    · rfl
    · split <;> rfl
  | stop => rfl
  | _ => cases he

theorem advanced_of_quiet (s : Loop) (es : List Event)
    (hq : ∀ e ∈ es, ¬e.advances) : (run (step maxPending) s es).advanced = s.advanced := by
  induction es generalizing s with
  | nil => rfl
  | cons e es ih =>
    have hstep : (s.step maxPending e).advanced = s.advanced := by
      have hne := hq e (by simp)
      cases e with
      | claimMessage msg =>
        simp only [step, take]
        split
        · cases wellFormed msg <;> rfl
        · rfl
      | flushTick slotFree => exact absurd rfl hne
      | stop => exact absurd rfl hne
      | _ => rfl
    rw [run_cons, ih _ (fun e' he' => hq e' (mem_cons_of_mem _ he')), hstep]

def after (maxPending : Int) (es : List Event) : Loop := run (step maxPending) .new es

/-- After any run, `LowestUnfinished` is the least offset of the in-flight map,
and `advance` has handed to `MarkMessage`, in the order pushed and once each, the
messages that were below it at the last advance. -/
theorem watermark_exact (maxPending : Int) (es : List Event)
    (h : AllSteps (step maxPending) Increasing .new es) :
    ((after maxPending es).dispatcher.tracker.lowestUnfinished.1 = none ↔
      ∀ t, t ∉ (after maxPending es).dispatcher.inFlight) ∧
    (∀ m, (after maxPending es).dispatcher.tracker.lowestUnfinished.1 = some m ↔
      IsLeast {o | ∃ t, (after maxPending es).dispatcher.inFlight.lookup t = some o} m) ∧
    (after maxPending es).advanced <+: (after maxPending es).pushed ∧
    ((∀ e ∈ es, ¬e.advances) → (after maxPending es).advanced = []) ∧
    (∀ es₁ e es₂, es = es₁ ++ e :: es₂ → e.advances → (∀ e' ∈ es₂, ¬e'.advances) →
      (after maxPending es).advanced = (after maxPending es₁).pushed.filter (MarkQueue.markable
          (after maxPending es₁).dispatcher.tracker.lowestUnfinished.1)) := by
  have hexact : ∀ {es : List Event}, AllSteps (step maxPending) Increasing .new es →
      Exact (after maxPending es) := fun hs =>
    run_invariant (fun s e hx hi => hx.step maxPending hi) Exact.new hs
  have hend := hexact h
  refine ⟨?_, fun m => ?_, ?_, fun hq => ?_, fun es₁ e es₂ hes he hq => ?_⟩
  · rw [OffsetTracker.lowestUnfinished_eq_none hend.tracks.nodup]
    simp only [hend.tracks.unfinished, GoMap.mem_iff_lookup, not_exists]
    exact forall_comm
  · rw [OffsetTracker.lowestUnfinished_eq_some hend.tracks.nodup]
    simp only [hend.tracks.unfinished]
  · obtain ⟨waiting, hw, -⟩ := hend.queue
    exact ⟨waiting, hw.symm⟩
  · exact advanced_of_quiet maxPending .new es hq
  · subst hes
    rw [after, run_append, run_cons, advanced_of_quiet maxPending _ es₂ hq,
      advanced_of_advances maxPending _ he]
    exact (hexact h.append_left).advanced_advance

/-- A duplicate, a rejection that cascades and two ticks; the last message is
still in flight at the end. -/
def twoTicks : List Event :=
  [.claimMessage ⟨3, some (.fresh "p" [1] [])⟩,
    .claimMessage ⟨5, some (.fresh "c" [2] ["p"])⟩,
    .claimMessage ⟨6, some (.fresh "p" [1] [])⟩,
    .claimMessage ⟨9, some (.fresh "q" [3] [])⟩, .flushTick true,
    .terminal (.stored String) "p" .rejected, .flushTick true]

theorem watermark_exact_twoTicks : AllSteps (step 0) Increasing .new twoTicks ∧
    (after 0 twoTicks).advanced.map (·.offset) = [3, 5, 6] ∧
    (∀ m, (after 0 twoTicks).dispatcher.tracker.lowestUnfinished.1 = some m ↔
      IsLeast {o | ∃ t, (after 0 twoTicks).dispatcher.inFlight.lookup t = some o} m) :=
  ⟨by decide +kernel, by decide +kernel, (watermark_exact 0 twoTicks (by decide +kernel)).2.1⟩

/-! ## Commit safety -/

/-- The broker commits one past the highest offset ever marked. -/
def committed (s : Loop) : Option Int := ((s.advanced ++ s.dropped).map (·.offset + 1)).max?

/-- The committed position is not past any transaction in flight. -/
def CommitSafe (s : Loop) : Prop :=
  ∀ position ∈ s.committed, ∀ t, ∀ offset ∈ s.dispatcher.inFlight.lookup t, position ≤ offset

/-- A malformed message is taken only when nothing is in flight. -/
def MalformedWhenIdle (maxPending : Int) (s : Loop) : Event → Prop
  | .claimMessage msg =>
    HasRoom maxPending s → wellFormed msg = none → s.dispatcher.inFlight.keys = []
  | _ => True

instance (maxPending : Int) (s : Loop) : (e : Event) → Decidable (MalformedWhenIdle maxPending s e)
  | .claimMessage _ => inferInstanceAs (Decidable (_ → _ → _))
  | .requeue _ | .terminal _ _ _ | .drain | .flushTick _ | .stop => isTrue trivial

theorem committed_le_iff (s : Loop) (o : Int) :
    (∀ position ∈ s.committed, position ≤ o) ↔ ∀ m ∈ s.advanced ++ s.dropped, m.offset < o := by
  unfold committed
  cases hm : ((s.advanced ++ s.dropped).map (·.offset + 1)).max? with
  | none =>
    rw [List.max?_eq_none_iff, map_eq_nil_iff] at hm
    simp [hm]
  | some top =>
    have hle := List.max?_le_iff hm (x := o)
    simp only [Option.mem_def, Option.some.injEq, forall_eq']
    rw [hle]
    simp only [mem_map, forall_exists_index, and_imp, forall_apply_eq_imp_iff₂]
    exact forall₂_congr fun m _ => Int.add_one_le_iff

/-- What `advance` marks is always safe; only the direct marks count. -/
theorem commitSafe_iff_dropped {s : Loop} (h : Exact s) :
    s.CommitSafe ↔ ∀ m ∈ s.dropped, ∀ t o, s.dispatcher.inFlight.lookup t = some o →
      m.offset < o := by
  have hsafe : s.CommitSafe ↔ ∀ t o, s.dispatcher.inFlight.lookup t = some o →
      ∀ m ∈ s.advanced ++ s.dropped, m.offset < o := by
    constructor
    · intro hs t o ho
      exact (committed_le_iff s o).mp fun position hp => hs position hp t o ho
    · intro hs position hp t o ho
      exact (committed_le_iff s o).mpr (hs t o ho) position hp
  rw [hsafe]
  constructor
  · intro hs m hm t o ho
    exact hs t o ho m (mem_append_right _ hm)
  · intro hs t o ho m hm
    rcases mem_append.mp hm with hm | hm
    · exact h.below m hm t o ho
    · exact hs m hm t o ho

theorem commitSafe_take {s : Loop} (h : Exact s) (hs : s.CommitSafe) {msg : KafkaMessage}
    (hinc : ∀ m ∈ s.pushed ++ s.dropped, m.offset < msg.offset) :
    (s.take msg).CommitSafe ↔ (wellFormed msg = none → s.dispatcher.inFlight.keys = []) := by
  have hold := (commitSafe_iff_dropped h).mp hs
  rw [commitSafe_iff_dropped (h.take msg hinc)]
  unfold take
  cases hwf : wellFormed msg with
  | none =>
    -- The mark is above everything in flight, so nothing may be in flight.
    constructor
    · intro hdrop _
      rw [eq_nil_iff_forall_not_mem]
      intro t ht
      obtain ⟨o, ho⟩ := (GoMap.mem_iff_lookup _ t).mp (AList.mem_keys.mpr ht)
      have hlt := hdrop msg (by simp) t o ho
      obtain ⟨m, hm, he⟩ := h.offset_of_inFlight ho
      have hgt := hinc m (mem_append_left _ hm)
      omega
    · intro hidle m _ t o ho
      have ht := AList.mem_keys.mp (GoMap.mem_of_lookup ho)
      rw [hidle rfl] at ht
      cases ht
  | some propMsg =>
    refine iff_of_true ?_ (by simp)
    intro m hm t o ho
    rcases Exact.inFlight_handleAdmit _ _ _ t o ho with ho | rfl
    · exact hold m hm t o ho
    · exact hinc m (mem_append_right _ hm)

theorem commitSafe_of_shrinks {s s' : Loop} (h : Exact s) (hs : s.CommitSafe) (h' : Exact s')
    (hdrop : s'.dropped = s.dropped) (hin : ∀ t o, s'.dispatcher.inFlight.lookup t = some o →
      s.dispatcher.inFlight.lookup t = some o) : s'.CommitSafe := by
  rw [commitSafe_iff_dropped h', hdrop]
  intro m hm t o ho
  exact (commitSafe_iff_dropped h).mp hs m hm t o (hin t o ho)

theorem step_commitSafe {s : Loop} {e : Event} (h : Exact s)
    (hs : s.CommitSafe) (hinc : Increasing s e) :
    (s.step maxPending e).CommitSafe ↔ MalformedWhenIdle maxPending s e := by
  have h' := h.step maxPending hinc
  cases e with
  | claimMessage msg =>
    simp only [step, MalformedWhenIdle]
    split
    · rename_i hroom
      rw [commitSafe_take h hs hinc]
      exact ⟨fun hi _ => hi, fun hi => hi hroom⟩
    · rename_i hroom
      exact iff_of_true hs fun hr => absurd hr hroom
  | requeue msg =>
    exact iff_of_true (commitSafe_of_shrinks h hs h' rfl
      (Shrinks.handleRequeue s.dispatcher msg).inFlight) trivial
  | terminal order txid status =>
    exact iff_of_true (commitSafe_of_shrinks h hs h' rfl
      (Shrinks.handleTerminal order s.dispatcher txid status).inFlight) trivial
  | drain => exact iff_of_true (commitSafe_of_shrinks h hs h' rfl fun _ _ ho => ho) trivial
  | flushTick slotFree =>
    refine iff_of_true (commitSafe_of_shrinks h hs h' ?_ fun t o ho => ?_) trivial
    · simp only [step]
      split
      · rfl
      · split <;> rfl
    · simp only [step] at ho
      split at ho
      · exact ho
      · split at ho <;> exact ho
  | stop => exact iff_of_true (commitSafe_of_shrinks h hs h' rfl fun _ _ ho => ho) trivial

/-- The committed position never passes a transaction in flight exactly when
every malformed message is taken while nothing is in flight. -/
theorem commitSafe_iff_malformedWhenIdle (maxPending : Int) (es : List Event)
    (h : AllSteps (step maxPending) Increasing .new es) :
    (∀ s ∈ states (step maxPending) .new es, s.CommitSafe) ↔
      AllSteps (step maxPending) (MalformedWhenIdle maxPending) .new es := by
  refine states_iff_allSteps (J := Exact) (P := CommitSafe)
    (fun s e hx hi => hx.step maxPending hi)
    (fun s e hx hs hi => step_commitSafe maxPending hx hs hi) Exact.new ?_ h
  simp [CommitSafe, committed, new]

/-- An undecodable message arrives after the only transaction is settled. -/
def malformedAlone : List Event :=
  [.claimMessage ⟨0, some (.fresh "p" [1] [])⟩, .flushTick true,
    .terminal (.stored String) "p" .acceptedByNetwork, .claimMessage ⟨1, none⟩, .flushTick true]

theorem commitSafe_iff_malformedWhenIdle_malformedAlone :
    AllSteps (step 10) Increasing .new malformedAlone ∧
    ((∀ s ∈ states (step 10) .new malformedAlone, s.CommitSafe) ↔
      AllSteps (step 10) (MalformedWhenIdle 10) .new malformedAlone) ∧
    AllSteps (step 10) (MalformedWhenIdle 10) .new malformedAlone :=
  ⟨by decide +kernel, commitSafe_iff_malformedWhenIdle 10 malformedAlone (by decide +kernel),
    by decide +kernel⟩

/-- A message with an empty raw transaction arrives behind one in flight. -/
def malformedBehind : List Event :=
  [.claimMessage ⟨0, some (.fresh "p" [1] [])⟩,
    .claimMessage ⟨1, some (.fresh "c" [] [])⟩]

/-- The broker commits 2 while the transaction at offset 0 is in flight. -/
theorem malformedBehind_overcommits : AllSteps (step 10) Increasing .new malformedBehind ∧
    (run (step 10) .new malformedBehind).dispatcher.inFlight.lookup "p" = some 0 ∧
    (run (step 10) .new malformedBehind).committed = some 2 ∧
    ¬∀ s ∈ states (step 10) .new malformedBehind, s.CommitSafe := by
  have hin : (run (step 10) .new malformedBehind).dispatcher.inFlight.lookup "p" = some 0 := by
    decide +kernel
  have hcom : (run (step 10) .new malformedBehind).committed = some 2 := by decide +kernel
  refine ⟨by decide +kernel, hin, hcom, fun hall => ?_⟩
  have hsafe := hall _ ((mem_states_iff _ _ _ _).mpr ⟨malformedBehind, [], by simp, rfl⟩)
  have hle := hsafe 2 hcom "p" 0 hin
  omega

end Loop

end Arcade.Propagation
