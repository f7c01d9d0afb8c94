import Arcade.Propagation.Settled

/-!
One dispatcher together with the batches it handed out. A batch ends each of
its messages by a requeue or by a settling verdict, and verdicts arrive only
for transactions that are out with a batch. Then nothing is lost and nothing is
duplicated: an in-flight transaction is pending, held or out, and only once
(`Located`). When parents are admitted before their children, no transaction
that is pending or out has a parent in flight (`Independent`).
-/

namespace Arcade.Propagation

open Lib List
open Dispatcher (appended blocking canRelease canRelease_eq_some cascadeReject_result children_nodup
  handleAdmit handleRequeue InCascade place_cases place_inFlight released_releaseWaiters)

/-- A message and a later copy of it, which may differ in the retry counters. -/
def PropagationMsg.SameTx (m m' : PropagationMsg) : Prop :=
  m.txid = m'.txid ∧ m.inputTXIDs = m'.inputTXIDs

instance (m m' : PropagationMsg) : Decidable (m.SameTx m') :=
  inferInstanceAs (Decidable (_ ∧ _))

/-- `batches` are the drained batches with the messages they have not ended yet;
`admitted` is the history of the messages that `handleAdmit` took in, without
the duplicates it dropped. -/
structure Pipeline where
  dispatcher : Dispatcher
  batches : List (List PropagationMsg)
  admitted : List PropagationMsg

namespace Pipeline

def new : Pipeline := ⟨.new, [], []⟩

def out (w : Pipeline) : List PropagationMsg := w.batches.flatten

/-- The messages on their way to the network, pending or out. -/
def live (w : Pipeline) : List PropagationMsg := w.dispatcher.pendingMsgs ++ w.out

def ended (batches : List (List PropagationMsg)) (txid : String) : List (List PropagationMsg) :=
  batches.map fun batch => batch.filter fun m => m.txid ≠ txid

def step (w : Pipeline) (e : Dispatcher.Event) : Pipeline where
  dispatcher := w.dispatcher.step e
  batches := match e with
    | .admission _ _ => w.batches
    | .requeue msg => ended w.batches msg.txid
    | .terminal _ txid status => if status.settles then ended w.batches txid else w.batches
    | .drain => w.batches ++ [w.dispatcher.drain.2]
  admitted := match e with
    | .admission msg _ => if msg.txid ∈ w.dispatcher.inFlight then w.admitted else w.admitted ++ [msg]
    | _ => w.admitted

/-- A requeue returns a message of a batch, with its retry counters changed at
most; a verdict is about a message of a batch. -/
def OwnsBatch (w : Pipeline) : Dispatcher.Event → Prop
  | .requeue msg => ∃ m ∈ w.out, m.SameTx msg
  | .terminal _ txid _ => ∃ m ∈ w.out, m.txid = txid
  | _ => True

/-- An admission that is not a dropped duplicate: no transaction admitted before
names it as a parent. -/
def ParentsFirst (w : Pipeline) : Dispatcher.Event → Prop
  | .admission msg _ => msg.txid ∉ w.dispatcher.inFlight →
    ∀ m ∈ w.admitted, ¬m.HasParent msg.txid
  | _ => True

/-- How many times `txid` is pending, held or out. -/
def places (w : Pipeline) (txid : String) : Nat :=
  (w.dispatcher.pendingMsgs.map (·.txid)).count txid +
    (if txid ∈ w.dispatcher.heldMsgs then 1 else 0) +
    (w.batches.map fun batch => (batch.map (·.txid)).count txid).sum

instance (w : Pipeline) : (e : Dispatcher.Event) → Decidable (w.OwnsBatch e)
  | .requeue _ => inferInstanceAs (Decidable (∃ m ∈ w.out, _))
  | .terminal _ _ _ => inferInstanceAs (Decidable (∃ m ∈ w.out, _))
  | .admission _ _ | .drain => isTrue trivial

instance (w : Pipeline) : (e : Dispatcher.Event) → Decidable (w.ParentsFirst e)
  | .admission _ _ => inferInstanceAs (Decidable (_ → ∀ m ∈ w.admitted, _))
  | .requeue _ | .terminal _ _ _ | .drain => isTrue trivial

end Pipeline

/-! ## Where a transaction in flight is -/

/-- Every transaction in flight is held or in `live`, never in both and never
twice. `loose` is the transaction that is in between two places, if any. -/
structure Located (loose : Option String) (d : Dispatcher) (live : List PropagationMsg) : Prop where
  coherent : Coherent d
  nodup : (live.map (·.txid)).Nodup
  inFlight : ∀ m ∈ live, m.txid ∈ d.inFlight ∧ m.txid ∉ d.heldMsgs
  covered : ∀ t, t ∈ d.inFlight → some t = loose ∨ t ∈ d.heldMsgs ∨ ∃ m ∈ live, m.txid = t
  loose : ∀ t, loose = some t → t ∈ d.inFlight ∧ t ∉ d.heldMsgs ∧ ∀ m ∈ live, m.txid ≠ t

namespace Located

variable {d : Dispatcher} {live live' : List PropagationMsg} {l : Option String}

theorem new : Located none .new [] where
  coherent := .new
  nodup := nodup_nil
  inFlight := by simp
  covered := by simp [Dispatcher.new]
  loose := by simp

theorem perm (h : Located l d live) (hp : live.Perm live') : Located l d live' where
  coherent := h.coherent
  nodup := (hp.map _).nodup_iff.mp h.nodup
  inFlight := fun m hm => h.inFlight m (hp.mem_iff.mpr hm)
  covered := fun t ht => by simpa [hp.mem_iff] using h.covered t ht
  loose := fun t ht => by simpa [hp.mem_iff] using h.loose t ht

theorem enter (h : Located none d live) {txid : String} (offset : Int) (hnew : txid ∉ d.inFlight) :
    Located (some txid) { d with
      inFlight := d.inFlight.insert txid offset
      tracker := d.tracker.add offset } live := by
  have hheld : txid ∉ d.heldMsgs := fun hc => hnew (h.coherent.held _ hc)
  refine ⟨⟨h.coherent.key, h.coherent.waits, fun c hc => ?_⟩, h.nodup, fun m hm => ?_,
    fun t ht => ?_, fun t ht => ?_⟩
  · exact (AList.mem_insert _).mpr (.inr (h.coherent.held c hc))
  · exact ⟨(AList.mem_insert _).mpr (.inr (h.inFlight m hm).1), (h.inFlight m hm).2⟩
  · rcases (AList.mem_insert _).mp ht with rfl | ht
    · exact .inl rfl
    · exact .inr ((h.covered t ht).resolve_left (by simp))
  · obtain rfl : txid = t := Option.some.inj ht
    refine ⟨(AList.mem_insert _).mpr (.inl rfl), hheld, fun m hm he => ?_⟩
    exact hnew (he ▸ (h.inFlight m hm).1)

theorem unload (h : Located none d live) {m : PropagationMsg} (hm : m ∈ live) :
    Located (some m.txid) d (live.filter fun x => x.txid ≠ m.txid) := by
  refine ⟨h.coherent, h.nodup.sublist (filter_sublist.map _), fun x hx => ?_,
    fun t ht => ?_, fun t ht => ?_⟩
  · exact h.inFlight x (mem_filter.mp hx).1
  · by_cases he : t = m.txid
    · exact .inl (by rw [he])
    · rcases (h.covered t ht).resolve_left (by simp) with hc | ⟨x, hx, rfl⟩
      · exact .inr (.inl hc)
      · exact .inr (.inr ⟨x, mem_filter.mpr ⟨hx, by simpa using he⟩, rfl⟩)
  · obtain rfl : m.txid = t := Option.some.inj ht
    refine ⟨(h.inFlight m hm).1, (h.inFlight m hm).2, fun x hx => ?_⟩
    simpa using (mem_filter.mp hx).2

theorem place {msg : PropagationMsg} (h : Located (some msg.txid) d live)
    (inFlight : GoMap String Int) :
    Located none (d.place msg (blocking msg inFlight))
      (live ++ appended d (d.place msg (blocking msg inFlight))) := by
  obtain ⟨hin, hheld, hlive⟩ := h.loose _ rfl
  have hcoh := h.coherent.place msg inFlight hin fun m hm => absurd (GoMap.mem_of_lookup hm) hheld
  rcases place_cases d msg inFlight with ⟨-, hh, hp, -⟩ | ⟨-, hp⟩
  · rw [appended, hp, drop_length, append_nil]
    refine ⟨hcoh, h.nodup, fun m hm => ?_, fun t ht => ?_, by simp⟩
    · rw [place_inFlight, hh, AList.mem_insert]
      exact ⟨(h.inFlight m hm).1, not_or.mpr ⟨hlive m hm, (h.inFlight m hm).2⟩⟩
    · rw [place_inFlight] at ht
      rw [hh, AList.mem_insert]
      rcases h.covered t ht with he | hc | hm
      · exact .inr (.inl (.inl (Option.some.inj he)))
      · exact .inr (.inl (.inr hc))
      · exact .inr (.inr hm)
  · rw [hp] at hcoh ⊢
    rw [appended, drop_left]
    refine ⟨hcoh, ?_, fun m hm => ?_, fun t ht => ?_, by simp⟩
    · rw [map_append, nodup_append]
      refine ⟨h.nodup, nodup_singleton _, ?_⟩
      simpa using fun m hm => hlive m hm
    · rcases mem_append.mp hm with hm | hm
      · exact h.inFlight m hm
      · obtain rfl := mem_singleton.mp hm
        exact ⟨hin, hheld⟩
    · rcases h.covered t ht with he | hc | ⟨m, hm, rfl⟩
      · exact .inr (.inr ⟨msg, by simp, (Option.some.inj he).symm⟩)
      · exact .inr (.inl hc)
      · exact .inr (.inr ⟨m, mem_append_left _ hm, rfl⟩)

theorem settle {txid : String} (h : Located (some txid) d live) :
    Located none (d.settle txid) live := by
  obtain ⟨-, hheld, hlive⟩ := h.loose _ rfl
  refine ⟨h.coherent.settle hheld, h.nodup, fun m hm => ?_, fun t ht => ?_, by simp⟩
  · exact ⟨AList.mem_erase.mpr ⟨hlive m hm, (h.inFlight m hm).1⟩, (h.inFlight m hm).2⟩
  · obtain ⟨hne, ht⟩ := AList.mem_erase.mp ht
    refine .inr ((h.covered t ht).resolve_left fun he => hne (Option.some.inj he))

theorem releaseWaiters (h : Located none d live) (order : MapOrder String) (parent : String) :
    Located none (Dispatcher.releaseWaiters order d parent)
      (live ++ appended d (Dispatcher.releaseWaiters order d parent)) := by
  have hcoh := h.coherent.releaseWaiters order parent
  obtain ⟨visited, hv, hr⟩ := released_releaseWaiters order d parent
  have hnodup := hv.nodup_iff.mpr (children_nodup d parent)
  have hrel : ∀ c m, canRelease c d.inFlight d.heldMsgs = some m → m.txid = c ∧ c ∈ d.heldMsgs := by
    intro c m hm
    have hl := ((canRelease_eq_some _ _ _ _).mp hm).1
    exact ⟨h.coherent.key c m hl, GoMap.mem_of_lookup hl⟩
  have hheld : ∀ c, c ∈ (Dispatcher.releaseWaiters order d parent).heldMsgs ↔ c ∈ d.heldMsgs ∧
      ¬(c ∈ visited ∧ (canRelease c d.inFlight d.heldMsgs).isSome) := by
    intro c
    rw [GoMap.mem_iff_lookup, GoMap.mem_iff_lookup, hr.held]
    split <;> simp_all
  rw [appended, hr.pending, drop_left]
  refine ⟨hcoh, ?_, fun m hm => ?_, fun t ht => ?_, by simp⟩
  · rw [map_append, nodup_append]
    refine ⟨h.nodup, ?_, ?_⟩
    · -- The released messages carry the visited txids, which do not repeat.
      rw [map_filterMap]
      refine hnodup.filterMap fun c c' t hc hc' => ?_
      obtain ⟨m, hm, rfl⟩ := Option.map_eq_some_iff.mp hc
      obtain ⟨m', hm', he⟩ := Option.map_eq_some_iff.mp hc'
      rw [← (hrel c m hm).1, ← (hrel c' m' hm').1, he]
    · intro t ht t' ht' he
      obtain ⟨m, hm, rfl⟩ := mem_map.mp ht
      obtain ⟨m', hm', rfl⟩ := mem_map.mp ht'
      obtain ⟨c, -, hc⟩ := mem_filterMap.mp hm'
      obtain ⟨hk, hcm⟩ := hrel c m' hc
      exact (h.inFlight m hm).2 (by rw [he, hk]; exact hcm)
  · rw [hr.inFlight, hheld]
    rcases mem_append.mp hm with hm | hm
    · exact ⟨(h.inFlight m hm).1, fun hc => (h.inFlight m hm).2 hc.1⟩
    · obtain ⟨c, hcv, hc⟩ := mem_filterMap.mp hm
      obtain ⟨rfl, hcm⟩ := hrel c m hc
      exact ⟨h.coherent.held _ hcm, fun hx => hx.2 ⟨hcv, by simp [hc]⟩⟩
  · rw [hr.inFlight] at ht
    rw [hheld]
    rcases (h.covered t ht).resolve_left (by simp) with hc | ⟨m, hm, rfl⟩
    · by_cases hx : t ∈ visited ∧ (canRelease t d.inFlight d.heldMsgs).isSome
      · obtain ⟨m, hm⟩ := Option.isSome_iff_exists.mp hx.2
        exact .inr (.inr ⟨m, mem_append_right _
          (mem_filterMap.mpr ⟨t, hx.1, hm⟩), (hrel t m hm).1⟩)
      · exact .inr (.inl ⟨hc, hx⟩)
    · exact .inr (.inr ⟨m, mem_append_left _ hm, rfl⟩)

theorem cascadeReject (h : Located none d live) (order : MapOrder String) (rejected : String) :
    Located none (Dispatcher.cascadeReject order d rejected).1 live := by
  have hres := cascadeReject_result order d rejected
  obtain ⟨hcoh, hcas, -⟩ := h.coherent.cascadeReject order rejected
  have hin : ∀ c, c ∈ (Dispatcher.cascadeReject order d rejected).1.inFlight ↔ c ∈ d.inFlight ∧
      ¬InCascade (Dispatcher.cascadeReject order d rejected).2 c := by
    intro c
    simp only [GoMap.mem_iff_lookup, hres.inFlight, exists_and_right]
  have hheld : ∀ c, c ∈ (Dispatcher.cascadeReject order d rejected).1.heldMsgs ↔ c ∈ d.heldMsgs ∧
        ¬InCascade (Dispatcher.cascadeReject order d rejected).2 c := by
    intro c
    simp only [GoMap.mem_iff_lookup, hres.held, exists_and_right]
  refine ⟨hcoh, h.nodup, fun m hm => ?_, fun t ht => ?_, by simp⟩
  · obtain ⟨hf, hn⟩ := h.inFlight m hm
    exact ⟨(hin _).mpr ⟨hf, fun hc => hn (hcas _ hc)⟩, fun hc => hn ((hheld _).mp hc).1⟩
  · obtain ⟨hf, hn⟩ := (hin t).mp ht
    rcases (h.covered t hf).resolve_left (by simp) with hc | hm
    · exact .inr (.inl ((hheld t).mpr ⟨hc, hn⟩))
    · exact .inr (.inr hm)

end Located

/-! ## No parent in flight -/

/-- No message of `live` has a parent in flight, and every message the
dispatcher still has was admitted. -/
structure Independent (d : Dispatcher) (live admitted : List PropagationMsg) : Prop where
  parents : ∀ m ∈ live, ∀ p, m.HasParent p → p ∉ d.inFlight
  live : ∀ m ∈ live, ∃ m' ∈ admitted, m'.SameTx m
  held : ∀ c m, d.heldMsgs.lookup c = some m → ∃ m' ∈ admitted, m'.SameTx m

namespace Independent

variable {d : Dispatcher} {live live' admitted : List PropagationMsg}

theorem mono (h : Independent d live admitted) (hs : live' ⊆ live) : Independent d live' admitted :=
  ⟨fun m hm => h.parents m (hs hm), fun m hm => h.live m (hs hm), h.held⟩

theorem hasParent_of_sameTx {m m' : PropagationMsg} (h : m'.SameTx m) {p : String}
    (hp : m.HasParent p) : m'.HasParent p := by
  obtain ⟨ht, hi⟩ := h
  exact ⟨hi ▸ hp.1, hp.2.1, ht ▸ hp.2.2⟩

section

variable (h : Independent d live admitted)
include h

theorem enter (msg : PropagationMsg) (offset : Int)
    (hfirst : ∀ m ∈ admitted, ¬m.HasParent msg.txid) :
    Independent { d with
      inFlight := d.inFlight.insert msg.txid offset
      tracker := d.tracker.add offset } live (admitted ++ [msg]) := by
  refine ⟨fun m hm p hp hin => ?_, fun m hm => ?_, fun c m hm => ?_⟩
  · rcases (AList.mem_insert _).mp hin with rfl | hin
    · obtain ⟨m', hm', hs⟩ := h.live m hm
      exact hfirst m' hm' (hasParent_of_sameTx hs hp)
    · exact h.parents m hm p hp hin
  · obtain ⟨m', hm', hs⟩ := h.live m hm
    exact ⟨m', mem_append_left _ hm', hs⟩
  · obtain ⟨m', hm', hs⟩ := h.held c m hm
    exact ⟨m', mem_append_left _ hm', hs⟩

/-- A message is queued only when `inFlight`, which its parents are checked
against, has none of them. -/
theorem place (msg : PropagationMsg) (inFlight : GoMap String Int)
    (hsame : ∀ p, msg.HasParent p → p ∉ inFlight → p ∉ d.inFlight)
    (hadm : ∃ m' ∈ admitted, m'.SameTx msg) :
    Independent (d.place msg (blocking msg inFlight))
      (live ++ appended d (d.place msg (blocking msg inFlight)))
      admitted := by
  rcases place_cases d msg inFlight with ⟨-, hh, hp, -⟩ | ⟨hfree, hp⟩
  · rw [appended, hp, drop_length, append_nil]
    refine ⟨fun m hm p hpar => ?_, h.live, fun c m hm => ?_⟩
    · rw [place_inFlight]
      exact h.parents m hm p hpar
    · rw [hh] at hm
      rcases GoMap.of_lookup_insert hm with ⟨-, rfl⟩ | ⟨-, hm⟩
      · exact hadm
      · exact h.held c m hm
  · rw [hp, appended, drop_left]
    have hparents : ∀ p, msg.HasParent p → p ∉ d.inFlight := fun p hp => hsame p hp (hfree p hp)
    exact ⟨forall_mem_append.mpr ⟨h.parents, by simpa using hparents⟩,
      forall_mem_append.mpr ⟨h.live, by simpa using hadm⟩, h.held⟩

theorem settle (txid : String) : Independent (d.settle txid) live admitted :=
  ⟨fun m hm p hp hin => h.parents m hm p hp (AList.mem_erase.mp hin).2, h.live, h.held⟩

theorem releaseWaiters (hcoh : Coherent d) (order : MapOrder String) (parent : String) :
    Independent (Dispatcher.releaseWaiters order d parent)
      (live ++ appended d (Dispatcher.releaseWaiters order d parent)) admitted := by
  obtain ⟨visited, -, hr⟩ := released_releaseWaiters order d parent
  rw [appended, hr.pending, drop_left]
  refine ⟨?_, forall_mem_append.mpr ⟨h.live, fun m hm => ?_⟩, fun c m hm => ?_⟩
  · rw [hr.inFlight]
    refine forall_mem_append.mpr ⟨h.parents, fun m hm p hp => ?_⟩
    obtain ⟨c, -, hc⟩ := mem_filterMap.mp hm
    obtain ⟨hl, hfree⟩ := (canRelease_eq_some _ _ _ _).mp hc
    exact hfree p hp.1 hp.2.1 (hcoh.key c m hl ▸ hp.2.2)
  · obtain ⟨c, -, hc⟩ := mem_filterMap.mp hm
    exact h.held c m ((canRelease_eq_some _ _ _ _).mp hc).1
  · rw [hr.held] at hm
    split at hm
    · cases hm
    · exact h.held c m hm

theorem cascadeReject (order : MapOrder String) (rejected : String) :
    Independent (Dispatcher.cascadeReject order d rejected).1 live admitted := by
  have hres := cascadeReject_result order d rejected
  refine ⟨fun m hm p hp hin => ?_, h.live, fun c m hm => ?_⟩
  · obtain ⟨o, ho⟩ := (GoMap.mem_iff_lookup _ _).mp hin
    exact h.parents m hm p hp (GoMap.mem_of_lookup ((hres.inFlight p o).mp ho).1)
  · exact h.held c m ((hres.held c m).mp hm).1

end

end Independent

/-! ## Runs -/

namespace Pipeline

theorem out_ended (w : Pipeline) (txid : String) :
    (ended w.batches txid).flatten = w.out.filter fun m => m.txid ≠ txid :=
  filter_flatten.symm

variable {w : Pipeline} {e : Dispatcher.Event}

theorem live_ended {m : PropagationMsg} (h : Located none w.dispatcher w.live) (hm : m ∈ w.out) :
    (w.live.filter fun x => x.txid ≠ m.txid) =
      w.dispatcher.pendingMsgs ++ (ended w.batches m.txid).flatten := by
  have hn := h.nodup
  rw [live, map_append, nodup_append] at hn
  rw [live, filter_append, out_ended]
  congr 1
  rw [filter_eq_self]
  intro x hx
  simpa using hn.2.2 _ (mem_map_of_mem hx) _ (mem_map_of_mem hm)

theorem place_pendingMsgs (d : Dispatcher) (msg : PropagationMsg) (inFlight : GoMap String Int) :
    (d.place msg (blocking msg inFlight)).pendingMsgs = d.pendingMsgs ++
      appended d (d.place msg (blocking msg inFlight)) := by
  rcases place_cases d msg inFlight with ⟨-, -, hp, -⟩ | ⟨-, hp⟩
  · simp [appended, hp]
  · simp [appended, hp]

theorem releaseWaiters_pendingMsgs (order : MapOrder String) (d : Dispatcher) (parent : String) :
    (Dispatcher.releaseWaiters order d parent).pendingMsgs = d.pendingMsgs ++
      appended d (Dispatcher.releaseWaiters order d parent) := by
  obtain ⟨visited, -, hr⟩ := released_releaseWaiters order d parent
  rw [appended, hr.pending, drop_left]

theorem append_perm (pending out new : List PropagationMsg) :
    ((pending ++ out) ++ new).Perm ((pending ++ new) ++ out) := by
  rw [append_assoc, append_assoc]
  exact perm_append_comm.append_left pending

/-- What a step may do to a located pipeline, `live` up to the order of the
messages. -/
inductive Effect (w w' : Pipeline) : Dispatcher.Event → Prop where
  /-- A dropped duplicate, an intermediate status or a drain. -/
  | quiet {e : Dispatcher.Event}
      (event : ∀ order txid, e ≠ .terminal order txid .acceptedByNetwork)
      (live : w'.live.Perm w.live)
      (admitted : w'.admitted = w.admitted)
      (inFlight : w'.dispatcher.inFlight = w.dispatcher.inFlight)
      (waiters : w'.dispatcher.waiters = w.dispatcher.waiters)
      (held : w'.dispatcher.heldMsgs = w.dispatcher.heldMsgs) : Effect w w' e
  | enter (msg : PropagationMsg) (offset : Int) (d : Dispatcher)
      (new : msg.txid ∉ w.dispatcher.inFlight)
      (entered : d = { w.dispatcher with
        inFlight := w.dispatcher.inFlight.insert msg.txid offset
        tracker := w.dispatcher.tracker.add offset })
      (admitted : w'.admitted = w.admitted ++ [msg])
      (placed : w'.dispatcher = d.place msg (blocking msg w.dispatcher.inFlight))
      (live : w'.live.Perm (w.live ++ appended d w'.dispatcher)) :
      Effect w w' (.admission msg offset)
  | requeue (msg m : PropagationMsg) (out : m ∈ w.out) (same : m.SameTx msg)
      (admitted : w'.admitted = w.admitted)
      (placed : w'.dispatcher = w.dispatcher.place msg (blocking msg w.dispatcher.inFlight))
      (live : w'.live.Perm ((w.live.filter fun x => x.txid ≠ msg.txid) ++
        appended w.dispatcher w'.dispatcher)) : Effect w w' (.requeue msg)
  | release (order : MapOrder String) (m : PropagationMsg) (out : m ∈ w.out)
      (admitted : w'.admitted = w.admitted)
      (released : w'.dispatcher =
        Dispatcher.releaseWaiters order (w.dispatcher.settle m.txid) m.txid)
      (live : w'.live.Perm ((w.live.filter fun x => x.txid ≠ m.txid) ++
        appended (w.dispatcher.settle m.txid) w'.dispatcher)) :
      Effect w w' (.terminal order m.txid .acceptedByNetwork)
  | cascade (order : MapOrder String) (m : PropagationMsg) (status : Status) (out : m ∈ w.out)
      (refused : status = .rejected ∨ status = .pendingRetry)
      (admitted : w'.admitted = w.admitted)
      (cascaded : w'.dispatcher =
        (Dispatcher.cascadeReject order (w.dispatcher.settle m.txid) m.txid).1)
      (live : w'.live.Perm (w.live.filter fun x => x.txid ≠ m.txid)) :
      Effect w w' (.terminal order m.txid status)

section

variable (h : Located none w.dispatcher w.live)
include h

theorem step_effect (ho : w.OwnsBatch e) : Effect w (w.step e) e := by
  cases e with
  | admission msg offset =>
    by_cases hin : msg.txid ∈ w.dispatcher.inFlight
    · apply Effect.quiet <;> simp [step, live, out, Dispatcher.step, handleAdmit, hin]
    · refine .enter msg offset _ hin rfl (by simp [step, hin]) ?_ ?_
      · simp [step, Dispatcher.step, handleAdmit, hin]
      · simp only [step, live, out, Dispatcher.step, handleAdmit, hin, ↓reduceIte]
        rw [place_pendingMsgs]
        exact (append_perm _ _ _).symm
  | requeue msg =>
    obtain ⟨m, hm, hs⟩ := ho
    have hin : msg.txid ∈ w.dispatcher.inFlight :=
      hs.1 ▸ (h.inFlight m (mem_append_right _ hm)).1
    have hl := live_ended h hm
    rw [hs.1] at hl
    refine .requeue msg m hm hs rfl ?_ ?_
    · simp [step, Dispatcher.step, handleRequeue, hin]
    · simp only [step, live, out, Dispatcher.step, handleRequeue, hin, ↓reduceIte] at hl ⊢
      rw [hl, place_pendingMsgs]
      exact (append_perm _ _ _).symm
  | terminal order txid status =>
    obtain ⟨m, hm, rfl⟩ := ho
    have hl := live_ended h hm
    have hcascade : (Dispatcher.cascadeReject order (w.dispatcher.settle m.txid)
        m.txid).1.pendingMsgs = w.dispatcher.pendingMsgs :=
      (cascadeReject_result order (w.dispatcher.settle m.txid) m.txid).pending
    cases status with
    | acceptedByNetwork =>
      refine .release order m hm rfl rfl ?_
      rw [hl]
      change (List.Perm ((Dispatcher.releaseWaiters order _ _).pendingMsgs ++
        (ended w.batches m.txid).flatten) _)
      rw [releaseWaiters_pendingMsgs]
      exact (append_perm _ _ _).symm
    | rejected =>
      refine .cascade order m .rejected hm (.inl rfl) rfl rfl ?_
      rw [hl, ← hcascade]
      exact .refl _
    | pendingRetry =>
      refine .cascade order m .pendingRetry hm (.inr rfl) rfl rfl ?_
      rw [hl, ← hcascade]
      exact .refl _
    | _ =>
      apply Effect.quiet <;>
        simp [step, live, out, Dispatcher.step, Dispatcher.handleTerminal, Status.settles]
  | drain =>
    refine .quiet (by simp) ?_ rfl rfl rfl rfl
    simp only [step, live, out, Dispatcher.step, Dispatcher.drain, flatten_append,
      flatten_singleton, nil_append]
    exact perm_append_comm

theorem step_located (ho : w.OwnsBatch e) : Located none (w.step e).dispatcher (w.step e).live := by
  have hcases := step_effect h ho
  cases hcases with
  | quiet _ hl _ hin hw hh =>
    refine Located.perm ?_ hl.symm
    refine ⟨⟨?_, ?_, ?_⟩, h.nodup, ?_, ?_, by simp⟩
    · rw [hh]; exact h.coherent.key
    · rw [hh, hw]; exact h.coherent.waits
    · rw [hh, hin]; exact h.coherent.held
    · rw [hh, hin]; exact h.inFlight
    · rw [hh, hin]; exact h.covered
  | enter msg offset d hnew hd _ hp hl =>
    refine Located.perm ?_ hl.symm
    rw [hp, hd]
    exact (h.enter offset hnew).place w.dispatcher.inFlight
  | requeue msg m hm hs _ hp hl =>
    refine Located.perm ?_ hl.symm
    rw [hp]
    have hu := h.unload (mem_append_right _ hm)
    rw [hs.1] at hu
    exact hu.place w.dispatcher.inFlight
  | release order m hm _ hr hl =>
    refine Located.perm ?_ hl.symm
    rw [hr]
    exact (h.unload (mem_append_right _ hm)).settle.releaseWaiters order m.txid
  | cascade order m status hm _ _ hr hl =>
    refine Located.perm ?_ hl.symm
    rw [hr]
    exact (h.unload (mem_append_right _ hm)).settle.cascadeReject order m.txid

theorem step_independent
    (hi : Independent w.dispatcher w.live w.admitted) (ho : w.OwnsBatch e) (hf : w.ParentsFirst e) :
    Independent (w.step e).dispatcher (w.step e).live (w.step e).admitted := by
  have hcases := step_effect h ho
  cases hcases with
  | quiet _ hl ha hin _ hh =>
    refine Independent.mono ?_ hl.subset
    refine ⟨?_, ?_, ?_⟩
    · rw [hin]; exact hi.parents
    · rw [ha]; exact hi.live
    · rw [hh, ha]; exact hi.held
  | enter msg offset d hnew hd ha hp hl =>
    refine Independent.mono ?_ hl.subset
    rw [hp, hd, ha]
    refine (hi.enter msg offset (hf hnew)).place msg w.dispatcher.inFlight (fun p hp hn hin => ?_)
      ⟨msg, by simp, rfl, rfl⟩
    rcases (AList.mem_insert _).mp hin with rfl | hin
    · exact hp.2.2 rfl
    · exact hn hin
  | requeue msg m hm hs ha hp hl =>
    refine Independent.mono ?_ hl.subset
    rw [hp, ha]
    refine (hi.mono (filter_subset_self _)).place msg w.dispatcher.inFlight
      (fun _ _ hn => hn) ?_
    obtain ⟨m', hm', hs'⟩ := hi.live m (mem_append_right _ hm)
    exact ⟨m', hm', hs'.1.trans hs.1, hs'.2.trans hs.2⟩
  | release order m hm ha hr hl =>
    refine Independent.mono ?_ hl.subset
    rw [hr, ha]
    have hcoh := (h.unload (mem_append_right _ hm)).settle.coherent
    exact ((hi.mono (filter_subset_self _)).settle m.txid).releaseWaiters hcoh order m.txid
  | cascade order m status hm _ ha hr hl =>
    refine Independent.mono ?_ hl.subset
    rw [hr, ha]
    exact ((hi.mono (filter_subset_self _)).settle m.txid).cascadeReject order m.txid

theorem places_of_located {t : String} (ht : t ∈ w.dispatcher.inFlight) : w.places t = 1 := by
  have hsum : (w.dispatcher.pendingMsgs.map (·.txid)).count t +
      (w.batches.map fun batch => (batch.map (·.txid)).count t).sum =
      (w.live.map (·.txid)).count t := by
    rw [live, out, map_append, count_append, map_flatten, count_flatten, map_map]
    rfl
  have hplaces : w.places t = (w.live.map (·.txid)).count t +
      (if t ∈ w.dispatcher.heldMsgs then 1 else 0) := by
    unfold places
    omega
  rw [hplaces]
  rcases (h.covered t ht).resolve_left (by simp) with hc | ⟨m, hm, rfl⟩
  · have hzero : (w.live.map (·.txid)).count t = 0 := by
      rw [count_eq_zero]
      rintro hx
      obtain ⟨m, hm, rfl⟩ := mem_map.mp hx
      exact (h.inFlight m hm).2 hc
    simp [hzero, hc]
  · have hone := count_eq_one_of_mem h.nodup (mem_map_of_mem hm)
    simp [hone, (h.inFlight m hm).2]

end

/-- When every batch ends its messages by one requeue or one settling verdict,
verdicts arrive for messages of a batch only and parents are admitted before
their children, then in every state of the run an in-flight transaction is in
exactly one place and nothing pending or out has a parent in flight. -/
theorem conserved_and_independent (es : List Dispatcher.Event)
    (ho : AllSteps step OwnsBatch .new es) (hf : AllSteps step ParentsFirst .new es) :
    ∀ w ∈ states step .new es, (∀ t ∈ w.dispatcher.inFlight, w.places t = 1) ∧
      (∀ m ∈ w.dispatcher.pendingMsgs ++ w.batches.flatten, ∀ p ∈ m.inputTXIDs,
        p ≠ m.txid → p ≠ "" → p ∉ w.dispatcher.inFlight) := by
  intro w hw
  have hinv := states_invariant
    (J := fun w => Located none w.dispatcher w.live ∧ Independent w.dispatcher w.live w.admitted)
    (fun w e h hc => ⟨step_located h.1 hc.1, step_independent h.1 h.2 hc.1 hc.2⟩)
    ⟨Located.new, by simp [new, live, out, Dispatcher.new],
      by simp [new, live, out, Dispatcher.new], by simp [new, Dispatcher.new]⟩
    (ho.and hf) w hw
  exact ⟨fun t ht => places_of_located hinv.1 ht,
    fun m hm p hp hne hp' => hinv.2.parents m hm p ⟨hp, hp', hne⟩⟩

/-- A parent is requeued once before it is accepted and frees its child. -/
def requeuedParent : List Dispatcher.Event :=
  [.admission (.fresh "p" [1] []) 0, .admission (.fresh "c" [2] ["p"]) 1, .drain,
    .requeue { PropagationMsg.fresh "p" [1] [] with retryCount := 1 }, .drain,
    .terminal (.stored String) "p" .acceptedByNetwork, .drain]

theorem conserved_and_independent_requeuedParent :
    AllSteps step OwnsBatch .new requeuedParent ∧ AllSteps step ParentsFirst .new requeuedParent ∧
    ∀ w ∈ states step .new requeuedParent, (∀ t ∈ w.dispatcher.inFlight, w.places t = 1) ∧
      (∀ m ∈ w.dispatcher.pendingMsgs ++ w.batches.flatten, ∀ p ∈ m.inputTXIDs,
        p ≠ m.txid → p ≠ "" → p ∉ w.dispatcher.inFlight) :=
  ⟨by decide +kernel, by decide +kernel,
    conserved_and_independent requeuedParent (by decide +kernel) (by decide +kernel)⟩

/-- A transaction without a txid, admitted before the one that spends it. -/
def emptyParent : List Dispatcher.Event :=
  [.admission { txid := "", rawTx := [1], inputTXIDs := [] } 0,
    .admission (.fresh "c" [2] [""]) 1]

/-- The dispatcher skips an empty input, so the child does not wait. -/
theorem emptyParent_coBatched :
    AllSteps step OwnsBatch .new emptyParent ∧ AllSteps step ParentsFirst .new emptyParent ∧
    ∃ w ∈ states step .new emptyParent, ∃ m ∈ w.dispatcher.pendingMsgs, ∃ p ∈ m.inputTXIDs,
        p ≠ m.txid ∧ p ∈ w.dispatcher.inFlight := by
  refine ⟨by decide +kernel, by decide +kernel, run step .new emptyParent, ?_, ?_⟩
  · exact (mem_states_iff _ _ _ _).mpr ⟨emptyParent, [], by simp, rfl⟩
  · decide +kernel

end Pipeline

end Arcade.Propagation
