import Arcade.Propagation.WaiterGraph

/-!
What a cascade returns. The walk deletes the waiter set of each parent it takes off the queue, and
the other entries of each child it visits, so a child that several parents share is met once. This
rests on the entries being those that registration makes: `cleanupWaiterEntries` finds the other
parents of a child in its held message, and it skips an empty input and the child itself.
-/

namespace Arcade.Propagation

open Lib List

/-- Every waiter entry is one that registration makes: its child is held and names the parent,
which is neither empty nor the child itself. -/
def Registered (d : Dispatcher) : Prop :=
  ∀ p c, Waits d.waiters p c → ∃ m, d.heldMsgs.lookup c = some m ∧ p ∈ m.inputTXIDs ∧ p ≠ "" ∧ p ≠ c

theorem registered_iff (d : Dispatcher) : Registered d ↔ ∀ p ∈ d.waiters.keys,
    ∀ c ∈ d.children p, ∃ m ∈ d.heldMsgs.lookup c, p ∈ m.inputTXIDs ∧ p ≠ "" ∧ p ≠ c := by
  constructor
  · intro h p _ c hc
    exact h p c ((Dispatcher.mem_children d p c).mp hc)
  · intro h p c hw
    obtain ⟨set, hset, -⟩ := id hw
    exact h p (AList.mem_keys.mp (GoMap.mem_of_lookup hset)) c ((Dispatcher.mem_children d p c).mpr hw)

instance (d : Dispatcher) : Decidable (Registered d) := decidable_of_iff _ (registered_iff d).symm

namespace Dispatcher

/-- What holds between two rounds of the cascade from `rejected`, in any state. -/
structure Reaching (d : Dispatcher) (rejected : String) (queue : List String)
    (s : Dispatcher × List CascadedTx) : Prop where
  result : CascadeResult d s
  /-- A transaction that is met again has lost its held message. -/
  raw : ∀ x ∈ s.2, x.rawTx = heldRawTx d.heldMsgs x.txid ∨ x.rawTx = []
  first : ∀ c, InCascade s.2 c → ⟨c, heldRawTx d.heldMsgs c⟩ ∈ s.2
  reached : ∀ c, InCascade s.2 c → Relation.TransGen (Waits d.waiters) rejected c
  queued : ∀ q ∈ queue, q = rejected ∨ InCascade s.2 q
  rest : ∀ p c, Waits d.waiters p c → ¬InCascade s.2 c →
    Waits s.1.waiters p c ∧ (p = rejected ∨ InCascade s.2 p → p ∈ queue)

theorem Reaching.start (d : Dispatcher) (rejected : String) :
    Reaching d rejected [rejected] (d, []) where
  result := ⟨rfl, by simp [InCascade], by simp [InCascade], rfl, by simp [InCascade],
    fun _ _ hw => hw⟩
  raw := by simp
  first := by simp [InCascade]
  reached := by simp [InCascade]
  queued := by simp
  rest := by simp +contextual [InCascade]

variable {d : Dispatcher} {rejected parent : String} {queue visited : List String}
  {s s' : Dispatcher × List CascadedTx}

theorem Reaching.round (h : Reaching d rejected (parent :: queue) s)
    (hperm : visited.Perm (s.1.children parent))
    (hc : Cascaded parent visited ({ s.1 with waiters := s.1.waiters.erase parent }, s.2) s') :
    Reaching d rejected (queue ++ visited) s' := by
  have hin : ∀ c, InCascade s'.2 c ↔ InCascade s.2 c ∨ c ∈ visited := by
    intro c
    rw [hc.out]
    exact inCascade_append _ _ _ c
  have hvisited : ∀ c, c ∈ visited ↔ Waits s.1.waiters parent c := fun c =>
    hperm.mem_iff.trans (mem_children s.1 parent c)
  have hparent := h.queued parent mem_cons_self
  have hheld : ∀ c, ¬InCascade s.2 c →
      heldRawTx s.1.heldMsgs c = heldRawTx d.heldMsgs c := by
    intro c hn
    have hsame : s.1.heldMsgs.lookup c = d.heldMsgs.lookup c :=
      Option.ext fun m => (h.result.held c m).trans (and_iff_left hn)
    rw [heldRawTx, hsame, heldRawTx]
  refine ⟨h.result.round hc, ?_, ?_, ?_, ?_, ?_⟩
  · intro x hx
    rw [hc.out] at hx
    rcases mem_append.mp hx with hx | hx
    · exact h.raw x hx
    · obtain ⟨c, hv, rfl⟩ := mem_map.mp hx
      by_cases hold : InCascade s.2 c
      · right
        have hgone : s.1.heldMsgs.lookup c = none :=
          Option.eq_none_iff_forall_ne_some.mpr fun m hm => ((h.result.held c m).mp hm).2 hold
        simp only [heldRawTx, hgone]
      · exact .inl (hheld c hold)
  · intro c hic
    rw [hc.out]
    by_cases hold : InCascade s.2 c
    · exact mem_append_left _ (h.first c hold)
    · refine mem_append_right _ (mem_map.mpr ⟨c, ((hin c).mp hic).resolve_left hold, ?_⟩)
      rw [← hheld c hold]
  · intro c hic
    rcases (hin c).mp hic with hold | hv
    · exact h.reached c hold
    · have hedge := h.result.waits parent c ((hvisited c).mp hv)
      rcases hparent with rfl | hparent
      · exact .single hedge
      · exact .tail (h.reached parent hparent) hedge
  · intro q hq
    rcases mem_append.mp hq with hq | hv
    · exact (h.queued q (mem_cons_of_mem _ hq)).imp_right fun hold => (hin q).mpr (.inl hold)
    · exact .inr ((hin q).mpr (.inr hv))
  · intro p c hw hn
    obtain ⟨hold, hv⟩ := not_or.mp (mt (hin c).mpr hn)
    obtain ⟨hws, hq⟩ := h.rest p c hw hold
    have hp : p ≠ parent := by
      rintro rfl
      exact hv ((hvisited c).mpr hws)
    refine ⟨(hc.waits p c).mpr ⟨(waits_erase _ _ _ _).mpr ⟨hp, hws⟩, fun hx => hv hx.1⟩, ?_⟩
    rintro (rfl | hpin)
    · exact mem_append_left _ ((mem_cons.mp (hq (.inl rfl))).resolve_left hp)
    · rcases (hin p).mp hpin with hpin | hpv
      · exact mem_append_left _ ((mem_cons.mp (hq (.inr hpin))).resolve_left hp)
      · exact mem_append_right _ hpv

theorem reaching_cascadeReject (order : MapOrder String) (d : Dispatcher) (rejected : String) :
    Reaching d rejected [] (cascadeReject order d rejected) :=
  cascadeLoop_rule order (Reaching d rejected)
    (fun _ _ _ _ _ hround hperm hc => hround.round hperm hc) [rejected] (d, [])
    (Reaching.start d rejected)

section

variable (h : Reaching d rejected [] s)
include h

theorem Reaching.closed {p c : String} (hw : Waits d.waiters p c) (hn : ¬InCascade s.2 c) :
    Waits s.1.waiters p c ∧ p ≠ rejected ∧ ¬InCascade s.2 p := by
  obtain ⟨hws, hq⟩ := h.rest p c hw hn
  obtain ⟨hr, hp⟩ := not_or.mp fun hor => not_mem_nil (hq hor)
  exact ⟨hws, hr, hp⟩

theorem Reaching.inCascade_iff (c : String) :
    InCascade s.2 c ↔ Relation.TransGen (Waits d.waiters) rejected c := by
  refine ⟨h.reached c, fun hreach => ?_⟩
  induction hreach with
  | single hw =>
    by_contra hn
    exact (h.closed hw hn).2.1 rfl
  | tail _ hw ih =>
    by_contra hn
    exact (h.closed hw hn).2.2 ih

end

/-- What also holds from a state whose waiter entries are registered ones. -/
structure Cascading (d : Dispatcher) (rejected : String) (queue : List String)
    (s : Dispatcher × List CascadedTx) : Prop extends Reaching d rejected queue s where
  registered : Registered s.1
  once : (s.2.map (·.txid)).Nodup

theorem Cascading.not_waits (h : Cascading d rejected queue s) {c : String}
    (hc : InCascade s.2 c) (p : String) : ¬Waits s.1.waiters p c := by
  intro hw
  obtain ⟨m, hm, -⟩ := h.registered p c hw
  exact ((h.result.held c m).mp hm).2 hc

theorem registered_round (h : Registered s.1)
    (hc : Cascaded parent visited ({ s.1 with waiters := s.1.waiters.erase parent }, s.2) s') :
    Registered s'.1 := by
  intro p c hw
  rw [hc.waits, waits_erase] at hw
  obtain ⟨⟨hp, hw⟩, hkept⟩ := hw
  obtain ⟨m, hm, hinput, hempty, hself⟩ := h p c hw
  have hv : c ∉ visited := fun hv => hkept ⟨hv, hp, hempty, hself, m, hm, hinput⟩
  exact ⟨m, by rw [hc.held, if_neg hv]; exact hm, hinput, hempty, hself⟩

theorem Cascading.round (h : Cascading d rejected (parent :: queue) s)
    (hperm : visited.Perm (s.1.children parent))
    (hc : Cascaded parent visited ({ s.1 with waiters := s.1.waiters.erase parent }, s.2) s') :
    Cascading d rejected (queue ++ visited) s' := by
  refine ⟨h.toReaching.round hperm hc, registered_round h.registered hc, ?_⟩
  rw [hc.out, map_append, map_map]
  refine h.once.append ?_ ?_
  · simpa [Function.comp_def] using hperm.nodup_iff.mpr (children_nodup _ _)
  · intro c hold hnew
    have hv : c ∈ visited := by simpa using hnew
    exact h.not_waits (mem_map.mp hold) parent ((mem_children _ _ _).mp (hperm.mem_iff.mp hv))

theorem cascading_cascadeReject (order : MapOrder String) (h : Registered d)
    (rejected : String) : Cascading d rejected [] (cascadeReject order d rejected) :=
  cascadeLoop_rule order (Cascading d rejected)
    (fun _ _ _ _ _ hround hperm hc => hround.round hperm hc) [rejected] (d, [])
    ⟨Reaching.start d rejected, h, nodup_nil⟩

theorem Cascading.raw_eq (h : Cascading d rejected queue s) {x : CascadedTx} (hx : x ∈ s.2) :
    x.rawTx = heldRawTx d.heldMsgs x.txid := by
  have hfirst := h.first x.txid ⟨x, hx, rfl⟩
  exact congrArg CascadedTx.rawTx (inj_on_of_nodup_map h.once hx hfirst rfl)

theorem Cascading.perm (h : Cascading d rejected [] s) (h' : Cascading d rejected [] s') :
    s.2.Perm s'.2 := by
  rw [perm_ext_iff_of_nodup h.once.of_map h'.once.of_map]
  have hsub : ∀ {s s' : Dispatcher × List CascadedTx}, Cascading d rejected [] s →
      Cascading d rejected [] s' → ∀ x ∈ s.2, x ∈ s'.2 := by
    intro s s' h h' x hx
    have hin := (h'.inCascade_iff x.txid).mpr ((h.inCascade_iff x.txid).mp ⟨x, hx, rfl⟩)
    have hfirst := h'.first x.txid hin
    rwa [← h.raw_eq hx] at hfirst
  exact fun x => ⟨hsub h h' x, hsub h' h x⟩

/-- In any state whose waiter entries are registered ones, a cascade returns each descendant once
and nothing else, takes it out of the three maps with its offset done, leaves the entries of every
other transaction as they are, and returns the same transactions in every order. -/
theorem cascadeReject_exact (order : MapOrder String) (d : Dispatcher) (rejected : String)
    (h : Registered d) :
    ((cascadeReject order d rejected).2.map (·.txid)).Nodup ∧
    (∀ c, InCascade (cascadeReject order d rejected).2 c ↔
      Relation.TransGen (Waits d.waiters) rejected c) ∧
    (∀ c, InCascade (cascadeReject order d rejected).2 c →
      c ∉ (cascadeReject order d rejected).1.inFlight ∧
      c ∉ (cascadeReject order d rejected).1.heldMsgs ∧
      (∀ p, ¬Waits (cascadeReject order d rejected).1.waiters p c) ∧
      ∀ o, d.inFlight.lookup c = some o → o ∈ (cascadeReject order d rejected).1.tracker.done) ∧
    (∀ c, ¬InCascade (cascadeReject order d rejected).2 c →
      (cascadeReject order d rejected).1.inFlight.lookup c = d.inFlight.lookup c ∧
      (cascadeReject order d rejected).1.heldMsgs.lookup c = d.heldMsgs.lookup c ∧
      ∀ p, Waits (cascadeReject order d rejected).1.waiters p c ↔ Waits d.waiters p c) ∧
    ∀ order', (cascadeReject order' d rejected).2.Perm (cascadeReject order d rejected).2 := by
  have hc := cascading_cascadeReject order h rejected
  refine ⟨hc.once, hc.inCascade_iff, fun c hin => ⟨?_, ?_, hc.not_waits hin, fun o ho => ?_⟩,
    fun c hn => ⟨?_, ?_, fun p => ⟨hc.result.waits p c, fun hw => (hc.closed hw hn).1⟩⟩,
    fun order' => (cascading_cascadeReject order' h rejected).perm hc⟩
  · intro hmem
    obtain ⟨o, ho⟩ := (GoMap.mem_iff_lookup _ c).mp hmem
    exact ((hc.result.inFlight c o).mp ho).2 hin
  · intro hmem
    obtain ⟨m, hm⟩ := (GoMap.mem_iff_lookup _ c).mp hmem
    exact ((hc.result.held c m).mp hm).2 hin
  · exact (hc.result.done o).mpr (.inr ⟨c, hin, ho⟩)
  · exact Option.ext fun o => (hc.result.inFlight c o).trans (and_iff_left hn)
  · exact Option.ext fun m => (hc.result.held c m).trans (and_iff_left hn)

/-- `a` and `b` wait on `r`, `c` waits on both, and `r` waits on `c`. -/
def diamond : Dispatcher :=
  let held := (PropagationMsg.fresh · [] ·)
  { Dispatcher.new with
    inFlight := (((∅ : GoMap String Int).insert "r" 1).insert "a" 2).insert "c" 3
    waiters := ((((∅ : GoMap String (GoSet String)).insert "r"
      (((∅ : GoSet String).insert "a" ()).insert "b" ())).insert "a"
      ((∅ : GoSet String).insert "c" ())).insert "b"
      ((∅ : GoSet String).insert "c" ())).insert "c" ((∅ : GoSet String).insert "r" ())
    heldMsgs := ((((∅ : GoMap String PropagationMsg).insert "a" (held "a" ["r"])).insert "b"
      (held "b" ["r"])).insert "c" (held "c" ["a", "b"])).insert "r" (held "r" ["c"]) }

theorem cascadeReject_exact_diamond :
    ((cascadeReject (.stored String) diamond "r").2.map (·.txid)).Nodup ∧
      ∀ c, InCascade (cascadeReject (.stored String) diamond "r").2 c ↔
        Relation.TransGen (Waits diamond.waiters) "r" c :=
  have h := cascadeReject_exact (.stored String) diamond "r" (by decide +kernel)
  ⟨h.1, h.2.1⟩

/-- `c` waits on `r` and on itself, and names both. -/
def selfWaiting : Dispatcher :=
  { Dispatcher.new with
    waiters := ((∅ : GoMap String (GoSet String)).insert "r"
      ((∅ : GoSet String).insert "c" ())).insert "c" ((∅ : GoSet String).insert "c" ())
    heldMsgs := (∅ : GoMap String PropagationMsg).insert "c" (.fresh "c" [] ["r", "c"]) }

/-- The entry of a transaction on itself is not cleaned up, and the cascade returns it twice. -/
theorem cascadeReject_selfWaiting_twice : (∀ p c, Waits selfWaiting.waiters p c ↔
      ∃ m, selfWaiting.heldMsgs.lookup c = some m ∧ p ∈ m.inputTXIDs) ∧
    (cascadeReject (.stored String) selfWaiting "r").2.map (·.txid) = ["c", "c"] := by
  constructor
  · intro p c
    simp only [Waits, selfWaiting, GoMap.lookup_insert_eq]
    by_cases hp : p = "c" <;> by_cases hr : p = "r" <;> by_cases hc : c = "c" <;>
      simp [hp, hr, hc, AList.mem_keys, PropagationMsg.fresh]
  · decide +kernel

end Dispatcher

end Arcade.Propagation
