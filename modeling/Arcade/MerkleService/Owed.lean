import Arcade.Lib.Tasks
import Arcade.MerkleService.Pool

/-!
Nothing that the pool reported registered is lost on the way to an endpoint: the endpoint has
acknowledged it or turned it down for good, or the pool still has it for the endpoint, or it was
dropped from a full queue and a resync makes up for it.
-/

namespace Arcade.MerkleService

open Lib List

/-! ## What a task has in hand -/

/-- From place `i` on, the registration has no answer, or a failure that is worth another try. -/
def EndpointBatch.PendingFrom (b : EndpointBatch) (i : Nat) (txid : String) : Prop :=
  ∃ j x, i ≤ j ∧ b.entries[j]? = some x ∧ x.1.txid = txid ∧ x.2.retryable

/-- A taken registration whose answer is not in, or was a failure that is not queued again yet. -/
def Task.Holds : Task → String → String → Prop
  | .drain url (.sending b), e, txid => url = e ∧ b.PendingFrom 0 txid
  | .drain url (.requeueing b i), e, txid => url = e ∧ b.PendingFrom i txid
  | .probe url (.trying reg), e, txid => url = e ∧ reg.txid = txid
  | .probe url (.answered reg err _), e, txid => url = e ∧ reg.txid = txid ∧ retryable err
  | _, _, _ => False

/-- The task has cleared the overflow flag and not yet called the resync hooks. -/
def Task.Fires : Task → String → Prop
  | .drain url .resyncing, e => url = e
  | _, _ => False

/-- Why a registration is not lost to an endpoint. -/
inductive Shared.Owed (sh : Shared) (holds fires : Prop) (e txid : String) : Prop where
  | acked (h : .acked e txid ∈ sh.log)
  | rejected (h : .rejected e txid ∈ sh.log)
  | queued (h : txid ∈ (sh.endpoint e).pending.order)
  | held (h : holds)
  | dropped (h : .dropped e txid ∈ sh.log) (hdue : (sh.endpoint e).pending.overflowed ∨ fires)
  | resynced (h : [.dropped e txid, .resync e].Sublist sh.log)

def QueueOK (cfg : PoolConfig) (q : CatchupQueue) : Prop := q.max = cfg.queueSize ∧ q.Valid

/-- The log grows, and the queues stay in order. -/
structure Grows (cfg : PoolConfig) (sh sh' : Shared) : Prop where
  log : sh.log <+: sh'.log
  ok : (∀ e, QueueOK cfg (sh.endpoint e).pending) → ∀ e, QueueOK cfg (sh'.endpoint e).pending

/-- No queue loses an entry without a note and its flag, and no flag is cleared. -/
structure Keeps (cfg : PoolConfig) (sh sh' : Shared) : Prop extends Grows cfg sh sh' where
  queued : ∀ e txid, txid ∈ (sh.endpoint e).pending.order → txid ∈ (sh'.endpoint e).pending.order ∨
      .dropped e txid ∈ sh'.log ∧ (sh'.endpoint e).pending.overflowed
  flag : ∀ e, (sh.endpoint e).pending.overflowed → (sh'.endpoint e).pending.overflowed

section Keeping

variable {cfg : PoolConfig} {sh sh₁ sh₂ : Shared} {e txid url : String}
  {holds holds' fires fires' : Prop}

theorem Keeps.refl (sh : Shared) : Keeps cfg sh sh where
  log := prefix_rfl
  queued _ _ h := .inl h
  flag _ h := h
  ok h := h

theorem Keeps.trans (h₁ : Keeps cfg sh sh₁) (h₂ : Keeps cfg sh₁ sh₂) : Keeps cfg sh sh₂ where
  log := h₁.log.trans h₂.log
  queued e txid h := by
    rcases h₁.queued e txid h with hq | ⟨hd, hf⟩
    · exact h₂.queued e txid hq
    · exact .inr ⟨h₂.log.subset hd, h₂.flag e hf⟩
  flag e h := h₂.flag e (h₁.flag e h)
  ok h := h₂.ok (h₁.ok h)

theorem Keeps.update {f : Endpoint → Endpoint}
    (h : ∀ ep, (f ep).pending.max = ep.pending.max ∧ (f ep).pending.order = ep.pending.order ∧
      (f ep).pending.byTxID = ep.pending.byTxID ∧
      (f ep).pending.overflowed = ep.pending.overflowed) : Keeps cfg sh (sh.update url f) := by
  obtain ⟨hmax, horder, hbyTxID, hflag⟩ := h (sh.endpoint url)
  refine ⟨⟨prefix_rfl, ?_⟩, ?_, ?_⟩
  · intro hok e
    by_cases he : e = url
    · subst he
      obtain ⟨hm, hv⟩ := hok e
      simpa [Shared.update, QueueOK, hmax, hm] using hv.of_eq hmax horder hbyTxID
    · simpa [Shared.update, he] using hok e
  · intro e txid hq
    by_cases he : e = url
    · subst he
      simpa [Shared.update, horder] using .inl hq
    · simpa [Shared.update, he] using .inl hq
  · intro e hf
    by_cases he : e = url
    · subst he
      simpa [Shared.update, hflag] using hf
    · simpa [Shared.update, he] using hf

theorem Keeps.note (notes : List Note) : Keeps cfg sh (sh.note notes) where
  log := prefix_append _ _
  queued _ _ h := .inl h
  flag _ h := h
  ok h := h

theorem Keeps.add (hmax : 0 < cfg.queueSize) (url : String) (reg : Registration) :
    Keeps cfg sh (sh.add url reg) := by
  refine ⟨⟨prefix_append _ _, ?_⟩, ?_, ?_⟩
  · intro hok e
    by_cases he : e = url
    · subst he
      obtain ⟨hm, hv⟩ := hok e
      have hv' := hv.add reg (hm ▸ hmax)
      simpa [Shared.add, Shared.update, Shared.note, QueueOK, hm] using hv'
    · simpa [Shared.add, Shared.update, Shared.note, he] using hok e
  · intro e txid hq
    by_cases he : e = url
    · subst he
      rcases CatchupQueue.mem_order_add reg hq with hin | hgone
      · exact .inl (by simpa [Shared.add, Shared.update, Shared.note] using hin)
      · refine .inr ⟨?_, ?_⟩
        · exact mem_append_right _ (mem_map_of_mem hgone)
        · simpa [Shared.add, Shared.update, Shared.note] using CatchupQueue.overflowed_add reg hgone
    · exact .inl (by simpa [Shared.add, Shared.update, Shared.note, he] using hq)
  · intro e hf
    by_cases he : e = url
    · subst he
      simpa [Shared.add, Shared.update, Shared.note] using
        CatchupQueue.overflowed_add_of_overflowed reg hf
    · simpa [Shared.add, Shared.update, Shared.note, he] using hf

theorem queued_add (hok : QueueOK cfg (sh.endpoint url).pending) (reg : Registration) :
    reg.txid ∈ ((sh.add url reg).endpoint url).pending.order := by
  simpa [Shared.add, Shared.update, Shared.note] using
    CatchupQueue.self_mem_order_add reg hok.2

/-- What is owed stays so under a change that keeps the queues, when the tasks hold what they
held. -/
theorem Shared.Owed.keep (h : sh.Owed holds fires e txid) (hk : Keeps cfg sh sh₁)
    (hholds : holds → sh₁.Owed holds' fires' e txid) (hfires : fires → fires') :
    sh₁.Owed holds' fires' e txid := by
  cases h with
  | acked h => exact .acked (hk.log.subset h)
  | rejected h => exact .rejected (hk.log.subset h)
  | queued h =>
    rcases hk.queued e txid h with hq | ⟨hd, hf⟩
    · exact .queued hq
    · exact .dropped hd (.inl hf)
  | held h => exact hholds h
  | dropped h hdue => exact .dropped (hk.log.subset h) (hdue.imp (hk.flag e) hfires)
  | resynced h => exact .resynced (h.trans hk.log.sublist)

theorem Shared.Owed.imp (h : sh.Owed holds fires e txid) (hholds : holds → holds')
    (hfires : fires → fires') : sh.Owed holds' fires' e txid := by
  cases h with
  | acked h => exact .acked h
  | rejected h => exact .rejected h
  | queued h => exact .queued h
  | held h => exact .held (hholds h)
  | dropped h hdue => exact .dropped h (hdue.imp id hfires)
  | resynced h => exact .resynced h

end Keeping

/-! ## One step of a task -/

section Steps

variable {cfg : PoolConfig} {sh : Shared}

theorem pending_closeBreaker (ep : Endpoint) : ep.closeBreaker.pending = ep.pending := by
  unfold Endpoint.closeBreaker
  split <;> rfl

variable (url : String) {txid : String}

theorem keeps_close : Keeps cfg sh (sh.update url Endpoint.closeBreaker) :=
  .update fun ep => by simp [pending_closeBreaker]

theorem keeps_record (ctxDone : Bool) (err : Option Err) :
    Keeps cfg sh (sh.update url (Endpoint.record cfg.threshold ctxDone err)) := by
  refine Keeps.update ?_
  intro ep
  have hpending : (ep.record cfg.threshold ctxDone err).pending = ep.pending := by
    unfold Endpoint.record
    split
    · rfl
    · split
      · rw [pending_closeBreaker]
      · rfl
    · rfl
  simp [hpending]

theorem keeps_land (b : EndpointBatch) (j : Nat) (a : Answer) (notes : Registration → List Note) :
    Keeps cfg sh (land cfg sh url b j a notes).1 := by
  unfold land
  split
  · exact (keeps_record url _ _).trans (.note _)
  · exact .refl sh

theorem keeps_next (hmax : 0 < cfg.queueSize) (c : RegisterCall) (ctxDone : Bool) :
    Keeps cfg sh (c.next cfg sh ctxDone).1 := by
  unfold RegisterCall.next
  split
  · exact .refl sh
  · split <;> exact .refl sh
  · split <;> exact .refl sh
  · exact .add hmax _ _
  · exact .refl sh
  · exact .refl sh

theorem keeps_onBatch {c : RegisterCall} {url : String} {f : EndpointBatch → Shared × EndpointBatch}
    (hf : ∀ b, Keeps cfg sh (f b).1) : Keeps cfg sh (c.onBatch sh url f).1 := by
  unfold RegisterCall.onBatch
  split
  · exact hf _
  · exact .refl sh

theorem keeps_serviceStep (hmax : 0 < cfg.queueSize) (url : String) (phase : ServicePhase)
    (move : Move) : Keeps cfg sh (serviceStep cfg sh url phase move).1 := by
  unfold serviceStep
  split
  · split <;> exact .refl sh
  · exact .refl sh
  · exact keeps_land ..
  · exact .add hmax _ _
  · exact .refl sh

theorem EndpointBatch.getElem?_set (b : EndpointBatch) (j : Nat) (entry : Entry) (k : Nat) :
    (b.set j entry).entries[k]? = b.entries[k]?.map fun x => if j = k then (x.1, entry) else x := by
  simp only [EndpointBatch.set, List.getElem?_modify]
  split <;> simp

theorem EndpointBatch.pendingFrom_set {b : EndpointBatch} (h : b.PendingFrom 0 txid) (j : Nat)
    (entry : Entry) :
    (b.set j entry).PendingFrom 0 txid ∨
      entry.retryable = false ∧ ∃ x, b.entries[j]? = some x ∧ x.1.txid = txid := by
  obtain ⟨k, x, -, hk, htxid, hretry⟩ := h
  by_cases hj : j = k
  · subst hj
    cases hentry : entry.retryable with
    | true =>
      exact .inl ⟨j, (x.1, entry), Nat.zero_le _, by simp [b.getElem?_set, hk], htxid, hentry⟩
    | false => exact .inr ⟨rfl, x, hk, htxid⟩
  · exact .inl ⟨k, x, Nat.zero_le _, by simp [b.getElem?_set, hk, hj], htxid, hretry⟩

/-- The loop does nothing, or it gives an entry a place or a failure worth another try. -/
theorem EndpointBatch.launch_cases (b : EndpointBatch) (isOpen sendDone : Bool) :
    b.launch isOpen sendDone = b ∨ ∃ j entry, b.launch isOpen sendDone = b.set j entry ∧
      entry.retryable = true ∧ entry ≠ .answered none := by
  unfold launch
  split
  · exact .inl rfl
  · split
    · exact .inr ⟨_, _, rfl, rfl, by simp⟩
    · split
      · split <;> exact .inr ⟨_, _, rfl, rfl, by simp⟩
      · exact .inl rfl

theorem EndpointBatch.pendingFrom_launch {b : EndpointBatch} (h : b.PendingFrom 0 txid)
    (isOpen sendDone : Bool) : (b.launch isOpen sendDone).PendingFrom 0 txid := by
  rcases b.launch_cases isOpen sendDone with heq | ⟨j, entry, heq, hentry, -⟩
  · rwa [heq]
  · rw [heq]
    exact (pendingFrom_set h j entry).resolve_right fun hno => by simp [hentry] at hno

theorem owed_catchupNotes {holds fires : Prop} {url : String} {err : Option Err}
    {reg : Registration} (h : retryable err = false) :
    (sh.note (catchupNotes url err reg)).Owed holds fires url reg.txid := by
  cases err with
  | none => exact .acked (mem_append_right _ mem_cons_self)
  | some err =>
    have hperm : permanentRejection err = true := by simpa [retryable] using h
    exact .rejected (mem_append_right _ (by simp [catchupNotes, hperm]))

theorem EndpointBatch.pendingFrom_start {registrations : List Registration} {maxConcurrency : Int}
    (h : txid ∈ registrations.map (·.txid)) :
    (start registrations maxConcurrency).PendingFrom 0 txid := by
  obtain ⟨reg, hreg, rfl⟩ := mem_map.mp h
  obtain ⟨j, hj⟩ := mem_iff_getElem?.mp hreg
  exact ⟨j, (reg, .waiting), Nat.zero_le _, by simp [start, hj], rfl, rfl⟩

theorem owed_take (hok : ∀ e, QueueOK cfg (sh.endpoint e).pending) {url e : String} {n : Nat}
    {holds holds' fires fires' : Prop} (h : sh.Owed holds fires e txid) (hholds : holds → holds')
    (htaken : url = e → txid ∈ (sh.take url n).2.map (·.txid) → holds') (hfires : fires → fires') :
    (sh.take url n).1.Owed holds' fires' e txid := by
  cases h with
  | acked h => exact .acked h
  | rejected h => exact .rejected h
  | queued h =>
    by_cases he : e = url
    · subst he
      rcases CatchupQueue.mem_order_take n (hok e).2 h with hq | ht
      · exact .queued (by simpa [Shared.take, Shared.update] using hq)
      · exact .held (htaken rfl ht)
    · exact .queued (by simpa [Shared.take, Shared.update, he] using h)
  | held h => exact .held (hholds h)
  | dropped h hdue =>
    refine .dropped h (hdue.imp (fun hf => ?_) hfires)
    by_cases he : e = url
    · subst he
      simpa [Shared.take, Shared.update] using hf
    · simpa [Shared.take, Shared.update, he] using hf
  | resynced h => exact .resynced h

theorem grows_take (n : Nat) : Grows cfg sh (sh.take url n).1 := by
  refine ⟨prefix_rfl, ?_⟩
  intro hok e
  by_cases he : e = url
  · subst he
    obtain ⟨hm, hv⟩ := hok e
    simpa [Shared.take, Shared.update, QueueOK, hm] using hv.take n
  · simpa [Shared.take, Shared.update, he] using hok e

theorem keeps_leave : Keeps cfg sh (sh.update url fun ep => { ep with draining := false }) :=
  .update fun _ => ⟨rfl, rfl, rfl, rfl⟩

theorem keeps_settle (n : Nat) : Keeps cfg sh (sh.settle url n) :=
  .update fun _ => ⟨rfl, rfl, rfl, rfl⟩

theorem keeps_settle_backOff (n progress : Nat) (ctxDone : Bool) :
    Keeps cfg sh ((sh.settle url n).update url (.backOff progress ctxDone)) := by
  refine (keeps_settle url n).trans (.update ?_)
  intro ep
  have hpending : (ep.backOff progress ctxDone).pending = ep.pending := by
    unfold Endpoint.backOff
    split
    · rfl
    · split <;> rfl
  simp [hpending]

section Overflow

variable {url e txid : String} {H F : Prop}

theorem owed_clear (h : sh.Owed (H ∨ (Task.drain url .settled).Holds e txid)
      (F ∨ (Task.drain url .settled).Fires e) e txid) :
    (sh.update url fun ep =>
        { ep with pending := (sh.endpoint url).pending.drainedAfterOverflow.1 }).Owed
      (H ∨ (Task.drain url .resyncing).Holds e txid) (F ∨ (Task.drain url .resyncing).Fires e)
      e txid := by
  obtain ⟨-, horder, -, -⟩ := (sh.endpoint url).pending.drainedAfterOverflow_fields
  cases h with
  | acked h => exact .acked h
  | rejected h => exact .rejected h
  | queued h =>
    by_cases he : e = url
    · subst he
      exact .queued (by simpa [Shared.update, horder] using h)
    · exact .queued (by simpa [Shared.update, he] using h)
  | held h => exact .held (h.imp id False.elim)
  | dropped h hdue =>
    by_cases he : url = e
    · exact .dropped h (.inr (.inr he))
    · refine .dropped h (hdue.imp (fun hf => ?_) fun hf => hf.imp id False.elim)
      simpa [Shared.update, Ne.symm he] using hf
  | resynced h => exact .resynced h

theorem owed_resync (h : sh.Owed (H ∨ (Task.drain url .resyncing).Holds e txid)
      (F ∨ (Task.drain url .resyncing).Fires e) e txid) :
    ((sh.update url fun ep => { ep with draining := false }).note [.resync url]).Owed
      (H ∨ (Task.drain url .finished).Holds e txid) (F ∨ (Task.drain url .finished).Fires e)
      e txid := by
  have hk : Keeps ⟨[], nodup_nil, 0, 0⟩ sh
      ((sh.update url fun ep => { ep with draining := false }).note [.resync url]) :=
    (keeps_leave url).trans (.note _)
  cases h with
  | dropped h hdue =>
    rcases hdue with hf | hF | rfl
    · exact .dropped (hk.log.subset h) (.inl (hk.flag e hf))
    · exact .dropped (hk.log.subset h) (.inr (.inl hF))
    · exact .resynced ((singleton_sublist.mpr h).append (List.Sublist.refl [Note.resync url]))
  | acked h => exact .acked (hk.log.subset h)
  | rejected h => exact .rejected (hk.log.subset h)
  | queued h =>
    rcases hk.queued e txid h with hq | ⟨hd, hf⟩
    · exact .queued hq
    · exact .dropped hd (.inl hf)
  | held h => exact .held (h.imp id False.elim)
  | resynced h => exact .resynced (h.trans hk.log.sublist)

theorem grows_clear (url : String) : Grows cfg sh (sh.update url fun ep =>
    { ep with pending := (sh.endpoint url).pending.drainedAfterOverflow.1 }) := by
  obtain ⟨hmax, horder, hbyTxID, -⟩ := (sh.endpoint url).pending.drainedAfterOverflow_fields
  refine ⟨prefix_rfl, ?_⟩
  intro hok e
  by_cases he : e = url
  · subst he
    obtain ⟨hm, hv⟩ := hok e
    simpa [Shared.update, QueueOK, hmax, hm] using hv.of_eq hmax horder hbyTxID
  · simpa [Shared.update, he] using hok e

end Overflow

end Steps

/-! ## Drains and probes -/

/-- What a step of a task may do: the log grows, the queues stay in order, and what is owed stays
so, whatever the other tasks hold and are about to do. -/
structure Advances (cfg : PoolConfig) (sh : Shared) (task : Task) (r : Shared × Task) : Prop where
  log : sh.log <+: r.1.log
  ok : ∀ e, QueueOK cfg (r.1.endpoint e).pending
  owed : ∀ {e txid : String} {H F : Prop},
    sh.Owed (H ∨ task.Holds e txid) (F ∨ task.Fires e) e txid →
      r.1.Owed (H ∨ r.2.Holds e txid) (F ∨ r.2.Fires e) e txid

section Advances

variable {cfg : PoolConfig} {sh sh' : Shared} {task task' : Task}
  (hok : ∀ e, QueueOK cfg (sh.endpoint e).pending)
include hok

theorem Advances.keep (hk : Keeps cfg sh sh')
    (hheld : ∀ e txid, task.Holds e txid → sh'.Owed (task'.Holds e txid) False e txid)
    (hfires : ∀ e, task.Fires e → task'.Fires e) : Advances cfg sh task (sh', task') where
  log := hk.log
  ok := hk.ok hok
  owed h := h.keep hk (fun hh => hh.elim (fun hH => .held (.inl hH))
    fun hh => (hheld _ _ hh).imp .inr False.elim) fun hf => hf.imp id (hfires _)

theorem Advances.idle (hk : Keeps cfg sh sh') (hholds : ∀ e txid, ¬ task.Holds e txid)
    (hfires : ∀ e, ¬ task.Fires e) : Advances cfg sh task (sh', task') :=
  .keep hok hk (fun e txid hh => absurd hh (hholds e txid)) fun e hf => absurd hf (hfires e)

variable (hmax : 0 < cfg.queueSize) (url : String) (move : Move)
include hmax

theorem advances_drainStep (phase : DrainPhase) : Advances cfg sh (.drain url phase)
    ((drainStep cfg sh url phase move).1, .drain url (drainStep cfg sh url phase move).2) := by
  unfold drainStep
  split
  · -- taking
    refine ⟨prefix_rfl, (grows_take url 500).ok hok, fun h => owed_take hok h
      (fun hh => hh.imp id False.elim) ?_ (fun hf => hf.imp id False.elim)⟩
    rintro rfl ht
    have hlen : (sh.take url 500).2.length > 0 := by
      simpa using length_pos_of_mem ht
    dsimp only
    rw [if_pos hlen]
    exact .inr ⟨rfl, EndpointBatch.pendingFrom_start ht⟩
  · -- the batch is answered
    split
    · exact .keep hok (.refl sh) (fun _ _ hh => .held hh) fun _ => id
    · exact .keep hok (.refl sh) (fun _ _ hh => .held hh) fun _ => id
  · -- the loop of the batch goes on
    exact .keep hok (.refl sh)
      (fun _ _ hh => .held ⟨hh.1, EndpointBatch.pendingFrom_launch hh.2 _ _⟩) fun _ => id
  · -- an answer
    rename_i b url' j a
    refine .keep hok (keeps_land ..) ?_ fun _ => id
    rintro e txid ⟨rfl, hp⟩
    unfold land
    split
    · rename_i reg hj
      rcases EndpointBatch.pendingFrom_set hp j (.answered a.err) with hp' | ⟨hno, x, hx, rfl⟩
      · exact .held ⟨rfl, hp'⟩
      · obtain rfl := Option.mem_unique hj hx
        exact owed_catchupNotes hno
    · exact .held ⟨rfl, hp⟩
  · -- the loop over the results
    rename_i b i ctxDone
    split
    · rename_i reg entry hi
      have hlater : ∀ j x, i ≤ j → b.entries[j]? = some x → j ≠ i → i + 1 ≤ j := by
        intro j x hij _ hne
        omega
      split
      · refine .keep hok (.add hmax url reg) ?_ fun _ => id
        rintro e txid ⟨rfl, j, x, hij, hj, rfl, hretry⟩
        by_cases hji : j = i
        · subst hji
          obtain rfl := Option.mem_unique hi hj
          exact .queued (queued_add (hok url) reg)
        · exact .held ⟨rfl, j, x, hlater j x hij hj hji, hj, rfl, hretry⟩
      · rename_i hno
        refine .keep hok (.refl sh) ?_ fun _ => id
        rintro e txid ⟨rfl, j, x, hij, hj, rfl, hretry⟩
        by_cases hji : j = i
        · subst hji
          obtain rfl := Option.mem_unique hi hj
          exact absurd hretry hno
        · exact .held ⟨rfl, j, x, hlater j x hij hj hji, hj, rfl, hretry⟩
    · rename_i hi
      refine .keep hok (keeps_settle_backOff ..) ?_ fun _ => id
      rintro e txid ⟨rfl, j, x, hij, hj, -⟩
      have hlt := (List.getElem?_eq_some_iff.mp hj).1
      have := List.getElem?_eq_none_iff.mp hi
      omega
  · -- the overflow flag
    dsimp only
    split
    · exact ⟨prefix_rfl, (grows_clear url).ok hok, owed_clear⟩
    · exact .keep hok (keeps_leave url) (fun _ _ => False.elim) fun _ => id
  · -- the resync hooks
    have hk : Keeps cfg sh _ := (keeps_leave url).trans (.note [.resync url])
    exact ⟨hk.log, hk.ok hok, owed_resync⟩
  · exact .keep hok (.refl sh) (fun _ _ hh => .held hh) fun _ => id

theorem advances_probeStep (phase : ProbePhase) : Advances cfg sh (.probe url phase)
    ((probeStep cfg sh url phase move).1, .probe url (probeStep cfg sh url phase move).2) := by
  unfold probeStep
  split
  · exact .keep hok (.refl sh) (fun _ _ => False.elim) fun _ => id
  · -- the trial takes an entry
    refine ⟨prefix_rfl, (grows_take url 1).ok hok, fun h => owed_take hok h
      (fun hh => hh.imp id False.elim) ?_ (fun hf => hf.imp id False.elim)⟩
    rintro rfl ht
    have hlen : (sh.take url 1).2.length ≤ 1 := CatchupQueue.length_take_le 1
    dsimp only
    obtain ⟨reg, hreg, rfl⟩ := mem_map.mp ht
    split
    · rename_i hnil
      simp [hnil] at hreg
    · rename_i reg' rest hcons
      obtain rfl : rest = [] := by simpa [hcons] using hlen
      obtain rfl : reg = reg' := by simpa [hcons] using hreg
      exact .inr ⟨rfl, rfl⟩
  · -- its answer
    rename_i reg url' j a
    refine .keep hok ((keeps_record url _ _).trans (.note _)) ?_ fun _ => id
    rintro e txid ⟨rfl, rfl⟩
    cases hr : retryable a.err with
    | true => exact .held ⟨rfl, rfl, hr⟩
    | false => exact owed_catchupNotes hr
  · -- a failure is queued again
    rename_i reg err passed ctxDone
    split
    · refine .keep hok (.add hmax url reg) ?_ fun _ => id
      rintro e txid ⟨rfl, rfl, -⟩
      exact .queued (queued_add (hok url) reg)
    · rename_i hno
      exact .keep hok (.refl sh) (fun _ _ hh => absurd hh.2.2 hno) fun _ => id
  · exact .keep hok (keeps_settle ..) (fun _ _ => False.elim) fun _ => id
  · exact .keep hok (keeps_close url) (fun _ _ => False.elim) fun _ => id
  · exact .keep hok (.refl sh) (fun _ _ hh => .held hh) fun _ => id

theorem advances_taskStep (task : Task) : Advances cfg sh task (task.step cfg sh move) := by
  unfold Task.step
  split
  · exact .idle hok (keeps_next hmax _ _) (fun _ _ => id) fun _ => id
  · exact .idle hok (keeps_onBatch fun _ => .refl sh) (fun _ _ => id) fun _ => id
  · exact .idle hok (keeps_onBatch fun _ => keeps_land ..) (fun _ _ => id) fun _ => id
  · exact .idle hok (keeps_serviceStep hmax ..) (fun _ _ => id) fun _ => id
  · exact .idle hok (.add hmax _ _) (fun _ _ => id) fun _ => id
  · exact advances_drainStep hok hmax _ _ _
  · exact advances_probeStep hok hmax _ _ _
  · exact .keep hok (.refl sh) (fun _ _ hh => .held hh) fun _ => id

end Advances

/-! ## The pool -/

/-- Why the registration is not lost to the endpoint. -/
def Pool.Owed (s : Pool) (e txid : String) : Prop :=
  s.shared.Owed (∃ task ∈ s.tasks, task.Holds e txid) (∃ task ∈ s.tasks, task.Fires e) e txid

end Arcade.MerkleService
