import Arcade.Lib.Tasks
import Arcade.MerkleService.Pool
import Mathlib.Algebra.Order.Ring.Nat

/-!
The backoff of the catch-up drains of one endpoint. A tick starts a drain unless the breaker is
open, a drain is running or ticks are left to skip; a batch without progress sets how many.
-/

namespace Arcade.MerkleService

open Lib

def catchupMaxBackoffTicks : Nat := 12

namespace Endpoint

/-- The body of the loop of `drainCatchup`. -/
def drainCatchup (ep : Endpoint) : Endpoint :=
  if ep.isOpen ∨ ep.draining then ep
  else if ep.skipTicks > 0 then { ep with skipTicks := ep.skipTicks - 1 }
  else { ep with draining := true }

theorem step_drainTick (cfg : PoolConfig) (s : Pool) (url : String) :
    s.step cfg (.drainTick url) = ⟨s.shared.update url drainCatchup,
      if (s.shared.endpoint url).drainCatchup.draining = (s.shared.endpoint url).draining then s.tasks
      else s.tasks ++ [.drain url .taking]⟩ := by
  simp only [Pool.step, drainCatchup, Shared.update]
  split_ifs with hbusy <;> simp_all [Pool.begin]

/-- `k` ticks in a row start no drain. -/
def passes (ep : Endpoint) : Nat → Bool
  | 0 => true
  | k + 1 => !ep.drainCatchup.draining && ep.drainCatchup.passes k

theorem passes_iff {ep : Endpoint} (hclosed : ep.isOpen = false) (hidle : ep.draining = false)
    (k : Nat) : ep.passes k = true ↔ k ≤ ep.skipTicks := by
  induction k generalizing ep with
  | zero => simp [passes]
  | succ k ih =>
    rcases Nat.eq_zero_or_pos ep.skipTicks with hskip | hskip
    · simp [passes, drainCatchup, hclosed, hidle, hskip]
    · have hnext : ep.drainCatchup = { ep with skipTicks := ep.skipTicks - 1 } := by
        simp [drainCatchup, hclosed, hidle, hskip]
      have hrest := @ih { ep with skipTicks := ep.skipTicks - 1 } hclosed hidle
      rw [passes, hnext, Bool.and_eq_true, hrest]
      simp only [hidle, Bool.not_false, true_and]
      omega

end Endpoint

/-- `batch` is the locked section of `catchupBatch`, of which a drain has one at most, and `done`
the deferred one of the drain. -/
inductive BackoffEvent where
  | tick
  | batch (progress : Nat) (ctxDone : Bool)
  | done
  | breaker (isOpen : Bool)

/-- An endpoint, whether its drain has sent its batch, the batches in a row without progress, and
the ticks skipped since the last of them. -/
structure Drained where
  ep : Endpoint
  sent : Bool
  failed : Nat
  waited : Nat

namespace Drained

def start (queueSize : Nat) : Drained := ⟨.new queueSize, false, 0, 0⟩

def step (s : Drained) : BackoffEvent → Drained
  | .tick =>
    { s with
      ep := s.ep.drainCatchup
      waited := s.waited + (s.ep.skipTicks - s.ep.drainCatchup.skipTicks) }
  | .batch progress ctxDone =>
    if s.ep.draining = false ∨ s.sent then s
    else
      let ep := s.ep.backOff progress ctxDone
      if progress > 0 then ⟨ep, true, 0, 0⟩
      else if ctxDone then { s with ep, sent := true }
      else ⟨ep, true, s.failed + 1, 0⟩
  | .done => { s with ep := { s.ep with draining := false }, sent := false }
  | .breaker isOpen => { s with ep := { s.ep with isOpen } }

/-- The ticks skipped after `failed` batches without progress. -/
def delay (failed : Nat) : Nat := if failed = 0 then 0 else 2 ^ min (failed - 1) 4

structure Inv (s : Drained) : Prop where
  backoff : s.ep.backoffTicks = delay s.failed
  skip : s.ep.skipTicks + s.waited = delay s.failed
  sending : s.ep.draining = true → s.sent = false → s.ep.skipTicks = 0

theorem delay_succ (n : Nat) :
    delay (n + 1) = if delay n = 0 then 1 else if delay n < 12 then delay n * 2 else delay n := by
  rcases n with _ | _ | _ | _ | _ | n <;> simp [delay]

theorem Inv.step {s : Drained} (h : s.Inv) (e : BackoffEvent) : (s.step e).Inv := by
  obtain ⟨hbackoff, hskip, hsending⟩ := h
  cases e with
  | tick =>
    simp only [Drained.step, Endpoint.drainCatchup]
    split_ifs with hbusy hwait
    · exact ⟨hbackoff, by simpa using hskip, hsending⟩
    · exact ⟨hbackoff, by dsimp only; omega, fun hdraining => absurd (.inr hdraining) hbusy⟩
    · exact ⟨hbackoff, by simpa using hskip, fun _ _ => by dsimp only; omega⟩
  | batch progress ctxDone =>
    simp only [Drained.step]
    split_ifs with hdrain hprogress hctx
    · exact ⟨hbackoff, hskip, hsending⟩
    · have hzero := hsending (by simpa using fun h => hdrain (.inl h))
        (by simpa using fun h => hdrain (.inr h))
      have hne := Nat.ne_of_gt hprogress
      exact ⟨by simp [Endpoint.backOff, hprogress, hne, delay],
        by simp [Endpoint.backOff, hprogress, hne, delay, hzero], by simp⟩
    · exact ⟨by simpa [Endpoint.backOff, hprogress, hctx] using hbackoff,
        by simpa [Endpoint.backOff, hprogress, hctx] using hskip, by simp⟩
    · obtain rfl : progress = 0 := by omega
      exact ⟨by simp [Endpoint.backOff, hctx, hbackoff, delay_succ],
        by simp [Endpoint.backOff, hctx, hbackoff, delay_succ], by simp⟩
  | done => exact ⟨hbackoff, hskip, by simp [Drained.step]⟩
  | breaker isOpen => exact ⟨hbackoff, hskip, hsending⟩

/-- While the breaker is closed and no drain runs, at most `catchupMaxBackoffTicks` ticks pass before
one starts a drain, unless the last five batches or more made no progress and fewer than four
ticks were skipped since. -/
theorem passes_le_iff (queueSize : Nat) (es : List BackoffEvent) :
    let s := run step (start queueSize) es
    s.ep.isOpen = false → s.ep.draining = false →
      ((∀ k, s.ep.passes k = true → k ≤ catchupMaxBackoffTicks) ↔ s.failed < 5 ∨ 4 ≤ s.waited) := by
  intro s hclosed hidle
  have hinv : s.Inv := run_keeps (P := Inv) (fun _ e h => h.step e) ⟨rfl, rfl, fun _ _ => rfl⟩ es
  simp only [Endpoint.passes_iff hclosed hidle, catchupMaxBackoffTicks]
  have hskip := hinv.skip
  have hlow : s.failed < 5 → delay s.failed ≤ 8 := by
    rcases s.failed with _ | _ | _ | _ | _ | n <;> simp [delay]
  have hhigh : 5 ≤ s.failed → delay s.failed = 16 := by
    intro h
    simp [delay, show s.failed ≠ 0 by omega, show 4 ≤ s.failed - 1 by omega]
  constructor
  · intro h
    have := h _ (Nat.le_refl _)
    omega
  · intro h k hk
    omega

/-- Five batches without progress, each sent at the first tick that starts a drain. -/
def fiveFailures : List BackoffEvent :=
  [0, 1, 2, 4, 8].flatMap fun wait => List.replicate wait .tick ++ [.tick, .batch 0 false, .done]

theorem fiveFailures_passes :
    (run step (start 0) fiveFailures).ep.isOpen = false ∧
      (run step (start 0) fiveFailures).ep.draining = false ∧
      (run step (start 0) fiveFailures).ep.passes 16 = true ∧ catchupMaxBackoffTicks < 16 := by
  decide

theorem passes_le_iff_fiveFailures :
    ¬∀ k, (run step (start 0) fiveFailures).ep.passes k = true → k ≤ catchupMaxBackoffTicks :=
  fun h => absurd ((passes_le_iff 0 fiveFailures (by decide) (by decide)).mp h) (by decide)

end Drained

/-! ## One drain at a time -/

/-- A drain of the endpoint that has not returned. -/
def Task.drains (e : String) : Task → Bool
  | .drain url phase => url = e ∧ phase ≠ .finished
  | _ => false

def DrainPhase.unsent : DrainPhase → Bool
  | .taking => true
  | .sending _ => true
  | .requeueing _ _ => true
  | _ => false

def Task.unsent (e : String) : Task → Bool
  | .drain url phase => url = e ∧ phase.unsent
  | _ => false

/-- What decides over the drains of an endpoint, but for its breaker. -/
def Endpoint.paced (ep : Endpoint) : Bool × Nat × Nat := (ep.draining, ep.skipTicks, ep.backoffTicks)

variable {cfg : PoolConfig} {sh : Shared} (url e : String)

@[grind =] theorem endpoint_update (f : Endpoint → Endpoint) : (sh.update url f).endpoint e =
      if url = e then f (sh.endpoint e) else sh.endpoint e := by
  by_cases he : url = e
  · simp [Shared.update, he]
  · simp [Shared.update, he, Ne.symm he]

@[grind =] theorem paced_note (notes : List Note) :
    ((sh.note notes).endpoint e).paced = (sh.endpoint e).paced := rfl

@[grind =] theorem paced_record (ep : Endpoint) (threshold ctxDone err) :
    (ep.record threshold ctxDone err).paced = ep.paced := by
  grind [Endpoint.record, Endpoint.closeBreaker, Endpoint.paced]

@[grind =] theorem paced_add (reg : Registration) :
    ((sh.add url reg).endpoint e).paced = (sh.endpoint e).paced := by
  grind [Shared.add, Endpoint.paced]

theorem paced_backOff {ep ep' : Endpoint} (h : ep.paced = ep'.paced) (progress : Nat)
    (ctxDone : Bool) : (ep.backOff progress ctxDone).paced = (ep'.backOff progress ctxDone).paced := by
  simp only [Endpoint.paced, Prod.mk.injEq] at h
  simp only [Endpoint.backOff, h]
  split_ifs <;> simp [Endpoint.paced, h]

/-- What a step of a task does to the drains of an endpoint: nothing, or as the `batch` or the `done`
of `Drained.step`. -/
inductive Paces (sh sh' : Shared) (e : String) (task task' : Task) : Prop where
  | none : (sh'.endpoint e).paced = (sh.endpoint e).paced → task'.drains e = task.drains e →
    (task'.unsent e → task.unsent e) → Paces sh sh' e task task'
  | batch (b : EndpointBatch) (ctxDone : Bool) : task.unsent e → task.drains e → task'.drains e →
    ¬task'.unsent e → (sh'.endpoint e).paced = ((sh.endpoint e).backOff b.progress ctxDone).paced →
    Paces sh sh' e task task'
  | done : task.drains e → ¬task'.drains e →
    (sh'.endpoint e).paced = (false, (sh.endpoint e).paced.2) → Paces sh sh' e task task'

theorem paces_drainStep (phase : DrainPhase) (move : Move) :
    Paces sh (drainStep cfg sh url phase move).1 e (.drain url phase)
      (.drain url (drainStep cfg sh url phase move).2) := by
  by_cases he : url = e
  · subst he
    unfold drainStep Shared.take
    split
    iterate 4 grind [Paces, Task.drains, Task.unsent, DrainPhase.unsent, land, Endpoint.paced]
    · -- the loop of `sendCatchup`, and after it the backoff
      rename_i b i ctxDone
      split
      · grind [Paces, Task.drains, Task.unsent, DrainPhase.unsent]
      · refine .batch b ctxDone ?_ ?_ ?_ ?_ ?_
        iterate 4 simp [Task.unsent, DrainPhase.unsent, Task.drains]
        rw [endpoint_update, if_pos rfl]
        exact paced_backOff (by grind [Shared.settle, Endpoint.paced]) _ _
    iterate 2 grind [Paces, Task.drains, Task.unsent, DrainPhase.unsent, Endpoint.paced]
    · exact .none rfl rfl id
  · refine .none ?_ (by simp [Task.drains, he]) (by simp [Task.unsent, he])
    unfold drainStep Shared.take Shared.settle land
    grind

theorem paces_step (task : Task) (move : Move) :
    Paces sh (task.step cfg sh move).1 e task (task.step cfg sh move).2 := by
  unfold Task.step
  split
  · refine .none ?_ rfl id
    grind [RegisterCall.next]
  · refine .none ?_ rfl id
    grind [RegisterCall.onBatch]
  · refine .none ?_ rfl id
    unfold RegisterCall.onBatch land
    grind
  · refine .none ?_ rfl id
    unfold serviceStep land
    split <;> grind
  · exact .none (paced_add ..) rfl id
  · exact paces_drainStep _ e _ move
  · refine .none ?_ rfl id
    unfold probeStep Shared.take Shared.settle Endpoint.closeBreaker
    split <;> grind [Endpoint.paced]
  · exact .none rfl rfl id

namespace Pool

/-- An endpoint has the flag exactly while a drain of it runs, and no two of them run. -/
def Exclusive (s : Pool) : Prop :=
  ∀ e, s.tasks.countP (·.drains e) = (s.shared.endpoint e).draining.toNat

theorem Exclusive.step {s : Pool} (h : s.Exclusive) (event : PoolEvent) :
    (s.step cfg event).Exclusive := by
  intro e
  have he := h e
  cases event with
  | step i move =>
    dsimp only [Pool.step]
    split
    · exact he
    · rename_i task hi
      have hcount := countP_task_set (·.drains e) hi (task.step cfg s.shared move).2
      have hpaces : Paces s.shared (task.step cfg s.shared move).1 e task
        (task.step cfg s.shared move).2 := paces_step e task move
      cases hpaces <;> grind [Endpoint.paced, Endpoint.backOff, Bool.toNat_le]
  | drainTick url =>
    rw [Endpoint.step_drainTick]
    grind [Endpoint.drainCatchup, Task.drains]
  | _ => grind [Pool.step, begin, Task.drains]

theorem exclusive_run (cfg : PoolConfig) (events : List PoolEvent) :
    (run (step cfg) (start cfg) events).Exclusive :=
  run_keeps (fun _ event h => h.step event) (fun _ => rfl) events

end Pool

end Arcade.MerkleService
