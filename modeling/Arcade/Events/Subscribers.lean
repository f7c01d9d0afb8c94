import Arcade.Kafka.Consumer
import Arcade.Lib.GoMap
import Arcade.Lib.Transition

/-!
Subscribers of the status topic.

`Subscribe` opens a consumer group of its own and returns a channel. The group id is built
from the caller, the hostname and a per-process count, so it comes back when a process is
started again on a host of the same name. The broker remembers the committed offsets of a
group over the life of its processes, and the consumer wrapper marks what it has handled.
-/

namespace Arcade.Events

open Lib
open Kafka (Delivery ConsumerGroup newConsumerGroup processOne)

/-! ## Group ids -/

def isGroupChar (c : Char) : Bool :=
  ('a' ≤ c && c ≤ 'z') || ('A' ≤ c && c ≤ 'Z') || ('0' ≤ c && c ≤ '9') ||
    c = '-' || c = '_' || c = '.'

def sanitizeGroupComponent (s : String) : String := String.ofList (s.toList.filter isGroupChar)

/-- A random id; `none` when there is no randomness to be had. -/
def uniqueGroupID (caller : String) (random : Option String) : Option String :=
  random.map fun hex => "arcade-events-" ++ caller ++ "-" ++ hex

/-- The group of the `seq`-th subscription of the caller; `none` is an error. -/
def subscriberGroupID (caller : String) (hostname : Option String) (seq : Nat)
    (random : Option String) : Option String :=
  match hostname with
  | none => uniqueGroupID caller random
  | some host =>
    let sanitized := sanitizeGroupComponent host
    if sanitized = "" ∨ sanitized = "localhost" then uniqueGroupID caller random
    else some ("arcade-events-" ++ caller ++ "-" ++ sanitized ++ "-" ++ toString seq)

/-! ## Processes, groups and channels -/

/-- A process on a host; `groupSeq` counts its subscriptions per caller. -/
structure Process where
  hostname : Option String
  groupSeq : GoMap String Nat

/-- A subscription. `since` has the end of each partition at the time of the call, `claims` the
next offset on each partition it was given, and `channel` what the channel has yielded, as
partition and offset. -/
structure Subscriber where
  process : Nat
  group : String
  since : Nat → Nat
  claims : GoMap Nat Nat
  channel : List (Nat × Nat)
  running : Bool

/-- `published` counts the events of each partition, and `offsets` has the committed offset of a
group on a partition. -/
structure Fleet where
  processes : Nat → Option Process
  processCount : Nat
  subs : Nat → Option Subscriber
  subCount : Nat
  published : Nat → Nat
  offsets : GoMap (String × Nat) Nat

def Fleet.empty : Fleet := ⟨fun _ => none, 0, fun _ => none, 0, fun _ => 0, ∅⟩

inductive Event where
  | start (hostname : Option String)
  | stop (process : Nat)
  | publish (partition : Nat)
  | subscribe (process : Nat) (caller : String) (random : Option String)
  /-- The broker gives a partition to a subscriber. -/
  | claim (sub partition : Nat)
  /-- A rebalance takes it away. -/
  | revoke (sub partition : Nat)
  | cancel (sub : Nat)
  /-- The next message of the partition: whether it decodes, and whether the channel has room. -/
  | deliver (sub partition : Nat) (decodes room : Bool)

/-- `Subscribe` leaves the number of tries open and has a producer. -/
def eventGroup : ConsumerGroup := newConsumerGroup 0 true

/-- The handler returns without error whatever it does with the event. -/
def statusUpdate (offset : Nat) : Delivery where
  topic := "arcade.tx_status"
  key := ""
  offset := offset
  attempts _ := ⟨false, none⟩
  encodes := true
  sendRaw := none

/-- The committed offset of a group after it has processed a message. -/
def commitOffset (offsets : GoMap (String × Nat) Nat) (group : String) (partition offset : Nat) :
    GoMap (String × Nat) Nat :=
  match Kafka.committed (offsets.lookup (group, partition))
      (processOne eventGroup (statusUpdate offset)) with
  | some committed => offsets.insert (group, partition) committed
  | none => offsets

def Subscriber.opened (process : Nat) (group : String) (since : Nat → Nat) : Subscriber :=
  ⟨process, group, since, ∅, [], true⟩

def Subscriber.stopped (sub : Subscriber) : Subscriber :=
  { sub with
    claims := ∅
    running := false }

def Subscriber.revoked (sub : Subscriber) (partition : Nat) : Subscriber :=
  { sub with claims := sub.claims.erase partition }

def Subscriber.received (sub : Subscriber) (partition offset : Nat) (yielded : Bool) : Subscriber :=
  { sub with
    claims := sub.claims.insert partition (offset + 1)
    channel := if yielded then sub.channel ++ [(partition, offset)] else sub.channel }

/-- A group resumes at its committed offset, or starts at the end of the partition. -/
def startOffset (s : Fleet) (sub : Subscriber) (partition : Nat) : Nat :=
  (s.offsets.lookup (sub.group, partition)).getD (s.published partition)

def claimed (s : Fleet) (sub : Subscriber) (partition : Nat) : Subscriber :=
  { sub with claims := sub.claims.insert partition (startOffset s sub partition) }

/-- The subscriber runs, and no member of its group has the partition. -/
def claimable (s : Fleet) (sub : Subscriber) (partition : Nat) : Bool :=
  sub.running && (List.range s.subCount).all fun i =>
    match s.subs i with
    | some other => other.group ≠ sub.group || (other.claims.lookup partition).isNone
    | none => true

def subscribe (s : Fleet) (k : Nat) (proc : Process) (caller : String) (random : Option String) :
    Fleet :=
  let caller := if caller = "" then "unknown" else caller
  let seq := (proc.groupSeq.lookup caller).getD 0
  let counted := { s with
    processes := Function.update s.processes k
      (some { proc with groupSeq := proc.groupSeq.insert caller (seq + 1) }) }
  match subscriberGroupID caller proc.hostname seq random with
  | none => counted
  | some group =>
    { counted with
      subs := Function.update s.subs s.subCount (some (.opened k group s.published))
      subCount := s.subCount + 1 }

def step (s : Fleet) : Event → Fleet
  | .start hostname =>
    { s with
      processes := Function.update s.processes s.processCount (some ⟨hostname, ∅⟩)
      processCount := s.processCount + 1 }
  | .stop k =>
    { s with
      processes := Function.update s.processes k none
      subs := fun i => (s.subs i).map fun sub => if sub.process = k then sub.stopped else sub }
  | .publish partition =>
    { s with published := Function.update s.published partition (s.published partition + 1) }
  | .subscribe k caller random =>
    match s.processes k with
    | some proc => subscribe s k proc caller random
    | none => s
  | .claim i partition =>
    match s.subs i with
    | some sub =>
      if claimable s sub partition then
        { s with subs := Function.update s.subs i (some (claimed s sub partition)) }
      else s
    | none => s
  | .revoke i partition =>
    match s.subs i with
    | some sub => { s with subs := Function.update s.subs i (some (sub.revoked partition)) }
    | none => s
  | .cancel i =>
    match s.subs i with
    | some sub => { s with subs := Function.update s.subs i (some sub.stopped) }
    | none => s
  | .deliver i partition decodes room =>
    match s.subs i with
    | some sub =>
      match sub.claims.lookup partition with
      | some offset =>
        if offset < s.published partition then
          { s with
            subs := Function.update s.subs i
              (some (sub.received partition offset (decodes && room)))
            offsets := commitOffset s.offsets sub.group partition offset }
        else s
      | none => s
    | none => s

/-! ## What a step does to a subscriber -/

/-- The `i`-th subscriber after the event, from the state before it. -/
inductive Moves (s : Fleet) (e : Event) (i : Nat) : Subscriber → Prop where
  | opens (k : Nat) (group : String) : Moves s e i (.opened k group s.published)
  | stays {sub : Subscriber} : s.subs i = some sub → Moves s e i sub
  | stops {sub : Subscriber} : s.subs i = some sub → Moves s e i sub.stopped
  | claims {sub : Subscriber} {partition : Nat} : s.subs i = some sub → e = .claim i partition →
    claimable s sub partition = true → Moves s e i (claimed s sub partition)
  | revokes {sub : Subscriber} (partition : Nat) : s.subs i = some sub →
    Moves s e i (sub.revoked partition)
  | receives {sub : Subscriber} {partition offset : Nat} (yielded : Bool) : s.subs i = some sub →
    sub.claims.lookup partition = some offset → Moves s e i (sub.received partition offset yielded)

variable {sub : Subscriber} {s : Fleet} {i partition : Nat}

theorem moves_update {e : Event} {j : Nat} {sub' : Subscriber} (hmoves : Moves s e j sub')
    (h : Function.update s.subs j (some sub') i = some sub) : Moves s e i sub := by
  by_cases hij : i = j
  · subst hij
    rw [Function.update_self] at h
    cases h
    exact hmoves
  · rw [Function.update_of_ne hij] at h
    exact .stays h

theorem step_moves (s : Fleet) (e : Event) (h : (step s e).subs i = some sub) :
    Moves s e i sub := by
  cases e with
  | start hostname => exact .stays h
  | publish partition => exact .stays h
  | stop k =>
    simp only [step, Option.map_eq_some_iff] at h
    obtain ⟨sub₀, hsub₀, rfl⟩ := h
    split
    · exact .stops hsub₀
    · exact .stays hsub₀
  | subscribe k caller random =>
    simp only [step] at h
    split at h
    · simp only [subscribe] at h
      split at h
      · exact .stays h
      · exact moves_update (.opens k _) h
    · exact .stays h
  | claim j partition =>
    simp only [step] at h
    split at h
    · rename_i sub₀ hsub₀
      split at h
      · rename_i hclaimable
        exact moves_update (.claims hsub₀ rfl hclaimable) h
      · exact .stays h
    · exact .stays h
  | revoke j partition =>
    simp only [step] at h
    split at h
    · rename_i sub₀ hsub₀
      exact moves_update (.revokes partition hsub₀) h
    · exact .stays h
  | cancel j =>
    simp only [step] at h
    split at h
    · rename_i sub₀ hsub₀
      exact moves_update (.stops hsub₀) h
    · exact .stays h
  | deliver j partition decodes room =>
    simp only [step] at h
    split at h
    · rename_i sub₀ hsub₀
      split at h
      · rename_i offset hoffset
        split at h
        · exact moves_update (.receives _ hsub₀ hoffset) h
        · exact .stays h
      · exact .stays h
    · exact .stays h

theorem published_step (s : Fleet) (e : Event) (partition : Nat) :
    s.published partition ≤ (step s e).published partition := by
  cases e with
  | publish p =>
    by_cases hp : partition = p
    · subst hp
      simp [step]
    · simp [step, Function.update_of_ne hp]
  | start hostname => exact le_refl _
  | stop k => exact le_refl _
  | subscribe k caller random =>
    simp only [step, subscribe]
    split
    · split <;> exact le_refl _
    · exact le_refl _
  | claim j p =>
    simp only [step]
    split
    · split <;> exact le_refl _
    · exact le_refl _
  | revoke j p =>
    simp only [step]
    split <;> exact le_refl _
  | cancel j =>
    simp only [step]
    split <;> exact le_refl _
  | deliver j p decodes room =>
    simp only [step]
    split
    · split
      · split <;> exact le_refl _
      · exact le_refl _
    · exact le_refl _

theorem step_claim (hsub : s.subs i = some sub) (hclaimable : claimable s sub partition = true) :
    (step s (.claim i partition)).subs i = some (claimed s sub partition) := by
  simp [step, hsub, hclaimable]

theorem step_deliver {offset : Nat} (hsub : s.subs i = some sub)
    (hoffset : sub.claims.lookup partition = some offset) (hnext : offset < s.published partition) :
    (step s (.deliver i partition true true)).subs i =
      some (sub.received partition offset true) := by
  simp [step, hsub, hoffset, hnext]

/-! ## Live events only -/

/-- The channel has yielded nothing that was published before the call. -/
def LiveOnly (sub : Subscriber) : Prop := ∀ y ∈ sub.channel, sub.since y.1 ≤ y.2

/-- Nor is it about to. -/
structure Ahead (sub : Subscriber) : Prop where
  live : LiveOnly sub
  next : ∀ partition offset, sub.claims.lookup partition = some offset →
    sub.since partition ≤ offset

def AllAhead (s : Fleet) : Prop := ∀ i sub, s.subs i = some sub → Ahead sub

/-- No call was made later than now. -/
def Past (s : Fleet) : Prop :=
  ∀ i sub, s.subs i = some sub → ∀ partition, sub.since partition ≤ s.published partition

/-- The group of a subscriber that is given a partition has nothing committed there, or nothing
below the end that the partition had when `Subscribe` was called. -/
def FreshGroup (s : Fleet) : Event → Prop
  | .claim i partition => ∀ sub, s.subs i = some sub → claimable s sub partition = true →
    ∀ offset, s.offsets.lookup (sub.group, partition) = some offset → sub.since partition ≤ offset
  | _ => True

theorem Past.step (h : Past s) (e : Event) : Past (step s e) := by
  intro i sub hi partition
  apply le_trans _ (published_step s e partition)
  cases step_moves s e hi with
  | opens k group => exact le_refl _
  | stays hsub => exact h i _ hsub partition
  | stops hsub => exact h i _ hsub partition
  | claims hsub _ _ => exact h i _ hsub partition
  | revokes _ hsub => exact h i _ hsub partition
  | receives _ hsub _ => exact h i _ hsub partition

theorem ahead_opened (k : Nat) (group : String) (since : Nat → Nat) :
    Ahead (.opened k group since) := by
  constructor
  · intro y hy
    cases hy
  · intro partition offset h
    simp [Subscriber.opened] at h

theorem Ahead.stopped (h : Ahead sub) : Ahead sub.stopped := by
  constructor
  · exact h.live
  · intro partition offset hlook
    simp [Subscriber.stopped] at hlook

theorem Ahead.revoked (h : Ahead sub) (partition : Nat) : Ahead (sub.revoked partition) := by
  constructor
  · exact h.live
  · intro p offset hlook
    simp only [Subscriber.revoked, GoMap.lookup_erase_eq] at hlook
    split at hlook
    · cases hlook
    · exact h.next p offset hlook

theorem Ahead.received (h : Ahead sub) {offset : Nat}
    (hoffset : sub.claims.lookup partition = some offset) (yielded : Bool) :
    Ahead (sub.received partition offset yielded) := by
  have hnext := h.next partition offset hoffset
  constructor
  · intro y hy
    simp only [Subscriber.received] at hy
    split at hy
    · rcases List.mem_append.mp hy with hy | hy
      · exact h.live y hy
      · cases List.mem_singleton.mp hy
        exact hnext
    · exact h.live y hy
  · intro p o hlook
    rcases GoMap.of_lookup_insert hlook with ⟨rfl, rfl⟩ | ⟨-, hlook⟩
    · exact Nat.le_succ_of_le hnext
    · exact h.next p o hlook

theorem Ahead.claimed (h : Ahead sub) (hstart : sub.since partition ≤ startOffset s sub partition) :
    Ahead (claimed s sub partition) := by
  constructor
  · exact h.live
  · intro p o hlook
    rcases GoMap.of_lookup_insert hlook with ⟨rfl, rfl⟩ | ⟨-, hlook⟩
    · exact hstart
    · exact h.next p o hlook

theorem le_startOffset (hpast : sub.since partition ≤ s.published partition)
    (hfresh : ∀ offset, s.offsets.lookup (sub.group, partition) = some offset →
      sub.since partition ≤ offset) : sub.since partition ≤ startOffset s sub partition := by
  unfold startOffset
  cases hoffset : s.offsets.lookup (sub.group, partition) with
  | none => exact hpast
  | some offset => exact hfresh offset hoffset

theorem AllAhead.step (h : AllAhead s) (hpast : Past s) {e : Event} (hfresh : FreshGroup s e) :
    AllAhead (step s e) := by
  intro i sub hi
  cases step_moves s e hi with
  | opens k group => exact ahead_opened k group s.published
  | stays hsub => exact h i _ hsub
  | stops hsub => exact (h i _ hsub).stopped
  | revokes partition hsub => exact (h i _ hsub).revoked partition
  | receives yielded hsub hoffset => exact (h i _ hsub).received hoffset yielded
  | claims hsub he hclaimable =>
    subst he
    exact (h i _ hsub).claimed (le_startOffset (hpast i _ hsub _) (hfresh _ hsub hclaimable))

theorem freshGroup_of_live (hpast : Past s)
    (hlive : ∀ sub, (run step s [.claim i partition, .deliver i partition true true]).subs i =
      some sub → LiveOnly sub) : FreshGroup s (.claim i partition) := by
  intro sub hsub hclaimable offset hoffset
  by_contra hold
  have hstart : startOffset s sub partition = offset := by simp [startOffset, hoffset]
  have hlook : (claimed s sub partition).claims.lookup partition = some offset := by
    rw [claimed, hstart]
    exact AList.lookup_insert _
  have hnext : offset < (step s (.claim i partition)).published partition := by
    have := hpast i sub hsub partition
    have := published_step s (.claim i partition) partition
    omega
  have hyields := step_deliver (step_claim hsub hclaimable) hlook hnext
  exact hold (hlive _ hyields (partition, offset) (by simp [Subscriber.received]))

theorem past_empty : Past Fleet.empty := by
  intro i sub h
  cases h

theorem allAhead_empty : AllAhead Fleet.empty := by
  intro i sub h
  cases h

/-- In a run that gives a partition only to subscribers whose group has nothing committed there
from before the call, no channel yields an event from before its call. In a run where no channel
does, that is so of every claim whose first message gets through. -/
theorem channels_live (es : List Event) :
    (AllSteps step FreshGroup Fleet.empty es →
      ∀ s ∈ states step Fleet.empty es, ∀ i sub, s.subs i = some sub → LiveOnly sub) ∧
    ((∀ s ∈ states step Fleet.empty es, ∀ i sub, s.subs i = some sub → LiveOnly sub) →
      ∀ before i partition after,
        es = before ++ .claim i partition :: .deliver i partition true true :: after →
        FreshGroup (run step Fleet.empty before) (.claim i partition)) := by
  constructor
  · intro hfresh s hs i sub hsub
    have hkept : Past s ∧ AllAhead s :=
      states_invariant (J := fun s => Past s ∧ AllAhead s)
        (fun _ e h hfresh => ⟨h.1.step e, h.2.step h.1 hfresh⟩) ⟨past_empty, allAhead_empty⟩ hfresh
        s hs
    exact (hkept.2 i sub hsub).live
  · rintro hlive before i partition after rfl
    refine freshGroup_of_live (run_keeps (fun _ e h => h.step e) past_empty before)
      fun sub hsub => hlive _ ((mem_states_iff ..).mpr ?_) i sub hsub
    exact ⟨before ++ [.claim i partition, .deliver i partition true true], after, by simp,
      (run_append ..).symm⟩

/-- A process subscribes on a host, reads one event and stops. One more event is published, and a
process starts on a host of the same name, subscribes and reads. -/
def restartRun : List Event :=
  [.start (some "pod-1"), .subscribe 0 "sse" none, .claim 0 0, .publish 0, .deliver 0 0 true true,
    .stop 0, .publish 0, .start (some "pod-1"), .subscribe 1 "sse" none, .claim 1 0,
    .deliver 1 0 true true]

/-- The first subscription of the run is live. -/
theorem channels_live_restartRun : ∃ sub, (run step Fleet.empty (restartRun.take 5)).subs 0 =
    some sub ∧ sub.channel = [(0, 0)] ∧ LiveOnly sub := by
  have hfresh : AllSteps step FreshGroup Fleet.empty (restartRun.take 5) := by
    refine ⟨trivial, trivial, fun sub _ _ offset hoffset => ?_, trivial, trivial, trivial⟩
    have hnone : (run step Fleet.empty (restartRun.take 2)).offsets.lookup (sub.group, 0) = none := rfl
    cases hnone.symm.trans hoffset
  refine ⟨_, rfl, by decide +kernel, ?_⟩
  exact (channels_live _).1 hfresh _
    ((mem_states_iff ..).mpr ⟨_, [], (List.append_nil _).symm, rfl⟩) 0 _ rfl

/-- The second channel yields the event at offset 1, published before its call: its group is that
of the first, which has committed offset 1. -/
theorem restartRun_yields : ∃ sub, (run step Fleet.empty restartRun).subs 1 = some sub ∧
    sub.group = "arcade-events-sse-pod-1-0" ∧ sub.channel = [(0, 1)] ∧ sub.since 0 = 2 ∧
    ¬ LiveOnly sub := by
  refine ⟨_, rfl, ?_, ?_, ?_, ?_⟩
  · decide +kernel
  · decide +kernel
  · decide +kernel
  · intro h
    have := h (0, 1) (by decide +kernel)
    revert this
    decide +kernel

end Arcade.Events
