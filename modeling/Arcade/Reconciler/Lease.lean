import Arcade.Lib.Transition
import Mathlib.Tactic.ByContra

/-!
The lease that keeps the anchor reconciler to one replica.

A replica acquires the lease for a tick (`tryLease`), runs its pass under a
context that `holdLease` cancels at the expiry the store granted, and renews
the lease from a heartbeat while the pass runs. Calls to the lease store take
any time: the store executes them at one moment, the caller gets the answer at a
later one, or an error instead. What a replica does between two of these
moments takes no time, and a timer that is due fires before anything else
happens.
-/

namespace Arcade.Reconciler

open Lib List

/-! ## The lease store -/

/-- `storedLease`. -/
structure Lease (ι : Type) where
  holder : ι
  expires : Int

section Store

variable {ι : Type} [DecidableEq ι]

/-- `TryAcquireOrRenew` at the time `now`: the stored lease, and the expiry if granted. -/
def tryAcquireOrRenew (ttl now : Int) (holder : ι) (lease : Option (Lease ι)) :
    Option (Lease ι) × Option Int :=
  match lease with
  | some cur =>
    if cur.holder ≠ holder ∧ cur.expires > now then (lease, none)
    else (some ⟨holder, now + ttl⟩, some (now + ttl))
  | none => (some ⟨holder, now + ttl⟩, some (now + ttl))

def release (holder : ι) (lease : Option (Lease ι)) : Option (Lease ι) :=
  lease.filter fun cur => cur.holder ≠ holder

end Store

/-! ## Replicas -/

/-- A call of `TryAcquireOrRenew`: not yet executed, or executed and its answer
under way, `none` when another replica holds the lease. -/
inductive Rpc where
  | sent
  | executed (answer : Option Int)
  deriving DecidableEq

/-- The context of one `holdLease` call: the expiry its timer is armed for,
whether it is canceled, and the renewal its heartbeat waits for. -/
structure LeaseCtx where
  heldUntil : Int
  canceled : Bool
  renewal : Option Rpc

/-- The reconcile goroutine. `probing` is `acquireLease`, which starts no pass. -/
inductive Main where
  | idle
  | probing (rpc : Rpc)
  | acquiring (rpc : Rpc)
  | passing (ctx : Nat)

structure Replica where
  main : Main
  contexts : List LeaseCtx
  /-- The context of `Start` is canceled. -/
  down : Bool
  /-- Calls whose caller got an error and that the store may still execute. -/
  strays : Nat

structure System (ι : Type) where
  now : Int
  lease : Option (Lease ι)
  replicas : ι → Replica

inductive LeaseEvent (ι : Type) where
  | advance (delay : Nat)
  /-- The startup check for the lease. -/
  | probe (r : ι)
  /-- A tick, or the startup scan, asks for the lease. -/
  | tick (r : ι)
  /-- The store executes the call of the reconcile goroutine. -/
  | execute (r : ι)
  /-- The answer reaches the reconcile goroutine. -/
  | answer (r : ι)
  /-- The reconcile goroutine gets an error instead. -/
  | fail (r : ι)
  /-- The heartbeat of a context sends a renewal. -/
  | beat (r : ι) (ctx : Nat)
  | executeBeat (r : ι) (ctx : Nat)
  | answerBeat (r : ι) (ctx : Nat)
  | failBeat (r : ι) (ctx : Nat)
  /-- The store executes a call that nobody waits for any more. -/
  | stray (r : ι)
  | endPass (r : ι)
  | shutdown (r : ι)
  /-- `Release`, once the reconcile goroutine has seen the shutdown. -/
  | release (r : ι)

/-! ## Steps -/

namespace LeaseCtx

def cancel (c : LeaseCtx) : LeaseCtx := { c with canceled := true }

def expire (now : Int) (c : LeaseCtx) : LeaseCtx := if c.heldUntil ≤ now then c.cancel else c

/-- The heartbeat takes the answer of its renewal. -/
def renewed (c : LeaseCtx) (answer : Option Int) : LeaseCtx :=
  if c.canceled then { c with renewal := none }
  else match answer with
    | some until_ => { c with heldUntil := until_, renewal := none }
    | none => { c with canceled := true, renewal := none }

/-- The renewal failed: the pass goes on until the last confirmed expiry. -/
def renewalFailed (now : Int) (c : LeaseCtx) : LeaseCtx :=
  if c.canceled ∨ now < c.heldUntil then { c with renewal := none }
  else { c with canceled := true, renewal := none }

end LeaseCtx

namespace Replica

def modifyCtx (rep : Replica) (i : Nat) (f : LeaseCtx → LeaseCtx) : Replica :=
  { rep with contexts := rep.contexts.modify i f }

/-- The answer to `tryLease`; a granted lease starts the pass under `holdLease`. -/
def acquired (rep : Replica) : Option Int → Replica
  | some until_ =>
    { rep with
      main := .passing rep.contexts.length
      contexts := rep.contexts ++ [⟨until_, false, none⟩] }
  | none => { rep with main := .idle }

/-- The renewal that the heartbeat of context `i` waits for. -/
def renewal (rep : Replica) (i : Nat) : Option Rpc := rep.contexts[i]?.bind (·.renewal)

end Replica

namespace System

variable {ι : Type} [DecidableEq ι] (ttl : Int)

def setReplica (s : System ι) (r : ι) (rep : Replica) : System ι :=
  { s with replicas := Function.update s.replicas r rep }

/-- The store executes a call of `r`, and `got` is the replica with its answer. -/
def exec (s : System ι) (r : ι) (got : Option Int → Replica) : System ι :=
  let result := tryAcquireOrRenew ttl s.now r s.lease
  { s with lease := result.1, replicas := Function.update s.replicas r (got result.2) }

def fireTimers (s : System ι) : System ι :=
  { s with replicas := fun r =>
      { s.replicas r with contexts := (s.replicas r).contexts.map (LeaseCtx.expire s.now) } }

/-- One event; it does nothing when it cannot happen in the state. -/
def act (s : System ι) : LeaseEvent ι → System ι
  | .advance d => { s with now := s.now + d }
  | .probe r =>
    match (s.replicas r).main, (s.replicas r).down with
    | .idle, false => s.setReplica r { s.replicas r with main := .probing .sent }
    | _, _ => s
  | .tick r =>
    match (s.replicas r).main, (s.replicas r).down with
    | .idle, false => s.setReplica r { s.replicas r with main := .acquiring .sent }
    | _, _ => s
  | .execute r =>
    match (s.replicas r).main with
    | .probing .sent =>
      s.exec ttl r fun a => { s.replicas r with main := .probing (.executed a) }
    | .acquiring .sent =>
      s.exec ttl r fun a => { s.replicas r with main := .acquiring (.executed a) }
    | _ => s
  | .answer r =>
    match (s.replicas r).main with
    | .probing (.executed _) => s.setReplica r { s.replicas r with main := .idle }
    | .acquiring (.executed a) =>
      -- the context of a replica that is going down is canceled from the start
      let rep := (s.replicas r).acquired a
      s.setReplica r
        (if rep.down then { rep with contexts := rep.contexts.map LeaseCtx.cancel } else rep)
    | _ => s
  | .fail r =>
    match (s.replicas r).main with
    | .probing .sent | .acquiring .sent =>
      s.setReplica r
        { s.replicas r with main := .idle, strays := (s.replicas r).strays + 1 }
    | .probing (.executed _) | .acquiring (.executed _) =>
      s.setReplica r { s.replicas r with main := .idle }
    | _ => s
  | .beat r i =>
    if ∃ c ∈ (s.replicas r).contexts[i]?, c.canceled = false ∧ c.renewal = none then
      s.setReplica r ((s.replicas r).modifyCtx i fun c => { c with renewal := some .sent })
    else s
  | .executeBeat r i =>
    if (s.replicas r).renewal i = some .sent then
      s.exec ttl r fun a =>
        (s.replicas r).modifyCtx i fun c => { c with renewal := some (.executed a) }
    else s
  | .answerBeat r i =>
    match (s.replicas r).renewal i with
    | some (.executed a) => s.setReplica r ((s.replicas r).modifyCtx i (·.renewed a))
    | _ => s
  | .failBeat r i =>
    match (s.replicas r).renewal i with
    | some .sent =>
      let rep := (s.replicas r).modifyCtx i (·.renewalFailed s.now)
      s.setReplica r { rep with strays := rep.strays + 1 }
    | some (.executed _) =>
      s.setReplica r ((s.replicas r).modifyCtx i (·.renewalFailed s.now))
    | none => s
  | .stray r =>
    match (s.replicas r).strays with
    | 0 => s
    | n + 1 => s.exec ttl r fun _ => { s.replicas r with strays := n }
  | .endPass r =>
    match (s.replicas r).main with
    | .passing i =>
      s.setReplica r { (s.replicas r).modifyCtx i LeaseCtx.cancel with main := .idle }
    | _ => s
  | .shutdown r =>
    s.setReplica r
      { s.replicas r with
        down := true, contexts := (s.replicas r).contexts.map LeaseCtx.cancel }
  | .release r =>
    match (s.replicas r).main, (s.replicas r).down with
    | .idle, true => { s with lease := release r s.lease }
    | _, _ => s

def step (s : System ι) (e : LeaseEvent ι) : System ι := (s.act ttl e).fireTimers

/-- The replica runs a pass whose lease context is not canceled. -/
def Passing (s : System ι) (r : ι) : Prop :=
  ∃ i, (s.replicas r).main = .passing i ∧ ∃ c ∈ (s.replicas r).contexts[i]?, c.canceled = false

/-- Replicas that have just started, with any lease in the store. -/
def start (now : Int) (lease : Option (Lease ι)) : System ι where
  now := now
  lease := lease
  replicas := fun _ => ⟨.idle, [], false, 0⟩

end System

/-! ## What a replica may rely on

`B u` says that the lease is the replica's until `u`. A live context and an
answer under way rely on nothing else. -/

section Replicas

variable {B B' : Int → Prop}

structure LeaseCtx.Safe (B : Int → Prop) (c : LeaseCtx) : Prop where
  held : B c.heldUntil
  answer : ∀ u, c.renewal = some (.executed (some u)) → B u

structure Replica.Safe (B : Int → Prop) (rep : Replica) : Prop where
  live : ∀ (i : Nat) (c : LeaseCtx), rep.contexts[i]? = some c → c.canceled = false →
    rep.main = .passing i ∧ c.Safe B
  answer : ∀ u, rep.main = .acquiring (.executed (some u)) → B u

variable {c : LeaseCtx} {rep : Replica} {a : Option Int}

theorem Replica.Safe.imp (h : ∀ u, B u → B' u) (hr : rep.Safe B) : rep.Safe B' := by
  refine ⟨fun i c hc hl => ?_, fun u hu => h u (hr.answer u hu)⟩
  obtain ⟨hm, hs⟩ := hr.live i c hc hl
  exact ⟨hm, h _ hs.held, fun u hu => h u (hs.answer u hu)⟩

theorem LeaseCtx.live_of_renewed (hr : c.renewal = some (.executed a))
    (hl : (c.renewed a).canceled = false) :
    c.canceled = false ∧ (c.Safe B → (c.renewed a).Safe B) := by
  cases hc : c.canceled with
  | true => simp [LeaseCtx.renewed, hc] at hl
  | false =>
    cases a with
    | none => simp [LeaseCtx.renewed, hc] at hl
    | some u =>
      refine ⟨rfl, fun hs => ?_⟩
      constructor <;> simp [LeaseCtx.renewed, hc, hs.answer u hr]

theorem LeaseCtx.live_of_renewalFailed {now : Int} (hl : (c.renewalFailed now).canceled = false) :
    c.canceled = false ∧ (c.Safe B → (c.renewalFailed now).Safe B) := by
  unfold LeaseCtx.renewalFailed at hl ⊢
  split at hl
  · rw [if_pos (by assumption)]
    exact ⟨hl, fun hs => ⟨hs.held, by simp⟩⟩
  · cases hl

theorem Replica.safe_of_canceled (h : ∀ c ∈ rep.contexts, c.canceled = true)
    (ha : ∀ u, rep.main = .acquiring (.executed (some u)) → B u) : rep.Safe B where
  live i c hc hl := by simp [h c (mem_of_getElem? hc)] at hl
  answer := ha

theorem Replica.Safe.canceled (hr : rep.Safe B) (h : ∀ i, rep.main ≠ .passing i) :
    ∀ c ∈ rep.contexts, c.canceled = true := by
  intro c hc
  obtain ⟨i, hi⟩ := mem_iff_getElem?.mp hc
  cases hl : c.canceled with
  | true => rfl
  | false => exact absurd (hr.live i c hi hl).1 (h i)

theorem Replica.modifyCtx_eq_some {i j : Nat} {f : LeaseCtx → LeaseCtx}
    (h : (rep.modifyCtx i f).contexts[j]? = some c) :
    ∃ c₀, rep.contexts[j]? = some c₀ ∧ (if i = j then f c₀ else c₀) = c := by
  simpa only [Replica.modifyCtx, List.getElem?_modify, Option.map_eq_map,
    Option.map_eq_some_iff] using h

theorem Replica.Safe.modifyCtx (hr : rep.Safe B) {i : Nat} {f : LeaseCtx → LeaseCtx}
    (hf : ∀ c, rep.contexts[i]? = some c → (f c).canceled = false →
      c.canceled = false ∧ (c.Safe B → (f c).Safe B)) : (rep.modifyCtx i f).Safe B where
  live j c hc hlc := by
    obtain ⟨c₀, hc₀, rfl⟩ := Replica.modifyCtx_eq_some hc
    split at hlc
    · subst_vars
      obtain ⟨hl, hs⟩ := hf c₀ hc₀ hlc
      rw [if_pos rfl]
      exact (hr.live _ c₀ hc₀ hl).imp_right hs
    · rw [if_neg (by assumption)]
      exact hr.live j c₀ hc₀ hlc
  answer := hr.answer

theorem Replica.Safe.acquired (hr : rep.Safe B) (hm : rep.main = .acquiring (.executed a)) :
    (rep.acquired a).Safe B := by
  have hold := hr.canceled (by simp [hm])
  cases a with
  | none => exact Replica.safe_of_canceled hold (by simp [Replica.acquired])
  | some until_ =>
    have hb : B until_ := hr.answer until_ hm
    refine ⟨fun i c hc hl => ?_, by simp [Replica.acquired]⟩
    simp only [Replica.acquired] at hc ⊢
    rw [List.getElem?_append] at hc
    split at hc
    · simp [hold c (mem_of_getElem? hc)] at hl
    · obtain ⟨hi, -⟩ := List.getElem?_eq_some_iff.mp hc
      simp only [length_singleton] at hi
      obtain rfl := mem_singleton.mp (mem_of_getElem? hc)
      exact ⟨by congr 1; omega, hb, by simp⟩

end Replicas

/-! ## The lease backs what the replicas rely on -/

namespace System

variable {ι : Type} {ttl : Int}

/-- Until `u` no other replica gets the lease. -/
structure Backed (ttl : Int) (s : System ι) (r : ι) (u : Int) : Prop where
  le : u ≤ s.now + ttl
  lease : s.now < u → ∃ cur, s.lease = some cur ∧ cur.holder = r ∧ u ≤ cur.expires

/-- Every replica relies only on what the store granted it. -/
def Safe (ttl : Int) (s : System ι) : Prop := ∀ r, (s.replicas r).Safe (s.Backed ttl r)

variable {s : System ι}

theorem Safe.advance (hs : s.Safe ttl) (d : Nat) : Safe ttl { s with now := s.now + d } := by
  intro r
  refine (hs r).imp fun u hb => ⟨?_, fun hlt => hb.lease ?_⟩
  · have := hb.le
    simp only
    omega
  · simp only at hlt
    omega

theorem Safe.fireTimers (hs : s.Safe ttl) : s.fireTimers.Safe ttl := by
  intro r
  have hr : (s.replicas r).Safe (s.fireTimers.Backed ttl r) :=
    (hs r).imp fun u hb => ⟨hb.le, hb.lease⟩
  have hexpire : ∀ c : LeaseCtx, (c.expire s.now).canceled = false → c.expire s.now = c := by
    intro c hl
    unfold LeaseCtx.expire at hl ⊢
    split at hl
    · simp [LeaseCtx.cancel] at hl
    · rw [if_neg (by assumption)]
  have hctx : ∀ (i : Nat) (c : LeaseCtx), ((s.fireTimers.replicas r).contexts)[i]? = some c →
      c.canceled = false → (s.replicas r).contexts[i]? = some c := by
    intro i c hc hl
    simp only [System.fireTimers, List.getElem?_map, Option.map_eq_some_iff] at hc
    obtain ⟨c₀, hc₀, rfl⟩ := hc
    rw [hexpire c₀ hl]
    exact hc₀
  exact ⟨fun i c hc hl => hr.live i c (hctx i c hc hl) hl, hr.answer⟩

theorem fireTimers_live {r : ι} {i : Nat} {c : LeaseCtx}
    (hc : (s.fireTimers.replicas r).contexts[i]? = some c) (hl : c.canceled = false) :
    s.fireTimers.now < c.heldUntil := by
  simp only [System.fireTimers, List.getElem?_map, Option.map_eq_some_iff] at hc ⊢
  obtain ⟨c₀, -, rfl⟩ := hc
  unfold LeaseCtx.expire at hl ⊢
  split at hl
  · simp [LeaseCtx.cancel] at hl
  · rw [if_neg (by assumption)]
    omega

/-- The state between two events: nothing is due. -/
structure Settled (ttl : Int) (s : System ι) : Prop where
  safe : s.Safe ttl
  live : ∀ r (i : Nat) (c : LeaseCtx), (s.replicas r).contexts[i]? = some c → c.canceled = false →
    s.now < c.heldUntil

theorem settled_start (now : Int) (lease : Option (Lease ι)) :
    (start now lease : System ι).Settled ttl where
  safe r := Replica.safe_of_canceled (by simp [start]) (by simp [start])
  live r i c hc := by simp [start] at hc

theorem Settled.holder (hs : s.Settled ttl) {r : ι} (hp : s.Passing r) :
    ∃ cur, s.lease = some cur ∧ cur.holder = r := by
  obtain ⟨i, -, c, hc, hl⟩ := hp
  have hb := ((hs.safe r).live i c hc hl).2.held
  obtain ⟨cur, hcur, hr, -⟩ := hb.lease (hs.live r i c hc hl)
  exact ⟨cur, hcur, hr⟩

section Events

variable [DecidableEq ι] {s : System ι} {r : ι} {got : Option Int → Replica}

theorem Safe.setReplica (hs : s.Safe ttl) {rep : Replica} (hr : rep.Safe (s.Backed ttl r)) :
    (s.setReplica r rep).Safe ttl := by
  intro r'
  have hb : ∀ u, s.Backed ttl r' u → (s.setReplica r rep).Backed ttl r' u :=
    fun u h => ⟨h.le, h.lease⟩
  by_cases h : r' = r
  · subst h
    simpa [System.setReplica] using hr.imp hb
  · simpa [System.setReplica, h] using (hs r').imp hb

theorem Backed.exec {r' : ι} {u : Int} (h : s.Backed ttl r' u) :
    (s.exec ttl r got).Backed ttl r' u := by
  refine ⟨h.le, fun hlt => ?_⟩
  obtain ⟨cur, hcur, rfl, hle⟩ := h.lease hlt
  have hnow : s.now < u := hlt
  simp only [System.exec, hcur, tryAcquireOrRenew]
  split
  · exact ⟨cur, rfl, rfl, hle⟩
  · -- another replica would have been refused, so the call is the holder's own
    rename_i hfree
    have hr : cur.holder = r := by
      by_contra hne
      exact hfree ⟨hne, by omega⟩
    exact ⟨_, rfl, hr.symm, h.le⟩

theorem exec_backed {u : Int} (h : (tryAcquireOrRenew ttl s.now r s.lease).2 = some u) :
    (s.exec ttl r got).Backed ttl r u := by
  have hgrant : tryAcquireOrRenew ttl s.now r s.lease =
      (some ⟨r, s.now + ttl⟩, some (s.now + ttl)) := by
    cases hl : s.lease with
    | none => rfl
    | some cur =>
      rw [hl] at h
      simp only [tryAcquireOrRenew] at h ⊢
      split at h
      · simp at h
      · rw [if_neg (by assumption)]
  obtain rfl : s.now + ttl = u := by simpa [hgrant] using h
  exact ⟨Int.le_refl _, fun _ => ⟨⟨r, s.now + ttl⟩, by simp [System.exec, hgrant], rfl, Int.le_refl _⟩⟩

theorem Safe.exec (hs : s.Safe ttl)
    (hg : ∀ (B : Int → Prop) a, (s.replicas r).Safe B → (∀ u, a = some u → B u) → (got a).Safe B) :
    (s.exec ttl r got).Safe ttl := by
  intro r'
  have hr' : (s.replicas r').Safe ((s.exec ttl r got).Backed ttl r') :=
    (hs r').imp fun u hb => hb.exec
  by_cases h : r' = r
  · subst h
    simpa [System.exec] using hg _ _ hr' fun u hu => exec_backed hu
  · simpa [System.exec, h] using hr'

theorem Safe.setMain (hs : s.Safe ttl) {main : Main} (hold : ∀ i, (s.replicas r).main ≠ .passing i)
    (hm : ∀ u, main ≠ .acquiring (.executed (some u))) {strays : Nat} :
    (s.setReplica r { s.replicas r with main := main, strays := strays }).Safe ttl :=
  hs.setReplica (Replica.safe_of_canceled ((hs r).canceled hold) fun u hu => absurd hu (hm u))

theorem Safe.release (hs : s.Safe ttl) (hm : (s.replicas r).main = .idle) :
    Safe ttl { s with lease := Reconciler.release r s.lease } := by
  intro r'
  by_cases h : r' = r
  · subst h
    exact Replica.safe_of_canceled ((hs r').canceled (by simp [hm])) (by simp [hm])
  · refine (hs r').imp fun u hb => ⟨hb.le, fun hlt => ?_⟩
    obtain ⟨cur, hcur, rfl, hle⟩ := hb.lease hlt
    exact ⟨cur, by simp [Reconciler.release, hcur, h], rfl, hle⟩

theorem Safe.act (hs : s.Safe ttl) (e : LeaseEvent ι) : (s.act ttl e).Safe ttl := by
  cases e with
  | advance d => exact hs.advance d
  | probe r =>
    simp only [System.act]
    split
    · exact hs.setMain (by simp [*]) (by simp)
    · exact hs
  | tick r =>
    simp only [System.act]
    split
    · exact hs.setMain (by simp [*]) (by simp)
    · exact hs
  | execute r =>
    simp only [System.act]
    split
    · rename_i hm
      refine hs.exec fun B a hr _ => ?_
      exact Replica.safe_of_canceled (hr.canceled (by simp [hm])) (by simp)
    · rename_i hm
      refine hs.exec fun B a hr ha => ?_
      exact Replica.safe_of_canceled (hr.canceled (by simp [hm])) (by simpa using ha)
    · exact hs
  | answer r =>
    simp only [System.act]
    split
    · exact hs.setMain (by simp [*]) (by simp)
    · rename_i hm
      have hr := (hs r).acquired hm
      refine hs.setReplica ?_
      split
      · exact Replica.safe_of_canceled (by simp [LeaseCtx.cancel]) hr.answer
      · exact hr
    · exact hs
  | fail r =>
    simp only [System.act]
    split
    all_goals first | exact hs.setMain (by simp [*]) (by simp) | exact hs
  | beat r i =>
    simp only [System.act]
    split
    · exact hs.setReplica ((hs r).modifyCtx fun c _ hl => ⟨hl, fun hc => ⟨hc.held, by simp⟩⟩)
    · exact hs
  | executeBeat r i =>
    simp only [System.act]
    split
    · refine hs.exec fun B a hr ha => hr.modifyCtx fun c _ hl => ⟨hl, fun hc => ⟨hc.held, ?_⟩⟩
      exact fun u hu => ha u (by simpa using hu)
    · exact hs
  | answerBeat r i =>
    simp only [System.act]
    split
    · rename_i a ha
      refine hs.setReplica ((hs r).modifyCtx fun c hc => LeaseCtx.live_of_renewed ?_)
      simpa [Replica.renewal, hc] using ha
    · exact hs
  | failBeat r i =>
    have hfail : ((s.replicas r).modifyCtx i (·.renewalFailed s.now)).Safe (s.Backed ttl r) :=
      (hs r).modifyCtx fun c _ => LeaseCtx.live_of_renewalFailed
    simp only [System.act]
    split
    · exact hs.setReplica ⟨hfail.live, hfail.answer⟩
    · exact hs.setReplica hfail
    · exact hs
  | stray r =>
    simp only [System.act]
    split
    · exact hs
    · exact hs.exec fun B a hr _ => ⟨hr.live, hr.answer⟩
  | endPass r =>
    simp only [System.act]
    split
    · -- no context but the pass's own was live
      refine hs.setReplica (Replica.safe_of_canceled ?_ (by simp))
      intro c hc
      obtain ⟨j, hj⟩ := mem_iff_getElem?.mp hc
      obtain ⟨c₀, hc₀, rfl⟩ := Replica.modifyCtx_eq_some hj
      split
      · rfl
      · cases hl : c₀.canceled with
        | true => rfl
        | false =>
          have hj := ((hs r).live j c₀ hc₀ hl).1
          simp_all
    · exact hs
  | shutdown r =>
    exact hs.setReplica
      (Replica.safe_of_canceled (by simp [LeaseCtx.cancel]) (hs r).answer)
  | release r =>
    simp only [System.act]
    split
    · exact hs.release (by assumption)
    · exact hs

theorem Settled.step (hs : s.Settled ttl) (e : LeaseEvent ι) : (s.step ttl e).Settled ttl where
  safe := (hs.safe.act e).fireTimers
  live _ _ _ hc hl := fireTimers_live hc hl

/-- At no instant do two replicas run a pass under a live lease context. -/
theorem one_pass_at_a_time (ttl now : Int) (lease : Option (Lease ι))
    (events : List (LeaseEvent ι)) :
    ∀ s ∈ states (step ttl) (start now lease) events,
      ∀ r r', s.Passing r → s.Passing r' → r = r' := by
  intro s hs r r' hr hr'
  have hall : AllSteps (step ttl) (fun _ _ => True) (start now lease) events :=
    allSteps_iff.mpr fun _ _ _ _ => trivial
  have hsettled : s.Settled ttl :=
    states_invariant (fun s e h _ => h.step e) (settled_start now lease) hall s hs
  obtain ⟨cur, hcur, rfl⟩ := hsettled.holder hr
  obtain ⟨cur', hcur', rfl⟩ := hsettled.holder hr'
  rw [hcur] at hcur'
  rw [Option.some.inj hcur']

/-- A replica that never renews hands over to the other one at the expiry. -/
def handover : List (LeaseEvent Bool) :=
  [.tick false, .execute false, .answer false, .advance 90, .tick true, .execute true, .answer true]

theorem one_pass_at_a_time_handover : (run (step 90) (start 0 none) handover).Passing true ∧
      ¬ (run (step 90) (start 0 none) handover).Passing false := by
  have htrue : (run (step 90) (start 0 none) handover).Passing true := ⟨0, rfl, _, rfl, rfl⟩
  refine ⟨htrue, ?_⟩
  intro hfalse
  have hmem := (mem_states_iff (step 90) (start 0 none) _ handover).mpr ⟨handover, [], by simp, rfl⟩
  exact absurd (one_pass_at_a_time 90 0 none handover _ hmem true false htrue hfalse) (by decide)

end Events

end System

end Arcade.Reconciler
