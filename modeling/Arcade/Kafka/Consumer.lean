import Mathlib.Data.List.Nodup
import Mathlib.Data.List.Infix

/-!
The consumer wrapper around one partition claim.

`handleClaim` takes messages off the claim, runs the handler on each with retries, and sends a
message that keeps failing to the dead-letter topic. A message that was dealt with is marked;
the broker commits one past the highest offset marked. The claim is modelled by what it does,
one act after the other, so that every point of it can be looked at.
-/

namespace Arcade.Kafka

open List

/-! ## Messages and their outcomes -/

structure Message where
  topic : String
  key : String
  offset : Nat

/-- One try of the handler; `cancelled` is the claim's end during the pause before it. -/
structure Attempt where
  cancelled : Bool
  error : Option String

/-- A message with everything that is open about its processing: the handler's tries, whether
its dead-letter envelope encodes, and the error of sending that. -/
structure Delivery extends Message where
  attempts : Nat → Attempt
  encodes : Bool
  sendRaw : Option String

structure ConsumerGroup where
  maxRetries : Nat
  producer : Bool
  maxRetries_pos : 0 < maxRetries

/-- `NewConsumerGroup`: without a positive limit, five tries. -/
def newConsumerGroup (maxRetries : Int) (producer : Bool) : ConsumerGroup where
  maxRetries := if maxRetries ≤ 0 then 5 else maxRetries.toNat
  producer := producer
  maxRetries_pos := by split <;> omega

inductive Act where
  | deliver (offset : Nat)
  /-- The handler returned without error. -/
  | handled (offset : Nat)
  | deadLetter (offset : Nat) (topic error : String)
  | mark (offset : Nat)
  | flush
  deriving DecidableEq

/-! ## The claim -/

/-- The tries from `attempt` on; the error of the last one, `none` for success. -/
def retryLoop (attempts : Nat → Attempt) : Nat → Nat → Option String → Option String
  | 0, _, lastErr => lastErr
  | remaining + 1, attempt, lastErr =>
    if 0 < attempt ∧ (attempts attempt).cancelled then lastErr
    else match (attempts attempt).error with
      | some err => retryLoop attempts remaining (attempt + 1) (some err)
      | none => none

def processWithRetry (g : ConsumerGroup) (d : Delivery) : Option String :=
  retryLoop d.attempts g.maxRetries 0 none

def dlqTopic (topic : String) : String := topic ++ ".dlq"

/-- The acts of `sendToDLQ` and its error. Without a producer, or when the envelope does not
encode, the message is dropped and no error reported. In the name of a topic there is nothing
that `%q` escapes. -/
def sendToDLQ (g : ConsumerGroup) (d : Delivery) (processErr : String) : List Act × Option String :=
  if !g.producer then ([], none)
  else if !d.encodes then ([], none)
  else match d.sendRaw with
    | some err => ([], some ("publishing to DLQ \"" ++ dlqTopic d.topic ++ "\": " ++ err))
    | none => ([.deadLetter d.offset (dlqTopic d.topic) processErr], none)

def processOne (g : ConsumerGroup) (d : Delivery) : List Act :=
  match processWithRetry g d with
  | none => [.deliver d.offset, .handled d.offset, .mark d.offset]
  | some err =>
    match sendToDLQ g d err with
    | (acts, none) => .deliver d.offset :: acts ++ [.mark d.offset]
    | (acts, some _) => .deliver d.offset :: acts

/-- What a `select` of the claim loop finds: a message, the channel closed, nothing but the
ticker, or the end of the claim's context. -/
inductive Ready where
  | message (d : Delivery)
  | closed
  | quiet
  | done

/-- The claim loop; `draining` is its inner loop, which watches the channel only. The deferred
flush runs when it returns. -/
def claimLoop (g : ConsumerGroup) : Bool → List Ready → List Act
  | _, [] => []
  | _, .message d :: rest => processOne g d ++ claimLoop g true rest
  | _, .closed :: _ => [.flush]
  | _, .quiet :: rest => .flush :: claimLoop g false rest
  | false, .done :: _ => [.flush]
  | true, .done :: rest => claimLoop g true rest

def handleClaim (g : ConsumerGroup) (selects : List Ready) : List Act := claimLoop g false selects

def received : Bool → List Ready → List Delivery
  | _, [] => []
  | _, .message d :: rest => d :: received true rest
  | _, .closed :: _ => []
  | _, .quiet :: rest => received false rest
  | false, .done :: _ => []
  | true, .done :: rest => received true rest

/-! ## The committed position -/

/-- The broker commits one past the highest offset marked. -/
def commit (committed : Option Nat) : Act → Option Nat
  | .mark offset => some (max (committed.getD 0) (offset + 1))
  | _ => committed

def committed (start : Option Nat) (acts : List Act) : Option Nat := acts.foldl commit start

/-- The message at the offset is handled without error, or published to its dead-letter
topic. -/
def Settles (offset : Nat) : Act → Prop
  | .handled o => o = offset
  | .deadLetter o _ _ => o = offset
  | _ => False

/-- Delivered, and neither handled nor published to the dead-letter topic. -/
def Unsettled (acts : List Act) (offset : Nat) : Prop :=
  .deliver offset ∈ acts ∧ ∀ a ∈ acts, ¬ Settles offset a

/-- The committed position is not past a message that nobody has dealt with. -/
def AtLeastOnce (start : Option Nat) (acts : List Act) : Prop :=
  ∀ offset, Unsettled acts offset → ∀ position, committed start acts = some position →
    position ≤ offset

variable {start : Option Nat} {acts : List Act} {g : ConsumerGroup} {d : Delivery}

theorem committed_le_iff {offset : Nat} :
    (∀ position, committed start acts = some position → position ≤ offset) ↔
      (∀ position, start = some position → position ≤ offset) ∧
        ∀ o, .mark o ∈ acts → o < offset := by
  induction acts generalizing start with
  | nil => simp [committed]
  | cons a acts ih =>
    have hcons : committed start (a :: acts) = committed (commit start a) acts := rfl
    rw [hcons, ih]
    cases a with
    | mark o =>
      simp only [commit, Option.some.injEq, forall_eq', mem_cons, Act.mark.injEq, forall_eq_or_imp]
      cases start with
      | none =>
        simp only [Option.getD_none, reduceCtorEq, false_imp_iff, implies_true, true_and]
        exact and_congr_left fun _ => by omega
      | some position =>
        simp only [Option.getD_some, Option.some.injEq, forall_eq']
        constructor
        · rintro ⟨h, hrest⟩
          exact ⟨by omega, by omega, hrest⟩
        · rintro ⟨hstart, ho, hrest⟩
          exact ⟨by omega, hrest⟩
    | _ => simp [commit]

/-! ## One message -/

/-- The handler succeeds before its tries are used up or the claim ends. -/
def Handles (g : ConsumerGroup) (d : Delivery) : Prop :=
  ∃ k < g.maxRetries, (d.attempts k).error = none ∧
    ∀ i ≤ k, 0 < i → (d.attempts i).cancelled = false

theorem retryLoop_eq_none {attempts : Nat → Attempt} (n a : Nat) (err : String) :
    retryLoop attempts n (a + 1) (some err) = none ↔ ∃ k < n, (attempts (a + 1 + k)).error = none ∧
        ∀ i < k + 1, (attempts (a + 1 + i)).cancelled = false := by
  induction n generalizing a err with
  | zero => simp [retryLoop]
  | succ n ih =>
    rw [retryLoop, Nat.exists_lt_succ_left]
    have hshift : ∀ k, a + 1 + 1 + k = a + 1 + (k + 1) := by omega
    have hsplit : ∀ k, (∀ i < k + 1, (attempts (a + 1 + i)).cancelled = false) ↔
        (attempts (a + 1)).cancelled = false ∧
          ∀ i < k, (attempts (a + 1 + (i + 1))).cancelled = false :=
      fun k => Nat.forall_lt_succ_left
    cases hcancelled : (attempts (a + 1)).cancelled with
    | true =>
      simp only [hsplit, hcancelled]
      simp
    | false =>
      cases herr : (attempts (a + 1)).error with
      | none => simp [hcancelled]
      | some err =>
        simp only [hsplit, hcancelled, true_and, reduceCtorEq, false_and, false_or, and_false,
          Bool.false_eq_true, if_false, ih (a + 1) err, hshift]

theorem processWithRetry_eq_none : processWithRetry g d = none ↔ Handles g d := by
  obtain ⟨n, hn⟩ := Nat.exists_eq_succ_of_ne_zero g.maxRetries_pos.ne'
  rw [processWithRetry, Handles, hn, retryLoop, Nat.exists_lt_succ_left]
  cases herr : (d.attempts 0).error with
  | none => simp
  | some err =>
    rw [if_neg (by simp)]
    simp only [retryLoop_eq_none, ← Nat.lt_succ_iff, Nat.forall_lt_succ_left (n := _ + 1)]
    simp [Nat.add_comm]

/-- Neither the handler nor the dead-letter topic takes the message. -/
def Lost (g : ConsumerGroup) (d : Delivery) : Prop := ¬ Handles g d ∧ d.sendRaw ≠ none

section

variable (hproducer : g.producer = true) (hencodes : d.encodes = true)
include hproducer hencodes

/-- With a producer and an envelope that encodes, a message is either lost or settled and then
marked. -/
theorem processOne_eq : (Lost g d ∧ processOne g d = [.deliver d.offset]) ∨
      (¬ Lost g d ∧ ∃ settle, Settles d.offset settle ∧
        processOne g d = [.deliver d.offset, settle, .mark d.offset]) := by
  unfold processOne
  cases hretry : processWithRetry g d with
  | none =>
    have hhandles := processWithRetry_eq_none.mp hretry
    exact .inr ⟨fun h => h.1 hhandles, .handled d.offset, rfl, rfl⟩
  | some err =>
    have hnot : ¬ Handles g d := by
      intro h
      rw [processWithRetry_eq_none.mpr h] at hretry
      cases hretry
    simp only [sendToDLQ, hproducer, hencodes, Bool.not_true, Bool.false_eq_true, if_false]
    cases hsend : d.sendRaw with
    | none => exact .inr ⟨fun h => h.2 hsend, .deadLetter d.offset _ err, rfl, rfl⟩
    | some sendErr => exact .inl ⟨⟨hnot, by rw [hsend]; exact Option.some_ne_none _⟩, rfl⟩

theorem mem_processOne {a : Act} (h : a ∈ processOne g d) :
    a = .deliver d.offset ∨ ¬ Lost g d ∧ (Settles d.offset a ∨ a = .mark d.offset) := by
  rcases processOne_eq hproducer hencodes with ⟨-, heq⟩ | ⟨hlost, settle, hsettle, heq⟩
  · rw [heq, mem_singleton] at h
    exact .inl h
  · rw [heq] at h
    simp only [mem_cons, not_mem_nil, or_false] at h
    rcases h with rfl | rfl | rfl
    · exact .inl rfl
    · exact .inr ⟨hlost, .inl hsettle⟩
    · exact .inr ⟨hlost, .inr rfl⟩

theorem settles_of_not_lost (hlost : ¬ Lost g d) :
    .mark d.offset ∈ processOne g d ∧ ∃ a ∈ processOne g d, Settles d.offset a := by
  rcases processOne_eq hproducer hencodes with ⟨h, -⟩ | ⟨-, settle, hsettle, heq⟩
  · exact absurd h hlost
  · rw [heq]
    exact ⟨by simp, settle, by simp, hsettle⟩

end

theorem owner_of_mem (hproducer : g.producer = true) {ds : List Delivery}
    (hencodes : ∀ d ∈ ds, d.encodes = true) (o : Nat) :
    (.deliver o ∈ ds.flatMap (processOne g) → ∃ d ∈ ds, d.offset = o) ∧
      (.mark o ∈ ds.flatMap (processOne g) → ∃ d ∈ ds, d.offset = o ∧ ¬ Lost g d) := by
  constructor
  · intro h
    obtain ⟨d, hd, h⟩ := mem_flatMap.mp h
    rcases mem_processOne hproducer (hencodes d hd) h with heq | ⟨-, hfalse | hfalse⟩
    · exact ⟨d, hd, (Act.deliver.inj heq).symm⟩
    · cases hfalse
    · cases hfalse
  · intro h
    obtain ⟨d, hd, h⟩ := mem_flatMap.mp h
    rcases mem_processOne hproducer (hencodes d hd) h with hfalse | ⟨hkept, hfalse | heq⟩
    · cases hfalse
    · cases hfalse
    · exact ⟨d, hd, (Act.mark.inj heq).symm, hkept⟩

/-! ## Every point of the claim -/

theorem atLeastOnce_iff : AtLeastOnce start acts ↔
    ∀ offset, Unsettled acts offset → (∀ position, start = some position → position ≤ offset) ∧
      ∀ o, .mark o ∈ acts → o < offset := by
  unfold AtLeastOnce
  simp only [committed_le_iff]

theorem atLeastOnce_filter :
    AtLeastOnce start (acts.filter (· ≠ .flush)) ↔ AtLeastOnce start acts := by
  have hsettles : ∀ offset, (∀ a ∈ acts.filter (· ≠ .flush), ¬ Settles offset a) ↔
      ∀ a ∈ acts, ¬ Settles offset a := by
    intro offset
    constructor
    · intro h a ha
      by_cases hflush : a = .flush
      · rw [hflush]
        exact id
      · exact h a (mem_filter.mpr ⟨ha, by simpa using hflush⟩)
    · exact fun h a ha => h a (mem_of_mem_filter ha)
  simp only [atLeastOnce_iff, Unsettled, hsettles]
  simp [mem_filter]

theorem filter_processOne (g : ConsumerGroup) (d : Delivery) :
    (processOne g d).filter (· ≠ .flush) = processOne g d := by
  apply filter_eq_self.mpr
  unfold processOne sendToDLQ
  cases processWithRetry g d with
  | none => simp
  | some err =>
    cases g.producer <;> cases d.encodes <;> cases d.sendRaw <;> simp

/-- Apart from the flushes, the loop does what `processOne` does, message by message. -/
theorem filter_claimLoop (g : ConsumerGroup) (draining : Bool) (selects : List Ready) :
    (claimLoop g draining selects).filter (· ≠ .flush) =
      (received draining selects).flatMap (processOne g) := by
  induction selects generalizing draining with
  | nil => cases draining <;> rfl
  | cons ready rest ih =>
    cases ready with
    | message d =>
      cases draining <;>
        rw [claimLoop, received, filter_append, filter_processOne, ih, flatMap_cons]
    | closed => cases draining <;> rfl
    | quiet =>
      cases draining
      · exact ih false
      · exact ih false
    | done =>
      cases draining
      · rfl
      · exact ih true

section Claim

variable {g : ConsumerGroup} (hproducer : g.producer = true) {ds : List Delivery}
  (hencodes : ∀ d ∈ ds, d.encodes = true) (hsorted : ds.Pairwise fun d d' => d.offset < d'.offset)

include hproducer hencodes hsorted

theorem atLeastOnce_of_pairwise {start : Option Nat}
    (hstart : ∀ d ∈ ds, ∀ position, start = some position → position ≤ d.offset)
    (hlost : ds.Pairwise fun d d' => Lost g d → Lost g d') {acts : List Act}
    (hacts : acts <+: ds.flatMap (processOne g)) : AtLeastOnce start acts := by
  induction ds generalizing acts with
  | nil =>
    obtain rfl := prefix_nil.mp hacts
    exact fun offset h => absurd h.1 not_mem_nil
  | cons d ds ih =>
    obtain ⟨hlt, hsorted⟩ := pairwise_cons.mp hsorted
    obtain ⟨hlost, hlosts⟩ := pairwise_cons.mp hlost
    refine atLeastOnce_iff.mpr fun offset hun => ?_
    obtain ⟨d', hd', rfl⟩ := (owner_of_mem hproducer hencodes offset).1 (hacts.subset hun.1)
    refine ⟨hstart d' hd', fun o ho => ?_⟩
    rcases processOne_eq hproducer (hencodes d mem_cons_self) with ⟨hd, -⟩ | ⟨-, settle, hsettle, heq⟩
    · -- Then all are lost, and nothing is marked.
      obtain ⟨d₁, hd₁, -, hkept⟩ := (owner_of_mem hproducer hencodes o).2 (hacts.subset ho)
      rcases mem_cons.mp hd₁ with rfl | hd₁
      · exact absurd hd hkept
      · exact absurd (hlost d₁ hd₁ hd) hkept
    · have hmark : Act.mark o ≠ settle := by
        rintro rfl
        exact hsettle
      rw [flatMap_cons, heq] at hacts
      simp only [cons_append, nil_append, prefix_cons_iff] at hacts
      rcases hacts with rfl | ⟨_, rfl, rfl | ⟨_, rfl, rfl | ⟨acts, rfl, hacts⟩⟩⟩
      · simp at ho
      · simp at ho
      · simp [hmark] at ho
      · obtain ⟨hdeliver, hunsettled⟩ := hun
        have hne : d'.offset ≠ d.offset := fun h => hunsettled settle (by simp) (h ▸ hsettle)
        have hds : d' ∈ ds := (mem_cons.mp hd').resolve_left fun h => hne (h ▸ rfl)
        have hin : .deliver d'.offset ∈ acts := by
          simp only [mem_cons, Act.deliver.injEq, hne, false_or, reduceCtorEq] at hdeliver
          rcases hdeliver with rfl | hin
          · exact hsettle.elim
          · exact hin
        simp only [mem_cons, reduceCtorEq, hmark, false_or, Act.mark.injEq] at ho
        rcases ho with rfl | ho
        · exact hlt d' hds
        · exact (atLeastOnce_iff.mp (ih (fun d hd => hencodes d (mem_cons_of_mem _ hd)) hsorted
            (fun d hd => hstart d (mem_cons_of_mem _ hd)) hlosts hacts) d'.offset
              ⟨hin, fun a ha => hunsettled a (by simp [ha])⟩).2 o ho

theorem pairwise_of_atLeastOnce (start : Option Nat)
    (h : AtLeastOnce start (ds.flatMap (processOne g))) :
    ds.Pairwise fun d d' => Lost g d → Lost g d' := by
  rw [atLeastOnce_iff] at h
  rw [pairwise_iff_forall_sublist]
  intro d d' hsub hlost
  by_contra hkept
  have hd : d ∈ ds := hsub.subset (by simp)
  have hd' : d' ∈ ds := hsub.subset (by simp)
  have hlt : d.offset < d'.offset := pairwise_iff_forall_sublist.mp hsorted hsub
  have hunsettled : Unsettled (ds.flatMap (processOne g)) d.offset := by
    constructor
    · rcases processOne_eq hproducer (hencodes d hd) with ⟨-, heq⟩ | ⟨hnot, -⟩
      · exact mem_flatMap.mpr ⟨d, hd, by rw [heq]; exact mem_singleton.mpr rfl⟩
      · exact absurd hlost hnot
    · intro a ha hsettles
      obtain ⟨d₁, hd₁, ha⟩ := mem_flatMap.mp ha
      rcases mem_processOne hproducer (hencodes d₁ hd₁) ha with rfl | ⟨hnot, hsettles₁ | rfl⟩
      · exact hsettles
      · have hoffset : d₁.offset = d.offset := by
          cases a <;> first | exact hsettles₁.symm.trans hsettles | exact hsettles.elim
        have hnodup : (ds.map (·.offset)).Nodup := pairwise_map.mpr (hsorted.imp Nat.ne_of_lt)
        exact hnot (inj_on_of_nodup_map hnodup hd₁ hd hoffset ▸ hlost)
      · exact hsettles
  obtain ⟨hmark, -⟩ := settles_of_not_lost hproducer (hencodes d' hd') hkept
  have hbound := (h d.offset hunsettled).2 d'.offset (mem_flatMap.mpr ⟨d', hd', hmark⟩)
  omega

end Claim

/-- At every point of the claim the committed position is at most the offset of each message that
was delivered and is neither handled nor in its dead-letter topic, exactly if after a message
that neither took every later one of the claim fails the same way. -/
theorem handleClaim_atLeastOnce_iff (g : ConsumerGroup) (hproducer : g.producer = true)
    (selects : List Ready) (hencodes : ∀ d ∈ received false selects, d.encodes = true)
    (hsorted : (received false selects).Pairwise fun d d' => d.offset < d'.offset)
    (start : Option Nat) (hstart : ∀ d ∈ received false selects, ∀ position, start = some position →
      position ≤ d.offset) :
    (∀ acts, acts <+: handleClaim g selects → AtLeastOnce start acts) ↔
      (received false selects).Pairwise fun d d' => Lost g d → Lost g d' := by
  have hacts := filter_claimLoop g false selects
  constructor
  · intro h
    apply pairwise_of_atLeastOnce hproducer hencodes hsorted start
    rw [← hacts]
    exact atLeastOnce_filter.mpr (h _ (prefix_refl _))
  · intro hlost acts hprefix
    apply atLeastOnce_filter.mp
    apply atLeastOnce_of_pairwise hproducer hencodes hsorted hstart hlost
    rw [← hacts]
    exact hprefix.filter _

/-! The first message fails for good while the dead-letter topic is away, the second is fine. -/

def failing : Delivery where
  topic := "arcade.propagation"
  key := "tx"
  offset := 4
  attempts _ := ⟨false, some "handler"⟩
  encodes := true
  sendRaw := some "timeout"

def succeeding : Delivery := { failing with offset := 5, attempts := fun _ => ⟨false, none⟩ }

def oneTry : ConsumerGroup := newConsumerGroup 1 true

/-- The committed position goes past the message at offset 4, which is neither handled nor in its
dead-letter topic. -/
theorem failing_committed :
    Unsettled (handleClaim oneTry [.message failing, .message succeeding]) 4 ∧
      committed (some 4) (handleClaim oneTry [.message failing, .message succeeding]) = some 6 := by
  have hacts : handleClaim oneTry [.message failing, .message succeeding] =
      [.deliver 4, .deliver 5, .handled 5, .mark 5] := rfl
  rw [hacts]
  refine ⟨⟨by simp, ?_⟩, rfl⟩
  intro a ha
  simp only [mem_cons, not_mem_nil, or_false] at ha
  rcases ha with rfl | rfl | rfl | rfl <;> simp [Settles]

/-- A message goes to the dead-letter topic, the next is handled, and the last one is lost. -/
def lastLost : List Ready :=
  [.message { failing with offset := 3, sendRaw := none }, .quiet, .message succeeding,
    .message { failing with offset := 6 }]

theorem handleClaim_atLeastOnce_iff_lastLost :
    handleClaim oneTry lastLost = [.deliver 3, .deadLetter 3 "arcade.propagation.dlq" "handler",
      .mark 3, .flush, .deliver 5, .handled 5, .mark 5, .deliver 6] ∧
    committed (some 3) (handleClaim oneTry lastLost) = some 6 ∧
      ∀ acts, acts <+: handleClaim oneTry lastLost → AtLeastOnce (some 3) acts := by
  refine ⟨by decide, by decide, ?_⟩
  have hreceived : ∀ P : Delivery → Prop, P { failing with offset := 3, sendRaw := none } →
      P succeeding → P { failing with offset := 6 } → ∀ d ∈ received false lastLost, P d := by
    intro P h₃ h₅ h₆ d hd
    simp only [lastLost, received, mem_cons, not_mem_nil, or_false] at hd
    rcases hd with rfl | rfl | rfl
    exacts [h₃, h₅, h₆]
  have hhandles : Handles oneTry succeeding := ⟨0, by decide⟩
  apply (handleClaim_atLeastOnce_iff oneTry rfl lastLost ?_ ?_ (some 3) ?_).mpr
  · refine .cons (fun d _ h => absurd rfl h.2) (.cons (fun d _ h => absurd hhandles h.1) ?_)
    exact pairwise_singleton _ _
  · exact hreceived _ rfl rfl rfl
  · simp [lastLost, received, succeeding, failing]
  · refine hreceived _ ?_ ?_ ?_ <;> rintro position ⟨⟩ <;> decide

end Arcade.Kafka
