import Arcade.Store.Orphans

/-!
When `MarkBlocksOrphaned` leaves the row it names on the reconcile queue, for
the Pebble and the MongoDB store.

Both skip a row that is orphaned with a generation later than the timestamp of
the call. The store itself mints generations ahead of the timestamps it is
given, so a call whose timestamp is not earlier than any before it can be
skipped as well.
-/

namespace Arcade.Store

open Lib List

/-! ## Backends -/

/-- The row of one block in a backend, and the calls on it. `mark n` is a
`MarkBlocksOrphaned` call whose list names the block `n` times. -/
structure OrphanBackend (Row Time Call : Type) where
  mark : Nat → Time → Row → Row
  other : Call → Row → Row
  Orphaned : Row → Prop
  Stamped : Row → Prop
  /-- The generation of the row is later than the time. -/
  Ahead : Time → Row → Prop
  mark_ahead : ∀ n t row, Orphaned row → Ahead t row → mark n t row = row
  mark_queues : ∀ n t row, n ≠ 0 → ¬ (Orphaned row ∧ Ahead t row) →
    Orphaned (mark n t row) ∧ ¬ Stamped (mark n t row)

inductive RowCall (Time Call : Type) where
  | mark (named : Nat) (orphanedAt : Time)
  | other (c : Call)

namespace OrphanBackend

variable {Row Time Call : Type} (B : OrphanBackend Row Time Call)

def step (row : Row) : RowCall Time Call → Row
  | .mark n t => B.mark n t row
  | .other c => B.other c row

/-- After every `MarkBlocksOrphaned` call that names the row, it is on the queue. -/
def NeverLost (row : Row) (calls : List (RowCall Time Call)) : Prop :=
  ∀ before n t after, calls = before ++ .mark n t :: after → n ≠ 0 →
    B.Orphaned (run B.step row (before ++ [.mark n t])) ∧
      ¬ B.Stamped (run B.step row (before ++ [.mark n t]))

/-- The call does not name a row that is orphaned, already reconciled and of a
later generation than its timestamp. -/
def Unhidden (row : Row) : RowCall Time Call → Prop
  | .mark n t => n ≠ 0 → ¬ (B.Orphaned row ∧ B.Ahead t row ∧ B.Stamped row)
  | .other _ => True

/-- One call: the row ends on the queue exactly when it was not hidden from it. -/
theorem mark_iff {n : Nat} (hn : n ≠ 0) (t : Time) (row : Row) :
    (B.Orphaned (B.mark n t row) ∧ ¬ B.Stamped (B.mark n t row)) ↔
      ¬ (B.Orphaned row ∧ B.Ahead t row ∧ B.Stamped row) := by
  by_cases h : B.Orphaned row ∧ B.Ahead t row
  · rw [B.mark_ahead n t row h.1 h.2]
    constructor
    · rintro ⟨-, hs⟩ ⟨-, -, hs'⟩
      exact hs hs'
    · intro hh
      exact ⟨h.1, fun hs => hh ⟨h.1, h.2, hs⟩⟩
  · constructor
    · rintro - ⟨ho, ha, -⟩
      exact h ⟨ho, ha⟩
    · intro _
      exact B.mark_queues n t row hn h

theorem neverLost_iff_unhidden (row : Row) (calls : List (RowCall Time Call)) :
    B.NeverLost row calls ↔ AllSteps B.step B.Unhidden row calls := by
  rw [allSteps_iff]
  constructor
  · intro h before c after hc
    cases c with
    | other c => trivial
    | mark n t =>
      intro hn
      have hq := h before n t after hc hn
      rw [run_append] at hq
      exact (B.mark_iff hn t _).mp hq
  · intro h before n t after hc hn
    rw [run_append]
    exact (B.mark_iff hn t _).mpr (h before (.mark n t) after hc hn)

end OrphanBackend

/-! ## Pebble -/

namespace Pebble

/-- One round of `MarkBlocksOrphaned` for the row. -/
def markOnce (gen : Int64) (row : BlockRow) : BlockRow := (markOrphaned gen row).getD row

variable {row : BlockRow} {gen : Int64}

theorem markOnce_ahead (ho : row.status = .orphaned) (ha : gen < row.orphanedAt) :
    markOnce gen row = row := by
  simp [markOnce, markOrphaned_eq_none.mpr ⟨ho, ha⟩]

theorem markOnce_queued (h : ¬ (row.status = .orphaned ∧ gen < row.orphanedAt)) :
    (markOnce gen row).Queued := by
  cases hm : markOrphaned gen row with
  | none => exact absurd (markOrphaned_eq_none.mp hm) h
  | some out =>
    rw [markOnce, hm]
    exact markOrphaned_queued hm

theorem markOnce_keeps_queued (h : row.Queued) : (markOnce gen row).Queued := by
  by_cases ha : gen < row.orphanedAt
  · rw [markOnce_ahead h.1 ha]
    exact h
  · exact markOnce_queued fun hc => ha hc.2

theorem iterate_markOnce_queued (h : ¬ (row.status = .orphaned ∧ gen < row.orphanedAt)) {n : Nat}
    (hn : n ≠ 0) :
    ((markOnce gen)^[n] row).Queued := by
  obtain ⟨m, rfl⟩ := Nat.exists_eq_succ_of_ne_zero hn
  clear hn
  induction m with
  | zero => exact markOnce_queued h
  | succ m ih =>
    rw [Function.iterate_succ_apply']
    exact markOnce_keeps_queued ih

theorem lookup_markBlocksOrphaned (hashes : List String) (gen : Int64) (blocks : Blocks)
    (hash : String) :
    (markBlocksOrphaned hashes gen blocks).1.lookup hash =
      (blocks.lookup hash).map (markOnce gen)^[hashes.count hash] := by
  have hfold : ∀ acc : Blocks × Nat, (hashes.foldl (markRow gen) acc).1.lookup hash =
      (acc.1.lookup hash).map (markOnce gen)^[hashes.count hash] := by
    induction hashes with
    | nil => simp
    | cons next hashes ih =>
      intro acc
      rw [foldl_cons, ih, lookup_markRow]
      by_cases h : hash = next
      · subst h
        cases hl : acc.1.lookup hash with
        | none => simp
        | some row => cases hm : markOrphaned gen row <;> simp [markOnce, hm]
      · rw [if_neg h, count_cons_of_ne fun he => h he.symm]
  exact hfold (blocks, 0)

/-- The row in the Pebble store; the other calls are the writers of one row. -/
def rows : OrphanBackend BlockRow Int64 BlockWrite where
  mark n gen row := (markOnce gen)^[n] row
  other w row := (w.onRow (some row)).getD row
  Orphaned row := row.status = .orphaned
  Stamped row := row.reconciledAt ≠ 0
  Ahead gen row := gen < row.orphanedAt
  mark_ahead n gen row ho ha := Function.iterate_fixed (markOnce_ahead ho ha) n
  mark_queues n gen row hn h := by
    have hq := iterate_markOnce_queued h hn
    exact ⟨hq.1, fun hs => hs hq.2⟩

end Pebble

/-! ## MongoDB -/

namespace Mongo

/-- `blockProcessingDoc`: the generation in nanoseconds, `orphaned_at` in milliseconds. -/
structure BlockDoc where
  blockHeight : Nat
  status : BlockStatus
  orphanedGen : Option Int
  orphanedAt : Option Int
  reconciledAt : Option Int
  deriving DecidableEq

def mintingOrphanUpdate (gen : Int) (doc : BlockDoc) : BlockDoc :=
  let prev := doc.orphanedGen.getD ((doc.orphanedAt.map (· * 1000000)).getD 0)
  let minted := if prev < gen then gen else prev + 1
  { doc with
    status := .orphaned
    orphanedGen := some minted
    orphanedAt := some (minted.tdiv 1000000)
    reconciledAt := none }

/-- The generation that the refresh filter compares is not later than the call's. -/
def atOrBelow (gen : Int) (doc : BlockDoc) : Bool :=
  match doc.orphanedGen, doc.orphanedAt with
  | some g, _ => g ≤ gen
  | none, some ms => ms ≤ gen / 1000000
  | none, none => true

def refresh (gen : Int) (doc : BlockDoc) : BlockDoc :=
  if doc.status = .orphaned ∧ atOrBelow gen doc then mintingOrphanUpdate gen doc else doc

def transition (gen : Int) (doc : BlockDoc) : BlockDoc :=
  if doc.status ≠ .orphaned then mintingOrphanUpdate gen doc else doc

inductive BlockCall where
  | headerSeen (blockHeight : Nat)
  | reconciled (token : Option Int) (at_ : Int)
  | reactivate (blockHeight : Nat) (token : Option Int)

/-- `orphanGenerationFilter`, with the status it is joined to. -/
def tokenMatches (token : Option Int) (doc : BlockDoc) : Bool :=
  doc.status = .orphaned && token.all fun g =>
    match doc.orphanedGen with
    | some gen => gen = g
    | none => doc.orphanedAt = some (g / 1000000)

def BlockCall.apply : BlockCall → BlockDoc → BlockDoc
  | .headerSeen height, doc => { doc with blockHeight := height, status := .active, reconciledAt := none }
  | .reconciled token at_, doc =>
    if tokenMatches token doc then { doc with reconciledAt := some (at_ / 1000000) } else doc
  | .reactivate height token, doc =>
    if tokenMatches token doc then
      { doc with blockHeight := height, status := .active, reconciledAt := none }
    else doc

/-- The document in the MongoDB store. `MarkBlocksOrphaned` removes repeated
hashes and runs the refresh before the transition. -/
def rows : OrphanBackend BlockDoc Int BlockCall where
  mark n gen doc := if n = 0 then doc else transition gen (refresh gen doc)
  other c doc := c.apply doc
  Orphaned doc := doc.status = .orphaned
  Stamped doc := doc.reconciledAt ≠ none
  Ahead gen doc := atOrBelow gen doc = false
  mark_ahead n gen doc ho ha := by
    simp [refresh, transition, ho, ha]
  mark_queues n gen doc hn h := by
    rw [if_neg hn]
    by_cases ho : doc.status = .orphaned
    · have ha : atOrBelow gen doc = true := by
        cases hb : atOrBelow gen doc with
        | true => rfl
        | false => exact absurd ⟨ho, hb⟩ h
      simp [refresh, transition, ho, ha, mintingOrphanUpdate]
    · simp [refresh, transition, ho, mintingOrphanUpdate]

end Mongo

/-! ## The queue -/

/-- In both stores, and for every list of calls on a row, the orphaning calls
all queue the row exactly when none of them finds it reconciled with a
generation later than its timestamp. -/
theorem orphaning_queues_iff (row : BlockRow) (calls : List (RowCall Int64 BlockWrite))
    (doc : Mongo.BlockDoc) (docCalls : List (RowCall Int Mongo.BlockCall)) :
    (Pebble.rows.NeverLost row calls ↔ AllSteps Pebble.rows.step Pebble.rows.Unhidden row calls) ∧
    (Mongo.rows.NeverLost doc docCalls ↔
      AllSteps Mongo.rows.step Mongo.rows.Unhidden doc docCalls) :=
  ⟨Pebble.rows.neverLost_iff_unhidden row calls, Mongo.rows.neverLost_iff_unhidden doc docCalls⟩

/-- The timestamps of the `MarkBlocksOrphaned` calls, in order. -/
def timestamps {Time Call : Type} : List (RowCall Time Call) → List Time :=
  List.filterMap fun
    | .mark _ t => some t
    | .other _ => none

/-- Three orphaning calls with one timestamp, and a reconcile stamp before the last. -/
def reusedTimestamp : List (RowCall Int64 BlockWrite) :=
  [.mark 1 5, .mark 1 5, .other (.reconciled "b" (some 6) 9), .mark 1 5]

/-- The last call is skipped, and the row stays off the queue. -/
theorem reusedTimestamp_loses_row : (timestamps reusedTimestamp).Pairwise (· ≤ ·) ∧
      ¬ Pebble.rows.NeverLost seenRow reusedTimestamp := by
  refine ⟨by decide, ?_⟩
  intro h
  have hq := h [.mark 1 5, .mark 1 5, .other (.reconciled "b" (some 6) 9)] 1 5 [] rfl (by decide)
  apply hq.2
  change (run Pebble.rows.step seenRow reusedTimestamp).reconciledAt ≠ 0
  decide +kernel

end Arcade.Store
