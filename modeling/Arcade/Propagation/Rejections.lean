import Arcade.Propagation.TerminalStatuses
import Arcade.Store.TxRows

/-!
The REJECTED events of the batch path against the rows they report. Three callers reach
`publishRejections`: `applyTerminalStatuses` looks at what its own write did to each row,
`persistCascade` and `schedulePendingRetry` publish whatever their writes did.

Other writers may act at any time, so a write may find any table.
-/

namespace Arcade.Propagation

open Lib List
open Store (TxRow TxRows StatusUpdate)

/-! ## What a write finds -/

/-- The fields that `UpdateStatus` gets. -/
def TransactionStatus.update (st : TransactionStatus) : StatusUpdate :=
  ⟨some st.status, "", 0, st.extraInfo, [], 0, 0⟩

/-- The table when a row write runs. If the write fails, `fault` tells whether it landed all
the same. -/
structure Moment where
  rows : TxRows
  fault : Option Bool

namespace Moment

/-- The row that `UpdateStatusReturning` writes over, and the row it writes. -/
def updated (m : Moment) (st : TransactionStatus) : Option (TxRow × TxRow) :=
  if m.fault = some false then none
  else match m.rows.lookup st.txid with
    | none => none
    | some row => (Store.updateStatus st.update row).map fun out => (row, out)

/-- `Prev` of the result: the status of the row that was written over. -/
def prev (m : Moment) (st : TransactionStatus) : Option Status :=
  if m.fault.isSome then none else (m.updated st).map (·.1.status)

/-- The row that `ClearRetryState` finds, and what it makes of it. -/
def cleared (m : Moment) (st : TransactionStatus) : Option (TxRow × TxRow) :=
  if m.fault = some false then none
  else (m.rows.lookup st.txid).map fun row =>
    (row, Store.clearRetryState st.status st.extraInfo row)

/-- The write found a row that REJECTED may replace, and was not lost. -/
def Open (m : Moment) (txid : String) : Prop :=
  m.fault ≠ some false ∧ ∃ row, m.rows.lookup txid = some row ∧ row.status ≠ .rejected ∧
    Store.canTransitionFrom .rejected row.status = true

end Moment

/-- The write made a row REJECTED that was not. -/
def Rejects : Option (TxRow × TxRow) → Prop
  | none => False
  | some (before, after) => before.status ≠ .rejected ∧ after.status = .rejected

/-- What the store returns for a batch. -/
def prevsOf (moments : Nat → Moment) (statuses : List TransactionStatus) : List (Option Status) :=
  statuses.mapIdx fun i st => (moments i).prev st

/-! ## The three callers -/

section

variable {moments : Nat → Moment} {statuses : List TransactionStatus} {st : TransactionStatus}
  {m : Moment} {cascaded : List CascadeRejection} {retry : Nat → RetryReply}

theorem updated_eq_some {before after : TxRow} (h : m.updated st = some (before, after)) :
    after.status = st.status := by
  unfold Moment.updated at h
  split at h
  · cases h
  · split at h
    · cases h
    · obtain ⟨out, hout, heq⟩ := Option.map_eq_some_iff.mp h
      cases heq
      unfold Store.updateStatus at hout
      split at hout
      · cases hout
        rfl
      · cases hout

theorem rejects_of_prev {before : Status} (h : m.prev st = some before) (hne : before ≠ st.status)
    (hs : st.status = .rejected) :
    Rejects (m.updated st) := by
  unfold Moment.prev at h
  split at h
  · cases h
  · obtain ⟨⟨old, new⟩, hw, rfl⟩ := Option.map_eq_some_iff.mp h
    rw [hw]
    exact ⟨hs ▸ hne, (updated_eq_some hw).trans hs⟩

theorem published_rejects {row : TransactionStatus}
    (h : row ∈ published .rejected statuses (prevsOf moments statuses)) :
    ∃ i, statuses[i]? = some row ∧ Rejects ((moments i).updated row) := by
  induction statuses generalizing moments with
  | nil => cases h
  | cons st rest ih =>
    have hprevs : prevsOf moments (st :: rest) =
        (moments 0).prev st :: prevsOf (fun i => moments (i + 1)) rest := mapIdx_cons
    have hrest : row ∈ published .rejected rest (prevsOf (fun i => moments (i + 1)) rest) →
        ∃ i, (st :: rest)[i]? = some row ∧ Rejects ((moments i).updated row) := by
      intro hrow
      obtain ⟨i, hi, hr⟩ := ih hrow
      exact ⟨i + 1, hi, hr⟩
    rw [hprevs] at h
    cases hp : (moments 0).prev st with
    | none =>
      simp only [hp, published] at h
      exact hrest h
    | some before =>
      simp only [hp, published] at h
      split at h
      · rename_i hchange
        rcases mem_cons.mp h with rfl | h
        · exact ⟨0, rfl, rejects_of_prev hp hchange.1 hchange.2⟩
        · exact hrest h
      · exact hrest h

theorem rejects_updated_iff (hs : st.status = .rejected) :
    Rejects (m.updated st) ↔ m.Open st.txid := by
  unfold Moment.updated Moment.Open
  by_cases hf : m.fault = some false
  · simp [hf, Rejects]
  · cases hl : m.rows.lookup st.txid with
    | none => simp [hf, Rejects]
    | some row =>
      simp only [hf, ↓reduceIte, Store.updateStatus, TransactionStatus.update, hs, Option.all_some,
        ne_eq, not_false_eq_true, Option.some.injEq, exists_eq_left', true_and]
      cases hc : Store.canTransitionFrom .rejected row.status <;> simp [Rejects, Store.mergeStatus]

variable {pendingRetryMaxAttempts : Nat} {now : Int} {rows : List TransactionStatus}

theorem mem_scheduleAll {i : Nat}
    (h : .publishRejections rows ∈ scheduleAll pendingRetryMaxAttempts retry i cascaded) :
    ∃ j cr, cascaded[j]? = some cr ∧ .publishRejections rows ∈
      schedulePendingRetry pendingRetryMaxAttempts (retry (i + j)) cr.txid cr.rawTx
        (cascadeReason .pendingRetry cr.ancestor) := by
  induction cascaded generalizing i with
  | nil => cases h
  | cons cr rest ih =>
    rcases mem_append.mp h with h | h
    · exact ⟨0, cr, rfl, h⟩
    · obtain ⟨j, cr', hcr, hm⟩ := ih h
      exact ⟨j + 1, cr', hcr, by rwa [show i + (j + 1) = i + 1 + j by omega]⟩

theorem mem_applyTerminalStatuses {store : StoreReplies}
    {dispatchers : List (Dispatcher × List Round)} (h : .publishRejections rows ∈
      (applyTerminalStatuses pendingRetryMaxAttempts now store statuses dispatchers).calls) :
    rows = published .rejected statuses store.prevs ∨
      let applied := applyTerminalStatuses pendingRetryMaxAttempts now store statuses dispatchers
      .publishRejections rows ∈ persistCascade pendingRetryMaxAttempts now store.rejectOk
        (store.retries applied.rejectCascaded) applied.rejectCascaded .rejected ∨
      .publishRejections rows ∈ persistCascade pendingRetryMaxAttempts now store.parkOk
        (store.retries applied.parkCascaded) applied.parkCascaded .pendingRetry := by
  unfold applyTerminalStatuses at h ⊢
  split at h
  · cases h
  · rename_i hlen
    simp only [hlen, ↓reduceIte] at h ⊢
    split at h
    · simp only [mem_cons, not_mem_nil, reduceCtorEq, false_or, or_false,
        Call.publishRejections.injEq] at h
      exact .inl h
    · rename_i hok
      simp only [hok, Bool.false_eq_true, ↓reduceIte] at h ⊢
      simp only [mem_append] at h
      rcases h with (h | h) | h
      · simp only [mem_cons, not_mem_nil, reduceCtorEq, false_or, or_false,
          Call.publishRejections.injEq] at h
        exact .inl h
      · split at h
        · exact .inr (.inl h)
        · cases h
      · split at h
        · exact .inr (.inr h)
        · cases h

theorem mem_persistCascade_rejected {ok : Bool} :
    .publishRejections rows ∈ persistCascade pendingRetryMaxAttempts now ok retry cascaded .rejected ↔
      rows = cascadeRows now cascaded .rejected := by
  simp [persistCascade]

theorem mem_persistCascade_pendingRetry {ok : Bool} (h : .publishRejections rows ∈
      persistCascade pendingRetryMaxAttempts now ok retry cascaded .pendingRetry) :
    ∃ j cr, cascaded[j]? = some cr ∧ .publishRejections rows ∈
      schedulePendingRetry pendingRetryMaxAttempts (retry j) cr.txid cr.rawTx
        (cascadeReason .pendingRetry cr.ancestor) := by
  simp only [persistCascade, ↓reduceIte, reduceCtorEq, cons_append, mem_cons,
    mem_append, not_mem_nil, or_false, false_or] at h
  obtain ⟨j, cr, hcr, hm⟩ := mem_scheduleAll h
  exact ⟨j, cr, hcr, by rwa [Nat.zero_add] at hm⟩

theorem mem_schedulePendingRetry {reply : RetryReply} {txid lastReason : String} {rawTx : List UInt8} :
    .publishRejections rows ∈
      schedulePendingRetry pendingRetryMaxAttempts reply txid rawTx lastReason ↔
    (rawTx ≠ [] ∧ (∃ count, reply.count = some count ∧ count > pendingRetryMaxAttempts) ∧
      reply.ok = true) ∧
      rows = [⟨txid, .rejected, 0, giveUpReason pendingRetryMaxAttempts lastReason⟩] := by
  unfold schedulePendingRetry
  split
  · rename_i hz
    simp [length_eq_zero_iff.mp hz]
  · rename_i hz
    have hne : rawTx ≠ [] := fun h => hz (by simp [h])
    cases hc : reply.count with
    | none => simp
    | some count =>
      simp only
      split
      · rename_i hmore
        cases hok : reply.ok <;> simp [hne, hmore]
      · rename_i hmore
        simp [hmore]

end

/-! ## Events and rows -/

/-- What `applyTerminalStatuses` publishes of its own batch is always real. A cascade is real
exactly when each write of it finds a row that REJECTED may replace, and a give-up when the row
is there and not REJECTED yet. -/
theorem publishRejections_real_iff (pendingRetryMaxAttempts : Nat) (now : Int) :
    (∀ (store : StoreReplies) (statuses : List TransactionStatus) (moments : Nat → Moment)
        (dispatchers : List (Dispatcher × List Round)) (rows : List TransactionStatus),
      let store := { store with prevs := prevsOf moments statuses }
      let applied := applyTerminalStatuses pendingRetryMaxAttempts now store statuses dispatchers
      .publishRejections rows ∈ applied.calls →
      (∀ row ∈ rows, ∃ i, statuses[i]? = some row ∧ Rejects ((moments i).updated row)) ∨
        .publishRejections rows ∈ persistCascade pendingRetryMaxAttempts now store.rejectOk
          (store.retries applied.rejectCascaded) applied.rejectCascaded .rejected ∨
        .publishRejections rows ∈ persistCascade pendingRetryMaxAttempts now store.parkOk
          (store.retries applied.parkCascaded) applied.parkCascaded .pendingRetry) ∧
    (∀ (ok : Bool) (retry : Nat → RetryReply) (cascaded : List CascadeRejection)
        (moments : Nat → Moment),
      (∀ rows, .publishRejections rows ∈
          persistCascade pendingRetryMaxAttempts now ok retry cascaded .rejected →
        ∀ i row, rows[i]? = some row → Rejects ((moments i).updated row)) ↔
      ∀ i cr, cascaded[i]? = some cr → (moments i).Open cr.txid) ∧
    (∀ (ok : Bool) (retry : Nat → RetryReply) (cascaded : List CascadeRejection)
        (rows : List TransactionStatus),
      .publishRejections rows ∈
        persistCascade pendingRetryMaxAttempts now ok retry cascaded .pendingRetry →
      ∃ j cr, cascaded[j]? = some cr ∧ .publishRejections rows ∈
        schedulePendingRetry pendingRetryMaxAttempts (retry j) cr.txid cr.rawTx
          (cascadeReason .pendingRetry cr.ancestor)) ∧
    (∀ (count : Option Nat) (m : Moment) (txid lastReason : String) (rawTx : List UInt8),
      (∀ rows, .publishRejections rows ∈ schedulePendingRetry pendingRetryMaxAttempts
          ⟨count, m.fault.isNone⟩ txid rawTx lastReason →
        ∀ row ∈ rows, Rejects (m.cleared row)) ↔
      (rawTx ≠ [] → (∃ n, count = some n ∧ n > pendingRetryMaxAttempts) → m.fault = none →
        ∃ row, m.rows.lookup txid = some row ∧ row.status ≠ .rejected)) := by
  refine ⟨?_, ?_, ?_, ?_⟩
  · intro store statuses moments dispatchers rows store' applied h
    rcases mem_applyTerminalStatuses h with rfl | h
    · exact .inl fun row hrow => published_rejects hrow
    · exact .inr h
  · intro ok retry cascaded moments
    simp only [mem_persistCascade_rejected, forall_eq, cascadeRows, List.getElem?_map]
    refine forall_congr' fun i => ?_
    cases hc : cascaded[i]? with
    | none => simp
    | some cr => simpa using rejects_updated_iff rfl
  · intro ok retry cascaded rows h
    exact mem_persistCascade_pendingRetry h
  · intro count m txid lastReason rawTx
    simp only [mem_schedulePendingRetry, and_imp, Option.isNone_iff_eq_none]
    have hclear : ∀ row : TransactionStatus, row.txid = txid → row.status = .rejected →
        m.fault = none → (Rejects (m.cleared row) ↔
          ∃ row, m.rows.lookup txid = some row ∧ row.status ≠ .rejected) := by
      rintro row rfl hs hf
      simp only [Moment.cleared, hf, reduceCtorEq, ↓reduceIte]
      cases hl : m.rows.lookup row.txid with
      | none => simp [Rejects]
      | some old => simp [Rejects, Store.clearRetryState, hs]
    constructor
    · intro h hraw hcount hf
      exact (hclear _ rfl rfl hf).mp (h _ hraw hcount hf rfl _ mem_cons_self)
    · rintro h rows hraw hcount hf rfl row hrow
      rw [mem_singleton] at hrow
      subst hrow
      exact (hclear _ rfl rfl hf).mpr (h hraw hcount hf)

/-- The parent is rejected while its child, held behind it, has been seen on the network. -/
def seenChild : Moment where
  rows := AList.singleton "child" ⟨.seenOnNetwork, "", 0, "", [], 0, 0, "", []⟩
  fault := none

/-- The write of the child's row is refused and its REJECTED event goes out. -/
theorem seenChild_published :
    .publishRejections [⟨"child", .rejected, 7, cascadeReason .rejected "parent"⟩] ∈
      persistCascade 3 7 true (fun _ => ⟨none, true⟩) [⟨"child", [1], "parent"⟩] .rejected ∧
    seenChild.updated ⟨"child", .rejected, 7, cascadeReason .rejected "parent"⟩ = none ∧
    ¬seenChild.Open "child" := by
  have hrow : seenChild.rows.lookup "child" =
      some ⟨.seenOnNetwork, "", 0, "", [], 0, 0, "", []⟩ := by decide +kernel
  refine ⟨mem_persistCascade_rejected.mpr rfl, by decide +kernel, ?_⟩
  rintro ⟨-, row, hr, -, hc⟩
  obtain rfl := Option.mem_unique hrow hr
  exact absurd hc (by decide)

end Arcade.Propagation
