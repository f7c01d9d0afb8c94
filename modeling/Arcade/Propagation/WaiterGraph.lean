import Arcade.Lib.Transition
import Arcade.Propagation.Dispatcher

/-!
What the dispatcher's operations do to the waiter graph, the held messages and
the in-flight map, each said once. The invariants of the later modules are
derived from these descriptions and never unfold an operation.
-/

namespace Arcade.Propagation

open Lib

/-- `child` is in the waiter set of `parent`. -/
def Waits (waiters : GoMap String (GoSet String)) (parent child : String) : Prop :=
  ∃ set, waiters.lookup parent = some set ∧ child ∈ set

instance (waiters : GoMap String (GoSet String)) (parent child : String) :
    Decidable (Waits waiters parent child) :=
  match h : waiters.lookup parent with
  | none => isFalse (by rintro ⟨set, hs, -⟩; simp [h] at hs)
  | some set =>
    if hc : child ∈ set then isTrue ⟨set, h, hc⟩
    else isFalse (by rintro ⟨set', hs, hc'⟩; rw [h] at hs; cases hs; exact hc hc')

/-- An input the dispatcher treats as a parent: not empty, not the transaction
itself. -/
def PropagationMsg.HasParent (msg : PropagationMsg) (parent : String) : Prop :=
  parent ∈ msg.inputTXIDs ∧ parent ≠ "" ∧ parent ≠ msg.txid

instance (msg : PropagationMsg) (parent : String) : Decidable (msg.HasParent parent) :=
  inferInstanceAs (Decidable (_ ∧ _ ∧ _))

namespace Dispatcher

/-! ## Registration -/

theorem mem_blocking (msg : PropagationMsg) (inFlight : GoMap String Int) (p : String) :
    p ∈ blocking msg inFlight ↔ msg.HasParent p ∧ p ∈ inFlight := by
  unfold blocking PropagationMsg.HasParent
  rw [foldl_iff (p ∈ ·) (Q := fun q => p = q ∧ p ≠ "" ∧ p ≠ msg.txid ∧ p ∈ inFlight)]
  · simp [and_assoc]
  · intro acc q
    by_cases hq : q = "" ∨ q = msg.txid
    · rw [if_pos hq]
      refine (or_iff_left ?_).symm
      rintro ⟨rfl, hempty, hself, -⟩
      exact hq.elim hempty hself
    · rw [if_neg hq]
      obtain ⟨hempty, hself⟩ := not_or.mp hq
      split
      · rw [AList.mem_insert, or_comm]
        refine or_congr_right ⟨?_, fun h => h.1⟩
        rintro rfl
        exact ⟨rfl, hempty, hself, ‹_›⟩
      · refine (or_iff_left ?_).symm
        rintro ⟨rfl, -, -, hin⟩
        exact absurd hin ‹_›

theorem waits_register (txid : String) (waiters : GoMap String (GoSet String))
    (parent p c : String) :
    Waits (register txid waiters parent) p c ↔ Waits waiters p c ∨ (p = parent ∧ c = txid) := by
  unfold Waits register
  by_cases hp : p = parent
  · subst hp
    cases h : waiters.lookup p with
    | none => simp [AList.mem_keys]
    | some set => simp [or_comm]
  · simp [hp]

theorem waits_registerAll (txid : String) (parents : List String)
    (waiters : GoMap String (GoSet String)) (p c : String) :
    Waits (parents.foldl (register txid) waiters) p c ↔
      Waits waiters p c ∨ (p ∈ parents ∧ c = txid) := by
  rw [foldl_iff (Waits · p c) fun waiters parent => waits_register txid waiters parent p c]
  simp

variable (d : Dispatcher) (child : String) (msg : PropagationMsg) (inFlight : GoMap String Int)

theorem place_cases : (∃ p, msg.HasParent p ∧ p ∈ inFlight) ∧
      (d.place msg (blocking msg inFlight)).heldMsgs = d.heldMsgs.insert msg.txid msg ∧
      (d.place msg (blocking msg inFlight)).pendingMsgs = d.pendingMsgs ∧
      (∀ p c, Waits (d.place msg (blocking msg inFlight)).waiters p c ↔
        Waits d.waiters p c ∨ (msg.HasParent p ∧ p ∈ inFlight ∧ c = msg.txid)) ∨
    (∀ p, msg.HasParent p → p ∉ inFlight) ∧
      d.place msg (blocking msg inFlight) = { d with pendingMsgs := d.pendingMsgs ++ [msg] } := by
  unfold place
  by_cases hl : (blocking msg inFlight).keys.length > 0
  · left
    obtain ⟨p, hp⟩ := List.exists_mem_of_length_pos hl
    have hp' := (mem_blocking msg inFlight p).mp hp
    simp only [hl, ↓reduceIte]
    refine ⟨⟨p, hp'⟩, trivial, trivial, fun p c => ?_⟩
    rw [waits_registerAll, ← AList.mem_keys, mem_blocking, and_assoc]
  · right
    simp only [hl, ↓reduceIte, and_true]
    intro p hp hf
    have hm := (mem_blocking msg inFlight p).mpr ⟨hp, hf⟩
    exact hl (List.length_pos_of_mem (AList.mem_keys.mp hm))

@[simp] theorem place_inFlight (ps : GoSet String) : (d.place msg ps).inFlight = d.inFlight := by
  unfold place; split <;> rfl

@[simp] theorem place_tracker (ps : GoSet String) : (d.place msg ps).tracker = d.tracker := by
  unfold place; split <;> rfl

/-! ## Cleanup -/

theorem waits_erase (waiters : GoMap String (GoSet String)) (q p c : String) :
    Waits (waiters.erase q) p c ↔ p ≠ q ∧ Waits waiters p c := by
  unfold Waits
  rw [GoMap.lookup_erase_eq]
  by_cases hp : p = q <;> simp [hp]

theorem not_waits_of_none {waiters : GoMap String (GoSet String)} {q : String}
    (h : waiters.lookup q = none) (c : String) : ¬Waits waiters q c := by
  rintro ⟨set, hs, -⟩
  simp [h] at hs

theorem waits_erase_of_none {waiters : GoMap String (GoSet String)} {q : String}
    (h : waiters.lookup q = none) (p c : String) :
    Waits (waiters.erase q) p c ↔ Waits waiters p c := by
  rw [waits_erase]
  refine and_iff_right_of_imp ?_
  rintro hw rfl
  exact not_waits_of_none h c hw

theorem waits_dropWaiter (skip other : String) (waiters : GoMap String (GoSet String))
    (p c : String) :
    Waits (dropWaiter child skip waiters other) p c ↔
      Waits waiters p c ∧ ¬(p = other ∧ c = child ∧ p ≠ "" ∧ p ≠ child ∧ p ≠ skip) := by
  unfold dropWaiter
  split
  · rename_i h
    refine (and_iff_left ?_).symm
    rintro ⟨rfl, -, h₁, h₂, h₃⟩
    rcases h with rfl | rfl | rfl <;> contradiction
  · rename_i h
    obtain ⟨h₁, h₂⟩ := not_or.mp h
    obtain ⟨h₂, h₃⟩ := not_or.mp h₂
    cases hl : waiters.lookup other with
    | none =>
      refine (and_iff_left_of_imp ?_).symm
      rintro hw ⟨rfl, -⟩
      exact not_waits_of_none hl c hw
    | some set =>
      -- A set that becomes empty is removed with its key; either way the members agree.
      have hmem : Waits (if (set.erase child).keys.length = 0 then waiters.erase other
          else waiters.insert other (set.erase child)) p c ↔
          if p = other then c ∈ set.erase child else Waits waiters p c := by
        split
        · rename_i he
          rw [waits_erase]
          have hn : c ∉ set.erase child := by
            rw [AList.mem_keys, List.eq_nil_of_length_eq_zero he]
            exact List.not_mem_nil
          by_cases hp : p = other <;> simp [hp, hn]
        · unfold Waits
          rw [GoMap.lookup_insert_eq]
          by_cases hp : p = other <;> simp [hp]
      rw [hmem]
      by_cases hp : p = other
      · subst hp
        have hw : Waits waiters p c ↔ c ∈ set := by
          unfold Waits
          simp [hl]
        simp only [↓reduceIte, AList.mem_erase, hw]
        tauto
      · simp [hp]

theorem waits_dropWaiters (skip : String) (inputs : List String)
    (waiters : GoMap String (GoSet String)) (p c : String) :
    Waits (inputs.foldl (dropWaiter child skip) waiters) p c ↔
      Waits waiters p c ∧ ¬(p ∈ inputs ∧ c = child ∧ p ≠ "" ∧ p ≠ child ∧ p ≠ skip) := by
  induction inputs generalizing waiters with
  | nil => simp
  | cons q qs ih =>
    rw [List.foldl_cons, ih, waits_dropWaiter]
    simp only [List.mem_cons]
    tauto

theorem waits_cleanup (skip : String) (waiters : GoMap String (GoSet String))
    (heldMsgs : GoMap String PropagationMsg) (p c : String) :
    Waits (cleanupWaiterEntries child skip waiters heldMsgs) p c ↔
      Waits waiters p c ∧ ¬(c = child ∧ p ≠ skip ∧ p ≠ "" ∧ p ≠ child ∧
        ∃ msg, heldMsgs.lookup child = some msg ∧ p ∈ msg.inputTXIDs) := by
  unfold cleanupWaiterEntries
  cases h : heldMsgs.lookup child with
  | none => simp
  | some msg =>
    rw [waits_dropWaiters]
    simp only [Option.some.injEq, exists_eq_left']
    tauto

/-! ## Release -/

theorem canRelease_eq_some (heldMsgs : GoMap String PropagationMsg) (msg : PropagationMsg) :
    canRelease child inFlight heldMsgs = some msg ↔ heldMsgs.lookup child = some msg ∧
        ∀ p ∈ msg.inputTXIDs, p ≠ "" → p ≠ child → p ∉ inFlight := by
  unfold canRelease
  cases h : heldMsgs.lookup child with
  | none => simp
  | some m =>
    by_cases ha : m.inputTXIDs.any fun p => p ≠ "" ∧ p ≠ child ∧ p ∈ inFlight
    · simp only [ha, ↓reduceIte, reduceCtorEq, Option.some.injEq, false_iff, not_and]
      rintro rfl hn
      obtain ⟨p, hp, hc⟩ := List.any_eq_true.mp ha
      obtain ⟨h₁, h₂, h₃⟩ := of_decide_eq_true hc
      exact hn p hp h₁ h₂ h₃
    · simp only [ha, Bool.false_eq_true, ↓reduceIte, Option.some.injEq, iff_self_and]
      rintro rfl p hp h₁ h₂ h₃
      exact ha (List.any_eq_true.mpr ⟨p, hp, decide_eq_true ⟨h₁, h₂, h₃⟩⟩)

/-- `after` is `before` with the ready members of `children` moved from
`heldMsgs` to `pendingMsgs` in the order visited. -/
structure Released (parent : String) (children : List String)
    (before after : Dispatcher) : Prop where
  inFlight : after.inFlight = before.inFlight
  tracker : after.tracker = before.tracker
  pending : after.pendingMsgs = before.pendingMsgs ++
    children.filterMap fun c => canRelease c before.inFlight before.heldMsgs
  held : ∀ c, after.heldMsgs.lookup c =
    if c ∈ children ∧ (canRelease c before.inFlight before.heldMsgs).isSome then none
    else before.heldMsgs.lookup c
  waits : ∀ p c, Waits after.waiters p c ↔ Waits before.waiters p c ∧
    ¬(c ∈ children ∧ p ≠ parent ∧ p ≠ "" ∧ p ≠ c ∧
      ∃ msg, canRelease c before.inFlight before.heldMsgs = some msg ∧ p ∈ msg.inputTXIDs)

variable (parent : String)

-- The last child visited: it is not among those before it, so it is ready or not as it was at the
-- start.
theorem released_fold (children : List String) (d : Dispatcher) (hn : children.Nodup) :
    Released parent children d (children.foldl (releaseChild parent) d) := by
  induction children using List.reverseRecOn with
  | nil => exact ⟨rfl, rfl, by simp, by simp, by simp⟩
  | append_singleton cs c ih =>
    obtain ⟨hcs, -, hne⟩ := List.nodup_append.mp hn
    have hc : c ∉ cs := fun h => hne c h c (List.mem_singleton_self c) rfl
    have h := ih hcs
    rw [List.foldl_append, List.foldl_cons, List.foldl_nil]
    generalize cs.foldl (releaseChild parent) d = d' at h ⊢
    have hheld : d'.heldMsgs.lookup c = d.heldMsgs.lookup c := by rw [h.held]; simp [hc]
    have hready : canRelease c d'.inFlight d'.heldMsgs = canRelease c d.inFlight d.heldMsgs := by
      rw [h.inFlight, canRelease, canRelease, hheld]
    unfold releaseChild
    rw [hready]
    cases hr : canRelease c d.inFlight d.heldMsgs with
    | none =>
      refine ⟨h.inFlight, h.tracker, by simp [h.pending, hr], fun x => ?_, fun p x => ?_⟩
      · rw [h.held]
        by_cases hx : x = c <;> simp [hx, hc, hr]
      · rw [h.waits]
        by_cases hx : x = c <;> simp [hx, hc, hr]
    | some msg =>
      obtain ⟨hm, -⟩ := (canRelease_eq_some c d.inFlight d.heldMsgs msg).mp hr
      refine ⟨h.inFlight, h.tracker, by simp [h.pending, hr], fun x => ?_, fun p x => ?_⟩
      · rw [GoMap.lookup_erase_eq, h.held]
        by_cases hx : x = c <;> simp [hx, hr]
      · rw [waits_cleanup, h.waits, hheld, hm]
        by_cases hx : x = c
        · simp [hx, hc, hr]
        · simp [hx]

/-- The children that `releaseWaiters` and one round of the cascade visit. -/
def children (d : Dispatcher) (parent : String) : List String :=
  match d.waiters.lookup parent with
  | none => []
  | some set => set.keys

theorem mem_children (parent c : String) : c ∈ d.children parent ↔ Waits d.waiters parent c := by
  unfold children Waits
  cases h : d.waiters.lookup parent with
  | none => simp
  | some set => simp [AList.mem_keys]

theorem children_nodup : (d.children parent).Nodup := by
  unfold children
  cases h : d.waiters.lookup parent with
  | none => exact List.nodup_nil
  | some set => exact set.keys_nodup

theorem released_releaseWaiters (order : MapOrder String) (d : Dispatcher) (parent : String) :
    ∃ visited, visited.Perm (d.children parent) ∧
      Released parent visited { d with waiters := d.waiters.erase parent }
        (releaseWaiters order d parent) := by
  unfold releaseWaiters children
  cases h : d.waiters.lookup parent with
  | none =>
    exact ⟨[], .refl _, rfl, rfl, by simp, by simp, by simp [waits_erase_of_none h]⟩
  | some set =>
    have hp := order.perm parent set.keys
    exact ⟨_, hp, released_fold parent _ _ (hp.nodup_iff.mpr set.keys_nodup)⟩

/-! ## Settling and the cascade -/

variable (txid : String)

@[simp] theorem settle_waiters : (d.settle txid).waiters = d.waiters := rfl

@[simp] theorem settle_heldMsgs : (d.settle txid).heldMsgs = d.heldMsgs := rfl

@[simp] theorem settle_pendingMsgs : (d.settle txid).pendingMsgs = d.pendingMsgs := rfl

@[simp] theorem settle_inFlight : (d.settle txid).inFlight = d.inFlight.erase txid := rfl

@[simp] theorem settle_heap : (d.settle txid).tracker.heap = d.tracker.heap := by
  unfold settle
  cases d.inFlight.lookup txid <;> simp [OffsetTracker.markDone]

theorem mem_settle_done (o : Int) : o ∈ (d.settle txid).tracker.done ↔
      o ∈ d.tracker.done ∨ d.inFlight.lookup txid = some o := by
  unfold settle
  cases d.inFlight.lookup txid with
  | none => simp
  | some offset =>
    simp only [OffsetTracker.markDone, AList.mem_insert, Option.some.injEq]
    tauto

/-- The raw bytes a cascade captures for `child`. -/
def heldRawTx (heldMsgs : GoMap String PropagationMsg) (child : String) : List UInt8 :=
  match heldMsgs.lookup child with
  | none => []
  | some msg => msg.rawTx

/-- `after` is `before` with every member of `children` settled and taken out of
the waiter sets of its other parents. -/
structure Cascaded (parent : String) (children : List String)
    (before after : Dispatcher × List CascadedTx) : Prop where
  pending : after.1.pendingMsgs = before.1.pendingMsgs
  inFlight : ∀ c, after.1.inFlight.lookup c =
    if c ∈ children then none else before.1.inFlight.lookup c
  held : ∀ c, after.1.heldMsgs.lookup c =
    if c ∈ children then none else before.1.heldMsgs.lookup c
  waits : ∀ p c, Waits after.1.waiters p c ↔ Waits before.1.waiters p c ∧
    ¬(c ∈ children ∧ p ≠ parent ∧ p ≠ "" ∧ p ≠ c ∧
      ∃ msg, before.1.heldMsgs.lookup c = some msg ∧ p ∈ msg.inputTXIDs)
  heap : after.1.tracker.heap = before.1.tracker.heap
  done : ∀ o, o ∈ after.1.tracker.done ↔ o ∈ before.1.tracker.done ∨
    ∃ c ∈ children, before.1.inFlight.lookup c = some o
  out : after.2 = before.2 ++ children.map fun c => ⟨c, heldRawTx before.1.heldMsgs c⟩

theorem cascaded_fold (children : List String)
    (s : Dispatcher × List CascadedTx) (hn : children.Nodup) :
    Cascaded parent children s (children.foldl (cascadeChild parent) s) := by
  induction children using List.reverseRecOn with
  | nil => exact ⟨rfl, by simp, by simp, by simp, rfl, by simp, by simp⟩
  | append_singleton cs c ih =>
    obtain ⟨hcs, -, hne⟩ := List.nodup_append.mp hn
    have hc : c ∉ cs := fun h => hne c h c (List.mem_singleton_self c) rfl
    have h := ih hcs
    rw [List.foldl_append, List.foldl_cons, List.foldl_nil]
    generalize cs.foldl (cascadeChild parent) s = s' at h ⊢
    have hheld : s'.1.heldMsgs.lookup c = s.1.heldMsgs.lookup c := by rw [h.held, if_neg hc]
    have hin : s'.1.inFlight.lookup c = s.1.inFlight.lookup c := by rw [h.inFlight, if_neg hc]
    refine ⟨h.pending, fun x => ?_, fun x => ?_, fun p x => ?_, ?_, fun o => ?_, ?_⟩
    · change (s'.1.inFlight.erase c).lookup x = _
      rw [GoMap.lookup_erase_eq, h.inFlight]
      by_cases hx : x = c <;> simp [hx]
    · change (s'.1.heldMsgs.erase c).lookup x = _
      rw [GoMap.lookup_erase_eq, h.held]
      by_cases hx : x = c <;> simp [hx]
    · change Waits (cleanupWaiterEntries c parent s'.1.waiters s'.1.heldMsgs) p x ↔ _
      rw [waits_cleanup, h.waits, hheld]
      by_cases hx : x = c
      · subst hx
        simp [hc]
      · simp [hx]
    · exact (settle_heap _ c).trans h.heap
    · refine (mem_settle_done _ c o).trans ?_
      rw [h.done, hin]
      simp [or_assoc, or_and_right, exists_or]
    · change s'.2 ++ [⟨c, heldRawTx s'.1.heldMsgs c⟩] = _
      rw [h.out, heldRawTx, hheld, ← heldRawTx]
      simp

/-- The rule for the cascade's work list: what one round with its parent's
waiters preserves holds when the queue is empty. -/
theorem cascadeLoop_rule (order : MapOrder String)
    (I : List String → Dispatcher × List CascadedTx → Prop)
    (hround : ∀ parent queue visited s s', I (parent :: queue) s →
      visited.Perm (s.1.children parent) →
      Cascaded parent visited ({ s.1 with waiters := s.1.waiters.erase parent }, s.2) s' →
      I (queue ++ visited) s')
    (queue : List String) (s : Dispatcher × List CascadedTx) (h : I queue s) :
    I [] (cascadeLoop order queue s) := by
  fun_induction cascadeLoop order queue s with
  | case1 s => exact h
  | case2 s parent queue hl ih =>
    apply ih
    have hr := hround parent queue [] s s h (by simp [children, hl])
      ⟨rfl, by simp, by simp, by simp [waits_erase_of_none hl], rfl, by simp, by simp⟩
    simpa using hr
  | case3 s parent queue set hl visited ih =>
    apply ih
    have hp : visited.Perm (s.1.children parent) := by
      rw [children, hl]
      exact order.perm parent set.keys
    exact hround parent queue visited s _ h hp
      (cascaded_fold parent visited _ (hp.nodup_iff.mpr (children_nodup _ _)))

/-- `txid` is one of the descendants a cascade returned. -/
def InCascade (out : List CascadedTx) (txid : String) : Prop := ∃ x ∈ out, x.txid = txid

theorem inCascade_append (out : List CascadedTx) (visited : List String)
    (raw : String → List UInt8) (c : String) :
    InCascade (out ++ visited.map fun x => ⟨x, raw x⟩) c ↔ InCascade out c ∨ c ∈ visited := by
  unfold InCascade
  simp only [List.mem_append, List.mem_map, or_and_right, exists_or]
  apply or_congr_right
  constructor
  · rintro ⟨_, ⟨x, hx, rfl⟩, rfl⟩
    exact hx
  · intro hc
    exact ⟨_, ⟨c, hc, rfl⟩, rfl⟩

/-- What a cascade does to a dispatcher in any state: exactly the returned
transactions leave the in-flight map and the held messages, and exactly their
offsets are marked done. -/
structure CascadeResult (d : Dispatcher) (s : Dispatcher × List CascadedTx) : Prop where
  pending : s.1.pendingMsgs = d.pendingMsgs
  inFlight : ∀ c o, s.1.inFlight.lookup c = some o ↔ d.inFlight.lookup c = some o ∧ ¬InCascade s.2 c
  held : ∀ c m, s.1.heldMsgs.lookup c = some m ↔ d.heldMsgs.lookup c = some m ∧ ¬InCascade s.2 c
  heap : s.1.tracker.heap = d.tracker.heap
  done : ∀ o, o ∈ s.1.tracker.done ↔ o ∈ d.tracker.done ∨
    ∃ c, InCascade s.2 c ∧ d.inFlight.lookup c = some o
  waits : ∀ p c, Waits s.1.waiters p c → Waits d.waiters p c

theorem CascadeResult.round {d : Dispatcher} {s s' : Dispatcher × List CascadedTx}
    {parent : String} {visited : List String} (h : CascadeResult d s)
    (hc : Cascaded parent visited ({ s.1 with waiters := s.1.waiters.erase parent }, s.2) s') :
    CascadeResult d s' := by
  have hin : ∀ c, InCascade s'.2 c ↔ InCascade s.2 c ∨ c ∈ visited := by
    intro c
    rw [hc.out]
    exact inCascade_append _ _ _ c
  refine ⟨hc.pending.trans h.pending, fun c o => ?_, fun c m => ?_, hc.heap.trans h.heap,
    fun o => ?_, fun p c hw => ?_⟩
  · rw [hc.inFlight, hin, not_or, ← and_assoc, ← h.inFlight]
    by_cases hv : c ∈ visited <;> simp [hv]
  · rw [hc.held, hin, not_or, ← and_assoc, ← h.held]
    by_cases hv : c ∈ visited <;> simp [hv]
  · rw [hc.done, h.done, or_assoc]
    apply or_congr_right
    constructor
    · rintro (⟨c, hs, ho⟩ | ⟨c, hv, ho⟩)
      · exact ⟨c, (hin c).mpr (.inl hs), ho⟩
      · exact ⟨c, (hin c).mpr (.inr hv), ((h.inFlight c o).mp ho).1⟩
    · rintro ⟨c, hs, ho⟩
      by_cases hold : InCascade s.2 c
      · exact .inl ⟨c, hold, ho⟩
      · exact .inr ⟨c, ((hin c).mp hs).resolve_left hold, (h.inFlight c o).mpr ⟨ho, hold⟩⟩
  · exact h.waits p c ((waits_erase _ _ _ _).mp ((hc.waits p c).mp hw).1).2

theorem cascadeReject_result (order : MapOrder String) (d : Dispatcher) (rejected : String) :
    CascadeResult d (cascadeReject order d rejected) := by
  apply cascadeLoop_rule order (fun _ s => CascadeResult d s)
  · intro parent queue visited s s' h _ hc
    exact h.round hc
  · refine ⟨rfl, fun c o => ?_, fun c m => ?_, rfl, fun o => ?_, fun _ _ h => h⟩ <;>
      simp [InCascade]

end Dispatcher

end Arcade.Propagation
