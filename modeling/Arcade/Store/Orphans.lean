import Arcade.Lib.Transition
import Arcade.Store.Blocks

/-!
Interleavings of the block_processing writers. Every writer is atomic for one
row; `MarkBlocksOrphaned` takes its rows one after another, so other writers run
between them. The generations that the orphan writes of a row store only grow,
which is what makes the generation a token for the compare-and-set writers.
-/

namespace Arcade.Store

open Lib List

/-! ## The writers of one row -/

inductive BlockWrite where
  | headerSeen (hash : String) (blockHeight : Nat) (seenAt : Int64)
  | processed (hash : String) (blockHeight : Nat) (processedAt : Int64)
  | clearProcessed (hash : String)
  | bumpBuilt (hash : String) (blockHeight : Nat) (builtAt : Int64)
  | parked (hash : String)
  | reconciled (hash : String) (token : Option Int64) (at_ : Int64)
  | requeue (hash : String) (token : Option Int64)
  | reactivate (hash : String) (blockHeight : Nat) (token : Option Int64)

namespace BlockWrite

def hash : BlockWrite → String
  | headerSeen h _ _ | processed h _ _ | clearProcessed h | bumpBuilt h _ _ | parked h
  | reconciled h _ _ | requeue h _ | reactivate h _ _ => h

/-- The token of a generation-checked writer. -/
def token : BlockWrite → Option Int64
  | reconciled _ t _ | requeue _ t | reactivate _ _ t => t
  | _ => none

/-- The row that the write leaves, if it writes one. -/
def onRow : BlockWrite → Option BlockRow → Option BlockRow
  | headerSeen _ height at_, prev => some (upsertBlockHeaderSeen height at_ prev)
  | processed _ height at_, prev => some (markBlockProcessed height at_ prev)
  | clearProcessed _, prev => prev.map clearBlockProcessed
  | bumpBuilt _ height at_, prev => some (markBlockBUMPBuilt height at_ prev)
  | parked _, prev => prev.map markBlockParked
  | reconciled _ t at_, prev => prev.bind (markBlockReconciled t at_)
  | requeue _ t, prev => prev.bind (requeueOrphanedBlock t)
  | reactivate _ height t, prev => prev.bind (reactivateBlock height t)

end BlockWrite

/-! ## Runs -/

/-- A `MarkBlocksOrphaned` call under way. -/
structure MarkCall where
  todo : List String
  gen : Int64
  transitions : Nat

/-- The table, the `MarkBlocksOrphaned` calls under way and the counts that
finished calls returned. -/
structure OrphanTable where
  blocks : Blocks
  calls : GoMap Nat MarkCall
  returned : List Nat

inductive OrphanEvent where
  | write (w : BlockWrite)
  | begin (id : Nat) (hashes : List String) (orphanedAt : Int64)
  /-- The call takes its next hash. -/
  | markNext (id : Nat)
  /-- The call returns: at the end of its list, or before that with an error. -/
  | finish (id : Nat)

def writeRow (blocks : Blocks) (hash : String) : Option BlockRow → Blocks
  | none => blocks
  | some row => blocks.insert hash row

namespace OrphanTable

def step (s : OrphanTable) : OrphanEvent → OrphanTable
  | .write w => { s with blocks := writeRow s.blocks w.hash (w.onRow (s.blocks.lookup w.hash)) }
  | .begin id hashes orphanedAt =>
    if id ∈ s.calls then s else { s with calls := s.calls.insert id ⟨hashes, orphanedAt, 0⟩ }
  | .markNext id =>
    match s.calls.lookup id with
    | some ⟨hash :: todo, gen, transitions⟩ =>
      let marked := markRow gen (s.blocks, transitions) hash
      { s with blocks := marked.1, calls := s.calls.insert id ⟨todo, gen, marked.2⟩ }
    | _ => s
  | .finish id =>
    match s.calls.lookup id with
    | some call =>
      { s with calls := s.calls.erase id, returned := call.transitions :: s.returned }
    | none => s

/-- The row and the generation of the orphan write that `e` is, if it is one. -/
def orphanWrite (s : OrphanTable) : OrphanEvent → Option (String × Int64)
  | .markNext id =>
    (s.calls.lookup id).bind fun call => call.todo.head?.bind fun hash =>
        (s.blocks.lookup hash).bind fun prev =>
          (markOrphaned call.gen prev).map fun row => (hash, row.orphanedAt)
  | _ => none

end OrphanTable

open OrphanTable

/-- The time that the event gives `bump_built_at`. -/
def OrphanEvent.builtAt : OrphanEvent → Option Int64
  | .write (.bumpBuilt _ _ at_) => some at_
  | _ => none

/-- An orphan write finds a generation below the largest `int64`, and
`bump_built_at` is not set to the instant that reads as unset. -/
def TimesFit (s : OrphanTable) (e : OrphanEvent) : Prop :=
  (∀ w ∈ s.orphanWrite e, ∀ prev ∈ s.blocks.lookup w.1, prev.orphanedAt ≠ Int64.maxValue) ∧
    ∀ at_ ∈ e.builtAt, at_ ≠ 0

instance (s : OrphanTable) (e : OrphanEvent) : Decidable (TimesFit s e) :=
  -- ask the option, not all timestamps
  have : Decidable (∀ at_ ∈ e.builtAt, at_ ≠ 0) := Option.decidableForallMem e.builtAt
  inferInstanceAs (Decidable (_ ∧ _))

/-- The rows that were there with another status before and are orphaned after. -/
def orphanings (before after : Blocks) : Nat :=
  (after.keys.filter fun hash => (before.lookup hash).any (fun row => row.status ≠ .orphaned) &&
      (after.lookup hash).any (fun row => row.status = .orphaned)).length

/-- How many times, over the run, a row became orphaned. -/
def totalOrphanings (s : OrphanTable) : List OrphanEvent → Nat
  | [] => 0
  | e :: es => orphanings s.blocks (s.step e).blocks + totalOrphanings (s.step e) es

/-! ## One step -/

/-- What a step does to the row of one block. -/
structure RowStep (s : OrphanTable) (e : OrphanEvent) (hash : String) (prev row : BlockRow) :
    Prop where
  /-- Only an orphan write moves the generation, and it stores a later one. -/
  generation : (s.orphanWrite e = some (hash, row.orphanedAt) ∧ prev.orphanedAt < row.orphanedAt) ∨
      ((∀ g, s.orphanWrite e ≠ some (hash, g)) ∧ row.orphanedAt = prev.orphanedAt)
  headerSeen : prev.headerSeen ≠ 0 → row.headerSeen ≠ 0
  bumpBuilt : prev.bumpBuilt ≠ 0 → row.bumpBuilt ≠ 0

variable (blocks : Blocks) {prev row : BlockRow} {w : BlockWrite} {hash : String} {s : OrphanTable}
  {e : OrphanEvent} {g : Int64} {es : List OrphanEvent}

theorem lookup_writeRow (hash hash' : String) (row : Option BlockRow) :
    (writeRow blocks hash row).lookup hash' =
      if hash' = hash then row.or (blocks.lookup hash) else blocks.lookup hash' := by
  cases row with
  | none =>
    by_cases h : hash' = hash
    · subst h
      simp [writeRow]
    · simp [writeRow, h]
  | some r => simp [writeRow, GoMap.lookup_insert_eq]

theorem onRow_keeps (hat : ∀ hash height at_, w = .bumpBuilt hash height at_ → at_ ≠ 0)
    (h : w.onRow (some prev) = some row) :
    row.orphanedAt = prev.orphanedAt ∧ (prev.headerSeen ≠ 0 → row.headerSeen ≠ 0) ∧
      (prev.bumpBuilt ≠ 0 → row.bumpBuilt ≠ 0) := by
  cases w with
  | headerSeen hash height at_ =>
    cases h
    refine ⟨rfl, ?_, fun hb => hb⟩
    intro hs
    simp [upsertBlockHeaderSeen, hs]
  | processed | clearProcessed =>
    cases h
    exact ⟨rfl, fun hs => hs, fun hb => hb⟩
  | bumpBuilt hash height at_ =>
    cases h
    exact ⟨rfl, fun hs => hs, fun _ => hat hash height at_ rfl⟩
  | parked hash =>
    cases h
    unfold markBlockParked
    split
    · exact ⟨rfl, fun hs => hs, fun hb => hb⟩
    · exact ⟨rfl, fun hs => hs, fun hb => hb⟩
  | reconciled | requeue | reactivate =>
    simp only [BlockWrite.onRow, Option.bind_some] at h
    obtain ⟨-, -, rfl⟩ := casOrphan_eq_some.mp h
    exact ⟨rfl, fun hs => hs, fun hb => hb⟩

theorem markRow_fst (gen : Int64) (acc : Blocks × Nat) (hash : String) : (markRow gen acc hash).1 =
      writeRow acc.1 hash ((acc.1.lookup hash).bind (markOrphaned gen)) := by
  unfold markRow
  cases acc.1.lookup hash with
  | none => rfl
  | some prev => cases hm : markOrphaned gen prev <;> simp [hm, writeRow]

theorem lookup_markRow (gen : Int64) (acc : Blocks × Nat) (hash hash' : String) :
    (markRow gen acc hash).1.lookup hash' =
      if hash' = hash then (acc.1.lookup hash).bind fun prev => (markOrphaned gen prev).or (some prev)
      else acc.1.lookup hash' := by
  rw [markRow_fst, lookup_writeRow]
  cases acc.1.lookup hash <;> rfl

theorem rowStep_of_writeRow {written : String} {out : Option BlockRow}
    (hb : (s.step e).blocks = writeRow s.blocks written out)
    (hw : ∀ h g, s.orphanWrite e = some (h, g) → h = written ∧ out ≠ none)
    (hrow : ∀ prev row, s.blocks.lookup written = some prev → out = some row →
      RowStep s e written prev row) (hp : s.blocks.lookup hash = some prev) :
    ∃ row, (s.step e).blocks.lookup hash = some row ∧ RowStep s e hash prev row := by
  have hkeep : (∀ g, s.orphanWrite e ≠ some (hash, g)) → RowStep s e hash prev prev :=
    fun hno => ⟨.inr ⟨hno, rfl⟩, id, id⟩
  rw [hb, lookup_writeRow]
  split
  · rename_i heq
    subst heq
    cases out with
    | none => exact ⟨prev, hp, hkeep fun g h => (hw hash g h).2 rfl⟩
    | some row => exact ⟨row, rfl, hrow prev row hp rfl⟩
  · rename_i hne
    exact ⟨prev, hp, hkeep fun g h => hne (hw hash g h).1⟩

theorem step_markNext_of_cons {id : Nat} {next : String} {todo : List String} {gen : Int64}
    {n : Nat} (hc : s.calls.lookup id = some ⟨next :: todo, gen, n⟩)
    (hfit : TimesFit s (.markNext id)) (hp : s.blocks.lookup hash = some prev) :
    ∃ row, (s.step (.markNext id)).blocks.lookup hash = some row ∧
      RowStep s (.markNext id) hash prev row := by
  have hw : s.orphanWrite (.markNext id) = ((s.blocks.lookup next).bind (markOrphaned gen)).map
      fun row => (next, row.orphanedAt) := by
    simp [orphanWrite, hc, Option.map_bind]
  have hb : (s.step (.markNext id)).blocks = (markRow gen (s.blocks, n) next).1 := by
    simp [step, hc]
  refine rowStep_of_writeRow (hb.trans (markRow_fst _ _ _)) ?_ ?_ hp
  · intro h g horphan
    rw [hw] at horphan
    obtain ⟨row, hrow, heq⟩ := Option.map_eq_some_iff.mp horphan
    exact ⟨(Prod.mk.inj heq).1.symm, by simp [hrow]⟩
  · intro prev row hp hm
    rw [hm] at hw
    rw [hp, Option.bind_some] at hm
    have hlt : prev.orphanedAt < row.orphanedAt := by
      rw [markOrphaned_orphanedAt hm]
      exact lt_mintOrphanGeneration gen (hfit.1 _ hw prev hp)
    have hrow : row.headerSeen = prev.headerSeen ∧ row.bumpBuilt = prev.bumpBuilt := by
      unfold markOrphaned at hm
      split at hm
      · cases hm
      · cases hm
        exact ⟨rfl, rfl⟩
    exact ⟨.inl ⟨hw, hlt⟩, fun h => hrow.1 ▸ h, fun h => hrow.2 ▸ h⟩

theorem step_row (hfit : TimesFit s e) (hp : s.blocks.lookup hash = some prev) :
    ∃ row, (s.step e).blocks.lookup hash = some row ∧ RowStep s e hash prev row := by
  have hsame : s.orphanWrite e = none → (s.step e).blocks = s.blocks →
      ∃ row, (s.step e).blocks.lookup hash = some row ∧ RowStep s e hash prev row := by
    intro hw hb
    exact ⟨prev, by rw [hb, hp], .inr ⟨by simp [hw], rfl⟩, id, id⟩
  cases e with
  | write w =>
    refine rowStep_of_writeRow rfl (fun h g horphan => by cases horphan) (fun prev row hp hr => ?_) hp
    rw [hp] at hr
    obtain ⟨hg, hs, hb⟩ := onRow_keeps (by rintro h height at_ rfl; exact hfit.2 at_ rfl) hr
    exact ⟨.inr ⟨by simp [orphanWrite], hg⟩, hs, hb⟩
  | begin id hashes orphanedAt =>
    refine hsame rfl ?_
    simp only [step]
    split <;> rfl
  | finish id =>
    refine hsame rfl ?_
    simp only [step]
    split <;> rfl
  | markNext id =>
    cases hc : s.calls.lookup id with
    | none => exact hsame (by simp [orphanWrite, hc]) (by simp [step, hc])
    | some call =>
      obtain ⟨todo, gen, n⟩ := call
      cases todo with
      | nil => exact hsame (by simp [orphanWrite, hc]) (by simp [step, hc])
      | cons next todo => exact step_markNext_of_cons hc hfit hp

/-! ## Whole runs -/

/-- The row of `hash` has had a generation of at least `g`. -/
def Reached (hash : String) (g : Int64) (s : OrphanTable) : Prop :=
  ∃ row, s.blocks.lookup hash = some row ∧ g ≤ row.orphanedAt

theorem reached_step (h : Reached hash g s) (hfit : TimesFit s e) : Reached hash g (s.step e) := by
  obtain ⟨prev, hp, hg⟩ := h
  obtain ⟨row, hr, hrow⟩ := step_row hfit hp
  refine ⟨row, hr, ?_⟩
  rcases hrow.generation with ⟨-, hlt⟩ | ⟨-, heq⟩
  · exact Int64.le_trans hg (Int64.le_of_lt hlt)
  · rw [heq]
    exact hg

theorem reached_orphanWrite (hfit : TimesFit s e) (hw : s.orphanWrite e = some (hash, g)) :
    ∃ prev, s.blocks.lookup hash = some prev ∧ prev.orphanedAt < g ∧ Reached hash g (s.step e) := by
  have hrow : ∃ prev, s.blocks.lookup hash = some prev := by
    cases e with
    | markNext id =>
      simp only [orphanWrite, Option.bind_eq_some_iff, Option.map_eq_some_iff] at hw
      obtain ⟨call, -, h, -, prev, hp, row, -, heq⟩ := hw
      cases heq
      exact ⟨prev, hp⟩
    | write w => cases hw
    | begin id hashes at_ => cases hw
    | finish id => cases hw
  obtain ⟨prev, hp⟩ := hrow
  obtain ⟨row, hr, hstep⟩ := step_row hfit hp
  rcases hstep.generation with ⟨hg, hlt⟩ | ⟨hno, -⟩
  · obtain rfl : row.orphanedAt = g := by simpa [hw] using hg.symm
    exact ⟨prev, hp, hlt, row, hr, Int64.le_refl _⟩
  · exact absurd hw (hno g)

theorem reached_run (h : Reached hash g s) (hfit : AllSteps step TimesFit s es) :
    Reached hash g (run step s es) :=
  run_invariant (fun _ _ hr hf => reached_step hr hf) h hfit

/-- Successive orphan writes of a row store growing generations, whatever runs between them. -/
theorem orphanWrites_increase {e₁ e₂ : OrphanEvent}
    (hfit : AllSteps step TimesFit s (e₁ :: es ++ [e₂])) {g₁ g₂ : Int64}
    (h₁ : s.orphanWrite e₁ = some (hash, g₁))
    (h₂ : (run step s (e₁ :: es)).orphanWrite e₂ = some (hash, g₂)) : g₁ < g₂ := by
  obtain ⟨-, -, -, hreach⟩ := reached_orphanWrite hfit.1 h₁
  obtain ⟨prev, hp, hle⟩ := reached_run hreach hfit.append_left.2
  obtain ⟨prev', hp', hlt, -⟩ := reached_orphanWrite hfit.append_right.1 h₂
  obtain rfl : prev = prev' := by
    exact Option.mem_unique hp hp'
  exact Int64.lt_of_le_of_lt hle hlt

theorem onRow_of_token (ht : w.token = some g) :
    ∃ write, ∀ prev, w.onRow (some prev) = casOrphan (some g) write prev := by
  cases w with
  | reconciled | requeue | reactivate =>
    cases ht
    exact ⟨_, fun prev => rfl⟩
  | headerSeen | processed | clearProcessed | bumpBuilt | parked => cases ht

theorem onRow_token (ht : w.token = some g) (h : w.onRow (some prev) = some row) :
    prev.status = .orphaned ∧ prev.orphanedAt = g := by
  obtain ⟨write, hcas⟩ := onRow_of_token ht
  obtain ⟨hs, hg, -⟩ := casOrphan_eq_some.mp ((hcas prev).symm.trans h)
  exact ⟨hs, hg g rfl⟩

section

variable (hfit : AllSteps step TimesFit s es) (hr : s.blocks.lookup hash = some row)
include hfit hr

/-- Between the read of a token and the write it lets through, no orphan write landed. -/
theorem token_current (hg : row.orphanedAt = g) {row' : BlockRow}
    (hr' : (run step s es).blocks.lookup hash = some row') (hg' : row'.orphanedAt = g)
    {es₁ es₂ : List OrphanEvent} (hes : es = es₁ ++ e :: es₂) (g' : Int64) :
    (run step s es₁).orphanWrite e ≠ some (hash, g') := by
  intro hw
  subst hes
  have hreach : Reached hash g (run step s es₁) :=
    reached_run ⟨row, hr, hg ▸ Int64.le_refl _⟩ hfit.append_left
  obtain ⟨prev, hp, hlt, hafter⟩ := reached_orphanWrite hfit.append_right.1 hw
  obtain ⟨prev', hp', hle⟩ := hreach
  obtain rfl : prev' = prev := Option.mem_unique hp' hp
  obtain ⟨last, hl, hge⟩ := reached_run hafter hfit.append_right.2
  rw [run_append, run_cons, hl] at hr'
  cases hr'
  rw [hg'] at hge
  exact Int64.lt_irrefl (Int64.lt_of_lt_of_le (Int64.lt_of_le_of_lt hle hlt) hge)

theorem milestones_stay : ∃ row', (run step s es).blocks.lookup hash = some row' ∧
      (row.headerSeen ≠ 0 → row'.headerSeen ≠ 0) ∧ (row.bumpBuilt ≠ 0 → row'.bumpBuilt ≠ 0) := by
  induction es generalizing s row with
  | nil => exact ⟨row, hr, fun h => h, fun h => h⟩
  | cons e es ih =>
    obtain ⟨next, hn, hstep⟩ := step_row hfit.1 hr
    obtain ⟨row', hr', hs, hb⟩ := ih hfit.2 hn
    exact ⟨row', hr', fun h => hs (hstep.headerSeen h), fun h => hb (hstep.bumpBuilt h)⟩

end

/-! ## The counts -/

/-- The transitions counted so far: returned ones and those of calls under way. -/
def counted (s : OrphanTable) : Nat := s.returned.sum + GoMap.weight MarkCall.transitions s.calls

theorem orphanings_writeRow (hash : String) (out : Option BlockRow) :
    orphanings blocks (writeRow blocks hash out) =
      if (blocks.lookup hash).any (fun row => row.status ≠ .orphaned) &&
        out.any (fun row => row.status = .orphaned) then 1 else 0 := by
  unfold orphanings
  set p : String → Bool := fun h => (blocks.lookup h).any (fun row => row.status ≠ .orphaned) &&
    ((writeRow blocks hash out).lookup h).any (fun row => row.status = .orphaned) with hp
  have hself : p hash = ((blocks.lookup hash).any (fun row => row.status ≠ .orphaned) &&
      out.any fun row => row.status = .orphaned) := by
    simp only [hp, lookup_writeRow]
    cases out with
    | some row => rfl
    | none => cases blocks.lookup hash <;> simp
  have hother : ∀ h, p h = (p hash && h == hash) := by
    intro h
    by_cases heq : h = hash
    · simp [heq]
    · simp only [hp, lookup_writeRow, heq, beq_eq_false_iff_ne.mpr heq, Bool.and_false]
      cases blocks.lookup h <;> simp
  rw [← hself, funext hother]
  cases hph : p hash with
  | false => simp
  | true =>
    have hmem : hash ∈ (writeRow blocks hash out).keys := by
      rw [← AList.mem_keys, GoMap.mem_iff_lookup]
      simp only [hp, Bool.and_eq_true, Option.any_eq_true] at hph
      exact hph.2.imp fun row h => h.1
    have hcount := count_eq_one_of_mem (writeRow blocks hash out).keys_nodup hmem
    rw [count_eq_length_filter] at hcount
    simpa using hcount

theorem orphanings_self : orphanings blocks blocks = 0 := by
  have h := orphanings_writeRow blocks "" none
  simpa [writeRow] using h

theorem onRow_orphaned {prev : Option BlockRow} (h : w.onRow prev = some row)
    (ho : row.status = .orphaned) :
    ∃ p, prev = some p ∧ p.status = .orphaned := by
  cases prev with
  | none => cases w <;> cases h <;> cases ho
  | some p =>
    refine ⟨p, rfl, ?_⟩
    cases w with
    | headerSeen hash height at_ =>
      cases h
      cases ho
    | processed | clearProcessed | bumpBuilt =>
      cases h
      exact ho
    | parked hash =>
      cases h
      unfold markBlockParked at ho
      split at ho
      · cases ho
      · exact ho
    | reconciled | requeue | reactivate =>
      simp only [BlockWrite.onRow, Option.bind_some] at h
      exact (casOrphan_eq_some.mp h).1

theorem orphanings_write (w : BlockWrite) :
    orphanings blocks (writeRow blocks w.hash (w.onRow (blocks.lookup w.hash))) = 0 := by
  rw [orphanings_writeRow, if_neg]
  simp only [Bool.and_eq_true, Option.any_eq_true, decide_eq_true_eq]
  rintro ⟨⟨prev, hprev, hne⟩, row, hrow, ho⟩
  obtain ⟨p, hp, hs⟩ := onRow_orphaned hrow ho
  exact hne (Option.mem_unique hp hprev ▸ hs)

theorem orphanings_markRow (gen : Int64) (blocks : Blocks) (n : Nat) (hash : String) :
    (markRow gen (blocks, n) hash).2 = n + orphanings blocks (markRow gen (blocks, n) hash).1 := by
  rw [markRow_fst, orphanings_writeRow]
  unfold markRow
  cases hl : blocks.lookup hash with
  | none => simp
  | some prev =>
    cases hm : markOrphaned gen prev with
    | none => simp [hm]
    | some row =>
      have ho := (markOrphaned_queued hm).1
      cases hs : prev.status <;> simp [hm, hs, ho]

theorem counted_step (s : OrphanTable) (e : OrphanEvent) :
    counted (s.step e) = counted s + orphanings s.blocks (s.step e).blocks := by
  cases e with
  | write w =>
    have h := orphanings_write s.blocks w
    simp only [step, counted] at h ⊢
    omega
  | begin id hashes at_ =>
    simp only [step]
    split
    · rw [orphanings_self, Nat.add_zero]
    · rename_i hid
      simp only [counted, orphanings_self, GoMap.weight_insert_new MarkCall.transitions hid]
      omega
  | finish id =>
    simp only [step]
    cases hc : s.calls.lookup id with
    | none =>
      simp only [orphanings_self]
      omega
    | some call =>
      have hw := GoMap.weight_erase MarkCall.transitions s.calls hc
      simp only [counted, orphanings_self, sum_cons]
      omega
  | markNext id =>
    cases hc : s.calls.lookup id with
    | none => simp [step, hc, orphanings_self]
    | some call =>
      obtain ⟨todo, gen, n⟩ := call
      cases todo with
      | nil => simp [step, hc, orphanings_self]
      | cons hash todo =>
        have hw := GoMap.weight_erase MarkCall.transitions s.calls hc
        have hi := GoMap.weight_insert MarkCall.transitions s.calls id
          ⟨todo, gen, (markRow gen (s.blocks, n) hash).2⟩
        have hm := orphanings_markRow gen s.blocks n hash
        simp only [step, hc, counted]
        simp only at hw hi
        omega

theorem counted_run (s : OrphanTable) (es : List OrphanEvent) :
    counted (run step s es) = counted s + totalOrphanings s es := by
  induction es generalizing s with
  | nil => rfl
  | cons e es ih =>
    rw [run_cons, ih, counted_step, totalOrphanings]
    omega

/-! ## The compare-and-set is sound -/

/-- What the generations give, over the run `es` from `s`. -/
structure GenerationsSound (s : OrphanTable) (es : List OrphanEvent) : Prop where
  /-- Successive orphan writes of a row store growing generations. -/
  increase : ∀ es₁ e₁ es₂ e₂ es₃, es = es₁ ++ (e₁ :: es₂ ++ e₂ :: es₃) → ∀ hash g₁ g₂,
    (run step s es₁).orphanWrite e₁ = some (hash, g₁) →
      (run step s (es₁ ++ e₁ :: es₂)).orphanWrite e₂ = some (hash, g₂) → g₁ < g₂
  /-- A generation-checked write with the token `g` that was read after `es₁`
  applies only to an orphaned row that no orphan write reached since. -/
  tokens : ∀ es₁ es₂ w es₃, es = es₁ ++ (es₂ ++ .write w :: es₃) → ∀ row g,
    (run step s es₁).blocks.lookup w.hash = some row → row.orphanGeneration = some g →
      w.token = some g → w.onRow ((run step s (es₁ ++ es₂)).blocks.lookup w.hash) ≠ none →
          (∃ row', (run step s (es₁ ++ es₂)).blocks.lookup w.hash = some row' ∧
            row'.status = .orphaned) ∧
          ∀ es₂₁ e es₂₂, es₂ = es₂₁ ++ e :: es₂₂ → ∀ g',
            (run step s (es₁ ++ es₂₁)).orphanWrite e ≠ some (w.hash, g')
  /-- `header_seen_at` and `bump_built_at` are not cleared. -/
  milestones : ∀ es₁ es₂ es₃, es = es₁ ++ (es₂ ++ es₃) → ∀ hash row,
    (run step s es₁).blocks.lookup hash = some row →
      ∃ row', (run step s (es₁ ++ es₂)).blocks.lookup hash = some row' ∧
        (row.headerSeen ≠ 0 → row'.headerSeen ≠ 0) ∧ (row.bumpBuilt ≠ 0 → row'.bumpBuilt ≠ 0)
  /-- Once every call has returned, the counts add up to the orphanings. -/
  counts : (run step s es).calls = ∅ → (run step s es).returned.sum = totalOrphanings s es

/-- Every interleaving of the writers from any table, with no call under way at first. -/
theorem generations_sound (blocks : Blocks) (es : List OrphanEvent)
    (hfit : AllSteps step TimesFit ⟨blocks, ∅, []⟩ es) :
    GenerationsSound ⟨blocks, ∅, []⟩ es where
  increase := by
    rintro es₁ e₁ es₂ e₂ es₃ rfl hash g₁ g₂ h₁ h₂
    rw [run_append] at h₂
    have hseg : AllSteps step TimesFit (run step ⟨blocks, ∅, []⟩ es₁) (e₁ :: es₂ ++ [e₂]) := by
      have h := hfit.append_right
      rw [show e₁ :: es₂ ++ e₂ :: es₃ = (e₁ :: es₂ ++ [e₂]) ++ es₃ by simp] at h
      exact h.append_left
    exact orphanWrites_increase hseg h₁ h₂
  tokens := by
    rintro es₁ es₂ w es₃ rfl row g hr hg ht happ
    have hseg := hfit.append_right.append_left
    obtain ⟨hnz, -, hg⟩ : row.orphanedAt ≠ 0 ∧ row.status = .orphaned ∧ row.orphanedAt = g := by
      simp only [BlockRow.orphanGeneration] at hg
      split at hg
      · rename_i h
        exact ⟨h.1, h.2, Option.some.inj hg⟩
      · cases hg
    obtain ⟨row', hr', -⟩ := milestones_stay hseg hr
    rw [← run_append] at hr'
    rw [hr'] at happ
    obtain ⟨out, hout⟩ := Option.ne_none_iff_exists'.mp happ
    obtain ⟨hs, hg'⟩ := onRow_token ht hout
    refine ⟨⟨row', hr', hs⟩, ?_⟩
    intro es₂₁ e es₂₂ hes g'
    rw [run_append] at hr' ⊢
    exact token_current hseg hr hg hr' hg' hes g'
  milestones := by
    rintro es₁ es₂ es₃ rfl hash row hr
    rw [run_append]
    exact milestones_stay hfit.append_right.append_left hr
  counts := by
    intro hcalls
    have h := counted_run ⟨blocks, ∅, []⟩ es
    simpa [counted, hcalls, GoMap.weight] using h

/-- A row that was never orphaned, of a block whose header was seen. -/
def seenRow : BlockRow where
  blockHeight := 7
  headerSeen := 1
  processed := 0
  bumpBuilt := 0
  status := .active
  orphanedAt := 0
  reconciledAt := 0

/-- Orphan a block, reactivate it, orphan it again with the same timestamp. -/
def orphanedTwice (at_ : Int64) : List OrphanEvent :=
  [.begin 0 ["b"] at_, .markNext 0, .finish 0, .write (.reactivate "b" 7 (some at_)),
    .begin 1 ["b"] at_, .markNext 1, .finish 1]

theorem generations_sound_orphanedTwice :
    AllSteps step TimesFit ⟨AList.singleton "b" seenRow, ∅, []⟩ (orphanedTwice 5) ∧
      GenerationsSound ⟨AList.singleton "b" seenRow, ∅, []⟩ (orphanedTwice 5) :=
  ⟨by decide +kernel, generations_sound _ _ (by decide +kernel)⟩

/-- The BUMP of a block is built twice, the second time at the epoch. -/
def builtAtEpoch : List OrphanEvent := [.write (.bumpBuilt "b" 7 5), .write (.bumpBuilt "b" 7 0)]

/-- At the largest timestamp the minted generation wraps round, and the epoch reads as unset. -/
theorem excludedTimes_unsound :
    ¬ GenerationsSound ⟨AList.singleton "b" seenRow, ∅, []⟩ (orphanedTwice Int64.maxValue) ∧
      ¬ GenerationsSound ⟨AList.singleton "b" seenRow, ∅, []⟩ builtAtEpoch := by
  constructor
  · intro h
    have hlt := h.increase [.begin 0 ["b"] Int64.maxValue] (.markNext 0)
      [.finish 0, .write (.reactivate "b" 7 (some Int64.maxValue)),
        .begin 1 ["b"] Int64.maxValue] (.markNext 1) [.finish 1] rfl "b" Int64.maxValue
      Int64.minValue (by decide +kernel) (by decide +kernel)
    exact absurd hlt (by decide)
  · intro h
    obtain ⟨row', hrow', -, hbuilt⟩ := h.milestones [.write (.bumpBuilt "b" 7 5)]
      [.write (.bumpBuilt "b" 7 0)] [] rfl "b" { seenRow with bumpBuilt := 5 } (by decide +kernel)
    have hunset : row' = seenRow :=
      Option.some.inj (hrow'.symm.trans (by decide +kernel : _ = some seenRow))
    exact hbuilt (by decide) (by rw [hunset]; rfl)

end Arcade.Store
