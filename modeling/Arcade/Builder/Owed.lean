import Arcade.Builder.Block
import Arcade.Bump.Reference

/-!
A block that is owed a STUMP. A delivery that finds an announced subtree without
a STUMP defers the block and leaves its expected-subtree set in the store, where
`widenExpectedSubtrees` picks it up for the next delivery. Here the store answers
every call and the anchor guard allows the block.
-/

namespace Arcade.Builder

open Lib List
open Bump (Sdk Stump)
open Store (Program Call Tables Oracle Effect)

variable {H Data ρ : Type}

/-- The store does not fail, the clock runs and the guard knows no other block. -/
def Succeeds (b : String) {ρ : Type} (_ : World Data) (c : Call H Data ρ)
    (o : Oracle H Data) : Prop :=
  (Effect.published ∉ c.effects → o.fault = none) ∧
    (∀ active, o.header = .ok (some active) → active = b) ∧ o.now ≠ 0

abbrev succeedingEnv (H Data : Type) (b : String) :
    Env (Call H Data) (Oracle H Data) (World Data) :=
  builderEnv (Succeeds b)

/-! ## Rows do not vanish -/

section Rows

variable {s : Tables Data} {b : String}

theorem rowWrite_ne_none {o : Oracle H Data} {row : Option Store.BlockRow} (c : Call H Data ρ)
    (h : row ≠ none) : c.rowWrite o b row ≠ none := by
  cases c with
  | markBlockProcessed | clearBlockProcessed | markBlockBUMPBuilt | markBlocksOrphaned
  | markBlockReconciled | requeueOrphanedBlock | reactivateBlock =>
    simp only [Call.rowWrite]
    split <;> simp [h]
  | _ => exact h

theorem exec_row {o : Oracle H Data} {c : Call H Data ρ}
    (h : (s.exec o c).2.blocks.lookup b = none) : s.blocks.lookup b = none := by
  by_contra hne
  exact Tables.exec_lookup (P := (· ≠ none)) hne (fun _ hr => rowWrite_ne_none c hr) h

/-- The expected-subtree set is kept with the row. -/
def RowHolds (b : String) (w : World Data) : Prop :=
  w.store.blocks.lookup b = none → w.store.expectedOf b = []

theorem RowHolds.exec {w : World Data} (h : RowHolds b w) (o : Oracle H Data)
    (c : Call H Data ρ) : RowHolds b (w.exec o c).2 := by
  intro hnone
  have hold := h (exec_row hnone)
  have hrow : w.store.blocks.lookup b = none := exec_row hnone
  change (w.store.exec o c).2.expectedOf b = []
  by_cases hw : Effect.expected ∈ c.effects
  · cases c with
    | addBlockExpectedSubtrees hash indices =>
      simp only [Tables.exec]
      split
      · rwa [Tables.read_state]
      · rename_i hc
        have hne : b ≠ hash := by
          rintro rfl
          exact hc (.inr hrow)
        rcases w.store.write_state o.fault () _ with heq | heq <;> rw [heq]
        · exact hold
        · simpa [Tables.expectedOf, GoMap.lookup_insert_eq, hne] using hold
    | clearBlockExpectedSubtrees hash =>
      simp only [Tables.exec]
      rcases w.store.write_state o.fault () _ with heq | heq <;> rw [heq]
      · exact hold
      · simp only [Tables.expectedOf, GoMap.lookup_erase_eq]
        split
        · rfl
        · exact hold
    | _ => simp [Call.effects] at hw
  · rw [Tables.expectedOf, (w.store.exec_agrees o c).expected hw]
    exact hold

end Rows

/-! ## A deferral -/

section Deferral

variable {b : String} {expected : List Nat} {s : Tables Data}

/-- The tables with the expected set retained. -/
def retained (b : String) (expected : List Nat) (s : Tables Data) : Tables Data :=
  if expected = [] ∨ s.blocks.lookup b = none then s
  else { s with
    expected := s.expected.insert b (Store.sortCompact (s.expectedOf b ++ expected)) }

/-- The tables with the stamp taken off. -/
def unstamped (b : String) (s : Tables Data) : Tables Data :=
  match s.blocks.lookup b with
  | none => s
  | some row =>
    if row.processed = 0 then s
    else { s with blocks := s.blocks.insert b (Store.clearBlockProcessed row) }

/-- What `deferIncompleteBlock` makes of the tables. -/
def deferred (b : String) (expected : List Nat) (s : Tables Data) : Tables Data :=
  unstamped b (retained b expected s)

theorem retained_blocks : (retained b expected s).blocks = s.blocks := by
  unfold retained
  split <;> rfl

theorem unstamped_agrees : Tables.Agrees [.blocks] s (unstamped b s) := by
  unfold unstamped
  split
  · exact .refl _ _
  · split
    · exact .refl _ _
    · constructor <;> simp

theorem not_stamped_unstamped : ¬ Tables.Stamped (unstamped b s) b := by
  rintro ⟨row, hrow, hp⟩
  unfold unstamped at hrow
  split at hrow
  · simp_all
  · split at hrow
    · simp_all
    · rw [GoMap.lookup_insert_eq, if_pos rfl] at hrow
      cases hrow
      exact hp rfl

theorem unstamped_of_not_stamped (h : ¬ Tables.Stamped s b) : unstamped b s = s := by
  unfold unstamped
  split
  · rfl
  · rename_i row hrow
    rw [if_pos]
    by_contra hp
    exact h ⟨row, hrow, hp⟩

theorem mem_retained {i : Nat} (hrow : s.blocks.lookup b ≠ none) :
    i ∈ (retained b expected s).expectedOf b ↔ i ∈ s.expectedOf b ∨ i ∈ expected := by
  unfold retained
  by_cases he : expected = []
  · simp [he]
  · simp [he, hrow, Tables.expectedOf, Store.sortCompact]

theorem deferred_bumps : (deferred b expected s).bumps = s.bumps := by
  rw [deferred, unstamped_agrees.bumps (by simp), retained]
  split <;> rfl

theorem deferred_stumps : (deferred b expected s).stumps = s.stumps := by
  rw [deferred, unstamped_agrees.stumps (by simp), retained]
  split <;> rfl

theorem deferred_expectedOf :
    (deferred b expected s).expectedOf b = (retained b expected s).expectedOf b := by
  rw [deferred, Tables.expectedOf, unstamped_agrees.expected (by simp)]
  rfl

theorem deferred_row : (deferred b expected s).blocks.lookup b = none ↔ s.blocks.lookup b = none := by
  rw [deferred, unstamped, retained_blocks]
  split
  · simp [retained_blocks, *]
  · split <;> simp [retained_blocks, *]

theorem always_deferIncompleteBlock {w : World Data} {I : World Data → Prop}
    {Q : Except String Unit → World Data → Prop}
    (hI : I { w with store := retained b expected w.store })
    (hI' : I { w with store := deferred b expected w.store })
    (hQ : Q (.ok ()) { w with store := deferred b expected w.store }) :
    Always (succeedingEnv H Data b) (fun _ => I) Q (deferIncompleteBlock b expected) w := by
  refine (always_bind w).mpr (always_exec fun o ho => ?_)
  have hadd : w.exec o (.addBlockExpectedSubtrees b expected) =
      (.ok (), { w with store := retained b expected w.store }) := by
    have hf : o.fault = none := ho.1 (by simp [Call.effects])
    unfold World.exec retained
    simp only [Tables.exec, hf]
    split <;> simp [Tables.read, Tables.write, World.existingAfter, World.passedAfter]
  rw [hadd]
  refine ⟨hI, ?_⟩
  -- the row as it stands decides whether a stamp is to be cleared
  refine (always_bind _).mpr (always_exec fun o ho => ?_)
  have hf : o.fault = none := ho.1 (by simp [Call.effects])
  rw [World.exec_read o rfl rfl rfl, hf]
  refine ⟨hI, ?_⟩
  have hdef : deferred b expected w.store = unstamped b (retained b expected w.store) := rfl
  unfold unstamped at hdef
  simp only [Tables.read]
  cases hrow : (retained b expected w.store).blocks.lookup b with
  | none =>
    simp only [hrow] at hdef ⊢
    simpa [hdef] using hQ
  | some row =>
    simp only [hrow] at hdef ⊢
    split
    · simp only [*, if_true] at hdef
      simpa [hdef] using hQ
    · rename_i hp
      simp only [if_neg hp] at hdef
      refine (always_bind _).mpr (always_exec fun o ho => ?_)
      have hf : o.fault = none := ho.1 (by simp [Call.effects])
      have hclear : World.exec { w with store := retained b expected w.store } o
          (.clearBlockProcessed b) = (.ok (), { w with store := deferred b expected w.store }) := by
        rw [hdef]
        simp [World.exec, Tables.exec, hrow, hf, Tables.write, World.existingAfter,
          World.passedAfter]
      rw [hclear]
      exact ⟨hI', hQ⟩

end Deferral

theorem missingStumpIndices_ne_nil {i : Nat} {expected : List Nat} {stumps : List (Stump Data)}
    (hi : i ∈ expected) (habsent : ∀ st ∈ stumps, st.subtreeIndex ≠ i) :
    missingStumpIndices expected stumps ≠ [] := by
  refine ne_nil_of_mem (a := i) (mem_filter.mpr ⟨hi, ?_⟩)
  simpa using habsent

/-! ## A delivery that stamps the block -/

/-- Every call succeeds, and no chain header is known. -/
def smooth (H Data : Type) : Oracle H Data where
  now := 1
  fault := none
  unread := []
  header := .ok none
  blockData := .error ""
  waited := true
  rank := fun _ => 0

theorem smooth_smooth : Smooth (smooth H Data) := ⟨(by decide : (1 : Int64) ≠ 0), rfl, rfl⟩

theorem succeeds_smooth {b : String} (w : World Data) (ρ : Type) (c : Call H Data ρ) :
    Succeeds b w c (smooth H Data) :=
  ⟨fun _ => rfl, nofun, (by decide : (1 : Int64) ≠ 0)⟩

/-! ## A block that is owed a STUMP -/

section Owed

variable [DecidableEq H] {sdk : Sdk H Data} {cfg : Config} {b : String} {i : Nat}
  {w w' : World Data} {callback : CallbackMessage Data}

/-- The block waits for a STUMP of subtree `i`. -/
structure Owed (sdk : Sdk H Data) (b : String) (i : Nat) (w : World Data) : Prop where
  row : w.store.blocks.lookup b ≠ none
  expected : i ∈ w.store.expectedOf b
  unbuilt : Tables.storedBUMP sdk w.store b = none
  absent : ∀ st ∈ w.store.stumpsOf b, st.subtreeIndex ≠ i
  open_ : ¬ Tables.Stamped w.store b

section

variable (h : Owed sdk b i w)
include h

omit [DecidableEq H] in
theorem Owed.retain (expected : List Nat) :
    Owed sdk b i { w with store := retained b expected w.store } where
  row := by simpa only [retained_blocks] using h.row
  expected := (mem_retained h.row).mpr (.inl h.expected)
  unbuilt := by
    have hb : (retained b expected w.store).bumps = w.store.bumps := by
      unfold retained
      split <;> rfl
    simpa only [Tables.storedBUMP, hb] using h.unbuilt
  absent := by
    have hs : (retained b expected w.store).stumps = w.store.stumps := by
      unfold retained
      split <;> rfl
    simpa only [Tables.stumpsOf, hs] using h.absent
  open_ := by simpa only [Tables.Stamped, retained_blocks] using h.open_

theorem Owed.deliver (hb : callback.blockHash = b) :
    Keeps (succeedingEnv H Data b) (Owed sdk b i) (handleMessage sdk cfg callback) w := by
  subst hb
  refine always_handleMessage h (fun _ _ => h) ?_ ?_ ?_
  · intro height leaves hstored
    rw [h.unbuilt] at hstored
    cases hstored
  · intro _
    have hmissing := missingStumpIndices_ne_nil
      (mem_widened.mpr (.inr h.expected) : i ∈ w.expects callback) h.absent
    rw [← missing_widened] at hmissing
    have hdefer := h.retain (widened w.store callback).expectedSubtreeIndices
    have hdeferred : deferred callback.blockHash (widened w.store callback).expectedSubtreeIndices
        w.store = retained callback.blockHash _ w.store :=
      unstamped_of_not_stamped hdefer.open_
    refine always_resolveAndBuild h (fun _ _ => h) ?_ ?_ ?_
    · intro _
      simp only [widened_blockHash]
      refine always_deferIncompleteBlock hdefer ?_ ⟨fun _ => ?_, fun _ => ?_⟩ <;>
        rw [hdeferred] <;> exact hdefer
    · exact fun hm => absurd hm hmissing
    · exact fun hm => absurd hm hmissing
  · intro height leaves new hstored
    rw [h.unbuilt] at hstored
    cases hstored

omit [DecidableEq H] in
theorem Owed.between {e : BlockEvent Data}
    (he : ∀ position st, e = .insertStump position st → st.subtreeIndex ≠ i) :
    Owed sdk b i { w with store := e.write b w.store } := by
  have hw := e.agrees_write b w.store
  refine ⟨?_, ?_, ?_, fun st hst => ?_, ?_⟩
  · simpa only [hw.blocks (by simp)] using h.row
  · simpa only [Tables.expectedOf, hw.expected (by simp)] using h.expected
  · simpa only [Tables.storedBUMP, hw.bumps (by simp)] using h.unbuilt
  · rcases e.mem_stumpsOf_write b w.store hst with hst | ⟨position, rfl⟩
    · exact h.absent st hst
    · exact he position st rfl
  · simpa only [Tables.Stamped, hw.blocks (by simp)] using h.open_

theorem Owed.step {mayDie : Bool} {e : BlockEvent Data}
    (he : ∀ position st, e = .insertStump position st → st.subtreeIndex ≠ i)
    (hstep : BlockStep (succeedingEnv H Data b) sdk cfg mayDie b e w w') : Owed sdk b i w' := by
  cases e with
  | deliver callback =>
    obtain ⟨out, -, hrun⟩ := hstep
    exact (h.deliver rfl).run h hrun
  | _ =>
    obtain rfl := hstep
    exact h.between he

end

/-- A delivery that announces a subtree without a STUMP and returns after deferring the
block has gone through `deferIncompleteBlock`. -/
theorem always_deferral (hann : i ∈ callback.expectedSubtreeIndices)
    (habsent : ∀ st ∈ w.stumps callback, st.subtreeIndex ≠ i) :
    Yields (succeedingEnv H Data callback.blockHash)
      (fun out w' => out = (.deferredIncomplete, .ok ()) → ∃ expected, i ∈ expected ∧
          w' = { w with store := deferred callback.blockHash expected w.store })
      (handleMessage sdk cfg callback) w := by
  have hmissing := missingStumpIndices_ne_nil
    (mem_widened.mpr (.inl hann) : i ∈ w.expects callback) habsent
  rw [← missing_widened] at hmissing
  have hbuild : ∀ stored, Yields (succeedingEnv H Data callback.blockHash)
      (fun out w' => out = (.deferredIncomplete, .ok ()) → ∃ expected, i ∈ expected ∧
          w' = { w with store := deferred callback.blockHash expected w.store })
      (resolveAndBuild sdk cfg (widened w.store callback) stored) w := by
    intro stored
    refine always_resolveAndBuild trivial (fun _ _ => nofun) ?_ ?_ ?_
    · intro _
      simp only [widened_blockHash]
      refine always_deferIncompleteBlock trivial trivial ⟨fun _ => nofun, fun _ _ => ?_⟩
      exact ⟨_, mem_widened.mpr (.inl hann), rfl⟩
    · exact fun hm => absurd hm hmissing
    · exact fun hm => absurd hm hmissing
  refine always_handleMessage trivial (fun _ _ => nofun) ?_ (fun _ => hbuild none) ?_
  · intro height leaves _ _ _
    refine always_of_forall (fun _ _ => trivial) (fun reply w' => ⟨fun _ => nofun, ?_⟩) _ _
    intro failed _
    cases failed <;> exact nofun
  · exact fun _ leaves _ _ _ _ => hbuild (some leaves)

/-- Once the janitor has pruned the STUMPs, a delivery that announces nothing stamps the
block, if it has a BUMP or no expected set. -/
theorem stamped_after_prune (cfg : Config) (hhash : b ≠ "") (callback : CallbackMessage Data)
    (hann : callback.expectedSubtreeIndices = [])
    (h : w.store.expectedOf b = [] ∨ Tables.storedBUMP sdk w.store b ≠ none) :
    ∃ w', Reaches (BlockStep (succeedingEnv H Data b) sdk cfg false b) w
      [.pruneStumps fun _ => false, .deliver callback] w' ∧ Tables.Stamped w'.store b := by
  let w₁ : World Data := { w with store := (BlockEvent.pruneStumps fun _ => false).write b w.store }
  let callback' : CallbackMessage Data := { callback with blockHash := b }
  have hstumps : w₁.stumps callback' = [] := by
    simp [w₁, callback', BlockEvent.write, Tables.stumpsOf]
  have hdeliver : ∃ out : Option Handled, out.isSome ∧ ∃ w',
      Runs (succeedingEnv H Data b) (handleMessage sdk cfg callback') w₁ out w' ∧
        Tables.Stamped w'.store b := by
    cases hstored : Tables.storedBUMP sdk w₁.store b with
    | some bump =>
      obtain ⟨height, leaves⟩ := bump
      refine ⟨_, rfl, _, runs_handleMessage_short (succeeds_smooth w₁) rfl hhash hstored ?_ ?_
        (runs_runWith succeeds_smooth _ w₁), smooth_smooth.stamped_shortCircuit height leaves w₁⟩
      · rw [hstumps]
        rfl
      · rw [hstumps]
        rfl
    | none =>
      have hexp : w₁.store.expectedOf b = [] := h.resolve_right (not_not.mpr hstored)
      have hwide : widened w₁.store callback' = callback' := by
        unfold widened
        rw [show w₁.store.expectedOf callback'.blockHash = [] from hexp]
      have hstamped : Tables.Stamped ((markBlockProcessed b 0).runWith (succeedingEnv H Data b)
          (smooth H Data) w₁).2.store b := smooth_smooth.stamped_markBlockProcessed 0 w₁
      refine ⟨some (.noStumps, .ok ()), rfl, _, runs_handleMessage_fresh (succeeds_smooth w₁) rfl
        hhash hstored ?_, hstamped⟩
      have hann' : callback'.expectedSubtreeIndices = [] := hann
      rw [hwide]
      exact runs_resolveAndBuild_empty (succeeds_smooth w₁) rfl hann' hstumps
        (runs_runWith succeeds_smooth (finalizeEmptyBlock b) w₁)
  obtain ⟨out, hout, w', hrun, hstamped⟩ := hdeliver
  exact ⟨w', .step rfl (.step ⟨out, by simpa using hout, hrun⟩ (.refl _)), hstamped⟩

theorem RowHolds.step (h : RowHolds b w) {mayDie : Bool} {e : BlockEvent Data}
    (hstep : BlockStep (succeedingEnv H Data b) sdk cfg mayDie b e w w') : RowHolds b w' := by
  cases e with
  | deliver callback =>
    obtain ⟨out, -, hrun⟩ := hstep
    have halways : Keeps (succeedingEnv H Data b) (RowHolds b)
        (handleMessage sdk cfg { callback with blockHash := b }) w :=
      Always.of_makes (S := fun _ _ => True) (fun _ c o _ _ hs _ => hs.exec o c) Prog.makes_any h
    exact halways.run h hrun
  | insertTx txid row =>
    obtain rfl := hstep
    intro hnone
    simp only [BlockEvent.write] at hnone ⊢
    split at hnone <;> exact h hnone
  | _ =>
    obtain rfl := hstep
    exact h

/-- A block that a delivery deferred for the missing STUMP of an announced subtree `i` stays
without its stamp until such a STUMP is stored, in every continuation, exactly when
the deferral found a block_processing row and no BUMP. -/
theorem deferred_stays_owed_iff {w₀ : World Data} {es₀ : List (BlockEvent Data)}
    (h₀ : RowHolds b w₀)
    (hreach : Reaches (BlockStep (succeedingEnv H Data b) sdk cfg false b) w₀ es₀ w)
    (hann : i ∈ callback.expectedSubtreeIndices)
    (habsent : ∀ st ∈ w.store.stumpsOf b, st.subtreeIndex ≠ i)
    (hrun : Runs (succeedingEnv H Data b) (handleMessage sdk cfg { callback with blockHash := b })
      w (some (.deferredIncomplete, .ok ())) w') :
    (∀ es w'', (∀ position st, .insertStump position st ∈ es → st.subtreeIndex ≠ i) →
        Reaches (BlockStep (succeedingEnv H Data b) sdk cfg false b) w' es w'' →
          ¬ Tables.Stamped w''.store b) ↔
      w.store.blocks.lookup b ≠ none ∧ Tables.storedBUMP sdk w.store b = none := by
  have hholds : RowHolds b w :=
    hreach.invariant (C := fun _ => True) (fun _ _ _ h _ hs => h.step hs) (fun _ _ => trivial) h₀
  have hhash : b ≠ "" := by
    rintro rfl
    cases hrun
  have hann' : i ∈ ({ callback with blockHash := b } : CallbackMessage Data).expectedSubtreeIndices :=
    hann
  obtain ⟨expected, hi, rfl⟩ := ((always_deferral hann' habsent).run trivial hrun
    (fun _ _ _ => trivial)).2 _ rfl rfl
  constructor
  · intro hnever
    by_contra hno
    -- the expected set was not retained, or the BUMP takes the next delivery past it
    have hopen : (deferred b expected w.store).expectedOf b = [] ∨
        Tables.storedBUMP sdk (deferred b expected w.store) b ≠ none := by
      by_cases hrow : w.store.blocks.lookup b = none
      · left
        rw [deferred_expectedOf, retained, if_pos (.inr hrow)]
        exact hholds hrow
      · right
        rw [Tables.storedBUMP, deferred_bumps]
        exact fun hb => hno ⟨hrow, hb⟩
    obtain ⟨w'', hr, hs⟩ := stamped_after_prune (w := { w with store := deferred b expected w.store })
      cfg hhash { callback with expectedSubtreeIndices := [] } rfl hopen
    exact hnever _ w'' (by simp) hr hs
  · rintro ⟨hrow, hbump⟩ es w'' hes hr
    have howed : Owed sdk b i { w with store := deferred b expected w.store } := by
      refine ⟨?_, ?_, ?_, ?_, not_stamped_unstamped⟩
      · rwa [ne_eq, deferred_row]
      · rw [deferred_expectedOf]
        exact (mem_retained hrow).mpr (.inr hi)
      · rwa [Tables.storedBUMP, deferred_bumps]
      · rwa [Tables.stumpsOf, deferred_stumps]
    exact (hr.invariant (C := fun e => ∀ position st, e = .insertStump position st →
      st.subtreeIndex ≠ i) (fun _ _ _ h he hs => h.step he hs)
      (fun e he position st heq => hes position st (heq ▸ he)) howed).open_

end Owed

/-! The two kinds of deferral, on a block for which nothing is stored but perhaps its row. -/

section Deferred

open Bump (Bits BitsData referenceSdk)

/-- The first delivery for a block: it announces subtree 0. -/
def announcesFirst : CallbackMessage BitsData :=
  ⟨"b", [0], "", [], 0, none⟩

def noGrace : Config := ⟨false, true⟩

/-- Nothing but block_processing rows. -/
def onlyRows (blocks : Store.Blocks) : World BitsData :=
  ⟨⟨blocks, ∅, ∅, ∅, ∅, []⟩, [], []⟩

def headerRow : Store.BlockRow := ⟨7, 1, 0, 0, .active, 0, 0⟩

def afterFirst (blocks : Store.Blocks) : Handled × World BitsData :=
  (handleMessage referenceSdk noGrace { announcesFirst with blockHash := "b" }).runWith
    (succeedingEnv Bits _ "b") (smooth Bits _) (onlyRows blocks)

theorem runs_afterFirst {blocks : Store.Blocks}
    (h : (afterFirst blocks).1 = (.deferredIncomplete, .ok ())) :
    Runs (succeedingEnv Bits _ "b")
      (handleMessage referenceSdk noGrace { announcesFirst with blockHash := "b" })
      (onlyRows blocks) (some (.deferredIncomplete, .ok ())) (afterFirst blocks).2 := by
  rw [← h]
  exact runs_runWith succeeds_smooth _ _

end Deferred

theorem deferred_stays_owed_iff_headerSeen :
    (∀ es w'', (∀ position st, BlockEvent.insertStump position st ∈ es → st.subtreeIndex ≠ 0) →
        Reaches (BlockStep (succeedingEnv Bump.Bits _ "b") Bump.referenceSdk noGrace false "b")
          (afterFirst (AList.singleton "b" headerRow)).2 es w'' → ¬ Tables.Stamped w''.store "b") ↔
      (onlyRows (AList.singleton "b" headerRow)).store.blocks.lookup "b" ≠ none ∧
        Tables.storedBUMP Bump.referenceSdk
          (onlyRows (AList.singleton "b" headerRow)).store "b" = none :=
  deferred_stays_owed_iff (fun _ => rfl) (.refl _) (by decide)
    (by simp [onlyRows, Tables.stumpsOf])
    (runs_afterFirst rfl)

/-- A callback that comes before the block's row leaves no expected set behind, and a
delivery that announces nothing stamps the block without the STUMP. -/
theorem rowless_deferral_stamped : (afterFirst ∅).1 = (.deferredIncomplete, .ok ()) ∧
      ∃ w'', Reaches (BlockStep (succeedingEnv Bump.Bits _ "b") Bump.referenceSdk noGrace false "b")
        (afterFirst ∅).2 [.pruneStumps fun _ => false,
          .deliver { announcesFirst with expectedSubtreeIndices := [] }] w'' ∧
        Tables.Stamped w''.store "b" :=
  ⟨rfl, stamped_after_prune noGrace (by decide) _ rfl (.inl rfl)⟩

end Arcade.Builder
