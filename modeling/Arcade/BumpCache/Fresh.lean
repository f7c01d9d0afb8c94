import Arcade.BumpCache.Cache
import Arcade.Lib.Tasks

/-!
The cache is never stale. A fill takes the invalidation counter of its block as a token before it
fetches, so a fill whose token still matches has fetched after every write that has been followed
by its `Remove`.
-/

namespace Arcade.BumpCache

open Lib Lib.GoMap List

variable {ι : Type} {P : Parts ι} {ix : Indexer ι} {maxLeaves : Nat} {c : Cache P} {b : String}

/-! ## The entries and the leaf budget -/

namespace Cache

/-- An exact total, within the budget unless one entry is alone. -/
structure Sound (ix : Indexer ι) (maxLeaves : Nat) (c : Cache P) : Prop where
  total : c.indexes.Exact (leaves ix)
  budget : c.indexes.total ≤ maxLeaves ∨ c.entries.card = 1

theorem entries_new : (new : Cache P).entries = 0 := P.lru.entries_empty

theorem sound_new : (new : Cache P).Sound ix maxLeaves where
  total := by simp [Counted.Exact, new, P.lru.entries_empty]
  budget := .inl (Int.natCast_nonneg _)

theorem entries_lookup (b : String) : (c.lookup b).2.entries = c.entries := P.lru.entries_get _ b

theorem indexes_claimRefresh (now : Int) (c : Cache P) (b : String) :
    (c.claimRefresh now b).2.indexes = c.indexes ∧ (c.claimRefresh now b).2.gen = c.gen ∧
      (c.claimRefresh now b).2.inflight = c.inflight := by
  simp only [claimRefresh]
  split
  · split <;> simp
  · simp

theorem indexes_deregister (c : Cache P) (b : String) : (c.deregister b).indexes = c.indexes := by
  unfold deregister
  split <;> rfl

section

variable (h : c.Sound ix maxLeaves)
include h

theorem Sound.of_indexes {c' : Cache P} (heq : c'.indexes = c.indexes) : c'.Sound ix maxLeaves :=
  ⟨heq ▸ h.total, by rw [entries, heq]; exact h.budget⟩

theorem Sound.lookup (b : String) : (c.lookup b).2.Sound ix maxLeaves where
  total := h.total.trans (by simp only [Cache.lookup, P.lru.entries_get])
  budget := by
    rw [entries_lookup]
    exact h.budget

theorem Sound.invalidate (b : String) : (c.invalidate ix b).Sound ix maxLeaves := by
  have hremove := P.lru.entries_remove c.indexes.lru b
  have hexact := Counted.Exact.evicting h.total hremove
  refine ⟨hexact, ?_⟩
  have hle : (c.invalidate ix b).indexes.total ≤ c.indexes.total := by
    simp only [Cache.invalidate, Counted.evicting]
    omega
  rcases h.budget with hbudget | hone
  · exact .inl (hle.trans hbudget)
  · have hcard := congrArg Multiset.card hremove
    rw [Multiset.card_add, show (P.lru.entries c.indexes.lru).card = 1 from hone] at hcard
    by_cases hzero : (c.invalidate ix b).entries.card = 0
    · have htotal : (c.invalidate ix b).indexes.total =
        (((c.invalidate ix b).entries.map (leaves ix)).sum : Nat) := hexact
      rw [Multiset.card_eq_zero.mp hzero] at htotal
      exact .inl (htotal ▸ Int.natCast_nonneg _)
    · exact .inr (Nat.le_antisymm (by simp only [entries, Cache.invalidate, Counted.evicting]; omega)
        (Nat.pos_of_ne_zero hzero))

theorem endFill_spec (b : String) (built : Option (Fetched ι)) (token : Nat) :
    (c.endFill ix maxLeaves b built token).Sound ix maxLeaves ∧
      (∀ x ∈ (c.endFill ix maxLeaves b built token).entries,
        (x.1 = b ∧ built = some x.2 ∧ token = c.genOf b) ∨ x ∈ c.entries) ∧
      (c.endFill ix maxLeaves b built token).gen = (c.deregister b).gen ∧
      (c.endFill ix maxLeaves b built token).inflight = (c.deregister b).inflight := by
  have heq := indexes_deregister c b
  have hsound := h.of_indexes heq
  have hkept : ∀ x ∈ (c.deregister b).entries,
      (x.1 = b ∧ built = some x.2 ∧ token = c.genOf b) ∨ x ∈ c.entries := fun x hx => by
    rw [entries, heq] at hx
    exact .inr hx
  cases built with
  | none => exact ⟨hsound, hkept, rfl, rfl⟩
  | some e =>
    simp only [endFill]
    split
    · exact ⟨hsound, hkept, rfl, rfl⟩
    · rename_i hcurrent
      obtain ⟨hexact, hbudget, hmem⟩ := Counted.put_spec maxLeaves hsound.total b e
      refine ⟨⟨hexact, hbudget⟩, fun x hx => ?_, rfl, rfl⟩
      rcases hmem x hx with rfl | hold
      · exact .inl ⟨rfl, rfl, (not_not.mp hcurrent).symm⟩
      · exact hkept x hold

end

end Cache

/-! ## The registered fills -/

/-- The token of a flight between `beginFill` and `endFill`. -/
def FlightPhase.token? : FlightPhase ι → Option Nat
  | .filling token => some token
  | .fetched token _ => some token
  | _ => none

def Flight.fills (b : String) (fl : Flight ι) : Bool := fl.block = b ∧ fl.phase.token?.isSome

/-- The maps count the fills in progress, and no token is ahead of its counter. -/
structure Registered (c : Cache P) (flights : List (Flight ι)) : Prop where
  inflight : ∀ b, c.inflight.lookup b =
    if flights.countP (·.fills b) = 0 then none else some (flights.countP (·.fills b) : Int)
  gen : ∀ b, flights.countP (·.fills b) = 0 → c.gen.lookup b = none
  tokens : ∀ fl ∈ flights, ∀ token, fl.phase.token? = some token → token ≤ c.genOf fl.block

namespace Registered

variable {flights : List (Flight ι)} {i : Nat} {phase : FlightPhase ι}

theorem inflightOf (h : Registered c flights) (b : String) :
    c.inflightOf b = (flights.countP (·.fills b) : Int) := by
  rw [Cache.inflightOf, h.inflight b]
  split
  · rename_i hzero
    simp [hzero]
  · rfl

theorem of_eq {c' : Cache P} (h : Registered c flights) (hgen : c'.gen = c.gen)
    (hinflight : c'.inflight = c.inflight) : Registered c' flights where
  inflight b := hinflight ▸ h.inflight b
  gen b := hgen ▸ h.gen b
  tokens fl hfl token ht := by
    have := h.tokens fl hfl token ht
    rwa [Cache.genOf, hgen]

theorem append (h : Registered c flights) (b : String) :
    Registered c (flights ++ [⟨b, .checking⟩]) := by
  have hnew : ∀ b', (⟨b, .checking⟩ : Flight ι).fills b' = false := by
    simp [Flight.fills, FlightPhase.token?]
  have hcount : ∀ b', (flights ++ [(⟨b, .checking⟩ : Flight ι)]).countP (·.fills b') =
      flights.countP (·.fills b') := by
    simp [hnew]
  refine ⟨fun b' => by rw [hcount]; exact h.inflight b', fun b' => by rw [hcount]; exact h.gen b',
    fun fl hfl token ht => ?_⟩
  rcases mem_append.mp hfl with hold | hnew
  · exact h.tokens fl hold token ht
  · obtain rfl := mem_singleton.mp hnew
    cases ht

section

variable (hi : flights[i]? = some ⟨b, phase⟩) (phase' : FlightPhase ι)
include hi

theorem countP_set_of_ne {b' : String}
    (hb : b' ≠ b) : (flights.set i ⟨b, phase'⟩).countP (·.fills b') =
      flights.countP (·.fills b') := by
  have h := countP_task_set (fun fl : Flight ι => fl.fills b') hi ⟨b, phase'⟩
  simpa [Flight.fills, Ne.symm hb] using h

theorem countP_set : (flights.set i ⟨b, phase'⟩).countP (·.fills b) + phase.token?.toList.length =
      flights.countP (·.fills b) + phase'.token?.toList.length := by
  have h := countP_task_set (fun fl : Flight ι => fl.fills b) hi ⟨b, phase'⟩
  have hfills : ∀ ph : FlightPhase ι, (⟨b, ph⟩ : Flight ι).fills b = ph.token?.isSome := by
    simp [Flight.fills]
  rw [hfills, hfills] at h
  cases hold : phase.token? <;> cases hnew : phase'.token? <;> simpa [hold, hnew] using h

end

section

variable (h : Registered c flights)
include h

theorem same (hi : flights[i]? = some ⟨b, phase⟩)
    {phase' : FlightPhase ι} (ht : phase'.token? = phase.token?) :
    Registered c (flights.set i ⟨b, phase'⟩) := by
  have hcount : ∀ b', (flights.set i ⟨b, phase'⟩).countP (·.fills b') =
      flights.countP (·.fills b') := by
    intro b'
    by_cases hb : b' = b
    · subst hb
      have := countP_set hi phase'
      rw [ht] at this
      omega
    · exact countP_set_of_ne hi phase' hb
  refine ⟨fun b' => by rw [hcount]; exact h.inflight b', fun b' => by rw [hcount]; exact h.gen b',
    fun fl hfl token htoken => ?_⟩
  rcases mem_or_eq_of_mem_set hfl with hold | rfl
  · exact h.tokens fl hold token htoken
  · exact h.tokens ⟨b, phase⟩ (mem_of_getElem? hi) token (ht ▸ htoken)

theorem invalidate (ix : Indexer ι) (b : String) : Registered (c.invalidate ix b) flights ∧
      ∀ fl ∈ flights, fl.block = b → fl.phase.token? ≠ some ((c.invalidate ix b).genOf b) := by
  have hinflight : (c.invalidate ix b).inflight = c.inflight := rfl
  have hgen : (c.invalidate ix b).gen =
    if c.inflightOf b > 0 then c.gen.insert b (c.genOf b + 1) else c.gen := rfl
  have hgenOf : ∀ b', c.genOf b' ≤ (c.invalidate ix b).genOf b' := by
    intro b'
    simp only [Cache.genOf, hgen]
    split
    · rw [lookup_insert_eq]
      split
      · rename_i heq
        subst heq
        exact Nat.le_succ _
      · exact le_rfl
    · exact le_rfl
  refine ⟨⟨fun b' => hinflight ▸ h.inflight b', fun b' hzero => ?_, fun fl hfl token ht =>
    (h.tokens fl hfl token ht).trans (hgenOf _)⟩, fun fl hfl hb ht => ?_⟩
  · rw [hgen]
    split
    · rename_i hpos
      have hne : b' ≠ b := by
        rintro rfl
        rw [h.inflightOf] at hpos
        omega
      rw [lookup_insert_eq, if_neg hne]
      exact h.gen b' hzero
    · exact h.gen b' hzero
  · have hpos : 0 < flights.countP (·.fills b) :=
      countP_pos_iff.mpr ⟨fl, hfl, by simp [Flight.fills, hb, ht]⟩
    have hlt : c.genOf b < (c.invalidate ix b).genOf b := by
      simp only [Cache.genOf, hgen]
      rw [if_pos (by rw [h.inflightOf]; omega), lookup_insert_eq, if_pos rfl]
      exact Nat.lt_succ_self _
    have := h.tokens fl hfl _ ht
    rw [hb] at this
    omega

theorem beginFill (hi : flights[i]? = some ⟨b, .registering⟩) :
    Registered (c.beginFill b).2 (flights.set i ⟨b, .filling (c.beginFill b).1⟩) := by
  have hcount := countP_set hi (.filling (c.beginFill b).1)
  simp only [FlightPhase.token?, Option.toList_none, Option.toList_some, length_nil,
    length_singleton, Nat.add_zero] at hcount
  refine ⟨fun b' => ?_, fun b' hzero => ?_, fun fl hfl token ht => ?_⟩
  · rw [Cache.beginFill, lookup_insert_eq]
    by_cases hb : b' = b
    · subst hb
      rw [Cache.beginFill] at hcount
      rw [if_pos rfl, hcount, if_neg (Nat.succ_ne_zero _), h.inflightOf]
      rfl
    · rw [if_neg hb, countP_set_of_ne hi _ hb]
      exact h.inflight b'
  · by_cases hb : b' = b
    · subst hb
      omega
    · rw [countP_set_of_ne hi _ hb] at hzero
      exact h.gen b' hzero
  · rcases mem_or_eq_of_mem_set hfl with hold | rfl
    · exact h.tokens fl hold token ht
    · obtain rfl := Option.some.inj ht
      exact le_rfl

theorem deregister {token : Nat} {built : Option (Fetched ι)}
    (hi : flights[i]? = some ⟨b, .fetched token built⟩) (result : Option (Fetched ι)) :
    Registered (c.deregister b) (flights.set i ⟨b, .leaving result⟩) ∧
      ∀ b', 0 < (flights.set i ⟨b, .leaving result⟩).countP (·.fills b') →
        (c.deregister b).genOf b' = c.genOf b' := by
  have hcount := countP_set hi (.leaving result)
  simp only [FlightPhase.token?, Option.toList_none, Option.toList_some, length_nil,
    length_singleton, Nat.add_zero] at hcount
  have hof := h.inflightOf b
  have hgenOf : ∀ b', 0 < (flights.set i ⟨b, .leaving result⟩).countP (·.fills b') →
      (c.deregister b).genOf b' = c.genOf b' := by
    intro b' hpos
    unfold Cache.deregister
    split
    · have hb : b' ≠ b := by
        rintro rfl
        omega
      simp only [Cache.genOf, lookup_erase_eq, if_neg hb]
    · rfl
  have htokens : ∀ fl ∈ flights.set i ⟨b, .leaving result⟩, ∀ τ, fl.phase.token? = some τ →
      τ ≤ (c.deregister b).genOf fl.block := by
    intro fl hfl τ hτ
    have hpos : 0 < (flights.set i ⟨b, .leaving result⟩).countP (·.fills fl.block) :=
      countP_pos_iff.mpr ⟨fl, hfl, by simp [Flight.fills, hτ]⟩
    rw [hgenOf _ hpos]
    rcases mem_or_eq_of_mem_set hfl with hold | rfl
    · exact h.tokens fl hold τ hτ
    · cases hτ
  refine ⟨⟨fun b' => ?_, fun b' hzero => ?_, htokens⟩, hgenOf⟩
  · by_cases hb : b' = b
    · subst hb
      unfold Cache.deregister
      split
      · rw [lookup_erase_eq, if_pos rfl, if_pos (by omega)]
      · rw [lookup_insert_eq, if_pos rfl, if_neg (by omega), hof]
        congr 1
        omega
    · rw [countP_set_of_ne hi _ hb, ← h.inflight b']
      unfold Cache.deregister
      split
      · rw [lookup_erase_eq, if_neg hb]
      · rw [lookup_insert_eq, if_neg hb]
  · by_cases hb : b' = b
    · subst hb
      rw [Cache.deregister, if_pos (by omega), lookup_erase_eq, if_pos rfl]
    · rw [countP_set_of_ne hi _ hb] at hzero
      rw [← h.gen b' hzero]
      unfold Cache.deregister
      split
      · rw [lookup_erase_eq, if_neg hb]
      · rfl

end

end Registered

/-! ## Runs -/

def WriterPhase.wrote : WriterPhase → Option Nat
  | .writing _ => none
  | .forgetting w => some w
  | .removing w => some w
  | .done w => some w

/-- No writer that is through has made a later write than `v`. -/
def Fresh (tasks : List Task) (b : String) (v : Nat) : Prop :=
  ∀ w, Task.writer b (.done w) ∈ tasks → w ≤ v

namespace System

/-- A fill that has fetched and may still install. -/
def Pending (s : System P) (b : String) (e : Fetched ι) : Prop :=
  ⟨b, .fetched (s.cache.genOf b) (some e)⟩ ∈ s.flights

structure Inv (ix : Indexer ι) (maxLeaves : Nat) (s : System P) : Prop where
  sound : s.cache.Sound ix maxLeaves
  registered : Registered s.cache s.flights
  pending : ∀ b e, s.Pending b e → Fresh s.tasks b e.version
  cached : ∀ x ∈ s.cache.entries, Fresh s.tasks x.1 x.2.version
  written : ∀ b phase w, Task.writer b phase ∈ s.tasks → phase.wrote = some w → w ≤ s.version b

variable {s : System P} {i : Nat}

theorem inv_start : (start : System P).Inv ix maxLeaves where
  sound := Cache.sound_new
  registered := ⟨fun _ => rfl, fun _ _ => rfl, fun _ h => absurd h not_mem_nil⟩
  pending _ _ h := absurd h not_mem_nil
  cached x h := by
    rw [show (start : System P).cache.entries = 0 from Cache.entries_new] at h
    exact absurd h (Multiset.notMem_zero x)
  written _ _ _ h := absurd h not_mem_nil

theorem Inv.cache (h : s.Inv ix maxLeaves) {c' : Cache P} (hsound : c'.Sound ix maxLeaves)
    (hlru : ∀ x ∈ c'.entries, x ∈ s.cache.entries) (hgen : c'.gen = s.cache.gen)
    (hinflight : c'.inflight = s.cache.inflight) : Inv ix maxLeaves { s with cache := c' } where
  sound := hsound
  registered := h.registered.of_eq hgen hinflight
  pending b e hp := by
    refine h.pending b e ?_
    simpa only [Pending, Cache.genOf, hgen] using hp
  cached x hx := h.cached x (hlru x hx)
  written := h.written

theorem Inv.lookup (h : s.Inv ix maxLeaves) (b : String) :
    Inv ix maxLeaves { s with cache := (s.cache.lookup b).2 } :=
  h.cache (h.sound.lookup b) (fun _ hx => Cache.entries_lookup b ▸ hx) rfl rfl

theorem Inv.claimRefresh (h : s.Inv ix maxLeaves) (now : Int) (b : String) :
    Inv ix maxLeaves { s with cache := (s.cache.claimRefresh now b).2 } := by
  obtain ⟨heq, hgen, hinflight⟩ := Cache.indexes_claimRefresh now s.cache b
  refine h.cache (h.sound.of_indexes heq) (fun x hx => ?_) hgen hinflight
  rwa [Cache.entries, heq] at hx

/-- The cache holds nothing for the block, and no fill of it may install. -/
def Cleared (s : System P) (b : String) : Prop :=
  (∀ x ∈ s.cache.entries, x.1 ≠ b) ∧ ∀ e, ¬ s.Pending b e

section

variable (h : s.Inv ix maxLeaves)
include h

theorem Inv.invalidate (b : String) : Inv ix maxLeaves { s with cache := s.cache.invalidate ix b } ∧
      Cleared { s with cache := s.cache.invalidate ix b } b := by
  obtain ⟨hregistered, htokens⟩ := h.registered.invalidate ix b
  have hcleared : ∀ e, ¬ Pending { s with cache := s.cache.invalidate ix b } b e :=
    fun e hp => htokens _ hp rfl rfl
  refine ⟨⟨h.sound.invalidate b, hregistered, fun b' e hp => ?_, fun x hx => ?_, h.written⟩,
    fun x hx => ?_, hcleared⟩
  · by_cases hb : b' = b
    · exact absurd (hb ▸ hp) (hcleared e)
    · refine h.pending b' e ?_
      have hsame : (s.cache.invalidate ix b).genOf b' = s.cache.genOf b' := by
        simp only [Cache.genOf, Cache.invalidate]
        split
        · rw [lookup_insert_eq, if_neg hb]
        · rfl
      simpa only [Pending, hsame] using hp
  · refine h.cached x ?_
    rw [Cache.entries, ← P.lru.entries_remove s.cache.indexes.lru b]
    exact Multiset.mem_add.mpr (.inl hx)
  · exact P.lru.remove_ne _ b x hx

theorem Inv.setTask {task task' : Task} (hi : s.tasks[i]? = some task)
    (hdone : ∀ b w, task' = .writer b (.done w) → task = task' ∨ s.Cleared b)
    (hwrote : ∀ b phase w, task' = .writer b phase → phase.wrote = some w → w ≤ s.version b) :
    Inv ix maxLeaves { s with tasks := s.tasks.set i task' } := by
  have hfresh : ∀ b v, Fresh s.tasks b v → ¬ s.Cleared b → Fresh (s.tasks.set i task') b v := by
    intro b v hf hb w hw
    rcases mem_or_eq_of_mem_set hw with hold | hnew
    · exact hf w hold
    · rcases hdone b w hnew.symm with heq | hcleared
      · exact hf w (hnew ▸ heq ▸ mem_of_getElem? hi)
      · exact absurd hcleared hb
  refine ⟨h.sound, h.registered, fun b e hp => ?_, fun x hx => ?_, fun b phase w hw hphase => ?_⟩
  · exact hfresh b e.version (h.pending b e hp) fun hcleared => hcleared.2 e hp
  · exact hfresh x.1 x.2.version (h.cached x hx) fun hcleared => hcleared.1 x hx rfl
  · rcases mem_or_eq_of_mem_set hw with hold | hnew
    · exact h.written b phase w hold hphase
    · exact hwrote b phase w hnew.symm hphase

theorem Inv.append {task : Task}
    (hnew : ∀ b phase w, task = .writer b phase → phase.wrote ≠ some w) :
    Inv ix maxLeaves { s with tasks := s.tasks ++ [task] } := by
  have hmem : ∀ b phase w, Task.writer b phase ∈ s.tasks ++ [task] → phase.wrote = some w →
      Task.writer b phase ∈ s.tasks := by
    intro b phase w hw hphase
    rcases mem_append.mp hw with hold | hlast
    · exact hold
    · exact absurd hphase (hnew b phase w (mem_singleton.mp hlast).symm)
  exact ⟨h.sound, h.registered, fun b e hp w hw => h.pending b e hp w (hmem b _ w hw rfl),
    fun x hx w hw => h.cached x hx w (hmem x.1 _ w hw rfl),
    fun b phase w hw hphase => h.written b phase w (hmem b phase w hw hphase) hphase⟩

theorem Inv.readerStep (block txid : String) (now : Int) (phase : ReaderPhase) :
    (s.readerStep ix block txid now phase).1.Inv ix maxLeaves ∧
      (s.readerStep ix block txid now phase).1.tasks = s.tasks := by
  cases phase with
  | looking => exact ⟨h.lookup block, rfl⟩
  | indexing again => exact ⟨h.lookup block, rfl⟩
  | joining again =>
    simp only [System.readerStep]
    split
    · exact ⟨h, rfl⟩
    · refine ⟨⟨h.sound, h.registered.append block, fun b e hp => h.pending b e ?_, h.cached,
        h.written⟩, rfl⟩
      rcases mem_append.mp hp with hold | hnew
      · exact hold
      · simp at hnew
  | waiting again j => exact ⟨h, rfl⟩
  | refreshing => exact ⟨h.claimRefresh now block, rfl⟩
  | forgetting => exact ⟨⟨h.sound, h.registered, h.pending, h.cached, h.written⟩, rfl⟩
  | removing => exact ⟨(h.invalidate block).1, rfl⟩
  | returned path => exact ⟨h, rfl⟩

theorem Inv.writerStep (block : String) (phase : WriterPhase)
    (hi : s.tasks[i]? = some (.writer block phase)) :
    Inv ix maxLeaves { (s.writerStep ix block phase).1 with
      tasks := s.tasks.set i (.writer block (s.writerStep ix block phase).2) } := by
  have hmem := mem_of_getElem? hi
  cases phase with
  | writing data =>
    have hle : ∀ b, s.version b ≤ Function.update s.version block (s.version block + 1) b := by
      intro b
      by_cases hb : b = block
      · subst hb
        simp
      · simp [hb]
    have hwritten : Inv ix maxLeaves { s with
        data := Function.update s.data block data
        version := Function.update s.version block (s.version block + 1) } :=
      ⟨h.sound, h.registered, h.pending, h.cached,
        fun b phase w hw hphase => (h.written b phase w hw hphase).trans (hle b)⟩
    refine hwritten.setTask hi (fun b w heq => by cases heq) fun b phase w heq hphase => ?_
    cases heq
    obtain rfl := Option.some.inj hphase
    simp
  | forgetting w =>
    have hgroup : Inv ix maxLeaves { s with group := P.group.forget s.group block } :=
      ⟨h.sound, h.registered, h.pending, h.cached, h.written⟩
    refine hgroup.setTask hi (fun b w heq => by cases heq) fun b phase w' heq hphase => ?_
    cases heq
    obtain rfl := Option.some.inj hphase
    exact h.written block _ w hmem rfl
  | removing w =>
    obtain ⟨hinv, hcleared⟩ := h.invalidate block
    refine hinv.setTask hi (fun b w' heq => ?_) fun b phase w' heq hphase => ?_
    · cases heq
      exact .inr hcleared
    · cases heq
      obtain rfl := Option.some.inj hphase
      exact h.written block _ w hmem rfl
  | done w =>
    refine h.setTask hi (fun b w' heq => .inl rfl) fun b phase w' heq hphase => ?_
    cases heq
    exact h.written block _ w' hmem hphase

theorem Inv.setFlight {block : String} {phase phase' : FlightPhase ι}
    (hi : s.flights[i]? = some ⟨block, phase⟩) (hphase : phase.token? = none)
    (hphase' : phase'.token? = none) :
    Inv ix maxLeaves { s with flights := s.flights.set i ⟨block, phase'⟩ } := by
  refine ⟨h.sound, h.registered.same hi (hphase'.trans hphase.symm), fun b e hp => ?_, h.cached,
    h.written⟩
  rcases mem_or_eq_of_mem_set hp with hold | hnew
  · exact h.pending b e hold
  · have htoken := congrArg (fun fl : Flight ι => fl.phase.token?) hnew
    cases htoken.trans hphase'

theorem Inv.flightStep (block : String) (fetchOk : Bool)
    (phase : FlightPhase ι) (hi : s.flights[i]? = some ⟨block, phase⟩) :
    Inv ix maxLeaves { (s.flightStep ix maxLeaves i block fetchOk phase).1 with
      flights := s.flights.set i ⟨block, (s.flightStep ix maxLeaves i block fetchOk phase).2⟩ } := by
  cases phase with
  | checking =>
    refine (h.lookup block).setFlight hi rfl ?_
    simp only [System.flightStep]
    split <;> rfl
  | registering =>
    refine ⟨h.sound.of_indexes rfl, h.registered.beginFill hi, fun b e hp => ?_, h.cached, h.written⟩
    rcases mem_or_eq_of_mem_set hp with hold | hnew
    · exact h.pending b e hold
    · simp [System.flightStep] at hnew
  | filling token =>
    refine ⟨h.sound, h.registered.same hi rfl, fun b e hp => ?_, h.cached, h.written⟩
    rcases mem_or_eq_of_mem_set hp with hold | hnew
    · exact h.pending b e hold
    · -- What was fetched just now is as new as every write.
      simp only [System.flightStep, Flight.mk.injEq, FlightPhase.fetched.injEq] at hnew
      obtain ⟨rfl, -, hfetch⟩ := hnew
      have hversion : e.version = s.version b := by
        simp only [fetch] at hfetch
        split at hfetch
        · obtain ⟨idx, -, rfl⟩ := Option.map_eq_some_iff.mp hfetch.symm
          rfl
        · cases hfetch
      intro w hw
      rw [hversion]
      exact h.written b _ w hw rfl
  | fetched token built =>
    obtain ⟨hsound, hlru, hgen, hinflight⟩ := Cache.endFill_spec h.sound block built token
    obtain ⟨hregistered, hgenOf⟩ := h.registered.deregister hi built
    refine ⟨hsound, hregistered.of_eq hgen hinflight, fun b e hp => ?_, fun x hx => ?_, h.written⟩
    · rcases mem_or_eq_of_mem_set hp with hold | hnew
      · refine h.pending b e ?_
        have hpos : 0 < (s.flights.set i ⟨block, .leaving built⟩).countP (·.fills b) :=
          countP_pos_iff.mpr ⟨_, hp, by simp [Flight.fills, FlightPhase.token?]⟩
        have hsame := hgenOf b hpos
        rw [Cache.genOf, ← hgen] at hsame
        rw [Pending, ← hsame]
        exact hold
      · simp [System.flightStep] at hnew
    · rcases hlru x hx with ⟨hblock, hbuilt, htoken⟩ | hold
      · have hpending : s.Pending x.1 x.2 := by
          rw [Pending, hblock, ← htoken, ← hbuilt]
          exact mem_of_getElem? hi
        exact h.pending x.1 x.2 hpending
      · exact h.cached x hold
  | leaving result =>
    have hset : Inv ix maxLeaves { s with flights := s.flights.set i ⟨block, .finished result⟩ } :=
      h.setFlight hi rfl rfl
    exact ⟨hset.sound, hset.registered, hset.pending, hset.cached, hset.written⟩
  | finished result => exact h.setFlight hi rfl rfl

theorem Inv.step (event : Event) : (s.step ix maxLeaves event).Inv ix maxLeaves := by
  cases event with
  | read block txid => exact h.append fun b phase w heq => by cases heq
  | write block data =>
    refine h.append fun b phase w heq hphase => ?_
    cases heq
    cases hphase
  | task i now =>
    simp only [System.step]
    split
    · exact h
    · rename_i task hi
      cases task with
      | reader block txid phase =>
        obtain ⟨hinv, htasks⟩ := h.readerStep block txid now phase
        rw [← htasks] at hi ⊢
        exact hinv.setTask hi (fun b w heq => by cases heq) fun b phase w heq => by cases heq
      | writer block phase => exact h.writerStep block phase hi
  | flight i fetchOk =>
    simp only [System.step]
    split
    · exact h
    · rename_i fl hi
      exact h.flightStep fl.block fetchOk fl.phase hi

theorem Inv.filling (b : String) (hb : b ∈ s.cache.gen ∨ b ∈ s.cache.inflight) :
    ∃ fl ∈ s.flights, fl.block = b ∧ fl.phase.token?.isSome := by
  have hpos : 0 < s.flights.countP (·.fills b) := by
    rw [Nat.pos_iff_ne_zero]
    intro hzero
    rcases hb with hgen | hinflight
    · obtain ⟨v, hv⟩ := (mem_iff_lookup _ _).mp hgen
      rw [h.registered.gen b hzero] at hv
      cases hv
    · obtain ⟨v, hv⟩ := (mem_iff_lookup _ _).mp hinflight
      rw [h.registered.inflight b, if_pos hzero] at hv
      cases hv
  obtain ⟨fl, hfl, hfills⟩ := countP_pos_iff.mp hpos
  exact ⟨fl, hfl, by simpa [Flight.fills] using hfills⟩

end

/-- In every run, whatever LRUs and singleflight group the cache is built from: what is cached for
a block was fetched after the write of every writer that is through, the maps hold only blocks with
a fill in progress, and the leaf total is exact and within the budget unless one entry is alone. -/
theorem never_stale (P : Parts ι) (ix : Indexer ι) (maxLeaves : Nat) (events : List Event) :
    let s : System P := run (step ix maxLeaves) start events
    (∀ b w e, Task.writer b (.done w) ∈ s.tasks → (b, e) ∈ s.cache.entries → w ≤ e.version) ∧
      (∀ b, b ∈ s.cache.gen ∨ b ∈ s.cache.inflight →
        ∃ fl ∈ s.flights, fl.block = b ∧ fl.phase.token?.isSome) ∧
      s.cache.indexes.total = ((s.cache.entries.map fun x => ix.leaves x.2.idx).sum : Nat) ∧
      (s.cache.indexes.total ≤ maxLeaves ∨ s.cache.entries.card = 1) := by
  have h : (run (step ix maxLeaves) (start : System P) events).Inv ix maxLeaves :=
    run_keeps (fun _ event h => h.step event) inv_start events
  exact ⟨fun b w e hdone he => h.cached (b, e) he w hdone, h.filling, h.sound.total, h.sound.budget⟩

/-- The index is the data itself, with one leaf for each byte. -/
def byteIndexer : Indexer (List UInt8) := ⟨some, List.length, fun data _ => some data⟩

/-- A reader has fetched when the block is written again, and another one starts after that. -/
def rewritten : System (Parts.new (List UInt8) 1 Nat.one_pos) :=
  run (step byteIndexer 2) start
    ([.write "b" [1], .task 0 0, .task 0 0, .task 0 0, .read "b" "tx", .task 1 0, .task 1 0,
      .task 1 0, .flight 0 true, .flight 0 true, .flight 0 true, .write "b" [1, 2], .task 2 0,
      .task 2 0, .task 2 0, .flight 0 true, .read "b" "tx", .task 3 0, .task 3 0, .task 3 0] ++
      replicate 4 (.flight 1 true))

/-- The first fill installs nothing, and the second one what was written last. -/
theorem never_stale_rewritten : rewritten.cache.indexes.lru.1 = [("b", ⟨[1, 2], 2⟩)] ∧
    rewritten.cache.indexes.total = 2 ∧ ∀ e, ("b", e) ∈ rewritten.cache.entries → 2 ≤ e.version := by
  refine ⟨by decide +kernel, by decide +kernel, fun e he => ?_⟩
  have hdone : rewritten.tasks[2]? = some (.writer "b" (.done 2)) := rfl
  exact (never_stale _ byteIndexer 2 _).1 "b" 2 e (mem_of_getElem? hdone) he

end System

end Arcade.BumpCache
