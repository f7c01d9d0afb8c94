import Arcade.Store.Access

/-!
`ForEachBlockProcessing`: every row of the block table at or above a height, newest first,
page by page.

The cursor is a height, and many rows may share one. A page that is followed by another is
therefore read again from its last height on, and a page that lies at one height as a whole
is read again with twice its size. Rows may be visited more than once.
-/

namespace Arcade.Store

open Lib List
open Prog (send)

variable {H Data α : Type}

/-! ## The loop -/

inductive PageEnd where
  | all | belowMin | failed (err : String)

/-- The rows of one page, which lie in descending order of height. -/
def visitPage (minHeight : Nat)
    (fn : α → String × BlockRow → Program H Data (α × Option String)) :
    List (String × BlockRow) → α → Program H Data (α × PageEnd)
  | [], a => pure (a, .all)
  | row :: rows, a =>
    if row.2.blockHeight < minHeight then pure (a, .belowMin)
    else do
      match ← fn a row with
      | (a, some err) => return (a, .failed err)
      | (a, none) => visitPage minHeight fn rows a

def forEachBlockProcessingMaxPage : Nat := 65536

def rowCapError (height limit : Nat) : String :=
  "block_processing height " ++ toString height ++ " has more than " ++ toString limit ++
    " rows; scan incomplete"

/-- The end of the loop: the error, if any. -/
inductive PagerEnd where
  | done
  | failed (err : String)
  /-- The rounds the model was given are used up. -/
  | running

/-- So many rounds of the loop. -/
def pagerLoop (minHeight : Nat) (fn : α → String × BlockRow → Program H Data (α × Option String)) :
    Nat → Nat → Nat → α → Program H Data (α × PagerEnd)
  | 0, _, _, a => pure (a, .running)
  | rounds + 1, before, limit, a => do
    match ← send (.listBlockProcessingStatus before limit) with
    | .error err => return (a, .failed err.text)
    | .ok rows =>
      match ← visitPage minHeight fn rows a with
      | (a, .failed err) => return (a, .failed err)
      | (a, .belowMin) => return (a, .done)
      | (a, .all) =>
        match rows.head?, rows.getLast? with
        | some first, some last =>
          if rows.length < limit then return (a, .done)
          else if first.2.blockHeight = last.2.blockHeight then
            if forEachBlockProcessingMaxPage ≤ limit then
              return (a, .failed (rowCapError last.2.blockHeight limit))
            else pagerLoop minHeight fn rounds before (2 * limit) a
          else if last.2.blockHeight = 0 then return (a, .done)
          else pagerLoop minHeight fn rounds (last.2.blockHeight + 1) limit a
        -- an empty page
        | _, _ => return (a, .done)

/-- The loop from its start, for a positive page size. -/
def forEachBlockProcessing (rounds minHeight pageSize : Nat)
    (fn : α → String × BlockRow → Program H Data (α × Option String)) (a : α) :
    Program H Data (α × PagerEnd) :=
  if pageSize = 0 then pure (a, .failed "pageSize must be > 0")
  else pagerLoop minHeight fn rounds 0 pageSize a

/-! ## A page -/

section Page

variable {rank : String → Nat} {before limit : Nat} {blocks : Blocks} {e e' : String × BlockRow}

theorem mem_rowsBelow : e ∈ rowsBelow before blocks ↔
    blocks.lookup e.1 = some e.2 ∧ (before = 0 ∨ e.2.blockHeight < before) := by
  rw [rowsBelow, mem_filter, decide_eq_true_eq]
  refine and_congr_left fun _ => ?_
  rw [AList.lookup, ← Option.mem_def, mem_dlookup_iff blocks.nodupKeys]
  constructor
  · intro h
    obtain ⟨⟨k, v⟩, hm, rfl⟩ := mem_map.mp h
    exact hm
  · intro h
    exact mem_map.mpr ⟨⟨e.1, e.2⟩, h, rfl⟩

theorem mem_rowsBelow_of_page (h : e ∈ blockPage rank before limit blocks) :
    e ∈ rowsBelow before blocks :=
  (mem_insertionSort _).mp (mem_of_mem_take h)

theorem sorted_rowsBelow (rank : String → Nat) (before : Nat) (blocks : Blocks) :
    ((rowsBelow before blocks).insertionSort (pageOrder rank · ·)).Pairwise fun a b =>
      b.2.blockHeight ≤ a.2.blockHeight := by
  have htotal : Std.Total (pageOrder rank · ·) := ⟨fun a b => by
    simp only [pageOrder, decide_eq_true_eq]
    omega⟩
  have htrans : IsTrans _ (pageOrder rank · ·) := ⟨fun a b c => by
    simp only [pageOrder, decide_eq_true_eq]
    omega⟩
  refine (pairwise_insertionSort _ _).imp fun hab => ?_
  simp only [pageOrder, decide_eq_true_eq] at hab
  omega

theorem blockPage_sorted : (blockPage rank before limit blocks).Pairwise fun a b =>
    b.2.blockHeight ≤ a.2.blockHeight :=
  (sorted_rowsBelow rank before blocks).sublist (take_sublist _ _)

theorem le_of_notMem_blockPage (hin : e' ∈ blockPage rank before limit blocks)
    (h : e ∈ rowsBelow before blocks) (hn : e ∉ blockPage rank before limit blocks) :
    e.2.blockHeight ≤ e'.2.blockHeight := by
  have hsorted := sorted_rowsBelow rank before blocks
  have hrow := (mem_insertionSort (pageOrder rank · ·)).mpr h
  rw [← take_append_drop limit (insertionSort _ _)] at hrow hsorted
  exact (pairwise_append.mp hsorted).2.2 e' hin e ((mem_append.mp hrow).resolve_left hn)

theorem mem_blockPage_of_short (hshort : (blockPage rank before limit blocks).length < limit)
    (h : e ∈ rowsBelow before blocks) : e ∈ blockPage rank before limit blocks := by
  rw [blockPage] at hshort ⊢
  rw [length_take] at hshort
  rw [take_of_length_le (by omega)]
  exact (mem_insertionSort _).mpr h

theorem le_first {first : String × BlockRow}
    (hfirst : (blockPage rank before limit blocks).head? = some first)
    (h : e ∈ blockPage rank before limit blocks) : e.2.blockHeight ≤ first.2.blockHeight := by
  have hsorted : (blockPage rank before limit blocks).Pairwise _ := blockPage_sorted
  cases hp : blockPage rank before limit blocks with
  | nil => simp [hp] at hfirst
  | cons x rest =>
    rw [hp] at hfirst h hsorted
    obtain rfl : x = first := Option.some.inj hfirst
    rcases mem_cons.mp h with rfl | h
    · exact le_refl _
    · exact (pairwise_cons.mp hsorted).1 e h

theorem last_le {last : String × BlockRow}
    (hlast : (blockPage rank before limit blocks).getLast? = some last)
    (h : e ∈ blockPage rank before limit blocks) : last.2.blockHeight ≤ e.2.blockHeight := by
  have hsorted : (blockPage rank before limit blocks).Pairwise _ := blockPage_sorted
  obtain ⟨init, hinit⟩ := getLast?_eq_some_iff.mp hlast
  rw [hinit] at h hsorted
  rcases mem_append.mp h with h | h
  · exact (pairwise_append.mp hsorted).2.2 e h last mem_cons_self
  · rw [mem_singleton.mp h]

theorem length_rowsBelow_lt {height : Nat} {first : String × BlockRow}
    (hf : first ∈ rowsBelow before blocks) (hh : height < first.2.blockHeight) :
    (rowsBelow (height + 1) blocks).length < (rowsBelow before blocks).length := by
  have hbound : height + 1 ≤ before ∨ before = 0 := by
    have := (mem_rowsBelow.mp hf).2
    omega
  unfold rowsBelow at hf ⊢
  generalize blocks.entries.map (fun e => (e.1, e.2)) = rows at hf
  have hfilter : (rows.filter fun e => height + 1 = 0 ∨ e.2.blockHeight < height + 1) =
      (rows.filter fun e => before = 0 ∨ e.2.blockHeight < before).filter
        fun e => e.2.blockHeight < height + 1 := by
    rw [filter_filter]
    refine filter_congr fun e _ => ?_
    rw [← Bool.decide_and, decide_eq_decide]
    omega
  rw [hfilter, length_filter_lt_length_iff_exists]
  exact ⟨first, hf, by simpa using Nat.succ_le_of_lt hh⟩

end Page

/-! ## The pages of a table -/

section Pages

variable (rank : String → Nat) (ranks : Set (String → Nat)) (blocks : Blocks)

/-- A page that is as long as it may be, by its first and last row. -/
structure FullPage (before limit : Nat) (first last : String × BlockRow) : Prop where
  first : (blockPage rank before limit blocks).head? = some first
  last : (blockPage rank before limit blocks).getLast? = some last
  full : limit ≤ (blockPage rank before limit blocks).length

/-- The page that follows a full one, by cursor and size: of twice the size, after a page at one
height, and from the last height on after any other. -/
inductive NextPage : Nat × Nat → Nat × Nat → Prop
  | grown {rank : String → Nat} {before limit : Nat} {first last : String × BlockRow}
      (hrank : rank ∈ ranks) (page : FullPage rank blocks before limit first last)
      (one : first.2.blockHeight = last.2.blockHeight) (more : limit < forEachBlockProcessingMaxPage) :
      NextPage (before, limit) (before, 2 * limit)
  | next {rank : String → Nat} {before limit : Nat} {first last : String × BlockRow}
      (hrank : rank ∈ ranks) (page : FullPage rank blocks before limit first last)
      (two : first.2.blockHeight ≠ last.2.blockHeight) (pos : last.2.blockHeight ≠ 0) :
      NextPage (before, limit) (last.2.blockHeight + 1, limit)

/-- A full page comes down from a positive height to height 0 and leaves out a row there. -/
def Splits (before limit : Nat) : Prop :=
  ∃ first last, FullPage rank blocks before limit first last ∧ 0 < first.2.blockHeight ∧
    last.2.blockHeight = 0 ∧ ∃ e ∈ rowsBelow before blocks, e ∉ blockPage rank before limit blocks

/-- No page from this one on splits height 0. -/
def Spared (page : Nat × Nat) : Prop :=
  ∀ page', Relation.ReflTransGen (NextPage ranks blocks) page page' →
    ∀ rank ∈ ranks, ¬Splits rank blocks page'.1 page'.2

variable {ranks blocks}

theorem Spared.next {page page' : Nat × Nat} (h : Spared ranks blocks page)
    (hnext : NextPage ranks blocks page page') : Spared ranks blocks page' :=
  fun _ hfrom => h _ (.head hnext hfrom)

end Pages

/-! ## Every row is visited -/

section Visits

variable {Ω σ : Type} {E : Env (Call H Data) Ω σ} {I : σ → Prop} {blocks : Blocks}
  {ranks : Set (String → Nat)} {minHeight : Nat} {fn : α → String × BlockRow → Program H Data (α × Option String)} {J : α → Prop}
  {F : String → Prop} {Seen : α → String × BlockRow → Prop}

/-- The table stays as it is during the walk, and a row that was visited counts as seen from
then on. The store ranks rows of equal height in one of the given ways. `F` is what is known of
the errors. -/
structure Visits (E : Env (Call H Data) Ω σ) (I : σ → Prop) (ranks : Set (String → Nat))
    (blocks : Blocks) (minHeight : Nat)
    (fn : α → String × BlockRow → Program H Data (α × Option String)) (J : α → Prop)
    (F : String → Prop) (Seen : α → String × BlockRow → Prop) : Prop where
  list : ∀ s o before limit, I s → E.ok s (.listBlockProcessingStatus before limit) o →
    I (E.exec o (.listBlockProcessingStatus before limit) s).2 ∧
      (∀ rows, (E.exec o (.listBlockProcessingStatus before limit) s).1 = .ok rows →
        ∃ rank ∈ ranks, rows = blockPage rank before limit blocks) ∧
      ∀ err, (E.exec o (.listBlockProcessingStatus before limit) s).1 = .error err → F err.text
  visit : ∀ a e s, I s → J a → blocks.lookup e.1 = some e.2 → minHeight ≤ e.2.blockHeight →
    Always E (fun _ => I) (fun r t => I t ∧ J r.1 ∧ (∀ e', Seen a e' → Seen r.1 e') ∧
      (r.2 = none → Seen r.1 e) ∧ ∀ err ∈ r.2, F err) (fn a e) s
  rowCap : ∀ height limit, F (rowCapError height limit)

/-- What the end of a page says about its rows. -/
def PageEnd.Covers (minHeight : Nat) (rows : List (String × BlockRow)) (F : String → Prop)
    (P : String × BlockRow → Prop) : PageEnd → Prop
  | .all => ∀ e ∈ rows, P e
  | .belowMin => (∀ e ∈ rows, minHeight ≤ e.2.blockHeight → P e) ∧
      ∃ e ∈ rows, e.2.blockHeight < minHeight
  | .failed err => F err

theorem always_visitPage (hv : Visits E I ranks blocks minHeight fn J F Seen)
    {rows : List (String × BlockRow)} {a : α} {s : σ} (hs : I s) (ha : J a)
    (hrows : ∀ e ∈ rows, blocks.lookup e.1 = some e.2)
    (hsorted : rows.Pairwise fun a b => b.2.blockHeight ≤ a.2.blockHeight) :
    Always E (fun _ => I) (fun r t => I t ∧ J r.1 ∧ (∀ e, Seen a e → Seen r.1 e) ∧
      r.2.Covers minHeight rows F (Seen r.1)) (visitPage minHeight fn rows a) s := by
  induction rows generalizing a s with
  | nil => exact ⟨hs, ha, fun _ h => h, nofun⟩
  | cons e rows ih =>
    obtain ⟨hlow, hsorted⟩ := pairwise_cons.mp hsorted
    unfold visitPage
    split
    · rename_i hbelow
      refine ⟨hs, ha, fun _ h => h, fun e' he' hmin => ?_, e, mem_cons_self, hbelow⟩
      rcases mem_cons.mp he' with rfl | he'
      · omega
      · have := hlow e' he'
        omega
    · rename_i hmin
      refine (hv.visit a e s hs ha (hrows e mem_cons_self) (not_lt.mp hmin)).bind ?_
      rintro ⟨a₁, err⟩ t ⟨ht, ha₁, hmono, hseen, hfailed⟩
      cases err with
      | some err => exact ⟨ht, ha₁, hmono, hfailed err rfl⟩
      | none =>
        refine (ih ht ha₁ (fun e' he' => hrows e' (mem_cons_of_mem _ he')) hsorted).imp ?_
        rintro ⟨a₂, how⟩ u ⟨hu, ha₂, hmono₂, hcovers⟩
        have hhead : Seen a₂ e := hmono₂ e (hseen rfl)
        refine ⟨hu, ha₂, fun e' he' => hmono₂ e' (hmono e' he'), ?_⟩
        cases how with
        | all => exact forall_mem_cons.mpr ⟨hhead, hcovers⟩
        | belowMin =>
          obtain ⟨hc, e', he', hb⟩ := hcovers
          exact ⟨forall_mem_cons.mpr ⟨fun _ => hhead, hc⟩, e', mem_cons_of_mem _ he', hb⟩
        | failed err => exact hcovers

/-- The rows below the cursor that the walk is for: those at height 0 only where no page
loses one. -/
def Wanted (ranks : Set (String → Nat)) (blocks : Blocks) (minHeight before limit : Nat)
    (e : String × BlockRow) : Prop :=
  e ∈ rowsBelow before blocks ∧ minHeight ≤ e.2.blockHeight ∧
    (0 < e.2.blockHeight ∨ Spared ranks blocks (before, limit))

/-- What the loop has done when it stops. -/
structure Walked (I : σ → Prop) (J : α → Prop) (F : String → Prop)
    (Seen : α → String × BlockRow → Prop) (ranks : Set (String → Nat)) (blocks : Blocks)
    (minHeight rounds before limit : Nat) (a : α) (r : α × PagerEnd) (t : σ) : Prop where
  state : I t
  acc : J r.1
  mono : ∀ e, Seen a e → Seen r.1 e
  failed : ∀ err, r.2 = .failed err → F err
  complete : r.2 = .done → ∀ e, Wanted ranks blocks minHeight before limit e → Seen r.1 e
  /-- A round for each row and each doubling of the page is enough. -/
  ends : (rowsBelow before blocks).length + (16 - limit.log2) < rounds → r.2 ≠ .running

theorem always_visitBlockPage (hv : Visits E I ranks blocks minHeight fn J F Seen)
    {rank : String → Nat} {before limit : Nat} {a : α} {s : σ} (hs : I s) (ha : J a) :
    Always E (fun _ => I) (fun r t => I t ∧ J r.1 ∧ (∀ e, Seen a e → Seen r.1 e) ∧
      r.2.Covers minHeight (blockPage rank before limit blocks) F (Seen r.1))
      (visitPage minHeight fn (blockPage rank before limit blocks) a) s :=
  always_visitPage hv hs ha (fun _ he => (mem_rowsBelow.mp (mem_rowsBelow_of_page he)).1)
    blockPage_sorted

theorem always_pagerLoop (hv : Visits E I ranks blocks minHeight fn J F Seen)
    (rounds before limit : Nat) {a : α} {s : σ} (hs : I s) (ha : J a) (hlimit : 0 < limit) :
    Always E (fun _ => I) (Walked I J F Seen ranks blocks minHeight rounds before limit a)
      (pagerLoop minHeight fn rounds before limit a) s := by
  induction rounds generalizing before limit a s with
  | zero => exact ⟨hs, ha, fun _ h => h, nofun, nofun, fun h => absurd h (by omega)⟩
  | succ rounds ih =>
    refine (always_bind s).mpr fun o ho => ?_
    obtain ⟨hs₁, hreply, herr⟩ := hv.list s o before limit hs ho
    refine ⟨hs₁, ?_⟩
    generalize (E.exec o (.listBlockProcessingStatus before limit) s).1 = reply at hreply herr
    cases reply with
    | error err =>
      refine ⟨hs₁, ha, fun _ h => h, ?_, nofun, nofun⟩
      rintro _ ⟨⟩
      exact herr err rfl
    | ok rows =>
      obtain ⟨rank, hrank, rfl⟩ := hreply rows rfl
      refine (always_visitBlockPage hv hs₁ ha).bind ?_
      rintro ⟨a₁, how⟩ s₂ ⟨hs₂, ha₁, hmono, hcovers⟩
      cases how with
      | failed err =>
        refine ⟨hs₂, ha₁, hmono, ?_, nofun, nofun⟩
        rintro _ ⟨⟩
        exact hcovers
      | belowMin =>
        obtain ⟨hin, low, hlow, hb⟩ := hcovers
        refine ⟨hs₂, ha₁, hmono, nofun, fun _ e hw => ?_, nofun⟩
        by_cases he : e ∈ blockPage rank before limit blocks
        · exact hin e he hw.2.1
        · have := le_of_notMem_blockPage hlow hw.1 he
          exact absurd hw.2.1 (by omega)
      | all =>
        simp only
        split
        · rename_i first last hfirst hlast
          have hlastMem : last ∈ blockPage rank before limit blocks := mem_of_getLast? hlast
          split
          · rename_i hshort
            exact ⟨hs₂, ha₁, hmono, nofun,
              fun _ e hw => hcovers e (mem_blockPage_of_short hshort hw.1), nofun⟩
          · rename_i hfull
            have hpage : FullPage rank blocks before limit first last :=
              ⟨hfirst, hlast, not_lt.mp hfull⟩
            split
            · rename_i hone
              split
              · refine ⟨hs₂, ha₁, hmono, ?_, nofun, nofun⟩
                rintro _ ⟨⟩
                exact hv.rowCap _ _
              · rename_i hmax
                have hmax : limit < forEachBlockProcessingMaxPage := not_le.mp hmax
                have hlog : limit.log2 < 16 := (Nat.log2_lt (by omega)).mpr hmax
                have hdouble : (2 * limit).log2 = limit.log2 + 1 := Nat.log2_two_mul (by omega)
                refine (ih before (2 * limit) hs₂ ha₁ (by omega)).imp fun r t hr => ?_
                refine ⟨hr.state, hr.acc, fun e he => hr.mono e (hmono e he), hr.failed,
                  fun hdone e hw => hr.complete hdone e ⟨hw.1, hw.2.1, ?_⟩, fun h => hr.ends (by omega)⟩
                exact hw.2.2.imp_right (·.next (.grown hrank hpage hone hmax))
            · rename_i htwo
              split
              · rename_i hlow
                refine ⟨hs₂, ha₁, hmono, nofun, fun _ e hw => ?_, nofun⟩
                by_cases hin : e ∈ blockPage rank before limit blocks
                · exact hcovers e hin
                -- a row that the last page leaves out lies at height 0, so the page is a split one
                · have hle := le_of_notMem_blockPage hlastMem hw.1 hin
                  have hspared := hw.2.2.resolve_left (by omega)
                  exact absurd ⟨first, last, hpage, by omega, hlow, e, hw.1, hin⟩
                    (hspared _ .refl rank hrank)
              · rename_i hpos
                refine (ih _ limit hs₂ ha₁ hlimit).imp fun r t hr => ?_
                refine ⟨hr.state, hr.acc, fun e he => hr.mono e (hmono e he), hr.failed,
                  fun hdone e hw => ?_, fun h => hr.ends ?_⟩
                -- what the page leaves out is at its last height or below
                · by_cases hin : e ∈ blockPage rank before limit blocks
                  · exact hr.mono e (hcovers e hin)
                  · have hle := le_of_notMem_blockPage hlastMem hw.1 hin
                    refine hr.complete hdone e ⟨mem_rowsBelow.mpr ?_, hw.2.1, ?_⟩
                    · exact ⟨(mem_rowsBelow.mp hw.1).1, .inr (by omega)⟩
                    · exact hw.2.2.imp_right (·.next (.next hrank hpage htwo hpos))
                · have hle := le_first hfirst hlastMem
                  have := length_rowsBelow_lt (mem_rowsBelow_of_page (mem_of_head? hfirst))
                    (by omega : last.2.blockHeight < _)
                  omega
        · rename_i hempty
          refine ⟨hs₂, ha₁, hmono, nofun,
            fun _ e hw => hcovers e (mem_blockPage_of_short ?_ hw.1), nofun⟩
          cases hp : blockPage rank before limit blocks with
          | nil => simpa using hlimit
          | cons first rest =>
            rw [hp] at hempty
            exact absurd rfl (hempty first _ rfl)

end Visits

/-! ## A table that nobody writes -/

section Static

/-- The store answers every call, and ranks rows of equal height in one way. -/
def faultless (H Data : Type) (rank : String → Nat) :
    Env (Call H Data) (Oracle H Data) (Tables Data) where
  exec o c s := s.exec o c
  ok _ _ o := o.fault = none ∧ o.rank = rank

/-- The callback notes its row, and never fails. -/
def noteRow (noted : List (String × BlockRow)) (e : String × BlockRow) :
    Program H Data (List (String × BlockRow) × Option String) := pure (noted ++ [e], none)

variable {rank : String → Nat} {s : Tables Data} {minHeight pageSize : Nat}

/-- The walk has ended, and unless it reports too many rows at one height, the callback was called
on the rows from the minimal height on and on no others. -/
def Noted (s : Tables Data) (minHeight : Nat) (r : List (String × BlockRow) × PagerEnd)
    (_ : Tables Data) : Prop :=
  (∃ height limit, r.2 = .failed (rowCapError height limit)) ∨
    r.2 = .done ∧ ∀ e, e ∈ r.1 ↔ s.blocks.lookup e.1 = some e.2 ∧ minHeight ≤ e.2.blockHeight

/-- The walk over the table ends and visits every row. -/
def Streamed (rank : String → Nat) (s : Tables Data) (minHeight pageSize : Nat) : Prop :=
  ∃ rounds, Yields (faultless H Data rank) (Noted s minHeight)
    (forEachBlockProcessing rounds minHeight pageSize noteRow []) s

theorem visits_noteRow :
    Visits (faultless H Data rank) (· = s) {rank} s.blocks minHeight noteRow
      (fun noted => ∀ e ∈ noted, s.blocks.lookup e.1 = some e.2 ∧ minHeight ≤ e.2.blockHeight)
      (fun err => ∃ height limit, err = rowCapError height limit) (fun noted e => e ∈ noted) := by
  refine ⟨fun t o before limit ht ho => ?_, fun noted e t ht hnoted he hmin => ?_,
    fun height limit => ⟨height, limit, rfl⟩⟩
  · obtain ⟨hf, hr⟩ : o.fault = none ∧ o.rank = rank := ho
    subst ht
    simp [faultless, Tables.exec, Tables.read, hf, hr]
  · refine ⟨ht, fun e' he' => ?_, fun e' he' => mem_append_left _ he', by simp, by simp⟩
    rcases mem_append.mp he' with he' | he'
    · exact hnoted e' he'
    · obtain rfl := mem_singleton.mp he'
      exact ⟨he, hmin⟩

theorem streamed_of_spared (h : 0 < minHeight ∨ Spared {rank} s.blocks (0, pageSize))
    (hsize : 0 < pageSize) :
    Streamed (H := H) rank s minHeight pageSize := by
  refine ⟨(rowsBelow 0 s.blocks).length + (16 - pageSize.log2) + 1, ?_⟩
  rw [forEachBlockProcessing, if_neg (by omega)]
  refine ((always_pagerLoop visits_noteRow _ 0 pageSize rfl (by simp) hsize).weaken
    fun _ _ _ => trivial).imp fun r t hr => ?_
  cases hend : r.2 with
  | running => exact absurd hend (hr.ends (by omega))
  | failed err =>
    obtain ⟨height, limit, rfl⟩ := hr.failed err hend
    exact .inl ⟨height, limit, hend⟩
  | done =>
    refine .inr ⟨hend, fun e => ⟨hr.acc e, fun ⟨he, hle⟩ => ?_⟩⟩
    exact hr.complete hend e
      ⟨mem_rowsBelow.mpr ⟨he, .inl rfl⟩, hle, h.imp_left fun hmin => by omega⟩

/-! ### A page that splits height 0 -/

theorem visitPage_noteRow (rows noted : List (String × BlockRow)) :
    visitPage 0 noteRow rows noted = (pure (noted ++ rows, .all) : Program H Data _) := by
  induction rows generalizing noted with
  | nil => simp [visitPage]
  | cons e rows ih =>
    rw [append_cons]
    exact ih (noted ++ [e])

variable {before limit : Nat} {first last : String × BlockRow}

theorem yields_after_page (page : FullPage rank s.blocks before limit first last) {rounds : Nat}
    {noted : List (String × BlockRow)}
    (h : Yields (faultless H Data rank) (Noted s 0) (pagerLoop 0 noteRow rounds before limit noted) s) :
    ∃ rounds, Yields (faultless H Data rank) (Noted s 0)
      (if first.2.blockHeight = last.2.blockHeight then
        if forEachBlockProcessingMaxPage ≤ limit then
          pure (noted ++ blockPage rank before limit s.blocks,
            .failed (rowCapError last.2.blockHeight limit))
        else pagerLoop 0 noteRow rounds before (2 * limit)
          (noted ++ blockPage rank before limit s.blocks)
      else if last.2.blockHeight = 0 then
        pure (noted ++ blockPage rank before limit s.blocks, .done)
      else pagerLoop 0 noteRow rounds (last.2.blockHeight + 1) limit
        (noted ++ blockPage rank before limit s.blocks)) s := by
  cases rounds with
  | zero =>
    rcases h with ⟨_, _, h⟩ | ⟨h, -⟩ <;> cases h
  | succ rounds =>
    refine ⟨rounds, ?_⟩
    have hreply := ((always_bind _).mp h ⟨0, none, [], .error "", .error "", true, rank⟩ ⟨rfl, rfl⟩).2
    rw [show (faultless H Data rank).exec _ (.listBlockProcessingStatus before limit) s =
      (.ok (blockPage rank before limit s.blocks), s) from rfl] at hreply
    simp only [visitPage_noteRow] at hreply
    dsimp only [bind, pure, Prog.bind] at hreply ⊢
    simp only [Always, page.first, page.last, if_neg (not_lt.mpr page.full)] at hreply
    exact hreply

/-- A walk that is to visit every row comes to each page of the table, and the rows that it has
noted on the way lie no lower than those that are left. -/
theorem yields_at_page (hsize : 0 < pageSize) (hstream : Streamed (H := H) rank s 0 pageSize)
    {page : Nat × Nat} (hat : Relation.ReflTransGen (NextPage {rank} s.blocks) (0, pageSize) page) :
    ∃ rounds noted, Yields (faultless H Data rank) (Noted s 0)
        (pagerLoop 0 noteRow rounds page.1 page.2 noted) s ∧
      ∀ e ∈ noted, ∀ e' ∈ rowsBelow page.1 s.blocks, e'.2.blockHeight ≤ e.2.blockHeight := by
  induction hat with
  | refl =>
    obtain ⟨rounds, h⟩ := hstream
    rw [forEachBlockProcessing, if_neg (by omega)] at h
    exact ⟨rounds, [], h, by simp⟩
  | tail _ hnext ih =>
    obtain ⟨_, noted, h, hnoted⟩ := ih
    cases hnext with
    | @grown rank' before limit _ _ hrank page one more =>
      obtain rfl : rank' = rank := hrank
      obtain ⟨rounds, h⟩ := yields_after_page page h
      rw [if_pos one, if_neg (by omega)] at h
      refine ⟨rounds, _, h, fun e he e' he' => ?_⟩
      rcases mem_append.mp he with he | he
      · exact hnoted e he e' he'
      · have hlow := last_le page.last he
        by_cases hin : e' ∈ blockPage rank' before limit s.blocks
        · have := le_first page.first hin
          omega
        · exact le_of_notMem_blockPage he he' hin
    | next hrank page two pos =>
      obtain rfl : _ = rank := hrank
      obtain ⟨rounds, h⟩ := yields_after_page page h
      rw [if_neg two, if_neg pos] at h
      refine ⟨rounds, _, h, fun e he e' he' => ?_⟩
      obtain ⟨hrow, hbelow⟩ := mem_rowsBelow.mp he'
      rcases mem_append.mp he with he | he
      · have := hnoted e he _ (mem_rowsBelow_of_page (mem_of_getLast? page.last))
        omega
      · have := last_le page.last he
        omega

/-- A page that splits height 0 ends the walk, and a row is lost. -/
theorem spared_of_streamed (hsize : 0 < pageSize) (hstream : Streamed (H := H) rank s 0 pageSize) :
    Spared {rank} s.blocks (0, pageSize) := by
  rintro page hat _ rfl ⟨first, last, hpage, hpos, hzero, e, he, hlost⟩
  obtain ⟨_, noted, h, hnoted⟩ := yields_at_page hsize hstream hat
  obtain ⟨_, h⟩ := yields_after_page hpage h
  rw [if_neg (by omega), if_pos hzero] at h
  have hlow : e.2.blockHeight = 0 := by
    have := le_of_notMem_blockPage (mem_of_getLast? hpage.last) he hlost
    omega
  rcases h with ⟨_, _, h⟩ | ⟨-, h⟩
  · cases h
  · rcases mem_append.mp ((h e).mpr ⟨(mem_rowsBelow.mp he).1, Nat.zero_le _⟩) with hin | hin
    · have := hnoted e hin first (mem_rowsBelow_of_page (mem_of_head? hpage.first))
      omega
    · exact hlost hin

/-- The block pager visits every row of a table, or reports too many rows at one height, exactly
if it is not asked for the rows at height 0 or none of the table's pages splits that height. -/
theorem forEachBlockProcessing_streamed_iff (rank : String → Nat) (s : Tables Data)
    (minHeight : Nat) (hsize : 0 < pageSize) :
    Streamed (H := H) rank s minHeight pageSize ↔
      0 < minHeight ∨ Spared {rank} s.blocks (0, pageSize) := by
  refine ⟨fun hstream => ?_, fun h => streamed_of_spared h hsize⟩
  rcases Nat.eq_zero_or_pos minHeight with rfl | hmin
  · exact .inr (spared_of_streamed hsize hstream)
  · exact .inl hmin

/-- A table with a row for each height, under the hashes `a`, `b`, `c`. -/
def bareTable (Data : Type) (a b c : Nat) : Tables Data :=
  { blocks := ((AList.singleton "a" ⟨a, 0, 0, 0, .active, 0, 0⟩).insert "b"
      ⟨b, 0, 0, 0, .active, 0, 0⟩).insert "c" ⟨c, 0, 0, 0, .active, 0, 0⟩
    expected := ∅, bumps := ∅, stumps := ∅, txs := ∅, published := [] }

/-- With heights 2, 1 and 1 no page comes down to height 0. -/
theorem streamed_aboveZero : Streamed (H := Unit) (fun _ => 0) (bareTable Unit 1 1 2) 0 2 := by
  refine (forEachBlockProcessing_streamed_iff _ _ 0 (by decide)).mpr (.inr ?_)
  rintro page - _ - ⟨first, last, hpage, -, hzero, -⟩
  have hpos : ∀ e ∈ (bareTable Unit 1 1 2).blocks.entries, e.2.blockHeight ≠ 0 := by decide
  have hmem := mem_of_mem_filter (mem_rowsBelow_of_page (mem_of_getLast? hpage.last))
  obtain ⟨e, he, rfl⟩ := mem_map.mp hmem
  exact hpos e he hzero

/-- With heights 1, 0 and 0 the first page starts above height 0 and ends at it, and the walk
ends with it. -/
theorem twoAtZero_not_streamed :
    ¬Streamed (H := Unit) (fun _ => 0) (bareTable Unit 0 0 1) 0 2 := by
  refine fun hstream => spared_of_streamed (by decide) hstream _ .refl _ rfl
    ⟨("c", ⟨1, 0, 0, 0, .active, 0, 0⟩), ("b", ⟨0, 0, 0, 0, .active, 0, 0⟩),
      ⟨by decide +kernel, by decide +kernel, by decide +kernel⟩, by decide, rfl,
      ("a", ⟨0, 0, 0, 0, .active, 0, 0⟩), by decide +kernel, by decide +kernel⟩

end Static

end Arcade.Store
