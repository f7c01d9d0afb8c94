import Arcade.Store.TxRows

/-!
The replay of a reconnecting client.

`connectCatchup` reads the `Last-Event-ID` header as nanoseconds and has `sendCatchup` replay the
rows of the token. `IterateStatusesByToken` selects the rows stamped after that moment, oldest
first; `timestamp_at` is kept in microseconds. The pass stops when its frame budget is spent, but
not between two rows of one timestamp.
-/

namespace Arcade.Sse

open Lib List
open Propagation (Status)
open Store (TxRow)

/-! ## The header -/

def digits (cs : List Char) : Option Nat :=
  if cs ≠ [] ∧ cs.all Char.isDigit then some (Nat.ofDigitChars 10 cs 0) else none

/-- `strconv.ParseInt(s, 10, 64)`; `none` is an error. -/
def parseInt64 (s : String) : Option Int :=
  match s.toList with
  | '-' :: cs => (digits cs).bind fun n => if n ≤ 2 ^ 63 then some (-n) else none
  | '+' :: cs => (digits cs).bind fun n => if n < 2 ^ 63 then some n else none
  | cs => (digits cs).bind fun n => if n < 2 ^ 63 then some n else none

theorem parseInt64_toString {n : Nat} (h : n < 2 ^ 63) :
    parseInt64 (toString n) = some (n : Int) := by
  have hlist : (toString n).toList = Nat.toDigits 10 n := Nat.toList_repr
  have hdigit : ∀ c ∈ Nat.toDigits 10 n, c.isDigit = true := fun c hc =>
    Nat.isDigit_of_mem_toDigits (by omega) (by omega) hc
  have hdigits : digits (Nat.toDigits 10 n) = some n := by
    unfold digits
    rw [if_pos ⟨Nat.toDigits_ne_nil, all_eq_true.mpr hdigit⟩,
      Nat.ofDigitChars_toDigits (by omega) (by omega)]
  unfold parseInt64
  rw [hlist]
  -- no digit is a sign
  split
  · rename_i cs hcs
    exact absurd (hdigit '-' (by simp [hcs])) (by decide)
  · rename_i cs hcs
    exact absurd (hdigit '+' (by simp [hcs])) (by decide)
  · rw [hdigits, Option.bind_some, if_pos h]

/-! ## The query -/

/-- A row of `transactions`. `timestampAt` is in microseconds, and `written` is the number of the
statement that wrote the status last. -/
structure StatusRow where
  row : TxRow
  timestampAt : Nat
  written : Nat

abbrev StatusRows := GoMap String StatusRow

/-- The txids and the callback tokens they were submitted under. -/
abbrev Submissions := List (String × String)

/-- The columns that `IterateStatusesByToken` reads. -/
structure Projection where
  txid : String
  status : Status
  timestampAt : Nat
  blockHash : String
  blockHeight : Nat

def project (txid : String) (r : StatusRow) : Projection :=
  ⟨txid, r.row.status, r.timestampAt, r.row.blockHash, r.row.blockHeight⟩

/-- A moment as the database has it. -/
def micros (ns : Int) : Int := ns / 1000

/-- The WHERE clause of `IterateStatusesByToken`. -/
def selects (submissions : Submissions) (token : String) (since : Option Int) (only : List Status)
    (p : Projection) : Bool :=
  decide ((p.txid, token) ∈ submissions) && since.all (fun ns => micros ns < p.timestampAt) &&
    (only.isEmpty || p.status ∈ only)

def selected (rows : StatusRows) (submissions : Submissions) (token : String)
    (since : Option Int) (only : List Status) : List Projection :=
  (rows.entries.map fun e => project e.1 e.2).filter (selects submissions token since only)

/-- ORDER BY `timestamp_at`: the order of rows with one timestamp is the database's. -/
structure RowOrder where
  order : List Projection → List Projection
  perm : ∀ ps, (order ps).Perm ps
  ascending : ∀ ps, (order ps).Pairwise (·.timestampAt ≤ ·.timestampAt)

def RowOrder.stable : RowOrder where
  order := List.insertionSort (·.timestampAt ≤ ·.timestampAt)
  perm := perm_insertionSort _
  ascending ps := by
    have : Std.Total (fun p q : Projection => p.timestampAt ≤ q.timestampAt) :=
      ⟨fun p q => le_total p.timestampAt q.timestampAt⟩
    have : IsTrans Projection (fun p q => p.timestampAt ≤ q.timestampAt) :=
      ⟨fun _ _ _ => le_trans⟩
    exact pairwise_insertionSort _ ps

/-! ## The pass -/

def catchupMaxFrames : Nat := 10000

def catchupBlockBudget : Nat := 64

/-- What becomes of the query and of the writes to the client: after how many rows the query
fails, whether a frame is written, and whether a gap frame is. -/
structure Link where
  queryFails : Option Nat
  writes : Nat → Bool
  writesGap : Bool

def Link.fine : Link := ⟨none, fun _ => true, true⟩

/-- A status frame; `enriched` when the proof of the block was asked for. -/
structure Frame where
  row : Projection
  enriched : Bool

/-- The `id` line, in nanoseconds. -/
def Frame.id (f : Frame) : Nat := f.row.timestampAt * 1000

inductive Failure where
  | query | write
  deriving DecidableEq

structure Gap where
  reason : String
  since : Int
  count : Nat

/-- `catchupResult`, with the frames themselves. -/
structure CatchupResult where
  frames : List Frame
  lastTS : Nat
  capped : Bool
  err : Option Failure
  enrichedBlocks : List String

def CatchupResult.start : CatchupResult := ⟨[], 0, false, none, []⟩

/-- The proof of a mined row is asked for while the budget of blocks lasts. -/
def enriches (enrichedBlocks : List String) (p : Projection) : Bool :=
  (p.status = .mined || p.status = .immutable) && p.blockHash ≠ "" &&
    (p.blockHash ∈ enrichedBlocks || enrichedBlocks.length < catchupBlockBudget)

def CatchupResult.push (res : CatchupResult) (p : Projection) : CatchupResult :=
  let enriched := enriches res.enrichedBlocks p
  { res with
    frames := res.frames ++ [⟨p, enriched⟩]
    lastTS := p.timestampAt * 1000
    enrichedBlocks := if enriched then res.enrichedBlocks.insert p.blockHash
      else res.enrichedBlocks }

/-- The callback of `sendCatchup` over the rows. -/
def sendRows (link : Link) (maxFrames : Nat) : CatchupResult → List Projection → CatchupResult
  | res, [] => res
  | res, p :: ps =>
    if maxFrames ≤ res.frames.length ∧ p.timestampAt * 1000 ≠ res.lastTS then
      { res with capped := true }
    else if link.writes res.frames.length then sendRows link maxFrames (res.push p) ps
    else { res with err := some .write }

/-- The iteration; an error of the query comes after the rows it has given. -/
def iterate (link : Link) (maxFrames : Nat) (ps : List Projection) : CatchupResult :=
  match link.queryFails with
  | none => sendRows link maxFrames .start ps
  | some n =>
    let res := sendRows link maxFrames .start (ps.take n)
    if res.capped ∨ res.err ≠ none then res else { res with err := some .query }

def nonTerminalStatuses : List Status :=
  [.received, .sentToNetwork, .acceptedByNetwork, .seenOnNetwork, .seenMultipleNodes,
    .pendingRetry, .stumpProcessing]

/-- A first connect is told what is still pending. -/
def onlyStatuses (since : Option Int) : List Status :=
  match since with
  | none => nonTerminalStatuses
  | some _ => []

/-- The frames of a pass, and the gap frame when it was cut short. -/
def sendCatchup (rows : StatusRows) (submissions : Submissions) (order : RowOrder) (link : Link)
    (token : String) (since : Option Int) (midstream : Bool) (maxFrames : Nat) :
    CatchupResult × Option Gap :=
  let res := iterate link maxFrames
    (order.order (selected rows submissions token since (onlyStatuses since)))
  if res.capped ∧ ¬ midstream then
    if link.writesGap then
      (res, some ⟨"catchup_truncated", res.lastTS, res.frames.length⟩)
    else ({ res with err := some .write }, none)
  else (res, none)

structure Connect where
  result : CatchupResult
  gap : Option Gap
  writable : Bool

def connectCatchup (rows : StatusRows) (submissions : Submissions) (order : RowOrder)
    (link : Link) (token lastEventID : String) : Connect :=
  let since := if lastEventID = "" then none else parseInt64 lastEventID
  match sendCatchup rows submissions order link token since false catchupMaxFrames with
  | (res, gap) =>
    match res.err with
    | some .write => ⟨res, gap, false⟩
    | none => ⟨res, gap, true⟩
    | some .query =>
      if link.writesGap then ⟨res, some ⟨"replay_unavailable", since.getD 0, 0⟩, true⟩
      else ⟨res, gap, false⟩

/-! ## What a pass sends -/

variable {submissions : Submissions} {rows : StatusRows} {p : Projection} {token : String}
  {ps : List Projection} {link : Link} {maxFrames : Nat} {f : Frame}

theorem mem_selected {since : Option Int} {only : List Status} :
    p ∈ selected rows submissions token since only ↔
      (∃ txid r, rows.lookup txid = some r ∧ project txid r = p) ∧
        selects submissions token since only p = true := by
  unfold selected
  rw [mem_filter, mem_map]
  constructor
  · rintro ⟨⟨⟨txid, r⟩, he, rfl⟩, hsel⟩
    exact ⟨⟨txid, r, AList.mem_lookup_iff.mpr he, rfl⟩, hsel⟩
  · rintro ⟨⟨txid, r, hlook, rfl⟩, hsel⟩
    exact ⟨⟨⟨txid, r⟩, AList.mem_lookup_iff.mp hlook, rfl⟩, hsel⟩

theorem sendRows_rows (link : Link) (maxFrames : Nat) (res : CatchupResult) (ps : List Projection) :
    ∃ done, done <+: ps ∧
      (sendRows link maxFrames res ps).frames.map Frame.row = res.frames.map Frame.row ++ done ∧
      ((sendRows link maxFrames res ps).capped = false →
        (sendRows link maxFrames res ps).err = none → done = ps) := by
  induction ps generalizing res with
  | nil => exact ⟨[], prefix_rfl, by simp [sendRows], fun _ _ => rfl⟩
  | cons p ps ih =>
    simp only [sendRows]
    split
    · exact ⟨[], nil_prefix, by simp, by simp⟩
    · split
      · obtain ⟨done, hdone, hframes, hall⟩ := ih (res.push p)
        refine ⟨p :: done, ?_, ?_, ?_⟩
        · exact (prefix_cons_inj p).mpr hdone
        · rw [hframes]
          simp [CatchupResult.push]
        · intro hcapped herr
          rw [hall hcapped herr]
      · exact ⟨[], nil_prefix, by simp, by simp⟩

theorem mem_of_sendRows (hf : f ∈ (sendRows link maxFrames .start ps).frames) : f.row ∈ ps := by
  obtain ⟨done, hdone, hframes, -⟩ := sendRows_rows link maxFrames .start ps
  apply hdone.subset
  rw [CatchupResult.start, map_nil, nil_append] at hframes
  rw [← hframes]
  exact mem_map_of_mem hf

theorem mem_of_iterate (hf : f ∈ (iterate link maxFrames ps).frames) : f.row ∈ ps := by
  unfold iterate at hf
  split at hf
  · exact mem_of_sendRows hf
  · rename_i n _
    apply mem_of_mem_take (i := n)
    simp only at hf
    split at hf
    · exact mem_of_sendRows hf
    · exact mem_of_sendRows hf

theorem sendCatchup_eq (rows : StatusRows) (submissions : Submissions) (order : RowOrder)
    (link : Link) (token : String) (since : Option Int) (midstream : Bool) (maxFrames : Nat) :
    let pass := iterate link maxFrames
      (order.order (selected rows submissions token since (onlyStatuses since)))
    let result := (sendCatchup rows submissions order link token since midstream maxFrames).1
    result = pass ∨ pass.capped = true ∧ result = { pass with err := some .write } := by
  simp only [sendCatchup]
  split
  · rename_i hcapped
    split
    · exact .inl rfl
    · exact .inr ⟨hcapped.1, rfl⟩
  · exact .inl rfl

theorem mem_of_sendCatchup {order : RowOrder} {since : Option Int} {midstream : Bool}
    (hf : f ∈ (sendCatchup rows submissions order link token since midstream maxFrames).1.frames) :
    f.row ∈ selected rows submissions token since (onlyStatuses since) := by
  apply (order.perm _).mem_iff.mp
  rcases sendCatchup_eq rows submissions order link token since midstream maxFrames with
    h | ⟨-, h⟩
  · rw [h] at hf
    exact mem_of_iterate hf
  · rw [h] at hf
    exact mem_of_iterate hf

theorem none_before {q : Projection} (hhead : ∀ r ∈ ps, p.timestampAt ≤ r.timestampAt)
    (h : q.timestampAt ≤ p.timestampAt) :
    ((p :: ps).filter fun r => r.timestampAt < q.timestampAt) = [] := by
  apply filter_eq_nil_iff.mpr
  intro r hr
  have hle : p.timestampAt ≤ r.timestampAt := by
    rcases mem_cons.mp hr with rfl | hr
    · exact le_refl _
    · exact hhead r hr
  simp only [decide_eq_true_eq]
  omega

/-- Where a pass without error is cut: at a row that has a full budget of rows stamped before it.
The rows sent so far count towards the budget of a row that is stamped after them. -/
theorem sendRows_capped_iff (hmax : 0 < maxFrames) {res : CatchupResult}
    (hstart : res.capped = false) (hsorted : ps.Pairwise (·.timestampAt ≤ ·.timestampAt))
    (hlast : ∀ p ∈ ps, res.lastTS ≤ p.timestampAt * 1000)
    (herr : (sendRows link maxFrames res ps).err = none) :
    (sendRows link maxFrames res ps).capped = true ↔
      ∃ p ∈ ps, (res.frames = [] ∨ res.lastTS < p.timestampAt * 1000) ∧
        maxFrames ≤ res.frames.length +
          (ps.filter fun q => q.timestampAt < p.timestampAt).length := by
  induction ps generalizing res with
  | nil => simp [sendRows, hstart]
  | cons p ps ih =>
    obtain ⟨hhead, htail⟩ := pairwise_cons.mp hsorted
    have hp := hlast p (mem_cons_self ..)
    simp only [sendRows] at herr ⊢
    split
    · simp only [true_iff]
      refine ⟨p, mem_cons_self .., ?_, by omega⟩
      right
      omega
    · rename_i hcut
      rw [if_neg hcut] at herr
      split
      · rename_i hwrites
        rw [if_pos hwrites] at herr
        have hnext := @ih (res.push p) hstart htail
          (fun q hq => Nat.mul_le_mul_right 1000 (hhead q hq)) herr
        rw [hnext]
        constructor
        · rintro ⟨q, hq, hafter, hcount⟩
          have hlt : p.timestampAt < q.timestampAt := by
            rcases hafter with h | h
            · simp [CatchupResult.push] at h
            · exact Nat.lt_of_mul_lt_mul_right h
          refine ⟨q, mem_cons_of_mem _ hq, .inr (by omega), ?_⟩
          rw [filter_cons_of_pos (by simpa using hlt)]
          simp only [CatchupResult.push, length_append, length_cons, length_nil] at hcount ⊢
          omega
        · rintro ⟨q, hq, hafter, hcount⟩
          -- with nothing stamped before `q`, the pass would have been cut at `p`
          have hlt : p.timestampAt < q.timestampAt := by
            by_contra hnot
            rw [none_before hhead (by omega), length_nil, Nat.add_zero] at hcount
            apply hcut
            rcases hafter with h | h
            · rw [h] at hcount
              simp at hcount
              omega
            · exact ⟨hcount, by omega⟩
          rcases mem_cons.mp hq with rfl | hq
          · omega
          · refine ⟨q, hq, .inr ?_, ?_⟩
            · exact Nat.mul_lt_mul_of_pos_right hlt (by omega)
            · rw [filter_cons_of_pos (by simpa using hlt)] at hcount
              simp only [CatchupResult.push, length_append, length_cons, length_nil] at hcount ⊢
              omega
      · rename_i hwrites
        rw [if_neg hwrites] at herr
        cases herr

/-! ## The replay after a frame -/

/-- A row has a full budget of rows stamped before it. -/
def Overfull (ps : List Projection) : Prop :=
  ∃ p ∈ ps, catchupMaxFrames ≤ (ps.filter fun q => q.timestampAt < p.timestampAt).length

theorem overfull_perm {qs : List Projection} (h : ps.Perm qs) : Overfull ps ↔ Overfull qs := by
  constructor
  · rintro ⟨p, hp, hcount⟩
    exact ⟨p, h.mem_iff.mp hp, by rwa [← (h.filter _).length_eq]⟩
  · rintro ⟨p, hp, hcount⟩
    exact ⟨p, h.mem_iff.mpr hp, by rwa [(h.filter _).length_eq]⟩

theorem iterate_capped_iff (hsorted : ps.Pairwise (·.timestampAt ≤ ·.timestampAt))
    (hquery : link.queryFails = none) (herr : (iterate link catchupMaxFrames ps).err = none) :
    (iterate link catchupMaxFrames ps).capped = true ↔ Overfull ps := by
  unfold iterate at herr ⊢
  simp only [hquery] at herr ⊢
  rw [sendRows_capped_iff (by decide) rfl hsorted (fun _ _ => Nat.zero_le _) herr]
  simp [CatchupResult.start, Overfull]

theorem iterate_rows (hcapped : (iterate link catchupMaxFrames ps).capped = false)
    (herr : (iterate link catchupMaxFrames ps).err = none) :
    link.queryFails = none ∧ (iterate link catchupMaxFrames ps).frames.map Frame.row = ps := by
  unfold iterate at hcapped herr ⊢
  cases hquery : link.queryFails with
  | none =>
    simp only [hquery] at hcapped herr ⊢
    obtain ⟨done, -, hframes, hall⟩ := sendRows_rows link catchupMaxFrames .start ps
    refine ⟨trivial, ?_⟩
    rw [hframes, hall hcapped herr]
    simp [CatchupResult.start]
  | some n =>
    simp only [hquery] at hcapped herr
    split at herr
    · rename_i hstop
      rw [if_pos hstop] at hcapped
      simp [hcapped, herr] at hstop
    · cases herr

theorem sendRows_fine_err (maxFrames : Nat) {res : CatchupResult} (h : res.err = none)
    (ps : List Projection) : (sendRows .fine maxFrames res ps).err = none := by
  induction ps generalizing res with
  | nil => exact h
  | cons p ps ih =>
    simp only [sendRows]
    split
    · exact h
    · exact ih h

/-- The rows that the replay after a frame reads. -/
def missed (rows : StatusRows) (submissions : Submissions) (token : String) (id : Nat) :
    List Projection :=
  selected rows submissions token (some id) []

theorem mem_missed {id : Nat} : p ∈ missed rows submissions token id ↔
      (∃ txid r, rows.lookup txid = some r ∧ project txid r = p) ∧
        (p.txid, token) ∈ submissions ∧ id / 1000 < p.timestampAt := by
  unfold missed
  rw [mem_selected]
  have hmicros : micros (id : Int) < (p.timestampAt : Int) ↔ id / 1000 < p.timestampAt := by
    unfold micros
    omega
  simp [selects, hmicros]

section Connect

variable (rows : StatusRows) (submissions : Submissions) (order : RowOrder) (link : Link)
  (token : String) {id : Nat}

theorem connectCatchup_result (hid : id < 2 ^ 63) :
    let pass := iterate link catchupMaxFrames (order.order (missed rows submissions token id))
    let result := (connectCatchup rows submissions order link token (toString id)).result
    result = pass ∨ pass.capped = true ∧ result = { pass with err := some .write } := by
  have hne : toString id ≠ "" := by
    intro h
    have := congrArg String.toList h
    rw [show (toString id).toList = Nat.toDigits 10 id from Nat.toList_repr] at this
    exact Nat.toDigits_ne_nil this
  have hsend : (connectCatchup rows submissions order link token (toString id)).result =
      (sendCatchup rows submissions order link token (some id) false catchupMaxFrames).1 := by
    unfold connectCatchup
    rw [if_neg hne, parseInt64_toString hid]
    simp only
    split
    · rfl
    · rfl
    · split <;> rfl
  simp only [hsend]
  exact sendCatchup_eq rows submissions order link token (some id) false catchupMaxFrames

theorem connectCatchup_sends (hid : id < 2 ^ 63)
    (hcapped : (connectCatchup rows submissions order link token (toString id)).result.capped
      = false)
    (herr : (connectCatchup rows submissions order link token (toString id)).result.err = none) :
    ¬ Overfull (missed rows submissions token id) ∧ ∀ p, p ∈ missed rows submissions token id ↔
        ∃ f ∈ (connectCatchup rows submissions order link token (toString id)).result.frames,
          f.row = p := by
  rcases connectCatchup_result rows submissions order link token hid with h | ⟨-, h⟩
  · rw [h] at hcapped herr ⊢
    obtain ⟨hquery, hframes⟩ := iterate_rows hcapped herr
    constructor
    · rw [← overfull_perm (order.perm _), ← iterate_capped_iff (order.ascending _) hquery herr,
        hcapped]
      simp
    · intro p
      have hmem := (order.perm (missed rows submissions token id)).mem_iff (a := p)
      rw [← hmem, ← mem_map, hframes]
  · rw [h] at herr
    cases herr

theorem connectCatchup_fine (hid : id < 2 ^ 63)
    (hfull : ¬ Overfull (missed rows submissions token id)) :
    (connectCatchup rows submissions order .fine token (toString id)).result.capped = false ∧
      (connectCatchup rows submissions order .fine token (toString id)).result.err = none := by
  have herr : (iterate .fine catchupMaxFrames
      (order.order (missed rows submissions token id))).err = none :=
    sendRows_fine_err catchupMaxFrames rfl _
  have hcapped : (iterate .fine catchupMaxFrames
      (order.order (missed rows submissions token id))).capped = false := by
    rw [← overfull_perm (order.perm _), ← iterate_capped_iff (order.ascending _) rfl herr] at hfull
    simpa using hfull
  rcases connectCatchup_result rows submissions order .fine token hid with h | ⟨hc, -⟩
  · rw [h]
    exact ⟨hcapped, herr⟩
  · rw [hcapped] at hc
    cases hc

end Connect

end Arcade.Sse
