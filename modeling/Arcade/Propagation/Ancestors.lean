import Arcade.Lib.Generations
import Arcade.Propagation.Reaper

/-!
`rejectedAncestor`: the search for a rejected ancestor of a message, generation by generation
through the rows of arcade's own store. It climbs only through ancestors that have no verdict yet.
-/

namespace Arcade.Propagation

open Lib List

/-- The fields of an ancestor's row that the walk reads. -/
structure AncestorRow where
  status : Status
  rawTx : List UInt8

/-- The walk within a generation: the ids seen, the next generation, and the rows read. -/
structure Climb where
  visited : List String
  next : List String := []
  reads : List String := []

def maxAncestorWalkDepth : Nat := 8

section Search

variable (getStatus : String → Option AncestorRow) (parse : List UInt8 → Option (List String))

def Climb.mark (c : Climb) (ancestor : String) : Climb :=
  { c with visited := c.visited ++ [ancestor], reads := c.reads ++ [ancestor] }

/-- The loop over one generation; it stops at the first rejected ancestor. -/
def visitAncestors : List String → Climb → Climb × Option String
  | [], c => (c, none)
  | ancestor :: rest, c =>
    if ancestor = "" then visitAncestors rest c
    else if ancestor ∈ c.visited then visitAncestors rest c
    else match getStatus ancestor with
      | none => visitAncestors rest (c.mark ancestor)
      | some row =>
        if row.status = .rejected then (c.mark ancestor, some ancestor)
        else if row.status ≠ .pendingRetry ∧ row.status ≠ .received then
          visitAncestors rest (c.mark ancestor)
        else if row.rawTx.length = 0 then visitAncestors rest (c.mark ancestor)
        else visitAncestors rest { c.mark ancestor with
          next := c.next ++ parentTxIDsOf parse
            { txid := ancestor, rawTx := row.rawTx, inputTXIDs := [] } }

/-- The loop over the generations, with the number of them that are left. -/
def climbAncestors : Nat → List String → Climb → Option String × List String
  | 0, _, c => (none, c.reads)
  | depth + 1, frontier, c =>
    if frontier.length = 0 then (none, c.reads)
    else match visitAncestors getStatus parse frontier { c with next := [] } with
      | (c, some ancestor) => (some ancestor, c.reads)
      | (c, none) => climbAncestors depth c.next c

/-- `rejectedAncestor`, with the ids whose rows it read. -/
def rejectedAncestor (msg : PropagationMsg) : Option String × List String :=
  climbAncestors getStatus parse maxAncestorWalkDepth (parentTxIDsOf parse msg)
    { visited := [msg.txid] }

def unresolvedParents (a : String) : List String :=
  match getStatus a with
  | none => []
  | some row =>
    if (row.status = .received ∨ row.status = .pendingRetry) ∧ row.rawTx ≠ [] then
      parentTxIDsOf parse { txid := a, rawTx := row.rawTx, inputTXIDs := [] }
    else []

/-- The paths of parent links from `msg` through unresolved rows, to rejected ones. -/
def ancestry (usable : String → Prop) (msg : PropagationMsg) : Ancestry String where
  start := parentTxIDsOf parse msg
  links := unresolvedParents getStatus parse
  usable := usable
  target a := (getStatus a).any (·.status = .rejected)

/-- An id that the search follows. -/
def Usable (msg : PropagationMsg) (a : String) : Prop := a ≠ "" ∧ a ≠ msg.txid

abbrev lineage (msg : PropagationMsg) : Ancestry String := ancestry getStatus parse (Usable msg) msg

end Search

variable {getStatus : String → Option AncestorRow} {parse : List UInt8 → Option (List String)}
  {msg : PropagationMsg}

/-! ## One generation -/

variable {c : Climb} {frontier : List String}

theorem visitAncestors_cons {a : String} {rest : List String} (ha : a ≠ "") (hnew : a ∉ c.visited) :
    visitAncestors getStatus parse (a :: rest) c =
      if (getStatus a).any (·.status = .rejected) then (c.mark a, some a)
      else visitAncestors getStatus parse rest
        { c.mark a with next := c.next ++ unresolvedParents getStatus parse a } := by
  rw [visitAncestors, if_neg ha, if_neg hnew, unresolvedParents]
  cases hrow : getStatus a with
  | none => simp [Climb.mark]
  | some row =>
    by_cases hrej : row.status = .rejected
    · simp [hrej]
    · by_cases hraw : row.rawTx = []
      · simp [hrej, hraw, Climb.mark]
      · by_cases hopen : row.status = .received ∨ row.status = .pendingRetry
        · rcases hopen with h | h <;> simp [h, hraw]
        · obtain ⟨h, h'⟩ := not_or.mp hopen
          simp [hrej, h, h', Climb.mark]

/-- Beside the message itself, the ids seen are those that were read, each once. -/
structure Climb.ReadsOnce (msg : PropagationMsg) (c : Climb) : Prop where
  visited : c.visited = msg.txid :: c.reads
  nodup : c.visited.Nodup

theorem Climb.ReadsOnce.mark (hc : c.ReadsOnce msg) {a : String} (ha : a ∉ c.visited)
    (next : List String) : Climb.ReadsOnce msg { c.mark a with next := next } :=
  ⟨by simp [Climb.mark, hc.visited], nodup_append.mpr ⟨hc.nodup, nodup_singleton a,
    fun x hx y hy hxy => ha (by rwa [← mem_singleton.mp hy, ← hxy])⟩⟩

theorem visitAncestors_spec {r : Climb × Option String} (hc : c.ReadsOnce msg)
    (h : visitAncestors getStatus parse frontier c = r) :
    r.1.ReadsOnce msg ∧
      (∀ a, r.2 = some a → a ∈ frontier ∧ Usable msg a ∧ (lineage getStatus parse msg).target a) ∧
      (r.2 = none → ∃ new next, r.1.reads = c.reads ++ new ∧ r.1.next = c.next ++ next ∧
        (lineage getStatus parse msg).Round frontier c.reads new next) := by
  induction frontier generalizing c with
  | nil =>
    obtain rfl : (c, none) = r := h
    exact ⟨hc, by simp, fun _ => ⟨[], [], by simp, by simp, .nil⟩⟩
  | cons a rest ih =>
    by_cases hskip : a = "" ∨ a ∈ c.visited
    · have heq : visitAncestors getStatus parse (a :: rest) c =
          visitAncestors getStatus parse rest c := by
        rcases hskip with h | h <;> simp [visitAncestors, h]
      have hin : Usable msg a → a ∈ c.reads := fun hok =>
        (mem_cons.mp (hc.visited ▸ hskip.resolve_left hok.1)).resolve_left hok.2
      obtain ⟨hout, hfound, hend⟩ := ih hc (heq ▸ h)
      refine ⟨hout, fun b hb => ⟨.tail a (hfound b hb).1, (hfound b hb).2⟩, fun hnone => ?_⟩
      obtain ⟨new, next, hreads, hnext, R⟩ := hend hnone
      exact ⟨new, next, hreads, hnext, R.skip hin⟩
    · obtain ⟨hne, hnew⟩ := not_or.mp hskip
      have hok : Usable msg a := ⟨hne, fun h => hnew (by simp [hc.visited, h])⟩
      rw [visitAncestors_cons hne hnew] at h
      by_cases hrej : ((getStatus a).any (·.status = .rejected)) = true
      · rw [if_pos hrej] at h
        cases h
        exact ⟨hc.mark hnew c.next, fun b hb => by cases hb; exact ⟨.head _, hok, hrej⟩, by simp⟩
      · rw [if_neg hrej] at h
        obtain ⟨hout, hfound, hend⟩ := ih (hc.mark hnew _) h
        refine ⟨hout, fun b hb => ⟨.tail a (hfound b hb).1, (hfound b hb).2⟩, fun hnone => ?_⟩
        obtain ⟨new, next, hreads, hnext, R⟩ := hend hnone
        exact ⟨a :: new, _, hreads.trans (append_assoc _ _ _),
          hnext.trans (append_assoc _ _ _), R.visit hok hrej⟩

/-! ## All generations -/

theorem climbAncestors_succ {r : Climb × Option String}
    (h : visitAncestors getStatus parse frontier { c with next := [] } = r) (depth : Nat) :
    climbAncestors getStatus parse (depth + 1) frontier c = r.2.elim
      (climbAncestors getStatus parse depth r.1.next r.1) fun a => (some a, r.1.reads) := by
  cases frontier with
  | nil => cases h; cases depth <;> rfl
  | cons a rest =>
    rw [climbAncestors, if_neg (by simp), h]
    obtain ⟨c', _ | a⟩ := r <;> rfl

/-- The generations that are left hold the rejected ancestors that are left. -/
theorem climbAncestors_spec {d : Nat} (hc : c.ReadsOnce msg)
    (S : (lineage getStatus parse msg).Searched d frontier c.reads) {depth : Nat}
    {out : Option String × List String}
    (h : climbAncestors getStatus parse depth frontier c = out) :
    out.2.Nodup ∧ (∀ a, out.1 = some a → (lineage getStatus parse msg).Nearest (d + depth) a) ∧
      (out.1 = none → ∀ k ≤ d + depth, ∀ a, (lineage getStatus parse msg).At k a →
        ¬ (lineage getStatus parse msg).target a) := by
  induction depth generalizing d frontier c with
  | zero =>
    obtain rfl : (none, c.reads) = out := h
    exact ⟨(nodup_cons.mp (hc.visited ▸ hc.nodup)).2, by simp, fun _ k hk a h => S.missed hk h⟩
  | succ depth ih =>
    obtain ⟨r, hr⟩ : ∃ r, visitAncestors getStatus parse frontier { c with next := [] } = r :=
      ⟨_, rfl⟩
    obtain ⟨hout, hfound, hend⟩ := visitAncestors_spec (c := { c with next := [] })
      ⟨hc.visited, hc.nodup⟩ hr
    rw [climbAncestors_succ hr] at h
    cases hrej : r.2 with
    | some a =>
      rw [hrej] at h
      cases h
      obtain ⟨ha, hok, ht⟩ := hfound a hrej
      refine ⟨(nodup_cons.mp (hout.visited ▸ hout.nodup)).2, fun b hb => ?_, by simp⟩
      cases hb
      exact S.nearest ha hok ht (by omega)
    | none =>
      rw [hrej] at h
      obtain ⟨new, next, hreads, hnext, R⟩ := hend hrej
      rw [show d + (depth + 1) = d + 1 + depth by omega]
      refine ih hout ?_ h
      rw [hreads, hnext]
      exact S.round R

/-- `rejectedAncestor` finds a rejected ancestor exactly when one lies within eight links of
usable ids, then a nearest one, and it reads no row twice. -/
theorem rejectedAncestor_exact (getStatus : String → Option AncestorRow)
    (parse : List UInt8 → Option (List String)) (msg : PropagationMsg) :
    ((rejectedAncestor getStatus parse msg).1.isSome = true ↔
      ∃ k a, 1 ≤ k ∧ k ≤ 8 ∧ (lineage getStatus parse msg).At k a ∧
        (lineage getStatus parse msg).target a) ∧
      (∀ a, (rejectedAncestor getStatus parse msg).1 = some a →
        (lineage getStatus parse msg).Nearest 8 a) ∧
      (rejectedAncestor getStatus parse msg).2.Nodup := by
  obtain ⟨hnodup, hfound, hnone⟩ := climbAncestors_spec (c := { visited := [msg.txid] })
    ⟨rfl, nodup_singleton _⟩ (lineage getStatus parse msg).searched_start
    (show _ = rejectedAncestor getStatus parse msg from rfl)
  refine ⟨⟨fun h => ?_, fun ⟨k, a, _, hk, h, ht⟩ => ?_⟩, hfound, hnodup⟩
  · obtain ⟨a, ha⟩ := Option.isSome_iff_exists.mp h
    obtain ⟨k, hpos, hk, h, ht, -⟩ := hfound a ha
    exact ⟨k, a, hpos, hk, h, ht⟩
  · by_contra hno
    exact hnone (Option.not_isSome_iff_eq_none.mp hno) k hk a h ht

/-- With a row under the empty id the search differs from the plain paths, which avoid only the
message itself: an empty parent is never looked up. -/
theorem rejectedAncestor_empty_id :
    (rejectedAncestor (fun a => if a = "" then some ⟨.rejected, []⟩ else none) (fun _ => none)
        (.fresh "t" [] [""])).1 = none ∧
      (ancestry (fun a => if a = "" then some ⟨.rejected, []⟩ else none) (fun _ => none)
        (· ≠ "t") (.fresh "t" [] [""])).At 1 "" ∧
      (ancestry (fun a => if a = "" then some ⟨.rejected, []⟩ else none) (fun _ => none)
        (· ≠ "t") (.fresh "t" [] [""])).target "" :=
  ⟨by decide, .start (by decide) (by simp [ancestry]), by simp [ancestry]⟩

end Arcade.Propagation
