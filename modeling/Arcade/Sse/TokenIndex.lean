import Arcade.Lib.Lru
import Arcade.Lib.Transition

/-!
The token index of the SSE fan-out: an LRU cache of the tokens subscribed to a txid, bounded by its
number of entries and by a byte budget. The byte counter is adjusted by `add` and by the eviction
callback, which runs inside every operation of the LRU that drops an entry.
-/

namespace Arcade.Sse

open Lib

structure CacheEntry where
  tokens : List String
  expiresAt : Int

/-- `entryOverhead` is 160 and `tokenOverhead` is 16. -/
def entryCost (e : String × CacheEntry) : Nat :=
  160 + e.1.utf8ByteSize + (e.2.tokens.map fun t => 16 + t.utf8ByteSize).sum

structure TokenIndexLimits where
  maxBytes : Int
  ttl : Int

/-- The LRU with the counter `bytes`. -/
abbrev TokenIndex (L : Lru String CacheEntry) := Counted L

/-- The locked sections, with the clock. -/
inductive TokenCall where
  | cached (txid : String) (now : Int)
  | add (txid : String) (tokens : List String) (now : Int)

namespace TokenIndex

variable {L : Lru String CacheEntry} (lim : TokenIndexLimits)

def new (L : Lru String CacheEntry) : TokenIndex L := ⟨L.empty, 0⟩

/-- An expired entry is dropped. -/
def cached (t : TokenIndex L) (txid : String) (now : Int) : Option (List String) × TokenIndex L :=
  let r := L.get t.lru txid
  match r.1 with
  | none => (none, ⟨r.2, t.total⟩)
  | some e =>
    if now > e.expiresAt then (none, Counted.evicting entryCost ⟨r.2, t.total⟩ (L.remove r.2 txid))
    else (some e.tokens, ⟨r.2, t.total⟩)

def add (t : TokenIndex L) (txid : String) (tokens : List String) (now : Int) : TokenIndex L :=
  t.put entryCost lim.maxBytes txid ⟨tokens, now + lim.ttl⟩

def step (t : TokenIndex L) : TokenCall → TokenIndex L
  | .cached txid now => (t.cached txid now).2
  | .add txid tokens now => t.add lim txid tokens now

/-- `answer` is that of the store, `none` if it fails. Only a set that is not empty is cached. -/
def lookup (t : TokenIndex L) (txid : String) (now : Int) (answer : Option (List String)) :
    List String × TokenIndex L :=
  if txid = "" then ([], t)
  else
    match t.cached txid now with
    | (some tokens, t) => (tokens, t)
    | (none, t) =>
      match answer with
      | none => ([], t)
      | some tokens => (tokens, if tokens ≠ [] then t.add lim txid tokens now else t)

variable {lim} {t : TokenIndex L}

theorem lookup_eq_run (txid : String) (now : Int) (answer : Option (List String)) :
    ∃ calls, (t.lookup lim txid now answer).2 = run (step lim) t calls := by
  unfold lookup
  split
  · exact ⟨[], rfl⟩
  · have hcached : run (step lim) t [.cached txid now] = (t.cached txid now).2 := rfl
    generalize t.cached txid now = r at hcached ⊢
    obtain ⟨_ | tokens, t'⟩ := r
    · cases answer with
      | none => exact ⟨_, hcached.symm⟩
      | some tokens =>
        dsimp only
        split
        · exact ⟨[.cached txid now, .add txid tokens now],
            congrArg (step lim · (.add txid tokens now)) hcached.symm⟩
        · exact ⟨_, hcached.symm⟩
    · exact ⟨_, hcached.symm⟩

theorem exact_step (h : t.Exact entryCost) (call : TokenCall) :
    (step lim t call).Exact entryCost := by
  cases call with
  | add txid tokens now => exact (Counted.put_spec _ h txid _).1
  | cached txid now =>
    have hget : Counted.Exact entryCost ⟨(L.get t.lru txid).2, t.total⟩ :=
      h.trans (by rw [L.entries_get])
    simp only [step, cached]
    split
    · exact hget
    · split
      · exact hget.evicting (L.entries_remove _ txid)
      · exact hget

/-- With any LRU, after any calls: the counter is the cost of the resident entries, and after an
`add` it is within the budget unless a single entry is resident. -/
theorem bytes_exact (L : Lru String CacheEntry) (lim : TokenIndexLimits) (calls : List TokenCall) :
    let t := run (step lim) (new L) calls
    t.total = (((L.entries t.lru).map entryCost).sum : Nat) ∧ 0 ≤ t.total ∧
      ∀ txid tokens now, (t.add lim txid tokens now).total ≤ lim.maxBytes ∨
        (L.entries (t.add lim txid tokens now).lru).card = 1 := by
  intro t
  have hnew : (new L).Exact entryCost := by
    simp [Counted.Exact, new, L.entries_empty]
  have h : t.Exact entryCost :=
    run_keeps (P := Counted.Exact entryCost) (fun _ call h => exact_step h call) hnew calls
  have htotal : t.total = (((L.entries t.lru).map entryCost).sum : Nat) := h
  exact ⟨htotal, by omega, fun txid tokens now => (Counted.put_spec lim.maxBytes h txid _).2.1⟩

/-- Two entries of 178 bytes each do not fit, and the older one goes. -/
theorem bytes_exact_ofSize :
    let t := run (step ⟨200, 10⟩) (new (.ofSize 2 Nat.zero_lt_two))
      [.add "a" ["x"] 0, .add "a" ["y"] 1, .cached "a" 2, .add "b" ["z"] 3]
    t.total = 178 ∧ t.lru.1.map (·.1) = ["b"] ∧ 0 ≤ t.total := by
  refine ⟨by decide +kernel, by decide +kernel, ?_⟩
  exact (bytes_exact (.ofSize 2 Nat.zero_lt_two) ⟨200, 10⟩ _).2.1

end TokenIndex
end Arcade.Sse
