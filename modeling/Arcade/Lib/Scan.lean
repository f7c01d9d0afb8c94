import Mathlib.Data.List.DropRight
import Mathlib.Data.List.Infix

/-!
Searching a text for a pattern, leftmost match first. A pattern is a matcher: it
looks at the start of a text and says how many characters it takes. Every
pattern built here takes as much as it can and never has to give back, so one
answer per position is enough.
-/

namespace Arcade.Lib

open List

abbrev Text := List Char

abbrev Matcher := Text → Option Nat

namespace Matcher

/-- `n` characters of a class. -/
def exactly (p : Char → Bool) (n : Nat) : Matcher := fun s =>
  if (s.take n).length = n ∧ (s.take n).all p then some n else none

/-- The characters of `w`, each up to `same`. -/
def word (same : Char → Char → Bool) (w : Text) : Matcher := fun s =>
  if (s.take w.length).length = w.length ∧ (List.zip w (s.take w.length)).all fun x => same x.1 x.2
  then some w.length else none

def literal (w : Text) : Matcher := word (· == ·) w

/-- Any number of characters of a class. -/
def many (p : Char → Bool) : Matcher := fun s => some (s.takeWhile p).length

/-- One to `most` characters of a class. -/
def upTo (p : Char → Bool) (most : Nat) : Matcher := fun s =>
  if ((s.take most).takeWhile p).length = 0 then none
  else some ((s.take most).takeWhile p).length

/-- At least one character of a class. -/
def some1 (p : Char → Bool) : Matcher := fun s => upTo p s.length s

def andThen (m₁ m₂ : Matcher) : Matcher := fun s =>
  match m₁ s with
  | none => none
  | some n =>
    match m₂ (s.drop n) with
    | none => none
    | some k => some (n + k)

def find (m : Matcher) : Text → Option Text
  | [] => (m []).map fun _ => []
  | c :: s =>
    match m (c :: s) with
    | some n => some ((c :: s).take n)
    | none => find m s

/-- The matches that do not overlap, from left to right; `skip` characters still
belong to the match before. -/
def findAllFrom (m : Matcher) : Nat → Text → List Text
  | _, [] => []
  | skip + 1, _ :: s => findAllFrom m skip s
  | 0, c :: s =>
    match m (c :: s) with
    | some (n + 1) => (c :: s).take (n + 1) :: findAllFrom m n s
    | _ => findAllFrom m 0 s

def findAll (m : Matcher) (s : Text) : List Text := findAllFrom m 0 s

theorem exactly_eq_some {p : Char → Bool} {n k : Nat} {s : Text} (h : exactly p n s = some k) :
    k = n ∧ (s.take n).length = n ∧ (s.take n).all p = true := by
  unfold exactly at h
  split at h
  · rename_i hs
    exact ⟨(Option.some.inj h).symm, hs⟩
  · cases h

theorem word_eq_some {same : Char → Char → Bool} {w s : Text} {k : Nat}
    (h : word same w s = some k) : k = w.length := by
  unfold word at h
  split at h
  · exact (Option.some.inj h).symm
  · cases h

theorem andThen_eq_some {m₁ m₂ : Matcher} {s : Text} {k : Nat} (h : m₁.andThen m₂ s = some k) :
    ∃ n₁ n₂, m₁ s = some n₁ ∧ m₂ (s.drop n₁) = some n₂ ∧ k = n₁ + n₂ := by
  unfold andThen at h
  split at h
  · cases h
  · rename_i n₁ hn₁
    split at h
    · cases h
    · rename_i n₂ hn₂
      exact ⟨n₁, n₂, hn₁, hn₂, (Option.some.inj h).symm⟩

theorem mem_findAll {m : Matcher} {s found : Text} (h : found ∈ m.findAll s) :
    ∃ tail n, m tail = some n ∧ found = tail.take n := by
  have hfrom : ∀ skip s, found ∈ findAllFrom m skip s → ∃ tail n, m tail = some n ∧
      found = tail.take n := by
    intro skip s
    fun_induction findAllFrom m skip s with
    | case1 skip => simp
    | case2 skip c s ih => exact ih
    | case3 c s n hn ih =>
      intro h
      rcases mem_cons.mp h with rfl | h
      · exact ⟨_, _, hn, rfl⟩
      · exact ih h
    | case4 c s hn ih => exact ih
  exact hfrom 0 s h

end Matcher

namespace Text

def lower (s : Text) : Text := s.map Char.toLower

def contains (s needle : Text) : Bool := decide (needle <:+: s)

/-- The text before the first `sep`, if there is one. -/
def cut (s sep : Text) : Option Text :=
  match s with
  | [] => if sep = [] then some [] else none
  | c :: rest => if sep <+: c :: rest then some [] else (cut rest sep).map (c :: ·)

/-- Trimming trailing newlines removes empty lines at the end and nothing else. -/
theorem splitOn_trimRight (s : Text) : ∃ k, s.splitOn '\n' =
      (s.rdropWhile (· == '\n')).splitOn '\n' ++ List.replicate k [] := by
  induction s using List.reverseRecOn with
  | nil => exact ⟨0, by simp⟩
  | append_singleton s c ih =>
    by_cases hc : c = '\n'
    · subst hc
      obtain ⟨k, hk⟩ := ih
      refine ⟨k + 1, ?_⟩
      rw [rdropWhile_concat_pos _ _ _ (by simp), replicate_succ', ← append_assoc,
        ← hk, splitOn_eq_splitOnP, splitOnP_append_cons _ _ (by simp),
        splitOnP_nil, ← splitOn_eq_splitOnP]
    · refine ⟨0, ?_⟩
      rw [rdropWhile_concat_neg _ _ _ (by simpa using hc)]
      simp

end Text

end Arcade.Lib
