import Mathlib.Data.Nat.Log
import Mathlib.Data.List.Basic
import Mathlib.Algebra.Order.Ring.Nat

/-!
Binary hash trees over an arbitrary parent hash. A slot is a level and an
offset; level 0 holds the leaves. A level with an odd number of nodes is
completed by repeating its last node, also when that is its only one. A partial
tree names the node of some slots only, and the node of a slot whenever it
names both children of it.
-/

namespace Arcade.Lib.Merkle

open List

variable {H : Type}

/-! ## Slots -/

/-- The other child of the same parent. -/
def sibling (o : Nat) : Nat := o ^^^ 1

theorem sibling_even (k : Nat) : sibling (2 * k) = 2 * k + 1 := by
  unfold sibling
  apply Nat.eq_of_testBit_eq
  intro i
  cases i with
  | zero => simp
  | succ i =>
    have hdiv : (2 * k + 1) / 2 = k := by omega
    have hone : (1 : Nat).testBit (i + 1) = false := by simp [Nat.testBit_succ]
    rw [Nat.testBit_xor, hone, Nat.testBit_succ, Nat.testBit_succ, hdiv]
    simp

theorem sibling_odd (k : Nat) : sibling (2 * k + 1) = 2 * k := by
  rw [← sibling_even k]
  unfold sibling
  rw [Nat.xor_assoc, Nat.xor_self, Nat.xor_zero]

variable (o : Nat) {l k n : Nat} {xs : List H}

theorem slot_cases : (o = 2 * (o / 2) ∧ sibling o = 2 * (o / 2) + 1) ∨
      (o = 2 * (o / 2) + 1 ∧ sibling o = 2 * (o / 2)) := by
  rcases Nat.mod_two_eq_zero_or_one o with h | h
  · refine .inl ⟨by omega, ?_⟩
    conv => lhs; rw [show o = 2 * (o / 2) by omega]
    exact sibling_even _
  · refine .inr ⟨by omega, ?_⟩
    conv => lhs; rw [show o = 2 * (o / 2) + 1 by omega]
    exact sibling_odd _

theorem sibling_sibling : sibling (sibling o) = o := by
  unfold sibling
  rw [Nat.xor_assoc, Nat.xor_self, Nat.xor_zero]

theorem sibling_div_two : sibling o / 2 = o / 2 := by
  have h := slot_cases o
  omega

theorem div_pow_succ (l : Nat) : o / 2 ^ (l + 1) = o / 2 ^ l / 2 := by
  rw [Nat.pow_succ, Nat.div_div_eq_div_mul]

theorem pow_sub_succ (h : l < k) : 2 ^ (k - l) = 2 * 2 ^ (k - (l + 1)) := by
  rw [← Nat.pow_succ']
  congr 1
  omega

theorem sibling_div_pow (l : Nat) : sibling o / 2 ^ (l + 1) = o / 2 ^ (l + 1) := by
  rw [Nat.pow_succ', ← Nat.div_div_eq_div_mul, ← Nat.div_div_eq_div_mul, sibling_div_two]

theorem sibling_eq {o p : Nat} (hne : o ≠ p) (h : o / 2 = p / 2) : sibling o = p := by
  rcases slot_cases o with ⟨_, hs⟩ | ⟨_, hs⟩ <;> omega

theorem exists_sibling {t f height : Nat} (hne : t ≠ f) (htop : t / 2 ^ height = f / 2 ^ height) :
    ∃ l < height, sibling (t / 2 ^ l) = f / 2 ^ l := by
  induction height with
  | zero => exact absurd (by simpa using htop) hne
  | succ height ih =>
    by_cases h : t / 2 ^ height = f / 2 ^ height
    · obtain ⟨l, hl, hsib⟩ := ih h
      exact ⟨l, by omega, hsib⟩
    · rw [div_pow_succ, div_pow_succ] at htop
      exact ⟨height, by omega, sibling_eq h htop⟩

/-! ## Levels -/

/-- The parents of a level; the last node of an odd level is its own sibling. -/
def pairUp (parent : H → H → H) : List H → List H
  | [] => []
  | [a] => [parent a a]
  | a :: b :: rest => parent a b :: pairUp parent rest

/-- The nodes `l` levels above `xs`. -/
def level (parent : H → H → H) (xs : List H) : Nat → List H
  | 0 => xs
  | l + 1 => pairUp parent (level parent xs l)

def selfHash (parent : H → H → H) (x : H) : H := parent x x

/-- The node at an offset of a level; an odd level repeats its last node. -/
def padded (xs : List H) (o : Nat) : Option H :=
  if o = xs.length ∧ o % 2 = 1 then xs[o - 1]? else xs[o]?

/-- How many nodes are `l` levels above `n` nodes. -/
def width (n : Nat) : Nat → Nat
  | 0 => n
  | l + 1 => (width n l + 1) / 2

section Levels

variable (parent : H → H → H)

theorem length_pairUp (xs : List H) : (pairUp parent xs).length = (xs.length + 1) / 2 := by
  fun_induction pairUp parent xs with
  | case1 => simp
  | case2 a => simp
  | case3 a b rest ih =>
    simp only [length_cons, ih]
    omega

theorem length_level (xs : List H) (l : Nat) : (level parent xs l).length = width xs.length l := by
  induction l with
  | zero => rfl
  | succ l ih => simp [level, width, length_pairUp, ih]

theorem level_succ' (xs : List H) (l : Nat) :
    level parent xs (l + 1) = level parent (pairUp parent xs) l := by
  induction l with
  | zero => rfl
  | succ l ih => rw [level, ih, level]

variable {xs ys : List H} {o : Nat}

theorem padded_of_lt (h : o < xs.length) : padded xs o = xs[o]? := by
  unfold padded
  rw [if_neg (by omega)]

theorem padded_last (h : xs.length % 2 = 1) : padded xs xs.length = xs[xs.length - 1]? := by
  unfold padded
  rw [if_pos ⟨rfl, h⟩]

theorem padded_repeats (h : xs.length % 2 = 1) :
    ∃ v, padded xs xs.length = some v ∧ padded xs (xs.length - 1) = some v := by
  have hlast : xs.length - 1 < xs.length := by omega
  refine ⟨xs.get ⟨xs.length - 1, hlast⟩, ?_, ?_⟩
  · rw [padded_last h]
    simp
  · rw [padded_of_lt hlast]
    simp

theorem padded_isSome {v : H} (h : padded xs o = some v) :
    o < xs.length ∨ (o = xs.length ∧ o % 2 = 1) := by
  unfold padded at h
  split at h
  · next hp => exact .inr hp
  · exact .inl (List.getElem?_eq_some_iff.mp h).1

theorem pairUp_of_padded {a b : H} (ha : padded xs (2 * o) = some a)
    (hb : padded xs (2 * o + 1) = some b) :
    (pairUp parent xs)[o]? = some (parent a b) := by
  induction xs using pairUp.induct generalizing o with
  | case1 => simp [padded] at ha
  | case2 x =>
    have ho : o = 0 := by
      rcases padded_isSome ha with h | h
      · simp at h; omega
      · omega
    subst ho
    simp [padded] at ha hb
    subst ha hb
    rfl
  | case3 x y rest ih =>
    cases o with
    | zero =>
      simp [padded] at ha hb
      subst ha hb
      rfl
    | succ o =>
      have hshift : ∀ k, padded (x :: y :: rest) (k + 2) = padded rest k := by
        intro k
        unfold padded
        have hiff : (k + 2 = (x :: y :: rest).length ∧ (k + 2) % 2 = 1) ↔
            (k = rest.length ∧ k % 2 = 1) := by
          simp only [length_cons]
          omega
        by_cases h : k = rest.length ∧ k % 2 = 1
        · rw [if_pos h, if_pos (hiff.mpr h)]
          obtain ⟨j, hj⟩ : ∃ j, k = j + 1 := ⟨k - 1, by omega⟩
          subst hj
          rfl
        · rw [if_neg h, if_neg (mt hiff.mp h)]
          rfl
      rw [show 2 * (o + 1) = 2 * o + 2 by omega, hshift] at ha
      rw [show 2 * (o + 1) + 1 = 2 * o + 1 + 2 by omega, hshift] at hb
      simpa [pairUp] using ih ha hb

theorem padded_level_succ {l : Nat} {a b : H} (ha : padded (level parent xs l) (2 * o) = some a)
    (hb : padded (level parent xs l) (2 * o + 1) = some b) :
    padded (level parent xs (l + 1)) o = some (parent a b) := by
  have h := pairUp_of_padded parent ha hb
  rw [level, padded_of_lt (List.getElem?_eq_some_iff.mp h).1]
  exact h

variable {parent}

section

variable (parent : H → H → H) (hlen : xs.length = ys.length) (h : xs.tail = ys.tail)
include hlen h

theorem pairUp_tail : (pairUp parent xs).tail = (pairUp parent ys).tail := by
  match xs, ys, hlen, h with
  | [], [], _, _ => rfl
  | [_], [_], _, _ => rfl
  | _ :: _ :: _, _ :: _ :: _, _, h =>
    simp only [tail_cons, List.cons.injEq] at h
    simp [pairUp, h.2]

theorem level_tail (l : Nat) : (level parent xs l).tail = (level parent ys l).tail := by
  induction l with
  | zero => exact h
  | succ l ih => exact pairUp_tail parent (by rw [length_level, length_level, hlen]) ih

end

section

variable (hinj : ∀ a b c d, parent a b = parent c d → a = c ∧ b = d) (hlen : xs.length = ys.length)
include hinj hlen

theorem pairUp_injective (h : pairUp parent xs = pairUp parent ys) : xs = ys := by
  induction xs using pairUp.induct generalizing ys with
  | case1 => exact (length_eq_zero_iff.mp hlen.symm).symm
  | case2 a =>
    obtain ⟨b, rfl⟩ := length_eq_one_iff.mp hlen.symm
    simp only [pairUp, List.cons.injEq, and_true] at h
    rw [(hinj _ _ _ _ h).1]
  | case3 a b rest ih =>
    match ys, hlen with
    | [], hlen => simp at hlen
    | [c], hlen => simp at hlen
    | c :: d :: more, hlen =>
      simp only [pairUp, List.cons.injEq] at h
      obtain ⟨hac, hbd⟩ := hinj _ _ _ _ h.1
      rw [hac, hbd, ih (by simpa using hlen) h.2]

theorem level_injective {l : Nat} (h : level parent xs l = level parent ys l) : xs = ys := by
  induction l with
  | zero => exact h
  | succ l ih => exact ih (pairUp_injective hinj (by simp [length_level, hlen]) h)

end

end Levels

/-! ## Widths -/

theorem width_pos (h : 0 < n) (l : Nat) : 0 < width n l := by
  induction l with
  | zero => exact h
  | succ l ih =>
    simp only [width]
    omega

theorem width_le (h : n ≤ 2 ^ k) (hl : l ≤ k) : width n l ≤ 2 ^ (k - l) := by
  induction l with
  | zero => exact h
  | succ l ih =>
    have hpow := pow_sub_succ (show l < k by omega)
    simp only [width]
    omega

theorem width_pow (hl : l ≤ k) : width (2 ^ k) l = 2 ^ (k - l) := by
  induction l with
  | zero => rfl
  | succ l ih =>
    rw [width, ih (by omega), pow_sub_succ hl]
    omega

theorem two_le_width (h : 2 ^ l < n) : 2 ≤ width n l := by
  have key : ∀ (j : Nat), j ≤ l → 2 ^ (l - j) < width n j := by
    intro j
    induction j with
    | zero => intro _; exact h
    | succ j ih =>
      intro hj
      have hpow := pow_sub_succ (show j < l by omega)
      simp only [width]
      omega
  have h1 := key l (le_refl l)
  simp at h1
  omega

theorem width_clog (h : 0 < n) : width n (Nat.clog 2 n) = 1 := by
  have hle := width_le (Nat.le_pow_clog (by decide) n) (le_refl (Nat.clog 2 n))
  have hpos := width_pos h (Nat.clog 2 n)
  simp at hle
  omega

theorem two_le_width_of_lt (h : l < Nat.clog 2 n) : 2 ≤ width n l :=
  two_le_width (Nat.pow_lt_of_lt_clog h)

theorem slot_lt_pow {o : Nat} (hl : l < Nat.clog 2 n)
    (h : o < width n l ∨ (o = width n l ∧ o % 2 = 1)) : o < 2 ^ (Nat.clog 2 n - l) := by
  have hle := width_le (Nat.le_pow_clog (by decide : 1 < 2) n) (le_of_lt hl)
  have hpow := pow_sub_succ (show l < Nat.clog 2 n by omega)
  omega

/-! ## Roots -/

def rootOf (parent : H → H → H) (xs : List H) : Option H :=
  (level parent xs (Nat.clog 2 xs.length))[0]?

theorem level_clog {parent : H → H → H} {r : H} (h : rootOf parent xs = some r) :
    level parent xs (Nat.clog 2 xs.length) = [r] := by
  have hpos : 0 < xs.length := by
    cases xs with
    | nil => simp [rootOf, level] at h
    | cons x xs => simp
  have hlen : (level parent xs (Nat.clog 2 xs.length)).length = 1 := by
    rw [length_level, width_clog hpos]
  obtain ⟨a, ha⟩ := length_eq_one_iff.mp hlen
  rw [rootOf, ha] at h
  rw [ha]
  simpa using h

theorem rootOf_isSome (parent : H → H → H) (h : xs ≠ []) : ∃ r, rootOf parent xs = some r := by
  have hlen : (level parent xs (Nat.clog 2 xs.length)).length = 1 := by
    rw [length_level, width_clog (length_pos_iff.mpr h)]
  obtain ⟨a, ha⟩ := length_eq_one_iff.mp hlen
  exact ⟨a, by simp [rootOf, ha]⟩

/-- The root as a value; `d` stands in only where there are no leaves. -/
def treeRoot (parent : H → H → H) (d : H) (xs : List H) : H := (rootOf parent xs).getD d

theorem rootOf_eq_treeRoot (parent : H → H → H) (d : H) (h : xs ≠ []) :
    rootOf parent xs = some (treeRoot parent d xs) := by
  obtain ⟨r, hr⟩ := rootOf_isSome parent h
  rw [treeRoot, hr, Option.getD_some]

theorem rootOf_injective {parent : H → H → H}
    (hinj : ∀ a b c d, parent a b = parent c d → a = c ∧ b = d) {ys : List H}
    (hlen : xs.length = ys.length) (hne : xs ≠ []) (h : rootOf parent xs = rootOf parent ys) :
    xs = ys := by
  obtain ⟨r, hr⟩ := rootOf_isSome parent hne
  have hx := level_clog hr
  have hy := level_clog (h ▸ hr)
  rw [← hlen] at hy
  exact level_injective hinj hlen (hx.trans hy.symm)

/-! ## Partial trees -/

/-- The nodes known of a tree of some height. Below the root, the parent of two
known siblings is known. -/
structure PartialTree (parent : H → H → H) (height : Nat) where
  node : Nat → Nat → Option H
  root : H
  closed : ∀ l o a b, l < height → node l (2 * o) = some a → node l (2 * o + 1) = some b →
    node (l + 1) o = some (parent a b)
  node_root : node height 0 = some root

namespace PartialTree

variable {parent : H → H → H}

def rootOnly (parent : H → H → H) (height : Nat) (r : H) : PartialTree parent height where
  node l o := if l = height ∧ o = 0 then some r else none
  root := r
  closed l o a b hl ha _ := by
    rw [if_neg (by omega)] at ha
    cases ha
  node_root := by simp

/-- The whole tree over a list of leaves, up to a level with one node. -/
def ofLeaves (parent : H → H → H) (xs : List H) (height : Nat) (r : H)
    (hr : level parent xs height = [r]) : PartialTree parent height where
  node l o := padded (level parent xs l) o
  root := r
  closed _ _ _ _ _ ha hb := padded_level_succ parent ha hb
  node_root := by
    rw [hr]
    rfl

def nodeWithin {height : Nat} (t : PartialTree parent height) (l o : Nat) : Option H :=
  if o < 2 ^ (height - l) then t.node l o else none

variable {l height o h : Nat} (t : PartialTree parent height)

theorem nodeWithin_lt {t : PartialTree parent height} {v : H} (h : t.nodeWithin l o = some v) :
    o < 2 ^ (height - l) := by
  by_contra hout
  rw [nodeWithin, if_neg hout] at h
  cases h

theorem nodeWithin_closed {a b : H} (hl : l < height) (ha : t.nodeWithin l (2 * o) = some a)
    (hb : t.nodeWithin l (2 * o + 1) = some b) :
    t.nodeWithin (l + 1) o = some (parent a b) ∧
      (l + 1 = height → o = 0 ∧ t.root = parent a b) := by
  have hpow := pow_sub_succ hl
  have hran := nodeWithin_lt hb
  rw [nodeWithin, if_pos (by omega)] at ha
  rw [nodeWithin, if_pos hran] at hb
  have hnode := t.closed l o a b hl ha hb
  refine ⟨by rw [nodeWithin, if_pos (by omega)]; exact hnode, fun htop => ?_⟩
  have ho : o = 0 := by
    rw [htop, Nat.sub_self, Nat.pow_zero] at hpow
    omega
  rw [ho, htop, t.node_root, Option.some.injEq] at hnode
  exact ⟨ho, hnode⟩

def restrict {height : Nat} (t : PartialTree parent height) : PartialTree parent height where
  node := t.nodeWithin
  root := t.root
  closed _ _ _ _ hl ha hb := (t.nodeWithin_closed hl ha hb).1
  node_root := by
    rw [nodeWithin, if_pos (Nat.two_pow_pos _), t.node_root]

/-- The root hashed with itself once for each level up to `h`. -/
def lift {height : Nat} (t : PartialTree parent height) (h : Nat) (hle : height ≤ h) :
    PartialTree parent h where
  node l o :=
    if l < height then t.nodeWithin l o
    else if o ≤ 1 then some ((selfHash parent)^[l - height] t.root) else none
  root := (selfHash parent)^[h - height] t.root
  closed l o a b hl ha hb := by
    by_cases hlt : l < height
    · rw [if_pos hlt] at ha hb
      obtain ⟨hnode, htop⟩ := t.nodeWithin_closed hlt ha hb
      by_cases hlt' : l + 1 < height
      · rw [if_pos hlt']
        exact hnode
      · obtain ⟨rfl, hroot⟩ := htop (by omega)
        rw [if_neg hlt', if_pos (by omega), show l + 1 - height = 0 by omega,
          Function.iterate_zero, id_eq, hroot]
    · rw [if_neg hlt] at ha hb
      have ho : 2 * o + 1 ≤ 1 := by
        by_contra hout
        rw [if_neg hout] at hb
        cases hb
      rw [if_pos (by omega), Option.some.injEq] at ha
      rw [if_pos ho, Option.some.injEq] at hb
      rw [if_neg (by omega), if_pos (by omega), show l + 1 - height = l - height + 1 by omega,
        Function.iterate_succ_apply', ha]
      rw [ha] at hb
      rw [← hb]
      rfl
  node_root := by
    rw [if_neg (by omega), if_pos (by omega)]

theorem lift_node_below (hle : height ≤ h) (hl : l < height) (ho : o < 2 ^ (height - l)) :
    (t.lift h hle).node l o = t.node l o := by
  simp [lift, nodeWithin, hl, ho]

theorem lift_node_above (hle : height ≤ h) (hl : height ≤ l) (ho : o ≤ 1) :
    (t.lift h hle).node l o = some ((selfHash parent)^[l - height] t.root) := by
  simp [lift, Nat.not_lt.mpr hl, ho]

/-- One more level, with `v` to the right of the root. -/
def extend {height : Nat} (t : PartialTree parent height) (v : H) :
    PartialTree parent (height + 1) where
  node l o :=
    if l < height then t.nodeWithin l o
    else if l = height then if o = 0 then some t.root else if o = 1 then some v else none
    else if o = 0 then some (parent t.root v) else none
  root := parent t.root v
  closed l o a b hl ha hb := by
    by_cases hlt : l < height
    · rw [if_pos hlt] at ha hb
      obtain ⟨hnode, htop⟩ := t.nodeWithin_closed hlt ha hb
      by_cases hlt' : l + 1 < height
      · rw [if_pos hlt']
        exact hnode
      · obtain ⟨rfl, hroot⟩ := htop (by omega)
        rw [if_neg hlt', if_pos (by omega), if_pos rfl, hroot]
    · have heq : l = height := by omega
      rw [if_neg hlt, if_pos heq] at ha hb
      have ho : o = 0 := by
        by_contra hne
        rw [if_neg (by omega), if_neg (by omega)] at hb
        cases hb
      rw [if_pos (by omega), Option.some.injEq] at ha
      rw [if_neg (by omega), if_pos (by omega), Option.some.injEq] at hb
      rw [if_neg (by omega), if_neg (by omega), if_pos ho, ha, hb]
  node_root := by
    rw [if_neg (by omega), if_neg (by omega), if_pos rfl]

theorem extend_node_below (v : H) (hl : l < height) (o : Nat) :
    (t.extend v).node l o = t.nodeWithin l o := by
  simp [extend, hl]

theorem extend_node_right (v : H) : (t.extend v).node height 1 = some v := by
  simp [extend]

/-- Trees of one height side by side, under the tree over their roots. -/
def graft {h : Nat} (ts : List (PartialTree parent h)) (r : H)
    (hr : rootOf parent (ts.map (·.root)) = some r) :
    PartialTree parent (h + Nat.clog 2 ts.length) where
  node l o :=
    if l < h then (ts[o / 2 ^ (h - l)]?).bind fun t => t.node l (o % 2 ^ (h - l))
    else padded (level parent (ts.map (·.root)) (l - h)) o
  root := r
  closed l o a b _ ha hb := by
    by_cases hlt : l < h
    · rw [if_pos hlt] at ha hb
      have hpow := pow_sub_succ hlt
      have hdl : 2 * o / 2 ^ (h - l) = o / 2 ^ (h - (l + 1)) := by
        rw [hpow, Nat.mul_div_mul_left _ _ (by decide)]
      have hdr : (2 * o + 1) / 2 ^ (h - l) = o / 2 ^ (h - (l + 1)) := by
        rw [hpow, ← Nat.div_div_eq_div_mul, show (2 * o + 1) / 2 = o by omega]
      have hml : 2 * o % 2 ^ (h - l) = 2 * (o % 2 ^ (h - (l + 1))) := by
        rw [hpow, Nat.mul_mod_mul_left]
      have hmr : (2 * o + 1) % 2 ^ (h - l) = 2 * (o % 2 ^ (h - (l + 1))) + 1 := by
        rw [hpow, Nat.mod_mul, show (2 * o + 1) / 2 = o by omega]
        omega
      rw [hdl, hml, Option.bind_eq_some_iff] at ha
      rw [hdr, hmr, Option.bind_eq_some_iff] at hb
      obtain ⟨t, ht, ha⟩ := ha
      obtain ⟨t', ht', hb⟩ := hb
      obtain rfl : t = t' := by simpa [ht] using ht'
      have hnode := t.closed l _ a b hlt ha hb
      by_cases hlt' : l + 1 < h
      · rw [if_pos hlt', ht]
        exact hnode
      · -- the parent is the root of one of the trees
        have heq : l + 1 = h := by omega
        rw [heq, Nat.sub_self, Nat.pow_zero, Nat.div_one] at ht
        rw [heq, Nat.sub_self, Nat.pow_zero, Nat.mod_one, t.node_root] at hnode
        have hroot : (ts.map (·.root))[o]? = some t.root := by simp [ht]
        rw [heq, if_neg (by omega), Nat.sub_self, level,
          padded_of_lt (List.getElem?_eq_some_iff.mp hroot).1, hroot]
        exact hnode
    · rw [if_neg hlt] at ha hb
      rw [if_neg (by omega), show l + 1 - h = l - h + 1 by omega]
      exact padded_level_succ parent ha hb
  node_root := by
    rw [if_neg (by omega), Nat.add_sub_cancel_left]
    have h1 := level_clog hr
    rw [length_map] at h1
    rw [h1]
    rfl

variable {ts : List (PartialTree parent h)}

theorem graft_node_below {r : H}
    (hr : rootOf parent (ts.map (·.root)) = some r) {i : Nat} {t : PartialTree parent h}
    (ht : ts[i]? = some t) (hl : l < h) (ho : o < 2 ^ (h - l)) :
    (graft ts r hr).node l (o + i * 2 ^ (h - l)) = t.node l o := by
  have hdiv : (o + i * 2 ^ (h - l)) / 2 ^ (h - l) = i := by
    rw [Nat.add_mul_div_right _ _ (Nat.two_pow_pos _), Nat.div_eq_of_lt ho, Nat.zero_add]
  have hmod : (o + i * 2 ^ (h - l)) % 2 ^ (h - l) = o := by
    rw [Nat.add_mul_mod_self_right, Nat.mod_eq_of_lt ho]
  simp [graft, hl, hdiv, hmod, ht]

theorem graft_node_above {r : H}
    (hr : rootOf parent (ts.map (·.root)) = some r) (hl : h ≤ l) (o : Nat) :
    (graft ts r hr).node l o = padded (level parent (ts.map (·.root)) (l - h)) o := by
  simp [graft, Nat.not_lt.mpr hl]

theorem graft_node_lt {r v : H} (hr : rootOf parent (ts.map (·.root)) = some r)
    (hl : l < h + Nat.clog 2 ts.length) (hv : (graft ts r hr).node l o = some v) :
    o < 2 ^ (h + Nat.clog 2 ts.length - l) := by
  by_cases hlt : l < h
  · simp only [graft, if_pos hlt, Option.bind_eq_some_iff] at hv
    obtain ⟨t, ht, -⟩ := hv
    have hdiv : o / 2 ^ (h - l) < 2 ^ Nat.clog 2 ts.length :=
      (List.getElem?_eq_some_iff.mp ht).1.trans_le (Nat.le_pow_clog (by decide) _)
    rw [show h + Nat.clog 2 ts.length - l = Nat.clog 2 ts.length + (h - l) by omega, Nat.pow_add]
    exact (Nat.div_lt_iff_lt_mul (Nat.two_pow_pos _)).mp hdiv
  · rw [graft_node_above hr (by omega)] at hv
    have hslot := padded_isSome hv
    rw [length_level, length_map] at hslot
    have hlt' := slot_lt_pow (by omega) hslot
    rwa [show Nat.clog 2 ts.length - (l - h) = h + Nat.clog 2 ts.length - l by omega] at hlt'

end PartialTree

end Arcade.Lib.Merkle
