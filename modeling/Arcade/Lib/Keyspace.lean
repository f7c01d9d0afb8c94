import Arcade.Lib.GoMap
import Mathlib.Data.List.Sort
import Mathlib.Data.List.Infix

/-!
An ordered key-value store. Keys are byte strings, a scan visits the keys of a range in byte
order, and the writes of a batch land together, the later one of two on a key last.

All keys that begin with some bytes form a range; `endOfPrefix` is where it ends.
-/

namespace Arcade.Lib

abbrev Bytes := List UInt8

def ascii (s : String) : Bytes := s.toList.map fun c => c.toNat.toUInt8

/-- The least key after those that begin with the given bytes; `none` if these are the last. -/
def endOfPrefix : Bytes → Option Bytes
  | [] => none
  | b :: rest =>
    match endOfPrefix rest with
    | some bound => some (b :: bound)
    | none => if b < 255 then some [b + 1] else none

theorem cons_le_cons {b c : UInt8} {p k : Bytes} : b :: p ≤ c :: k ↔ b < c ∨ b = c ∧ p ≤ k :=
  List.cons_le_cons_iff

theorem prefix_iff_range (p k : Bytes) : p <+: k ↔ p ≤ k ∧ ∀ bound ∈ endOfPrefix p, k < bound := by
  induction p generalizing k with
  | nil => simp [endOfPrefix, List.nil_le]
  | cons b p ih =>
    cases k with
    | nil => simp
    | cons c k =>
      rw [List.cons_prefix_cons, ih, cons_le_cons, endOfPrefix]
      cases hend : endOfPrefix p with
      | some bound =>
        simp only [Option.mem_def, Option.some.injEq, forall_eq', List.cons_lt_cons_iff]
        constructor
        · rintro ⟨rfl, hle, hlt⟩
          exact ⟨.inr ⟨rfl, hle⟩, .inr ⟨rfl, hlt⟩⟩
        · rintro ⟨hbc | ⟨rfl, hle⟩, hcb | ⟨heq, hlt⟩⟩
          · exact absurd hbc (UInt8.not_lt.mpr (UInt8.le_of_lt hcb))
          · exact absurd (heq ▸ hbc) (UInt8.lt_irrefl _)
          · exact absurd hcb (UInt8.lt_irrefl _)
          · exact ⟨rfl, hle, hlt⟩
      | none =>
        simp only [Option.mem_def, reduceCtorEq, IsEmpty.forall_iff, implies_true, and_true]
        by_cases hb : b < 255
        · -- the next byte up is above every key with this one
          have hsucc : c < b + 1 ↔ c ≤ b := by
            rw [UInt8.lt_iff_toNat_lt] at hb ⊢
            rw [UInt8.le_iff_toNat_le, UInt8.toNat_add]
            have h255 : (255 : UInt8).toNat = 255 := rfl
            have h1 : (1 : UInt8).toNat = 1 := rfl
            omega
          simp only [hb, ↓reduceIte, Option.some.injEq, forall_eq', List.cons_lt_cons_iff,
            List.not_lt_nil, and_false, or_false, hsucc]
          constructor
          · rintro ⟨rfl, hle⟩
            exact ⟨.inr ⟨rfl, hle⟩, UInt8.le_refl _⟩
          · rintro ⟨hbc | ⟨rfl, hle⟩, hcb⟩
            · exact absurd hbc (UInt8.not_lt.mpr hcb)
            · exact ⟨rfl, hle⟩
        · have hlast : ¬ b < c := by
            rw [UInt8.lt_iff_toNat_lt] at hb ⊢
            have h255 : (255 : UInt8).toNat = 255 := rfl
            have hc := c.toNat_lt
            omega
          simp [hb, hlast]

/-- Neither of the two begins with the other, so no key begins with both. -/
def Apart (p q : Bytes) : Prop := ¬ p <+: q ∧ ¬ q <+: p

instance (p q : Bytes) : Decidable (Apart p q) := inferInstanceAs (Decidable (_ ∧ _))

theorem Apart.not_prefix {p q k : Bytes} (h : Apart p q) (hp : p <+: k) : ¬ q <+: k := by
  intro hq
  rcases List.prefix_or_prefix_of_prefix hp hq with hpq | hqp
  · exact h.1 hpq
  · exact h.2 hqp

theorem Apart.ne {p q x y : Bytes} (h : Apart p q) : p ++ x ≠ q ++ y := by
  intro heq
  exact h.not_prefix (List.prefix_append p x) (heq ▸ List.prefix_append q y)

/-! ## Scans -/

abbrev Keyspace (V : Type) := GoMap Bytes V

namespace Keyspace

variable {V : Type}

/-- The keys from `lower` on that come before `upper`, in order. -/
def scan (db : Keyspace V) (lower : Bytes) (upper : Option Bytes) : List Bytes :=
  (db.keys.filter fun k => decide (lower ≤ k) && upper.all fun bound => decide (k < bound)).insertionSort
    (· ≤ ·)

/-- The keys that begin with `p`, in order. -/
def scanPrefix (db : Keyspace V) (p : Bytes) : List Bytes := db.scan p (endOfPrefix p)

theorem mem_scanPrefix {db : Keyspace V} {p k : Bytes} :
    k ∈ db.scanPrefix p ↔ k ∈ db ∧ p <+: k := by
  rw [scanPrefix, scan, List.mem_insertionSort, List.mem_filter, prefix_iff_range, ← AList.mem_keys]
  cases endOfPrefix p <;> simp

variable (db : Keyspace V)

theorem nodup_scanPrefix (p : Bytes) : (db.scanPrefix p).Nodup :=
  (List.perm_insertionSort _ _).nodup_iff.mpr (db.keys_nodup.filter _)

theorem sorted_scanPrefix (p : Bytes) : (db.scanPrefix p).Pairwise (· ≤ ·) :=
  List.pairwise_insertionSort _ _

theorem scanPrefix_congr {V' : Type} {db : Keyspace V} {db' : Keyspace V'} {p : Bytes}
    (h : ∀ k, p <+: k → (k ∈ db ↔ k ∈ db')) : db.scanPrefix p = db'.scanPrefix p := by
  have hperm : (db.scanPrefix p).Perm (db'.scanPrefix p) := by
    rw [List.perm_ext_iff_of_nodup (nodup_scanPrefix db p) (nodup_scanPrefix db' p)]
    intro k
    rw [mem_scanPrefix, mem_scanPrefix]
    constructor
    · rintro ⟨hk, hp⟩
      exact ⟨(h k hp).mp hk, hp⟩
    · rintro ⟨hk, hp⟩
      exact ⟨(h k hp).mpr hk, hp⟩
  apply hperm.eq_of_pairwise _ (sorted_scanPrefix db p) (sorted_scanPrefix db' p)
  intro a b _ _ hab hba
  exact List.le_antisymm hab hba

/-! ## Batches -/

inductive Write (V : Type) where
  | set (key : Bytes) (value : V)
  | delete (key : Bytes)

def Write.apply (db : Keyspace V) : Write V → Keyspace V
  | .set key value => db.insert key value
  | .delete key => db.erase key

def commit (db : Keyspace V) (batch : List (Write V)) : Keyspace V := batch.foldl Write.apply db

@[simp] theorem commit_nil : db.commit [] = db := rfl

@[simp] theorem commit_cons (w : Write V) (batch : List (Write V)) :
    db.commit (w :: batch) = (w.apply db).commit batch := rfl

theorem commit_append (batch batch' : List (Write V)) :
    db.commit (batch ++ batch') = (db.commit batch).commit batch' :=
  List.foldl_append

theorem lookup_commit_sets {db : Keyspace V} {value : V} {keys : List Bytes} {k : Bytes} :
    (db.commit (keys.map (.set · value))).lookup k =
      if k ∈ keys then some value else db.lookup k := by
  induction keys generalizing db with
  | nil => simp
  | cons key keys ih =>
    rw [List.map_cons, commit_cons, ih, Write.apply, GoMap.lookup_insert_eq]
    by_cases hk : k ∈ keys
    · simp [hk]
    · simp [hk]

theorem lookup_commit_deletes {db : Keyspace V} {keys : List Bytes} {k : Bytes} :
    (db.commit (keys.map .delete)).lookup k = if k ∈ keys then none else db.lookup k := by
  induction keys generalizing db with
  | nil => simp
  | cons key keys ih =>
    rw [List.map_cons, commit_cons, ih, Write.apply, GoMap.lookup_erase_eq]
    by_cases hk : k ∈ keys
    · simp [hk]
    · simp [hk]

end Keyspace

end Arcade.Lib
