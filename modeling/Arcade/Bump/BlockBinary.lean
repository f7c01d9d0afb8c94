import Arcade.Lib.Keyspace

/-!
The binary block a DataHub serves: what `parseBlockBinary` reads from untrusted bytes,
what it allocates for it, and that it reads back what the format writes.
-/

namespace Arcade.Bump.BlockBinary

open Lib List

variable {α β : Type}

/-- A parse ends early with an index or a slice out of range, or with an error. -/
inductive Failure where
  | panic
  | error (text : String)
deriving DecidableEq

/-- The Go slice `data[lo:hi]`. -/
def slice (data : Bytes) (lo : Int) (hi : Nat) : Except Failure Bytes :=
  if 0 ≤ lo ∧ lo ≤ hi ∧ hi ≤ data.length then .ok ((data.take hi).drop lo.toNat)
  else .error .panic

/-! ### Varints -/

def leNat : Bytes → Nat
  | [] => 0
  | b :: rest => b.toNat + 256 * leNat rest

def leBytes : Nat → Nat → Bytes
  | 0, _ => []
  | width + 1, n => UInt8.ofNat n :: leBytes width (n / 256)

/-- `VarInt.ReadFrom`: the value and what is left unread. -/
def readVarInt : Bytes → Option (Nat × Bytes)
  | [] => none
  | b :: r =>
    let width := if b = 0xff then 8 else if b = 0xfe then 4 else if b = 0xfd then 2 else 0
    if width = 0 then some (b.toNat, r)
    else if r.length < width then none
    else some (leNat (r.take width), r.drop width)

/-- `VarInt.Bytes`, the shortest form. -/
def varIntBytes (n : Nat) : Bytes :=
  if n < 0xfd then [UInt8.ofNat n]
  else if n < 0x10000 then 0xfd :: leBytes 2 n
  else if n < 0x100000000 then 0xfe :: leBytes 4 n
  else 0xff :: leBytes 8 n

@[simp] theorem length_leBytes (width n : Nat) : (leBytes width n).length = width := by
  induction width generalizing n with
  | zero => rfl
  | succ width ih => simp [leBytes, ih]

theorem leNat_leBytes {w n : Nat} (h : n < 256 ^ w) : leNat (leBytes w n) = n := by
  induction w generalizing n with
  | zero => simp only [leBytes, leNat]; omega
  | succ w ih =>
    have hdiv : n / 256 < 256 ^ w := by rw [pow_succ] at h; omega
    simp only [leBytes, leNat, ih hdiv, UInt8.toNat_ofNat']
    omega

theorem readVarInt_varIntBytes {n : Nat} (h : n < 2 ^ 64) (rest : Bytes) :
    readVarInt (varIntBytes n ++ rest) = some (n, rest) := by
  have hlen : ∀ w, ¬ w + rest.length < w := fun w => Nat.not_lt.mpr (Nat.le_add_right w _)
  unfold varIntBytes
  split_ifs with h1 h2 h3
  · have hb : (UInt8.ofNat n).toNat = n := by rw [UInt8.toNat_ofNat']; omega
    have hne : ∀ tag : UInt8, 0xfd ≤ tag.toNat → UInt8.ofNat n ≠ tag := by
      rintro _ htag rfl
      omega
    simp [readVarInt, hb, hne 0xff (by decide), hne 0xfe (by decide), hne 0xfd (by decide)]
  · simp [readVarInt, hlen 2, leNat_leBytes (w := 2) (by omega)]
  · simp [readVarInt, hlen 4, leNat_leBytes (w := 4) (by omega)]
  · simp [readVarInt, hlen 8, leNat_leBytes (w := 8) (by omega)]

theorem readVarInt_length {r rest : Bytes} {n : Nat} (h : readVarInt r = some (n, rest)) :
    rest.length < r.length := by
  cases r with
  | nil => simp [readVarInt] at h
  | cons b r =>
    simp only [readVarInt] at h
    split_ifs at h <;> simp only [Option.some.injEq, Prod.mk.injEq] at h <;>
      simp only [← h.2, length_cons, length_drop] <;> omega

/-! ### The parser -/

def maxSubtreeCount : Nat := 10000000
def maxTxCount : Nat := 1000000000
def maxBlockSizeBytes : Nat := 2 ^ 40

/-- One of the counts ahead of the hashes: a varint up to a limit. -/
def readCount (what name : String) (max : Nat) (r : Bytes) : Except Failure (Nat × Bytes) :=
  match readVarInt r with
  | none => .error (.error s!"failed to read {what}")
  | some (n, r) =>
    if max < n then .error (.error s!"{name} {n} exceeds maximum of {max}") else .ok (n, r)

/-- The part ahead of any allocation: the merkle root of the header, the number of subtrees
and the reader after it. -/
def readHead (data : Bytes) : Except Failure (Bytes × Nat × Bytes) := do
  if data.length < 80 then
    .error (.error s!"block data too short for header: {data.length} bytes")
  else
    let headerMerkleRoot ← slice data 36 68
    let r ← slice data 80 data.length
    let (_, r) ← readCount "transaction count" "tx count" maxTxCount r
    let (_, r) ← readCount "size in bytes" "block size" maxBlockSizeBytes r
    let (subtreeCount, r) ← readCount "subtree count" "subtree count" maxSubtreeCount r
    if r.length / 32 < subtreeCount then
      .error (.error (s!"subtree count {subtreeCount} exceeds remaining body capacity " ++
        s!"({r.length} bytes for 32-byte hashes)"))
    else
      return (headerMerkleRoot, subtreeCount, r)

/-- `io.ReadFull` into a buffer of `n` bytes: the buffer and what is left unread. -/
def readFull (n : Nat) (r : Bytes) : Option (Bytes × Bytes) :=
  if r.length < n then none else some (r.take n, r.drop n)

def readSubtreeHashes : Nat → Nat → Bytes → Except Failure (List Bytes × Bytes)
  | _, 0, r => .ok ([], r)
  | i, n + 1, r =>
    match readFull 32 r with
    | none => .error (.error s!"failed to read subtree hash {i}")
    | some (hash, r) => do
      let (hashes, rest) ← readSubtreeHashes (i + 1) n r
      return (hash :: hashes, rest)

variable (newTransactionFromStream : Bytes → Option Nat)

/-- The coinbase BUMP behind the coinbase transaction and the height, if it can be read, and
ahead of it the size of the buffer that was made for it. -/
def readCoinbaseBUMP (remaining : Bytes) : Except Failure (Nat × Option Bytes) :=
  match newTransactionFromStream remaining with
  | none => .ok (0, none)
  | some txBytesUsed => do
    let r ← slice remaining txBytesUsed remaining.length
    match readVarInt r with
    | none => return (0, none)
    | some (_, r) =>
      match readVarInt r with
      | none => return (0, none)
      | some (cbBUMPLen, r) =>
        if cbBUMPLen = 0 then return (0, none)
        -- the length is untrusted: nothing is made for one that the body cannot hold
        else if r.length < cbBUMPLen then return (0, none)
        else return (cbBUMPLen, (readFull cbBUMPLen r).map (·.1))

/-- `parseBlockBinary`: the bytes that `make` is asked for, for the hash list and for the
coinbase BUMP, and the subtree hashes, the coinbase BUMP and the header's merkle root. -/
def parseBlockBinary (data : Bytes) : Nat × Except Failure (List Bytes × Option Bytes × Bytes) :=
  match readHead data with
  | .error e => (0, .error e)
  | .ok (headerMerkleRoot, subtreeCount, r) =>
    let tail := do
      let (hashes, r) ← readSubtreeHashes 0 subtreeCount r
      let remaining ← slice data ((data.length : Int) - r.length) data.length
      let (made, coinbaseBUMP) ← readCoinbaseBUMP newTransactionFromStream remaining
      return (made, hashes, coinbaseBUMP, headerMerkleRoot)
    match tail with
    | .error e => (32 * subtreeCount, .error e)
    | .ok (made, parsed) => (32 * subtreeCount + made, .ok parsed)

/-! ### Hostile bytes -/

/-- A computation that stays within its slices and returns what satisfies `P`. -/
def InRange (P : α → Prop) : Except Failure α → Prop
  | .ok a => P a
  | .error e => e ≠ .panic

theorem InRange.bind {P : α → Prop} {Q : β → Prop} {x : Except Failure α}
    {f : α → Except Failure β} (hx : InRange P x) (hf : ∀ a, P a → InRange Q (f a)) :
    InRange Q (x >>= f) := by
  cases x with
  | error e => exact hx
  | ok a => exact hf a hx

theorem inRange_slice {data : Bytes} {lo : Int} {hi : Nat}
    (h : 0 ≤ lo ∧ lo ≤ hi ∧ hi ≤ data.length) :
    InRange (·.length = hi - lo) (slice data lo hi) := by
  rw [slice, if_pos h]
  simp only [InRange, length_drop, length_take]
  omega

theorem inRange_readCount (what name : String) (max : Nat) (r : Bytes) :
    InRange (·.2.length ≤ r.length) (readCount what name max r) := by
  unfold readCount
  split
  · simp [InRange]
  · next hread =>
    split_ifs
    · simp [InRange]
    · exact (readVarInt_length hread).le

theorem inRange_readHead (data : Bytes) :
    InRange (fun (_, n, r) => 32 * n ≤ r.length ∧ r.length ≤ data.length) (readHead data) := by
  unfold readHead
  split_ifs with h
  · simp [InRange]
  · refine (inRange_slice (by omega)).bind fun _ _ => (inRange_slice (by omega)).bind fun _ h₀ =>
      (inRange_readCount _ _ _ _).bind fun _ h₁ => (inRange_readCount _ _ _ _).bind fun _ h₂ =>
      (inRange_readCount _ _ _ _).bind fun _ h₃ => ?_
    dsimp only
    split_ifs with hfits
    · simp [InRange]
    · simp only [InRange, pure, Except.pure]
      omega

theorem inRange_readSubtreeHashes (i n : Nat) (r : Bytes) :
    InRange (·.2.length + 32 * n = r.length) (readSubtreeHashes i n r) := by
  induction n generalizing i r with
  | zero => simp [readSubtreeHashes, InRange]
  | succ n ih =>
    unfold readSubtreeHashes readFull
    split_ifs with h
    · simp [InRange]
    · refine (ih _ _).bind fun _ hlen => ?_
      simp only [length_drop] at hlen
      simp only [InRange, pure, Except.pure]
      omega

variable {newTransactionFromStream}

theorem inRange_readCoinbaseBUMP
    (htx : ∀ data used, newTransactionFromStream data = some used → used ≤ data.length)
    (remaining : Bytes) :
    InRange (·.1 ≤ remaining.length) (readCoinbaseBUMP newTransactionFromStream remaining) := by
  unfold readCoinbaseBUMP
  split
  · exact Nat.zero_le _
  · next used hused =>
    refine (inRange_slice ⟨Int.natCast_nonneg _, Int.ofNat_le.mpr (htx _ _ hused), le_rfl⟩).bind fun r hr => ?_
    split
    · exact Nat.zero_le _
    · next h₁ =>
      split
      · exact Nat.zero_le _
      · next h₂ =>
        have := readVarInt_length h₁
        have := readVarInt_length h₂
        split_ifs with hzero hfits
        · exact Nat.zero_le _
        · exact Nat.zero_le _
        -- the guard bounds the buffer by what the reader still holds
        · simp only [InRange, pure, Except.pure]
          omega

/-! ### What the format writes -/

/-- The parts of a binary block, within the limits of the parser. -/
structure Parts where
  header : Bytes
  txCount : Nat
  sizeBytes : Nat
  hashes : List Bytes
  coinbase : Bytes
  height : Nat
  bump : Bytes
  header_length : header.length = 80
  txCount_le : txCount ≤ maxTxCount
  sizeBytes_le : sizeBytes ≤ maxBlockSizeBytes
  hashes_le : hashes.length ≤ maxSubtreeCount
  hash_length : ∀ hash ∈ hashes, hash.length = 32
  height_lt : height < 2 ^ 64
  bump_ne : bump ≠ []
  bump_lt : bump.length < 2 ^ 64

namespace Parts

def front (p : Parts) : Bytes :=
  p.header ++ (varIntBytes p.txCount ++ (varIntBytes p.sizeBytes ++
    (varIntBytes p.hashes.length ++ p.hashes.flatten)))

def tail (p : Parts) : Bytes :=
  p.coinbase ++ (varIntBytes p.height ++ (varIntBytes p.bump.length ++ p.bump))

def encode (p : Parts) : Bytes := p.front ++ p.tail

end Parts

theorem readCount_varIntBytes {n max : Nat} (h : n ≤ max) (hmax : max < 2 ^ 64)
    (what name : String) (rest : Bytes) :
    readCount what name max (varIntBytes n ++ rest) = .ok (n, rest) := by
  rw [readCount, readVarInt_varIntBytes (by omega)]
  exact if_neg h.not_gt

theorem slice_suffix {lo : Int} {a b : Bytes} (h : a.length = lo) :
    slice (a ++ b) lo (a ++ b).length = .ok b := by
  rw [slice, ← h, if_pos (by simp), take_length, Int.toNat_natCast, drop_left]

theorem readHead_front (p : Parts) (rest : Bytes) : readHead (p.front ++ rest) =
      .ok ((p.header.take 68).drop 36, p.hashes.length, p.hashes.flatten ++ rest) := by
  have hflat : p.hashes.flatten.length = 32 * p.hashes.length := by
    rw [length_flatten, eq_replicate_of_mem (l := p.hashes.map length) (a := 32)]
    · simp [mul_comm]
    · simpa using p.hash_length
  have hlong : 80 ≤ (p.front ++ rest).length := by simp [Parts.front, p.header_length]
  have hroot : slice (p.front ++ rest) 36 68 = .ok ((p.header.take 68).drop 36) := by
    rw [slice, if_pos (by omega), Parts.front, append_assoc,
      take_append_of_le_length (by simp [p.header_length])]
    rfl
  have hheader : (p.header.length : Int) = 80 := by rw [p.header_length]; rfl
  rw [readHead, if_neg hlong.not_gt, hroot]
  simp only [Parts.front, append_assoc, slice_suffix hheader, bind, Except.bind,
    readCount_varIntBytes p.txCount_le (by decide),
    readCount_varIntBytes p.sizeBytes_le (by decide),
    readCount_varIntBytes p.hashes_le (by decide), pure, Except.pure]
  rw [if_neg (by rw [length_append, hflat]; omega)]

theorem readSubtreeHashes_flatten {hashes : List Bytes} (h : ∀ hash ∈ hashes, hash.length = 32)
    (i : Nat) (rest : Bytes) :
    readSubtreeHashes i hashes.length (hashes.flatten ++ rest) = .ok (hashes, rest) := by
  induction hashes generalizing i with
  | nil => rfl
  | cons hash hashes ih =>
    have hlen : hash.length = 32 := h hash mem_cons_self
    have htail := ih (fun x hx => h x (mem_cons_of_mem hash hx)) (i + 1)
    have hread : readFull 32 (hash ++ (hashes.flatten ++ rest)) =
        some (hash, hashes.flatten ++ rest) := by
      rw [readFull, if_neg (by simp [hlen]), take_left' hlen, drop_left' hlen]
    simp only [length_cons, readSubtreeHashes, flatten_cons, append_assoc, hread, htail]
    rfl

theorem readCoinbaseBUMP_tail {p : Parts}
    (hcoinbase : ∀ rest, newTransactionFromStream (p.coinbase ++ rest) = some p.coinbase.length)
    (trailing : Bytes) :
    readCoinbaseBUMP newTransactionFromStream (p.tail ++ trailing) =
      .ok (p.bump.length, some p.bump) := by
  have hne : p.bump.length ≠ 0 := by simp [p.bump_ne]
  have hfits : ¬ (p.bump ++ trailing).length < p.bump.length := by simp
  rw [readCoinbaseBUMP, Parts.tail, append_assoc, hcoinbase]
  simp only [slice_suffix rfl, append_assoc, readVarInt_varIntBytes p.height_lt, bind, pure,
    readVarInt_varIntBytes p.bump_lt, if_neg hne, if_neg hfits, readFull, take_left,
    Option.map_some, Except.bind, Except.pure]

/-- Whatever the bytes, the parser stays within its slices and allocates no more than the
input holds; and it reads back every block the format can write. -/
theorem parseBlockBinary_safe
    (htx : ∀ data used, newTransactionFromStream data = some used → used ≤ data.length) :
    (∀ data, (parseBlockBinary newTransactionFromStream data).1 ≤ data.length ∧
      (parseBlockBinary newTransactionFromStream data).2 ≠ .error .panic) ∧
    ∀ (p : Parts) (trailing : Bytes),
      (∀ rest, newTransactionFromStream (p.coinbase ++ rest) = some p.coinbase.length) →
      (parseBlockBinary newTransactionFromStream (p.encode ++ trailing)).2 =
        .ok (p.hashes, some p.bump, (p.header.take 68).drop 36) := by
  constructor
  · intro data
    have hhead := inRange_readHead data
    unfold parseBlockBinary
    cases h : readHead data with
    | error e => simpa [h, InRange] using hhead
    | ok head =>
      obtain ⟨root, n, r⟩ := head
      rw [h] at hhead
      obtain ⟨hfits, hr⟩ := hhead
      dsimp only
      generalize htail : (readSubtreeHashes 0 n r >>= fun _ => _) = tail
      have : InRange (fun made => 32 * n + made.1 ≤ data.length) tail := by
        subst htail
        refine (inRange_readSubtreeHashes 0 n r).bind fun read hread =>
          (inRange_slice (by omega)).bind fun _ hlen =>
          (inRange_readCoinbaseBUMP htx _).bind fun _ hbump => ?_
        simp only [InRange, pure, Except.pure]
        omega
      cases tail with
      | error e => exact ⟨hfits.trans hr, by simpa [InRange] using this⟩
      | ok parsed => exact ⟨this, by simp⟩
  · intro p trailing hcoinbase
    have hrest : slice (p.front ++ (p.tail ++ trailing))
        ((p.front ++ (p.tail ++ trailing)).length - (p.tail ++ trailing).length : Int)
        (p.front ++ (p.tail ++ trailing)).length = .ok (p.tail ++ trailing) :=
      slice_suffix (by rw [length_append, Int.natCast_add, Int.add_sub_cancel])
    simp only [parseBlockBinary, Parts.encode, append_assoc, readHead_front,
      readSubtreeHashes_flatten p.hash_length, bind, Except.bind, hrest,
      readCoinbaseBUMP_tail hcoinbase, pure, Except.pure]

/-- One subtree, a coinbase transaction and a BUMP of one byte each. -/
def oneSubtree : Parts where
  header := List.replicate 80 0
  txCount := 1
  sizeBytes := 300
  hashes := [List.replicate 32 7]
  coinbase := [5]
  height := 3
  bump := [9]
  header_length := by decide
  txCount_le := by decide
  sizeBytes_le := by decide
  hashes_le := by decide
  hash_length := by decide
  height_lt := by decide
  bump_ne := by decide
  bump_lt := by decide

theorem oneSubtree_parsed :
    (parseBlockBinary (fun data => data.head?.map fun _ => 1) (oneSubtree.encode ++ [0])).2 =
      .ok ([List.replicate 32 7], some [9], List.replicate 32 0) := by
  refine (parseBlockBinary_safe fun data used h => ?_).2 oneSubtree [0] fun rest => rfl
  cases data with
  | nil => cases h
  | cons b rest => simp [← Option.some.inj h]

end Arcade.Bump.BlockBinary
