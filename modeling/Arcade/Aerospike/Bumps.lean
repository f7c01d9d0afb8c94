import Arcade.Lib.GoMap
import Arcade.Lib.Slices
import Arcade.Lib.Transition

/-!
Compound BUMPs in Aerospike, for one block hash: a manifest record and numbered chunk records.
`InsertBUMP` writes the chunks, then the manifest, and last deletes the chunks that a longer value
has left over; a crash may cut it off after any of these writes. The keys of the chunks are the
same for every value, so the chunks of a value that was cut off lie where those of the stored value
are read.
-/

namespace Arcade.Aerospike

open Lib List

/-- The chunk and batch sizes of a store; `New` puts a default for one that is not positive. -/
structure Sizes where
  chunk : Nat
  batch : Nat
  chunk_pos : 0 < chunk
  batch_pos : 0 < batch

structure Manifest where
  blockHeight : UInt64
  chunkCount : Nat
  totalSize : Nat
  formatVersion : Nat
  deriving DecidableEq

structure Chunk where
  chunkIndex : Nat
  chunkData : List UInt8
  deriving DecidableEq

def bumpFormatVersion : Nat := 1

structure Records where
  manifest : Option Manifest
  chunks : GoMap Nat Chunk

inductive RecordWrite where
  | putChunk (index : Nat) (chunk : Chunk)
  | putManifest (manifest : Manifest)
  | deleteChunk (index : Nat)

namespace Records

def apply (s : Records) : RecordWrite → Records
  | .putChunk index chunk => { s with chunks := s.chunks.insert index chunk }
  | .putManifest manifest => { s with manifest := some manifest }
  | .deleteChunk index => { s with chunks := s.chunks.erase index }

def writeAll (s : Records) (writes : List RecordWrite) : Records := writes.foldl apply s

end Records

/-! ## Writing -/

variable (sizes : Sizes)

def chunkCount (bumpData : List UInt8) : Nat :=
  if sizes.chunk < bumpData.length then (bumpData.length + sizes.chunk - 1) / sizes.chunk else 1

def chunkOf (bumpData : List UInt8) (i : Nat) : Chunk :=
  let off := i * sizes.chunk
  let tail := min (off + sizes.chunk) bumpData.length
  ⟨i, (bumpData.take tail).drop off⟩

def writeBumpChunks (bumpData : List UInt8) (chunkCount : Nat) : List RecordWrite :=
  (slices sizes.batch (List.range chunkCount)).flatMap fun batch =>
    batch.map fun i => .putChunk i (chunkOf sizes bumpData i)

def deleteBumpChunkRange (fromIdx toExcl : Nat) : List RecordWrite :=
  (slices sizes.batch (List.range' fromIdx (toExcl - fromIdx))).flatMap fun batch =>
    batch.map .deleteChunk

def manifestOf (blockHeight : UInt64) (bumpData : List UInt8) : Manifest where
  blockHeight
  chunkCount := chunkCount sizes bumpData
  totalSize := bumpData.length
  formatVersion := bumpFormatVersion

/-- The record writes of `InsertBUMP`, in order. `readFails` is the read of the old manifest that
returns an error, which leaves the old chunks where they are. -/
def insertBUMP (s : Records) (readFails : Bool) (blockHeight : UInt64) (bumpData : List UInt8) :
    List RecordWrite :=
  let oldChunkCount := if readFails then 0 else (s.manifest.map (·.chunkCount)).getD 0
  let newChunkCount := chunkCount sizes bumpData
  writeBumpChunks sizes bumpData newChunkCount ++
    .putManifest (manifestOf sizes blockHeight bumpData) ::
    if newChunkCount < oldChunkCount then deleteBumpChunkRange sizes newChunkCount oldChunkCount
    else []

/-! ## Reading -/

inductive GetError where
  | notFound
  | invalidManifest (manifest : Manifest)
  | missing (index : Nat)
  | indexMismatch (index got : Nat)
  | overflow (index off length total : Nat)
  | assembled (written total : Nat)
  deriving DecidableEq

/-- `copy(out[off:], data)` where the data fits. -/
def copyAt (out : List UInt8) (off : Nat) (data : List UInt8) : List UInt8 :=
  out.take off ++ data ++ out.drop (off + data.length)

/-- One chunk of `readBumpChunks`: the buffer and the number of bytes written. -/
def readChunk (chunks : GoMap Nat Chunk) (totalSize : Nat) (acc : List UInt8 × Nat) (idx : Nat) :
    Except GetError (List UInt8 × Nat) :=
  match chunks.lookup idx with
  | none => .error (.missing idx)
  | some chunk =>
    let off := idx * sizes.chunk
    if chunk.chunkIndex ≠ idx then .error (.indexMismatch idx chunk.chunkIndex)
    else if totalSize < off + chunk.chunkData.length then
      .error (.overflow idx off chunk.chunkData.length totalSize)
    else .ok (copyAt acc.1 off chunk.chunkData, acc.2 + chunk.chunkData.length)

def readBumpChunks (chunks : GoMap Nat Chunk) (chunkCount totalSize : Nat) :
    Except GetError (List UInt8) := do
  let (out, written) ← (slices sizes.batch (List.range chunkCount)).foldlM
    (fun acc batch => batch.foldlM (readChunk sizes chunks totalSize) acc)
    (List.replicate totalSize 0, 0)
  if written ≠ totalSize then throw (.assembled written totalSize)
  return out

def getBUMP (s : Records) : Except GetError (UInt64 × List UInt8) := do
  match s.manifest with
  | none => throw .notFound
  | some manifest =>
    if manifest.chunkCount = 0 ∨ manifest.formatVersion ≠ bumpFormatVersion then
      throw (.invalidManifest manifest)
    let data ← readBumpChunks sizes s.chunks manifest.chunkCount manifest.totalSize
    return (manifest.blockHeight, data)

/-! ## Calls and crashes -/

/-- An `InsertBUMP` call, and how many of its record writes land before it is cut off. -/
structure InsertCall where
  blockHeight : UInt64
  bumpData : List UInt8
  readFails : Bool
  landed : Nat

/-- The records, and the value of the last call whose manifest write landed. -/
structure Bumps where
  records : Records
  value : Option (UInt64 × List UInt8)

namespace Bumps

def start : Bumps := ⟨⟨none, ∅⟩, none⟩

def step (s : Bumps) (call : InsertCall) : Bumps where
  records := s.records.writeAll
    ((insertBUMP sizes s.records call.readFails call.blockHeight call.bumpData).take call.landed)
  value := if chunkCount sizes call.bumpData < call.landed then
    some (call.blockHeight, call.bumpData) else s.value

/-- What `GetBUMP` is to return. -/
def expected (s : Bumps) : Except GetError (UInt64 × List UInt8) :=
  match s.value with
  | none => .error .notFound
  | some value => .ok value

/-- The manifest write lands, or the chunks that land are those of the stored value. -/
def Harmless (s : Bumps) (call : InsertCall) : Prop :=
  chunkCount sizes call.bumpData < call.landed ∨
    ∀ value ∈ s.value, ∀ i < min call.landed (chunkCount sizes value.2),
      chunkOf sizes call.bumpData i = chunkOf sizes value.2 i

instance (s : Bumps) (call : InsertCall) : Decidable (Harmless sizes s call) :=
  inferInstanceAs (Decidable (_ ∨ _))

end Bumps

/-! ## The chunks of a value -/

variable (bumpData : List UInt8) (s : Records) {n : Nat}

theorem chunkCount_pos : 0 < chunkCount sizes bumpData := by
  unfold chunkCount
  split
  · exact Nat.div_pos (by omega) sizes.chunk_pos
  · exact Nat.one_pos

theorem length_le_chunkCount_mul : bumpData.length ≤ chunkCount sizes bumpData * sizes.chunk := by
  unfold chunkCount
  split
  · have hdiv := Nat.div_add_mod (bumpData.length + sizes.chunk - 1) sizes.chunk
    have hmod := Nat.mod_lt (bumpData.length + sizes.chunk - 1) sizes.chunk_pos
    rw [Nat.mul_comm]
    omega
  · omega

theorem mul_le_length_of_lt {bumpData : List UInt8} {i : Nat} (h : i < chunkCount sizes bumpData) :
    i * sizes.chunk ≤ bumpData.length := by
  unfold chunkCount at h
  split at h
  · have hmul := Nat.mul_le_mul_right sizes.chunk (Nat.succ_le_of_lt h)
    have hdiv := Nat.div_mul_le_self (bumpData.length + sizes.chunk - 1) sizes.chunk
    rw [Nat.succ_mul] at hmul
    omega
  · obtain rfl : i = 0 := by omega
    omega

theorem chunkData_chunkOf (i : Nat) :
    (chunkOf sizes bumpData i).chunkData = (bumpData.drop (i * sizes.chunk)).take sizes.chunk := by
  simp only [chunkOf, drop_take]
  rcases Nat.le_total (i * sizes.chunk + sizes.chunk) bumpData.length with hle | hle
  · rw [Nat.min_eq_left hle, Nat.add_sub_cancel_left]
  · rw [Nat.min_eq_right hle, take_of_length_le (by simp), take_of_length_le (by simp; omega)]

theorem writeBumpChunks_eq (n : Nat) : writeBumpChunks sizes bumpData n =
    (List.range n).map fun i => .putChunk i (chunkOf sizes bumpData i) := by
  rw [writeBumpChunks, flatMap_def, ← map_flatten, flatten_slices sizes.batch_pos]

theorem deleteBumpChunkRange_eq (fromIdx toExcl : Nat) : deleteBumpChunkRange sizes fromIdx toExcl =
    (List.range' fromIdx (toExcl - fromIdx)).map .deleteChunk := by
  rw [deleteBumpChunkRange, flatMap_def, ← map_flatten, flatten_slices sizes.batch_pos]

/-! ## What the writes leave -/

theorem writeAll_append (writes writes' : List RecordWrite) :
    s.writeAll (writes ++ writes') = (s.writeAll writes).writeAll writes' :=
  foldl_append

theorem writeAll_putChunks (bumpData : List UInt8) (n : Nat) :
    let s' := s.writeAll ((List.range n).map fun i => .putChunk i (chunkOf sizes bumpData i))
    s'.manifest = s.manifest ∧ ∀ i, s'.chunks.lookup i =
      if i < n then some (chunkOf sizes bumpData i) else s.chunks.lookup i := by
  induction n with
  | zero => exact ⟨rfl, fun i => by simp [Records.writeAll]⟩
  | succ n ih =>
    obtain ⟨hmanifest, hchunks⟩ := ih
    rw [range_succ, map_append, writeAll_append]
    refine ⟨hmanifest, ?_⟩
    intro i
    simp only [map_singleton, Records.writeAll, foldl_cons, foldl_nil, Records.apply]
    rw [GoMap.lookup_insert_eq]
    rcases Nat.lt_trichotomy i n with hi | rfl | hi
    · rw [if_neg (by omega), if_pos (by omega)]
      exact (hchunks i).trans (if_pos hi)
    · simp
    · rw [if_neg (by omega), if_neg (by omega)]
      exact (hchunks i).trans (if_neg (by omega))

theorem writeAll_deleteChunks {indexes : List Nat} (h : ∀ i ∈ indexes, n ≤ i) :
    let s' := s.writeAll (indexes.map .deleteChunk)
    s'.manifest = s.manifest ∧ ∀ i < n, s'.chunks.lookup i = s.chunks.lookup i := by
  induction indexes generalizing s with
  | nil => exact ⟨rfl, fun i _ => rfl⟩
  | cons index indexes ih =>
    obtain ⟨hmanifest, hchunks⟩ := ih (s.apply (.deleteChunk index))
      fun i hi => h i (mem_cons_of_mem _ hi)
    refine ⟨hmanifest, ?_⟩
    intro i hi
    have hne : i ≠ index := by
      have := h index mem_cons_self
      omega
    refine (hchunks i hi).trans ?_
    exact AList.lookup_erase_ne hne

theorem take_insertBUMP_of_le (readFails : Bool) (blockHeight : UInt64) {bumpData : List UInt8}
    {landed : Nat} (h : landed ≤ chunkCount sizes bumpData) :
    (insertBUMP sizes s readFails blockHeight bumpData).take landed =
      (List.range landed).map fun i => .putChunk i (chunkOf sizes bumpData i) := by
  rw [insertBUMP, writeBumpChunks_eq, take_append_of_le_length (by simpa using h),
    ← map_take, take_range, Nat.min_eq_left h]

theorem take_insertBUMP_of_lt (readFails : Bool) (blockHeight : UInt64) {bumpData : List UInt8}
    {landed : Nat} (h : chunkCount sizes bumpData < landed) :
    ∃ indexes : List Nat, (∀ i ∈ indexes, chunkCount sizes bumpData ≤ i) ∧
      (insertBUMP sizes s readFails blockHeight bumpData).take landed =
        (List.range (chunkCount sizes bumpData)).map
            (fun i => .putChunk i (chunkOf sizes bumpData i)) ++
          .putManifest (manifestOf sizes blockHeight bumpData) :: indexes.map .deleteChunk := by
  obtain ⟨k, rfl⟩ := Nat.exists_eq_add_of_lt h
  simp only [insertBUMP]
  generalize (if readFails then 0 else (s.manifest.map (·.chunkCount)).getD 0) = oldChunkCount
  have htake : ∀ rest : List RecordWrite,
      (writeBumpChunks sizes bumpData (chunkCount sizes bumpData) ++
        .putManifest (manifestOf sizes blockHeight bumpData) :: rest).take
          (chunkCount sizes bumpData + k + 1) =
      (List.range (chunkCount sizes bumpData)).map
            (fun i => .putChunk i (chunkOf sizes bumpData i)) ++
        .putManifest (manifestOf sizes blockHeight bumpData) :: rest.take k := by
    intro rest
    rw [writeBumpChunks_eq, take_append, take_of_length_le (by simp; omega)]
    simp [show chunkCount sizes bumpData + k + 1 - chunkCount sizes bumpData = k + 1 by omega]
  rw [htake]
  split
  · refine ⟨(List.range' (chunkCount sizes bumpData)
      (oldChunkCount - chunkCount sizes bumpData)).take k, ?_, ?_⟩
    · intro i hi
      exact (mem_range'_1.mp (mem_of_mem_take hi)).1
    · rw [deleteBumpChunkRange_eq, map_take]
  · exact ⟨[], by simp, by simp⟩

/-! ## What is read -/

def Intact (chunks : GoMap Nat Chunk) (bumpData : List UInt8) : Prop :=
  ∀ i < chunkCount sizes bumpData, chunks.lookup i = some (chunkOf sizes bumpData i)

theorem copyAt_chunkOf {bumpData : List UInt8} (h : n < chunkCount sizes bumpData) :
    copyAt (bumpData.take (n * sizes.chunk) ++
        List.replicate (bumpData.length - n * sizes.chunk) 0) (n * sizes.chunk)
        (chunkOf sizes bumpData n).chunkData =
      bumpData.take ((n + 1) * sizes.chunk) ++
        List.replicate (bumpData.length - (n + 1) * sizes.chunk) 0 := by
  have hle := mul_le_length_of_lt sizes h
  have hlen : (bumpData.take (n * sizes.chunk)).length = n * sizes.chunk := by simp [hle]
  rw [copyAt, take_left' hlen, ← drop_drop, drop_left' hlen, chunkData_chunkOf,
    drop_replicate, length_take, length_drop, Nat.succ_mul, take_add]
  congr 2
  omega

theorem length_chunkOf (n : Nat) : (chunkOf sizes bumpData n).chunkData.length =
      min sizes.chunk (bumpData.length - n * sizes.chunk) := by
  rw [chunkData_chunkOf, length_take, length_drop]

theorem foldlM_readChunk {chunks : GoMap Nat Chunk} {bumpData : List UInt8}
    (h : Intact sizes chunks bumpData) (hn : n ≤ chunkCount sizes bumpData) :
    (List.range n).foldlM (readChunk sizes chunks bumpData.length)
        (List.replicate bumpData.length 0, 0) =
      .ok (bumpData.take (n * sizes.chunk) ++ List.replicate (bumpData.length - n * sizes.chunk) 0,
        min (n * sizes.chunk) bumpData.length) := by
  induction n with
  | zero => simp [pure, Except.pure]
  | succ n ih =>
    have hlt : n < chunkCount sizes bumpData := hn
    have hle := mul_le_length_of_lt sizes hlt
    have hlen := length_chunkOf sizes bumpData n
    have hfits : ¬bumpData.length <
        n * sizes.chunk + (chunkOf sizes bumpData n).chunkData.length := by omega
    have hwritten : min (n * sizes.chunk) bumpData.length +
        (chunkOf sizes bumpData n).chunkData.length =
          min ((n + 1) * sizes.chunk) bumpData.length := by
      rw [Nat.succ_mul]
      omega
    have hindex : (chunkOf sizes bumpData n).chunkIndex = n := rfl
    rw [range_succ, foldlM_append, ih (Nat.le_of_succ_le hn)]
    simp [bind, Except.bind, pure, Except.pure, readChunk, h n hlt, hindex, hfits, hwritten,
      copyAt_chunkOf sizes hlt]

theorem getBUMP_of_intact {s : Records} {blockHeight : UInt64} {bumpData : List UInt8}
    (hmanifest : s.manifest = some (manifestOf sizes blockHeight bumpData))
    (h : Intact sizes s.chunks bumpData) : getBUMP sizes s = .ok (blockHeight, bumpData) := by
  have hlen := length_le_chunkCount_mul sizes bumpData
  have hpos := chunkCount_pos sizes bumpData
  have hread : readBumpChunks sizes s.chunks (chunkCount sizes bumpData) bumpData.length =
      .ok bumpData := by
    rw [readBumpChunks, foldlM_slices _ sizes.batch_pos, foldlM_readChunk sizes h le_rfl]
    simp [bind, Except.bind, pure, Except.pure, Nat.min_eq_right hlen,
      take_of_length_le hlen, Nat.sub_eq_zero_of_le hlen]
  simp [getBUMP, hmanifest, manifestOf, hread, bumpFormatVersion, hpos.ne', bind, Except.bind, pure,
    Except.pure]

/-- The copies made from chunks of the given bytes. -/
structure Copied (data : Nat → List UInt8) (total n : Nat) (acc : List UInt8 × Nat) : Prop where
  length : acc.1.length = total
  copied : ∀ i < n, (acc.1.drop (i * sizes.chunk)).take (data i).length = data i
  written : acc.2 ≤ min (n * sizes.chunk) total
  full : acc.2 = min (n * sizes.chunk) total →
    ∀ i < n, (data i).length = min sizes.chunk (total - i * sizes.chunk)

theorem Copied.succ {data : Nat → List UInt8} {total : Nat} {acc : List UInt8 × Nat}
    (h : Copied sizes data total n acc) (hshort : ∀ i ≤ n, (data i).length ≤ sizes.chunk)
    (hfits : n * sizes.chunk + (data n).length ≤ total) : Copied sizes data total (n + 1)
      (copyAt acc.1 (n * sizes.chunk) (data n), acc.2 + (data n).length) := by
  obtain ⟨out, written⟩ := acc
  have hlength : out.length = total := h.length
  have hle : written ≤ min (n * sizes.chunk) total := h.written
  have hoff : (out.take (n * sizes.chunk)).length = n * sizes.chunk := by
    rw [length_take]
    omega
  have hdata := hshort n le_rfl
  refine ⟨?_, fun i hi => ?_, ?_, fun heq i hi => ?_⟩
  · simp only [copyAt, length_append, length_drop, hoff]
    omega
  · rcases Nat.lt_succ_iff_lt_or_eq.mp hi with hi | rfl
    · -- the copy leaves what lies before it
      have hmul := Nat.mul_le_mul_right sizes.chunk (Nat.succ_le_of_lt hi)
      have hend : i * sizes.chunk + (data i).length ≤ n * sizes.chunk := by
        have := hshort i hi.le
        rw [Nat.succ_mul] at hmul
        omega
      have hold := h.copied i hi
      rw [take_drop] at hold ⊢
      rwa [copyAt, append_assoc, take_append_of_le_length (hend.trans hoff.ge), take_take,
        Nat.min_eq_left hend]
    · rw [copyAt, append_assoc, drop_left' hoff, take_left]
  · simp only [Nat.succ_mul]
    omega
  · simp only [Nat.succ_mul] at heq
    rcases Nat.lt_succ_iff_lt_or_eq.mp hi with hi | rfl
    · exact h.full (by simp only; omega) i hi
    · omega

theorem copied_of_foldlM {chunks : GoMap Nat Chunk} {values : Nat → List UInt8} {total : Nat}
    (hchunks : ∀ i < n, chunks.lookup i = some (chunkOf sizes (values i) i))
    {acc : List UInt8 × Nat}
    (h : (List.range n).foldlM (readChunk sizes chunks total) (List.replicate total 0, 0) = .ok acc) :
    Copied sizes (fun i => (chunkOf sizes (values i) i).chunkData) total n acc := by
  induction n generalizing acc with
  | zero =>
    cases h
    exact ⟨length_replicate, nofun, Nat.zero_le _, fun _ _ hi => absurd hi (Nat.not_lt_zero _)⟩
  | succ n ih =>
    simp only [range_succ, foldlM_append, foldlM_cons, foldlM_nil, bind_pure] at h
    cases hacc : (List.range n).foldlM (readChunk sizes chunks total) (List.replicate total 0, 0) with
    | error err =>
      rw [hacc] at h
      cases h
    | ok acc' =>
      have hold := ih (fun i hi => hchunks i (Nat.lt_succ_of_lt hi)) hacc
      have hindex : (chunkOf sizes (values n) n).chunkIndex = n := rfl
      have hread : readChunk sizes chunks total acc' n = .ok acc := by
        rwa [hacc] at h
      simp only [readChunk, hchunks n n.lt_succ_self, hindex, ne_eq, not_true_eq_false,
        if_false] at hread
      split at hread
      · cases hread
      · rename_i hfits
        cases hread
        refine hold.succ sizes (fun i _ => ?_) (Nat.le_of_not_lt hfits)
        rw [length_chunkOf]
        exact Nat.min_le_left _ _

theorem intact_of_getBUMP {s : Records} {blockHeight : UInt64} {bumpData : List UInt8}
    (hmanifest : s.manifest = some (manifestOf sizes blockHeight bumpData))
    (hchunks : ∀ i < chunkCount sizes bumpData, ∃ value, s.chunks.lookup i =
      some (chunkOf sizes value i))
    (h : getBUMP sizes s = .ok (blockHeight, bumpData)) : Intact sizes s.chunks bumpData := by
  choose! values hvalues using hchunks
  have hpos := chunkCount_pos sizes bumpData
  have hlen := length_le_chunkCount_mul sizes bumpData
  simp only [getBUMP, hmanifest, manifestOf, hpos.ne', ne_eq, not_true_eq_false, or_self, if_false,
    readBumpChunks, foldlM_slices _ sizes.batch_pos] at h
  cases hacc : (List.range (chunkCount sizes bumpData)).foldlM
    (readChunk sizes s.chunks bumpData.length) (List.replicate bumpData.length 0, 0) with
  | error err => simp [hacc, bind, Except.bind] at h
  | ok acc =>
    have hcopied := copied_of_foldlM sizes hvalues hacc
    have hread : acc.2 = bumpData.length ∧ acc.1 = bumpData := by
      by_cases hfull : acc.2 = bumpData.length
      · simpa [hacc, hfull, bind, Except.bind, pure, Except.pure] using h
      · simp [hacc, hfull, bind, Except.bind, throw, throwThe, MonadExceptOf.throw] at h
    intro i hi
    -- the chunk is as long as that of the value, and it is what lies at its place
    have hlength := hcopied.full (by omega) i hi
    have hdata := hcopied.copied i hi
    rw [hread.2, hlength, ← length_drop, ← take_take, take_length, ← chunkData_chunkOf] at hdata
    rw [hvalues i hi]
    exact congrArg (some ∘ Chunk.mk i) hdata.symm

/-! ## Runs -/

namespace Bumps

variable {s : Bumps} {call : InsertCall}

/-- The manifest is that of the last value, and its chunks are chunks of some value. -/
structure Placed (s : Bumps) : Prop where
  empty : s.value = none → s.records.manifest = none
  manifest : ∀ value ∈ s.value, s.records.manifest = some (manifestOf sizes value.1 value.2)
  chunks : ∀ value ∈ s.value, ∀ i < chunkCount sizes value.2, ∃ bumpData,
    s.records.chunks.lookup i = some (chunkOf sizes bumpData i)

/-- The chunks of the last value are in place. -/
def Whole (s : Bumps) : Prop := ∀ value ∈ s.value, Intact sizes s.records.chunks value.2

theorem Placed.getBUMP_iff (h : Placed sizes s) :
    getBUMP sizes s.records = s.expected ↔ Whole sizes s := by
  unfold expected Whole
  cases hvalue : s.value with
  | none => simp [getBUMP, h.empty hvalue, throw, throwThe, MonadExceptOf.throw]
  | some value =>
    have hmanifest := h.manifest value hvalue
    simp only [Option.mem_some_iff, forall_eq']
    exact ⟨intact_of_getBUMP sizes hmanifest (h.chunks value hvalue),
      getBUMP_of_intact sizes hmanifest⟩

theorem step_of_lt (hlt : chunkCount sizes call.bumpData < call.landed) :
    (s.step sizes call).value = some (call.blockHeight, call.bumpData) ∧
      (s.step sizes call).records.manifest =
        some (manifestOf sizes call.blockHeight call.bumpData) ∧
      Intact sizes (s.step sizes call).records.chunks call.bumpData := by
  refine ⟨if_pos hlt, ?_⟩
  obtain ⟨indexes, hindexes, htake⟩ := take_insertBUMP_of_lt sizes s.records call.readFails
    call.blockHeight hlt
  have hputs := writeAll_putChunks sizes s.records call.bumpData (chunkCount sizes call.bumpData)
  obtain ⟨hmanifest, hchunks⟩ := writeAll_deleteChunks
    ((s.records.writeAll ((List.range (chunkCount sizes call.bumpData)).map
      fun i => .putChunk i (chunkOf sizes call.bumpData i))).apply
        (.putManifest (manifestOf sizes call.blockHeight call.bumpData))) hindexes
  simp only [Bumps.step]
  rw [htake, writeAll_append]
  refine ⟨hmanifest, ?_⟩
  intro i hi
  exact (hchunks i hi).trans ((hputs.2 i).trans (if_pos hi))

theorem step_of_le (hle : call.landed ≤ chunkCount sizes call.bumpData) :
    (s.step sizes call).value = s.value ∧
      (s.step sizes call).records.manifest = s.records.manifest ∧
      ∀ i, (s.step sizes call).records.chunks.lookup i = if i < call.landed then
        some (chunkOf sizes call.bumpData i) else s.records.chunks.lookup i := by
  refine ⟨if_neg (by omega), ?_⟩
  simp only [Bumps.step]
  rw [take_insertBUMP_of_le sizes s.records call.readFails call.blockHeight hle]
  exact writeAll_putChunks sizes s.records call.bumpData call.landed

theorem Placed.step (h : Placed sizes s) : Placed sizes (s.step sizes call) := by
  by_cases hlt : chunkCount sizes call.bumpData < call.landed
  · obtain ⟨hvalue, hmanifest, hintact⟩ := step_of_lt sizes (s := s) hlt
    refine ⟨fun hnone => by simp [hvalue] at hnone, fun value hv => ?_, fun value hv i hi => ?_⟩ <;>
      obtain rfl := Option.some.inj (hvalue.symm.trans hv)
    · exact hmanifest
    · exact ⟨_, hintact i hi⟩
  · obtain ⟨hvalue, hmanifest, hchunks⟩ := step_of_le sizes (s := s) (Nat.le_of_not_lt hlt)
    refine ⟨fun hnone => ?_, fun value hv => ?_, fun value hv i hi => ?_⟩
    · exact hmanifest.trans (h.empty (hvalue ▸ hnone))
    · exact hmanifest.trans (h.manifest value (hvalue ▸ hv))
    · rw [hchunks]
      split
      · exact ⟨_, rfl⟩
      · exact h.chunks value (hvalue ▸ hv) i hi

/-- A call leaves the chunks of the stored value in place exactly if it is harmless. -/
theorem whole_step_iff (h : Whole sizes s) :
    Whole sizes (s.step sizes call) ↔ Harmless sizes s call := by
  by_cases hlt : chunkCount sizes call.bumpData < call.landed
  · obtain ⟨hvalue, -, hintact⟩ := step_of_lt sizes (s := s) hlt
    refine iff_of_true (fun value hv => ?_) (.inl hlt)
    obtain rfl := Option.some.inj (hvalue.symm.trans hv)
    exact hintact
  · obtain ⟨hvalue, -, hchunks⟩ := step_of_le sizes (s := s) (Nat.le_of_not_lt hlt)
    rw [Harmless, or_iff_right hlt, Whole, hvalue]
    refine forall₂_congr fun value hv => ?_
    simp only [Intact, hchunks, Nat.lt_min, and_imp]
    refine ⟨fun hw i hi hcount => ?_, fun hsame i hcount => ?_⟩
    · have := hw i hcount
      rw [if_pos hi] at this
      exact Option.some.inj this
    · split
      · rename_i hi
        rw [hsame i hi hcount]
      · exact h value hv i hcount

/-- `GetBUMP` returns the value of the last manifest between all calls of a run exactly if no call
that is cut off before its manifest has written a chunk that differs from the stored value. -/
theorem getBUMP_last_iff (calls : List InsertCall) :
    (∀ s ∈ states (step sizes) start calls, getBUMP sizes s.records = s.expected) ↔
      AllSteps (step sizes) (Harmless sizes) start calls := by
  have hplaced : ∀ s ∈ states (step sizes) start calls, Placed sizes s := by
    intro s hs
    obtain ⟨before, -, -, rfl⟩ := (mem_states_iff _ _ _ _).mp hs
    exact run_keeps (fun _ _ h => h.step sizes) ⟨fun _ => rfl, nofun, nofun⟩ before
  have hall : AllSteps (step sizes) (fun _ _ => True) start calls :=
    allSteps_iff.mpr fun _ _ _ _ => trivial
  rw [← states_iff_allSteps (J := fun _ => True) (fun _ _ h _ => h)
    (fun _ _ _ h _ => whole_step_iff sizes h) trivial (fun _ h => by cases h) hall]
  exact forall₂_congr fun s hs => (hplaced s hs).getBUMP_iff sizes

def sampleSizes : Sizes := ⟨2, 1, Nat.zero_lt_two, Nat.one_pos⟩

/-- The second value begins as the first one does, and is cut off after one chunk. -/
def harmlessCalls : List InsertCall :=
  [⟨7, [1, 2, 3], false, 3⟩, ⟨7, [1, 2, 4, 5, 6], false, 1⟩]

/-- The second value is cut off after its first chunk, which differs. -/
def mixedCalls : List InsertCall :=
  [⟨7, [1, 2, 3, 4], false, 3⟩, ⟨7, [9, 9, 9, 9], false, 1⟩]

/-- The second value is short, and is cut off after its only chunk. -/
def truncatedCalls : List InsertCall :=
  [⟨7, [1, 2, 3, 4], false, 3⟩, ⟨7, [9], false, 1⟩]

theorem getBUMP_last_iff_harmless :
    AllSteps (step sampleSizes) (Harmless sampleSizes) start harmlessCalls ∧
      getBUMP sampleSizes (run (step sampleSizes) start harmlessCalls).records =
        .ok (7, [1, 2, 3]) := by
  have h : AllSteps (step sampleSizes) (Harmless sampleSizes) start harmlessCalls := by decide
  exact ⟨h, (getBUMP_last_iff sampleSizes harmlessCalls).mpr h _
    ((mem_states_iff _ _ _ _).mpr ⟨harmlessCalls, [], (append_nil _).symm, rfl⟩)⟩

theorem cutOff_mixes : (run (step sampleSizes) start mixedCalls).value = some (7, [1, 2, 3, 4]) ∧
    getBUMP sampleSizes (run (step sampleSizes) start mixedCalls).records = .ok (7, [9, 9, 3, 4]) ∧
    (run (step sampleSizes) start truncatedCalls).value = some (7, [1, 2, 3, 4]) ∧
    getBUMP sampleSizes (run (step sampleSizes) start truncatedCalls).records =
      .error (.assembled 3 4) := by
  decide

end Bumps

end Arcade.Aerospike
