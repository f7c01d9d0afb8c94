import Arcade.Lib.GoMap

/-!
The block_processing rows of the Pebble store and their writers.

A time is its `UnixNano`, and zero is a time that is not set, as in
`storedBlockProcessing`. `MarkBlocksOrphaned` mints the generation it stores
(`orphaned_at`), which the generation-checked writers take as their token.
-/

namespace Arcade.Store

open Lib

/-- `models.BlockProcessingStatusValue`. -/
inductive BlockStatus where
  | active | orphaned | parked
  deriving DecidableEq

/-- `storedBlockProcessing`; the block hash is its key. -/
structure BlockRow where
  blockHeight : Nat
  headerSeen : Int64
  processed : Int64
  bumpBuilt : Int64
  status : BlockStatus
  orphanedAt : Int64
  reconciledAt : Int64
  deriving DecidableEq

abbrev Blocks := GoMap String BlockRow

namespace BlockRow

/-- The generation `toModel` shows, and so the token of a caller that read the row. -/
def orphanGeneration (row : BlockRow) : Option Int64 :=
  if row.orphanedAt ≠ 0 ∧ row.status = .orphaned then some row.orphanedAt else none

/-- The row is on the queue of `ListOrphanedBlocksToReconcile`. -/
def Queued (row : BlockRow) : Prop := row.status = .orphaned ∧ row.reconciledAt = 0

instance (row : BlockRow) : Decidable row.Queued := inferInstanceAs (Decidable (_ ∧ _))

end BlockRow

/-! ## Headers and milestones -/

def upsertBlockHeaderSeen (blockHeight : Nat) (seenAt : Int64) : Option BlockRow → BlockRow
  | none =>
    { blockHeight, headerSeen := seenAt, processed := 0, bumpBuilt := 0, status := .active
      orphanedAt := 0, reconciledAt := 0 }
  | some prev =>
    -- the orphan generation stays as the high-water mark of the row
    { prev with
      blockHeight
      status := .active
      reconciledAt := 0
      headerSeen := if prev.headerSeen = 0 then seenAt else prev.headerSeen }

def markBlockProcessed (blockHeight : Nat) (processedAt : Int64) : Option BlockRow → BlockRow
  | none =>
    { blockHeight, headerSeen := processedAt, processed := processedAt, bumpBuilt := 0
      status := .active, orphanedAt := 0, reconciledAt := 0 }
  | some prev => { prev with processed := processedAt }

def markBlockBUMPBuilt (blockHeight : Nat) (builtAt : Int64) : Option BlockRow → BlockRow
  | none =>
    { blockHeight, headerSeen := builtAt, processed := 0, bumpBuilt := builtAt
      status := .active, orphanedAt := 0, reconciledAt := 0 }
  | some prev => { prev with bumpBuilt := builtAt }

def clearBlockProcessed (prev : BlockRow) : BlockRow := { prev with processed := 0 }

/-- `MarkBlocksParked` on one row: only an active row parks. -/
def markBlockParked (prev : BlockRow) : BlockRow :=
  if prev.status = .active then { prev with status := .parked } else prev

/-! ## Orphaning -/

def mintOrphanGeneration (prev want : Int64) : Int64 :=
  if want ≤ prev then prev + 1 else want

/-- `MarkBlocksOrphaned` on one row; `none` when a newer generation is already in place. -/
def markOrphaned (gen : Int64) (prev : BlockRow) : Option BlockRow :=
  if prev.status = .orphaned ∧ gen < prev.orphanedAt then none
  else some { prev with
    status := .orphaned
    orphanedAt := mintOrphanGeneration prev.orphanedAt gen
    reconciledAt := 0 }

/-- One round of the loop of `MarkBlocksOrphaned`, with the count of transitions so far. -/
def markRow (gen : Int64) (acc : Blocks × Nat) (hash : String) : Blocks × Nat :=
  match acc.1.lookup hash with
  | none => acc
  | some prev =>
    match markOrphaned gen prev with
    | none => acc
    | some row =>
      (acc.1.insert hash row, if prev.status = .orphaned then acc.2 else acc.2 + 1)

/-- `MarkBlocksOrphaned`. A failure or a canceled context ends the loop early:
the call then did this for the hashes before. -/
def markBlocksOrphaned (hashes : List String) (orphanedAt : Int64) (blocks : Blocks) :
    Blocks × Nat :=
  hashes.foldl (markRow orphanedAt) (blocks, 0)

/-! ## The generation-checked writers -/

/-- The row is orphaned with the caller's generation; a zero token checks the status only. -/
def tokenMatches (token : Option Int64) (prev : BlockRow) : Bool :=
  prev.status = .orphaned && token.all (fun g => prev.orphanedAt = g)

/-- A compare-and-set on the orphan generation: the row written, when it applies. -/
def casOrphan (token : Option Int64) (write : BlockRow → BlockRow) (prev : BlockRow) :
    Option BlockRow :=
  if tokenMatches token prev then some (write prev) else none

def markBlockReconciled (token : Option Int64) (at_ : Int64) : BlockRow → Option BlockRow :=
  casOrphan token fun prev => { prev with reconciledAt := at_ }

def requeueOrphanedBlock (token : Option Int64) : BlockRow → Option BlockRow :=
  casOrphan token fun prev => { prev with reconciledAt := 0 }

def reactivateBlock (blockHeight : Nat) (token : Option Int64) : BlockRow → Option BlockRow :=
  casOrphan token fun prev => { prev with blockHeight, status := .active, reconciledAt := 0 }

/-! ## What the writers do to a row -/

theorem lt_mintOrphanGeneration {prev : Int64} (want : Int64) (h : prev ≠ Int64.maxValue) :
    prev < mintOrphanGeneration prev want := by
  unfold mintOrphanGeneration
  split
  · have hlt := Int64.toInt_lt prev
    have hmax : prev.toInt ≠ 2 ^ 63 - 1 := by
      intro he
      apply h
      apply Int64.toInt_inj.mp
      rw [he]
      rfl
    have hone : (1 : Int64).toInt = 1 := rfl
    rw [Int64.lt_iff_toInt_lt, Int64.toInt_add, hone, Int.bmod_def]
    split <;> omega
  · rename_i hlt
    exact Int64.not_le.mp hlt

variable {prev row : BlockRow} {gen : Int64}

theorem markOrphaned_queued (h : markOrphaned gen prev = some row) : row.Queued := by
  unfold markOrphaned at h
  split at h
  · cases h
  · cases h
    exact ⟨rfl, rfl⟩

theorem markOrphaned_orphanedAt (h : markOrphaned gen prev = some row) :
    row.orphanedAt = mintOrphanGeneration prev.orphanedAt gen := by
  unfold markOrphaned at h
  split at h
  · cases h
  · cases h
    rfl

theorem markOrphaned_eq_none :
    markOrphaned gen prev = none ↔ prev.status = .orphaned ∧ gen < prev.orphanedAt := by
  unfold markOrphaned
  split <;> simp_all

theorem casOrphan_eq_some {token : Option Int64} {write : BlockRow → BlockRow} :
    casOrphan token write prev = some row ↔
      prev.status = .orphaned ∧ (∀ g ∈ token, prev.orphanedAt = g) ∧ row = write prev := by
  unfold casOrphan
  constructor
  · intro h
    split at h
    · rename_i hm
      simp only [tokenMatches, Bool.and_eq_true, decide_eq_true_eq] at hm
      refine ⟨hm.1, ?_, (Option.some.inj h).symm⟩
      intro g hg
      simpa [Option.mem_def.mp hg] using hm.2
    · cases h
  · rintro ⟨hs, ht, rfl⟩
    cases token with
    | none => simp [tokenMatches, hs]
    | some g => simp [tokenMatches, hs, ht g rfl]

end Arcade.Store
