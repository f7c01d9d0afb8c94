import Arcade.Pebble.Statuses
import Arcade.Lib.Transition

/-!
The secondary indexes of the status rows agree with the rows. Every index key ends in the txid of
its row, so the entries of two rows are never the same, and a writer that removes the entries of
the old row and adds those of the new one leaves every other row's entries alone.
-/

namespace Arcade.Pebble

open Lib List
open Propagation (Status)

/-! ## Keys -/

theorem hexDigit_injective {m n : Nat} (hm : m < 16) (hn : n < 16) (h : hexDigit m = hexDigit n) :
    m = n := by
  have hall : ∀ m n : Fin 16, hexDigit m = hexDigit n → m = n := by decide
  exact Fin.mk.inj_iff.mp (hall ⟨m, hm⟩ ⟨n, hn⟩ h)

theorem hexPlaces_injective {places m n : Nat} (hm : m < 16 ^ places) (hn : n < 16 ^ places)
    (h : hexPlaces places m = hexPlaces places n) : m = n := by
  induction places generalizing m n with
  | zero => omega
  | succ places ih =>
    obtain ⟨hhigh, hlow⟩ := append_inj' h rfl
    have hdiv : m / 16 = n / 16 :=
      ih (by rw [pow_succ] at hm; omega) (by rw [pow_succ] at hn; omega) hhigh
    have hmod : m % 16 = n % 16 :=
      hexDigit_injective (Nat.mod_lt _ (by decide)) (Nat.mod_lt _ (by decide))
        (singleton_injective hlow)
    omega

theorem hexTime_injective : Function.Injective hexTime := by
  intro t t' h
  have hnat : t.toUInt64.toNat = t'.toUInt64.toNat :=
    hexPlaces_injective t.toUInt64.toNat_lt t'.toUInt64.toNat_lt h
  exact Int64.toBitVec_inj.mp (congrArg UInt64.toBitVec (UInt64.toNat_inj.mp hnat))

def statusTexts : List (Status × Bytes) :=
  [.unknown, .received, .sentToNetwork, .acceptedByNetwork, .seenOnNetwork, .seenMultipleNodes,
    .doubleSpendAttempted, .rejected, .pendingRetry, .stumpProcessing, .mined, .immutable].map
      fun status => (status, statusText status)

theorem mem_statusTexts (status : Status) : (status, statusText status) ∈ statusTexts := by
  refine mem_map_of_mem ?_
  cases status <;> decide

theorem statusText_injective : Function.Injective statusText := by
  intro status status' h
  have hall : ∀ a ∈ statusTexts, ∀ b ∈ statusTexts, a.2 = b.2 → a.1 = b.1 := by decide +kernel
  exact hall _ (mem_statusTexts status) _ (mem_statusTexts status') h

inductive EntryKind where
  | status | block | retryReady | updated
  deriving DecidableEq

def EntryKind.bytes : EntryKind → Bytes
  | .status => prefixIdxTxStatus
  | .block => prefixIdxTxBlock
  | .retryReady => prefixIdxTxRetryReady
  | .updated => prefixIdxTxUpdated

theorem EntryKind.eq_or_apart (kind kind' : EntryKind) :
    kind = kind' ∨ Apart kind.bytes kind'.bytes := by
  cases kind <;> cases kind' <;> decide +kernel

/-- The common form of the index keys: what the row is found by, and its txid. -/
def entryKey (kind : EntryKind) (middle txid : Bytes) : Bytes :=
  kind.bytes ++ middle ++ [colon] ++ txid

variable {kind : EntryKind} {middle : Bytes} {st existing updated : StoredStatus} {db : DB}

theorem entryKey_eq_iff {kind' : EntryKind} {middle' txid : Bytes} :
    entryKey kind middle txid = entryKey kind' middle' txid ↔ kind = kind' ∧ middle = middle' := by
  constructor
  · intro heq
    have heq := append_cancel_right (append_cancel_right heq)
    rcases kind.eq_or_apart kind' with rfl | hapart
    · exact ⟨rfl, append_cancel_left heq⟩
    · exact absurd heq hapart.ne
  · rintro ⟨rfl, rfl⟩
    rfl

theorem entryKey_mem_statusIndexKeys : entryKey kind middle st.txid ∈ statusIndexKeys st ↔
      kind = .status ∧ middle = statusText st.status ∨
      st.blockHash ≠ [] ∧ kind = .block ∧ middle = st.blockHash ∨
      (st.status = .pendingRetry ∧ st.nextRetry ≠ 0) ∧
        kind = .retryReady ∧ middle = hexTime st.nextRetry ∨
      st.timestamp ≠ 0 ∧ kind = .updated ∧ middle = hexTime st.timestamp := by
  have hkeys : statusIndexKeys st = [entryKey .status (statusText st.status) st.txid] ++
      (if st.blockHash ≠ [] then [entryKey .block st.blockHash st.txid] else []) ++
      (if st.status = .pendingRetry ∧ st.nextRetry ≠ 0 then
        [entryKey .retryReady (hexTime st.nextRetry) st.txid] else []) ++
      (if st.timestamp ≠ 0 then [entryKey .updated (hexTime st.timestamp) st.txid]
        else []) := rfl
  rw [hkeys]
  simp only [mem_append, mem_ite_nil_right, mem_singleton, or_assoc, entryKey_eq_iff]

theorem exists_of_mem_statusIndexKeys {key : Bytes} (h : key ∈ statusIndexKeys st) :
    ∃ kind middle, key = entryKey kind middle st.txid := by
  simp only [statusIndexKeys, mem_append, mem_singleton, mem_ite_nil_right] at h
  rcases h with ((rfl | ⟨-, rfl⟩) | ⟨-, rfl⟩) | ⟨-, rfl⟩
  · exact ⟨.status, statusText st.status, rfl⟩
  · exact ⟨.block, st.blockHash, rfl⟩
  · exact ⟨.retryReady, hexTime st.nextRetry, rfl⟩
  · exact ⟨.updated, hexTime st.timestamp, rfl⟩

theorem lastSegment_of_mem_statusIndexKeys {key : Bytes} (hcolon : colon ∉ st.txid)
    (h : key ∈ statusIndexKeys st) : lastSegment key = st.txid := by
  obtain ⟨kind, middle, rfl⟩ := exists_of_mem_statusIndexKeys h
  exact lastSegment_append hcolon

theorem txKey_ne_entryKey (kind : EntryKind) (txid middle txid' : Bytes) :
    txKey txid ≠ entryKey kind middle txid' := by
  have hapart : Apart prefixTx kind.bytes := by cases kind <;> decide +kernel
  intro heq
  refine hapart.ne (x := txid) (y := middle ++ [colon] ++ txid') ?_
  rw [← append_assoc, ← append_assoc]
  exact heq

theorem txKey_notMem_statusIndexKeys (txid : Bytes) (st : StoredStatus) :
    txKey txid ∉ statusIndexKeys st := by
  intro h
  obtain ⟨kind, middle, heq⟩ := exists_of_mem_statusIndexKeys h
  exact txKey_ne_entryKey kind txid middle st.txid heq

/-! ## The agreement -/

/-- The entries that are stored are those of the stored rows, and a row is stored under its txid. -/
structure Agrees (db : DB) : Prop where
  own : ∀ txid st, readStatus db txid = some st → st.txid = txid ∧ colon ∉ txid
  entries : ∀ kind middle txid, entryKey kind middle txid ∈ db ↔
    ∃ x st, readStatus db x = some st ∧ entryKey kind middle txid ∈ statusIndexKeys st

theorem agrees_empty : Agrees ∅ where
  own txid st h := by simp [readStatus] at h
  entries kind middle txid := by simp [readStatus]

structure Replaced (db : DB) (txid : Bytes) (new : StoredStatus) (db' : DB) : Prop where
  txid_eq : new.txid = txid
  plain : colon ∉ txid
  rows : ∀ x, readStatus db' x = if x = txid then some new else readStatus db x
  entries : ∀ kind middle x, entryKey kind middle x ∈ db' ↔
    entryKey kind middle x ∈ statusIndexKeys new ∨
      (∀ old, readStatus db txid = some old → entryKey kind middle x ∉ statusIndexKeys old) ∧
        entryKey kind middle x ∈ db

theorem Agrees.replaced {db' : DB} (h : Agrees db) {txid : Bytes} {new : StoredStatus}
    (hrep : Replaced db txid new db') : Agrees db' where
  own x st hx := by
    rw [hrep.rows] at hx
    split at hx
    · rename_i heq
      obtain rfl := Option.some.inj hx
      exact ⟨hrep.txid_eq.trans heq.symm, heq ▸ hrep.plain⟩
    · exact h.own x st hx
  entries kind middle x := by
    rw [hrep.entries]
    constructor
    · rintro (hnew | ⟨hold, hmem⟩)
      · exact ⟨txid, new, by simp [hrep.rows], hnew⟩
      · obtain ⟨y, st, hy, hkey⟩ := (h.entries kind middle x).mp hmem
        have hne : y ≠ txid := by
          rintro rfl
          exact hold st hy hkey
        exact ⟨y, st, by simp [hrep.rows, hne, hy], hkey⟩
    · rintro ⟨y, st, hy, hkey⟩
      rw [hrep.rows] at hy
      split at hy
      · obtain rfl := Option.some.inj hy
        exact .inl hkey
      · rename_i hne
        obtain ⟨hyx, hplain⟩ := h.own y st hy
        refine .inr ⟨?_, (h.entries kind middle x).mpr ⟨y, st, hy, hkey⟩⟩
        -- the entry ends in the txid of its row, so it is not one of the old row as well
        intro old hold hkey'
        obtain ⟨hox, hplain'⟩ := h.own txid old hold
        have hlast := lastSegment_of_mem_statusIndexKeys (hyx ▸ hplain) hkey
        rw [lastSegment_of_mem_statusIndexKeys (hox ▸ hplain') hkey', hox, hyx] at hlast
        exact hne hlast.symm

/-! ## The batches -/

theorem lookup_rewriteStatus (db : DB) (txid : Bytes) (existing updated : StoredStatus)
    (key : Bytes) : (rewriteStatus db txid existing updated).lookup key =
      if key ∈ statusIndexKeys updated then some .index
      else if key = txKey txid then some (.status updated)
      else if key ∈ statusIndexKeys existing then none
      else db.lookup key := by
  rw [rewriteStatus, Keyspace.commit_append, Keyspace.commit_cons, addStatusIndexes,
    Keyspace.lookup_commit_sets, Keyspace.Write.apply, GoMap.lookup_insert_eq, removeStatusIndexes,
    Keyspace.lookup_commit_deletes]

theorem lookup_writeStatusNew (db : DB) (status : TransactionStatus) (key : Bytes) :
    (writeStatusNew db status).lookup key =
      if key ∈ statusIndexKeys (fromModel status) then some .index
      else if key = txKey status.txid then some (.status (fromModel status))
      else db.lookup key := by
  rw [writeStatusNew, Keyspace.commit_cons, addStatusIndexes, Keyspace.lookup_commit_sets,
    Keyspace.Write.apply, GoMap.lookup_insert_eq]

theorem readStatus_eq_of_lookup {db' : DB} {txid : Bytes} (h : ∀ x, db'.lookup (txKey x) =
      if txKey x = txKey txid then some (.status updated) else db.lookup (txKey x)) (x : Bytes) :
    readStatus db' x = if x = txid then some updated else readStatus db x := by
  unfold readStatus
  rw [h]
  by_cases hx : x = txid
  · simp [hx]
  · have hne : txKey x ≠ txKey txid := fun heq => hx (txKey_injective heq)
    rw [if_neg hne, if_neg hx]

theorem replaced_rewriteStatus {txid : Bytes} (hrow : readStatus db txid = some existing)
    (hplain : colon ∉ txid) (htxid : updated.txid = txid) :
    Replaced db txid updated (rewriteStatus db txid existing updated) where
  txid_eq := htxid
  plain := hplain
  rows := readStatus_eq_of_lookup fun x => by
    simp [lookup_rewriteStatus, txKey_notMem_statusIndexKeys]
  entries kind middle x := by
    rw [GoMap.mem_iff_lookup, GoMap.mem_iff_lookup, lookup_rewriteStatus,
      if_neg (txKey_ne_entryKey kind txid middle x).symm]
    split_ifs <;> simp_all

theorem replaced_writeStatusNew {status : TransactionStatus}
    (hrow : readStatus db status.txid = none) (hplain : colon ∉ status.txid) :
    Replaced db status.txid (fromModel status) (writeStatusNew db status) where
  txid_eq := rfl
  plain := hplain
  rows := readStatus_eq_of_lookup fun x => by
    simp [lookup_writeStatusNew, txKey_notMem_statusIndexKeys]
  entries kind middle x := by
    rw [GoMap.mem_iff_lookup, GoMap.mem_iff_lookup, lookup_writeStatusNew,
      if_neg (txKey_ne_entryKey kind status.txid middle x).symm]
    split_ifs <;> simp_all

section

variable (h : Agrees db)
include h

theorem Agrees.replaced_insert {txid : Bytes}
    (hrow : readStatus db txid = some existing) (htxid : updated.txid = existing.txid)
    (hkeys : statusIndexKeys updated = statusIndexKeys existing) :
    Replaced db txid updated (db.insert (txKey txid) (.status updated)) where
  txid_eq := htxid.trans (h.own txid existing hrow).1
  plain := (h.own txid existing hrow).2
  rows := readStatus_eq_of_lookup fun _ => GoMap.lookup_insert_eq ..
  entries kind middle x := by
    have hne := (txKey_ne_entryKey kind txid middle x).symm
    rw [AList.mem_insert, hkeys]
    constructor
    · rintro (heq | hmem)
      · exact absurd heq hne
      · by_cases hin : entryKey kind middle x ∈ statusIndexKeys existing
        · exact .inl hin
        · refine .inr ⟨?_, hmem⟩
          intro old hold
          obtain rfl := Option.mem_unique hrow hold
          exact hin
    · rintro (hin | ⟨-, hmem⟩)
      · exact .inr ((h.entries kind middle x).mpr ⟨txid, existing, hrow, hin⟩)
      · exact .inr hmem

/-! ## The writers -/

theorem Agrees.rewriteStatus {txid : Bytes}
    (hrow : readStatus db txid = some existing) (htxid : updated.txid = existing.txid) :
    Agrees (Pebble.rewriteStatus db txid existing updated) := by
  obtain ⟨hown, hplain⟩ := h.own txid existing hrow
  exact h.replaced (replaced_rewriteStatus hrow hplain (htxid.trans hown))

theorem Agrees.getOrInsertStatus (now : Int64) {status : TransactionStatus}
    (hplain : colon ∉ status.txid) :
    Agrees (getOrInsertStatus db now status).2 := by
  unfold Pebble.getOrInsertStatus
  split
  · exact h
  · rename_i hrow
    exact h.replaced (replaced_writeStatusNew hrow hplain)

theorem Agrees.updateStatusReturning (status : TransactionStatus) :
    Agrees (updateStatusReturning db status).2 := by
  unfold Pebble.updateStatusReturning
  split
  · exact h
  · rename_i existing hrow
    split
    · exact h
    · exact h.rewriteStatus hrow (h.own _ _ hrow).1.symm

theorem Agrees.bumpRetryCount (txid : Bytes) : Agrees (bumpRetryCount db txid).2 := by
  unfold Pebble.bumpRetryCount
  split
  · exact h
  · rename_i existing hrow
    exact h.replaced (h.replaced_insert hrow rfl rfl)

theorem Agrees.setPendingRetryFields (now : Int64) (txid rawTx : Bytes)
    (nextRetryAt : Int64) (lastReason : Bytes) :
    Agrees (setPendingRetryFields db now txid rawTx nextRetryAt lastReason).2 := by
  unfold Pebble.setPendingRetryFields
  split
  · exact h
  · rename_i existing hrow
    split
    · exact h
    · exact h.rewriteStatus hrow rfl

theorem Agrees.clearRetryState (now : Int64) (txid : Bytes) (finalStatus : Status)
    (extraInfo : Bytes) :
    Agrees (clearRetryState db now txid finalStatus extraInfo) := by
  unfold Pebble.clearRetryState
  split
  · exact h
  · rename_i existing hrow
    exact h.rewriteStatus hrow rfl

end

theorem txid_appendOrphanedAnchor (row : StoredStatus) (now : Int64) :
    (appendOrphanedAnchor row now).txid = row.txid := by
  unfold appendOrphanedAnchor
  split_ifs <;> rfl

theorem Agrees.setStatusRow (h : Agrees db) (now : Int64) (blockHash : Bytes) (newStatus : Status)
    (txid : Bytes) :
    Agrees (setStatusRow db now blockHash newStatus txid).2 := by
  unfold Pebble.setStatusRow
  split
  · exact h
  · rename_i existing hrow
    split
    · exact h
    · refine h.rewriteStatus hrow ?_
      split
      · exact txid_appendOrphanedAnchor _ now
      · rfl

theorem Agrees.setMinedRow (h : Agrees db) (now : Int64) (blockHash : Bytes) (blockHeight : UInt64)
    (txid : Bytes) :
    Agrees (setMinedRow db now blockHash blockHeight txid).2 := by
  unfold Pebble.setMinedRow
  split
  · exact h
  · rename_i existing hrow
    split
    · exact h
    · refine h.rewriteStatus hrow ?_
      split
      · exact txid_appendOrphanedAnchor existing now
      · rfl

theorem Agrees.markMerkleRegisteredRow (h : Agrees db) (ts : Int64) (txid : Bytes) :
    Agrees (markMerkleRegisteredRow db ts txid) := by
  unfold Pebble.markMerkleRegisteredRow
  split
  · exact h
  · rename_i existing hrow
    exact h.replaced (h.replaced_insert hrow rfl rfl)

theorem Agrees.next (h : Agrees db) (call : BulkCall) : Agrees (call.next db).2 := by
  unfold BulkCall.next
  split
  · exact h.setStatusRow _ _ _ _
  · exact h.setMinedRow _ _ _ _
  · exact h.markMerkleRegisteredRow _ _
  · exact h

/-! ## Runs -/

/-- New rows are for txids without a colon, as hexadecimal ones are. -/
def StatusEvent.Plain : StatusEvent → Prop
  | .getOrInsertStatus _ status => colon ∉ status.txid
  | _ => True

instance : DecidablePred StatusEvent.Plain
  | .getOrInsertStatus _ status => inferInstanceAs (Decidable (colon ∉ status.txid))
  | .updateStatus .. | .bumpRetryCount .. | .setPendingRetryFields .. | .clearRetryState ..
  | .setStatusByBlockHash .. | .setMinedByTxIDs .. | .markMerkleRegisteredByTxIDs .. | .next .. =>
    isTrue trivial

theorem Agrees.step {s : StatusStore} (h : Agrees s.db) {e : StatusEvent} (he : e.Plain) :
    Agrees (s.step e).db := by
  cases e with
  | getOrInsertStatus now status => exact h.getOrInsertStatus now he
  | updateStatus status => exact h.updateStatusReturning status
  | bumpRetryCount txid => exact h.bumpRetryCount txid
  | setPendingRetryFields now txid rawTx nextRetryAt lastReason =>
    exact h.setPendingRetryFields now txid rawTx nextRetryAt lastReason
  | clearRetryState now txid finalStatus extraInfo =>
    exact h.clearRetryState now txid finalStatus extraInfo
  | setStatusByBlockHash now blockHash newStatus => exact h
  | setMinedByTxIDs now blockHash blockHeight txids => exact h
  | markMerkleRegisteredByTxIDs ts txids => exact h
  | next i =>
    simp only [StatusStore.step]
    split
    · exact h
    · rename_i call _
      exact h.next call

/-- Each index holds an entry for a row exactly if the row has what the entry says. -/
structure IndexesAgree (db : DB) : Prop where
  status : ∀ status x, colon ∉ x →
    (idxTxStatusKey status x ∈ db ↔ ∃ st, readStatus db x = some st ∧ st.status = status)
  block : ∀ blockHash x, colon ∉ x → (idxTxBlockKey blockHash x ∈ db ↔
    ∃ st, readStatus db x = some st ∧ st.blockHash = blockHash ∧ blockHash ≠ [])
  retryReady : ∀ t x, colon ∉ x → (idxTxRetryReadyKey t x ∈ db ↔
    ∃ st, readStatus db x = some st ∧ st.status = .pendingRetry ∧ st.nextRetry = t ∧ t ≠ 0)
  updated : ∀ t x, colon ∉ x →
    (idxTxUpdatedKey t x ∈ db ↔ ∃ st, readStatus db x = some st ∧ st.timestamp = t ∧ t ≠ 0)

theorem Agrees.entryKey_mem_iff (h : Agrees db) (kind : EntryKind) (middle : Bytes) {x : Bytes}
    (hx : colon ∉ x) {P : StoredStatus → Prop}
    (hP : ∀ st, entryKey kind middle st.txid ∈ statusIndexKeys st ↔ P st) :
    entryKey kind middle x ∈ db ↔ ∃ st, readStatus db x = some st ∧ P st := by
  rw [h.entries]
  constructor
  · rintro ⟨y, st, hy, hkey⟩
    obtain ⟨hown, hplain⟩ := h.own y st hy
    have hlast := lastSegment_of_mem_statusIndexKeys (hown ▸ hplain) hkey
    have hyx : x = st.txid := (lastSegment_append hx).symm.trans hlast
    subst hyx
    exact ⟨st, hown ▸ hy, (hP st).mp hkey⟩
  · rintro ⟨st, hrow, hst⟩
    obtain ⟨rfl, -⟩ := h.own x st hrow
    exact ⟨st.txid, st, hrow, (hP st).mpr hst⟩

theorem Agrees.indexesAgree (h : Agrees db) : IndexesAgree db where
  status status x hx := h.entryKey_mem_iff .status (statusText status) hx fun st => by
    simp [entryKey_mem_statusIndexKeys, statusText_injective.eq_iff, eq_comm]
  block blockHash x hx := h.entryKey_mem_iff .block blockHash hx fun st => by
    simp only [entryKey_mem_statusIndexKeys]
    grind
  retryReady t x hx := h.entryKey_mem_iff .retryReady (hexTime t) hx fun st => by
    simp only [entryKey_mem_statusIndexKeys, hexTime_injective.eq_iff]
    grind
  updated t x hx := h.entryKey_mem_iff .updated (hexTime t) hx fun st => by
    simp only [entryKey_mem_statusIndexKeys, hexTime_injective.eq_iff]
    grind

/-- In every interleaving of the writers the indexes agree with the rows, at every moment. -/
theorem indexes_agree (es : List StatusEvent) (hplain : ∀ e ∈ es, e.Plain) :
    ∀ s ∈ states StatusStore.step StatusStore.start es, IndexesAgree s.db := by
  have hsteps : ∀ s : StatusStore, AllSteps StatusStore.step (fun _ e => e.Plain) s es := by
    intro s
    refine allSteps_iff.mpr ?_
    rintro es₁ e es₂ rfl
    exact hplain e (by simp)
  intro s hs
  have hagrees : Agrees s.db :=
    states_invariant (J := fun s => Agrees s.db) (fun _ _ h he => h.step he) agrees_empty
      (hsteps _) s hs
  exact hagrees.indexesAgree

/-- A row is inserted, parked for a retry, mined and reverted while another row is inserted. -/
def sampleStatusEvents : List StatusEvent :=
  [.getOrInsertStatus 5 { txid := ascii "aa" },
    .setPendingRetryFields 6 (ascii "aa") [1] 9 [], .setMinedByTxIDs 7 (ascii "b1") 3 [ascii "aa"],
    .getOrInsertStatus 8 { txid := ascii "ab", blockHash := ascii "b1" }, .next 0,
    .setStatusByBlockHash 10 (ascii "b1") .seenOnNetwork, .next 1, .next 1]

theorem indexes_agree_reverted : (∀ e ∈ sampleStatusEvents, e.Plain) ∧
      IndexesAgree (run StatusStore.step StatusStore.start sampleStatusEvents).db := by
  have hplain : ∀ e ∈ sampleStatusEvents, e.Plain := by decide
  exact ⟨hplain, indexes_agree sampleStatusEvents hplain _
    ((mem_states_iff _ _ _ _).mpr ⟨sampleStatusEvents, [], (append_nil _).symm, rfl⟩)⟩

end Arcade.Pebble
