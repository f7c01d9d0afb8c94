import Arcade.Pebble.Keys

/-!
Submissions and the index over their callback tokens.

The token index has one entry for each submission with a token. Its key is the token, a colon and
the submission id, and the entries of a token are read by a scan over the token and the colon. A
client chooses its token freely, so the token may hold a colon of its own.
-/

namespace Arcade.Pebble

open Lib List
open Propagation (Status)

/-! ## Reads and writes -/

def submissionIndexKeys (sub : StoredSubmission) : List Bytes :=
  (if sub.txid = [] then [] else [idxSubTxIDKey sub.txid sub.submissionID]) ++
    if sub.callbackToken = [] then [] else [idxSubTokenKey sub.callbackToken sub.submissionID]

/-- `InsertSubmission`: the row and its index entries in one batch. -/
def insertSubmission (db : DB) (sub : StoredSubmission) : DB :=
  db.commit (.set (subKey sub.submissionID) (.submission sub) ::
    (submissionIndexKeys sub).map (.set · .index))

/-- The submission an index entry points at, if its row is there and decodes. -/
def resolve (db : DB) (key : Bytes) : Option StoredSubmission :=
  match db.lookup (subKey (lastSegment key)) with
  | some (.submission sub) => some sub
  | _ => none

/-- The loop of `submissionsByIndexBounded`; `none` is `store.ErrReplayUnavailable`. -/
def collect (db : DB) (limit : Nat) : List Bytes → List StoredSubmission →
    Option (List StoredSubmission)
  | [], subs => some subs
  | key :: keys, subs =>
    match resolve db key with
    | none => collect db limit keys subs
    | some sub =>
      if limit > 0 ∧ subs.length ≥ limit then none else collect db limit keys (subs ++ [sub])

def submissionsByIndexBounded (db : DB) (pre : Bytes) (limit : Nat) :
    Option (List StoredSubmission) :=
  collect db limit (db.scanPrefix pre) []

def getSubmissionsByToken (db : DB) (callbackToken : Bytes) : Option (List StoredSubmission) :=
  submissionsByIndexBounded db (idxSubTokenPrefix callbackToken) 0

def maxTokenReplayScan : Nat := 250000

def readStatus (db : DB) (txid : Bytes) : Option StoredStatus :=
  match db.lookup (txKey txid) with
  | some (.status st) => some st
  | _ => none

/-- The fields that `IterateStatusesByToken` yields. -/
structure Projection where
  txid : Bytes
  status : Status
  timestamp : Int64
  blockHash : Bytes
  blockHeight : UInt64
  deriving DecidableEq

def project (st : StoredStatus) : Projection :=
  ⟨st.txid, st.status, st.timestamp, st.blockHash, st.blockHeight⟩

/-- The filter of the replay; without a `since` every row is new, and the zero time is never. -/
def matchesReplay (since : Option Int64) (only : List Status) (st : StoredStatus) : Bool :=
  since.all (fun s => st.timestamp ≠ 0 ∧ s < st.timestamp) && (only.isEmpty || st.status ∈ only)

/-- The rows of the submissions, each txid once. -/
def matched (db : DB) (since : Option Int64) (only : List Status) :
    List Bytes → List StoredSubmission → List Projection
  | _, [] => []
  | seen, sub :: subs =>
    if sub.txid ∈ seen then matched db since only seen subs
    else
      match (readStatus db sub.txid).filter (matchesReplay since only) with
      | none => matched db since only (sub.txid :: seen) subs
      | some st => project st :: matched db since only (sub.txid :: seen) subs

/-- `IterateStatusesByToken`: the rows in the order in which the callback gets them. `sort` is what
`sort.Slice` makes of a list, by timestamp; the order of rows with one timestamp is its own. -/
def iterateStatusesByToken (db : DB) (sort : List Projection → List Projection)
    (callbackToken : Bytes) (since : Option Int64) (onlyStatuses : List Status) :
    Option (List Projection) :=
  (submissionsByIndexBounded db (idxSubTokenPrefix callbackToken) maxTokenReplayScan).map
    fun subs => sort (matched db since onlyStatuses [] subs)

/-! ## What a store contains -/

def Stored (db : DB) (sub : StoredSubmission) : Prop :=
  db.lookup (subKey sub.submissionID) = some (.submission sub)

instance (db : DB) (sub : StoredSubmission) : Decidable (Stored db sub) :=
  inferInstanceAs (Decidable (_ = _))

/-- The rows are under their ids, an id has no colon, and the token index has the entries of the
rows and no others. -/
structure Indexed (db : DB) : Prop where
  rows : ∀ id, subKey id ∈ db → colon ∉ id ∧ ∃ sub, Stored db sub ∧ sub.submissionID = id
  tokens : ∀ key, prefixIdxSubToken <+: key → (key ∈ db ↔ ∃ sub, Stored db sub ∧
    sub.callbackToken ≠ [] ∧ idxSubTokenKey sub.callbackToken sub.submissionID = key)

theorem indexed_empty : Indexed ∅ where
  rows id h := absurd h (AList.notMem_empty _)
  tokens key _ := by
    constructor
    · intro h
      exact absurd h (AList.notMem_empty _)
    · rintro ⟨sub, hsub, -⟩
      cases hsub

variable {sub : StoredSubmission} {db db' : DB} {token : Bytes}

theorem Stored.mem (h : Stored db sub) : subKey sub.submissionID ∈ db :=
  GoMap.mem_of_lookup h

theorem lookup_insertSubmission (db : DB) (sub : StoredSubmission) (key : Bytes) :
    (insertSubmission db sub).lookup key =
      if key ∈ submissionIndexKeys sub then some .index
      else if key = subKey sub.submissionID then some (.submission sub) else db.lookup key := by
  rw [insertSubmission, Keyspace.commit_cons, Keyspace.lookup_commit_sets, Keyspace.Write.apply,
    GoMap.lookup_insert_eq]

theorem notMem_submissionIndexKeys {p : Bytes} (htxid : Apart p prefixIdxSubTxID)
    (htoken : Apart p prefixIdxSubToken) (rest : Bytes) (sub : StoredSubmission) :
    p ++ rest ∉ submissionIndexKeys sub := by
  unfold submissionIndexKeys
  rw [mem_append]
  rintro (h | h)
  · split at h
    · cases h
    · simp only [idxSubTxIDKey, idxSubTxIDPrefix, append_assoc, mem_singleton] at h
      exact htxid.ne h
  · split at h
    · cases h
    · simp only [idxSubTokenKey, idxSubTokenPrefix, append_assoc, mem_singleton] at h
      exact htoken.ne h

theorem subKey_notMem_submissionIndexKeys (id : Bytes) (sub : StoredSubmission) :
    subKey id ∉ submissionIndexKeys sub :=
  notMem_submissionIndexKeys (by decide) (by decide) id sub

theorem readStatus_insertSubmission (db : DB) (sub : StoredSubmission) (txid : Bytes) :
    readStatus (insertSubmission db sub) txid = readStatus db txid := by
  have hindex : txKey txid ∉ submissionIndexKeys sub :=
    notMem_submissionIndexKeys (by decide) (by decide) txid sub
  have hrow : txKey txid ≠ subKey sub.submissionID := Apart.ne (by decide)
  unfold readStatus
  rw [lookup_insertSubmission, if_neg hindex, if_neg hrow]

theorem mem_submissionIndexKeys {key : Bytes} (hkey : prefixIdxSubToken <+: key) :
    key ∈ submissionIndexKeys sub ↔
      sub.callbackToken ≠ [] ∧ idxSubTokenKey sub.callbackToken sub.submissionID = key := by
  have htxid : key ≠ idxSubTxIDKey sub.txid sub.submissionID := by
    rintro rfl
    have happart : Apart prefixIdxSubToken prefixIdxSubTxID := by decide
    exact happart.not_prefix hkey (prefix_append _ _)
  unfold submissionIndexKeys
  rw [mem_append]
  constructor
  · rintro (h | h)
    · split at h
      · cases h
      · exact absurd (mem_singleton.mp h) htxid
    · split at h
      · cases h
      · rename_i hne
        exact ⟨hne, (mem_singleton.mp h).symm⟩
  · rintro ⟨hne, rfl⟩
    right
    rw [if_neg hne]
    exact mem_singleton_self _

theorem stored_insertSubmission (hnew : subKey sub.submissionID ∉ db) (sub' : StoredSubmission) :
    Stored (insertSubmission db sub) sub' ↔ sub' = sub ∨ Stored db sub' := by
  unfold Stored
  rw [lookup_insertSubmission, if_neg (subKey_notMem_submissionIndexKeys _ _)]
  split
  · rename_i heq
    have hid : sub'.submissionID = sub.submissionID := subKey_injective heq
    constructor
    · intro h
      cases h
      exact .inl rfl
    · rintro (rfl | h)
      · rfl
      · exact absurd (hid ▸ GoMap.mem_of_lookup h) hnew
  · rename_i hne
    constructor
    · exact .inr
    · rintro (rfl | h)
      · exact absurd rfl hne
      · exact h

theorem prefix_idxSubTokenKey (token id : Bytes) :
    prefixIdxSubToken <+: idxSubTokenKey token id := by
  exact prefix_append _ _

theorem Indexed.insertSubmission (h : Indexed db) (hnew : subKey sub.submissionID ∉ db)
    (hid : colon ∉ sub.submissionID) :
    Indexed (insertSubmission db sub) where
  rows id hmem := by
    rw [GoMap.mem_iff_lookup, lookup_insertSubmission,
      if_neg (subKey_notMem_submissionIndexKeys _ _)] at hmem
    by_cases heq : subKey id = subKey sub.submissionID
    · obtain rfl := subKey_injective heq
      exact ⟨hid, sub, (stored_insertSubmission hnew sub).mpr (.inl rfl), rfl⟩
    · rw [if_neg heq, ← GoMap.mem_iff_lookup] at hmem
      obtain ⟨hcolon, sub', hstored, hsub⟩ := h.rows id hmem
      exact ⟨hcolon, sub', (stored_insertSubmission hnew sub').mpr (.inr hstored), hsub⟩
  tokens key hkey := by
    have hrow : key ≠ subKey sub.submissionID := by
      rintro rfl
      have happart : Apart prefixIdxSubToken prefixSub := by decide
      exact happart.not_prefix hkey (prefix_append _ _)
    have hmem : key ∈ Pebble.insertSubmission db sub ↔
        key ∈ submissionIndexKeys sub ∨ key ∈ db := by
      rw [GoMap.mem_iff_lookup, GoMap.mem_iff_lookup, lookup_insertSubmission, if_neg hrow]
      by_cases hin : key ∈ submissionIndexKeys sub
      · simp [hin]
      · simp [hin]
    rw [hmem, mem_submissionIndexKeys hkey, h.tokens key hkey]
    constructor
    · rintro (⟨hne, heq⟩ | ⟨sub', hstored, hne, heq⟩)
      · exact ⟨sub, (stored_insertSubmission hnew sub).mpr (.inl rfl), hne, heq⟩
      · exact ⟨sub', (stored_insertSubmission hnew sub').mpr (.inr hstored), hne, heq⟩
    · rintro ⟨sub', hstored, hne, heq⟩
      rcases (stored_insertSubmission hnew sub').mp hstored with rfl | hstored
      · exact .inl ⟨hne, heq⟩
      · exact .inr ⟨sub', hstored, hne, heq⟩

/-! ## The entries of a token -/

theorem prefix_idxSubTokenKey_iff {token' id : Bytes} (hid : colon ∉ id) :
    idxSubTokenPrefix token <+: idxSubTokenKey token' id ↔
      token' = token ∨ token ++ [colon] <+: token' := by
  simp only [idxSubTokenKey, idxSubTokenPrefix, append_assoc, prefix_append_right_inj]
  induction token generalizing token' with
  | nil =>
    cases token' with
    | nil => simp
    | cons c token' => simp
  | cons b token ih =>
    cases token' with
    | nil =>
      simp only [cons_append, nil_append, cons_prefix_cons]
      constructor
      · rintro ⟨-, h⟩
        exact absurd (h.subset (by simp)) hid
      · rintro (h | h)
        · cases h
        · simp at h
    | cons c token' =>
      rw [cons_append, cons_append, cons_prefix_cons, cons_prefix_cons, ih, List.cons.injEq]
      constructor
      · rintro ⟨rfl, h | h⟩
        · exact .inl ⟨rfl, h⟩
        · exact .inr ⟨rfl, h⟩
      · rintro (⟨rfl, h⟩ | ⟨rfl, h⟩)
        · exact ⟨rfl, .inl h⟩
        · exact ⟨rfl, .inr h⟩

theorem mem_scan_token (h : Indexed db) {key : Bytes} :
    key ∈ db.scanPrefix (idxSubTokenPrefix token) ↔ ∃ sub, Stored db sub ∧
      sub.callbackToken ≠ [] ∧ (sub.callbackToken = token ∨ token ++ [colon] <+: sub.callbackToken) ∧
      idxSubTokenKey sub.callbackToken sub.submissionID = key := by
  rw [Keyspace.mem_scanPrefix]
  constructor
  · rintro ⟨hmem, hpre⟩
    have hkey : prefixIdxSubToken <+: key := by
      refine List.IsPrefix.trans ?_ hpre
      exact prefix_append _ _
    obtain ⟨sub, hstored, hne, rfl⟩ := (h.tokens key hkey).mp hmem
    have hid := (h.rows _ hstored.mem).1
    exact ⟨sub, hstored, hne, (prefix_idxSubTokenKey_iff hid).mp hpre, rfl⟩
  · rintro ⟨sub, hstored, hne, hor, rfl⟩
    have hid := (h.rows _ hstored.mem).1
    exact ⟨(h.tokens _ (prefix_idxSubTokenKey _ _)).mpr ⟨sub, hstored, hne, rfl⟩,
      (prefix_idxSubTokenKey_iff hid).mpr hor⟩

theorem resolve_idxSubTokenKey (h : Indexed db) (hstored : Stored db sub) (token : Bytes) :
    resolve db (idxSubTokenKey token sub.submissionID) = some sub := by
  have hid := (h.rows _ hstored.mem).1
  unfold resolve
  rw [idxSubTokenKey, idxSubTokenPrefix, lastSegment_append hid, hstored]

theorem collect_unbounded (db : DB) (keys : List Bytes) (subs : List StoredSubmission) :
    collect db 0 keys subs = some (subs ++ keys.filterMap (resolve db)) := by
  induction keys generalizing subs with
  | nil => simp [collect]
  | cons key keys ih =>
    rw [collect]
    cases hr : resolve db key with
    | none => rw [ih, filterMap_cons_none hr]
    | some sub => simp [ih, filterMap_cons_some hr]

theorem collect_congr {keys : List Bytes} (h : ∀ key ∈ keys, resolve db key = resolve db' key)
    (limit : Nat) (subs : List StoredSubmission) :
    collect db limit keys subs = collect db' limit keys subs := by
  induction keys generalizing subs with
  | nil => rfl
  | cons key keys ih =>
    have ih := ih fun key hkey => h key (mem_cons_of_mem _ hkey)
    rw [collect, collect, h key mem_cons_self]
    simp only [ih]

theorem matched_congr (h : ∀ txid, readStatus db txid = readStatus db' txid) (since : Option Int64)
    (only : List Status) (seen : List Bytes) (subs : List StoredSubmission) :
    matched db since only seen subs = matched db' since only seen subs := by
  induction subs generalizing seen with
  | nil => rfl
  | cons sub subs ih => simp only [matched, h, ih]

/-- `GetSubmissionsByToken` returns the submissions under the token, and those under a token that
goes on with a colon. -/
theorem getSubmissionsByToken_eq (h : Indexed db) (token : Bytes) :
    ∃ subs, getSubmissionsByToken db token = some subs ∧ ∀ sub, sub ∈ subs ↔ Stored db sub ∧
      sub.callbackToken ≠ [] ∧
      (sub.callbackToken = token ∨ token ++ [colon] <+: sub.callbackToken) := by
  refine ⟨_, collect_unbounded db _ [], fun sub => ?_⟩
  rw [nil_append, mem_filterMap]
  constructor
  · rintro ⟨key, hkey, hres⟩
    obtain ⟨sub', hstored, hne, hor, rfl⟩ := (mem_scan_token h).mp hkey
    rw [resolve_idxSubTokenKey h hstored] at hres
    cases hres
    exact ⟨hstored, hne, hor⟩
  · rintro ⟨hstored, hne, hor⟩
    exact ⟨_, (mem_scan_token h).mpr ⟨sub, hstored, hne, hor, rfl⟩,
      resolve_idxSubTokenKey h hstored _⟩

theorem submissionsByIndexBounded_congr (h : Indexed db) (h' : Indexed db')
    (hsame : ∀ sub, sub.callbackToken = token ∨ token ++ [colon] <+: sub.callbackToken →
      (Stored db sub ↔ Stored db' sub)) (limit : Nat) :
    submissionsByIndexBounded db (idxSubTokenPrefix token) limit =
      submissionsByIndexBounded db' (idxSubTokenPrefix token) limit := by
  have hmem : ∀ key, key ∈ db.scanPrefix (idxSubTokenPrefix token) ↔
      key ∈ db'.scanPrefix (idxSubTokenPrefix token) := by
    intro key
    rw [mem_scan_token h, mem_scan_token h']
    constructor
    · rintro ⟨sub, hstored, hne, hor, rfl⟩
      exact ⟨sub, (hsame sub hor).mp hstored, hne, hor, rfl⟩
    · rintro ⟨sub, hstored, hne, hor, rfl⟩
      exact ⟨sub, (hsame sub hor).mpr hstored, hne, hor, rfl⟩
  have hscan : db.scanPrefix (idxSubTokenPrefix token) =
      db'.scanPrefix (idxSubTokenPrefix token) := by
    apply Keyspace.scanPrefix_congr
    intro key hpre
    have := hmem key
    rw [Keyspace.mem_scanPrefix, Keyspace.mem_scanPrefix] at this
    tauto
  unfold submissionsByIndexBounded
  rw [← hscan]
  apply collect_congr
  intro key hkey
  obtain ⟨sub, hstored, -, hor, rfl⟩ := (mem_scan_token h).mp hkey
  rw [resolve_idxSubTokenKey h hstored, resolve_idxSubTokenKey h' ((hsame sub hor).mp hstored)]

/-- Two stores with the same status rows and the same submissions under a token answer alike for it
exactly when they have the same submissions under the tokens that go on with a colon; and what is
returned was submitted under the token exactly when there are none of these. -/
theorem token_isolation_iff (token : Bytes) {db db' : DB} (h : Indexed db) (h' : Indexed db')
    (hrows : ∀ txid, readStatus db txid = readStatus db' txid)
    (hsame : ∀ sub, sub.callbackToken = token → (Stored db sub ↔ Stored db' sub)) :
    ((getSubmissionsByToken db token = getSubmissionsByToken db' token ∧
        ∀ sort since onlyStatuses, iterateStatusesByToken db sort token since onlyStatuses =
          iterateStatusesByToken db' sort token since onlyStatuses) ↔
      ∀ sub, token ++ [colon] <+: sub.callbackToken → (Stored db sub ↔ Stored db' sub)) ∧
    ((∀ subs, getSubmissionsByToken db token = some subs → ∀ sub ∈ subs, sub.callbackToken = token) ↔
      ∀ sub, Stored db sub → ¬ token ++ [colon] <+: sub.callbackToken) := by
  have hne : ∀ sub : StoredSubmission, token ++ [colon] <+: sub.callbackToken →
      sub.callbackToken ≠ [] := by
    rintro sub hpre hnil
    rw [hnil] at hpre
    simp at hpre
  have hlong : ∀ sub : StoredSubmission, token ++ [colon] <+: sub.callbackToken →
      sub.callbackToken ≠ token := by
    intro sub hpre heq
    have := hpre.length_le
    simp [heq] at this
  obtain ⟨subs, hsubs, hmem⟩ := getSubmissionsByToken_eq h token
  obtain ⟨subs', hsubs', hmem'⟩ := getSubmissionsByToken_eq h' token
  refine ⟨⟨?_, ?_⟩, ?_, ?_⟩
  · rintro ⟨heq, -⟩ sub hpre
    rw [hsubs, hsubs', Option.some.injEq] at heq
    subst heq
    have hboth := (hmem sub).symm.trans (hmem' sub)
    simpa [hne sub hpre, hpre] using hboth
  · intro hall
    have hsame : ∀ sub, sub.callbackToken = token ∨ token ++ [colon] <+: sub.callbackToken →
        (Stored db sub ↔ Stored db' sub) := by
      rintro sub (heq | hpre)
      · exact hsame sub heq
      · exact hall sub hpre
    refine ⟨submissionsByIndexBounded_congr h h' hsame 0, fun sort since only => ?_⟩
    unfold iterateStatusesByToken
    rw [submissionsByIndexBounded_congr h h' hsame]
    simp only [matched_congr hrows]
  · intro hall sub hstored hpre
    have hin : sub ∈ subs := (hmem sub).mpr ⟨hstored, hne sub hpre, .inr hpre⟩
    exact hlong sub hpre (hall subs hsubs sub hin)
  · intro hall subs₁ hsubs₁ sub hin
    rw [hsubs] at hsubs₁
    cases hsubs₁
    obtain ⟨hstored, -, heq | hpre⟩ := (hmem sub).mp hin
    · exact heq
    · exact absurd hpre (hall sub hstored)

def sampleSubmission (id token : String) : StoredSubmission where
  submissionID := ascii id
  txid := ascii "f00d"
  callbackToken := ascii token

def sampleStore : DB := insertSubmission ∅ (sampleSubmission "1" "a")

theorem indexed_sampleStore : Indexed sampleStore :=
  indexed_empty.insertSubmission (AList.notMem_empty _) (by decide)

def withAnother (token : String) : DB :=
  insertSubmission sampleStore (sampleSubmission "2" token)

theorem notMem_sampleStore (token : String) :
    subKey (sampleSubmission "2" token).submissionID ∉ sampleStore := by
  have h : subKey (ascii "2") ∉ sampleStore := by decide +kernel
  exact h

theorem indexed_withAnother (token : String) : Indexed (withAnother token) :=
  indexed_sampleStore.insertSubmission (notMem_sampleStore token) (by decide : colon ∉ ascii "2")

theorem stored_withAnother {token : String} (h : sub.callbackToken ≠ ascii token) :
    Stored sampleStore sub ↔ Stored (withAnother token) sub := by
  rw [withAnother, stored_insertSubmission (notMem_sampleStore token)]
  constructor
  · exact .inr
  · rintro (rfl | hstored)
    · exact absurd rfl h
    · exact hstored

/-- Submissions under a token without a colon are not seen under another. -/
theorem token_isolation_iff_plain : getSubmissionsByToken sampleStore (ascii "a") =
      getSubmissionsByToken (withAnother "b") (ascii "a") := by
  refine ((token_isolation_iff (ascii "a") indexed_sampleStore (indexed_withAnother "b")
    (fun txid => (readStatus_insertSubmission _ _ txid).symm) fun sub heq => stored_withAnother ?_).1.mpr fun sub hpre =>
      stored_withAnother ?_).1
  · rw [heq]
    decide
  · rintro heq
    rw [heq] at hpre
    revert hpre
    decide

/-- A submission under the token `a:b` is returned for the token `a`. -/
theorem colonToken_leaks : Indexed sampleStore ∧ Indexed (withAnother "a:b") ∧
    (∀ txid, readStatus sampleStore txid = readStatus (withAnother "a:b") txid) ∧
    (∀ sub, sub.callbackToken = ascii "a" → (Stored sampleStore sub ↔ Stored (withAnother "a:b") sub)) ∧
    getSubmissionsByToken sampleStore (ascii "a") = some [sampleSubmission "1" "a"] ∧
    getSubmissionsByToken (withAnother "a:b") (ascii "a") =
      some [sampleSubmission "1" "a", sampleSubmission "2" "a:b"] := by
  refine ⟨indexed_sampleStore, indexed_withAnother "a:b",
    fun txid => (readStatus_insertSubmission _ _ txid).symm,
    fun sub heq => stored_withAnother ?_, by decide +kernel, by decide +kernel⟩
  rw [heq]
  decide

end Arcade.Pebble
