import Arcade.Lib.GoMap
import Arcade.Lib.Transition
import Arcade.Lib.UnionFind
import Mathlib.Data.String.Basic
import Mathlib.Order.Bounds.Basic

/-!
The Kafka keys of a submitted batch.

Transactions that are connected by spends inside one `POST /txs` body form a family and
share a key, the smallest txid of the family. The keys are computed over the whole body,
the messages are built for the part of it that is published.
-/

namespace Arcade.ApiServer

open Lib List

/-! ## Transactions -/

/-- What intake reads of the SDK's transaction: its txid, which is never empty, and for each
input the source txid; `none` for an input or a source txid that is nil. -/
structure Transaction where
  txid : String
  inputs : List (Option String)
  txid_ne : txid ≠ ""

def collectInputTXIDs (tx : Transaction) : List String := tx.inputs.filterMap id

/-- One transaction of a `POST /txs` body with its bytes. -/
structure ParsedItem where
  tx : Transaction
  raw : List UInt8

def ParsedItem.txid (p : ParsedItem) : String := p.tx.txid

/-! ## Families -/

section Keys

variable {n : Nat} (txids : Fin n → String) (inputs : Fin n → List String)

/-- The first place of each txid. -/
def indexOf : GoMap String (Fin n) :=
  run (fun index i => if txids i ∈ index then index else index.insert (txids i) i) ∅
    (List.finRange n)

def joinInput (i : Fin n) (uf : UnionFind n) (src : String) : UnionFind n :=
  if src = "" ∨ src = txids i then uf
  else match (indexOf txids).lookup src with
    | some j => uf.union i j
    | none => uf

def joinSpends : UnionFind n :=
  run (fun uf i => run (joinInput txids i) uf (inputs i)) (.singletons n) (List.finRange n)

/-- A later occurrence of a txid joins the first. -/
def joinDuplicate (uf : UnionFind n) (i : Fin n) : UnionFind n :=
  match (indexOf txids).lookup (txids i) with
  | some first => if first = i then uf else uf.union i first
  | none => uf

def families : UnionFind n :=
  run (joinDuplicate txids) (joinSpends txids inputs) (List.finRange n)

/-- The round of the loop that finds the smallest txid of each family. -/
def smallestTxid (s : UnionFind n × GoMap (Fin n) String) (i : Fin n) :
    UnionFind n × GoMap (Fin n) String :=
  let (r, uf) := s.1.find i
  match s.2.lookup r with
  | some cur => (uf, if txids i < cur then s.2.insert r (txids i) else s.2)
  | none => (uf, s.2.insert r (txids i))

/-- `keyOf[r]`. -/
def keyAt (keyOf : GoMap (Fin n) String) (r : Fin n) : String := (keyOf.lookup r).getD ""

/-- The round of the loop that reads the key of each transaction. -/
def readKey (keyOf : GoMap (Fin n) String) (s : UnionFind n × List String) (i : Fin n) :
    UnionFind n × List String :=
  let (r, uf) := s.1.find i
  (uf, s.2 ++ [keyAt keyOf r])

def familyPartitionKeys : List String :=
  let (uf, keyOf) := run (smallestTxid txids) (families txids inputs, ∅) (List.finRange n)
  (run (readKey keyOf) (uf, []) (List.finRange n)).2

end Keys

/-- The first occurrence of a txid counts. -/
def recordKey (m : GoMap String String × GoMap String (List String)) (pk : ParsedItem × String) :
    GoMap String String × GoMap String (List String) :=
  if pk.1.txid ∈ m.1 then m
  else (m.1.insert pk.1.txid pk.2, m.2.insert pk.1.txid (collectInputTXIDs pk.1.tx))

/-- Key and parent txids of each transaction of the body. -/
def familyKeysBySubmittedTxid (parsed : List ParsedItem) :
    GoMap String String × GoMap String (List String) :=
  let keys := familyPartitionKeys (fun i => (parsed.get i).txid)
    fun i => collectInputTXIDs (parsed.get i).tx
  run recordKey (∅, ∅) (parsed.zip keys)

/-- The payload of a propagation message. -/
structure Envelope where
  txid : String
  rawTx : List UInt8
  inputTXIDs : List String
  deriving DecidableEq

/-- `kafka.KeyValue`. -/
structure KeyValue where
  key : String
  value : Envelope
  deriving DecidableEq

/-- The message of one transaction; its own txid is the key when the map has none. -/
def propagationMessage (keyByTxid : GoMap String String)
    (inputsByTxid : GoMap String (List String)) (p : ParsedItem) : KeyValue where
  key := (keyByTxid.lookup p.txid).getD p.txid
  value :=
    { txid := p.txid
      rawTx := p.raw
      inputTXIDs := (inputsByTxid.lookup p.txid).getD [] }

def propagationMessages (toPublish : List ParsedItem) (keyByTxid : GoMap String String)
    (inputsByTxid : GoMap String (List String)) : List KeyValue :=
  toPublish.map (propagationMessage keyByTxid inputsByTxid)

/-- What the batch handler passes to `SendBatch`. -/
def batchMessages (parsed toPublish : List ParsedItem) : List KeyValue :=
  propagationMessages toPublish (familyKeysBySubmittedTxid parsed).1
    (familyKeysBySubmittedTxid parsed).2

/-! ## One key for a family -/

section Keys

variable {n : Nat} {txids : Fin n → String} {inputs : Fin n → List String}

theorem lookup_indexOf (txids : Fin n → String) (src : String) :
    (indexOf txids).lookup src = (List.finRange n).find? fun i => txids i = src := by
  refine (GoMap.lookup_foldl_first (fun index => index) (fun _ _ => rfl) _ _ src).trans ?_
  simp

theorem txids_of_lookup_indexOf {src : String} {j : Fin n}
    (h : (indexOf txids).lookup src = some j) : txids j = src := by
  rw [lookup_indexOf] at h
  simpa using find?_some h

theorem exists_lookup_indexOf (txids : Fin n → String) (i : Fin n) :
    ∃ j, (indexOf txids).lookup (txids i) = some j := by
  rw [lookup_indexOf, ← Option.isSome_iff_exists, find?_isSome]
  exact ⟨i, mem_finRange i, decide_eq_true rfl⟩

theorem Same.joinInput {uf : UnionFind n} {a b : Fin n} (h : uf.Same a b) (i : Fin n)
    (src : String) : (joinInput txids i uf src).Same a b := by
  unfold ApiServer.joinInput
  split
  · exact h
  · split
    · exact h.union _ _
    · exact h

theorem Same.joinDuplicate {uf : UnionFind n} {a b : Fin n} (h : uf.Same a b) (i : Fin n) :
    (joinDuplicate txids uf i).Same a b := by
  unfold ApiServer.joinDuplicate
  split
  · split
    · exact h
    · exact h.union _ _
  · exact h

/-- The two have one txid, or the first spends the second. -/
def Linked (txids : Fin n → String) (inputs : Fin n → List String) (i j : Fin n) : Prop :=
  txids i = txids j ∨ txids j ∈ inputs i ∧ txids j ≠ "" ∧ txids j ≠ txids i

abbrev Connected (txids : Fin n → String) (inputs : Fin n → List String) : Fin n → Fin n → Prop :=
  Relation.EqvGen (Linked txids inputs)

theorem connected_of_same {i j : Fin n} (h : (families txids inputs).Same i j) :
    Connected txids inputs i j := by
  have hR := Relation.EqvGen.is_equivalence (Linked txids inputs)
  have hinput : ∀ i uf, (∀ a b, uf.Same a b → Connected txids inputs a b) →
      ∀ a b, (run (joinInput txids i) uf (inputs i)).Same a b → Connected txids inputs a b := by
    intro i uf huf
    refine run_keeps_mem (P := fun uf : UnionFind n =>
      ∀ a b, uf.Same a b → Connected txids inputs a b) (fun src hsrc uf huf => ?_) huf
    unfold joinInput
    split
    · exact huf
    · rename_i hskip
      split
      · rename_i j hj
        rw [← txids_of_lookup_indexOf hj, not_or] at hskip
        rw [← txids_of_lookup_indexOf hj] at hsrc
        exact UnionFind.same_union_le hR huf (.rel _ _ (.inr ⟨hsrc, hskip⟩))
      · exact huf
  refine run_keeps (P := fun uf : UnionFind n =>
    ∀ a b, uf.Same a b → Connected txids inputs a b) (fun uf i huf => ?_) ?_ _ i j h
  · unfold joinDuplicate
    split
    · rename_i first hfirst
      split
      · exact huf
      · exact UnionFind.same_union_le hR huf (.rel _ _ (.inl (txids_of_lookup_indexOf hfirst).symm))
    · exact huf
  · refine run_keeps (fun uf i huf => hinput i uf huf) (fun a b hab => ?_) _
    have hroot : ∀ a, (UnionFind.singletons n).root a = a := fun a => UnionFind.root_of_parent rfl
    rw [UnionFind.Same, hroot, hroot] at hab
    exact hab ▸ .refl a

theorem same_first {i first : Fin n} (h : (indexOf txids).lookup (txids i) = some first) :
    (families txids inputs).Same i first := by
  refine run_establishes (P := fun uf : UnionFind n => uf.Same i first)
    (fun uf j h => Same.joinDuplicate h j) (fun uf => ?_) (mem_finRange i) _
  simp only [joinDuplicate, h]
  split
  · exact congrArg uf.root (Eq.symm ‹_›)
  · exact uf.same_union i first

theorem same_of_linked {i j : Fin n} (h : Linked txids inputs i j) :
    (families txids inputs).Same i j := by
  obtain ⟨first, hfirst⟩ := exists_lookup_indexOf txids j
  have hj : (families txids inputs).Same j first := same_first hfirst
  rcases h with heq | ⟨hspend, hskip⟩
  · exact (same_first (heq ▸ hfirst)).trans hj.symm
  · -- the spend joins the first occurrence
    refine Eq.trans (b := (families txids inputs).root first) ?_ hj.symm
    refine run_keeps (P := fun uf : UnionFind n => uf.Same i first)
      (fun uf k h => Same.joinDuplicate h k) ?_ _
    refine run_establishes (P := fun uf : UnionFind n => uf.Same i first) (fun uf k h => ?_)
      (fun uf => ?_) (mem_finRange i) _
    · exact run_keeps (P := fun uf : UnionFind n => uf.Same i first)
        (fun uf src h => Same.joinInput h k src) h _
    · refine run_establishes (P := fun uf : UnionFind n => uf.Same i first)
        (fun uf src h => Same.joinInput h i src) (fun uf => ?_) hspend uf
      rw [joinInput, if_neg (not_or.mpr hskip), hfirst]
      exact uf.same_union i first

/-- The union-find decides whether two transactions are connected. -/
theorem same_families_iff {i j : Fin n} :
    (families txids inputs).Same i j ↔ Connected txids inputs i j := by
  refine ⟨connected_of_same, fun h => ?_⟩
  induction h with
  | rel i j h => exact same_of_linked h
  | refl i => exact rfl
  | symm i j _ ih => exact ih.symm
  | trans i j k _ _ ih ih' => exact ih.trans ih'

variable (s : UnionFind n × GoMap (Fin n) String)

theorem root_smallestTxid (i j : Fin n) : (smallestTxid txids s i).1.root j = s.1.root j := by
  simp only [smallestTxid]
  split <;> exact UnionFind.root_find s.1 i j

theorem readKey_eq (keyOf : GoMap (Fin n) String) (uf : UnionFind n) (keys : List String)
    (is : List (Fin n)) : (run (readKey keyOf) (uf, keys) is).2 =
      keys ++ is.map fun i => keyAt keyOf (uf.root i) := by
  induction is generalizing uf keys with
  | nil => simp
  | cons i is ih =>
    rw [run_cons]
    simp only [readKey]
    rw [ih]
    simp

theorem lookup_smallestTxid (i r : Fin n) : (smallestTxid txids s i).2.lookup r =
      if r = s.1.root i then some (min (txids i) ((s.2.lookup r).getD (txids i)))
      else s.2.lookup r := by
  have hroot := UnionFind.find_fst s.1 i
  unfold smallestTxid
  generalize s.1.find i = found at hroot
  obtain ⟨r', uf⟩ := found
  obtain rfl : r' = s.1.root i := hroot
  simp only
  by_cases hr : r = s.1.root i
  · rw [if_pos hr, hr]
    cases hl : s.2.lookup (s.1.root i) with
    | none => simp
    | some cur =>
      by_cases hlt : txids i < cur
      · simp only [if_pos hlt, AList.lookup_insert, Option.getD_some, min_eq_left hlt.le]
      · simp only [if_neg hlt, hl, Option.getD_some, min_eq_right (not_lt.mp hlt)]
  · rw [if_neg hr]
    split
    · split
      · exact AList.lookup_insert_ne hr
      · rfl
    · exact AList.lookup_insert_ne hr

/-- The least txid of the family of `i`. -/
abbrev IsKey (txids : Fin n → String) (inputs : Fin n → List String) (i : Fin n) (key : String) :
    Prop := IsLeast {txid | ∃ j, Connected txids inputs i j ∧ txids j = txid} key

variable (txids) in
theorem exists_of_lookup_smallest (is : List (Fin n))
    (hs : ∀ r key, s.2.lookup r = some key → ∃ j, s.1.root j = r ∧ txids j = key) :
    ∀ r key, (run (smallestTxid txids) s is).2.lookup r = some key →
      ∃ j, (run (smallestTxid txids) s is).1.root j = r ∧ txids j = key := by
  refine run_keeps (P := fun s : UnionFind n × GoMap (Fin n) String =>
    ∀ r key, s.2.lookup r = some key → ∃ j, s.1.root j = r ∧ txids j = key) ?_ hs is
  intro s i hs r key hkey
  simp only [root_smallestTxid]
  rw [lookup_smallestTxid] at hkey
  split at hkey
  · rename_i hr
    cases hl : s.2.lookup r with
    | none =>
      rw [hl, Option.getD_none, min_self] at hkey
      exact ⟨i, hr.symm, Option.some.inj hkey⟩
    | some cur =>
      rw [hl, Option.getD_some] at hkey
      rcases min_choice (txids i) cur with hmin | hmin
      · exact ⟨i, hr.symm, hmin.symm.trans (Option.some.inj hkey)⟩
      · exact hs r key (hl.trans (hmin ▸ hkey))
  · exact hs r key hkey

variable (txids) in
theorem exists_lookup_smallest (i : Fin n) :
    ∃ key, (run (smallestTxid txids) s (List.finRange n)).2.lookup
      ((run (smallestTxid txids) s (List.finRange n)).1.root i) = some key ∧ key ≤ txids i := by
  refine run_establishes (P := fun s : UnionFind n × GoMap (Fin n) String =>
    ∃ key, s.2.lookup (s.1.root i) = some key ∧ key ≤ txids i) ?_ ?_ (mem_finRange i) s
  · rintro s j ⟨key, hkey, hle⟩
    rw [root_smallestTxid, lookup_smallestTxid, hkey]
    split
    · exact ⟨_, rfl, (min_le_right _ _).trans hle⟩
    · exact ⟨key, rfl, hle⟩
  · intro s
    rw [root_smallestTxid, lookup_smallestTxid, if_pos rfl]
    exact ⟨_, rfl, min_le_left _ _⟩

theorem familyPartitionKeys_eq (txids : Fin n → String) (inputs : Fin n → List String) :
    ∃ key : Fin n → String, familyPartitionKeys txids inputs = List.ofFn key ∧
      ∀ i, IsKey txids inputs i (key i) := by
  have hroot : ∀ j, (run (smallestTxid txids) (families txids inputs, ∅) (List.finRange n)).1.root j =
      (families txids inputs).root j := fun j =>
    run_keeps (P := fun s : UnionFind n × GoMap (Fin n) String =>
      s.1.root j = (families txids inputs).root j)
      (fun s i hs => (root_smallestTxid s i j).trans hs) rfl _
  have htree := exists_of_lookup_smallest txids (families txids inputs, ∅)
    (List.finRange n) (by simp)
  have hleast := exists_lookup_smallest txids (families txids inputs, ∅)
  simp only [familyPartitionKeys, hroot] at htree ⊢
  refine ⟨fun i => keyAt (run (smallestTxid txids) (families txids inputs, ∅)
    (List.finRange n)).2 ((families txids inputs).root i), ?_, fun i => ⟨?_, ?_⟩⟩
  · rw [readKey_eq, nil_append, ofFn_eq_map]
    exact map_congr_left fun i _ => by rw [hroot]
  · obtain ⟨key, hkey, -⟩ := hleast i
    rw [hroot] at hkey
    obtain ⟨j, hj, htxid⟩ := htree _ _ hkey
    exact ⟨j, same_families_iff.mp hj.symm, by simp [keyAt, hkey, htxid]⟩
  · rintro _ ⟨j, hj, rfl⟩
    obtain ⟨key, hkey, hle⟩ := hleast j
    have hsame : (families txids inputs).root i = (families txids inputs).root j :=
      same_families_iff.mpr hj
    rw [hroot, ← hsame] at hkey
    simpa only [keyAt, hkey, Option.getD_some] using hle

variable {key : Fin n → String}

theorem key_le (h : ∀ i, IsKey txids inputs i (key i)) {i j : Fin n}
    (hij : Connected txids inputs i j) : key i ≤ key j := by
  obtain ⟨a, ha, hkey⟩ := (h j).1
  exact (h i).2 ⟨a, hij.trans _ _ _ ha, hkey⟩

/-- Transactions are connected iff their keys are equal. -/
theorem key_eq_iff (h : ∀ i, IsKey txids inputs i (key i)) {i j : Fin n} :
    key i = key j ↔ Connected txids inputs i j := by
  constructor
  · intro heq
    obtain ⟨a, ha, hkey⟩ := (h i).1
    obtain ⟨b, hb, hkey'⟩ := (h j).1
    have hab : Linked txids inputs a b := .inl (hkey.trans (heq.trans hkey'.symm))
    exact (ha.trans _ _ _ (.rel _ _ hab)).trans _ _ _ (hb.symm _ _)
  · exact fun hij => le_antisymm (key_le h hij) (key_le h (hij.symm _ _))

theorem connected_of_comp {m : Nat} (σ : Fin m → Fin n) {i j : Fin m}
    (h : Connected (fun i => txids (σ i)) (fun i => inputs (σ i)) i j) :
    Connected txids inputs (σ i) (σ j) := by
  induction h with
  | rel i j h => exact .rel _ _ h
  | refl i => exact .refl _
  | symm i j _ ih => exact ih.symm _ _
  | trans i j k _ _ ih ih' => exact ih.trans _ _ _ ih'

theorem IsKey.comp {σ : Equiv.Perm (Fin n)} {i : Fin n} {key : String}
    (h : IsKey txids inputs (σ i) key) :
    IsKey (fun i => txids (σ i)) (fun i => inputs (σ i)) i key := by
  obtain ⟨⟨j, hj, hkey⟩, hle⟩ := h
  refine ⟨⟨σ.symm j, ?_, by simpa using hkey⟩, ?_⟩
  · have hback : Connected (fun i => txids (σ i)) (fun i => inputs (σ i)) (σ.symm (σ i)) (σ.symm j) :=
      connected_of_comp σ.symm (by simpa using hj)
    simpa using hback
  · rintro _ ⟨k, hk, rfl⟩
    exact hle ⟨σ k, connected_of_comp σ hk, rfl⟩

theorem familyPartitionKeys_perm (h : ∀ i, IsKey txids inputs i (key i)) (σ : Equiv.Perm (Fin n)) :
    familyPartitionKeys (fun i => txids (σ i)) (fun i => inputs (σ i)) =
      List.ofFn fun i => key (σ i) := by
  obtain ⟨key', hkeys, hkey'⟩ := familyPartitionKeys_eq (fun i => txids (σ i)) fun i => inputs (σ i)
  rw [hkeys]
  exact congrArg List.ofFn (funext fun i => (hkey' i).unique (h (σ i)).comp)

end Keys

variable {p : ParsedItem} {parsed : List ParsedItem} {α : Type} {a b : α} {l : List α}

theorem lookup_recordKey {txid key : String} {pks : List (ParsedItem × String)}
    (hkey : ∀ pk ∈ pks, pk.1.txid = txid → pk.2 = key) (hmem : ∃ pk ∈ pks, pk.1.txid = txid) :
    (run recordKey (∅, ∅) pks).1.lookup txid = some key := by
  have hstep : ∀ m (pk : ParsedItem × String), (recordKey m pk).1 =
      if pk.1.txid ∈ m.1 then m.1 else m.1.insert pk.1.txid pk.2 := fun m pk => by
    unfold recordKey
    split <;> rfl
  have hlookup := GoMap.lookup_foldl_first (·.1) hstep (∅, ∅) pks txid
  obtain ⟨pk, hpk⟩ : ∃ pk, (pks.find? fun pk => pk.1.txid = txid) = some pk := by
    rw [← Option.isSome_iff_exists, find?_isSome]
    simpa using hmem
  have hfound := hkey pk (mem_of_find?_eq_some hpk) (by simpa using find?_some hpk)
  rw [run, hlookup, hpk, ← hfound]
  rfl

theorem lookup_keyByTxid {key : Fin parsed.length → String}
    (hkeys : familyPartitionKeys (fun i => (parsed.get i).txid)
      (fun i => collectInputTXIDs (parsed.get i).tx) = List.ofFn key)
    (h : ∀ i, IsKey (fun i => (parsed.get i).txid)
      (fun i => collectInputTXIDs (parsed.get i).tx) i (key i)) (i : Fin parsed.length) :
    (familyKeysBySubmittedTxid parsed).1.lookup (parsed.get i).txid = some (key i) := by
  unfold familyKeysBySubmittedTxid
  simp only [hkeys]
  refine lookup_recordKey (fun pk hpk htxid => ?_) ⟨(parsed.get i, key i), ?_, rfl⟩
  · obtain ⟨k, hk, rfl⟩ := mem_iff_getElem.mp hpk
    have hlt : k < parsed.length := by simpa using hk
    rw [getElem_zip] at htxid ⊢
    rw [List.getElem_ofFn]
    exact (key_eq_iff h).mpr (.rel ⟨k, hlt⟩ i (.inl htxid))
  · exact mem_of_getElem? (i := i) (by simp)

theorem lookup_of_spends {c : ParsedItem} (hp : p ∈ parsed)
    (hc : c ∈ parsed) (hspend : p.txid ∈ collectInputTXIDs c.tx) :
    ∃ key, (familyKeysBySubmittedTxid parsed).1.lookup p.txid = some key ∧
      (familyKeysBySubmittedTxid parsed).1.lookup c.txid = some key := by
  obtain ⟨i, rfl⟩ := get_of_mem hp
  obtain ⟨j, rfl⟩ := get_of_mem hc
  obtain ⟨key, hkeys, hkey⟩ := familyPartitionKeys_eq (fun i => (parsed.get i).txid)
    fun i => collectInputTXIDs (parsed.get i).tx
  have hlinked : Linked (fun i => (parsed.get i).txid)
      (fun i => collectInputTXIDs (parsed.get i).tx) j i := by
    by_cases heq : (parsed.get i).txid = (parsed.get j).txid
    · exact .inl heq.symm
    · exact .inr ⟨hspend, (parsed.get i).tx.txid_ne, heq⟩
  refine ⟨key i, lookup_keyByTxid hkeys hkey i, ?_⟩
  rw [← (key_eq_iff hkey).mpr (.rel _ _ hlinked)]
  exact lookup_keyByTxid hkeys hkey j

theorem key_of_mem_batchMessages {toPublish : List ParsedItem} {m : KeyValue} {key : String}
    (hm : m ∈ batchMessages parsed toPublish)
    (hkey : (familyKeysBySubmittedTxid parsed).1.lookup m.value.txid = some key) :
    m.key = key := by
  obtain ⟨p, -, rfl⟩ := mem_map.mp hm
  exact congrArg (·.getD p.txid) hkey

/-- The keys of a body: two are equal exactly if there is a chain of links between the
transactions, each is the smallest txid that the chains reach, another order of the body only
reorders them, and the messages of any transactions of the body carry them. -/
theorem familyPartitionKeys_families (parsed : List ParsedItem) :
    ∃ key : Fin parsed.length → String, familyPartitionKeys (fun i => (parsed.get i).txid)
        (fun i => collectInputTXIDs (parsed.get i).tx) = List.ofFn key ∧
      (∀ i j, key i = key j ↔ Connected (fun i => (parsed.get i).txid)
        (fun i => collectInputTXIDs (parsed.get i).tx) i j) ∧
      (∀ i, IsKey (fun i => (parsed.get i).txid)
        (fun i => collectInputTXIDs (parsed.get i).tx) i (key i)) ∧
      (∀ σ : Equiv.Perm (Fin parsed.length), familyPartitionKeys (fun i => (parsed.get (σ i)).txid)
        (fun i => collectInputTXIDs (parsed.get (σ i)).tx) = List.ofFn fun i => key (σ i)) ∧
      ∀ is : List (Fin parsed.length),
        (batchMessages parsed (is.map parsed.get)).map (·.key) = is.map key := by
  obtain ⟨key, hkeys, hkey⟩ := familyPartitionKeys_eq (fun i => (parsed.get i).txid)
    fun i => collectInputTXIDs (parsed.get i).tx
  refine ⟨key, hkeys, fun i j => key_eq_iff hkey, hkey,
    fun σ => familyPartitionKeys_perm hkey σ, fun is => ?_⟩
  simp only [batchMessages, propagationMessages, map_map]
  refine map_congr_left fun i _ => ?_
  exact congrArg (·.getD (parsed.get i).txid) (lookup_keyByTxid hkeys hkey i)

/-! ## Order -/

def Precedes {α : Type} (a b : α) (l : List α) : Prop := [a, b].Sublist l

theorem precedes_or (ha : a ∈ l) (hb : b ∈ l) (hne : a ≠ b) : Precedes a b l ∨ Precedes b a l := by
  have hpairs : l.Pairwise fun x y => Precedes x y l ∨ Precedes y x l :=
    pairwise_iff_forall_sublist.mpr .inl
  have : Std.Symm fun x y => Precedes x y l ∨ Precedes y x l := ⟨fun _ _ => .symm⟩
  exact hpairs.forall ha hb hne

theorem Precedes.asymm (hnodup : l.Nodup) (h : Precedes a b l) : ¬ Precedes b a l := by
  classical
  have hlt : l.Pairwise fun x y => l.idxOf x < l.idxOf y := by
    rw [pairwise_iff_getElem]
    intro i j hi hj hij
    rwa [hnodup.idxOf_getElem, hnodup.idxOf_getElem]
  rw [pairwise_iff_forall_sublist] at hlt
  exact fun h' => (hlt h).asymm (hlt h')

theorem precedes_sublist_iff {l' : List α} (hnodup : l.Nodup) (hsub : l'.Sublist l) (ha : a ∈ l')
    (hb : b ∈ l') : Precedes a b l' ↔ Precedes a b l := by
  refine ⟨fun h => h.trans hsub, fun h => ?_⟩
  have hne : a ≠ b := by
    rintro rfl
    exact (nodup_iff_sublist.mp hnodup a) h
  rcases precedes_or ha hb hne with h' | h'
  · exact h'
  · exact absurd (h'.trans hsub) (h.asymm hnodup)

theorem precedes_batchMessages_iff {toPublish : List ParsedItem}
    (hnodup : (parsed.map (·.txid)).Nodup) (hsub : toPublish.Sublist parsed) {c : ParsedItem}
    (hp : p ∈ toPublish) (hc : c ∈ toPublish) :
    (∃ mp mc, mp.value.txid = p.txid ∧ mc.value.txid = c.txid ∧
      Precedes mp mc (batchMessages parsed toPublish)) ↔ Precedes p c parsed := by
  rw [← precedes_sublist_iff hnodup.of_map hsub hp hc]
  constructor
  · rintro ⟨mp, mc, hmp, hmc, h⟩
    obtain ⟨l, hl, heq⟩ := sublist_map_iff.mp h
    match l, heq with
    | [p', c'], heq =>
      obtain ⟨hp', heq⟩ := List.cons.inj heq
      obtain ⟨hc', -⟩ := List.cons.inj heq
      subst hp' hc'
      obtain rfl : p' = p := inj_on_of_nodup_map hnodup
        (hsub.subset (hl.subset (by simp))) (hsub.subset hp) hmp
      obtain rfl : c' = c := inj_on_of_nodup_map hnodup
        (hsub.subset (hl.subset (by simp))) (hsub.subset hc) hmc
      exact hl
  · intro h
    exact ⟨_, _, rfl, rfl, h.map _⟩

end Arcade.ApiServer
