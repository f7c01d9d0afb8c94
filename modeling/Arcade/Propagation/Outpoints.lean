import Arcade.Propagation.Verdicts

/-!
Attribution of conflict lines by outpoint. The index of the outpoints that a batch spends has, for
each of them, its only spender or the mark that there are several, however often and in whatever
order the spends come. A line is placed on the one transaction that its outpoints belong to.
-/

namespace Arcade.Propagation

open Lib Lib.GoMap Teranode List

/-! ## The owners of the outpoints -/

/-- What the index says of an outpoint with the spenders `S`. -/
def OwnerOf (S : Nat → Prop) : Option (Option Nat) → Prop
  | none => ∀ j, ¬ S j
  | some none => ∃ j j', j ≠ j' ∧ S j ∧ S j'
  | some (some i) => ∀ j, S j ↔ j = i

/-- The index is right about spends `S`. -/
def Indexed (owners : Owners) (S : Text → Nat → Prop) : Prop :=
  ∀ key, OwnerOf (S key) (owners.lookup key)

theorem OwnerOf.congr {S S' : Nat → Prop} {owner : Option (Option Nat)} (h : OwnerOf S owner)
    (hS : ∀ j, S' j ↔ S j) : OwnerOf S' owner := by
  obtain rfl : S' = S := funext fun j => propext (hS j)
  exact h

/-- The entry of an outpoint after one more spend. -/
def withSpender (i : Nat) : Option (Option Nat) → Option Nat
  | none => some i
  | some prev => if prev ≠ some i then none else some i

theorem OwnerOf.add {S : Nat → Prop} {owner : Option (Option Nat)} (h : OwnerOf S owner)
    (i : Nat) : OwnerOf (fun j => S j ∨ j = i) (some (withSpender i owner)) := by
  cases owner with
  | none =>
    intro j
    tauto
  | some prev =>
    cases prev with
    | none =>
      obtain ⟨j, j', hne, hj, hj'⟩ := h
      exact ⟨j, j', hne, .inl hj, .inl hj'⟩
    | some p =>
      by_cases hp : p = i
      · subst hp
        simp only [withSpender, ne_eq, not_true_eq_false, ↓reduceIte]
        intro j
        have := h j
        tauto
      · simp only [withSpender, ne_eq, Option.some.injEq, hp, not_false_eq_true, ↓reduceIte]
        exact ⟨p, i, hp, .inl ((h p).mpr rfl), .inr rfl⟩

def spentKey (input : Option TxInput) : Option Text :=
  input.bind fun input => input.sourceTXID.map fun txid => outpointKey txid input.sourceTxOutIndex

theorem addOwner_eq (i : Nat) (owners : Owners) (input : Option TxInput) :
    addOwner i owners input = (spentKey input).elim owners fun key =>
      owners.insert key (withSpender i (owners.lookup key)) := by
  cases input with
  | none => rfl
  | some input =>
    cases htxid : input.sourceTXID with
    | none => simp [addOwner, spentKey, htxid]
    | some txid =>
      simp only [addOwner, spentKey, htxid, Option.bind_some, Option.map_some, Option.elim_some]
      cases owners.lookup (outpointKey txid input.sourceTxOutIndex) with
      | none => rfl
      | some prev =>
        simp only [withSpender]
        split <;> rfl

theorem indexed_addOwner {owners : Owners} {S : Text → Nat → Prop} (h : Indexed owners S) (i : Nat)
    (input : Option TxInput) :
    Indexed (addOwner i owners input) fun key j => S key j ∨ (spentKey input = some key ∧ j = i) := by
  intro key
  rw [addOwner_eq]
  cases hkey : spentKey input with
  | none => exact (h key).congr fun j => by simp
  | some spent =>
    rw [Option.elim_some, lookup_insert_eq]
    by_cases heq : key = spent
    · subst heq
      rw [if_pos rfl]
      exact ((h key).add i).congr fun j => by simp
    · rw [if_neg heq]
      exact (h key).congr fun j => by simp [Ne.symm heq]

section

variable (parse : TxParser)

def SpendsOutpoint (batch : List PropagationMsg) (key : Text) (i : Nat) : Prop :=
  ∃ msg inputs, batch[i]? = some msg ∧ parse msg.rawTx = some inputs ∧
    some key ∈ inputs.map spentKey

def SoleSpender (batch : List PropagationMsg) (key : Text) (i : Nat) : Prop :=
  ∀ j, SpendsOutpoint parse batch key j ↔ j = i

omit parse in
theorem indexed_foldl_addOwner {S : Text → Nat → Prop} (i : Nat) (inputs : List (Option TxInput))
    {owners : Owners} (h : Indexed owners S) :
    Indexed (inputs.foldl (addOwner i) owners)
      fun key j => S key j ∨ (some key ∈ inputs.map spentKey ∧ j = i) := by
  induction inputs generalizing owners S with
  | nil => exact fun key => (h key).congr fun j => by simp
  | cons input inputs ih =>
    refine fun key => (ih (indexed_addOwner h i input) key).congr fun j => ?_
    simp only [map_cons, mem_cons, eq_comm]
    tauto

theorem indexed_addOwners {S : Text → Nat → Prop} (i : Nat) (rest : List PropagationMsg)
    {owners : Owners} (h : Indexed owners S) :
    Indexed (addOwners parse i owners rest)
      fun key j => S key j ∨ ∃ k, j = i + k ∧ SpendsOutpoint parse rest key k := by
  induction rest generalizing i owners S with
  | nil => exact fun key => (h key).congr fun j => by simp [SpendsOutpoint]
  | cons msg rest ih =>
    -- The spends of a list are those of its head and those of its tail, one index further.
    have hcons : ∀ key j, (∃ k, j = i + k ∧ SpendsOutpoint parse (msg :: rest) key k) ↔
        (j = i ∧ ∃ inputs, parse msg.rawTx = some inputs ∧ some key ∈ inputs.map spentKey) ∨
        ∃ k, j = i + 1 + k ∧ SpendsOutpoint parse rest key k := by
      intro key j
      constructor
      · rintro ⟨k, rfl, msg', inputs, hmsg, hparse, hkey⟩
        cases k with
        | zero =>
          obtain rfl : msg = msg' := by simpa using hmsg
          exact .inl ⟨rfl, inputs, hparse, hkey⟩
        | succ k => exact .inr ⟨k, by omega, msg', inputs, by simpa using hmsg, hparse, hkey⟩
      · rintro (⟨rfl, inputs, hparse, hkey⟩ | ⟨k, rfl, msg', inputs, hmsg, hparse, hkey⟩)
        · exact ⟨0, rfl, msg, inputs, rfl, hparse, hkey⟩
        · exact ⟨k + 1, by omega, msg', inputs, by simpa using hmsg, hparse, hkey⟩
    unfold addOwners
    cases hparse : parse msg.rawTx with
    | none =>
      refine fun key => (ih (i + 1) h key).congr fun j => ?_
      dsimp only
      rw [hcons, hparse]
      simp
    | some inputs =>
      refine fun key => (ih (i + 1) (indexed_foldl_addOwner i inputs h) key).congr fun j => ?_
      dsimp only
      rw [hcons, hparse]
      simp only [Option.some.injEq, exists_eq_left']
      tauto

variable (batch : List PropagationMsg) (failures : GoMap Text Text)

theorem indexed_buildSubmittedOutpointIndex : Indexed (buildSubmittedOutpointIndex parse batch)
      (SpendsOutpoint parse batch) := by
  have hempty : Indexed ∅ fun _ _ => False := fun key j => id
  refine fun key => (indexed_addOwners parse 0 batch hempty key).congr fun j => ?_
  simp

theorem lookup_index_eq_some_iff (key : Text) (i : Nat) :
    (buildSubmittedOutpointIndex parse batch).lookup key = some (some i) ↔
      SoleSpender parse batch key i := by
  have h := indexed_buildSubmittedOutpointIndex parse batch key
  constructor
  · intro heq
    rwa [heq] at h
  · intro hsole
    cases howner : (buildSubmittedOutpointIndex parse batch).lookup key with
    | none =>
      rw [howner] at h
      exact absurd ((hsole i).mpr rfl) (h i)
    | some owner =>
      rw [howner] at h
      cases owner with
      | none =>
        obtain ⟨j, j', hne, hj, hj'⟩ := h
        exact absurd (((hsole j).mp hj).trans ((hsole j').mp hj').symm) hne
      | some p => rw [(hsole p).mp ((h p).mpr rfl)]

/-! ## One line -/

/-- The line names an outpoint of the transaction alone, and none of another one alone. -/
def Condemns (batch : List PropagationMsg) (line : Text) (i : Nat) : Prop :=
  (∃ ref ∈ outpointRefPattern.findAll line, SoleSpender parse batch (Text.lower ref) i) ∧
  ∀ ref ∈ outpointRefPattern.findAll line, ∀ j, SoleSpender parse batch (Text.lower ref) j → j = i

omit parse in
theorem attributeRefs_eq_some_iff (owners : Owners) (found : Option Nat) (refs : List Text)
    (i : Nat) :
    attributeRefs owners found refs = some i ↔ (found = some i ∨
        found = none ∧ ∃ ref ∈ refs, owners.lookup (Text.lower ref) = some (some i)) ∧
      ∀ ref ∈ refs, ∀ j, owners.lookup (Text.lower ref) = some (some j) → j = i := by
  induction refs generalizing found with
  | nil => simp [attributeRefs]
  | cons ref refs ih =>
    cases howner : owners.lookup (Text.lower ref) with
    | none =>
      simp only [attributeRefs, howner, ih]
      simp [howner]
    | some owner =>
      cases owner with
      | none =>
        simp only [attributeRefs, howner, ih]
        simp [howner]
      | some idx =>
        cases found with
        | none =>
          simp only [attributeRefs, howner, ih]
          simp only [Option.some.injEq, reduceCtorEq, false_and, or_false, false_or, true_and,
            mem_cons, exists_eq_or_imp, forall_eq_or_imp, howner]
          constructor
          · rintro ⟨rfl, hall⟩
            exact ⟨.inl rfl, fun j hj => hj.symm, hall⟩
          · rintro ⟨-, hfirst, hall⟩
            exact ⟨hfirst idx rfl, hall⟩
        | some prev =>
          by_cases hprev : prev ≠ idx
          · simp only [attributeRefs, howner, if_pos hprev]
            simp only [reduceCtorEq, false_iff, Option.some.injEq, false_and, or_false,
              mem_cons, forall_eq_or_imp, howner]
            rintro ⟨rfl, hfirst, -⟩
            exact hprev (hfirst idx rfl).symm
          · obtain rfl := not_not.mp hprev
            simp only [attributeRefs, howner, ne_eq, not_true_eq_false, ↓reduceIte, ih]
            simp only [Option.some.injEq, reduceCtorEq, false_and, or_false, mem_cons,
              forall_eq_or_imp, howner]
            constructor
            · rintro ⟨rfl, hall⟩
              exact ⟨rfl, fun j hj => hj.symm, hall⟩
            · rintro ⟨rfl, -, hall⟩
              exact ⟨rfl, hall⟩

theorem attributeOneConflictLine_eq_some_iff (line : Text) (i : Nat) :
    attributeOneConflictLine line (buildSubmittedOutpointIndex parse batch) =
      some i ↔ Condemns parse batch line i := by
  unfold attributeOneConflictLine Condemns
  rw [attributeRefs_eq_some_iff]
  simp only [reduceCtorEq, true_and, false_or, lookup_index_eq_some_iff]

/-! ## All lines -/

omit parse in
theorem lookup_foldl_attributeKey (owners : Owners) (i : Nat) (keys : List Text)
    (acc : GoMap Nat Text) :
    (keys.foldl (attributeKey failures owners) acc).lookup i =
      if (keys.filter fun key =>
          attributeOneConflictLine ((failures.lookup key).getD []) owners = some i) = [] then
        acc.lookup i
      else some ((keys.filter fun key =>
          attributeOneConflictLine ((failures.lookup key).getD []) owners = some i).foldl
        (fun best key => preferRejectionLine best ((failures.lookup key).getD []))
        ((acc.lookup i).getD [])) := by
  induction keys generalizing acc with
  | nil => simp
  | cons key keys ih =>
    rw [foldl_cons, ih]
    by_cases hkey : attributeOneConflictLine ((failures.lookup key).getD []) owners = some i
    · have hstep : (attributeKey failures owners acc key).lookup i =
          some (preferRejectionLine ((acc.lookup i).getD []) ((failures.lookup key).getD [])) := by
        simp only [attributeKey, hkey]
        rw [lookup_insert_eq, if_pos rfl]
      rw [filter_cons_of_pos (by simpa using hkey), hstep, if_neg (cons_ne_nil _ _),
        foldl_cons, Option.getD_some]
      split
      · rename_i hnil
        rw [hnil]
        rfl
      · rfl
    · have hstep : (attributeKey failures owners acc key).lookup i = acc.lookup i := by
        cases ha : attributeOneConflictLine ((failures.lookup key).getD []) owners with
        | none => simp only [attributeKey, ha]
        | some idx =>
          have hne : i ≠ idx := fun heq => hkey (heq ▸ ha)
          simp only [attributeKey, ha]
          rw [lookup_insert_eq, if_neg hne]
      rw [filter_cons_of_neg (by simpa using hkey), hstep]

omit parse in
theorem preferRejectionLine_eq (current candidate : Text) :
    preferRejectionLine current candidate = current ∨
      preferRejectionLine current candidate = candidate := by
  unfold preferRejectionLine
  split
  · exact .inl rfl
  · split
    · exact .inr rfl
    · split
      · exact .inr rfl
      · split
        · exact .inr rfl
        · exact .inl rfl

omit parse in
theorem preferRejectionLine_nil (candidate : Text) : preferRejectionLine [] candidate = candidate := by
  unfold preferRejectionLine
  split
  · rename_i h
    exact h.symm
  · rfl

omit parse in
theorem foldl_preferRejectionLine_mem {lines : List Text} (hne : lines ≠ []) :
    lines.foldl preferRejectionLine [] ∈ lines := by
  have hfold : ∀ (ls : List Text) (best : Text), ls.foldl preferRejectionLine best = best ∨
      ls.foldl preferRejectionLine best ∈ ls := by
    intro ls
    induction ls with
    | nil => exact fun _ => .inl rfl
    | cons l ls ih =>
      intro best
      rw [foldl_cons]
      rcases ih (preferRejectionLine best l) with heq | hmem
      · rw [heq]
        rcases preferRejectionLine_eq best l with hbest | hl
        · exact .inl hbest
        · rw [hl]
          exact .inr mem_cons_self
      · exact .inr (mem_cons_of_mem _ hmem)
  cases lines with
  | nil => exact absurd rfl hne
  | cons l ls =>
    rw [foldl_cons, preferRejectionLine_nil]
    rcases hfold ls l with heq | hmem
    · rw [heq]
      exact mem_cons_self
    · exact mem_cons_of_mem _ hmem

omit parse in
theorem length_keys_insert_le (m : GoMap Nat Text) (i : Nat) (line : Text) :
    (m.insert i line).keys.length ≤ m.keys.length + 1 := by
  rw [AList.keys_insert, length_cons]
  exact Nat.succ_le_succ length_erase_le

omit parse in
theorem length_keys_attributeConflictLines_le (inBatch : List Text) (owners : Owners) :
    (attributeConflictLines failures inBatch owners).keys.length ≤
      (failures.keys.filter fun key => key ∉ inBatch).length := by
  have hfold : ∀ (keys : List Text) (acc : GoMap Nat Text),
      (keys.foldl (attributeKey failures owners) acc).keys.length ≤
        acc.keys.length + keys.length := by
    intro keys
    induction keys with
    | nil => exact fun _ => le_rfl
    | cons key keys ih =>
      intro acc
      have hstep : (attributeKey failures owners acc key).keys.length ≤ acc.keys.length + 1 := by
        unfold attributeKey
        dsimp only
        split
        · exact Nat.le_succ _
        · exact length_keys_insert_le _ _ _
      have := ih (attributeKey failures owners acc key)
      rw [foldl_cons, length_cons]
      omega
  unfold attributeConflictLines
  split
  · exact Nat.zero_le _
  · refine (hfold _ _).trans ?_
    rw [alienKeys, length_insertionSort]
    simp

/-- The lines filed under a key outside the batch that condemn the transaction, in the order of
their keys. -/
def contributions (batch : List PropagationMsg) (failures : GoMap Text Text) (i : Nat) :
    List Text :=
  ((alienKeys failures (lowerTxids batch)).filter fun key =>
    attributeOneConflictLine ((failures.lookup key).getD [])
      (buildSubmittedOutpointIndex parse batch) = some i).map fun key =>
        (failures.lookup key).getD []

theorem mem_contributions (i : Nat) (line : Text) : line ∈ contributions parse batch failures i ↔
      ∃ key, failures.lookup key = some line ∧ key ∉ lowerTxids batch ∧
        Condemns parse batch line i := by
  simp only [contributions, mem_map, mem_filter, decide_eq_true_eq,
    attributeOneConflictLine_eq_some_iff, alienKeys, mem_insertionSort, ← AList.mem_keys]
  constructor
  · rintro ⟨key, ⟨⟨hkey, hout⟩, hcondemns⟩, rfl⟩
    obtain ⟨line, hline⟩ := (mem_iff_lookup failures key).mp hkey
    simp only [hline, Option.getD_some] at hcondemns ⊢
    exact ⟨key, hline, hout, hcondemns⟩
  · rintro ⟨key, hline, hout, hcondemns⟩
    exact ⟨key, ⟨⟨mem_of_lookup hline, hout⟩, by simpa [hline] using hcondemns⟩, by simp [hline]⟩

theorem lookup_attributeConflictLines (i : Nat) :
    (attributeConflictLines failures (lowerTxids batch)
      (buildSubmittedOutpointIndex parse batch)).lookup i =
      if contributions parse batch failures i = [] then none
      else some ((contributions parse batch failures i).foldl
        preferRejectionLine []) := by
  have hmem := mem_attributeConflictLines failures (lowerTxids batch)
    (buildSubmittedOutpointIndex parse batch) i
  unfold attributeConflictLines at hmem ⊢
  split
  · -- Nothing is attributed, so nothing condemns.
    rename_i hguard
    rw [if_pos hguard] at hmem
    have hnone : contributions parse batch failures i = [] := by
      refine eq_nil_iff_forall_not_mem.mpr fun line hline => ?_
      obtain ⟨key, hkey, hout, hcondemns⟩ := (mem_contributions _ _ _ _ _).mp hline
      refine absurd (hmem.mpr ⟨key, ⟨mem_of_lookup hkey, hout⟩, ?_⟩) (AList.notMem_empty i)
      rw [hkey, Option.getD_some]
      exact (attributeOneConflictLine_eq_some_iff _ _ _ _).mpr hcondemns
    rw [if_pos hnone]
    rfl
  · rw [lookup_foldl_attributeKey]
    unfold contributions
    simp only [map_eq_nil_iff, AList.lookup_empty, Option.getD_none, foldl_map]

/-- A line is placed on a transaction exactly if its key names no transaction of the batch and it
condemns that one; all lines placed on one transaction go into what is kept for it, an outpoint with
several spenders places nothing, and no more is placed than there are alien lines. -/
theorem attributeConflictLines_exact (batch : List PropagationMsg) (failures : GoMap Text Text) :
    let attributed := attributeConflictLines failures (lowerTxids batch)
      (buildSubmittedOutpointIndex parse batch)
    (∀ i line, attributed.lookup i = some line →
      ∃ key, failures.lookup key = some line ∧ key ∉ lowerTxids batch ∧
        Condemns parse batch line i) ∧
    (∀ i key line, failures.lookup key = some line → key ∉ lowerTxids batch →
      Condemns parse batch line i →
      ∃ lines : List Text, line ∈ lines ∧ attributed.lookup i = some (lines.foldl preferRejectionLine []) ∧
        ∀ l ∈ lines, ∃ key', failures.lookup key' = some l ∧ key' ∉ lowerTxids batch ∧
          Condemns parse batch l i) ∧
    (∀ line, (∀ ref ∈ outpointRefPattern.findAll line, ∀ i,
        SpendsOutpoint parse batch (Text.lower ref) i →
        ∃ j, j ≠ i ∧ SpendsOutpoint parse batch (Text.lower ref) j) →
      attributeOneConflictLine line (buildSubmittedOutpointIndex parse batch) = none) ∧
    attributed.keys.length ≤ (failures.keys.filter fun key => key ∉ lowerTxids batch).length := by
  refine ⟨fun i line hline => ?_, fun i key line hline hout hcondemns => ?_, fun line hrefs => ?_,
    length_keys_attributeConflictLines_le _ _ _⟩
  · rw [lookup_attributeConflictLines] at hline
    split at hline
    · cases hline
    · rename_i hne
      obtain rfl := Option.some.inj hline
      exact (mem_contributions _ _ _ _ _).mp (foldl_preferRejectionLine_mem hne)
  · have hmem := (mem_contributions parse batch failures i line).mpr
      ⟨key, hline, hout, hcondemns⟩
    refine ⟨contributions parse batch failures i, hmem, ?_, fun l hl =>
      (mem_contributions _ _ _ _ _).mp hl⟩
    rw [lookup_attributeConflictLines, if_neg (ne_nil_of_mem hmem)]
  · cases hone : attributeOneConflictLine line
      (buildSubmittedOutpointIndex parse batch) with
    | none => rfl
    | some i =>
      obtain ⟨⟨ref, href, hsole⟩, -⟩ := (attributeOneConflictLine_eq_some_iff _ _ _ _).mp hone
      obtain ⟨j, hne, hj⟩ := hrefs ref href i ((hsole i).mpr rfl)
      exact absurd ((hsole j).mp hj) hne

end

end Arcade.Propagation
