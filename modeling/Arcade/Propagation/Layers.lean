import Arcade.Lib.Depths
import Arcade.Propagation.Offsets
import Mathlib.Data.List.Perm.Basic

/-!
`layerByDependency`: the messages of a batch in layers, such that the parents of a message that are
in the batch lie in earlier layers. The layer of a message is its depth in the graph of its
parents, which a memoized search with a guard against cycles finds.
-/

namespace Arcade.Propagation

open Lib List

/-! ## Layers -/

/-- The loop that fills `index` from place `i` on: the first message of every txid. -/
def indexLoop : Nat → List PropagationMsg → GoMap String Nat → GoMap String Nat
  | _, [], index => index
  | i, m :: rest, index =>
    indexLoop (i + 1) rest (if m.txid ∈ index then index else index.insert m.txid i)

/-- The places of the parents of a message that the loop of `resolve` goes into. -/
def batchParents (msgs : List PropagationMsg) (i : Nat) : List Nat :=
  let index := indexLoop 0 msgs ∅
  ((msgs[i]?.map (·.inputTXIDs)).getD []).filterMap fun parent =>
    (index.lookup parent).filter (· ≠ i)

def depthOf : Mark → Nat
  | .done depth => depth
  | _ => 0

/-- The loop that appends every message to its layer. -/
def fillLayers {α : Type} (items : List (α × Nat)) (layers : List (List α)) : List (List α) :=
  items.foldl (fun layers item => layers.modify item.2 (· ++ [item.1])) layers

/-- `none` would be a search that does not end. -/
def layerByDependency (msgs : List PropagationMsg) : Option (List (List PropagationMsg)) :=
  if msgs.length < 2 then some [msgs]
  else do
    let (maxDepth, memo) ← Depths.resolveAll (batchParents msgs) (msgs.length + 1)
      (List.range msgs.length)
    return fillLayers (msgs.zipIdx.map fun item => (item.1, depthOf (memo item.2)))
      (List.replicate (maxDepth + 1) [])

/-! ## Filling the layers -/

section Fill

variable {α : Type} (items : List (α × Nat)) (layers : List (List α))

theorem getElem?_fillLayers (d : Nat) : (fillLayers items layers)[d]? =
    layers[d]?.map (· ++ (items.filter (·.2 = d)).map (·.1)) := by
  induction items generalizing layers with
  | nil => simp [fillLayers]
  | cons item items ih =>
    rw [fillLayers, foldl_cons, ← fillLayers, ih, List.getElem?_modify]
    by_cases hd : item.2 = d
    · simp [hd, Function.comp_def]
    · simp [hd]

theorem perm_modify_append {d : Nat} (h : d < layers.length) (a : α) :
    (layers.modify d (· ++ [a])).flatten.Perm (layers.flatten ++ [a]) := by
  induction layers generalizing d with
  | nil => simp at h
  | cons layer layers ih =>
    cases d with
    | zero =>
      simp only [modify_zero_cons, flatten_cons, append_assoc]
      exact perm_append_comm.append_left layer
    | succ d =>
      simp only [modify_succ_cons, flatten_cons, append_assoc]
      exact (ih (by simpa using h)).append_left layer

theorem perm_fillLayers (h : ∀ item ∈ items, item.2 < layers.length) :
    (fillLayers items layers).flatten.Perm (layers.flatten ++ items.map (·.1)) := by
  induction items generalizing layers with
  | nil => simp [fillLayers]
  | cons item items ih =>
    refine (ih _ fun item' hitem' => ?_).trans ?_
    · rw [length_modify]
      exact h item' (mem_cons_of_mem _ hitem')
    · have hone := perm_modify_append layers (h item mem_cons_self) item.1
      simpa using hone.append_right (items.map (·.1))

end Fill

/-! ## Parents -/

theorem lookup_indexLoop (i : Nat) (msgs : List PropagationMsg) (index : GoMap String Nat)
    (txid : String) : (indexLoop i msgs index).lookup txid =
      (index.lookup txid).or ((msgs.findIdx? (·.txid = txid)).map (i + ·)) := by
  induction msgs generalizing i index with
  | nil => simp [indexLoop]
  | cons m msgs ih =>
    rw [indexLoop, ih, List.findIdx?_cons]
    by_cases hm : m.txid = txid
    · subst hm
      by_cases hin : m.txid ∈ index
      · obtain ⟨j, hj⟩ := (GoMap.mem_iff_lookup index m.txid).mp hin
        simp [hin, hj]
      · have hnone : index.lookup m.txid = none := AList.lookup_eq_none.mpr hin
        simp [hin, hnone]
    · have hlookup : (if m.txid ∈ index then index else index.insert m.txid i).lookup txid =
          index.lookup txid := by
        split
        · rfl
        · exact AList.lookup_insert_ne (Ne.symm hm)
      rw [hlookup]
      simp [hm, Function.comp_def, Nat.add_comm, Nat.add_left_comm]

variable {msgs : List PropagationMsg} {i j : Nat} {a b : PropagationMsg}

theorem mem_batchParents : j ∈ batchParents msgs i ↔ j ≠ i ∧ ∃ m, msgs[i]? = some m ∧
      ∃ parent ∈ m.inputTXIDs, msgs.findIdx? (·.txid = parent) = some j := by
  have hlookup : ∀ parent, (indexLoop 0 msgs ∅).lookup parent =
      msgs.findIdx? (·.txid = parent) := by
    intro parent
    simp [lookup_indexLoop]
  simp only [batchParents, mem_filterMap, hlookup, Option.filter_eq_some_iff]
  cases hm : msgs[i]? with
  | none => simp
  | some m => simp; tauto

theorem lt_of_mem_batchParents (h : j ∈ batchParents msgs i) : j < msgs.length := by
  obtain ⟨-, m, -, parent, -, hj⟩ := mem_batchParents.mp h
  exact (List.findIdx?_eq_some_iff_getElem.mp hj).1

/-- One message of the list spends an output of another one of it. -/
def Spends (msgs : List PropagationMsg) (child parent : String) : Prop :=
  ∃ m ∈ msgs, m.txid = child ∧ parent ∈ m.inputTXIDs ∧ parent ∈ msgs.map (·.txid)

/-- No transaction spends an output that depends on it. -/
def Acyclic (msgs : List PropagationMsg) : Prop :=
  ∀ txid, ¬ Relation.TransGen (Spends msgs) txid txid

structure Layered (msgs : List PropagationMsg) (layers : List (List PropagationMsg)) : Prop where
  perm : layers.flatten.Perm msgs
  inOrder : ∀ layer ∈ layers, layer.Sublist msgs
  apart : (msgs.map (·.txid)).Nodup → ∀ layer ∈ layers, ∀ a ∈ layer, ∀ b ∈ layer,
    a.txid ≠ b.txid → a.txid ∉ b.inputTXIDs
  later : (msgs.map (·.txid)).Nodup → Acyclic msgs →
    ∀ (p c : Nat) (layer layer' : List PropagationMsg), layers[p]? = some layer →
      layers[c]? = some layer' → ∀ a ∈ layer, ∀ b ∈ layer', a.txid ∈ b.inputTXIDs → p < c

theorem mem_batchParents_of_spends (hnodup : (msgs.map (·.txid)).Nodup) (ha : msgs[j]? = some a)
    (hb : msgs[i]? = some b) (hspends : a.txid ∈ b.inputTXIDs) (hne : a.txid ≠ b.txid) :
    j ∈ batchParents msgs i := by
  refine mem_batchParents.mpr ⟨?_, b, hb, a.txid, hspends, ?_⟩
  · rintro rfl
    obtain rfl := Option.mem_unique ha hb
    exact hne rfl
  · obtain ⟨hj, rfl⟩ := List.getElem?_eq_some_iff.mp ha
    refine List.findIdx?_eq_some_iff_getElem.mpr ⟨hj, by simp, ?_⟩
    intro k hk heq
    have htxids : (msgs.map (·.txid))[k]? = (msgs.map (·.txid))[j]? := by
      have hk' : k < msgs.length := by omega
      simpa [hj, hk'] using heq
    have hkj : k = j := (List.getElem?_inj (by simp; omega) hnodup).mp htxids
    omega

theorem spends_of_mem_batchParents (ha : msgs[j]? = some a) (hb : msgs[i]? = some b)
    (h : j ∈ batchParents msgs i) :
    Spends msgs b.txid a.txid := by
  obtain ⟨-, m, hm, parent, hparent, hj⟩ := mem_batchParents.mp h
  obtain rfl := Option.mem_unique hm hb
  obtain ⟨hlt, htxid, -⟩ := List.findIdx?_eq_some_iff_getElem.mp hj
  obtain ⟨_, rfl⟩ := List.getElem?_eq_some_iff.mp ha
  have heq : msgs[j].txid = parent := by simpa using htxid
  exact ⟨m, mem_of_getElem? hb, rfl, heq ▸ hparent, mem_map_of_mem (getElem_mem hlt)⟩

theorem transGen_of_path {k : Nat} (ha : msgs[i]? = some a) (hb : msgs[j]? = some b)
    (hpath : Depths.Path (batchParents msgs) i k) {c : PropagationMsg} (hc : msgs[k]? = some c)
    (hedge : j ∈ batchParents msgs k) :
    Relation.TransGen (Spends msgs) a.txid b.txid := by
  induction hpath using Relation.ReflTransGen.head_induction_on generalizing a with
  | refl =>
    obtain rfl := Option.mem_unique ha hc
    exact .single (spends_of_mem_batchParents hb ha hedge)
  | head hstep _ ih =>
    have hlt := lt_of_mem_batchParents hstep
    exact .head (spends_of_mem_batchParents (List.getElem?_eq_getElem hlt) ha hstep)
      (ih (List.getElem?_eq_getElem hlt))

theorem layered_singleton (h : msgs.length < 2) : Layered msgs [msgs] := by
  have heq : ∀ a ∈ msgs, ∀ b ∈ msgs, a = b := by
    intro a ha b hb
    obtain _ | ⟨m, _ | ⟨m', rest⟩⟩ := msgs
    · cases ha
    · rw [mem_singleton.mp ha, mem_singleton.mp hb]
    · simp only [length_cons] at h
      omega
  refine ⟨by simp, by simp, ?_, ?_⟩
  · intro _ layer hlayer a ha b hb hne
    obtain rfl := mem_singleton.mp hlayer
    exact absurd (congrArg _ (heq a ha b hb)) hne
  · intro _ hacyclic p c layer layer' hp hc a ha b hb hspends
    obtain rfl := mem_singleton.mp (mem_of_getElem? hp)
    obtain rfl := mem_singleton.mp (mem_of_getElem? hc)
    obtain rfl := heq a ha b hb
    exact absurd (.single ⟨a, ha, rfl, hspends, mem_map_of_mem ha⟩) (hacyclic a.txid)

theorem layered_fillLayers (depth : Nat → Nat) {maxDepth : Nat}
    (hle : ∀ i < msgs.length, depth i ≤ maxDepth)
    (hedge : ∀ i < msgs.length, ∀ j ∈ batchParents msgs i, depth j < depth i ∨
      depth i < depth j ∧ Depths.Path (batchParents msgs) j i) :
    Layered msgs (fillLayers (msgs.zipIdx.map fun item => (item.1, depth item.2))
      (List.replicate (maxDepth + 1) [])) := by
  have hfst : (msgs.zipIdx.map fun item => (item.1, depth item.2)).map (·.1) = msgs := by
    simp [Function.comp_def]
  have hitem : ∀ item ∈ msgs.zipIdx.map fun item => (item.1, depth item.2),
      ∃ i, msgs[i]? = some item.1 ∧ depth i = item.2 := by
    intro item hitem
    obtain ⟨⟨m, i⟩, hi, rfl⟩ := mem_map.mp hitem
    exact ⟨i, mem_zipIdx_iff_getElem?.mp hi, rfl⟩
  generalize (msgs.zipIdx.map fun item => (item.1, depth item.2)) = items at hfst hitem ⊢
  have hlayer : ∀ (d : Nat) (layer : List PropagationMsg),
      (fillLayers items (List.replicate (maxDepth + 1) []))[d]? = some layer →
      layer = (items.filter (·.2 = d)).map (·.1) := by
    intro d layer h
    rw [getElem?_fillLayers, List.getElem?_replicate] at h
    split at h
    · simpa using h.symm
    · cases h
  have hmem : ∀ (d : Nat) (layer : List PropagationMsg),
      (fillLayers items (List.replicate (maxDepth + 1) []))[d]? = some layer →
      ∀ m ∈ layer, ∃ i, msgs[i]? = some m ∧ depth i = d := by
    intro d layer h m hm
    rw [hlayer d layer h] at hm
    obtain ⟨item, hin, rfl⟩ := mem_map.mp hm
    obtain ⟨hin', rfl⟩ : item ∈ items ∧ item.2 = d := by simpa using hin
    exact hitem item hin'
  refine ⟨?_, ?_, ?_, ?_⟩
  · have hperm := perm_fillLayers items (List.replicate (maxDepth + 1) []) ?_
    · rw [hfst] at hperm
      simpa using hperm
    · intro item hin
      obtain ⟨i, hi, hdepth⟩ := hitem item hin
      have := hle i (List.getElem?_eq_some_iff.mp hi).1
      simp only [length_replicate]
      omega
  · intro layer hin
    obtain ⟨d, hd⟩ := mem_iff_getElem?.mp hin
    rw [hlayer d layer hd, ← hfst]
    exact filter_sublist.map _
  · intro hnodup layer hin a ha b hb hne hspends
    obtain ⟨d, hd⟩ := mem_iff_getElem?.mp hin
    obtain ⟨j, hj, rfl⟩ := hmem d layer hd a ha
    obtain ⟨i, hi, heq⟩ := hmem _ layer hd b hb
    have hlt := (List.getElem?_eq_some_iff.mp hi).1
    have hparent := mem_batchParents_of_spends hnodup hj hi hspends hne
    rcases hedge i hlt j hparent with hlow | ⟨hhigh, -⟩
    · omega
    · omega
  · intro hnodup hacyclic p c layer layer' hp hc a ha b hb hspends
    obtain ⟨j, hj, rfl⟩ := hmem p layer hp a ha
    obtain ⟨i, hi, rfl⟩ := hmem c layer' hc b hb
    have hlt := (List.getElem?_eq_some_iff.mp hi).1
    have hne : a.txid ≠ b.txid := by
      intro heq
      refine hacyclic b.txid (.single ⟨b, mem_of_getElem? hi, rfl, heq ▸ hspends, ?_⟩)
      exact mem_map_of_mem (mem_of_getElem? hi)
    have hparent := mem_batchParents_of_spends hnodup hj hi hspends hne
    rcases hedge i hlt j hparent with hlow | ⟨-, hpath⟩
    · exact hlow
    · exact absurd (transGen_of_path hj hj hpath hi hparent) (hacyclic a.txid)

theorem exists_layered (msgs : List PropagationMsg) :
    ∃ layers, layerByDependency msgs = some layers ∧ Layered msgs layers := by
  unfold layerByDependency
  split
  · rename_i hlen
    exact ⟨[msgs], rfl, layered_singleton hlen⟩
  · have hclosed : ∀ i ∈ List.range msgs.length, ∀ j ∈ batchParents msgs i,
        j ∈ List.range msgs.length :=
      fun i _ j hj => mem_range.mpr (lt_of_mem_batchParents hj)
    have hself : ∀ i, i ∉ batchParents msgs i := fun i hi => (mem_batchParents.mp hi).1 rfl
    obtain ⟨⟨maxDepth, memo⟩, hres, hdepths⟩ := Depths.exists_resolveAll hclosed hself
    rw [length_range] at hres
    rw [hres]
    refine ⟨_, rfl, layered_fillLayers (fun i => depthOf (memo i)) ?_ ?_⟩
    · intro i hi
      obtain ⟨d, hle, hd, -⟩ := hdepths i (mem_range.mpr hi)
      have hdepth : depthOf (memo i) = d := congrArg depthOf hd
      exact hdepth ▸ hle
    · intro i hi j hj
      obtain ⟨d, -, hd, hnext⟩ := hdepths i (mem_range.mpr hi)
      obtain ⟨e, he, horder⟩ := hnext j hj
      have hdi : depthOf (memo i) = d := congrArg depthOf hd
      have hdj : depthOf (memo j) = e := congrArg depthOf he
      rw [hdi, hdj]
      exact horder

theorem layerByDependency_flat (h : ∀ m ∈ msgs, m.inputTXIDs = []) :
    layerByDependency msgs = some [msgs] := by
  have hflat : ∀ i, batchParents msgs i = [] := by
    intro i
    refine eq_nil_iff_forall_not_mem.mpr ?_
    intro j hj
    obtain ⟨-, m, hm, parent, hparent, -⟩ := mem_batchParents.mp hj
    simp [h m (mem_of_getElem? hm)] at hparent
  unfold layerByDependency
  split
  · rfl
  · obtain ⟨memo, hres, hmemo⟩ :=
      Depths.exists_resolveAll_flat (List.range msgs.length) hflat msgs.length
    have hzero : ∀ i, depthOf (memo i) = 0 := by
      intro i
      rcases hmemo i with hi | hi <;> simp [hi, depthOf]
    rw [hres]
    refine congrArg some (ext_getElem? fun d => ?_)
    simp only [getElem?_fillLayers, hzero]
    cases d with
    | zero =>
      have hall : ∀ item ∈ msgs.zipIdx.map (fun item => (item.1, 0)), decide (item.2 = 0) := by
        intro item hitem
        obtain ⟨_, -, rfl⟩ := mem_map.mp hitem
        rfl
      rw [filter_eq_self.mpr hall]
      simp [Function.comp_def]
    | succ d => simp

end Arcade.Propagation
