import Arcade.MerkleService.Owed

/-!
`RegisterBatchWithResults` over whole runs of the pool: an entry is reported registered exactly if an
endpoint acknowledged it in the call, and from then on no endpoint loses it.
-/

namespace Arcade.MerkleService

open Lib List

/-! ## The merge -/

variable (ctxDone : Bool)

theorem errRank_le (err : Err) : errRank ctxDone err ≤ 4 := by
  unfold errRank
  split <;> omega

theorem mergeLoop_eq_none_iff {best : Option Err} {bestRank : Nat}
    {errs : List (Option Err)} (h : best ≠ none ∨ 4 < bestRank ∧ errs ≠ []) :
    mergeLoop ctxDone best bestRank errs = none ↔ none ∈ errs := by
  induction errs generalizing best bestRank with
  | nil => simpa [mergeLoop] using h
  | cons err rest ih =>
    cases err with
    | none => simp [mergeLoop]
    | some err =>
      have hrank := errRank_le ctxDone err
      rw [mergeLoop]
      split
      · rw [ih (.inl (Option.some_ne_none err))]
        simp
      · have hbest : best ≠ none := h.resolve_right fun h' => by omega
        rw [ih (.inl hbest)]
        simp

theorem mergeErrors_eq_none_iff {errs : List (Option Err)} (h : errs ≠ []) :
    mergeErrors ctxDone errs = none ↔ none ∈ errs :=
  mergeLoop_eq_none_iff ctxDone (.inr ⟨by decide, h⟩)

/-! ## One call -/

def RegisterCall.Acknowledged (c : RegisterCall) (j : Nat) : Prop :=
  ∃ x ∈ c.batches, ∃ reg, x.2.entries[j]? = some (reg, .answered none)

/-- The results once they are merged, and the entries that the call has yet to queue. -/
def RegisterPhase.outcome :
    RegisterPhase → Option (List (Option Err) × List (String × Registration))
  | .queueing out rest => some (out, rest)
  | .returned out => some (out, [])
  | _ => none

structure CallOK (cfg : PoolConfig) (s : Pool) (c : RegisterCall) : Prop where
  regs : ∀ x ∈ c.batches, x.2.entries.map (·.1) = c.registrations
  acks : ∀ x ∈ c.batches, ∀ (j : Nat) (reg : Registration),
    x.2.entries[j]? = some (reg, .answered none) → .acked x.1 reg.txid ∈ s.shared.log
  sent : c.phase = .sending → c.batches ≠ []
  merged : ∀ out rest, c.phase.outcome = some (out, rest) → ∀ j < c.registrations.length,
    (out[j]? = some none ↔ c.Acknowledged j)
  owed : ∀ out rest, c.phase.outcome = some (out, rest) → ∀ (j : Nat) (reg : Registration),
    c.registrations[j]? = some reg → out[j]? = some none → ∀ e ∈ cfg.endpoints,
      (e, reg) ∈ rest ∨ s.Owed e reg.txid

section Call

variable {cfg : PoolConfig} {s s' : Pool} {c : RegisterCall}

theorem CallOK.mono (h : CallOK cfg s c) (hlog : s.shared.log <+: s'.shared.log)
    (howed : ∀ e txid, s.Owed e txid → s'.Owed e txid) : CallOK cfg s' c where
  regs := h.regs
  acks x hx j reg hj := hlog.subset (h.acks x hx j reg hj)
  sent := h.sent
  merged := h.merged
  owed out rest hout j reg hreg hnil e he := (h.owed out rest hout j reg hreg hnil e he).imp id
    (howed e reg.txid)

theorem callOK_start (registrations : List Registration) (maxConcurrency : Int) :
    CallOK cfg s (.start cfg registrations maxConcurrency) := by
  refine ⟨by simp [RegisterCall.start], by simp [RegisterCall.start], ?_, ?_, ?_⟩
  · intro h
    simp only [RegisterCall.start] at h
    split at h <;> cases h
  · intro out rest hout j hj
    by_cases hlen : registrations.length = 0
    · simp only [RegisterCall.start] at hj
      omega
    · simp [RegisterCall.start, hlen, RegisterPhase.outcome] at hout
  · intro out rest hout j reg hreg
    by_cases hlen : registrations.length = 0
    · have hj := (List.getElem?_eq_some_iff.mp hreg).1
      simp only [RegisterCall.start] at hj
      omega
    · simp [RegisterCall.start, hlen, RegisterPhase.outcome] at hout

variable {b : EndpointBatch} {j k : Nat} {reg : Registration}

theorem EndpointBatch.result_eq_none_iff (hdone : b.done = true) (hj : j < b.entries.length) :
    b.result j = none ↔ ∃ reg, b.entries[j]? = some (reg, .answered none) := by
  have hall := all_eq_true.mp hdone b.entries[j] (getElem_mem hj)
  obtain ⟨⟨reg, entry⟩, hentry⟩ : ∃ x, b.entries[j]? = some x := ⟨_, List.getElem?_eq_getElem hj⟩
  have hget : b.entries[j] = (reg, entry) := by
    simpa [List.getElem?_eq_getElem hj] using hentry
  rw [hget] at hall
  cases entry with
  | answered err => simp [EndpointBatch.result, hentry]
  | waiting | flying => cases hall

theorem CallOK.length_entries (h : CallOK cfg s c) {x : String × EndpointBatch}
    (hx : x ∈ c.batches) : x.2.entries.length = c.registrations.length := by
  rw [← h.regs x hx, length_map]

theorem CallOK.merge_iff (h : CallOK cfg s c) (hsending : c.phase = .sending)
    (hdone : ∀ x ∈ c.batches, x.2.done = true) (ctxDone : Bool) (hj : j < c.registrations.length) :
    (c.merge cfg ctxDone)[j]? = some none ↔ c.Acknowledged j := by
  have hne : c.batches.map (fun x => x.2.result j) ++
      List.replicate (cfg.endpoints.length - c.batches.length) (some Err.noHealthyEndpoints) ≠ [] := by
    simp [h.sent hsending]
  rw [RegisterCall.merge, List.getElem?_map, List.getElem?_range hj, Option.map_some,
    Option.some_inj, mergeErrors_eq_none_iff ctxDone hne]
  simp only [mem_append, mem_map, mem_replicate, reduceCtorEq, and_false, or_false]
  refine exists_congr fun x => and_congr_right fun hx => ?_
  exact EndpointBatch.result_eq_none_iff (hdone x hx) (h.length_entries hx ▸ hj)

theorem CallOK.missed (h : CallOK cfg s c) (hdone : ∀ x ∈ c.batches, x.2.done = true)
    {out : List (Option Err)} (hreg : c.registrations[j]? = some reg) (hnil : out[j]? = some none)
    {e : String} (he : e ∈ cfg.endpoints) :
    (e, reg) ∈ cfg.endpoints.flatMap (c.missed out) ∨ .acked e reg.txid ∈ s.shared.log := by
  by_cases hres : c.result e j = some none
  · right
    obtain ⟨x, hfind, hresult⟩ := Option.map_eq_some_iff.mp hres
    have hx := mem_of_find?_eq_some hfind
    have hxe : x.1 = e := by simpa using List.find?_some hfind
    have hj := (List.getElem?_eq_some_iff.mp hreg).1
    obtain ⟨reg', hreg'⟩ := (EndpointBatch.result_eq_none_iff (hdone x hx)
      (h.length_entries hx ▸ hj)).mp hresult
    have hregs : (x.2.entries.map (·.1))[j]? = some reg' := by simp [hreg']
    rw [h.regs x hx, hreg] at hregs
    obtain rfl := Option.some.inj hregs
    exact hxe ▸ h.acks x hx j reg hreg'
  · left
    refine mem_flatMap.mpr ⟨e, he, mem_map.mpr ⟨(reg, j), ?_, rfl⟩⟩
    refine mem_filter.mpr ⟨mem_zipIdx_iff_getElem?.mpr hreg, ?_⟩
    simp [hnil, hres]

theorem EndpointBatch.map_fst_set (b : EndpointBatch) (j : Nat) (entry : Entry) :
    (b.set j entry).entries.map (·.1) = b.entries.map (·.1) := by
  refine ext_getElem? fun k => ?_
  simp only [List.getElem?_map, b.getElem?_set, Option.map_map]
  congr 1
  funext x
  split <;> rfl

theorem EndpointBatch.acked_set {entry : Entry}
    (h : (b.set j entry).entries[k]? = some (reg, .answered none)) :
    b.entries[k]? = some (reg, .answered none) ∨
      entry = .answered none ∧ j = k ∧ ∃ old, b.entries[j]? = some (reg, old) := by
  rw [b.getElem?_set] at h
  obtain ⟨x, hx, hnew⟩ := Option.map_eq_some_iff.mp h
  split at hnew
  · rename_i hjk
    subst hjk
    obtain ⟨rfl, rfl⟩ := Prod.mk.inj hnew
    exact .inr ⟨rfl, rfl, x.2, hx⟩
  · exact .inl (hnew ▸ hx)

theorem EndpointBatch.map_fst_launch (b : EndpointBatch) (isOpen sendDone : Bool) :
    (b.launch isOpen sendDone).entries.map (·.1) = b.entries.map (·.1) := by
  rcases b.launch_cases isOpen sendDone with heq | ⟨j, entry, heq, -⟩
  · rw [heq]
  · rw [heq, map_fst_set]

theorem EndpointBatch.acked_launch {isOpen sendDone : Bool}
    (h : (b.launch isOpen sendDone).entries[k]? = some (reg, .answered none)) :
    b.entries[k]? = some (reg, .answered none) := by
  rcases b.launch_cases isOpen sendDone with heq | ⟨j, entry, heq, -, hne⟩
  · rwa [heq] at h
  · rw [heq] at h
    exact (acked_set h).resolve_right fun h' => hne h'.1

theorem map_fst_land (sh : Shared) (url : String) (b : EndpointBatch) (j : Nat) (a : Answer)
    (notes : Registration → List Note) :
    (land cfg sh url b j a notes).2.entries.map (·.1) = b.entries.map (·.1) := by
  unfold land
  split
  · exact EndpointBatch.map_fst_set ..
  · rfl

theorem acked_land {sh : Shared} {url : String} {a : Answer}
    (h : (land cfg sh url b j a (watchNotes url a.err)).2.entries[k]? =
      some (reg, .answered none)) :
    b.entries[k]? = some (reg, .answered none) ∨
      .acked url reg.txid ∈ (land cfg sh url b j a (watchNotes url a.err)).1.log := by
  unfold land at h ⊢
  split at h
  · rename_i reg' hj
    rcases EndpointBatch.acked_set h with hold | ⟨herr, rfl, old, hreg⟩
    · exact .inl hold
    · obtain ⟨rfl, -⟩ := Prod.mk.inj (Option.mem_unique hj hreg)
      right
      have hnone : a.err = none := by simpa using herr
      simp [Shared.note, watchNotes, hnone]
  · exact .inl h

section

variable (h : CallOK cfg s c) (hlog : s.shared.log <+: s'.shared.log)
  (howed : ∀ e txid, s.Owed e txid → s'.Owed e txid)
include h hlog howed

theorem CallOK.next (hadd : ∀ out url reg rest, c.phase = .queueing out ((url, reg) :: rest) →
      reg.txid ∈ (s'.shared.endpoint url).pending.order) (ctxDone : Bool) :
    CallOK cfg s' (c.next cfg s.shared ctxDone).2 := by
  have h' := h.mono hlog howed
  unfold RegisterCall.next
  split
  · -- the next endpoint is checked
    refine ⟨?_, ?_, by simp, by simp [RegisterPhase.outcome], by simp [RegisterPhase.outcome]⟩
    · intro x hx
      split at hx
      · exact h.regs x hx
      · rcases mem_append.mp hx with hx | hx
        · exact h.regs x hx
        · obtain rfl := mem_singleton.mp hx
          simp [EndpointBatch.start, Function.comp_def]
    · intro x hx j reg hj
      split at hx
      · exact h'.acks x hx j reg hj
      · rcases mem_append.mp hx with hx | hx
        · exact h'.acks x hx j reg hj
        · obtain rfl := mem_singleton.mp hx
          simp [EndpointBatch.start] at hj
  · -- all are checked
    split
    · rename_i hnone
      have hnil : c.batches = [] := length_eq_zero_iff.mp hnone
      refine ⟨h.regs, h'.acks, by simp, ?_, ?_⟩
      · intro out rest hout j hj
        obtain ⟨rfl, rfl⟩ : List.replicate c.registrations.length (some .noHealthyEndpoints) = out ∧
          [] = rest := by simpa [RegisterPhase.outcome] using hout
        simp [RegisterCall.Acknowledged, hnil, List.getElem?_replicate]
      · intro out rest hout j reg _ hnil
        obtain ⟨rfl, rfl⟩ : List.replicate c.registrations.length (some .noHealthyEndpoints) = out ∧
          [] = rest := by simpa [RegisterPhase.outcome] using hout
        simp [List.getElem?_replicate] at hnil
    · rename_i hsome
      refine ⟨h.regs, h'.acks, ?_, by simp [RegisterPhase.outcome], by simp [RegisterPhase.outcome]⟩
      intro _ hnil
      exact hsome (congrArg List.length hnil)
  · -- the merge
    rename_i hphase
    split
    · rename_i hall
      have hdone : ∀ x ∈ c.batches, x.2.done = true := all_eq_true.mp hall
      refine ⟨h.regs, h'.acks, by simp, ?_, ?_⟩
      · intro out rest hout j hj
        obtain ⟨rfl, rfl⟩ := Prod.mk.inj (Option.some.inj hout)
        exact h.merge_iff hphase hdone ctxDone hj
      · intro out rest hout j reg hreg hnil e he
        obtain ⟨rfl, rfl⟩ := Prod.mk.inj (Option.some.inj hout)
        exact (h'.missed hdone hreg hnil he).imp id .acked
    · exact h'
  · -- an entry is queued
    rename_i out url reg rest hphase
    refine ⟨h.regs, h'.acks, by simp, ?_, ?_⟩
    · intro out' rest' hout
      obtain ⟨rfl, rfl⟩ := Prod.mk.inj (Option.some.inj hout)
      exact h.merged out _ (by rw [hphase]; rfl)
    · intro out' rest' hout j reg' hreg hnil e he
      obtain ⟨rfl, rfl⟩ := Prod.mk.inj (Option.some.inj hout)
      rcases h'.owed out _ (by rw [hphase]; rfl) j reg' hreg hnil e he with hrest | hdue
      · rcases mem_cons.mp hrest with heq | hrest
        · obtain ⟨rfl, rfl⟩ := Prod.mk.inj heq
          exact .inr (.queued (hadd out e reg' rest hphase))
        · exact .inl hrest
      · exact .inr hdue
  · -- the call returns
    rename_i out hphase
    refine ⟨h.regs, h'.acks, by simp, ?_, ?_⟩
    · intro out' rest' hout
      obtain ⟨rfl, rfl⟩ := Prod.mk.inj (Option.some.inj hout)
      exact h.merged out _ (by rw [hphase]; rfl)
    · intro out' rest' hout
      obtain ⟨rfl, rfl⟩ := Prod.mk.inj (Option.some.inj hout)
      exact h'.owed out _ (by rw [hphase]; rfl)
  · exact h'

theorem CallOK.onBatch {url : String} {f : EndpointBatch → Shared × EndpointBatch}
    (hregs : ∀ b, (f b).2.entries.map (·.1) = b.entries.map (·.1))
    (hacks : ∀ (b : EndpointBatch) (j : Nat) (reg : Registration),
      c.phase = .sending → (c.batches.find? (·.1 = url)).map (·.2) = some b →
      (f b).2.entries[j]? = some (reg, .answered none) →
      b.entries[j]? = some (reg, .answered none) ∨ .acked url reg.txid ∈ s'.shared.log) :
    CallOK cfg s' (c.onBatch s.shared url f).2 := by
  have h' := h.mono hlog howed
  unfold RegisterCall.onBatch
  split
  · rename_i u b hphase hfind
    have hb := mem_of_find?_eq_some hfind
    have hu : u = url := by simpa using List.find?_some hfind
    have hbatch : ∀ x ∈ (c.setBatch url (f b).2).batches, x ∈ c.batches ∨ x = (url, (f b).2) := by
      intro x hx
      obtain ⟨y, hy, rfl⟩ := mem_map.mp hx
      split
      · exact .inr rfl
      · exact .inl hy
    have houtcome : (c.setBatch url (f b).2).phase.outcome = none := by
      simp [RegisterCall.setBatch, hphase, RegisterPhase.outcome]
    refine ⟨?_, ?_, ?_, by simp [houtcome], by simp [houtcome]⟩
    · intro x hx
      rcases hbatch x hx with hx | rfl
      · exact h.regs x hx
      · rw [hregs b]
        exact h.regs _ hb
    · intro x hx j reg hj
      rcases hbatch x hx with hx | rfl
      · exact h'.acks x hx j reg hj
      · rcases hacks b j reg hphase (by simp [hfind]) hj with hold | hnew
        · exact hu ▸ h'.acks _ hb j reg hold
        · exact hnew
    · intro hs hnil
      have := h.sent hphase
      simp only [RegisterCall.setBatch, map_eq_nil_iff] at hnil
      exact this hnil
  · exact h'

end

end Call

/-! ## Runs -/

namespace Pool

variable {cfg : PoolConfig} {s : Pool}

structure Inv (cfg : PoolConfig) (s : Pool) : Prop where
  ok : ∀ e, QueueOK cfg (s.shared.endpoint e).pending
  calls : ∀ c, .register c ∈ s.tasks → CallOK cfg s c

theorem inv_start (cfg : PoolConfig) : Inv cfg (start cfg) where
  ok _ := ⟨rfl, CatchupQueue.valid_new _⟩
  calls c hc := by cases hc

variable {e txid : String}

theorem Owed.begin (h : s.Owed e txid) (task : Task) : (s.begin task).Owed e txid := by
  have hmem : ∀ P : Task → Prop, (∃ x ∈ s.tasks, P x) → ∃ x ∈ (s.begin task).tasks, P x :=
    fun P ⟨x, hx, hp⟩ => ⟨x, mem_append_left _ hx, hp⟩
  exact h.imp (hmem _) (hmem _)

theorem Inv.begin (h : Inv cfg s) {task : Task}
    (htask : ∀ c, task = .register c → CallOK cfg (s.begin task) c) : Inv cfg (s.begin task) := by
  refine ⟨h.ok, ?_⟩
  intro c hc
  rcases mem_append.mp hc with hc | hc
  · exact (h.calls c hc).mono prefix_rfl fun _ _ ho => ho.begin task
  · exact htask c (mem_singleton.mp hc).symm

theorem Inv.update (h : Inv cfg s) {sh : Shared} (hk : Keeps cfg s.shared sh) :
    Inv cfg { s with shared := sh } where
  ok := hk.ok h.ok
  calls c hc := (h.calls c hc).mono hk.log fun _ _ ho => Shared.Owed.keep ho hk .held id

section

variable (hmax : 0 < cfg.queueSize) (h : Inv cfg s)
include hmax h

theorem Owed.task {i : Nat} {task : Task}
    (hi : s.tasks[i]? = some task) (move : Move) (ho : s.Owed e txid) :
    Owed { shared := (task.step cfg s.shared move).1
           tasks := s.tasks.set i (task.step cfg s.shared move).2 } e txid := by
  unfold Owed at ho ⊢
  rw [exists_task_iff hi, exists_task_iff hi] at ho
  rw [exists_task_set_iff hi, exists_task_set_iff hi]
  exact (advances_taskStep h.ok hmax move task).owed ho

theorem CallOK.task {i : Nat} {task : Task}
    (hi : s.tasks[i]? = some task) (move : Move) {c : RegisterCall}
    (hc : (task.step cfg s.shared move).2 = .register c) :
    CallOK cfg { shared := (task.step cfg s.shared move).1
                 tasks := s.tasks.set i (task.step cfg s.shared move).2 } c := by
  have hlog := (advances_taskStep h.ok hmax move task).log
  have howed := fun e txid (ho : s.Owed e txid) => Owed.task hmax h hi move ho
  cases task with
  | register call =>
    have hcall := h.calls call (mem_of_getElem? hi)
    cases move with
    | go ctxDone =>
      obtain rfl := Task.register.inj hc
      refine hcall.next hlog howed ?_ ctxDone
      intro out url reg rest hphase
      have hadd : (call.next cfg s.shared ctxDone).1 = s.shared.add url reg := by
        simp only [RegisterCall.next, hphase]
      change reg.txid ∈ ((call.next cfg s.shared ctxDone).1.endpoint url).pending.order
      rw [hadd]
      exact queued_add (h.ok url) reg
    | launch url sendDone =>
      obtain rfl := Task.register.inj hc
      exact hcall.onBatch hlog howed (fun b => b.map_fst_launch _ _)
        fun b j reg _ _ hj => .inl (EndpointBatch.acked_launch hj)
    | answer url j a =>
      obtain rfl := Task.register.inj hc
      refine hcall.onBatch hlog howed (fun b => map_fst_land ..) ?_
      intro b k reg hphase hfind hk
      obtain ⟨⟨u, b'⟩, hfound, rfl⟩ := Option.map_eq_some_iff.mp hfind
      refine (acked_land hk).imp id fun hnote => ?_
      have hshared : (call.onBatch s.shared url fun b =>
          land cfg s.shared url b j a (watchNotes url a.err)).1 =
          (land cfg s.shared url b' j a (watchNotes url a.err)).1 := by
        simp only [RegisterCall.onBatch, hphase, hfound]
      exact hshared ▸ hnote
  | service url phase => cases hc
  | retain rest => cases rest <;> cases move <;> cases hc
  | drain url phase => cases hc
  | probe url phase => cases hc

theorem Inv.step (event : PoolEvent) : Inv cfg (s.step cfg event) := by
  unfold Pool.step
  split
  · refine h.begin ?_
    rintro c ⟨⟩
    exact callOK_start _ _
  · exact h.begin (by rintro c ⟨⟩)
  · exact h.begin (by rintro c ⟨⟩)
  · dsimp only
    split
    · exact h
    · split
      · exact h.update (.update fun _ => ⟨rfl, rfl, rfl, rfl⟩)
      · refine Inv.begin (h.update (Keeps.update ?_)) ?_
        · exact fun _ => ⟨rfl, rfl, rfl, rfl⟩
        · rintro c ⟨⟩
  · split
    · exact h.begin (by rintro c ⟨⟩)
    · exact h
  · rename_i i move
    split
    · exact h
    · rename_i task hi
      have hstep := advances_taskStep h.ok hmax move task
      refine ⟨hstep.ok, ?_⟩
      intro c hc
      rcases mem_or_eq_of_mem_set hc with hold | hnew
      · exact (h.calls c hold).mono hstep.log fun _ _ ho => Owed.task hmax h hi move ho
      · exact CallOK.task hmax h hi move hnew.symm

end

/-- The call returned nil for an entry with this txid. -/
def Registered (s : Pool) (txid : String) : Prop :=
  ∃ c out, .register c ∈ s.tasks ∧ c.phase = .returned out ∧
    ∃ (j : Nat) (reg : Registration), c.registrations[j]? = some reg ∧ out[j]? = some none ∧
      reg.txid = txid

/-- The registration is in a batch that was taken from the queue and is not settled. -/
def Taken (s : Pool) (e txid : String) : Prop :=
  ∃ task ∈ s.tasks, match task with
    | .drain url (.sending b) | .drain url (.requeueing b _) =>
      url = e ∧ txid ∈ b.entries.map (·.1.txid)
    | .probe url (.trying reg) | .probe url (.answered reg _ _) | .probe url (.settling reg _) =>
      url = e ∧ reg.txid = txid
    | _ => False

theorem taken_of_holds {task : Task} (hmem : task ∈ s.tasks) (h : task.Holds e txid) :
    s.Taken e txid := by
  refine ⟨task, hmem, ?_⟩
  have hbatch : ∀ {b : EndpointBatch} {i : Nat}, b.PendingFrom i txid →
      txid ∈ b.entries.map (·.1.txid) := by
    rintro b i ⟨j, x, -, hj, rfl, -⟩
    exact mem_map_of_mem (mem_of_getElem? hj)
  unfold Task.Holds at h
  split at h
  · exact ⟨h.1, hbatch h.2⟩
  · exact ⟨h.1, hbatch h.2⟩
  · exact h
  · exact ⟨h.1, h.2.1⟩
  · cases h

/-- In every state of every run: a call returns nil for an entry exactly if an endpoint acknowledged
it in the call; a registered txid is not lost to any endpoint, unless a drain stands between
clearing the overflow flag and the resync hooks; and the queues are in order. -/
theorem nothing_unowed (cfg : PoolConfig) (hmax : 1 ≤ cfg.queueSize) (events : List PoolEvent) :
    ∀ s ∈ states (step cfg) (start cfg) events,
      (∀ c out, .register c ∈ s.tasks → c.phase = .returned out →
        ∀ j < c.registrations.length, (out[j]? = some none ↔ c.Acknowledged j)) ∧
      ((∀ task ∈ s.tasks, ∀ e, ¬ task.Fires e) → ∀ txid, s.Registered txid → ∀ e ∈ cfg.endpoints,
          .acked e txid ∈ s.shared.log ∨ .rejected e txid ∈ s.shared.log ∨
          txid ∈ (s.shared.endpoint e).pending.order ∨ s.Taken e txid ∨
          (s.shared.endpoint e).pending.overflowed ∨
          [.dropped e txid, .resync e].Sublist s.shared.log) ∧
      ∀ e ∈ cfg.endpoints, (s.shared.endpoint e).pending.Valid := by
  have hinv : ∀ s ∈ states (step cfg) (start cfg) events, Inv cfg s :=
    states_invariant (C := fun _ _ => True) (fun s event h _ => h.step hmax event) (inv_start cfg)
      (allSteps_iff.mpr fun _ _ _ _ => trivial)
  intro s hs
  have h := hinv s hs
  refine ⟨?_, ?_, fun e _ => (h.ok e).2⟩
  · intro c out hc hphase
    exact (h.calls c hc).merged out [] (by rw [hphase]; rfl)
  · rintro hquiet txid ⟨c, out, hc, hphase, j, reg, hreg, hnil, rfl⟩ e he
    have howed := (h.calls c hc).owed out [] (by rw [hphase]; rfl) j reg hreg hnil e he
    cases howed.resolve_left (by simp) with
    | acked h => exact .inl h
    | rejected h => exact .inr (.inl h)
    | queued h => exact .inr (.inr (.inl h))
    | held h =>
      obtain ⟨task, hmem, hholds⟩ := h
      exact .inr (.inr (.inr (.inl (taken_of_holds hmem hholds))))
    | dropped h hdue =>
      rcases hdue with hf | ⟨task, hmem, hfires⟩
      · exact .inr (.inr (.inr (.inr (.inl hf))))
      · exact absurd hfires (hquiet task hmem e)
    | resynced h => exact .inr (.inr (.inr (.inr (.inr h))))

/-- Two endpoints with room for one entry; `b` fails on both entries of a batch that `a`
acknowledges, and the first of them is dropped. -/
def overflowRun : List PoolEvent :=
  let failed : Answer := ⟨some .transport, false, false⟩
  let ok : Answer := ⟨none, false, false⟩
  .registerBatchWithResults [⟨"t", "", ""⟩, ⟨"u", "", ""⟩] 2 ::
    [.go false, .go false, .go false, .launch "a" false, .launch "a" false, .launch "b" false,
      .launch "b" false, .answer "a" 0 ok, .answer "b" 0 failed, .answer "a" 1 ok,
      .answer "b" 1 failed, .go false, .go false, .go false, .go false].map (.step 0)

theorem nothing_unowed_overflow :
    let cfg : PoolConfig := ⟨["a", "b"], by decide, 3, 1⟩
    let s := run (step cfg) (start cfg) overflowRun
    s.Registered "t" ∧ s.Registered "u" ∧ "t" ∉ (s.shared.endpoint "b").pending.order ∧
      (.acked "b" "t" ∈ s.shared.log ∨ .rejected "b" "t" ∈ s.shared.log ∨
        "t" ∈ (s.shared.endpoint "b").pending.order ∨ s.Taken "b" "t" ∨
        (s.shared.endpoint "b").pending.overflowed ∨
        [.dropped "b" "t", .resync "b"].Sublist s.shared.log) := by
  intro cfg s
  have hmem : s ∈ states (step cfg) (start cfg) overflowRun :=
    (mem_states_iff ..).mpr ⟨overflowRun, [], by simp, rfl⟩
  have htasks : s.tasks = [.register
      { registrations := [⟨"t", "", ""⟩, ⟨"u", "", ""⟩], maxConcurrency := 2,
        batches := [("a", ⟨2, [(⟨"t", "", ""⟩, .answered none), (⟨"u", "", ""⟩, .answered none)]⟩),
          ("b", ⟨2, [(⟨"t", "", ""⟩, .answered (some .transport)),
            (⟨"u", "", ""⟩, .answered (some .transport))]⟩)],
        phase := .returned [none, none] }] := by
    decide +kernel
  have hquiet : ∀ task ∈ s.tasks, ∀ e, ¬ task.Fires e := by
    intro task htask e
    obtain rfl := mem_singleton.mp (htasks ▸ htask)
    exact id
  have hcall := htasks ▸ mem_cons_self
  have hreg : s.Registered "t" ∧ s.Registered "u" :=
    ⟨⟨_, [none, none], hcall, rfl, 0, ⟨"t", "", ""⟩, rfl, rfl, rfl⟩,
      ⟨_, [none, none], hcall, rfl, 1, ⟨"u", "", ""⟩, rfl, rfl, rfl⟩⟩
  exact ⟨hreg.1, hreg.2, by decide +kernel,
    (nothing_unowed cfg (by decide) overflowRun s hmem).2.1 hquiet "t" hreg.1 "b" (by decide)⟩

end Pool

end Arcade.MerkleService
