import Arcade.Mongo.Blobs

/-!
When the manifest keeps its file. A sweep deletes by age and spares only the file of its own
writer, so a writer that stalls between its swap and its sweep may take the file of a later writer
for a leftover. In runs where no swap and no sweep comes too late, what a sweep lists was out of the
manifest before the sweeping writer swapped.
-/

namespace Arcade.Mongo

open Lib Lib.GoMap List

/-! ## Steps in time -/

/-- The swap lands at most `lag` after the date on its file, and the cutoff of a sweep is taken
early enough after the swap of its writer that it lies `lag` before that swap. -/
def PublishPhase.Timely (lag clock : Int) (collided : Bool) : PublishPhase → Prop
  | .swapping _ date _ => collided = false → clock ≤ date + lag
  | .sweeping _ swapped => clock + lag ≤ swapped + staleUploadAge
  | _ => True

instance (lag clock : Int) (collided : Bool) : DecidablePred (PublishPhase.Timely lag clock collided)
  | .swapping _ date _ => inferInstanceAs (Decidable (collided = false → clock ≤ date + lag))
  | .sweeping _ swapped => inferInstanceAs (Decidable (clock + lag ≤ swapped + staleUploadAge))
  | .opening | .closing _ _ | .sampling _ _ | .checking _ _ _ | .abandoning _
  | .superseding _ _ _ | .confirming _ _ | .rereading _ _ | .listing _ _ | .removing _
  | .returned _ => isTrue trivial

def Task.Timely (lag clock : Int) (collided : Bool) : Task → Prop
  | .writer w => w.phase.Timely lag clock collided
  | _ => True

instance (lag clock : Int) (collided : Bool) : DecidablePred (Task.Timely lag clock collided)
  | .writer w => inferInstanceAs (Decidable (w.phase.Timely lag clock collided))
  | .deleter _ | .reader _ => isTrue trivial

/-- The step is no swap and no sweep that comes too late. -/
def System.Timely (lag : Int) (s : System) : Event → Prop
  | .task i collided => ∀ task ∈ s.tasks[i]?, task.Timely lag s.store.clock collided
  | _ => True

instance (lag : Int) (s : System) : DecidablePred (s.Timely lag)
  | .task i collided =>
    inferInstanceAs (Decidable (∀ task ∈ s.tasks[i]?, task.Timely lag s.store.clock collided))
  | .insert _ _ | .delete | .read | .wait _ => isTrue trivial

/-! ## What a task holds, and what it will delete -/

/-- The file that a writer has yet to swap in, with the date stamped on it. -/
def PublishPhase.held : PublishPhase → Option (Nat × Int)
  | .closing id date => some (id, date)
  | .sampling id date => some (id, date)
  | .checking id date _ => some (id, date)
  | .swapping id date _ => some (id, date)
  | _ => none

def Task.held : Task → Option (Nat × Int)
  | .writer w => w.phase.held
  | _ => none

def PublishPhase.uploaded : PublishPhase → Bool
  | .closing _ _ => false
  | _ => true

def Task.uploaded : Task → Bool
  | .writer w => w.phase.uploaded
  | _ => true

/-- Files that the task deletes in steps to come. -/
def Task.doomed : Task → List Nat
  | .writer w => match w.phase with
    | .abandoning id => [id]
    | .superseding _ _ prev => [prev]
    | .removing ids => ids
    | _ => []
  | .deleter (.deleting id) => [id]
  | _ => []

/-- Files with an earlier date than this are out of the manifest for good. -/
def Task.bound (lag : Int) : Task → Option Int
  | .writer w => match w.phase with
    | .superseding _ swapped _ => some (swapped - lag)
    | .confirming _ swapped => some (swapped - lag)
    | .rereading _ swapped => some (swapped - lag)
    | .sweeping _ swapped => some (swapped - lag)
    | .listing _ cutoff => some cutoff
    | _ => none
  | _ => none

namespace System

variable {lag : Int} {s t : System} {i : Nat} {task task' : Task} {id : Nat}

/-- The file is not in the manifest and no step in time puts it there. -/
structure Dead (lag : Int) (s : System) (id : Nat) : Prop where
  old : id < s.store.nextID
  out : ∀ ref, s.store.manifest = some ref → ref.fileID ≠ id
  late : ∀ x ∈ s.tasks, ∀ date, x.held = some (id, date) → date + lag < s.store.clock

/-- The files with an earlier date than the bound are dead. -/
abbrev Past (lag : Int) (s : System) (bound : Int) : Prop :=
  bound + lag ≤ s.store.clock ∧
    ∀ id file, s.store.files.lookup id = some file → file.uploadDate < bound → Dead lag s id

structure TaskOK (lag : Int) (s : System) (x : Task) : Prop where
  held : ∀ id date, x.held = some (id, date) → id < s.store.nextID ∧
    (∀ ref, s.store.manifest = some ref → ref.fileID ≠ id) ∧
    ∀ file, s.store.files.lookup id = some file → file.uploadDate = date
  uploaded : ∀ id date, x.held = some (id, date) → x.uploaded → s.store.clock ≤ date + lag →
    id ∈ s.store.files
  doomed : ∀ id ∈ x.doomed, Dead lag s id
  past : ∀ bound, x.bound lag = some bound → Past lag s bound

theorem TaskOK.of_held_none {x : Task} (hheld : x.held = none)
    (hdoomed : ∀ id ∈ x.doomed, Dead lag s id)
    (hpast : ∀ bound, x.bound lag = some bound → Past lag s bound) : TaskOK lag s x :=
  ⟨by simp [hheld], by simp [hheld], hdoomed, hpast⟩

structure Inv (lag : Int) (s : System) : Prop where
  files : ∀ id file, s.store.files.lookup id = some file → id < s.store.nextID
  named : ∀ ref, s.store.manifest = some ref →
    ref.fileID < s.store.nextID ∧ ref.fileID ∈ s.store.files
  tasks : ∀ x ∈ s.tasks, TaskOK lag s x
  unique : ∀ (i j : Nat) (x y : Task) id date date', s.tasks[i]? = some x → s.tasks[j]? = some y →
    x.held = some (id, date) → y.held = some (id, date') → i = j

/-! ## One step -/

/-- What a step of one task in time does to the store, and to what the task holds. -/
structure Moves (lag : Int) (s : Store) (task : Task) (s' : Store) (task' : Task) : Prop where
  clock : s'.clock = s.clock
  nextID : s.nextID ≤ s'.nextID
  manifest : ∀ ref, s'.manifest = some ref → s.manifest = some ref ∨
    ∃ date, task.held = some (ref.fileID, date) ∧ task.uploaded ∧ s.clock ≤ date + lag ∧
      s'.files = s.files
  held : ∀ id date, task'.held = some (id, date) → task.held = some (id, date) ∨
    (id = s.nextID ∧ s.nextID < s'.nextID)
  inserted : ∀ id file, s'.files.lookup id = some file → s.files.lookup id = some file ∨
    task.held = some (id, file.uploadDate)
  erased : ∀ id ∈ s.files, id ∈ s'.files ∨ id ∈ task.doomed

theorem Inv.held_unique (h : s.Inv lag) (hi : s.tasks[i]? = some task) {date date' : Int}
    (hheld : task.held = some (id, date)) {x : Task} (hx : x ∈ s.tasks)
    (hheld' : x.held = some (id, date')) : x = task := by
  obtain ⟨j, hj⟩ := mem_iff_getElem?.mp hx
  obtain rfl := h.unique j i x task id date' date hj hi hheld' hheld
  exact Option.mem_unique hj hi

section Moves

variable {s' : Store}

theorem Dead.moves (hd : Dead lag s id) (hi : s.tasks[i]? = some task)
    (m : Moves lag s.store task s' task') : Dead lag ⟨s', s.tasks.set i task'⟩ id := by
  have hmem := mem_of_getElem? hi
  refine ⟨hd.old.trans_le m.nextID, fun ref href heq => ?_, fun x hx date hheld => ?_⟩
  · rcases m.manifest ref href with hsame | ⟨date, hheld, -, hclock, -⟩
    · exact hd.out ref hsame heq
    · have := hd.late task hmem date (heq ▸ hheld)
      omega
  · rw [m.clock]
    rcases mem_or_eq_of_mem_set hx with hold | rfl
    · exact hd.late x hold date hheld
    · rcases m.held id date hheld with hsame | ⟨rfl, -⟩
      · exact hd.late task hmem date hsame
      · exact absurd hd.old (lt_irrefl _)

section

variable (h : s.Inv lag) (hi : s.tasks[i]? = some task)
include h hi

theorem Inv.dead_of_held {date : Int}
    (hheld : task.held = some (id, date)) (hlate : date + lag < s.store.clock) :
    Dead lag s id := by
  obtain ⟨hlt, hout, -⟩ := (h.tasks task (mem_of_getElem? hi)).held id date hheld
  refine ⟨hlt, hout, fun x hx date' hheld' => ?_⟩
  obtain rfl := h.held_unique hi hheld hx hheld'
  obtain rfl : date = date' := by
    have := hheld.symm.trans hheld'
    simp only [Option.some.injEq, Prod.mk.injEq, true_and] at this
    exact this
  exact hlate

theorem Inv.past_moves
    (m : Moves lag s.store task s' task') {bound : Int} (hpast : Past lag s bound) :
    Past lag ⟨s', s.tasks.set i task'⟩ bound := by
  obtain ⟨hle, hdead⟩ := hpast
  refine ⟨m.clock ▸ hle, fun id file hfile hdate => ?_⟩
  rcases m.inserted id file hfile with hold | hheld
  · exact (hdead id file hold hdate).moves hi m
  · exact (h.dead_of_held hi hheld (by omega)).moves hi m

theorem Inv.taskOK_moves
    (m : Moves lag s.store task s' task') {j : Nat} {x : Task} (hj : s.tasks[j]? = some x)
    (hne : j ≠ i) : TaskOK lag ⟨s', s.tasks.set i task'⟩ x := by
  have hok := h.tasks x (mem_of_getElem? hj)
  have hother : ∀ id date date', x.held = some (id, date) → task.held ≠ some (id, date') :=
    fun id date date' hx htask => hne (h.unique j i x task id date date' hj hi hx htask)
  refine ⟨fun id date hheld => ?_, fun id date hheld hup hclock => ?_, fun id hid => ?_,
    fun bound hbound => ?_⟩
  · obtain ⟨hlt, hout, hdate⟩ := hok.held id date hheld
    refine ⟨hlt.trans_le m.nextID, fun ref href heq => ?_, fun file hfile => ?_⟩
    · rcases m.manifest ref href with hsame | ⟨date', hheld', -⟩
      · exact hout ref hsame heq
      · exact hother id date date' hheld (heq ▸ hheld')
    · rcases m.inserted id file hfile with hold | hnew
      · exact hdate file hold
      · exact absurd hnew (hother id date _ hheld)
  · have hclock' : s.store.clock ≤ date + lag := m.clock ▸ hclock
    rcases m.erased id (hok.uploaded id date hheld hup hclock') with hkept | hdoomed
    · exact hkept
    · have hdead := (h.tasks task (mem_of_getElem? hi)).doomed id hdoomed
      have := hdead.late x (mem_of_getElem? hj) date hheld
      omega
  · exact (hok.doomed id hid).moves hi m
  · exact h.past_moves hi m (hok.past bound hbound)

theorem Inv.moves (m : Moves lag s.store task s' task')
    (hok : TaskOK lag ⟨s', s.tasks.set i task'⟩ task') : Inv lag ⟨s', s.tasks.set i task'⟩ := by
  have hmem := mem_of_getElem? hi
  have htask := h.tasks task hmem
  refine ⟨fun id file hfile => ?_, fun ref href => ?_, fun x hx => ?_,
    fun j k x y id date date' hj hk hheld hheld' => ?_⟩
  · rcases m.inserted id file hfile with hold | hheld
    · exact (h.files id file hold).trans_le m.nextID
    · exact (htask.held id _ hheld).1.trans_le m.nextID
  · rcases m.manifest ref href with hsame | ⟨date, hheld, hup, hclock, hfiles⟩
    · obtain ⟨hlt, hfile⟩ := h.named ref hsame
      refine ⟨hlt.trans_le m.nextID, ?_⟩
      rcases m.erased ref.fileID hfile with hkept | hdoomed
      · exact hkept
      · exact absurd rfl ((htask.doomed _ hdoomed).out ref hsame)
    · exact ⟨(htask.held _ date hheld).1.trans_le m.nextID,
        hfiles ▸ htask.uploaded _ date hheld hup hclock⟩
  · obtain ⟨j, hj⟩ := mem_iff_getElem?.mp hx
    by_cases hji : j = i
    · subst hji
      have hlt := (List.getElem?_eq_some_iff.mp hi).1
      obtain rfl : task' = x := by simpa [hlt] using hj
      exact hok
    · rw [List.getElem?_set_ne (Ne.symm hji)] at hj
      exact h.taskOK_moves hi m hj hji
  · -- A new id is held by nobody else.
    have hheldOf : ∀ (k : Nat) (z : Task) date, (s.tasks.set i task')[k]? = some z →
        z.held = some (id, date) →
        (∃ z', s.tasks[k]? = some z' ∧ z'.held = some (id, date)) ∨
          (k = i ∧ id = s.store.nextID) := by
      intro k z date hz hzheld
      by_cases hki : k = i
      · subst hki
        have hlt := (List.getElem?_eq_some_iff.mp hi).1
        obtain rfl : task' = z := by simpa [hlt] using hz
        rcases m.held id date hzheld with hsame | ⟨hid, -⟩
        · exact .inl ⟨task, hi, hsame⟩
        · exact .inr ⟨rfl, hid⟩
      · rw [List.getElem?_set_ne (Ne.symm hki)] at hz
        exact .inl ⟨z, hz, hzheld⟩
    have hold : ∀ (k : Nat) z date, s.tasks[k]? = some z → z.held = some (id, date) →
        id ≠ s.store.nextID :=
      fun k z date hz hzheld => ((h.tasks z (mem_of_getElem? hz)).held id date hzheld).1.ne
    rcases hheldOf j x date hj hheld with ⟨x', hx', hxheld⟩ | ⟨hji, hid⟩
    · rcases hheldOf k y date' hk hheld' with ⟨y', hy', hyheld⟩ | ⟨-, hid⟩
      · exact h.unique j k x' y' id date date' hx' hy' hxheld hyheld
      · exact absurd hid (hold j x' date hx' hxheld)
    · rcases hheldOf k y date' hk hheld' with ⟨y', hy', hyheld⟩ | ⟨hki, -⟩
      · exact absurd hid (hold k y' date' hy' hyheld)
      · exact hji.trans hki.symm

theorem Inv.advance (m : Moves lag s.store task s' task') (hheld : task'.held = none ∨
      (task'.held = task.held ∧ (task'.uploaded → task.uploaded) ∧ s' = s.store))
    (hdoomed : ∀ id ∈ task'.doomed, Dead lag s id)
    (hbound : ∀ bound, task'.bound lag = some bound → Past lag s bound) :
    Inv lag ⟨s', s.tasks.set i task'⟩ := by
  have htask := h.tasks task (mem_of_getElem? hi)
  have hdoomed' := fun id hid => (hdoomed id hid).moves hi m
  have hpast' := fun bound hb => h.past_moves hi m (hbound bound hb)
  rcases hheld with hnone | ⟨hsame, hups, rfl⟩
  · exact h.moves hi m (.of_held_none hnone hdoomed' hpast')
  · exact h.moves hi m ⟨hsame ▸ htask.held, fun id date hid hup =>
      htask.uploaded id date (hsame ▸ hid) (hups hup), hdoomed', hpast'⟩

end

theorem dead_of_set (hheld : task'.held = none) (hold : id < s'.nextID)
    (hout : ∀ ref, s'.manifest = some ref → ref.fileID ≠ id)
    (hlate : ∀ j x, j ≠ i → s.tasks[j]? = some x → ∀ date, x.held = some (id, date) →
      date + lag < s'.clock) : Dead lag ⟨s', s.tasks.set i task'⟩ id := by
  refine ⟨hold, hout, fun x hx date hxheld => ?_⟩
  obtain ⟨j, hj⟩ := mem_iff_getElem?.mp hx
  by_cases hji : j = i
  · subst hji
    have hlt : j < s.tasks.length := by simpa using (List.getElem?_eq_some_iff.mp hj).1
    obtain rfl : task' = x := by simpa [hlt] using hj
    rw [hheld] at hxheld
    cases hxheld
  · rw [List.getElem?_set_ne (Ne.symm hji)] at hj
    exact hlate j x hji hj date hxheld

end Moves

theorem moves_same (st : Store)
    (hheld : ∀ id date, task'.held = some (id, date) → task.held = some (id, date)) :
    Moves lag st task st task' where
  clock := rfl
  nextID := le_rfl
  manifest _ href := .inl href
  held id date hid := .inl (hheld id date hid)
  inserted _ _ hfile := .inl hfile
  erased _ hid := .inl hid

theorem moves_deleteFile (st : Store) (hid : id ∈ task.doomed) (hheld : task'.held = none) :
    Moves lag st task (st.deleteFile id) task' where
  clock := rfl
  nextID := le_rfl
  manifest _ href := .inl href
  held id date h := by
    rw [hheld] at h
    cases h
  inserted id' file hfile := by
    rw [Store.deleteFile, lookup_erase_eq] at hfile
    split at hfile
    · cases hfile
    · exact .inl hfile
  erased id' hid' := by
    by_cases heq : id' = id
    · exact .inr (heq ▸ hid)
    · exact .inl (AList.mem_erase.mpr ⟨heq, hid'⟩)

section

variable (h : s.Inv lag) (hi : s.tasks[i]? = some task)
include h hi

theorem Inv.deleteFile (hid : id ∈ task.doomed)
    (hheld : task'.held = none) (hdoomed : ∀ id ∈ task'.doomed, id ∈ task.doomed)
    (hbound : task'.bound lag = none ∨ task'.bound lag = task.bound lag) :
    Inv lag ⟨s.store.deleteFile id, s.tasks.set i task'⟩ := by
  have htask := h.tasks task (mem_of_getElem? hi)
  refine h.advance hi (moves_deleteFile s.store hid hheld) (.inl hheld)
    (fun id' hid' => htask.doomed id' (hdoomed id' hid')) fun bound hb => ?_
  rcases hbound with hnone | hsame
  · rw [hnone] at hb
    cases hb
  · exact htask.past bound (hsame ▸ hb)

theorem Inv.same
    (hheld : task'.held = none ∨ (task'.held = task.held ∧ (task'.uploaded → task.uploaded)))
    (hdoomed : ∀ id ∈ task'.doomed, Dead lag s id)
    (hbound : ∀ bound, task'.bound lag = some bound → Past lag s bound) :
    Inv lag ⟨s.store, s.tasks.set i task'⟩ := by
  refine h.advance hi (moves_same s.store fun id date hid => ?_)
    (hheld.imp_right fun ⟨hsame, hup⟩ => ⟨hsame, hup, rfl⟩) hdoomed hbound
  rcases hheld with hnone | ⟨hsame, -⟩
  · rw [hnone] at hid
    cases hid
  · exact hsame ▸ hid

theorem Inv.idle
    (hheld : task'.held = none ∨ (task'.held = task.held ∧ (task'.uploaded → task.uploaded)))
    (hdoomed : task'.doomed = []) (hbound : task'.bound lag = none) :
    Inv lag ⟨s.store, s.tasks.set i task'⟩ :=
  h.same hi hheld (by simp [hdoomed]) (by simp [hbound])

end

/-! ## The steps of a writer -/

variable {w : Writer} {date : Int}

section

variable (h : s.Inv lag)
include h

theorem Inv.opening (hi : s.tasks[i]? = some (.writer w)) :
    Inv lag ⟨{ s.store with nextID := s.store.nextID + 1 },
      s.tasks.set i (.writer { w with phase := .closing s.store.nextID s.store.clock })⟩ := by
  refine h.moves hi ⟨rfl, Nat.le_succ _, fun _ href => .inl href, fun id date hid => ?_,
    fun _ _ hfile => .inl hfile, fun _ hid => .inl hid⟩
    ⟨fun id date hid => ?_, fun id date _ hup => ?_, fun id hid => ?_, fun bound hb => ?_⟩
  · cases hid
    exact .inr ⟨rfl, Nat.lt_succ_self _⟩
  · cases hid
    refine ⟨Nat.lt_succ_self _, fun ref href => (h.named ref href).1.ne, fun file hfile => ?_⟩
    exact absurd (h.files _ file hfile) (lt_irrefl _)
  · cases hup
  · cases hid
  · cases hb

theorem Inv.closing (hi : s.tasks[i]? = some (.writer w)) (hphase : w.phase = .closing id date) :
    Inv lag ⟨{ s.store with files := s.store.files.insert id ⟨date, w.height, w.data⟩ },
      s.tasks.set i (.writer { w with phase := .sampling id date })⟩ := by
  have hheld : (Task.writer w).held = some (id, date) := by simp [Task.held, hphase, PublishPhase.held]
  obtain ⟨hlt, hout, -⟩ := (h.tasks _ (mem_of_getElem? hi)).held id date hheld
  refine h.moves hi ⟨rfl, le_rfl, fun _ href => .inl href, fun id' date' hid => ?_,
    fun id' file hfile => ?_, fun id' hid => ?_⟩
    ⟨fun id' date' hid => ?_, fun id' date' hid _ _ => ?_, fun id' hid => ?_, fun bound hb => ?_⟩
  · cases hid
    exact .inl hheld
  · rcases of_lookup_insert hfile with ⟨rfl, rfl⟩ | ⟨-, hfile⟩
    · exact .inr hheld
    · exact .inl hfile
  · exact .inl ((AList.mem_insert _).mpr (.inr hid))
  · cases hid
    refine ⟨hlt, hout, fun file hfile => ?_⟩
    simp only [lookup_insert_eq, if_pos] at hfile
    cases hfile
    rfl
  · cases hid
    exact (AList.mem_insert _).mpr (.inl rfl)
  · cases hid
  · cases hb

theorem Inv.abandon (hi : s.tasks[i]? = some task)
    (hheld : task.held = some (id, date)) (hheld' : task'.held = none)
    (hdoomed : task'.doomed = [id]) (hbound : task'.bound lag = none) :
    Inv lag ⟨s.store, s.tasks.set i task'⟩ := by
  obtain ⟨hlt, hout, -⟩ := (h.tasks task (mem_of_getElem? hi)).held id date hheld
  have hmoves : Moves lag s.store task s.store task' := moves_same s.store fun id' date' hid => by
    rw [hheld'] at hid
    cases hid
  refine h.moves hi hmoves (.of_held_none hheld' (fun id' hid => ?_) (by simp [hbound]))
  obtain rfl : id' = id := by simpa [hdoomed] using hid
  exact dead_of_set hheld' hlt hout fun j x hji hj date' hxheld =>
    absurd (h.unique j i x task id' date' date hj hi hxheld hheld) hji

/-- After a swap in time, every file with a date more than `lag` ago is dead. -/
theorem Inv.swap (hi : s.tasks[i]? = some (.writer w)) {collisions : Nat}
    (hphase : w.phase = .swapping id date collisions) (htimely : s.store.clock ≤ date + lag) :
    Inv lag ⟨{ s.store with manifest := some ⟨id, w.data.length, w.height⟩ },
      s.tasks.set i (.writer { w with phase := Writer.swapped s.store id })⟩ := by
  have hheld : (Task.writer w).held = some (id, date) := by simp [Task.held, hphase, PublishPhase.held]
  have hup : (Task.writer w).uploaded := by simp [Task.uploaded, hphase, PublishPhase.uploaded]
  obtain ⟨hlt, hout, hdate⟩ := (h.tasks _ (mem_of_getElem? hi)).held id date hheld
  have hcases : (∃ prev, s.store.manifest = some prev ∧ prev.fileID ≠ id ∧
      Writer.swapped s.store id = .superseding id s.store.clock prev.fileID) ∨
      Writer.swapped s.store id = .confirming id s.store.clock := by
    unfold Writer.swapped
    cases s.store.manifest with
    | none => exact .inr rfl
    | some prev => by_cases hne : prev.fileID = id <;> simp [hne]
  have hheld' : (Task.writer { w with phase := Writer.swapped s.store id }).held = none := by
    rcases hcases with ⟨prev, -, -, heq⟩ | heq <;> rw [heq] <;> rfl
  have hmoves : Moves lag s.store (.writer w)
      { s.store with manifest := some ⟨id, w.data.length, w.height⟩ }
      (.writer { w with phase := Writer.swapped s.store id }) := by
    refine ⟨rfl, le_rfl, fun ref href => ?_, fun id' date' hid => ?_, fun _ _ hfile => .inl hfile,
      fun _ hid => .inl hid⟩
    · cases href
      exact .inr ⟨date, hheld, hup, htimely, rfl⟩
    · rw [hheld'] at hid
      cases hid
  -- Whoever else holds a file is late for it, if its date is that old.
  have hdead : ∀ id', id' < s.store.nextID → id' ≠ id →
      (∀ x ∈ s.tasks, ∀ date', x.held = some (id', date') → date' + lag < s.store.clock) →
      Dead lag ⟨{ s.store with manifest := some ⟨id, w.data.length, w.height⟩ },
        s.tasks.set i (.writer { w with phase := Writer.swapped s.store id })⟩ id' := by
    intro id' hlt' hne hlate
    refine dead_of_set hheld' hlt' (fun ref href heq => ?_) fun j x _ hj => hlate x (mem_of_getElem? hj)
    cases href
    exact hne heq.symm
  refine h.moves hi hmoves (.of_held_none hheld' (fun id' hid => ?_) fun bound hb => ?_)
  · rcases hcases with ⟨prev, hmanifest, hne, heq⟩ | heq
    · obtain rfl : id' = prev.fileID := by simpa [Task.doomed, heq] using hid
      refine hdead prev.fileID (h.named prev hmanifest).1 hne fun x hx date' hxheld => ?_
      exact absurd rfl (((h.tasks x hx).held _ date' hxheld).2.1 prev hmanifest)
    · simp [Task.doomed, heq] at hid
  · obtain rfl : s.store.clock - lag = bound := by
      rcases hcases with ⟨prev, -, -, heq⟩ | heq <;> simpa [Task.bound, heq] using hb
    refine ⟨by simp, fun id' file hfile hold => ?_⟩
    refine hdead id' (h.files id' file hfile) ?_ fun x hx date' hxheld => ?_
    · rintro rfl
      have := hdate file hfile
      omega
    · have := ((h.tasks x hx).held id' date' hxheld).2.2 file hfile
      omega

theorem Inv.writer (hi : s.tasks[i]? = some (.writer w)) {collided : Bool}
    (htimely : w.phase.Timely lag s.store.clock collided) :
    Inv lag ⟨(w.step s.store collided).1, s.tasks.set i (.writer (w.step s.store collided).2)⟩ := by
  have hpast := (h.tasks _ (mem_of_getElem? hi)).past
  have hkept : ∀ task' : Task, task'.bound lag = (Task.writer w).bound lag → ∀ bound,
      task'.bound lag = some bound → Past lag s bound :=
    fun task' heq bound hb => hpast bound (heq ▸ hb)
  unfold Writer.step
  split
  · exact h.opening hi
  · rename_i id date hphase
    exact h.closing hi hphase
  · rename_i id date hphase
    refine h.idle hi (.inr ?_) rfl rfl
    simp [Task.held, Task.uploaded, hphase, PublishPhase.held, PublishPhase.uploaded]
  · rename_i id date uploaded hphase
    have hheld : (Task.writer w).held = some (id, date) := by
      simp [Task.held, hphase, PublishPhase.held]
    split
    · exact h.abandon hi hheld rfl rfl rfl
    · refine h.idle hi (.inr ⟨hheld.symm, ?_⟩) rfl rfl
      simp [Task.uploaded, hphase, PublishPhase.uploaded]
  · rename_i id hphase
    refine h.deleteFile hi ?_ rfl (fun _ hid => by cases hid) (.inl rfl)
    simp [Task.doomed, hphase]
  · rename_i id date collisions hphase
    split
    · split
      · refine h.idle hi (.inr ?_) rfl rfl
        simp [Task.held, Task.uploaded, hphase, PublishPhase.held, PublishPhase.uploaded]
      · exact h.idle hi (.inl rfl) rfl rfl
    · rename_i hcollided
      rw [hphase] at htimely
      exact h.swap hi hphase (htimely (by simpa using hcollided))
  · rename_i id time prev hphase
    refine h.deleteFile hi ?_ rfl (fun _ hid => by cases hid) (.inr ?_) <;>
      simp [Task.doomed, Task.bound, hphase]
  · rename_i id time hphase
    split
    · exact h.same hi (.inl rfl) (fun _ hid => by cases hid) (hkept _ (by simp [Task.bound, hphase]))
    · exact h.same hi (.inl rfl) (fun _ hid => by cases hid) (hkept _ (by simp [Task.bound, hphase]))
  · rename_i id time hphase
    split
    · unfold Writer.lost
      split
      · exact h.idle hi (.inl rfl) rfl rfl
      · exact h.idle hi (.inl rfl) rfl rfl
    · exact h.same hi (.inl rfl) (fun _ hid => by cases hid) (hkept _ (by simp [Task.bound, hphase]))
  · -- The cutoff is no later than the bound that the swap gave.
    rename_i id time hphase
    rw [hphase] at htimely
    obtain ⟨hle, hdead⟩ := hpast (time - lag) (by simp [Task.bound, hphase])
    refine h.same hi (.inl rfl) (fun _ hid => by cases hid) fun bound hb => ?_
    obtain rfl : s.store.clock - staleUploadAge = bound := Option.some.inj hb
    have htime : s.store.clock + lag ≤ time + staleUploadAge := htimely
    exact ⟨by omega, fun id' file hfile hdate => hdead id' file hfile (by omega)⟩
  · rename_i id cutoff hphase
    obtain ⟨-, hdead⟩ := hpast cutoff (by simp [Task.bound, hphase])
    refine h.same hi (.inl rfl) (fun id' hid => ?_) fun bound hb => by cases hb
    have hstale := of_mem_filter hid
    simp only [ne_eq, Option.any_eq_true, decide_eq_true_eq] at hstale
    obtain ⟨-, file, hfile, hdate, -⟩ := hstale
    unfold Store.millis at hdate
    exact hdead id' file hfile (by omega)
  · exact h.idle hi (.inl rfl) rfl rfl
  · rename_i id rest hphase
    refine h.deleteFile hi ?_ rfl (fun id' hid => ?_) (.inl rfl)
    · simp [Task.doomed, hphase]
    · simp only [Task.doomed, hphase]
      exact mem_cons_of_mem _ hid
  · rename_i err hphase
    refine h.idle hi (.inl ?_) ?_ ?_ <;>
      simp [Task.held, Task.doomed, Task.bound, hphase, PublishPhase.held]

/-! ## The other steps -/

theorem Inv.deleter {phase : DeletePhase} (hi : s.tasks[i]? = some (.deleter phase)) :
    Inv lag ⟨(phase.step s.store).1, s.tasks.set i (.deleter (phase.step s.store).2)⟩ := by
  cases phase with
  | removing =>
    have hmoves : Moves lag s.store (.deleter .removing) { s.store with manifest := none }
        (.deleter (DeletePhase.step s.store .removing).2) := by
      refine ⟨rfl, le_rfl, fun ref href => ?_, fun id date hid => ?_, fun _ _ hfile => .inl hfile,
        fun _ hid => .inl hid⟩
      · cases href
      · cases hid
    refine h.moves hi hmoves (.of_held_none rfl (fun id hid => ?_) fun bound hb => by cases hb)
    cases hmanifest : s.store.manifest with
    | none => simp [DeletePhase.step, hmanifest, Task.doomed] at hid
    | some m =>
      obtain rfl : id = m.fileID := by
        simpa [DeletePhase.step, hmanifest, Task.doomed] using hid
      refine dead_of_set rfl (h.named m hmanifest).1 (fun ref href => by cases href) ?_
      intro j x _ hj date hheld
      exact absurd rfl (((h.tasks x (mem_of_getElem? hj)).held _ date hheld).2.1 m hmanifest)
  | deleting id =>
    exact h.deleteFile hi (mem_singleton_self id) rfl (fun _ hid => by cases hid) (.inl rfl)
  | returned => exact h.idle hi (.inl rfl) rfl rfl

theorem Inv.wait (time : Nat) :
    Inv lag { s with store := { s.store with clock := s.store.clock + time } } := by
  have hdead : ∀ id, Dead lag s id →
      Dead lag { s with store := { s.store with clock := s.store.clock + time } } id :=
    fun id hd => ⟨hd.old, hd.out, fun x hx date hheld =>
      (hd.late x hx date hheld).trans_le (by simp)⟩
  refine ⟨h.files, h.named, fun x hx => ?_, h.unique⟩
  have hok := h.tasks x hx
  refine ⟨hok.held, fun id date hheld hup hclock => hok.uploaded id date hheld hup ?_,
    fun id hid => hdead id (hok.doomed id hid), fun bound hb => ?_⟩
  · dsimp only at hclock
    omega
  · obtain ⟨hle, hpast⟩ := hok.past bound hb
    refine ⟨?_, fun id file hfile hdate => hdead id (hpast id file hfile hdate)⟩
    dsimp only
    omega

theorem Inv.append (hheld : task.held = none) (hdoomed : task.doomed = [])
    (hbound : task.bound lag = none) : Inv lag { s with tasks := s.tasks ++ [task] } := by
  have hdead : ∀ id, Dead lag s id → Dead lag { s with tasks := s.tasks ++ [task] } id := by
    refine fun id hd => ⟨hd.old, hd.out, fun x hx date hx' => ?_⟩
    rcases mem_append.mp hx with hold | hnew
    · exact hd.late x hold date hx'
    · rw [mem_singleton.mp hnew, hheld] at hx'
      cases hx'
  have hheldOf : ∀ (j : Nat) x id date, (s.tasks ++ [task])[j]? = some x →
      x.held = some (id, date) → s.tasks[j]? = some x := by
    intro j x id date hj hx
    rcases Nat.lt_or_ge j s.tasks.length with hlt | hge
    · rwa [List.getElem?_append_left hlt] at hj
    · have hnew : x ∈ [task] := by
        rw [List.getElem?_append_right hge] at hj
        exact mem_of_getElem? hj
      rw [mem_singleton.mp hnew, hheld] at hx
      cases hx
  refine ⟨h.files, h.named, fun x hx => ?_, fun j k x y id date date' hj hk hx hy =>
    h.unique j k x y id date date' (hheldOf j x id date hj hx) (hheldOf k y id date' hk hy) hx hy⟩
  rcases mem_append.mp hx with hold | hnew
  · have hok := h.tasks x hold
    refine ⟨hok.held, hok.uploaded, fun id hid => hdead id (hok.doomed id hid), fun bound hb => ?_⟩
    obtain ⟨hle, hpast⟩ := hok.past bound hb
    exact ⟨hle, fun id file hfile hdate => hdead id (hpast id file hfile hdate)⟩
  · obtain rfl := mem_singleton.mp hnew
    exact .of_held_none hheld (by simp [hdoomed]) (by simp [hbound])

theorem Inv.step {event : Event} (htimely : s.Timely lag event) : (s.step event).Inv lag := by
  cases event with
  | insert height data => exact h.append rfl rfl rfl
  | delete => exact h.append rfl rfl rfl
  | read => exact h.append rfl rfl rfl
  | wait time => exact h.wait time
  | task i collided =>
    simp only [System.step]
    split
    · exact h
    · rename_i task hi
      cases task with
      | writer w => exact h.writer hi (htimely _ hi)
      | deleter phase => exact h.deleter hi
      | reader phase => exact h.idle hi (.inl rfl) rfl rfl

end

theorem inv_start (lag now : Int) : (start now).Inv lag where
  files _ _ hfile := by cases hfile
  named _ href := by cases href
  tasks _ hx := by cases hx
  unique _ _ _ _ _ _ _ hi := by cases hi

/-! ## Runs -/

/-- No state of a run dangles, if no swap comes more than `lag` after the upload of its file and no
sweep less than `lag` before the end of the stale age, counted from the swap of its writer. -/
theorem manifest_kept (lag now : Int) {events : List Event}
    (h : AllSteps step (Timely lag) (start now) events) :
    ∀ s ∈ states step (start now) events, ¬ s.Dangles := by
  intro s hs hdangles
  have hinv : s.Inv lag := states_invariant (fun _ _ h hc => h.step hc) (inv_start lag now) h s hs
  obtain ⟨ref, href, hgone⟩ := hdangles
  exact hgone (hinv.named ref href).2

/-- The steps of the first task, a writer, up to its sweep. -/
def firstWriter : List Event :=
  .insert 7 [1] :: List.replicate 6 (.task 0 false)

/-- All steps of a second writer, which replaces the file of the first. -/
def secondWriter : List Event :=
  .insert 7 [2] :: List.replicate 10 (.task 1 false)

/-- The first writer sweeps at once. -/
theorem manifest_kept_two_writers :
    (∀ s ∈ states step (start 0) (firstWriter ++ secondWriter ++ List.replicate 3 (.task 0 false)),
      ¬ s.Dangles) ∧
    (run step (start 0)
      (firstWriter ++ secondWriter ++ List.replicate 3 (.task 0 false))).store.manifest =
        some ⟨1, 1, 7⟩ :=
  ⟨manifest_kept swapWindow 0 (by decide +kernel), by decide +kernel⟩

/-- The first writer sweeps more than an hour late, when the second one is long through, and takes
its file for a leftover. -/
theorem late_sweep_dangles : ∃ s, s = run step (start 0) (firstWriter ++ secondWriter ++
        .wait (3600 * 10 ^ 9 + 10 ^ 6) :: List.replicate 4 (.task 0 false)) ∧
      (∀ task ∈ s.tasks, task.ended) ∧ s.Dangles :=
  ⟨_, rfl, by decide +kernel, ⟨1, 1, 7⟩, by decide +kernel, by decide +kernel⟩

end System

end Arcade.Mongo
