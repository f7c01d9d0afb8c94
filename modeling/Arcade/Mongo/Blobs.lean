import Arcade.Lib.GoMap
import Arcade.Lib.Transition

/-!
The blobs of the MongoDB store: GridFS files behind a manifest, for one key. Writers
(`replaceBlob`), deleters (`DeleteBUMPByBlockHash`) and readers (`GetBUMP`) run side by side, in
steps of one operation on the database or one look at the clock.

One clock stamps the upload dates and is read by all. What a file of the key may differ in is its
block height, so the scope of a sweep is the height.
-/

namespace Arcade.Mongo

open Lib

/-- One hour and five minutes, in nanoseconds. -/
def staleUploadAge : Int := 3600 * 10 ^ 9

def swapWindow : Int := 300 * 10 ^ 9

def manifestSwapAttempts : Nat := 3

def blobPublishAttempts : Nat := 3

structure File where
  uploadDate : Int
  height : Int
  data : List UInt8
  deriving DecidableEq

structure BlobRef where
  fileID : Nat
  length : Int
  blockHeight : Int
  deriving DecidableEq

/-- What the key has in the database, with the clock and the next object id. -/
structure Store where
  clock : Int
  nextID : Nat
  files : GoMap Nat File
  manifest : Option BlobRef

namespace Store

def deleteFile (s : Store) (id : Nat) : Store := { s with files := s.files.erase id }

/-- A whole file, of the length that the manifest claims. -/
def download (s : Store) (ref : BlobRef) : Option (List UInt8) :=
  if ref.length < 0 then none
  else (s.files.lookup ref.fileID).bind fun file =>
    if (file.data.length : Int) = ref.length then some file.data else none

/-- A BSON date, which has milliseconds. -/
def millis (time : Int) : Int := time / 1000000

/-- The listing of `sweepStale`. -/
def stale (s : Store) (cutoff height : Int) (keep : Nat) : List Nat :=
  s.files.keys.filter fun id =>
    id ≠ keep ∧ ((s.files.lookup id).any fun file =>
      millis file.uploadDate < millis cutoff ∧ file.height = height)

end Store

/-! ## Writers -/

inductive WriteError where
  | window
  | swap
  | swept
  deriving DecidableEq

/-- Where a writer is in `publishBlob`. Until the swap it knows the date that was stamped on its
file; after it, the time of the swap. -/
inductive PublishPhase where
  | opening
  | closing (id : Nat) (uploadDate : Int)
  | sampling (id : Nat) (uploadDate : Int)
  | checking (id : Nat) (uploadDate uploaded : Int)
  | abandoning (id : Nat)
  | swapping (id : Nat) (uploadDate : Int) (collisions : Nat)
  | superseding (id : Nat) (swapped : Int) (prev : Nat)
  | confirming (id : Nat) (swapped : Int)
  | rereading (id : Nat) (swapped : Int)
  | sweeping (id : Nat) (swapped : Int)
  | listing (id : Nat) (cutoff : Int)
  | removing (stale : List Nat)
  | returned (err : Option WriteError)
  deriving DecidableEq

/-- A call of `replaceBlob`, in one of its attempts to publish. -/
structure Writer where
  height : Int
  data : List UInt8
  attempt : Nat
  phase : PublishPhase
  deriving DecidableEq

namespace Writer

/-- The file is gone and the manifest names it. -/
def lost (w : Writer) : Writer :=
  if w.attempt + 1 < blobPublishAttempts then
    { w with attempt := w.attempt + 1, phase := .opening }
  else { w with phase := .returned (some .swept) }

/-- What the swap leads to. A file that it replaced is deleted first. -/
def swapped (s : Store) (id : Nat) : PublishPhase :=
  match s.manifest with
  | none => .confirming id s.clock
  | some prev =>
    if prev.fileID ≠ id then .superseding id s.clock prev.fileID else .confirming id s.clock

/-- One step. `collided`: an upserting swap lost the insert race for the key. -/
def step (s : Store) (collided : Bool) (w : Writer) : Store × Writer :=
  match w.phase with
  | .opening =>
    ({ s with nextID := s.nextID + 1 }, { w with phase := .closing s.nextID s.clock })
  | .closing id date =>
    ({ s with files := s.files.insert id ⟨date, w.height, w.data⟩ },
      { w with phase := .sampling id date })
  | .sampling id date => (s, { w with phase := .checking id date s.clock })
  | .checking id date uploaded =>
    (s, { w with
      phase := if s.clock - uploaded > swapWindow then .abandoning id else .swapping id date 0 })
  | .abandoning id => (s.deleteFile id, { w with phase := .returned (some .window) })
  | .swapping id date collisions =>
    if collided then
      (s, { w with
        phase := if collisions + 1 < manifestSwapAttempts then .swapping id date (collisions + 1)
          else .returned (some .swap) })
    else
      ({ s with manifest := some ⟨id, w.data.length, w.height⟩ }, { w with phase := swapped s id })
  | .superseding id time prev => (s.deleteFile prev, { w with phase := .confirming id time })
  | .confirming id time =>
    (s, { w with phase := if id ∈ s.files then .sweeping id time else .rereading id time })
  | .rereading id time =>
    (s, if s.manifest.map (·.fileID) = some id then w.lost
      else { w with phase := .sweeping id time })
  | .sweeping id _ => (s, { w with phase := .listing id (s.clock - staleUploadAge) })
  | .listing id cutoff => (s, { w with phase := .removing (s.stale cutoff w.height id) })
  | .removing [] => (s, { w with phase := .returned none })
  | .removing (id :: rest) => (s.deleteFile id, { w with phase := .removing rest })
  | .returned _ => (s, w)

end Writer

/-! ## Deleters and readers -/

inductive DeletePhase where
  | removing
  | deleting (id : Nat)
  | returned
  deriving DecidableEq

def DeletePhase.step (s : Store) : DeletePhase → Store × DeletePhase
  | .removing =>
    ({ s with manifest := none },
      match s.manifest with
      | none => .returned
      | some m => .deleting m.fileID)
  | .deleting id => (s.deleteFile id, .returned)
  | .returned => (s, .returned)

/-- `fetch` follows the manifest once. -/
inductive ReadPhase where
  | reading
  | fetching (ref : BlobRef)
  | rereading (ref : BlobRef)
  | refetching (ref : BlobRef)
  | returned (bump : Option (Int × List UInt8))
  deriving DecidableEq

def ReadPhase.step (s : Store) : ReadPhase → ReadPhase
  | .reading =>
    match s.manifest with
    | none => .returned none
    | some ref => .fetching ref
  | .fetching ref =>
    match s.download ref with
    | some data => .returned (some (ref.blockHeight, data))
    | none => .rereading ref
  | .rereading ref =>
    match s.manifest with
    | none => .returned none
    | some fresh => if fresh.fileID = ref.fileID then .returned none else .refetching fresh
  | .refetching ref => .returned ((s.download ref).map (ref.blockHeight, ·))
  | .returned bump => .returned bump

/-! ## Interleavings -/

inductive Task where
  | writer (w : Writer)
  | deleter (phase : DeletePhase)
  | reader (phase : ReadPhase)
  deriving DecidableEq

structure System where
  store : Store
  tasks : List Task

inductive Event where
  | insert (height : Int) (data : List UInt8)
  | delete
  | read
  | wait (time : Nat)
  | task (i : Nat) (collided : Bool)

namespace Task

def step (s : Store) (collided : Bool) : Task → Store × Task
  | .writer w => ((w.step s collided).1, .writer (w.step s collided).2)
  | .deleter phase => ((phase.step s).1, .deleter (phase.step s).2)
  | .reader phase => (s, .reader (phase.step s))

def ended : Task → Bool
  | .writer w => match w.phase with
    | .returned _ => true
    | _ => false
  | .deleter phase => phase = .returned
  | .reader _ => true

end Task

namespace System

def start (now : Int) : System := ⟨⟨now, 0, ∅, none⟩, []⟩

def step (s : System) : Event → System
  | .insert height data =>
    { s with tasks := s.tasks ++ [.writer ⟨height, data, 0, .opening⟩] }
  | .delete => { s with tasks := s.tasks ++ [.deleter .removing] }
  | .read => { s with tasks := s.tasks ++ [.reader .reading] }
  | .wait time => { s with store := { s.store with clock := s.store.clock + time } }
  | .task i collided =>
    match s.tasks[i]? with
    | none => s
    | some task => ⟨(task.step s.store collided).1, s.tasks.set i (task.step s.store collided).2⟩

/-- The manifest names a file, and it is gone. -/
def Dangles (s : System) : Prop := ∃ ref, s.store.manifest = some ref ∧ ref.fileID ∉ s.store.files

end System

end Arcade.Mongo
