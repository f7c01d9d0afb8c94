import Arcade.Lib.GoMap
import Arcade.Lib.Lru
import Arcade.Lib.Transition

/-!
`bumpcache.Cache`: the parsed compound BUMPs of a few blocks, by block hash. A reader that misses
fills the cache in a flight that other readers join; a writer stores the new compound and then
invalidates the block.

Readers, writers and flights run side by side. A step is one locked section, one fetch or one store
write. The store counts the writes of each block, and what a flight builds carries the count at the
time of its fetch.
-/

namespace Arcade.BumpCache

open Lib

/-! ## The cache -/

/-- `bump.IndexCompound` and what is asked of an index. -/
structure Indexer (ι : Type) where
  indexCompound : List UInt8 → Option ι
  leaves : ι → Nat
  minimalPathBytes : ι → String → Option (List UInt8)

/-- An index, with the number of writes of the block before the fetch that it was built from. -/
structure Fetched (ι : Type) where
  idx : ι
  version : Nat
  deriving DecidableEq

/-- A singleflight group: the flight that a call for the key joins, if any, and what it is told. -/
structure Singleflight where
  State : Type
  empty : State
  running : State → String → Option Nat
  starts : State → String → Nat → State
  returns : State → String → Nat → State
  forget : State → String → State

/-- A group as a map; a flight that returns is deleted unless another has taken its place. -/
def Singleflight.ofMap : Singleflight where
  State := GoMap String Nat
  empty := ∅
  running s key := s.lookup key
  starts s key flight := s.insert key flight
  returns s key flight := if s.lookup key = some flight then s.erase key else s
  forget s key := s.erase key

/-- The code of others that a cache is built from. -/
structure Parts (ι : Type) where
  lru : Lru String (Fetched ι)
  refreshed : Lru String Int
  group : Singleflight

/-- The parts that `newWithLimits` takes; `maxRefreshTracked` is 256. -/
def Parts.new (ι : Type) (entries : Nat) (h : 0 < entries) : Parts ι :=
  ⟨.ofSize entries h, .ofSize 256 (by decide), .ofMap⟩

/-- `indexes` is the LRU with the counter `totalLeaves`, `gen` the invalidation counter of a block
and `inflight` the number of its fills. -/
structure Cache {ι : Type} (P : Parts ι) where
  indexes : Counted P.lru
  gen : GoMap String Nat
  inflight : GoMap String Int
  refreshed : P.refreshed.State

namespace Cache

variable {ι : Type} {P : Parts ι} (ix : Indexer ι) (maxLeaves : Nat)

def new : Cache P := ⟨⟨P.lru.empty, 0⟩, ∅, ∅, P.refreshed.empty⟩

def entries (c : Cache P) : Multiset (String × Fetched ι) := P.lru.entries c.indexes.lru

def leaves (e : String × Fetched ι) : Nat := ix.leaves e.2.idx

def genOf (c : Cache P) (blockHash : String) : Nat := (c.gen.lookup blockHash).getD 0

def inflightOf (c : Cache P) (blockHash : String) : Int := (c.inflight.lookup blockHash).getD 0

def lookup (c : Cache P) (blockHash : String) : Option (Fetched ι) × Cache P :=
  let r := P.lru.get c.indexes.lru blockHash
  (r.1, { c with indexes.lru := r.2 })

/-- `refreshInterval` is five seconds. -/
def claimRefresh (now : Int) (c : Cache P) (blockHash : String) : Bool × Cache P :=
  let r := P.refreshed.get c.refreshed blockHash
  let claim := { c with refreshed := (P.refreshed.add r.2 blockHash now).1 }
  match r.1 with
  | some last =>
    if now - last < 5 * 10 ^ 9 then (false, { c with refreshed := r.2 }) else (true, claim)
  | none => (true, claim)

/-- The locked section of `Remove`. -/
def invalidate (c : Cache P) (blockHash : String) : Cache P where
  indexes := c.indexes.evicting (leaves ix) (P.lru.remove c.indexes.lru blockHash)
  gen := if c.inflightOf blockHash > 0 then c.gen.insert blockHash (c.genOf blockHash + 1) else c.gen
  inflight := c.inflight
  refreshed := c.refreshed

/-- The token, and the cache with the fill registered. -/
def beginFill (c : Cache P) (blockHash : String) : Nat × Cache P :=
  (c.genOf blockHash,
    { c with inflight := c.inflight.insert blockHash (c.inflightOf blockHash + 1) })

/-- The part of `endFill` that deregisters the fill. -/
def deregister (c : Cache P) (blockHash : String) : Cache P :=
  if c.inflightOf blockHash - 1 ≤ 0 then
    { c with inflight := c.inflight.erase blockHash, gen := c.gen.erase blockHash }
  else { c with inflight := c.inflight.insert blockHash (c.inflightOf blockHash - 1) }

/-- The part of `endFill` that installs an index, within the leaf budget unless it is alone. -/
def install (c : Cache P) (blockHash : String) (e : Fetched ι) : Cache P :=
  { c with indexes := c.indexes.put (leaves ix) maxLeaves blockHash e }

def endFill (c : Cache P) (blockHash : String) (built : Option (Fetched ι)) (token : Nat) :
    Cache P :=
  let stale := c.genOf blockHash ≠ token
  let c := c.deregister blockHash
  match built with
  | none => c
  | some e => if stale then c else c.install ix maxLeaves blockHash e

end Cache

/-! ## Flights, readers and writers -/

/-- The function that runs under `group.Do`. `leaving` is after it, before the group forgets the
flight. -/
inductive FlightPhase (ι : Type) where
  | checking
  | registering
  | filling (token : Nat)
  | fetched (token : Nat) (built : Option (Fetched ι))
  | leaving (result : Option (Fetched ι))
  | finished (result : Option (Fetched ι))

structure Flight (ι : Type) where
  block : String
  phase : FlightPhase ι

/-- `pathFor`; `again` after a refresh. -/
inductive ReaderPhase where
  | looking
  | indexing (again : Bool)
  | joining (again : Bool)
  | waiting (again : Bool) (flight : Nat)
  | refreshing
  | forgetting
  | removing
  | returned (path : Option (List UInt8))

/-- A store write followed by `Remove`; `w` is the number of the write. -/
inductive WriterPhase where
  | writing (data : List UInt8)
  | forgetting (w : Nat)
  | removing (w : Nat)
  | done (w : Nat)

inductive Task where
  | reader (block txid : String) (phase : ReaderPhase)
  | writer (block : String) (phase : WriterPhase)

/-- The store, the cache, the flights that `group` knows, and all flights and tasks. -/
structure System {ι : Type} (P : Parts ι) where
  data : String → List UInt8
  version : String → Nat
  cache : Cache P
  group : P.group.State
  flights : List (Flight ι)
  tasks : List Task

inductive Event where
  | read (block txid : String)
  | write (block : String) (data : List UInt8)
  | task (i : Nat) (now : Int)
  | flight (i : Nat) (fetchOk : Bool)

namespace System

variable {ι : Type} {P : Parts ι} (ix : Indexer ι) (maxLeaves : Nat)

def start : System P := ⟨fun _ => [], fun _ => 0, .new, P.group.empty, [], []⟩

/-- What the fetch of a flight gives; an empty or unparseable compound builds nothing. -/
def fetch (s : System P) (block : String) (fetchOk : Bool) : Option (Fetched ι) :=
  if fetchOk ∧ s.data block ≠ [] then
    (ix.indexCompound (s.data block)).map fun idx => ⟨idx, s.version block⟩
  else none

/-- One step of a flight: the new state of the system around it, and its phase. -/
def flightStep (s : System P) (i : Nat) (block : String) (fetchOk : Bool) :
    FlightPhase ι → System P × FlightPhase ι
  | .checking =>
    ({ s with cache := (s.cache.lookup block).2 },
      match (s.cache.lookup block).1 with
      | some e => .leaving (some e)
      | none => .registering)
  | .registering =>
    let r := s.cache.beginFill block
    ({ s with cache := r.2 }, .filling r.1)
  | .filling token => (s, .fetched token (s.fetch ix block fetchOk))
  | .fetched token built =>
    ({ s with cache := s.cache.endFill ix maxLeaves block built token }, .leaving built)
  | .leaving result =>
    ({ s with group := P.group.returns s.group block i }, .finished result)
  | .finished result => (s, .finished result)

def found (txid : String) (idx : Option (Fetched ι)) : ReaderPhase :=
  .returned (idx.bind fun e => ix.minimalPathBytes e.idx txid)

def readerStep (s : System P) (block txid : String) (now : Int) :
    ReaderPhase → System P × ReaderPhase
  | .looking =>
    ({ s with cache := (s.cache.lookup block).2 },
      match (s.cache.lookup block).1 with
      | none => .indexing false
      | some e =>
        match ix.minimalPathBytes e.idx txid with
        | some path => .returned (some path)
        | none => .refreshing)
  | .indexing again =>
    ({ s with cache := (s.cache.lookup block).2 },
      match (s.cache.lookup block).1 with
      | some e => found ix txid (some e)
      | none => .joining again)
  | .joining again =>
    match P.group.running s.group block with
    | some i => (s, .waiting again i)
    | none =>
      ({ s with
        flights := s.flights ++ [⟨block, .checking⟩]
        group := P.group.starts s.group block s.flights.length }, .waiting again s.flights.length)
  | .waiting again i =>
    (s, match s.flights[i]? with
      | some ⟨_, .finished result⟩ => found ix txid result
      | _ => .waiting again i)
  | .refreshing =>
    let r := s.cache.claimRefresh now block
    ({ s with cache := r.2 }, if r.1 then .forgetting else .returned none)
  | .forgetting => ({ s with group := P.group.forget s.group block }, .removing)
  | .removing => ({ s with cache := s.cache.invalidate ix block }, .indexing true)
  | .returned path => (s, .returned path)

def writerStep (s : System P) (block : String) : WriterPhase → System P × WriterPhase
  | .writing data =>
    ({ s with
      data := Function.update s.data block data
      version := Function.update s.version block (s.version block + 1) },
      .forgetting (s.version block + 1))
  | .forgetting w => ({ s with group := P.group.forget s.group block }, .removing w)
  | .removing w => ({ s with cache := s.cache.invalidate ix block }, .done w)
  | .done w => (s, .done w)

def taskStep (s : System P) (now : Int) : Task → System P × Task
  | .reader block txid phase =>
    let r := s.readerStep ix block txid now phase
    (r.1, .reader block txid r.2)
  | .writer block phase =>
    let r := s.writerStep ix block phase
    (r.1, .writer block r.2)

def step (s : System P) : Event → System P
  | .read block txid => { s with tasks := s.tasks ++ [.reader block txid .looking] }
  | .write block data => { s with tasks := s.tasks ++ [.writer block (.writing data)] }
  | .task i now =>
    match s.tasks[i]? with
    | none => s
    | some task =>
      let r := s.taskStep ix now task
      { r.1 with tasks := s.tasks.set i r.2 }
  | .flight i fetchOk =>
    match s.flights[i]? with
    | none => s
    | some fl =>
      let r := s.flightStep ix maxLeaves i fl.block fetchOk fl.phase
      { r.1 with flights := s.flights.set i ⟨fl.block, r.2⟩ }

end System

end Arcade.BumpCache
