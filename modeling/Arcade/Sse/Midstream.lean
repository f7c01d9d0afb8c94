import Arcade.Lib.Transition

/-!
The mid-stream catchup of a live client whose send buffer overflowed.

The fan-out notes a dropped event in two atomics, the earliest dropped timestamp and after it a
flag. The writer of the client takes them in the opposite order and replays the rows from that
timestamp on.
-/

namespace Arcade.Sse

open Lib List

/-! ## The floor of the dropped events -/

/-- `math.MaxInt64`: no event was dropped. -/
def maxInt64 : Int := 9223372036854775807

/-- A dropped event, with the floors that the writer has taken since its `recordDrop` began. -/
structure Drop where
  ts : Int
  taken : List Int

/-- The next atomic step of the fan-out goroutine. -/
inductive FanOut where
  | idle
  | loadFloor (d : Drop)
  | compareAndSwap (d : Drop) (cur : Int)
  | setDropped (d : Drop)

/-- The next atomic step of the writer goroutine. -/
inductive Writer where
  | testDropped | clearDropped | swapFloor | replay
  deriving DecidableEq

/-- The client, the two goroutines, and the drops that were recorded. -/
structure Dropping where
  droppedFloor : Int
  dropped : Bool
  fanOut : FanOut
  writer : Writer
  recorded : List Drop

inductive DropEvent where
  | recordDrop (ts : Int)
  | fanOut
  /-- `pending`: a round of the writer was capped, and the next one resumes it. -/
  | writer (pending : Bool)

def Drop.take (floor : Int) (d : Drop) : Drop := { d with taken := floor :: d.taken }

def FanOut.take (floor : Int) : FanOut → FanOut
  | .idle => .idle
  | .loadFloor d => .loadFloor (d.take floor)
  | .compareAndSwap d cur => .compareAndSwap (d.take floor) cur
  | .setDropped d => .setDropped (d.take floor)

namespace Dropping

def stepFanOut (s : Dropping) : Dropping :=
  match s.fanOut with
  | .idle => s
  | .loadFloor d => { s with fanOut := .compareAndSwap d s.droppedFloor }
  | .compareAndSwap d cur =>
    if cur ≤ d.ts then { s with fanOut := .setDropped d }
    else if s.droppedFloor = cur then { s with droppedFloor := d.ts, fanOut := .setDropped d }
    else { s with fanOut := .loadFloor d }
  | .setDropped d => { s with dropped := true, fanOut := .idle, recorded := d :: s.recorded }

def stepWriter (s : Dropping) (pending : Bool) : Dropping :=
  match s.writer with
  | .testDropped => if s.dropped || pending then { s with writer := .clearDropped } else s
  | .clearDropped => { s with dropped := false, writer := .swapFloor }
  | .swapFloor =>
    { s with
      droppedFloor := maxInt64
      writer := .replay
      fanOut := s.fanOut.take s.droppedFloor
      recorded := s.recorded.map (·.take s.droppedFloor) }
  | .replay => { s with writer := .testDropped }

/-- One atomic step. The calls of `recordDrop` follow one another. -/
def step (s : Dropping) : DropEvent → Dropping
  | .recordDrop ts =>
    match s.fanOut with
    | .idle => { s with fanOut := .loadFloor ⟨ts, []⟩ }
    | _ => s
  | .fanOut => s.stepFanOut
  | .writer pending => s.stepWriter pending

def start : Dropping := ⟨maxInt64, false, .idle, .testDropped, []⟩

/-- The writer has taken a floor that covers the timestamp, or will find one. -/
def Covers (s : Dropping) (d : Drop) (ts : Int) : Prop :=
  (∃ floor ∈ d.taken, floor ≤ ts) ∨ s.droppedFloor ≤ ts

/-- The writer comes to take the floor. -/
def Armed (s : Dropping) : Prop := s.dropped = true ∨ s.writer = .swapFloor

/-- The drop is covered, if not by a floor that was taken then by one that will be. -/
def Caught (s : Dropping) (d : Drop) : Prop :=
  (∃ floor ∈ d.taken, floor ≤ d.ts) ∨ s.droppedFloor ≤ d.ts ∧ s.Armed

/-- What the call under way knows about the floor. -/
def FanOutOK (s : Dropping) : FanOut → Prop
  | .idle | .loadFloor _ => True
  | .compareAndSwap d cur => s.Covers d cur
  | .setDropped d => s.Covers d d.ts

structure Inv (s : Dropping) : Prop where
  fanOut : s.FanOutOK s.fanOut
  recorded : ∀ d ∈ s.recorded, s.Caught d

variable {s : Dropping} {d : Drop}

theorem Covers.take {ts : Int} (h : s.Covers d ts) :
    ∃ floor ∈ (d.take s.droppedFloor).taken, floor ≤ ts := by
  rcases h with ⟨floor, hm, hle⟩ | hle
  · exact ⟨floor, mem_cons_of_mem _ hm, hle⟩
  · exact ⟨_, mem_cons_self, hle⟩

theorem Covers.mono {ts ts' : Int} (h : s.Covers d ts) (hle : ts ≤ ts') : s.Covers d ts' :=
  h.imp (fun ⟨floor, hm, hf⟩ => ⟨floor, hm, by omega⟩) fun hf => Int.le_trans hf hle

theorem Caught.covers (h : s.Caught d) : s.Covers d d.ts := h.imp id And.left

theorem Inv.fanOut_step (h : s.Inv) : s.stepFanOut.Inv := by
  have hok := h.fanOut
  unfold stepFanOut
  cases hf : s.fanOut with
  | idle => exact h
  | loadFloor d => exact ⟨.inr (Int.le_refl _), h.recorded⟩
  | compareAndSwap d cur =>
    rw [hf] at hok
    simp only
    split
    · rename_i hle
      exact ⟨Covers.mono hok hle, h.recorded⟩
    · split
      · -- the floor is lowered, and covers what it covered before
        refine ⟨.inr (Int.le_refl _), fun d' hd' => (h.recorded d' hd').imp id fun hc => ⟨?_, hc.2⟩⟩
        have hlow : d.ts ≤ s.droppedFloor := by omega
        exact Int.le_trans hlow hc.1
      · exact ⟨trivial, h.recorded⟩
  | setDropped d =>
    rw [hf] at hok
    refine ⟨trivial, fun d' hd' => ?_⟩
    rcases mem_cons.mp hd' with rfl | hd'
    · exact hok.imp id fun hle => ⟨hle, .inl rfl⟩
    · exact (h.recorded d' hd').imp id fun hc => ⟨hc.1, .inl rfl⟩

theorem Inv.writer_step (h : s.Inv) (pending : Bool) : (s.stepWriter pending).Inv := by
  have hok := h.fanOut
  unfold stepWriter
  cases hw : s.writer with
  | testDropped =>
    simp only
    split
    · refine ⟨hok, fun d hd => (h.recorded d hd).imp id fun hc => ⟨hc.1, .inl ?_⟩⟩
      exact hc.2.resolve_right fun h => nomatch hw.symm.trans h
    · exact h
  | clearDropped =>
    exact ⟨hok, fun d hd => (h.recorded d hd).imp id fun hc => ⟨hc.1, .inr rfl⟩⟩
  | swapFloor =>
    refine ⟨?_, fun d' hd' => ?_⟩
    · cases hf : s.fanOut with
      | idle | loadFloor d => trivial
      | compareAndSwap d cur | setDropped d =>
        rw [hf] at hok
        exact .inl (Covers.take hok)
    · obtain ⟨d, hd, rfl⟩ := mem_map.mp hd'
      exact .inl (h.recorded d hd).covers.take
  | replay =>
    refine ⟨hok, fun d hd => (h.recorded d hd).imp id fun hc => ⟨hc.1, .inl ?_⟩⟩
    exact hc.2.resolve_right fun h => nomatch hw.symm.trans h

theorem Inv.step (h : s.Inv) (e : DropEvent) : (s.step e).Inv := by
  cases e with
  | recordDrop ts =>
    simp only [Dropping.step]
    split
    · exact ⟨trivial, h.recorded⟩
    · exact h
  | fanOut => exact h.fanOut_step
  | writer pending => exact h.writer_step pending

/-- No dropped event escapes the catchup window. -/
theorem recorded_caught (es : List DropEvent) :
    ∀ d ∈ (run step start es).recorded, (run step start es).Caught d := by
  have hstart : start.Inv := ⟨trivial, by simp [start]⟩
  have hkeep : ∀ s e, Inv s → Inv (step s e) := fun _ e h => h.step e
  exact (run_keeps hkeep hstart es).recorded

/-- An event of time 5 is dropped, and the writer takes the floor. -/
def oneDrop : List DropEvent :=
  [.recordDrop 5, .fanOut, .fanOut, .fanOut, .writer false, .writer false, .writer false]

theorem recorded_caught_oneDrop : (⟨5, [5]⟩ : Drop) ∈ (run step start oneDrop).recorded ∧
    (run step start oneDrop).Caught ⟨5, [5]⟩ := by
  have hmem : (⟨5, [5]⟩ : Drop) ∈ (run step start oneDrop).recorded := mem_singleton.mpr rfl
  exact ⟨hmem, recorded_caught oneDrop _ hmem⟩

end Dropping

end Arcade.Sse
