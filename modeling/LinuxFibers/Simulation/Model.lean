import Mathlib.Data.Multiset.Filter
import LinuxFibers.Base.Run
import LinuxFibers.Simulation.Channel

/-!
# The events of a cell

`ProcessEvent` of `model.c`, and the loop of `main.c` that delivers the events to it. The queue is a bag: any event that
is pending may be the next one, and a timestamp is whatever the draws make it.
-/

namespace LinuxFibers.Cell

open HeapTable Dlist Runs

variable {τ : Type}

/-- `INIT`. -/
def init : Int := 0

/-- `START_CALL`. -/
def startCall : Int := 20

/-- `END_CALL`. -/
def endCall : Int := 21

/-- `COMPLETE_CALLS`. -/
def enoughCalls : BitVec 32 := 15000

/-- `msg_t`. -/
structure Msg (τ : Type) where
  sender : Nat
  receiver : Nat
  type : Int
  timestamp : τ
  channel : Int
  deriving DecidableEq

/-- What an event finds outside the program: the timestamps that are drawn, in the order of the source, the address that
`malloc` returns for a channel, and the words of a fresh `channel_state` that are not cleared. -/
structure Draws (τ : Type) where
  stampEnd : τ
  stampStart : τ
  address : Nat
  garbage : Fin 32 → BitVec 32

def packEvent (cell : Nat) (type : Int) (stamp : τ) (ch : Int) : Msg τ :=
  { sender := cell, receiver := cell, type := type, timestamp := stamp, channel := ch }

/-- What `ProcessEvent` leaves: the state of the cell, the heap, the events it puts into the queue and the number it
returns, where the address of a new state counts as 0. -/
structure Result (τ : Type) where
  state : LpState
  heap : Heap
  put : List (Msg τ)
  ret : Int

/-- The words of `channel_state` that the loop of `INIT` clears, and as many behind them. -/
def newChannelState (garbage : Fin 32 → BitVec 32) : List (BitVec 32) :=
  List.replicate (channelsPerCell / 32 + 1) 0 ++ List.ofFn garbage

def newState (garbage : Fin 32 → BitVec 32) : LpState :=
  { channelCounter := BitVec.ofNat 32 channelsPerCell
    arrivingCalls := 0
    completeCalls := 0
    blockedOnSetup := 0
    executedEvents := 0
    channelsPerCell := channelsPerCell
    channelState := newChannelState garbage
    channels := none }

/-- The branch of `START_CALL`. -/
def processStart (d : Draws τ) (me : Nat) (state : LpState) (heap : Heap) : Except Failure (Result τ) :=
  let state : LpState := { state with arrivingCalls := state.arrivingCalls + 1 }
  if state.channelCounter = 0 then
    let state : LpState := { state with blockedOnSetup := state.blockedOnSetup + 1 }
    .ok { state, heap, put := [packEvent me startCall d.stampStart (-1)], ret := 0 }
  else do
    let state : LpState := { state with channelCounter := state.channelCounter - 1 }
    let (index, state, heap) ← allocation state d.address heap
    .ok { state, heap, put := [packEvent me endCall d.stampEnd index, packEvent me startCall d.stampStart (-1)], ret := 0 }

/-- The branch of `END_CALL`. -/
def processEnd (ch : Int) (state : LpState) (heap : Heap) : Except Failure (Result τ) := do
  let state : LpState := { state with
    channelCounter := state.channelCounter + 1
    completeCalls := state.completeCalls + 1 }
  let (state, heap) ← deallocation state ch heap
  .ok { state, heap, put := [], ret := if state.completeCalls = enoughCalls then 1 else 0 }

/-- `state` is the null pointer before `INIT`. -/
def processEvent (d : Draws τ) (msg : Msg τ) (state : Option LpState) (heap : Heap) : Except Failure (Result τ) :=
  let me := msg.receiver
  let state := state.map fun state => { state with executedEvents := state.executedEvents + 1 }
  if msg.type = init then
    .ok { state := newState d.garbage, heap, put := [packEvent me startCall d.stampStart (-1)], ret := 0 }
  else
    match state with
    | none => if msg.type = startCall ∨ msg.type = endCall then .error .memory else .error .abort
    | some state =>
      if msg.type = startCall then processStart d me state heap
      else if msg.type = endCall then processEnd msg.channel state heap
      else .error .abort

/-! ### `main_loop` -/

/-- A fiber of the simulation between two events. -/
structure Loop (τ : Type) where
  state : Option LpState
  heap : Heap
  pending : Multiset (Msg τ)

/-- Before the first event: the queue holds `INIT`, and the heap whatever others have in it. -/
def Init (id : Nat) (s : Loop τ) : Prop := s.state = none ∧ ∃ stamp ch, s.pending = {packEvent id init stamp ch}

/-- An event is taken from the queue and processed. -/
def Step (s : Loop τ) (msg : Msg τ) (s' : Loop τ) : Prop :=
  ∃ rest d r, s.pending = msg ::ₘ rest ∧ d.address ∉ s.heap.addrs ∧ processEvent d msg s.state s.heap = .ok r ∧
    s' = { state := some r.state, heap := r.heap, pending := r.put.foldr Multiset.cons rest }

end LinuxFibers.Cell
