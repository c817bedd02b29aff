import LinuxFibers.Base.Bitmap
import LinuxFibers.Base.Dlist

/-!
# The channels of a cell

`channel.c` and the macros of `model.h`. The channels in use are marked in a bitmap of 32-bit words and linked in a
list whose head is the newest, each with the `malloc`ed node that its call owns.

* `malloc` succeeds, with an address that is not in use and is an argument here.
* The fading and the power of a channel are floating-point numbers that decide nothing, and are left out. The loops
  that compute them are not: they follow pointers.
* A loop over the list that takes more steps than there are nodes in the heap never ends.
-/

namespace LinuxFibers.Cell

open HeapTable Dlist

/-- How the simulation ends other than by a return: `abort ()`, a pointer or an index that leads nowhere, or a loop that
does not end. -/
inductive Failure
  | abort
  | memory
  | diverges
  deriving DecidableEq, Repr

/-- `CHANNELS_PER_CELL`. -/
def channelsPerCell : Nat := 1000

/-- `struct _channel`: the data of a node is its `channel_id`. -/
abbrev Channel := Node Int

abbrev Heap := Table Channel

/-- `lp_state_type`, the counters and the two representations of the channels in use. -/
structure LpState where
  channelCounter : BitVec 32
  arrivingCalls : BitVec 32
  completeCalls : BitVec 32
  blockedOnSetup : BitVec 32
  executedEvents : BitVec 32
  channelsPerCell : Int
  channelState : List (BitVec 32)
  channels : Option Nat

namespace LpState

/-- The word of channel `i` is one of `channel_state`. -/
def Addressed (p : LpState) (i : Int) : Prop := 0 ≤ i ∧ i.toNat / 32 < p.channelState.length

instance (p : LpState) (i : Int) : Decidable (p.Addressed i) := inferInstanceAs (Decidable (_ ∧ _))

/-- `CHECK_CHANNEL`. -/
def checkChannel (p : LpState) (i : Int) : Except Failure Bool :=
  if p.Addressed i then .ok (Bitmap.test p.channelState i.toNat) else .error .memory

/-- `SET_CHANNEL`. -/
def setChannel (p : LpState) (i : Int) : Except Failure LpState :=
  if p.Addressed i then .ok { p with channelState := Bitmap.set p.channelState i.toNat } else .error .memory

/-- `RESET_CHANNEL`. -/
def resetChannel (p : LpState) (i : Int) : Except Failure LpState :=
  if p.Addressed i then .ok { p with channelState := Bitmap.reset p.channelState i.toNat } else .error .memory

end LpState

/-! ### Pointers -/

def load (heap : Heap) (a : Nat) : Except Failure Channel :=
  match heap.deref a with
  | some c => .ok c
  | none => .error .memory

/-- `if (a != NULL) a->next = v`. -/
def assignNext (a v : Option Nat) (heap : Heap) : Except Failure Heap :=
  if ∀ b, a = some b → b ∈ heap.addrs then .ok (setNext a v heap) else .error .memory

/-- `if (a != NULL) a->prev = v`. -/
def assignPrev (a v : Option Nat) (heap : Heap) : Except Failure Heap :=
  if ∀ b, a = some b → b ∈ heap.addrs then .ok (setPrev a v heap) else .error .memory

/-- A loop `while (ch != NULL) ch = ch->prev` that stops at some node. -/
def follow (stop : Int → Bool) (heap : Heap) (ch : Option Nat) : Except Failure (Option Nat) :=
  walk .memory .diverges stop heap heap.length ch

/-! ### `channel.c` -/

/-- The fading of every channel is drawn again. -/
def fadingRecheck (p : LpState) (heap : Heap) : Except Failure Unit := do
  let _ ← follow (fun _ => false) heap p.channels
  .ok ()

/-- The part of `deallocation` that takes the node `c` out of the list. -/
def unlink (p : LpState) (c : Nat) (heap : Heap) : Except Failure (LpState × Heap) := do
  let node ← load heap c
  if some c = p.channels then do
    let heap ← assignNext node.prev none heap
    .ok ({ p with channels := node.prev }, heap)
  else do
    let heap ← assignPrev node.next node.prev heap
    let node ← load heap c
    let heap ← assignNext node.prev node.next heap
    .ok (p, heap)

/-- A call is over. -/
def deallocation (p : LpState) (ch : Int) (heap : Heap) : Except Failure (LpState × Heap) := do
  let c ← follow (fun id => id = ch) heap p.channels
  match c with
  | none => .error .abort
  | some c => do
    let (p, heap) ← unlink p c heap
    let p ← p.resetChannel ch
    let heap := heap.remove c
    fadingRecheck p heap
    .ok (p, heap)

/-- The search of `allocation` from channel `i` on, with `n` channels to go: `index` when the loop ends. -/
def findFree (p : LpState) : Nat → Int → Except Failure Int
  | 0, _ => .ok (-1)
  | n + 1, i => do
    let busy ← p.checkChannel i
    if busy then findFree p n (i + 1) else .ok i

/-- A call is started, with the node at the address `c`. -/
def allocation (p : LpState) (c : Nat) (heap : Heap) : Except Failure (Int × LpState × Heap) := do
  let index ← findFree p p.channelsPerCell.toNat 0
  if index ≠ -1 then do
    let p ← p.setChannel index
    let heap := ⟨c, { data := index, next := none, prev := p.channels }⟩ :: heap
    let heap ← assignNext p.channels (some c) heap
    let p := { p with channels := some c }
    let node ← load heap c
    -- the interference of the other calls is summed up
    let _ ← follow (fun _ => false) heap node.prev
    fadingRecheck p heap
    .ok (index, p, heap)
  else .error .abort

end LinuxFibers.Cell
