import Mathlib.Data.Rat.Floor
import Mathlib.Data.NNRat.Defs
import Mathlib.Logic.Function.Basic

/-!
# The calendar queue

`calqueue.c`, the event queue of the cell simulation that runs on the fibers. A `double` is an exact rational here and
a priority is not negative.

* `calq` maps the index of a bucket to its list; the buckets of the calendar start at `firstsub`.
* A node is given by its two fields. `malloc` succeeds, and a list whose nodes were freed stays in `calq` until the
  next calendar is laid over it, as its dangling head does.
* `resize` is called from `put` and `deq` and calls both. They take it as an argument, so that the calls from within
  `resize` can be given one that does not call back: it returns at once while `resize_enabled` is off, and a
  resize within a resize would be a fault.
* A width that is not positive and a quotient that does not fit the integer it is converted to are faults too.
-/

namespace LinuxFibers

/-- `CALQSPACE`. -/
def calqspace : Nat := 65536

/-- `MAXNBUCKETS`. -/
def maxnbuckets : Nat := 32768

inductive CalqueueFault
  | divisionByZero
  | width
  | intRange
  | nullPointer
  | outOfBounds
  | reentered
  deriving DecidableEq, Repr

/-- `calqueue_node`. -/
structure CalqueueNode (α : Type) where
  priority : ℚ≥0
  payload : α
  deriving DecidableEq

structure Calqueue (α : Type) where
  calq : Nat → List (CalqueueNode α)
  firstsub : Nat
  nbuckets : Nat
  qsize : Nat
  lastbucket : Nat
  resizeEnabled : Bool
  topThreshold : Int
  botThreshold : Int
  lastprio : ℚ≥0
  buckettop : ℚ
  cwidth : ℚ

namespace Calqueue

variable {α : Type}

/-- What `resize` takes and returns. -/
abbrev Resize (α : Type) := Nat → Calqueue α → Except CalqueueFault (Calqueue α)

/-- `calendar[i]`. -/
def bucket (q : Calqueue α) (i : Nat) : List (CalqueueNode α) := q.calq (q.firstsub + i)

/-- `(int)(priority / width)` and `(long)(priority / width)`. -/
def quotient (range : Nat) (priority : ℚ≥0) (width : ℚ) : Except CalqueueFault Nat :=
  let n := ⌊(priority : ℚ) / width⌋₊
  if n < range then .ok n else .error .intRange

def localinit (q : Calqueue α) (qbase nbucks : Nat) (bwidth : ℚ) (startprio : ℚ≥0) :
    Except CalqueueFault (Calqueue α) := do
  let n ← quotient (2 ^ 63) startprio bwidth
  .ok { q with
    firstsub := qbase
    cwidth := bwidth
    nbuckets := nbucks
    qsize := 0
    calq := fun j => if qbase ≤ j ∧ j < qbase + nbucks then [] else q.calq j
    lastprio := startprio
    lastbucket := n % nbucks
    buckettop := (n + 1) * bwidth + 1 / 2 * bwidth
    botThreshold := (nbucks / 2 : Nat) - 2
    topThreshold := 2 * nbucks }

/-! ### `calqueue_put` -/

/-- The new node goes behind those of the same priority. -/
def insertNode (x : CalqueueNode α) : List (CalqueueNode α) → List (CalqueueNode α)
  | [] => [x]
  | traverse :: rest =>
    if traverse.priority > x.priority then x :: traverse :: rest else traverse :: insertNode x rest

/-- Everything in `calqueue_put` up to the test of the threshold. -/
def store (x : CalqueueNode α) (i : Nat) (q : Calqueue α) : Calqueue α :=
  { q with
    calq := Function.update q.calq (q.firstsub + i) (insertNode x (q.bucket i))
    qsize := q.qsize + 1 }

def putWith (resize : Resize α) (x : CalqueueNode α) (q : Calqueue α) : Except CalqueueFault (Calqueue α) := do
  let i ← quotient (2 ^ 31) x.priority q.cwidth
  let q := q.store x (i % q.nbuckets)
  if q.topThreshold < q.qsize ∧ q.nbuckets < maxnbuckets then resize (2 * q.nbuckets) q else .ok q

/-! ### `calqueue_deq` -/

/-- The first loop, from bucket `i` on: the bucket whose head lies below the top, if one does, and the top. The loop
ends after all buckets, when it is back at `lastbucket`. -/
def scan (q : Calqueue α) : Nat → Nat → ℚ → Option Nat × ℚ
  | 0, _, buckettop => (none, buckettop)
  | n + 1, i, buckettop =>
    if ∃ e ∈ (q.bucket i).head?, (e.priority : ℚ) < buckettop then (some i, buckettop)
    else
      let i := if i + 1 = q.nbuckets then 0 else i + 1
      let buckettop := buckettop + q.cwidth
      if i = q.lastbucket then (none, buckettop) else q.scan n i buckettop

/-- One turn of the second loop, with `temp2` and `lowest`; `temp2` starts at -1. -/
def lower (q : Calqueue α) (best : Option (Nat × ℚ≥0)) (i : Nat) : Option (Nat × ℚ≥0) :=
  match (q.bucket i).head?, best with
  | none, best => best
  | some e, none => some (i, e.priority)
  | some e, some (temp2, lowest) => if e.priority < lowest then some (i, e.priority) else some (temp2, lowest)

/-- The bucket to take from, and `buckettop` after the search. -/
def search (q : Calqueue α) : Except CalqueueFault (Nat × ℚ) :=
  match q.scan q.nbuckets q.lastbucket q.buckettop with
  | (some i, buckettop) => .ok (i, buckettop)
  | (none, buckettop) =>
    -- directly search for the minimum
    match (List.range q.nbuckets).foldl q.lower none with
    | some (temp2, _) => .ok (temp2, buckettop)
    | none => .error .outOfBounds

/-- Take the head `e` of bucket `i`. -/
def take (i : Nat) (buckettop : ℚ) (e : CalqueueNode α) (rest : List (CalqueueNode α)) (q : Calqueue α) :
    Calqueue α :=
  { q with
    lastbucket := i
    lastprio := e.priority
    buckettop := buckettop
    qsize := q.qsize - 1
    calq := Function.update q.calq (q.firstsub + i) rest }

def deqWith (resize : Resize α) (q : Calqueue α) : Except CalqueueFault (Option (CalqueueNode α) × Calqueue α) :=
  if q.qsize = 0 then .ok (none, q)
  else do
    let (i, buckettop) ← q.search
    match q.bucket i with
    | [] => .error .nullPointer
    | e :: rest =>
      let q := q.take i buckettop e rest
      let q ← if q.qsize < q.botThreshold then resize (q.nbuckets / 2) q else .ok q
      .ok (some e, q)

/-! ### `resize` -/

/-- `resize` where it is called from within `resize`. -/
def inner : Resize α := fun _ q => if q.resizeEnabled then .error .reentered else .ok q

def nsamples (qsize : Nat) : Nat := min 25 (if qsize ≤ 5 then qsize else 5 + qsize / 10)

/-- Dequeue the sample. -/
def drain : Nat → Calqueue α → Except CalqueueFault (List (CalqueueNode α) × Calqueue α)
  | 0, q => .ok ([], q)
  | n + 1, q => do
    let (e, q) ← q.deqWith inner
    match e with
    | none => .error .nullPointer
    | some e => do
      let (temp, q) ← drain n q
      .ok (e :: temp, q)

/-- Three times the average of the separations in the sample, the large ones ignored. In C a division by zero gives
no number. -/
def sampleWidth (temp : List (CalqueueNode α)) : Except CalqueueFault ℚ :=
  let separations := List.zipWith (fun a b => (b.priority : ℚ) - a.priority) temp temp.tail
  let average := separations.sum / ((temp.length : ℚ) - 1)
  let near := separations.filter fun d => d < average * 2
  if near.length = 0 then .error .divisionByZero else .ok (near.sum / near.length * 3)

/-- The nodes of the sample are put back, and so is the position. -/
def newWidth (q : Calqueue α) : Except CalqueueFault (ℚ × Calqueue α) :=
  if q.qsize < 2 then .ok (1, q)
  else do
    let (temp, p) ← drain (nsamples q.qsize) { q with resizeEnabled := false }
    let p ← temp.foldlM (fun p x => p.putWith inner x) p
    let width ← sampleWidth temp
    .ok (width, { p with
      lastbucket := q.lastbucket
      lastprio := q.lastprio
      buckettop := q.buckettop
      resizeEnabled := true })

/-- Copy the buckets below `i` of the old calendar, the last one first. -/
def copy (oldcalendar : Nat) : Nat → Calqueue α → Except CalqueueFault (Calqueue α)
  | 0, q => .ok q
  | i + 1, q => do
    let q ← (q.calq (oldcalendar + i)).foldlM (fun q x => q.putWith inner x) q
    copy oldcalendar i q

/-- The new calendar lies at the other end of `calq`. -/
def resize : Resize α := fun newsize q =>
  if q.resizeEnabled then do
    let (bwidth, q) ← q.newWidth
    if 0 < bwidth then do
      let p ← q.localinit (if q.firstsub = 0 then calqspace - newsize else 0) newsize bwidth q.lastprio
      copy q.firstsub q.nbuckets p
    else .error .width
  else .ok q

/-! ### The operations -/

/-- `calqueue_init`, whatever was in the memory of the queue. -/
def init (q : Calqueue α) : Except CalqueueFault (Calqueue α) := do
  let q ← q.localinit 0 2 1 0
  .ok { q with resizeEnabled := true }

def put (x : CalqueueNode α) (q : Calqueue α) : Except CalqueueFault (Calqueue α) := q.putWith resize x

def deq (q : Calqueue α) : Except CalqueueFault (Option (CalqueueNode α) × Calqueue α) := q.deqWith resize

def get (q : Calqueue α) : Except CalqueueFault (Option α × Calqueue α) := do
  let (node, q) ← q.deq
  .ok (node.map CalqueueNode.payload, q)

/-- A queue in memory that is zero. -/
def zeroed : Calqueue α where
  calq := fun _ => []
  firstsub := 0
  nbuckets := 0
  qsize := 0
  lastbucket := 0
  resizeEnabled := false
  topThreshold := 0
  botThreshold := 0
  lastprio := 0
  buckettop := 0
  cwidth := 0

end Calqueue

end LinuxFibers
