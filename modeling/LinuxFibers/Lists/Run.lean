import LinuxFibers.Base.Run
import LinuxFibers.Lists.Fibers
import LinuxFibers.Lists.Fls

/-!
# Runs of the list driver

`myread` gives the lock back before it copies the text to the reader. The nine operations that take the lock are the
steps of the driver, each run to its end before the next one starts.
-/

namespace LinuxFibers.Lists

open Reader Runs

/-! ### `myread` -/

/-- What `myread` prints for a fiber. -/
def fiberStat (P : Printer) (running : Bool) (f : Fiber) : List Char :=
  headline ++ Char.ofNat 10 :: List.flatten
    ["\n - This fiber is currently ".toList, if running then [] else "not ".toList, "running.".toList,
      "\n - The initial entry point is: ".toList, P.pointer f.entryPoint,
      "\n - This fiber was created by: ".toList, Printer.decimal (P.int f.creator), " (pid)".toList,
      "\n - Succesful activations: ".toList, Printer.decimal f.correctCounter,
      "\n - Unsuccesful activations: ".toList, Printer.decimal f.failedCounter,
      "\n - Total running time: ".toList, Printer.decimal (f.execTime / 1000), " msec\n".toList]

/-- `sprintf` into `fiber_stat`. -/
def sprintf (text : List Char) : Except Stop (List Char) :=
  if text.length < fibLogLen then .ok text else .error (.fault .outOfBounds)

def eFault : Int := 14

/-- The part of `myread` after the lock is given back; `copied` says whether `copy_to_user` succeeds. -/
def copyStat (text : List Char) (len off : Nat) (copied : Bool) : Reply Char :=
  if text.length ≤ off then { ret := 0, off := off, chunk := [] }
  else if ¬ copied then { ret := -eFault, off := off, chunk := [] }
  else
    let i := min len text.length
    { ret := i, off := off + i, chunk := text.take i }

/-- `myread` on the file `name` two levels below the directory `tgid`. The ids are printed in the names, and `fibId`
and `tmpPid` are what the variables hold that a name leaves unassigned. -/
def myread (P : Printer) (name tgid : List Char) (fibId : Nat) (tmpPid : Int) (len off : Nat) (copied : Bool)
    (s : State) : Except Stop (State × Reply Char) := do
  let fibId := (fibIdOfName name).getD fibId
  let pid := pidOfName tgid tmpPid
  let s ← spinLock s
  match s.findProcesso pid with
  | none => .ok (spinUnlock s, { ret := -1, off := off, chunk := [] })
  | some (_, p) =>
    match walk (fun f : ListaFiber => (f.id % 2 ^ 64).toNat = fibId) p.listaFiber with
    | none => .ok (spinUnlock s, { ret := -1, off := off, chunk := [] })
    | some (_, node) => do
      let strFiber ← deref node.fiber
      let text ← sprintf (fiberStat P node.running strFiber)
      .ok (spinUnlock s, copyStat text len off copied)

/-! ### Steps -/

inductive Op
  | fibOpen (c : Task)
  | fibConvert (c : Task) (now : Timespec)
  | fibCreate (c : Task) (func parameters stackPointer stackSize : BitVec 64)
  | fibSwitchTo (c : Task) (id : Int) (now : Timespec)
  | flsAlloc (c : Task) (index : Int)
  | flsFree (c : Task) (index : Int)
  | flsGetValue (c : Task) (pos : Int)
  | flsSetValue (c : Task) (pos val : Int)
  | myread (name tgid : List Char) (fibId : Nat) (tmpPid : Int) (len off : Nat) (copied : Bool)

/-- One operation, with the number it returns. -/
def step (P : Printer) : Op → State → Except Stop (State × Option Int)
  | .fibOpen c, s => do
    let (s, ret) ← fibOpen c s
    .ok (s, some ret)
  | .fibConvert c now, s => do
    let (s, ret) ← fibConvert c now s
    .ok (s, some ret)
  | .fibCreate c func parameters stackPointer stackSize, s => do
    let (s, elem) ← fibCreate P c func parameters stackPointer stackSize s
    .ok (s, elem.map ListaFiber.id)
  | .fibSwitchTo c id now, s => do
    let (s, ret) ← fibSwitchTo c id now s
    .ok (s, some ret)
  | .flsAlloc c index, s => do
    let (s, index) ← flsAlloc c index s
    .ok (s, some index)
  | .flsFree c index, s => do
    let (s, ret) ← flsFree c index s
    .ok (s, some (if ret then 1 else 0))
  | .flsGetValue c pos, s => do
    let (s, ret) ← flsGetValue c pos s
    .ok (s, some ret)
  | .flsSetValue c pos val, s => do
    let (s, _) ← flsSetValue c pos val s
    .ok (s, none)
  | .myread name tgid fibId tmpPid len off copied, s => do
    let (s, reply) ← myread P name tgid fibId tmpPid len off copied s
    .ok (s, some reply.ret)

/-- The operation as a step between states, whatever it returns. -/
def Step (P : Printer) (s : State) (op : Op) (s' : State) : Prop := ∃ out, step P op s = .ok (s', out)

/-- Nobody holds the lock. -/
def Unlocked (s : State) : Prop := s.lockListaProcessi = false

end LinuxFibers.Lists
