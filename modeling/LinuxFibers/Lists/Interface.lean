import LinuxFibers.Driver.Interface
import LinuxFibers.Lists.Calls

/-!
# The library of the list driver

`fib_ioctl` of the list driver and the functions of `Sviluppo/Fiber_interface.c` that call it. The dispatcher does not
look at what `copy_from_user` and `copy_to_user` return: a command whose argument cannot be read works on what the local
structure holds then.

* The commands are small numbers. The library reads a value with 404, which the driver takes as well as its own 2.
* `malloc` hands out a block, or `NULL`, which goes to the driver like any other stack.
-/

namespace LinuxFibers.Lists

def cmdFlsAlloc : Nat := 1
def cmdFlsGet : Nat := 2
def cmdFlsSet : Nat := 3
def cmdFlsDealloc : Nat := 4
def cmdConvert : Nat := 5
def cmdCreate : Nat := 6
def cmdSwitchTo : Nat := 7

/-- The `FIB_FLS_GET` of the library. -/
def cmdFlsGetLibrary : Nat := 404

/-- The structure that `arg` points to, what a failing `copy_from_user` leaves in the local structure, and what a failing
`copy_to_user` leaves in the user's. -/
structure UserArg where
  value : FiberArguments
  copyFromFails : Option FiberArguments
  copyToFails : Option FiberArguments

namespace UserArg

/-- The local structure after `copy_from_user`. -/
def copyIn (user : UserArg) : FiberArguments := user.copyFromFails.getD user.value

/-- The user's structure after `copy_to_user`. -/
def copyOut (user : UserArg) (fa : FiberArguments) : FiberArguments := user.copyToFails.getD fa

end UserArg

/-- The new state, the value returned to user space and the user's structure afterwards. -/
abbrev IoctlResult := State × Int × FiberArguments

/-- `index` is what the variable of `flsAlloc` holds. The id of a switch is `arg` itself. -/
def fibIoctl (P : Printer) (c : Task) (cmd : Nat) (arg : BitVec 64) (user : UserArg) (index : Int) (now : Timespec)
    (s : State) : Except Stop IoctlResult :=
  if cmd = cmdFlsAlloc then do
    let (s, ret) ← flsAlloc c index s
    .ok (s, ret, user.value)
  else if cmd = cmdFlsGet ∨ cmd = cmdFlsGetLibrary then do
    let fa := user.copyIn
    let (s, value) ← flsGetValue c fa.flsIndex s
    .ok (s, 0, user.copyOut { fa with flsValue := value })
  else if cmd = cmdFlsSet then do
    let fa := user.copyIn
    let (s, _) ← flsSetValue c fa.flsIndex fa.flsValue s
    .ok (s, 0, user.value)
  else if cmd = cmdFlsDealloc then do
    let fa := user.copyIn
    let (s, ret) ← flsFree c fa.flsIndex s
    .ok (s, if ret then 1 else 0, user.value)
  else if cmd = cmdConvert then do
    let (s, ret) ← fibConvert c now s
    .ok (s, ret, user.value)
  else if cmd = cmdCreate then do
    let fa := user.copyIn
    let (s, elem) ← fibCreate P c fa.startFunctionAddress fa.startFunctionParameters fa.stackPointer fa.stackSize s
    -- `fib_create(…)->id`, where it may have returned no value
    match elem with
    | none => .error (.fault .uninitialised)
    | some elem => .ok (s, 0, user.copyOut { fa with fiberId := elem.id })
  else if cmd = cmdSwitchTo then do
    let (s, ret) ← fibSwitchTo c (arg.truncate 32).toInt now s
    .ok (s, ret, user.value)
  else .ok (s, 0, user.value)

namespace Library

open LinuxFibers.Library (noArguments ioctlRet)

/-- What is passed without having been assigned: the fields of a structure, the address of it, and the upper half of the
register that holds an `int`. -/
structure Garbage where
  param : FiberArguments
  address : BitVec 64
  high : BitVec 32

def onStack (param : FiberArguments) : UserArg := { value := param, copyFromFails := none, copyToFails := none }

/-- `ioctl (IFACE_FIBER_DEV, cmd, arg)`, with the structure `param` at `arg`. -/
def ioctl (P : Printer) (c : Task) (cmd : Nat) (arg : BitVec 64) (param : FiberArguments) (index : Int) (now : Timespec)
    (s : State) : Except Stop IoctlResult :=
  (fibIoctl P c cmd arg (onStack param) index now s).map fun r => (r.1, ioctlRet r.2.1, r.2.2)

section functions

variable (P : Printer) (g : Garbage) (c : Task)

def fibFlsAlloc (index : Int) (s : State) : Except Stop (State × Int) :=
  (ioctl P c cmdFlsAlloc 0 g.param index ⟨0, 0⟩ s).map fun r => (r.1, r.2.1)

def fibFlsDealloc (index : Int) (s : State) : Except Stop (State × Bool) :=
  (ioctl P c cmdFlsDealloc g.address { g.param with flsIndex := index } 0 ⟨0, 0⟩ s).map fun r =>
    (r.1, decide (r.2.1 ≠ 0))

def fibFlsSet (pos val : Int) (s : State) : Except Stop (State × Unit) :=
  (ioctl P c cmdFlsSet g.address { noArguments with flsIndex := pos, flsValue := val } 0 ⟨0, 0⟩ s).map fun r => (r.1, ())

def fibFlsGet (pos : Int) (s : State) : Except Stop (State × Int) :=
  (ioctl P c cmdFlsGetLibrary g.address { noArguments with flsIndex := pos } 0 ⟨0, 0⟩ s).map fun r =>
    (r.1, r.2.2.flsValue)

def fibConvert (now : Timespec) (s : State) : Except Stop (State × Int) :=
  (ioctl P c cmdConvert 0 g.param 0 now s).map fun r => (r.1, r.2.1)

def fibCreate (func parameters stackSize malloc : BitVec 64) (s : State) : Except Stop (State × Int) :=
  let param := { g.param with
    startFunctionAddress := func
    stackPointer := malloc
    stackSize := stackSize
    fiberId := 0
    startFunctionParameters := parameters }
  (ioctl P c cmdCreate g.address param 0 ⟨0, 0⟩ s).map fun r => (r.1, r.2.2.fiberId)

def fibSwitchTo (id : BitVec 32) (now : Timespec) (s : State) : Except Stop (State × Int) :=
  (ioctl P c cmdSwitchTo (g.high ++ id) g.param 0 now s).map fun r => (r.1, r.2.1)

end functions

/-! ### Programs -/

/-- The calls of a program, the exits of its threads and its own steps. `index` is what the variable of the driver holds,
and `malloc` what `malloc` returns. -/
inductive Call
  /-- the constructor, which opens the device -/
  | fiberInit (c : Task)
  /-- the destructor, which closes it -/
  | closeFiberlib (c : Task)
  | fibFlsAlloc (c : Task) (index : Int)
  | fibFlsDealloc (c : Task) (index : Int)
  | fibFlsSet (c : Task) (pos val : Int)
  | fibFlsGet (c : Task) (pos : Int)
  | fibConvert (c : Task) (now : Timespec)
  | fibCreate (c : Task) (func parameters stackSize malloc : BitVec 64)
  | fibSwitchTo (c : Task) (id : BitVec 32) (now : Timespec)
  | exit (c : Task)
  | user (c : Task) (cpu : Cpu)

/-- The call of the driver that it comes to. -/
def Call.driver : Call → Lists.Call
  | .fiberInit c => .driver (.fibOpen c)
  | .closeFiberlib c => .fibRelease c
  | .fibFlsAlloc c index => .driver (.flsAlloc c index)
  | .fibFlsDealloc c index => .driver (.flsFree c index)
  | .fibFlsSet c pos val => .driver (.flsSetValue c pos val)
  | .fibFlsGet c pos => .driver (.flsGetValue c pos)
  | .fibConvert c now => .driver (.fibConvert c now)
  | .fibCreate c func parameters stackSize malloc => .driver (.fibCreate c func parameters malloc stackSize)
  | .fibSwitchTo c id now => .driver (.fibSwitchTo c id.toInt now)
  | .exit c => .preHandlerExit c
  | .user c cpu => .user c cpu

/-- One call, with the value it returns to the program; the constructor, the destructor and an exit see the driver's. -/
def perform (P : Printer) (g : Garbage) : Call → State → Except Stop (State × Option Int)
  | .fiberInit c, s => (fibOpen c s).map fun r => (r.1, some r.2)
  | .closeFiberlib c, s => (fibRelease c s).map fun r => (r.1, some r.2)
  | .fibFlsAlloc c index, s => (fibFlsAlloc P g c index s).map fun r => (r.1, some r.2)
  | .fibFlsDealloc c index, s => (fibFlsDealloc P g c index s).map fun r => (r.1, some (if r.2 then 1 else 0))
  | .fibFlsSet c pos val, s => (fibFlsSet P g c pos val s).map fun r => (r.1, none)
  | .fibFlsGet c pos, s => (fibFlsGet P g c pos s).map fun r => (r.1, some r.2)
  | .fibConvert c now, s => (fibConvert P g c now s).map fun r => (r.1, some r.2)
  | .fibCreate c func parameters stackSize malloc, s =>
    (fibCreate P g c func parameters stackSize malloc s).map fun r => (r.1, some r.2)
  | .fibSwitchTo c id now, s => (fibSwitchTo P g c id now s).map fun r => (r.1, some r.2)
  | .exit c, s => (preHandlerExit c s).map fun r => (r.1, some r.2)
  | .user c cpu, s => .ok (s.setCpu c cpu, none)

structure Event where
  call : Call
  out : Option Int

def Event.driver (e : Event) : Lists.Event := ⟨e.call.driver, e.out⟩

/-- A call by a thread of a process, none of which has the id 0. -/
def Step (P : Printer) (s : State) (e : Event) (s' : State) : Prop :=
  (∃ g, perform P g e.call s = .ok (s', e.out)) ∧ ∀ c ∈ e.call.driver.caller, c.pid ≠ 0

end Library

end LinuxFibers.Lists
