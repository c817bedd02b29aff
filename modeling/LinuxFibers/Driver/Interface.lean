import LinuxFibers.Driver.Library
import LinuxFibers.Driver.Run

/-!
# The library

The functions of `Fiber_interface.c`, each with its call of `ioctl`, and the programs that use them: any threads, any
calls, in any order. The structure that a function passes is on the stack of the caller, where the kernel can read and
write it.
-/

namespace LinuxFibers

namespace Library

open Runs

/-- The fields that an initializer does not name. -/
def noArguments : FiberArguments where
  stackPointer := 0
  startFunctionAddress := 0
  startFunctionParameters := 0
  flsValue := 0
  flsIndex := 0
  stackSize := 0
  buffer := 0
  allocSize := 0
  fiberId := 0

def onStack (param : FiberArguments) : UserArg :=
  { value := param, accessOk := true, copyFrom := true, copyToFails := none }

/-- What `ioctl` returns, an `int`: -1 where the driver returns the negative of an error number. -/
def ioctlRet (ret : Int) : Int := if -4095 ≤ ret ∧ ret < 0 then -1 else ret.bmod (2 ^ 32)

/-- `ioctl (IFACE_FIBER_DEV, cmd, &param)`, with the structure afterwards. `fa` is what the driver's structure holds
before it is assigned. -/
def ioctl (c : Task) (cmd : Nat) (param fa : FiberArguments) (now : Timespec) (s : State) : Except Fault IoctlResult :=
  (fibIoctl c cmd (onStack param) fa now s).map fun r => (r.1, ioctlRet r.2.1, r.2.2)

def fibFlsAlloc (c : Task) (fa : FiberArguments) (s : State) : Except Fault (State × Int) :=
  (ioctl c cmdFlsAlloc { noArguments with flsIndex := -1 } fa ⟨0, 0⟩ s).map fun r => (r.1, r.2.2.flsIndex)

def fibFlsDealloc (c : Task) (index : Int) (fa : FiberArguments) (s : State) : Except Fault (State × Bool) :=
  (ioctl c cmdFlsDealloc { noArguments with flsIndex := index } fa ⟨0, 0⟩ s).map fun r => (r.1, decide (r.2.1 ≠ 0))

def fibFlsSet (c : Task) (pos val : Int) (fa : FiberArguments) (s : State) : Except Fault (State × Unit) :=
  (ioctl c cmdFlsSet { noArguments with flsIndex := pos, flsValue := val } fa ⟨0, 0⟩ s).map fun r => (r.1, ())

def fibFlsGet (c : Task) (pos : Int) (fa : FiberArguments) (s : State) : Except Fault (State × Int) :=
  (ioctl c cmdFlsGet { noArguments with flsIndex := pos, flsValue := -1 } fa ⟨0, 0⟩ s).map fun r => (r.1, r.2.2.flsValue)

def fibConvert (c : Task) (now : Timespec) (fa : FiberArguments) (s : State) : Except Fault (State × Int) :=
  (ioctl c cmdConvert noArguments fa now s).map fun r => (r.1, r.2.1)

/-- The whole of `fib_create`, with the block that `posix_memalign` hands out. -/
def fibCreateFiber (c : Task) (func parameters stackSize : BitVec 64) (memalign : Option (BitVec 64))
    (fa : FiberArguments) (s : State) : Except Fault (State × Int) :=
  match fibCreate func parameters stackSize memalign with
  | none => .ok (s, -1)
  | some call => (ioctl c cmdCreate call.param fa ⟨0, 0⟩ s).map fun r => (r.1, r.2.2.fiberId)

def fibSwitchTo (c : Task) (id : Int) (now : Timespec) (fa : FiberArguments) (s : State) : Except Fault (State × Int) :=
  (ioctl c cmdSwitchTo { noArguments with fiberId := id } fa now s).map fun r => (r.1, r.2.1)

/-! ### Programs -/

inductive Call
  /-- the constructor, which opens the device -/
  | fiberInit (c : Task)
  /-- the destructor, which closes it -/
  | closeFiberlib (c : Task)
  | fibFlsAlloc (c : Task)
  | fibFlsDealloc (c : Task) (index : Int)
  | fibFlsSet (c : Task) (pos val : Int)
  | fibFlsGet (c : Task) (pos : Int)
  | fibConvert (c : Task) (now : Timespec)
  | fibCreate (c : Task) (func parameters stackSize : BitVec 64) (memalign : Option (BitVec 64))
  | fibSwitchTo (c : Task) (id : Int) (now : Timespec)
  | user (c : Task) (cpu : Cpu)

namespace Call

def caller : Call → Task
  | fiberInit c | closeFiberlib c | fibFlsAlloc c | fibFlsDealloc c _ | fibFlsSet c _ _ | fibFlsGet c _ | fibConvert c _
  | fibCreate c _ _ _ _ | fibSwitchTo c _ _ | user c _ => c

/-- The operation of the driver that a call comes to, if it comes to one. -/
def op : Call → Option Op
  | fiberInit c => some (.fibOpen c)
  | closeFiberlib c => some (.fibRelease c)
  | fibFlsAlloc c => some (.flsAlloc c)
  | fibFlsDealloc c index => some (.flsFree c index)
  | fibFlsSet c pos val => some (.flsSetValue c pos val)
  | fibFlsGet c pos => some (.flsGetValue c pos)
  | fibConvert c now => some (.fibConvert c now)
  | fibCreate c func parameters stackSize memalign =>
    if stackSize = 0 then none else memalign.map fun block => .fibCreate c func parameters block stackSize
  | fibSwitchTo c id now => some (.fibSwitchTo c id now)
  | user c cpu => some (.user c cpu)

end Call

/-- One call, with the value it returns to the program; the constructor and the destructor see the driver's 0. -/
def perform (nFib : Nat) (fa : FiberArguments) : Call → State → Except Fault (State × Option Int)
  | .fiberInit c, s => .ok (fibOpen nFib c s, some 0)
  | .closeFiberlib c, s => .ok (fibRelease c s, some 0)
  | .fibFlsAlloc c, s => (fibFlsAlloc c fa s).map fun r => (r.1, some r.2)
  | .fibFlsDealloc c index, s => (fibFlsDealloc c index fa s).map fun r => (r.1, some (if r.2 then 1 else 0))
  | .fibFlsSet c pos val, s => (fibFlsSet c pos val fa s).map fun r => (r.1, none)
  | .fibFlsGet c pos, s => (fibFlsGet c pos fa s).map fun r => (r.1, some r.2)
  | .fibConvert c now, s => (fibConvert c now fa s).map fun r => (r.1, some r.2)
  | .fibCreate c func parameters stackSize memalign, s =>
    (fibCreateFiber c func parameters stackSize memalign fa s).map fun r => (r.1, some r.2)
  | .fibSwitchTo c id now, s => (fibSwitchTo c id now fa s).map fun r => (r.1, some r.2)
  | .user c cpu, s => .ok ({ s with cpu := Function.update s.cpu c cpu }, none)

structure Event where
  call : Call
  cpu : Cpu
  out : Option Int

def Step (nFib : Nat) (s : State) (e : Event) (s' : State) : Prop :=
  (∃ fa, perform nFib fa e.call s = .ok (s', e.out)) ∧ e.cpu = s.cpu e.call.caller

/-- The call as the driver sees it. -/
def Event.visible (e : Event) : Option LinuxFibers.Event := e.call.op.map fun op => ⟨op, e.cpu, e.out⟩

end Library

end LinuxFibers
