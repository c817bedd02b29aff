import LinuxFibers.Driver.Create
import LinuxFibers.Driver.Switch
import LinuxFibers.Driver.Fls

/-!
# The command dispatcher

`fib_ioctl` copies the user's argument structure in and out around the operation a command names. What
the kernel's copies do on a given user pointer, and what the function's local structure holds before it
is assigned, are arguments of the model.
-/

namespace LinuxFibers

/-- `_IOC(dir, type, nr, size)`. -/
def ioc (dir type nr size : Nat) : Nat := dir <<< 30 ||| size <<< 16 ||| type <<< 8 ||| nr

def ioctlMagic : Nat := 'f'.toNat

def cmdFlsAlloc : Nat := ioc 2 ioctlMagic 10 8
def cmdFlsGet : Nat := ioc 3 ioctlMagic 2 8
def cmdFlsSet : Nat := ioc 1 ioctlMagic 3 8
def cmdFlsDealloc : Nat := ioc 1 ioctlMagic 4 8
def cmdConvert : Nat := ioc 0 ioctlMagic 5 0
def cmdCreate : Nat := ioc 3 ioctlMagic 6 8
def cmdSwitchTo : Nat := ioc 1 ioctlMagic 7 8

def efault : Int := 14
def einval : Int := 22

/-- `struct fiber_arguments`. -/
structure FiberArguments where
  stackPointer : BitVec 64
  startFunctionAddress : BitVec 64
  startFunctionParameters : BitVec 64
  flsValue : Int
  flsIndex : Int
  stackSize : BitVec 64
  buffer : BitVec 64
  allocSize : BitVec 64
  fiberId : Int
  deriving DecidableEq, Repr

/-- The user pointer of one call: the structure it points to, whether `access_ok` and `copy_from_user`
accept it, and, when `copy_to_user` fails, what that leaves in the user's structure. -/
structure UserArg where
  value : FiberArguments
  accessOk : Bool
  copyFrom : Bool
  copyToFails : Option FiberArguments

/-- The new state, the value returned to user space and the user's structure afterwards. -/
abbrev IoctlResult := State × Int × FiberArguments

/-- `access_ok` and `copy_from_user` into the local structure, then the rest of the command. -/
def copyIn (arg : UserArg) (s : State) (rest : FiberArguments → Except Fault IoctlResult) :
    Except Fault IoctlResult :=
  if arg.accessOk then
    if arg.copyFrom then rest arg.value else .ok (s, -efault, arg.value)
  else .ok (s, -efault, arg.value)

/-- `copy_to_user` of the local structure, then `return 0`. -/
def copyOut (arg : UserArg) (s : State) (fa : FiberArguments) : Except Fault IoctlResult :=
  match arg.copyToFails with
  | some left => .ok (s, -efault, left)
  | none => .ok (s, 0, fa)

/-- `fa` is what the local structure holds on entry. -/
def fibIoctl (c : Task) (cmd : Nat) (arg : UserArg) (fa : FiberArguments) (now : Timespec) (s : State) :
    Except Fault IoctlResult :=
  if cmd = cmdFlsAlloc then do
    let (s, index) ← flsAlloc c s
    copyOut arg s { fa with flsIndex := index }
  else if cmd = cmdFlsGet then
    copyIn arg s fun fa => do
      let (s, value) ← flsGetValue c fa.flsIndex s
      copyOut arg s { fa with flsValue := value }
  else if cmd = cmdFlsSet then
    copyIn arg s fun fa => do
      let (s, _) ← flsSetValue c fa.flsIndex fa.flsValue s
      .ok (s, 0, arg.value)
  else if cmd = cmdFlsDealloc then
    copyIn arg s fun fa => do
      let (s, ret) ← flsFree c fa.flsIndex s
      .ok (s, if ret then 1 else 0, arg.value)
  else if cmd = cmdConvert then do
    let (s, ret) ← fibConvert c now s
    .ok (s, ret, arg.value)
  else if cmd = cmdCreate then
    copyIn arg s fun fa => do
      let (s, fiber) ← fibCreate c fa.startFunctionAddress fa.startFunctionParameters fa.stackPointer
        fa.stackSize s
      -- `fib_create(…)->id`, through a pointer that may never have been assigned
      match fiber with
      | none => .error .uninitialised
      | some b => copyOut arg s { fa with fiberId := b.val.id }
  else if cmd = cmdSwitchTo then
    copyIn arg s fun fa => do
      let (s, ret) ← fibSwitchTo c fa.fiberId now s
      .ok (s, ret, arg.value)
  else .ok (s, -einval, arg.value)

end LinuxFibers
