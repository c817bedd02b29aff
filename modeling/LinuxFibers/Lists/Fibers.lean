import LinuxFibers.Driver.Read
import LinuxFibers.Lists.Types

/-!
# Fibers in lists

`fib_open`, `fib_convert`, `fib_create` and `fib_switch_to`. Each takes the lock before it walks through the list of
processes and gives it back on every way out.
-/

namespace LinuxFibers.Lists

/-- The number of directory entries `fib_open` allocates. -/
def nFib : Nat := 10

/-- The node `fib_open` puts at the head of the list. -/
def processo (tgid : Int) : FiberProcessi :=
  { listaFiber := []
    fiberStuff := { fiberBaseStuff := List.replicate nFib {}, lenFiberStuff := 0 }
    id := tgid }

def fibOpen (c : Task) (s : State) : Except Stop (State × Int) := do
  let s ← spinLock s
  .ok (spinUnlock { s with listaProcessi := processo c.tgid :: s.listaProcessi }, 0)

/-! ### `do_fib_create` -/

/-- The registers a new fiber starts with. -/
def startRegs (regs : PtRegs) (func parameters stackPointer stackSize : BitVec 64) : PtRegs :=
  let sp := stackPointer + stackSize - 1
  { regs with ip := func, sp := sp, bp := sp, di := parameters }

/-- One more than the id at the head of the list. -/
def nextId (p : FiberProcessi) : Except Stop Int :=
  match p.listaFiber with
  | [] => .ok 1
  | f :: _ => if f.id < pidMax then .ok (f.id + 1) else .error (.fault .signedOverflow)

/-- The node is linked at the head. The FPU state is copied and then cleared again. -/
def doFibCreate (c : Task) (cpu : Cpu) (func parameters stackPointer stackSize : BitVec 64) (p : FiberProcessi) :
    Except Stop (ListaFiber × FiberProcessi) := do
  let strFiber : Fiber :=
    { regs := startRegs cpu.regs func parameters stackPointer stackSize
      fpu := 0
      fls := some fun _ => 0
      bitmapFls := some fun _ => 0
      execTime := 0
      lastActivationTime := 0
      correctCounter := 0
      failedCounter := 0
      entryPoint := func
      creator := c.pid }
  let id ← nextId p
  let elem : ListaFiber := { fiber := some strFiber, id := id, runner := 0, running := false }
  .ok (elem, { p with listaFiber := elem :: p.listaFiber })

/-! ### `fib_convert` -/

/-- What `fib_convert` assigns to the new node, which is the head of the list. -/
def converted (c : Task) (now : Timespec) (p : FiberProcessi) : FiberProcessi :=
  (p.modNode 0 fun f => { f with running := true, runner := c.pid }).modFiber 0 fun f =>
    { f with lastActivationTime := BitVec.ofInt 64 now.tvNsec, correctCounter := 1 }

def fibConvert (c : Task) (now : Timespec) (s : State) : Except Stop (State × Int) := do
  let s ← spinLock s
  match s.findProcesso c.tgid with
  | none => .ok (spinUnlock s, 0)
  | some (i, p) =>
    match p.findRunner c.pid with
    | some _ => .ok (spinUnlock s, 0)
    | none => do
      let myRegs := (s.cpu c).regs
      let (elem, p) ← doFibCreate c (s.cpu c) myRegs.ip 0 1 0 p
      .ok (spinUnlock (s.modProcesso i fun _ => converted c now p), elem.id)

/-! ### `fib_create` -/

/-- The bytes allocated for a name. -/
def nameSize : Nat := 16

/-- The name `sprintf (…, "f%lu", id)` writes. -/
def entryName (P : Printer) (id : Int) : Except Stop (List Char) :=
  let name := 'f' :: Printer.decimal (P.int id)
  if name.length < nameSize then .ok name else .error (.fault .outOfBounds)

/-- `S_IFREG | S_IRUGO`. -/
def regularFile : Nat := 0o100000 + 0o444

def fibersEntryLog (name : List Char) : PidEntry :=
  { name := some name
    len := name.length
    mode := regularFile
    iop := none
    fop := some .fopsProc }

/-- `fiber_base_stuff[i] = entry; len_fiber_stuff = i + 1` for `i = len_fiber_stuff`. -/
def storeEntry (entry : PidEntry) (stuff : FiberStuff) : Except Stop FiberStuff :=
  let i := stuff.lenFiberStuff
  if i < stuff.fiberBaseStuff.length then
    .ok { fiberBaseStuff := stuff.fiberBaseStuff.set i entry, lenFiberStuff := i + 1 }
  else .error (.fault .outOfBounds)

/-- The node returned is `none` where the source returns without a value. -/
def fibCreate (P : Printer) (c : Task) (func parameters stackPointer stackSize : BitVec 64) (s : State) :
    Except Stop (State × Option ListaFiber) := do
  let s ← spinLock s
  match s.findProcesso c.tgid with
  | none => .ok (spinUnlock s, none)
  | some (i, p) => do
    let (elem, p) ← doFibCreate c (s.cpu c) func parameters stackPointer stackSize p
    let name ← entryName P elem.id
    let stuff ← storeEntry (fibersEntryLog name) p.fiberStuff
    .ok (spinUnlock (s.modProcesso i fun _ => { p with fiberStuff := stuff }), some elem)

/-! ### `fib_switch_to` -/

/-- The exchange, in the order of the source: the two nodes may be one. -/
def exchange (c : Task) (old new : Nat) (now : Timespec) (p : FiberProcessi) (cpu : Cpu) : FiberProcessi × Cpu :=
  let p := p.modFiber old fun f => { f with regs := cpu.regs, fpu := copyFxregsToKernel cpu }
  let cpu := match p.fiberAt new with
    | some f => copyKernelToFxregs f.fpu { cpu with regs := f.regs }
    | none => cpu
  let p := p.modNode old fun f => { f with running := false, runner := 0 }
  let p := p.modNode new fun f => { f with running := true, runner := c.pid }
  let p := p.modFiber new fun f =>
    { f with correctCounter := f.correctCounter + 1, lastActivationTime := BitVec.ofInt 64 now.tvNsec }
  let last := ((p.fiberAt new).map Fiber.lastActivationTime).getD 0
  (p.modFiber old fun f => { f with execTime := f.execTime + (last - f.lastActivationTime) }, cpu)

def fibSwitchTo (c : Task) (id : Int) (now : Timespec) (s : State) : Except Stop (State × Int) := do
  let s ← spinLock s
  match s.findProcesso c.tgid with
  | none => .ok (spinUnlock s, -1)
  | some (i, p) =>
    match p.findRunner c.pid with
    | none => .ok (spinUnlock s, -1)
    | some (old, nodeOld) =>
      match p.findFiber id with
      | none => .ok (spinUnlock s, -1)
      | some (new, nodeNew) =>
        if nodeNew.running then do
          let _ ← deref nodeNew.fiber
          let s := s.modProcesso i fun p => p.modFiber new fun f => { f with failedCounter := f.failedCounter + 1 }
          .ok (spinUnlock s, -1)
        else do
          let _ ← deref nodeOld.fiber
          let _ ← deref nodeNew.fiber
          let (p, cpu) := exchange c old new now p (s.cpu c)
          .ok (spinUnlock ((s.modProcesso i fun _ => p).setCpu c cpu), 0)

end LinuxFibers.Lists
