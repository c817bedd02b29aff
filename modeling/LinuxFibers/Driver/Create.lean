import LinuxFibers.Driver.Types

/-!
# Creating fibers

`do_thread_create` and `do_fib_create`, and the two operations that call them: `fib_convert` turns the
calling thread into a fiber, `fib_create` makes a fiber that no thread runs yet.
-/

namespace LinuxFibers

open HeapTable

/-- `S_IFREG | S_IRUGO`. -/
def regularFile : Nat := 0o100000 + 0o444

def doThreadCreate (p : Process) (id : Int) (m : Kmem) : Nat × Process × Kmem :=
  let (strThread, m) := kzalloc m
  (strThread, { p with listathread := ⟨strThread, { runner := none, id := id }⟩ :: p.listathread }, m)

/-- The name `sprintf (…, "f%d", id)` writes. -/
def entryName (id : Int) : String := "f" ++ toString id

/-- The bytes allocated for a name. -/
def nameSize : Nat := 16

def fibersEntryLog (name : Nat) (id : Int) : PidEntry :=
  { name := some ⟨name, entryName id⟩
    len := (entryName id).length
    mode := regularFile
    iop := none
    fop := some .fopsProc }

/-- `fiber_base_stuff[i] = entry; len_fiber_stuff = i + 1` for `i = len_fiber_stuff`. -/
def storeEntry (entry : PidEntry) (stuff : FiberStuff) : Except Fault FiberStuff :=
  let i := stuff.lenFiberStuff
  if i < stuff.fiberBaseStuff.val.length then
    .ok { fiberBaseStuff := { stuff.fiberBaseStuff with val := stuff.fiberBaseStuff.val.set i entry }
          lenFiberStuff := i + 1 }
  else .error .outOfBounds

/-- Every directory node was inserted under the key `0`, so the walk of that bucket meets them all. -/
def addEntry (entry : PidEntry) (T : Table FiberStuff) : Except Fault (Table FiberStuff) := do
  let (T, _) ← Table.forEach (fun _ => True) (fun stuff (x : Unit) => do
    let stuff ← storeEntry entry stuff
    .ok (stuff, x)) T ()
  .ok T

def nextFibId (p : Process) : Except Fault Int :=
  if p.lastFibId < pidMax then .ok (p.lastFibId + 1) else .error .signedOverflow

/-- The registers a new fiber starts with: the caller's, redirected into the function for `fib_create`
(`flag = 1`). -/
def startRegs (regs : PtRegs) (func parameters stackPointer stackSize : BitVec 64) (flag : Int) : PtRegs :=
  if flag = 1 then
    let sp := stackPointer + stackSize - 8
    { regs with ip := func, sp := sp, bp := sp, di := parameters }
  else regs

/-- The new fiber is returned and not yet in `listafiber`. -/
def doFibCreate (c : Task) (cpu : Cpu) (func parameters stackPointer stackSize : BitVec 64) (flag : Int)
    (p : Process) (m : Kmem) : Except Fault (Block Fiber × Process × Kmem) := do
  let (strFiber, m) := kzalloc m
  let (regs, m) := kzalloc m
  let (fpu, m) := kzalloc m
  let id ← nextFibId p
  let (fls, m) := kzalloc m
  let (bitmapFls, m) := kzalloc m
  let (name, m) := kzalloc m
  let listafiberStuff ← addEntry (fibersEntryLog name id) p.listafiberStuff
  let fiber : Fiber :=
    { regs := ⟨regs, startRegs cpu.regs func parameters stackPointer stackSize flag⟩
      fpu := ⟨fpu, copyFxregsToKernel cpu⟩
      entryPoint := func
      selectedThread := none
      fls := ⟨fls, fun _ => 0⟩
      bitmapFls := ⟨bitmapFls, fun _ => 0⟩
      execTime := 0
      lastActivationTime := 0
      correctCounter := 0
      creator := c.pid
      id := id
      failedCounter := 0 }
  .ok (⟨strFiber, fiber⟩, { p with lastFibId := id, listafiberStuff := listafiberStuff }, m)

def addFiber (p : Process) (b : Block Fiber) : Process := { p with listafiber := b :: p.listafiber }

/-! ### `fib_convert` -/

/-- The variables of `fib_convert` that live across entries. -/
structure ConvertVars where
  kmem : Kmem
  flagControllo : Bool
  ret : Int

/-- The branch that makes the calling thread a fiber. -/
def convertThread (c : Task) (cpu : Cpu) (now : Timespec) (p : Process) (x : ConvertVars) :
    Except Fault (Process × ConvertVars) := do
  let (thread, p, m) := doThreadCreate p c.pid x.kmem
  let (b, p, m) ← doFibCreate c cpu cpu.regs.ip 0 0 (-1) 0 p m
  let (timeStr, m) := kzalloc m
  let fiber := { b.val with
    lastActivationTime := BitVec.ofInt 64 now.tvNsec
    correctCounter := 1
    selectedThread := some thread }
  let m := kfree m timeStr
  let p := p.modThread thread fun t => { t with runner := some b.addr }
  .ok (addFiber p { b with val := fiber }, { x with kmem := m, ret := fiber.id })

/-- The body for one entry. `flag_controllo` is not reset between entries. -/
def convertProcess (c : Task) (cpu : Cpu) (now : Timespec) (p : Process) (x : ConvertVars) :
    Except Fault (Process × ConvertVars) :=
  let x := if possible Thread.id c.pid p.listathread = [] then x else { x with flagControllo := true }
  if x.flagControllo then .ok (p, x) else convertThread c cpu now p x

def fibConvert (c : Task) (now : Timespec) (s : State) : Except Fault (State × Int) := do
  let (T, x) ← forEachProcess c.tgid (convertProcess c (s.cpu c) now) s.processi ⟨s.kmem, false, -1⟩
  .ok ({ s with processi := T, kmem := x.kmem }, x.ret)

/-! ### `fib_create` -/

/-- The variables of `fib_create` that live across entries; `lista_fiber_elem` starts unassigned. -/
structure CreateVars where
  kmem : Kmem
  listaFiberElem : Option (Block Fiber)

def createProcess (c : Task) (cpu : Cpu) (func parameters stackPointer stackSize : BitVec 64) (p : Process)
    (x : CreateVars) : Except Fault (Process × CreateVars) := do
  let (b, p, m) ← doFibCreate c cpu func parameters stackPointer stackSize 1 p x.kmem
  let b := { b with val := { b.val with selectedThread := none } }
  .ok (addFiber p b, { kmem := m, listaFiberElem := some b })

/-- The pointer returned is `none` when it was never assigned. -/
def fibCreate (c : Task) (func parameters stackPointer stackSize : BitVec 64) (s : State) :
    Except Fault (State × Option (Block Fiber)) := do
  let (T, x) ← forEachProcess c.tgid
    (createProcess c (s.cpu c) func parameters stackPointer stackSize) s.processi ⟨s.kmem, none⟩
  .ok ({ s with processi := T, kmem := x.kmem }, x.listaFiberElem)

end LinuxFibers
