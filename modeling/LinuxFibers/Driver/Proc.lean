import LinuxFibers.Driver.Types

/-!
# The files below `/proc/<tgid>`

`myread` prints the statistics of one fiber, and two probes rewrite the arguments of the kernel's functions
that list and search a directory. Both tell from the names on the path which process is meant.

* A name is a list of characters or a `String`; the names the driver reads are ASCII.
* A local variable that `kstrtol` or `kstrtoul` leaves unassigned on a failure holds what it held before,
  which is an argument of the model.
* The array a directory is served from has at least `nents` entries, each of them with a name.
-/

namespace LinuxFibers

open HeapTable

/-! ### `kstrtol` and `kstrtoul` in base 10 -/

/-- `_kstrtoull`: digits, at most one newline, and the end of the string. -/
def kstrtoullDigits (s : List Char) : Option Nat :=
  let digits := s.takeWhile Char.isDigit
  let rest := s.dropWhile Char.isDigit
  if digits ≠ [] ∧ (rest = [] ∨ rest = [Char.ofNat 10]) ∧ Nat.ofDigitChars 10 digits 0 < 2 ^ 64 then
    some (Nat.ofDigitChars 10 digits 0)
  else none

def kstrtoul : List Char → Option Nat
  | '+' :: s => kstrtoullDigits s
  | s => kstrtoullDigits s

def kstrtol : List Char → Option Int
  | '-' :: s => (kstrtoullDigits s).bind fun v => if v ≤ 2 ^ 63 then some (-v) else none
  | s => (kstrtoul s).bind fun v => if v < 2 ^ 63 then some v else none

/-- The conversion of a `long` to a `pid_t`. -/
def pidOfLong (v : Int) : Int := v.bmod (2 ^ 32)

/-- The `pid_t` named by a directory; `garbage` is what the local variable held. -/
def pidOfName (name : List Char) (garbage : Int) : Int := pidOfLong ((kstrtol name).getD garbage)

/-- The entries of the bucket of `id` whose `id` is `id`, in the order of the walk. -/
def entriesOf (id : Int) (T : Table Process) : Table Process :=
  (T.filter fun b => hashMin b.val.id = hashMin id).filter fun b => b.val.id = id

/-! ### `myread` -/

/-- `hash_min` of an eight-byte key in a table of 1024 buckets. -/
def hashLong (key : Nat) : Nat := key * 0x61C8864680B583EB % 2 ^ 64 / 2 ^ 54

/-- The values `myread` prints. -/
structure FiberStat where
  running : Bool
  entryPoint : BitVec 64
  creator : Int
  succesful : BitVec 64
  unsuccesful : BitVec 32
  msec : BitVec 64
  deriving DecidableEq, Repr

def fiberStat (f : Fiber) : FiberStat :=
  { running := f.selectedThread.isSome
    entryPoint := f.entryPoint
    creator := f.creator
    succesful := f.correctCounter
    unsuccesful := f.failedCounter
    msec := f.execTime / 1000 }

/-- The fiber id in the name of a file: `kstrtoul(name + 1, 10, …)`. -/
def fibIdOfName (name : List Char) : Option Nat := kstrtoul (name.drop 1)

/-- The statistics printed for the file `name` two levels below the directory `tgid`. The bucket is that of an
`unsigned long`, and `id == fib_id` compares as `unsigned long`. -/
def myread (name tgid : List Char) (fibId : Nat) (tmpPid : Int) (s : State) : List FiberStat :=
  let fibId := (fibIdOfName name).getD fibId
  (entriesOf (pidOfName tgid tmpPid) s.processi).flatMap fun b =>
    ((b.val.listafiber.filter fun f => hashMin f.val.id = hashLong fibId).filter fun f =>
      (f.val.id % 2 ^ 64).toNat = fibId).map fun f => fiberStat f.val

/-! ### The probes of `proc_pident_readdir` and `proc_pident_lookup` -/

/-- `regs->dx` and `regs->cx`: an array of entries and how many of them count. -/
structure PidEnts where
  ents : List PidEntry
  nents : Nat

/-- What the local variables of a handler hold before they are assigned. -/
structure HandlerLocals where
  parent : Int
  myid : Int
  nFibers : Int
  iop : Option Nat
  fop : Option FileOps

def PidEntry.named (e : PidEntry) (name : String) : Bool := e.name.map Block.val = some name

/-- `S_IFDIR|S_IRUGO|S_IXUGO`. -/
def directoryMode : Nat := 0o040000 + 0o444 + 0o111

/-- The new array of a process: a copy, and the entry `fibers` with the operations of `attr`. -/
def addFibersEntry (locals : HandlerLocals) (regs : PidEnts) : PidEnts :=
  let tgidBaseStuff := regs.ents.take regs.nents
  let fibersEntry : PidEntry :=
    { name := some ⟨0, "fibers"⟩
      len := 6
      mode := directoryMode
      iop := locals.iop
      fop := locals.fop }
  let fibersEntry := tgidBaseStuff.foldl (fun entry e =>
    if e.named "attr" then { entry with iop := e.iop, fop := e.fop } else entry) fibersEntry
  { ents := tgidBaseStuff ++ [fibersEntry], nents := regs.nents + 1 }

/-- The body the two handlers share, on the name they compare with `fibers` and the name above it. -/
def preHandler (name parent : String) (locals : HandlerLocals) (T : Table Process) (regs : PidEnts) : PidEnts :=
  let id := pidOfName parent.toList locals.parent
  if name = "fibers" then
    let stuffs := (entriesOf id T).flatMap fun b => b.val.listafiberStuff
    let (regs, nFibers) := stuffs.foldl (fun _ d => (⟨d.val.fiberBaseStuff.val, d.val.lenFiberStuff⟩,
      (d.val.lenFiberStuff : Int))) (regs, locals.nFibers)
    if nFibers = 0 then { regs with nents := 0 } else regs
  else
    let idProc := pidOfName name.toList locals.myid
    (entriesOf idProc T).foldl (fun regs _ => addFibersEntry locals regs) regs

/-- `file` is the directory that is read. -/
def preHandlerReaddir (file parent : String) := preHandler file parent

/-- `dentry` is the name that is looked up, in the directory `parent`. -/
def preHandlerLookup (dentry parent : String) := preHandler dentry parent

end LinuxFibers
