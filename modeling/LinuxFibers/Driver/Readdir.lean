import LinuxFibers.Driver.Proc
import LinuxFibers.Driver.Run

/-!
# The two handlers of a directory read

The probe of `proc_pident_readdir` runs `Pre_Handler_Readdir` when the function is entered and
`Post_Handler_Readdir` after that, on the same CPU and on the registers the first one left. `Step` interleaves
the pairs of any number of CPUs with the operations of the driver; the handlers share `new_tgid_base_stuff`.

* `regs->dx` is one of the kernel's own arrays when the function is called, and never a block of the module.
* An `i_nlink` is an `unsigned int` and wraps around.
-/

namespace LinuxFibers.Readdir

open HeapTable

/-- The fields of a `struct file` that the handlers read: two names on its path and `f_inode`. -/
structure File where
  name : String
  parent : String
  fInode : Nat

/-- An array of entries: one of the kernel's own, or a block that `kzalloc` has returned. -/
inductive EntsPtr
  | kernel (n : Nat)
  | block (a : Nat)
  deriving DecidableEq, Repr

/-- `regs->di`, `regs->dx` with what it points to, and `regs->cx`. -/
structure Regs where
  file : File
  dx : EntsPtr
  ents : PidEnts

/-! ### The link counts -/

inductive LinkCall
  | inc (inode : Nat)
  | drop (inode : Nat)
  deriving DecidableEq, Repr

/-- The `i_nlink` of every inode; `calls` lists the calls that have changed one, newest first. -/
structure Links where
  nlink : Nat → BitVec 32
  calls : List LinkCall

def incNlink (inode : Nat) (l : Links) : Links where
  nlink := Function.update l.nlink inode (l.nlink inode + 1)
  calls := .inc inode :: l.calls

def dropNlink (inode : Nat) (l : Links) : Links where
  nlink := Function.update l.nlink inode (l.nlink inode - 1)
  calls := .drop inode :: l.calls

/-- What the handlers share: the driver, the global `new_tgid_base_stuff` and the inodes. -/
structure Shared where
  driver : State
  newTgidBaseStuff : Option Nat
  links : Links

/-! ### The handlers -/

/-- The body of the walk over the directories of a process. -/
def listStuff (x : Regs × Int) (d : Block FiberStuff) : Regs × Int :=
  let (regs, _) := x
  let nFibers := d.val.lenFiberStuff
  ({ regs with
      dx := .block d.val.fiberBaseStuff.addr
      ents := ⟨d.val.fiberBaseStuff.val, d.val.lenFiberStuff⟩ }, nFibers)

/-- The body of the walk over the entries of the process that the directory names. -/
def listProcess (locals : HandlerLocals) (x : Regs × Shared) (_ : Block Process) : Regs × Shared :=
  let (regs, s) := x
  let (newTgidBaseStuff, m) := kzalloc s.driver.kmem
  let ents := addFibersEntry locals regs.ents
  ({ regs with dx := .block newTgidBaseStuff, ents := ents },
    { driver := { s.driver with kmem := m }
      newTgidBaseStuff := some newTgidBaseStuff
      links := incNlink regs.file.fInode s.links })

def preHandlerReaddir (locals : HandlerLocals) (regs : Regs) (s : Shared) : Regs × Shared :=
  let id := pidOfName regs.file.parent.toList locals.parent
  if regs.file.name = "fibers" then
    let stuffs := (entriesOf id s.driver.processi).flatMap fun b => b.val.listafiberStuff
    let (regs, nFibers) := stuffs.foldl listStuff (regs, locals.nFibers)
    if nFibers = 0 then ({ regs with ents := { regs.ents with nents := 0 } }, s) else (regs, s)
  else
    let idProc := pidOfName regs.file.name.toList locals.myid
    (entriesOf idProc s.driver.processi).foldl (listProcess locals) (regs, s)

def postHandlerReaddir (regs : Regs) (s : Shared) : Shared :=
  if s.newTgidBaseStuff.map EntsPtr.block = some regs.dx then
    { s with links := dropNlink regs.file.fInode s.links }
  else s

/-! ### Directory reads on several CPUs -/

/-- The registers of the reads under way, by CPU: those that `Pre_Handler_Readdir` has left. -/
structure Reads where
  shared : Shared
  pending : Nat → Option Regs

inductive Event
  | pre (cpu : Nat) (locals : HandlerLocals) (file : File) (array : Nat) (ents : PidEnts)
  | post (cpu : Nat)
  | driver (op : Op)

inductive Step (nFib : Nat) : Reads → Event → Reads → Prop
  | pre {r : Reads} {cpu : Nat} {locals : HandlerLocals} {file : File} {array : Nat} {ents : PidEnts}
      {regs : Regs} {s : Shared} (hidle : r.pending cpu = none)
      (hpre : preHandlerReaddir locals ⟨file, .kernel array, ents⟩ r.shared = (regs, s)) :
      Step nFib r (.pre cpu locals file array ents) ⟨s, Function.update r.pending cpu (some regs)⟩
  | post {r : Reads} {cpu : Nat} {regs : Regs} (hregs : r.pending cpu = some regs) :
      Step nFib r (.post cpu) ⟨postHandlerReaddir regs r.shared, Function.update r.pending cpu none⟩
  | driver {r : Reads} {op : Op} {s : State} (hok : Performs nFib r.shared.driver op s) :
      Step nFib r (.driver op) { r with shared := { r.shared with driver := s } }

/-- Nothing is registered or under way, and `nlink` is the link count of every inode. -/
structure Starts (nlink : Nat → BitVec 32) (r : Reads) : Prop where
  driver : Init r.shared.driver
  newTgidBaseStuff : r.shared.newTgidBaseStuff = none
  links : r.shared.links = ⟨nlink, []⟩
  pending : ∀ cpu, r.pending cpu = none

end LinuxFibers.Readdir
