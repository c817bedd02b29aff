import LinuxFibers.Lists.Calls

/-!
# The probes of the list driver

`Pre_Handler_Readdir` and `Pre_Handler_Lookup` rewrite the arguments of the kernel's functions that list and search a
directory below `/proc`. A directory named `fibers` is served from the entries of the process above it, and every other
directory, of whatever process, gets `fibers` as one more entry.

* The array a directory is served from has at least `nents` entries, each of them with a name.
* The new array is a block of its own that nobody frees. The link count of the inode is left out, and with it
  `new_tgid_base_stuff` and the handlers that run after the functions.
-/

namespace LinuxFibers.Lists

/-- `regs->dx` and `regs->cx`: an array of entries and how many of them count. -/
structure PidEnts where
  ents : List PidEntry
  nents : Nat

/-- What the local variables of a handler hold before they are assigned. -/
structure HandlerLocals where
  parent : Int
  iop : Option Nat
  fop : Option FileOps

/-- The entries that count. -/
def PidEnts.served (regs : PidEnts) : List PidEntry := regs.ents.take regs.nents

def fibersName : List Char := "fibers".toList

def attrName : List Char := "attr".toList

/-- The new array: a copy, and the entry `fibers` with the operations of `attr`. -/
def addFibersEntry (locals : HandlerLocals) (regs : PidEnts) : PidEnts :=
  let fibersEntry : PidEntry :=
    { name := some fibersName
      len := 6
      mode := directoryMode
      iop := locals.iop
      fop := locals.fop }
  let fibersEntry := regs.served.foldl (fun entry e =>
    if e.name = some attrName then { entry with iop := e.iop, fop := e.fop } else entry) fibersEntry
  { ents := regs.served ++ [fibersEntry], nents := regs.nents + 1 }

/-- The body the two handlers share, on the name they compare with `fibers` and the name above it. -/
def preHandler (name parent : List Char) (locals : HandlerLocals) (regs : PidEnts) (s : State) :
    Except Stop (State × PidEnts) := do
  let id := pidOfName parent locals.parent
  if name = fibersName then
    let s ← spinLock s
    match s.findProcesso id with
    | none => .ok (spinUnlock s, regs)
    | some (_, p) =>
      if p.fiberStuff.lenFiberStuff = 0 then .ok (spinUnlock s, { regs with nents := 0 })
      else .ok (spinUnlock s, ⟨p.fiberStuff.fiberBaseStuff, p.fiberStuff.lenFiberStuff⟩)
  else .ok (s, addFibersEntry locals regs)

/-- `file` is the directory that is read. -/
def preHandlerReaddir (file parent : List Char) := preHandler file parent

/-- `dentry` is the name that is looked up, in the directory `parent`. -/
def preHandlerLookup (dentry parent : List Char) := preHandler dentry parent

end LinuxFibers.Lists
