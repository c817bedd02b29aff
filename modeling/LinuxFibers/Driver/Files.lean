import LinuxFibers.Driver.Run

/-!
# Open files of the device

A file is one `open`. It can be inherited by a child, and `fib_release` is called once, at the close of its
last descriptor, with the closing thread as `current`. `OpenFile` keeps who opened the file and the entry
`fib_open` registered for it, which the kernel module itself does not remember.
-/

namespace LinuxFibers

open Runs

structure OpenFile where
  opener : Int
  entry : Nat
  deriving DecidableEq, Repr

/-- The module together with the files that are open. -/
structure Session where
  drv : State
  files : List OpenFile

/-- An open, the final close of a file by some thread, or an operation on an open file. -/
inductive FileOp
  | openFile (c : Task)
  | closeFile (c : Task) (file : OpenFile)
  | use (op : Op)

/-- `fib_open` and `fib_release` are not called but by an open and a final close. -/
def Op.onOpenFile : Op → Prop
  | .fibOpen _ | .fibRelease _ => False
  | _ => True

inductive FileStep (nFib : Nat) : Session → FileOp → Session → Prop
  | openFile (v : Session) (c : Task) :
      FileStep nFib v (.openFile c)
        { drv := fibOpen nFib c v.drv, files := ⟨c.tgid, v.drv.kmem.next⟩ :: v.files }
  | closeFile (v : Session) (c : Task) (file : OpenFile) (hfile : file ∈ v.files) :
      FileStep nFib v (.closeFile c file) { drv := fibRelease c v.drv, files := v.files.erase file }
  | use (v : Session) (op : Op) (s' : State) (hop : op.onOpenFile) (hok : Performs nFib v.drv op s') :
      FileStep nFib v (.use op) { v with drv := s' }

/-- No file is open and the tables are empty. -/
def SessionInit (v : Session) : Prop := Init v.drv ∧ v.files = []

end LinuxFibers
