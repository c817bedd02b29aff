import LinuxFibers.Driver.Types

/-!
# Opening and releasing the device

`fib_open` registers the calling process, `fib_release` takes its entries out again.
-/

namespace LinuxFibers

open HeapTable

/-- The number of directory entries `fib_open` allocates. The driver's functions take it as an argument,
so that a statement can also be made about a directory that is large enough. -/
def nFib : Nat := 1000

/-- The entry `fib_open` links into `processi`. -/
def newProcess (nFib : Nat) (tgid : Int) (fiberStuff fiberBaseStuff : Nat) : Process :=
  { listathread := []
    listafiber := []
    listafiberStuff := [⟨fiberStuff,
      { fiberBaseStuff := ⟨fiberBaseStuff, List.replicate nFib {}⟩
        lenFiberStuff := 0 }⟩]
    lastFibId := 0
    id := tgid }

def fibOpen (nFib : Nat) (c : Task) (s : State) : State :=
  let (processo, m) := kzalloc s.kmem
  let (fiberStuff, m) := kzalloc m
  let (fiberBaseStuff, m) := kzalloc m
  { s with
    processi := ⟨processo, newProcess nFib c.tgid fiberStuff fiberBaseStuff⟩ :: s.processi
    kmem := m }

def freeThread (m : Kmem) (b : Block Thread) : Kmem := kfree m b.addr

def freeFiber (m : Kmem) (b : Block Fiber) : Kmem :=
  let m := kfree m b.val.regs.addr
  let m := kfree m b.val.fpu.addr
  let m := kfree m b.val.bitmapFls.addr
  let m := kfree m b.val.fls.addr
  kfree m b.addr

/-- The directory's node is freed, its array of entries and their names are not. -/
def freeFiberStuff (m : Kmem) (b : Block FiberStuff) : Kmem := kfree m b.addr

/-- The body of `fib_release` for one entry. -/
def freeProcess (m : Kmem) (b : Block Process) : Kmem :=
  let m := b.val.listathread.foldl freeThread m
  let m := b.val.listafiber.foldl freeFiber m
  let m := b.val.listafiberStuff.foldl freeFiberStuff m
  kfree m b.addr

/-- The walk is over the whole of `processi` and does not stop at the first entry it removes. -/
def fibRelease (c : Task) (s : State) : State :=
  { s with
    processi := s.processi.filter fun b => b.val.id ≠ c.tgid
    kmem := (s.processi.filter fun b => b.val.id = c.tgid).foldl freeProcess s.kmem }

end LinuxFibers
