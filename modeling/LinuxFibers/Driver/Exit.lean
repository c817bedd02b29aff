import LinuxFibers.Driver.Open

/-!
# A thread exits

`Pre_Handler_Exit`, the handler of a probe on `do_exit` whose registration is commented out.
-/

namespace LinuxFibers

open HeapTable

/-- The body for one thread with the caller's id: all fibers of the entry are freed and unlinked, then the thread. -/
def exitThread (y : Process × Kmem) (t : Block Thread) : Process × Kmem :=
  let (p, m) := y
  let m := p.listafiber.foldl freeFiber m
  let p := { p with listafiber := [], listathread := p.listathread.filter fun u => u.addr ≠ t.addr }
  (p, kfree m t.addr)

/-- The body for one entry of the caller's process. -/
def exitProcess (c : Task) (p : Process) (m : Kmem) : Process × Kmem :=
  (p.listathread.filter fun t => t.val.id = c.pid).foldl exitThread (p, m)

def preHandlerExit (c : Task) (s : State) : Except Fault State := do
  let (processi, m) ← forEachProcess c.tgid (fun p m => .ok (exitProcess c p m)) s.processi s.kmem
  .ok { s with processi, kmem := m }

end LinuxFibers
