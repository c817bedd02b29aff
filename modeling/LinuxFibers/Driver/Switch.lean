import LinuxFibers.Driver.Types

/-!
# Switching

`fib_switch_to`, with the exchange of the two fibers as the list of its assignments, so that the
operation run in one step and the model of concurrent calls take them from one place.
-/

namespace LinuxFibers

open HeapTable

/-- An assignment of the exchange, on the entry and the calling thread's registers. -/
abbrev Assign := Process × Cpu → Process × Cpu

/-- `memcpy(old->regs, current_pt_regs(), …)` -/
def saveRegs (old : Nat) : Assign := fun (p, cpu) =>
  (p.modFiber old fun f => { f with regs := { f.regs with val := cpu.regs } }, cpu)

/-- `copy_fxregs_to_kernel(old->fpu)` -/
def saveFpu (old : Nat) : Assign := fun (p, cpu) =>
  (p.modFiber old fun f => { f with fpu := { f.fpu with val := copyFxregsToKernel cpu } }, cpu)

/-- `old->selected_thread = NULL` -/
def freeOld (old : Nat) : Assign := fun (p, cpu) =>
  (p.modFiber old fun f => { f with selectedThread := none }, cpu)

/-- `memcpy(current_pt_regs(), new->regs, …)`. The target is a node of the table being walked, so the
pointer always resolves. -/
def loadRegs (new : Nat) : Assign := fun (p, cpu) =>
  (p, { cpu with regs := ((p.listafiber.deref new).map fun f => f.regs.val).getD cpu.regs })

/-- `copy_kernel_to_fxregs(&(new->fpu->state.fxsave))` -/
def loadFpu (new : Nat) : Assign := fun (p, cpu) =>
  (p, copyKernelToFxregs (((p.listafiber.deref new).map fun f => f.fpu.val).getD cpu.fpu) cpu)

/-- `new->selected_thread = thread` -/
def bindFiber (thread new : Nat) : Assign := fun (p, cpu) =>
  (p.modFiber new fun f => { f with selectedThread := some thread }, cpu)

/-- `thread->runner = new` -/
def bindThread (thread new : Nat) : Assign := fun (p, cpu) =>
  (p.modThread thread fun t => { t with runner := some new }, cpu)

/-- `new->correct_counter += 1` -/
def countNew (new : Nat) : Assign := fun (p, cpu) =>
  (p.modFiber new fun f => { f with correctCounter := f.correctCounter + 1 }, cpu)

/-- `new->last_activation_time = time_str->tv_nsec` -/
def stampNew (new : Nat) (now : Timespec) : Assign := fun (p, cpu) =>
  (p.modFiber new fun f => { f with lastActivationTime := BitVec.ofInt 64 now.tvNsec }, cpu)

/-- `old->exec_time += new->last_activation_time - old->last_activation_time` -/
def chargeOld (old new : Nat) : Assign := fun (p, cpu) =>
  let last := ((p.listafiber.deref new).map Fiber.lastActivationTime).getD 0
  (p.modFiber old fun f => { f with execTime := f.execTime + (last - f.lastActivationTime) }, cpu)

/-- The exchange, in the order of the source. -/
def exchangeSteps (thread old new : Nat) (now : Timespec) : List Assign :=
  [saveRegs old, saveFpu old, freeOld old, loadRegs new, loadFpu new, bindFiber thread new,
    bindThread thread new, countNew new, stampNew new now, chargeOld old new]

def exchange (thread old new : Nat) (now : Timespec) : Assign := fun y =>
  (exchangeSteps thread old new now).foldl (fun y assign => assign y) y

/-- `old->failed_counter += 1` -/
def countFailed (old : Nat) (p : Process) : Process :=
  p.modFiber old fun f => { f with failedCounter := f.failedCounter + 1 }

/-- The variables of `fib_switch_to` that live across entries, with the caller's registers. -/
structure SwitchVars where
  kmem : Kmem
  cpu : Cpu
  ret : Int

/-- `time_str` is allocated and freed within the exchange. -/
def timeStr (m : Kmem) : Kmem :=
  let (t, m) := kzalloc m
  kfree m t

/-- The body of the walk for the target, run on each fiber of the bucket whose `id` is the one asked for. -/
def switchTarget (thread old : Nat) (now : Timespec) (y : Process × SwitchVars) (new : Nat) :
    Process × SwitchVars :=
  let (p, x) := y
  match (p.listafiber.deref new).bind Fiber.selectedThread with
  | some _ => (countFailed old p, { x with ret := -1 })
  | none =>
    let (p, cpu) := exchange thread old new now (p, x.cpu)
    (p, { kmem := timeStr x.kmem, cpu := cpu, ret := 0 })

/-- The body for the calling thread's `Thread`. -/
def switchThread (id : Int) (now : Timespec) (thread : Nat) (p : Process) (x : SwitchVars) :
    Except Fault (Process × SwitchVars) := do
  let t ← load p.listathread thread
  match t.runner with
  | none => .ok (p, x)
  | some old => do
    let f ← load p.listafiber old
    if f.id = id then .ok (countFailed old p, { x with ret := -1 })
    else .ok ((possible Fiber.id id p.listafiber).foldl (switchTarget thread old now) (p, x))

def switchProcess (c : Task) (id : Int) (now : Timespec) (p : Process) (x : SwitchVars) :
    Except Fault (Process × SwitchVars) :=
  forEachThread c.pid (switchThread id now) p x

def fibSwitchTo (c : Task) (id : Int) (now : Timespec) (s : State) : Except Fault (State × Int) := do
  let (T, x) ← forEachProcess c.tgid (switchProcess c id now) s.processi ⟨s.kmem, s.cpu c, -1⟩
  .ok ({ processi := T, kmem := x.kmem, cpu := Function.update s.cpu c x.cpu }, x.ret)

end LinuxFibers
