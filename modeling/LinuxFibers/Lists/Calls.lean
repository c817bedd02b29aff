import LinuxFibers.Lists.Run

/-!
# All calls of the list driver

`fib_release` and the handler that runs when a thread exits, beside the nine operations, and what user code does to the
registers between two of them. A `Call` with the value it returns is an event of the driver.

* A block that `fib_release` frees is pointed to by the node it takes out of the list and by nothing else.
-/

namespace LinuxFibers.Lists

/-- The first process of the list with the caller's `tgid` is unlinked. `Lista_Processi` and `bersaglio` are read
through before they are tested. -/
def fibRelease (c : Task) (s : State) : Except Stop (State × Int) := do
  let s ← spinLock s
  let (i, _) ← deref (s.findProcesso c.tgid)
  .ok (spinUnlock { s with listaProcessi := s.listaProcessi.eraseIdx i }, 0)

/-- `Pre_Handler_Exit`, which does not take the lock. `running` is a `bool`, and -1 assigned to it is `true`. -/
def preHandlerExit (c : Task) (s : State) : Except Stop (State × Int) :=
  match s.findProcesso c.tgid with
  | none => .ok (s, 0)
  | some (i, p) =>
    match p.findRunner c.pid with
    | none => .ok (s, 0)
    | some (j, node) => do
      let _ ← deref node.fiber
      let p := p.modFiber j fun f => { f with regs := (s.cpu c).regs, fpu := copyFxregsToKernel (s.cpu c) }
      .ok (s.modProcesso i fun _ => p.modNode j fun f => { f with running := true, runner := 0 }, 0)

inductive Call
  | driver (op : Op)
  | fibRelease (c : Task)
  | preHandlerExit (c : Task)
  | user (c : Task) (cpu : Cpu)

/-- The calling thread; `myread` looks at no thread. -/
def Op.caller : Op → Option Task
  | .fibOpen c | .fibConvert c _ | .fibCreate c _ _ _ _ | .fibSwitchTo c _ _ | .flsAlloc c _ | .flsFree c _
  | .flsGetValue c _ | .flsSetValue c _ _ => some c
  | .myread _ _ _ _ _ _ _ => none

def Call.caller : Call → Option Task
  | .driver op => op.caller
  | .fibRelease c | .preHandlerExit c | .user c _ => some c

def perform (P : Printer) : Call → State → Except Stop (State × Option Int)
  | .driver op, s => step P op s
  | .fibRelease c, s => do
    let (s, ret) ← fibRelease c s
    .ok (s, some ret)
  | .preHandlerExit c, s => do
    let (s, ret) ← preHandlerExit c s
    .ok (s, some ret)
  | .user c cpu, s => .ok (s.setCpu c cpu, none)

structure Event where
  call : Call
  out : Option Int

/-- A call by a thread of a process, none of which has the id 0. -/
def Performs (P : Printer) (s : State) (e : Event) (s' : State) : Prop :=
  perform P e.call s = .ok (s', e.out) ∧ ∀ c ∈ e.call.caller, c.pid ≠ 0

/-- The module has been loaded. -/
def Init (s : State) : Prop := s.listaProcessi = [] ∧ s.lockListaProcessi = false

end LinuxFibers.Lists
