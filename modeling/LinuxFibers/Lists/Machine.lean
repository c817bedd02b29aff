import LinuxFibers.Spec.Machine
import LinuxFibers.Lists.Calls

/-!
# What the list driver is for

A process that opens the device is given fibers of its own, on top of those it had: `Machine.procs` lists what a process
has opened and not released, the newest first, and only the newest counts. In it fibers are numbered from 1 on, each
thread runs at most one fiber, a fiber that no thread runs keeps the registers it will resume with, and each fiber owns
its local storage. There are no nodes and no pointers here, and nothing is searched.
-/

namespace LinuxFibers.Lists

open SlotStorage

/-! ### Fiber-local storage -/

/-- The storage of one fiber: the indices handed out and a value for every index. -/
abbrev Storage := Slots flsSize Int

/-- An operation on one storage, with the value it returns. With every index handed out an allocation gives the thread
any number at all, -1 or an index among them. A position outside the arrays is refused as one that is not handed out;
`flsGetValue` on one is no operation on a storage. -/
inductive Storage.Step : FlsOp → Storage → Option Int → Storage → Prop
  | inside {o : FlsOp} {F F' : Storage} {out : Option Int} (h : Fls.Step o F out F') : Step o F out F'
  | allocFull {F : Storage} {out : Int} (hfull : ∀ i, i ∈ F.live) : Step .alloc F (some out) F
  | freeOutside {F : Storage} {index : Int} (hindex : ¬ InRange index) : Step (.free index) F (some 0) F
  | setValueOutside {F : Storage} {pos v : Int} (hpos : ¬ InRange pos) : Step (.setValue pos v) F none F

/-! ### The fibers of a process -/

/-- A fiber: the registers it resumes with, whether a thread may take it, its local storage. -/
structure Coroutine where
  saved : Cpu
  free : Bool
  fls : Storage

/-- The fibers made so far have the ids up to `count`. -/
structure Fibers where
  count : Nat
  current : Int → Option Int
  fiber : Int → Option Coroutine

namespace Fibers

def none : Fibers := { count := 0, current := fun _ => .none, fiber := fun _ => .none }

def setFiber (q : Fibers) (id : Int) (f : Coroutine) : Fibers :=
  { q with fiber := Function.update q.fiber id (some f) }

def setCurrent (q : Fibers) (pid : Int) (id : Option Int) : Fibers :=
  { q with current := Function.update q.current pid id }

/-- A new fiber. -/
def add (q : Fibers) (f : Coroutine) : Fibers := { q.setFiber (q.count + 1) f with count := q.count + 1 }

end Fibers

/-- The registers a new fiber starts with; the FPU is cleared. -/
def started (cpu : Cpu) (func parameters stackPointer stackSize : BitVec 64) : Cpu :=
  { regs := startRegs cpu.regs func parameters stackPointer stackSize, fpu := 0 }

def Op.flsOp : Op → Option FlsOp
  | .flsAlloc _ _ => some .alloc
  | .flsFree _ index => some (.free index)
  | .flsGetValue _ pos => some (.getValue pos)
  | .flsSetValue _ pos val => some (.setValue pos val)
  | _ => none

/-- What a thread of a process without fibers is told. -/
def Op.refusal : Op → Option Int
  | .fibConvert _ _ => some 0
  | .fibSwitchTo _ _ _ => some (-1)
  | op => op.flsOp.bind FlsOp.refusal

/-- An operation of the thread `pid` on the fibers of its process, with its registers before and after. -/
inductive Fibers.Step (pid : Int) : Cpu × Fibers → Op → Option Int → Cpu × Fibers → Prop
  | convert {cpu : Cpu} {q : Fibers} {c : Task} {now : Timespec} (hcur : q.current pid = .none) :
      Step pid (cpu, q) (.fibConvert c now) (some (q.count + 1))
        (cpu, (q.add ⟨started cpu cpu.regs.ip 0 1 0, false, .empty⟩).setCurrent pid (some (q.count + 1)))
  | convertRefused {cpu : Cpu} {q : Fibers} {c : Task} {now : Timespec} {id : Int} (hcur : q.current pid = some id) :
      Step pid (cpu, q) (.fibConvert c now) (some 0) (cpu, q)
  | create {cpu : Cpu} {q : Fibers} {c : Task} {func parameters stackPointer stackSize : BitVec 64} :
      Step pid (cpu, q) (.fibCreate c func parameters stackPointer stackSize) (some (q.count + 1))
        (cpu, q.add ⟨started cpu func parameters stackPointer stackSize, true, .empty⟩)
  | switch {cpu : Cpu} {q : Fibers} {c : Task} {old id : Int} {now : Timespec} {f g : Coroutine}
      (hcur : q.current pid = some old) (hf : q.fiber old = some f) (hne : old ≠ id) (hg : q.fiber id = some g)
      (hfree : g.free = true) : Step pid (cpu, q) (.fibSwitchTo c id now) (some 0)
        (g.saved, ((q.setFiber old { f with saved := cpu, free := true }).setFiber id
          { g with free := false }).setCurrent pid (some id))
  | switchRefused {cpu : Cpu} {q : Fibers} {c : Task} {id : Int} {now : Timespec}
      (hno : q.current pid = .none ∨ ∀ g, q.fiber id = some g → g.free = false) :
      Step pid (cpu, q) (.fibSwitchTo c id now) (some (-1)) (cpu, q)
  | fls {cpu : Cpu} {q : Fibers} {op : Op} {o : FlsOp} {id : Int} {f : Coroutine} {out : Option Int} {F : Storage}
      (hop : op.flsOp = some o) (hcur : q.current pid = some id) (hf : q.fiber id = some f)
      (hstep : Storage.Step o f.fls out F) : Step pid (cpu, q) op out (cpu, q.setFiber id { f with fls := F })
  | flsRefused {cpu : Cpu} {q : Fibers} {op : Op} {o : FlsOp} (hop : op.flsOp = some o) (hcur : q.current pid = .none) :
      Step pid (cpu, q) op o.refusal (cpu, q)

/-! ### The machine -/

/-- The fibers of each process, the newest first, the registers of every thread, and whether an operation has kept the
lock. -/
structure Machine where
  procs : Int → List Fibers
  cpu : Task → Cpu
  locked : Bool

namespace Machine

def setProcs (a : Machine) (tgid : Int) (l : List Fibers) : Machine :=
  { a with procs := Function.update a.procs tgid l }

def setCpu (a : Machine) (c : Task) (cpu : Cpu) : Machine := { a with cpu := Function.update a.cpu c cpu }

def Start (a : Machine) : Prop := (∀ tgid, a.procs tgid = []) ∧ a.locked = false

inductive Step : Machine → Event → Machine → Prop
  | fibOpen {a : Machine} {c : Task} (hfree : a.locked = false) :
      Step a ⟨.driver (.fibOpen c), some 0⟩ (a.setProcs c.tgid (.none :: a.procs c.tgid))
  | fibRelease {a : Machine} {c : Task} {q : Fibers} {rest : List Fibers} (hfree : a.locked = false)
      (hq : a.procs c.tgid = q :: rest) : Step a ⟨.fibRelease c, some 0⟩ (a.setProcs c.tgid rest)
  | driver {a : Machine} {c : Task} {op : Op} {out : Option Int} {q q' : Fibers} {rest : List Fibers} {cpu : Cpu}
      (hfree : a.locked = false) (hcaller : op.caller = some c) (hq : a.procs c.tgid = q :: rest)
      (hstep : Fibers.Step c.pid (a.cpu c, q) op out (cpu, q')) :
      Step a ⟨.driver op, out⟩ ((a.setProcs c.tgid (q' :: rest)).setCpu c cpu)
  /-- nothing is open -/
  | refused {a : Machine} {c : Task} {op : Op} (hfree : a.locked = false) (hcaller : op.caller = some c)
      (hop : ∀ c, op ≠ .fibOpen c) (hq : a.procs c.tgid = []) : Step a ⟨.driver op, op.refusal⟩ a
  /-- the position is outside the arrays -/
  | keepsLock {a : Machine} {c : Task} {pos id : Int} {q : Fibers} {rest : List Fibers} (hfree : a.locked = false)
      (hq : a.procs c.tgid = q :: rest) (hcur : q.current c.pid = some id) (hpos : ¬ InRange pos) :
      Step a ⟨.driver (.flsGetValue c pos), some (-1)⟩ { a with locked := true }
  | myread {a : Machine} {name tgid : List Char} {fibId : Nat} {tmpPid : Int} {len off : Nat} {copied : Bool}
      {out : Option Int} (hfree : a.locked = false) :
      Step a ⟨.driver (.myread name tgid fibId tmpPid len off copied), out⟩ a
  /-- the fiber that the thread ran stays taken -/
  | exit {a : Machine} {c : Task} {id : Int} {q : Fibers} {rest : List Fibers} {f : Coroutine}
      (hq : a.procs c.tgid = q :: rest) (hcur : q.current c.pid = some id) (hf : q.fiber id = some f) :
      Step a ⟨.preHandlerExit c, some 0⟩
        (a.setProcs c.tgid ((q.setFiber id { f with saved := a.cpu c }).setCurrent c.pid .none :: rest))
  | exitOther {a : Machine} {c : Task} (hno : ∀ q rest, a.procs c.tgid = q :: rest → q.current c.pid = .none) :
      Step a ⟨.preHandlerExit c, some 0⟩ a
  | user {a : Machine} {c : Task} {cpu : Cpu} : Step a ⟨.user c cpu, .none⟩ (a.setCpu c cpu)

end Machine

end LinuxFibers.Lists
