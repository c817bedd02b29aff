import LinuxFibers.Base.Storage
import LinuxFibers.Driver.Run

/-!
# What the driver is for

The fibers of a process as its programmer sees them: the process opens the device, each thread runs at most one
fiber, a fiber that no thread runs keeps the registers it will resume with, and each fiber owns its local storage.
`Machine.Step` says what an operation and the value it returns do to them, and when an operation may refuse. There
are no addresses here, no tables and no binding stored on two sides; `Proof.Refine` shows that the driver is such a
machine.
-/

namespace LinuxFibers

open SlotStorage

/-! ### Fiber-local storage -/

/-- The storage of one fiber: the indices handed out and a value for every index. -/
abbrev Fls := Slots flsSize Int

inductive FlsOp
  | alloc
  | free (index : Int)
  | getValue (pos : Int)
  | setValue (pos val : Int)

def Op.flsOp : Op → Option FlsOp
  | .flsAlloc _ => some .alloc
  | .flsFree _ index => some (.free index)
  | .flsGetValue _ pos => some (.getValue pos)
  | .flsSetValue _ pos val => some (.setValue pos val)
  | _ => none

/-- What a thread that runs no fiber is told. -/
def FlsOp.refusal : FlsOp → Option Int
  | .alloc => some (-1)
  | .free _ => some 0
  | .getValue _ => some (-1)
  | .setValue _ _ => none

/-- An operation on the storage of one fiber, with the value it returns. An index outside the arrays and an allocation
with every index handed out have no step. -/
inductive Fls.Step {n : Nat} : FlsOp → Slots n Int → Option Int → Slots n Int → Prop
  | alloc {F : Slots n Int} {i : Fin n} (hi : i ∉ F.live) (hleast : ∀ j < i, j ∈ F.live) :
      Step .alloc F (some i) (F.take i)
  | free {F : Slots n Int} {i : Fin n} (hi : i ∈ F.live) : Step (.free i) F (some 1) (F.drop i)
  | freeDead {F : Slots n Int} {i : Fin n} (hi : i ∉ F.live) : Step (.free i) F (some 0) F
  | getValue {F : Slots n Int} {i : Fin n} (hi : i ∈ F.live) : Step (.getValue i) F (some (F.value i)) F
  | getValueDead {F : Slots n Int} {i : Fin n} (hi : i ∉ F.live) : Step (.getValue i) F (some (-1)) F
  | setValue {F : Slots n Int} {i : Fin n} {v : Int} (hi : i ∈ F.live) : Step (.setValue i v) F none (F.store i v)
  | setValueDead {F : Slots n Int} {i : Fin n} {v : Int} (hi : i ∉ F.live) : Step (.setValue i v) F none F

/-! ### The machine -/

/-- A fiber: the registers it resumes with, whether a thread may take it, its local storage. -/
structure SavedFiber where
  saved : Cpu
  free : Bool
  fls : Fls

/-- Whether each process has opened the device, the fiber each thread runs, by process and thread, the fibers, by
process and id, and the registers of every thread. -/
structure Machine where
  opened : Int → Bool
  current : Int → Int → Option Int
  fiber : Int → Int → Option SavedFiber
  cpu : Task → Cpu

namespace Machine

def setOpened (a : Machine) (tgid : Int) : Machine := { a with opened := Function.update a.opened tgid true }

def setCurrent (a : Machine) (c : Task) (id : Int) : Machine :=
  { a with
    current := Function.update a.current c.tgid (Function.update (a.current c.tgid) c.pid (some id)) }

def setFiber (a : Machine) (tgid id : Int) (f : SavedFiber) : Machine :=
  { a with fiber := Function.update a.fiber tgid (Function.update (a.fiber tgid) id (some f)) }

def setCpu (a : Machine) (c : Task) (cpu : Cpu) : Machine :=
  { a with cpu := Function.update a.cpu c cpu }

section set

variable {a : Machine} {c : Task} {cpu : Cpu} {tgid t pid id i : Int} {f : SavedFiber}

theorem setCurrent_current :
    (a.setCurrent c id).current tgid pid = if c = ⟨tgid, pid⟩ then some id else a.current tgid pid := by
  by_cases ht : tgid = c.tgid
  · subst ht
    by_cases hp : pid = c.pid
    · simp [setCurrent, hp]
    · have hne : c ≠ ⟨c.tgid, pid⟩ := fun he => hp (congrArg Task.pid he).symm
      simp [setCurrent, hp, hne]
  · have hne : c ≠ ⟨tgid, pid⟩ := fun he => ht (congrArg Task.tgid he).symm
    simp [setCurrent, ht, hne]

theorem setFiber_fiber :
    (a.setFiber t i f).fiber tgid id = if t = tgid ∧ i = id then some f else a.fiber tgid id := by
  by_cases ht : tgid = t
  · subst ht
    by_cases hi : id = i
    · simp [setFiber, hi]
    · simp [setFiber, hi, Ne.symm hi]
  · simp [setFiber, ht, Ne.symm ht]

@[simp] theorem setOpened_current : (a.setOpened t).current = a.current := rfl

@[simp] theorem setOpened_fiber : (a.setOpened t).fiber = a.fiber := rfl

@[simp] theorem setOpened_cpu : (a.setOpened t).cpu = a.cpu := rfl

@[simp] theorem setCurrent_fiber : (a.setCurrent c id).fiber = a.fiber := rfl

@[simp] theorem setCurrent_cpu : (a.setCurrent c id).cpu = a.cpu := rfl

@[simp] theorem setFiber_current : (a.setFiber t i f).current = a.current := rfl

@[simp] theorem setFiber_cpu : (a.setFiber t i f).cpu = a.cpu := rfl

@[simp] theorem setCpu_current : (a.setCpu c cpu).current = a.current := rfl

@[simp] theorem setCpu_fiber : (a.setCpu c cpu).fiber = a.fiber := rfl

end set

/-- The registers a created fiber starts with. -/
def created (cpu : Cpu) (func parameters stackPointer stackSize : BitVec 64) : Cpu :=
  let sp := stackPointer + stackSize - 8
  { cpu with regs := { cpu.regs with ip := func, sp := sp, bp := sp, di := parameters } }

/-- No process has opened the device, or has a thread or a fiber. -/
structure Init (a : Machine) : Prop where
  opened : ∀ tgid, a.opened tgid = false
  current : ∀ tgid pid, a.current tgid pid = none
  fiber : ∀ tgid id, a.fiber tgid id = none

/-- An operation of the machine. A conversion is refused to a thread of a process that has not opened the device, and to
one that runs a fiber; a creation only where the device has not been opened; a switch to a thread that runs no fiber, and
one to a fiber that is not there or is not free. -/
inductive Step : Machine → Event → Machine → Prop
  | fibOpen {a : Machine} {c : Task} (hnew : a.opened c.tgid = false) :
      Step a ⟨.fibOpen c, a.cpu c, some 0⟩ (a.setOpened c.tgid)
  | convert {a : Machine} {c : Task} {now : Timespec} {id : Int} (hopen : a.opened c.tgid = true)
      (hcur : a.current c.tgid c.pid = none) (hpos : 0 < id) (hnew : a.fiber c.tgid id = none) :
      Step a ⟨.fibConvert c now, a.cpu c, some id⟩
        ((a.setFiber c.tgid id ⟨a.cpu c, false, .empty⟩).setCurrent c id)
  | convertRefused {a : Machine} {c : Task} {now : Timespec}
      (hno : a.opened c.tgid = false ∨ a.current c.tgid c.pid ≠ none) :
      Step a ⟨.fibConvert c now, a.cpu c, some (-1)⟩ a
  | create {a : Machine} {c : Task} {func parameters stackPointer stackSize : BitVec 64} {id : Int}
      (hopen : a.opened c.tgid = true) (hpos : 0 < id) (hnew : a.fiber c.tgid id = none) :
      Step a ⟨.fibCreate c func parameters stackPointer stackSize, a.cpu c, some id⟩
        (a.setFiber c.tgid id ⟨created (a.cpu c) func parameters stackPointer stackSize, true, .empty⟩)
  | createRefused {a : Machine} {c : Task} {func parameters stackPointer stackSize : BitVec 64}
      (hno : a.opened c.tgid = false) :
      Step a ⟨.fibCreate c func parameters stackPointer stackSize, a.cpu c, none⟩ a
  | switch {a : Machine} {c : Task} {old id : Int} {now : Timespec} {f g : SavedFiber}
      (hcur : a.current c.tgid c.pid = some old) (hne : old ≠ id) (hf : a.fiber c.tgid old = some f)
      (hg : a.fiber c.tgid id = some g) (hfree : g.free = true) :
      Step a ⟨.fibSwitchTo c id now, a.cpu c, some 0⟩
        ((((a.setFiber c.tgid old { f with saved := a.cpu c, free := true }).setFiber c.tgid id
          { g with free := false }).setCurrent c id).setCpu c g.saved)
  | switchRefused {a : Machine} {c : Task} {id : Int} {now : Timespec}
      (hno : a.current c.tgid c.pid = none ∨ ∀ g, a.fiber c.tgid id = some g → g.free = false) :
      Step a ⟨.fibSwitchTo c id now, a.cpu c, some (-1)⟩ a
  | fls {a : Machine} {op : Op} {o : FlsOp} {id : Int} {f : SavedFiber} {out : Option Int} {F : Fls}
      (hop : op.flsOp = some o) (hcur : a.current op.caller.tgid op.caller.pid = some id)
      (hf : a.fiber op.caller.tgid id = some f) (hstep : Fls.Step o f.fls out F) :
      Step a ⟨op, a.cpu op.caller, out⟩ (a.setFiber op.caller.tgid id { f with fls := F })
  | flsRefused {a : Machine} {op : Op} {o : FlsOp} (hop : op.flsOp = some o)
      (hcur : a.current op.caller.tgid op.caller.pid = none) :
      Step a ⟨op, a.cpu op.caller, o.refusal⟩ a
  | user {a : Machine} {c : Task} {cpu : Cpu} : Step a ⟨.user c cpu, a.cpu c, none⟩ (a.setCpu c cpu)

end Machine

end LinuxFibers
