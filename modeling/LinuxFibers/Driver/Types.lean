import Mathlib.Data.BitVec
import LinuxFibers.Base.Table

/-!
# The tables of the fiber driver

The records of `Strutture.h` and the state of the kernel module: the hash table `processi`, the
allocator and the user registers of every thread.

* Addresses are natural numbers and a `pid_t` is an integer.
* A `kzalloc`ed block keeps its address. A `Process` owns its three tables, and a pointer from a
  thread to a fiber or back (`runner`, `selectedThread`) is resolved in the entry being visited: no
  pointer of the driver leaves the entry it was stored in.
* `kzalloc` succeeds and never hands an address out twice, so the tests of `regs`, `fpu`, `fls` and
  `bitmap_fls` against `NULL` always pass and are left out.
* A table lists its nodes newest first, which is the order of every bucket (`hash_add_rcu` inserts at
  the head).
* `lock_fiber` is free between two operations; the modules under `Conc` model it.
* Where C gives the code no meaning (an index outside its array, a dangling or unassigned pointer, a
  signed overflow) the operation ends in a `Fault` and has no successor state.
-/

namespace LinuxFibers

open HeapTable

/-- The largest `pid_t`. -/
def pidMax : Int := 2 ^ 31 - 1

abbrev flsSize : Nat := 128

/-- The 512-byte `fxsave` area. -/
abbrev Fpu := BitVec 4096

inductive Fault
  | outOfBounds
  | danglingPointer
  | uninitialised
  | signedOverflow
  deriving DecidableEq, Repr

/-- `current->tgid` and `current->pid` of a calling thread. -/
structure Task where
  tgid : Int
  pid : Int
  deriving DecidableEq, Repr

/-- `struct timespec`. -/
structure Timespec where
  tvSec : Int
  tvNsec : Int
  deriving DecidableEq, Repr

/-! ### Registers -/

/-- `struct pt_regs` on x86-64. -/
structure PtRegs where
  r15 : BitVec 64 := 0
  r14 : BitVec 64 := 0
  r13 : BitVec 64 := 0
  r12 : BitVec 64 := 0
  bp : BitVec 64 := 0
  bx : BitVec 64 := 0
  r11 : BitVec 64 := 0
  r10 : BitVec 64 := 0
  r9 : BitVec 64 := 0
  r8 : BitVec 64 := 0
  ax : BitVec 64 := 0
  cx : BitVec 64 := 0
  dx : BitVec 64 := 0
  si : BitVec 64 := 0
  di : BitVec 64 := 0
  origAx : BitVec 64 := 0
  ip : BitVec 64 := 0
  cs : BitVec 64 := 0
  flags : BitVec 64 := 0
  sp : BitVec 64 := 0
  ss : BitVec 64 := 0
  deriving DecidableEq, Repr

/-- What a thread's user code sees of the processor: `current_pt_regs()` and the FPU. -/
structure Cpu where
  regs : PtRegs := {}
  fpu : Fpu := 0
  deriving DecidableEq, Repr

def copyFxregsToKernel (cpu : Cpu) : Fpu := cpu.fpu

def copyKernelToFxregs (fxsave : Fpu) (cpu : Cpu) : Cpu := { cpu with fpu := fxsave }

/-! ### The allocator -/

/-- Addresses below `next` have been handed out; `freed` lists the calls of `kfree`, newest first. -/
structure Kmem where
  next : Nat := 1
  freed : List Nat := []
  deriving DecidableEq, Repr

def kzalloc (m : Kmem) : Nat × Kmem := (m.next, { m with next := m.next + 1 })

def kfree (m : Kmem) (a : Nat) : Kmem := { m with freed := a :: m.freed }

/-! ### `Strutture.h` -/

structure Fiber where
  regs : Block PtRegs
  fpu : Block Fpu
  entryPoint : BitVec 64
  selectedThread : Option Nat
  fls : Block (Fin flsSize → Int)
  bitmapFls : Block (Fin flsSize → BitVec 64)
  execTime : BitVec 64
  lastActivationTime : BitVec 64
  correctCounter : BitVec 64
  creator : Int
  id : Int
  failedCounter : BitVec 32

/-- A `struct file_operations` that a directory entry can name. -/
inductive FileOps
  | fopsProc
  | kernel (n : Nat)
  deriving DecidableEq, Repr

/-- `struct pid_entry`, without the union that the driver never assigns. -/
structure PidEntry where
  name : Option (Block String) := none
  len : Nat := 0
  mode : Nat := 0
  iop : Option Nat := none
  fop : Option FileOps := none
  deriving DecidableEq, Repr

/-- The directory of a process: the array `fiber_base_stuff`, whose length is the number of entries
allocated, and the number of entries in use. -/
structure FiberStuff where
  fiberBaseStuff : Block (List PidEntry)
  lenFiberStuff : Nat
  deriving DecidableEq, Repr

structure Thread where
  runner : Option Nat
  id : Int
  deriving DecidableEq, Repr

structure Process where
  listathread : Table Thread
  listafiber : Table Fiber
  listafiberStuff : Table FiberStuff
  lastFibId : Int
  id : Int

/-- The state of the module and of the threads that use it. -/
structure State where
  processi : Table Process
  kmem : Kmem
  cpu : Task → Cpu

/-! ### Buckets -/

/-- `hash_min` of a key of at most four bytes in a table of 1024 buckets. -/
def hashMin (key : Int) : Nat := (key % 2 ^ 32).toNat * 0x61C88647 % 2 ^ 32 / 2 ^ 22

/-- The addresses of the nodes that `hash_for_each_possible` visits and the comparison with `k` inside
its body lets through, in the order of the walk. -/
def possible {α : Type} (id : α → Int) (k : Int) (T : Table α) : List Nat :=
  Table.addrs ((T.filter fun b => hashMin (id b.val) = hashMin k).filter fun b => id b.val = k)

/-- The loop that starts every operation: over the bucket of `tgid` in `processi`, with the loop's body
run on the entries whose `id` is `tgid`. -/
def forEachProcess {σ : Type} (tgid : Int) (body : Process → σ → Except Fault (Process × σ)) :
    Table Process → σ → Except Fault (Table Process × σ) :=
  Table.forEach (fun p => hashMin p.id = hashMin tgid) fun p x =>
    if p.id = tgid then body p x else .ok (p, x)

/-- The loop over the caller's bucket of `listathread`, with the loop's body run on the threads whose `id`
is `pid`. -/
def forEachThread {σ : Type} (pid : Int) (body : Nat → Process → σ → Except Fault (Process × σ))
    (p : Process) (x : σ) : Except Fault (Process × σ) :=
  (possible Thread.id pid p.listathread).foldlM (fun (y : Process × σ) t => body t y.1 y.2) (p, x)

namespace Process

/-- Assign to a fiber of the entry through its address. -/
def modFiber (p : Process) (a : Nat) (g : Fiber → Fiber) : Process :=
  { p with listafiber := p.listafiber.update a g }

def modThread (p : Process) (a : Nat) (g : Thread → Thread) : Process :=
  { p with listathread := p.listathread.update a g }

variable {p : Process} {a : Nat} {g : Fiber → Fiber} {h : Thread → Thread}

@[simp] theorem modFiber_listathread : (p.modFiber a g).listathread = p.listathread := rfl

@[simp] theorem modFiber_listafiber : (p.modFiber a g).listafiber = p.listafiber.update a g := rfl

@[simp] theorem modFiber_listafiberStuff : (p.modFiber a g).listafiberStuff = p.listafiberStuff := rfl

@[simp] theorem modFiber_lastFibId : (p.modFiber a g).lastFibId = p.lastFibId := rfl

@[simp] theorem modFiber_id : (p.modFiber a g).id = p.id := rfl

@[simp] theorem modThread_listathread : (p.modThread a h).listathread = p.listathread.update a h := rfl

@[simp] theorem modThread_listafiber : (p.modThread a h).listafiber = p.listafiber := rfl

@[simp] theorem modThread_listafiberStuff : (p.modThread a h).listafiberStuff = p.listafiberStuff := rfl

@[simp] theorem modThread_lastFibId : (p.modThread a h).lastFibId = p.lastFibId := rfl

@[simp] theorem modThread_id : (p.modThread a h).id = p.id := rfl

end Process

/-- Read through a pointer into a table. -/
def load {α : Type} (T : Table α) (a : Nat) : Except Fault α :=
  match T.deref a with
  | some v => .ok v
  | none => .error .danglingPointer

theorem load_ok {α : Type} {T : Table α} {a : Nat} {v : α} :
    load T a = .ok v ↔ T.deref a = some v := by
  unfold load
  cases T.deref a <;> simp

/-- The bucket adds nothing to the comparison of the ids. -/
theorem possible_eq {α : Type} (id : α → Int) (k : Int) (T : Table α) :
    possible id k T = Table.addrs (T.filter fun b => id b.val = k) := by
  unfold possible
  congr 1
  rw [List.filter_filter]
  refine List.filter_congr fun b _ => ?_
  by_cases hb : id b.val = k <;> simp [hb]

end LinuxFibers
