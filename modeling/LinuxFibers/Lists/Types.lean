import LinuxFibers.Driver.Types

/-!
# The lists of the first driver

The driver of `Sviluppo` keeps its processes and fibers in linked lists, under one spin lock that every operation takes
by hand and gives back by hand before each `return`.

* A list holds its nodes from the head on, and a pointer into it is a position.
* `kmalloc` succeeds. A pointer to a block that only its node points to is the block, or `none` for `NULL`.
* `flags`, where the lock keeps the state of the interrupts, and the lock of each process, which is never taken, are
  left out.
-/

namespace LinuxFibers.Lists

abbrev flsSize : Nat := 4096

/-! ### `Strutture.h` -/

structure Fiber where
  regs : PtRegs
  fpu : Fpu
  fls : Option (Fin flsSize → Int)
  bitmapFls : Option (Fin flsSize → BitVec 64)
  execTime : BitVec 64
  lastActivationTime : BitVec 64
  correctCounter : BitVec 64
  failedCounter : BitVec 64
  entryPoint : BitVec 64
  creator : Int

/-- A node of the list of fibers, without `next`. -/
structure ListaFiber where
  fiber : Option Fiber
  id : Int
  runner : Int
  running : Bool

structure PidEntry where
  name : Option (List Char) := none
  len : Nat := 0
  mode : Nat := 0
  iop : Option Nat := none
  fop : Option FileOps := none

/-- The length of the array is the number of entries allocated. -/
structure FiberStuff where
  fiberBaseStuff : List PidEntry
  lenFiberStuff : Nat

/-- A node of the list of processes, without `next`. -/
structure FiberProcessi where
  listaFiber : List ListaFiber
  fiberStuff : FiberStuff
  id : Int

structure State where
  listaProcessi : List FiberProcessi
  lockListaProcessi : Bool
  cpu : Task → Cpu

/-! ### The lock -/

/-- Why an operation does not return: C gives it no meaning, or it waits for a lock that nobody gives back. -/
inductive Stop
  | fault (f : Fault)
  | spins
  deriving DecidableEq

/-- `spin_lock_irqsave (&lock_lista_processi, flags)`; whoever left the lock taken has returned. -/
def spinLock (s : State) : Except Stop State :=
  if s.lockListaProcessi then .error .spins else .ok { s with lockListaProcessi := true }

/-- `spin_unlock_irqrestore (&lock_lista_processi, flags)` -/
def spinUnlock (s : State) : State := { s with lockListaProcessi := false }

/-! ### Pointers -/

/-- `while (iter != NULL && !found) iter = iter->next`: the node the walk stops at, with its position. -/
def walk {α : Type} (found : α → Bool) : List α → Option (Nat × α)
  | [] => none
  | a :: l => if found a then some (0, a) else (walk found l).map fun x => (x.1 + 1, x.2)

/-- Read through a pointer. -/
def deref {α : Type} : Option α → Except Stop α
  | some a => .ok a
  | none => .error (.fault .danglingPointer)

namespace State

/-- The walk to the caller's process. -/
def findProcesso (s : State) (pid : Int) : Option (Nat × FiberProcessi) := walk (fun p => p.id = pid) s.listaProcessi

def modProcesso (s : State) (i : Nat) (g : FiberProcessi → FiberProcessi) : State :=
  { s with listaProcessi := s.listaProcessi.modify i g }

def setCpu (s : State) (c : Task) (cpu : Cpu) : State := { s with cpu := Function.update s.cpu c cpu }

end State

namespace FiberProcessi

/-- The walk to the fiber that the thread runs. -/
def findRunner (p : FiberProcessi) (tid : Int) : Option (Nat × ListaFiber) := walk (fun f => f.runner = tid) p.listaFiber

/-- The walk to a fiber by its id. -/
def findFiber (p : FiberProcessi) (id : Int) : Option (Nat × ListaFiber) := walk (fun f => f.id = id) p.listaFiber

/-- Assign to a node of the list of fibers. -/
def modNode (p : FiberProcessi) (j : Nat) (g : ListaFiber → ListaFiber) : FiberProcessi :=
  { p with listaFiber := p.listaFiber.modify j g }

/-- Assign to the fiber that a node points to. -/
def modFiber (p : FiberProcessi) (j : Nat) (g : Fiber → Fiber) : FiberProcessi :=
  p.modNode j fun f => { f with fiber := f.fiber.map g }

/-- The fiber that a node points to. -/
def fiberAt (p : FiberProcessi) (j : Nat) : Option Fiber := p.listaFiber[j]?.bind ListaFiber.fiber

end FiberProcessi

theorem spinLock_free {s : State} (h : s.lockListaProcessi = false) :
    spinLock s = .ok { s with lockListaProcessi := true } := by
  rw [spinLock, h]
  rfl

end LinuxFibers.Lists
