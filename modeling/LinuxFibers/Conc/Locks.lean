import LinuxFibers.Base.Run
import LinuxFibers.Driver.Switch

/-!
# Concurrent switches

The threads of one process inside `fib_switch_to` at once. A thread is somewhere in the function (`Pc`), a
step of the system is one step of one thread, and each `lock_fiber` is free or held by a thread. The
runner is read before any lock is taken; from then on every access to a fiber is made under its lock.

* Ids are distinct within an entry, so the walks over the caller's bucket of `listathread` and the target's
  bucket of `listafiber` meet at most one node, and the model takes the first.
* Nobody creates threads or fibers in the meantime.
-/

namespace LinuxFibers

open HeapTable Runs

/-- The argument of a call, and what `getnstimeofday` answers in it. -/
structure Call where
  id : Int
  now : Timespec
  deriving DecidableEq, Repr

/-- What the threads share: the entry of their process, and the registers of each. -/
structure Shared where
  proc : Process
  cpu : Int → Cpu

/-- An assignment made by the thread `t`. -/
def Shared.assign (t : Int) (f : Assign) (m : Shared) : Shared :=
  { proc := (f (m.proc, m.cpu t)).1, cpu := Function.update m.cpu t (f (m.proc, m.cpu t)).2 }

/-- Where a thread is in `fib_switch_to`; `thread` is its node, `old` the fiber it runs, `new` the target. -/
inductive Pc
  | idle
  /-- at `spin_lock(&old->lock_fiber)` -/
  | lockOld (call : Call) (thread old : Nat)
  /-- at `old->id == id` and the search for the target -/
  | heldOld (call : Call) (thread old : Nat)
  /-- at `spin_lock(&new->lock_fiber)` -/
  | lockNew (call : Call) (thread old new : Nat)
  /-- at `new->selected_thread != NULL` -/
  | heldNew (call : Call) (thread old new : Nat)
  /-- at `old->failed_counter += 1`, with the target's lock held or not -/
  | countFailed (call : Call) (thread old : Nat) (new : Option Nat)
  /-- in the exchange, with the assignments still to make -/
  | exchange (thread old new : Nat) (rest : List Assign)
  /-- at `spin_unlock(&new->lock_fiber)` -/
  | unlockNew (old new : Nat) (ret : Int)
  /-- at `spin_unlock(&old->lock_fiber)` -/
  | unlockOld (old : Nat) (ret : Int)

/-- The locks a thread holds. -/
def Pc.holds : Pc → List Nat
  | .idle | .lockOld _ _ _ => []
  | .heldOld _ _ old | .lockNew _ _ old _ | .unlockOld old _ => [old]
  | .heldNew _ _ old new | .exchange _ old new _ | .unlockNew old new _ => [old, new]
  | .countFailed _ _ old new => old :: new.toList

/-- The lock a thread spins on. -/
def Pc.waits : Pc → Option Nat
  | .lockOld _ _ old => some old
  | .lockNew _ _ _ new => some new
  | _ => none

/-- The shared memory, the locks, where each thread is, the calls it has still to make and the values that
its calls returned. -/
structure Config where
  mem : Shared
  lock : Nat → Option Int
  pc : Int → Pc
  todo : Int → List Call
  rets : Int → List Int

namespace Config

def goto (cf : Config) (t : Int) (pc : Pc) : Config := { cf with pc := Function.update cf.pc t pc }

def spinLock (cf : Config) (t : Int) (a : Nat) : Config :=
  { cf with lock := Function.update cf.lock a (some t) }

def spinUnlock (cf : Config) (a : Nat) : Config := { cf with lock := Function.update cf.lock a none }

def setTodo (cf : Config) (t : Int) (calls : List Call) : Config :=
  { cf with todo := Function.update cf.todo t calls }

def setMem (cf : Config) (m : Shared) : Config := { cf with mem := m }

def returns (cf : Config) (t : Int) (ret : Int) : Config :=
  { cf with rets := Function.update cf.rets t (cf.rets t ++ [ret]) }

end Config

/-- The calling thread's node and its runner. -/
def Process.runnerOf (p : Process) (pid : Int) : Option (Nat × Nat) :=
  (possible Thread.id pid p.listathread).head?.bind fun thread =>
    ((p.listathread.deref thread).bind Thread.runner).map fun old => (thread, old)

def countFailedStep (old : Nat) : Assign := fun (p, cpu) => (countFailed old p, cpu)

/-- The next step of the thread `t`; `none` when it has no call to make or spins on a lock. -/
def Config.next (cf : Config) (t : Int) : Option Config :=
  match cf.pc t with
  | .idle =>
    match cf.todo t with
    | [] => none
    | call :: calls =>
      match cf.mem.proc.runnerOf t with
      | none => some ((cf.setTodo t calls).returns t (-1))
      | some (thread, old) => some ((cf.setTodo t calls).goto t (.lockOld call thread old))
  | .lockOld call thread old =>
    if cf.lock old = none then some ((cf.spinLock t old).goto t (.heldOld call thread old)) else none
  | .heldOld call thread old =>
    match cf.mem.proc.listafiber.deref old with
    | none => none
    | some f =>
      if f.id = call.id then some (cf.goto t (.countFailed call thread old none))
      else
        match (possible Fiber.id call.id cf.mem.proc.listafiber).head? with
        | none => some (cf.goto t (.unlockOld old (-1)))
        | some new => some (cf.goto t (.lockNew call thread old new))
  | .lockNew call thread old new =>
    if cf.lock new = none then some ((cf.spinLock t new).goto t (.heldNew call thread old new)) else none
  | .heldNew call thread old new =>
    match (cf.mem.proc.listafiber.deref new).bind Fiber.selectedThread with
    | some _ => some (cf.goto t (.countFailed call thread old (some new)))
    | none => some (cf.goto t (.exchange thread old new (exchangeSteps thread old new call.now)))
  | .countFailed _ _ old new =>
    let cf := cf.setMem (cf.mem.assign t (countFailedStep old))
    match new with
    | none => some (cf.goto t (.unlockOld old (-1)))
    | some new => some (cf.goto t (.unlockNew old new (-1)))
  | .exchange thread old new rest =>
    match rest with
    | [] => some (cf.goto t (.unlockNew old new 0))
    | assign :: rest =>
      some ((cf.setMem (cf.mem.assign t assign)).goto t (.exchange thread old new rest))
  | .unlockNew old new ret => some ((cf.spinUnlock new).goto t (.unlockOld old ret))
  | .unlockOld old ret => some (((cf.spinUnlock old).goto t .idle).returns t ret)

/-- A step of the system is a step of some thread. -/
def Next (cf : Config) (t : Int) (cf' : Config) : Prop := cf.next t = some cf'

/-- All calls have returned. -/
def Config.Complete (cf : Config) : Prop := ∀ t, cf.pc t = .idle ∧ cf.todo t = []

def Config.done (cf : Config) (t : Int) : Bool :=
  match cf.pc t, cf.todo t with
  | .idle, [] => true
  | _, _ => false

theorem Config.done_iff {cf : Config} {t : Int} : cf.done t = true ↔ cf.pc t = .idle ∧ cf.todo t = [] := by
  unfold Config.done
  split <;> simp_all

/-- What one step of a thread can do. -/
inductive Config.Taken (cf : Config) (t : Int) : Config → Prop
  | refused {call : Call} {calls : List Call} (hpc : cf.pc t = .idle) (htodo : cf.todo t = call :: calls)
      (hno : cf.mem.proc.runnerOf t = none) : Taken cf t ((cf.setTodo t calls).returns t (-1))
  | started {call : Call} {calls : List Call} {thread old : Nat} (hpc : cf.pc t = .idle)
      (htodo : cf.todo t = call :: calls) (hrun : cf.mem.proc.runnerOf t = some (thread, old)) :
      Taken cf t ((cf.setTodo t calls).goto t (.lockOld call thread old))
  | tookOld {call : Call} {thread old : Nat} (hpc : cf.pc t = .lockOld call thread old)
      (hfree : cf.lock old = none) : Taken cf t ((cf.spinLock t old).goto t (.heldOld call thread old))
  | self {call : Call} {thread old : Nat} {f : Fiber} (hpc : cf.pc t = .heldOld call thread old)
      (hf : cf.mem.proc.listafiber.deref old = some f) (hid : f.id = call.id) :
      Taken cf t (cf.goto t (.countFailed call thread old none))
  | absent {call : Call} {thread old : Nat} {f : Fiber} (hpc : cf.pc t = .heldOld call thread old)
      (hf : cf.mem.proc.listafiber.deref old = some f) (hid : f.id ≠ call.id)
      (hno : possible Fiber.id call.id cf.mem.proc.listafiber = []) :
      Taken cf t (cf.goto t (.unlockOld old (-1)))
  | found {call : Call} {thread old new : Nat} {f : Fiber} (hpc : cf.pc t = .heldOld call thread old)
      (hf : cf.mem.proc.listafiber.deref old = some f) (hid : f.id ≠ call.id)
      (hnew : new ∈ possible Fiber.id call.id cf.mem.proc.listafiber) :
      Taken cf t (cf.goto t (.lockNew call thread old new))
  | tookNew {call : Call} {thread old new : Nat} (hpc : cf.pc t = .lockNew call thread old new)
      (hfree : cf.lock new = none) :
      Taken cf t ((cf.spinLock t new).goto t (.heldNew call thread old new))
  | busy {call : Call} {thread old new : Nat} {a : Nat} (hpc : cf.pc t = .heldNew call thread old new)
      (hsel : (cf.mem.proc.listafiber.deref new).bind Fiber.selectedThread = some a) :
      Taken cf t (cf.goto t (.countFailed call thread old (some new)))
  | began {call : Call} {thread old new : Nat} (hpc : cf.pc t = .heldNew call thread old new)
      (hsel : (cf.mem.proc.listafiber.deref new).bind Fiber.selectedThread = none) :
      Taken cf t (cf.goto t (.exchange thread old new (exchangeSteps thread old new call.now)))
  | failedSelf {call : Call} {thread old : Nat} (hpc : cf.pc t = .countFailed call thread old none) :
      Taken cf t ((cf.setMem (cf.mem.assign t (countFailedStep old))).goto t (.unlockOld old (-1)))
  | failedBusy {call : Call} {thread old new : Nat} (hpc : cf.pc t = .countFailed call thread old (some new)) :
      Taken cf t ((cf.setMem (cf.mem.assign t (countFailedStep old))).goto t (.unlockNew old new (-1)))
  | assigned {thread old new : Nat} {assign : Assign} {rest : List Assign}
      (hpc : cf.pc t = .exchange thread old new (assign :: rest)) :
      Taken cf t ((cf.setMem (cf.mem.assign t assign)).goto t (.exchange thread old new rest))
  | ended {thread old new : Nat} (hpc : cf.pc t = .exchange thread old new []) :
      Taken cf t (cf.goto t (.unlockNew old new 0))
  | freedNew {old new : Nat} {ret : Int} (hpc : cf.pc t = .unlockNew old new ret) :
      Taken cf t ((cf.spinUnlock new).goto t (.unlockOld old ret))
  | freedOld {old : Nat} {ret : Int} (hpc : cf.pc t = .unlockOld old ret) :
      Taken cf t (((cf.spinUnlock old).goto t .idle).returns t ret)

theorem Config.taken {cf cf' : Config} {t : Int} (h : Next cf t cf') : cf.Taken t cf' := by
  unfold Next Config.next at h
  cases hpc : cf.pc t with
  | idle =>
    simp only [hpc] at h
    split at h
    · cases h
    · rename_i call calls htodo
      split at h
      · rename_i hno
        cases h
        exact .refused hpc htodo hno
      · rename_i thread old hrun
        cases h
        exact .started hpc htodo hrun
  | lockOld call thread old =>
    simp only [hpc] at h
    split_ifs at h with hfree
    cases h
    exact .tookOld hpc hfree
  | heldOld call thread old =>
    simp only [hpc] at h
    split at h
    · cases h
    · rename_i f hf
      split_ifs at h with hid
      · cases h
        exact .self hpc hf hid
      · split at h
        · rename_i hno
          cases h
          exact .absent hpc hf hid (List.head?_eq_none_iff.mp hno)
        · rename_i new hnew
          cases h
          exact .found hpc hf hid (List.mem_of_mem_head? hnew)
  | lockNew call thread old new =>
    simp only [hpc] at h
    split_ifs at h with hfree
    cases h
    exact .tookNew hpc hfree
  | heldNew call thread old new =>
    simp only [hpc] at h
    split at h
    · rename_i a hsel
      cases h
      exact .busy hpc hsel
    · rename_i hsel
      cases h
      exact .began hpc hsel
  | countFailed call thread old new =>
    simp only [hpc] at h
    cases new with
    | none =>
      cases h
      exact .failedSelf hpc
    | some new =>
      cases h
      exact .failedBusy hpc
  | exchange thread old new rest =>
    simp only [hpc] at h
    cases rest with
    | nil =>
      cases h
      exact .ended hpc
    | cons assign rest =>
      cases h
      exact .assigned hpc
  | unlockNew old new ret =>
    simp only [hpc] at h
    cases h
    exact .freedNew hpc
  | unlockOld old ret =>
    simp only [hpc] at h
    cases h
    exact .freedOld hpc

/-- A step changes nothing of the other threads. -/
theorem Config.Taken.others {cf cf' : Config} {t : Int} (h : cf.Taken t cf') {u : Int} (hu : u ≠ t) :
    cf'.pc u = cf.pc u ∧ cf'.todo u = cf.todo u ∧ cf'.rets u = cf.rets u := by
  cases h <;>
    simp [Config.goto, Config.setTodo, Config.returns, Config.spinLock, Config.spinUnlock, Config.setMem, hu]

/-- A thread without calls stays outside. -/
theorem run_idle {cf₀ cf : Config} {tr : List Int} (h : Run (· = cf₀) Next cf tr) {u : Int}
    (hpc : cf₀.pc u = .idle) (htodo : cf₀.todo u = []) : cf.pc u = .idle ∧ cf.todo u = [] := by
  have hidle : (cf.pc u, cf.todo u) = (cf₀.pc u, cf₀.todo u) := by
    refine h.idle (fun cf u => (cf.pc u, cf.todo u)) (fun cf cf' hsame hstep => ?_) fun cf t cf' ht hstep => ?_
    · obtain ⟨hpc', htodo'⟩ := Prod.mk.inj hsame
      rw [Next, Config.next, hpc', hpc, htodo', htodo] at hstep
      cases hstep
    · obtain ⟨hpc', htodo', -⟩ := (Config.taken hstep).others ht
      rw [hpc', htodo']
  rw [hpc, htodo] at hidle
  exact Prod.mk.inj hidle

/-- A thread that takes no step stays where it is. -/
theorem run_pc {cf₀ cf : Config} {tr : List Int} (h : Run (· = cf₀) Next cf tr) {u : Int} (hu : u ∉ tr) :
    cf.pc u = cf₀.pc u := by
  refine h.invariant (P := fun cf tr => u ∉ tr → cf.pc u = cf₀.pc u) ?_ ?_ hu
  · intro cf he _
    rw [he]
  · intro cf tr t cf' _ ih hstep hu
    rw [List.mem_cons, not_or] at hu
    rw [((Config.taken hstep).others hu.1).1]
    exact ih hu.2

end LinuxFibers
