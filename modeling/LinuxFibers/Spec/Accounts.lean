import LinuxFibers.Spec.Machine

/-!
# The figures of a fiber

What the statistics of the fibers do as operations are called: a fiber counts its activations and failures,
is stamped when a thread takes it and charged when the thread leaves it. `Accounts.Step` tells the ways in
which a switch is refused apart, which `Machine.Step` does not; `Proof.Accounts` shows that the driver keeps
its figures in this way.
-/

namespace LinuxFibers

/-- `last_activation_time` after an activation at `now`. -/
def stampOf (now : Timespec) : BitVec 64 := BitVec.ofInt 64 now.tvNsec

structure Figures where
  correct : BitVec 64
  failed : BitVec 32
  exec : BitVec 64
  last : BitVec 64
  running : Bool

namespace Figures

/-- A fiber made by `fib_convert`. -/
def converted (now : Timespec) : Figures :=
  { correct := 1, failed := 0, exec := 0, last := stampOf now, running := true }

/-- A fiber made by `fib_create`. -/
def created : Figures := { correct := 0, failed := 0, exec := 0, last := 0, running := false }

def enter (F : Figures) (now : Timespec) : Figures :=
  { F with correct := F.correct + 1, last := stampOf now, running := true }

def leave (F : Figures) (now : Timespec) : Figures :=
  { F with exec := F.exec + (stampOf now - F.last), running := false }

def refuse (F : Figures) : Figures := { F with failed := F.failed + 1 }

end Figures

/-- The fiber each thread runs, by process and thread, and the figures of the fibers, by process and id. -/
structure Accounts where
  current : Int → Int → Option Int
  fiber : Int → Int → Option Figures

namespace Accounts

def setCurrent (a : Accounts) (c : Task) (id : Int) : Accounts :=
  { a with
    current := Function.update a.current c.tgid (Function.update (a.current c.tgid) c.pid (some id)) }

def setFiber (a : Accounts) (tgid id : Int) (F : Figures) : Accounts :=
  { a with fiber := Function.update a.fiber tgid (Function.update (a.fiber tgid) id (some F)) }

section set

variable {a : Accounts} {c : Task} {tgid t id i : Int} {F : Figures}

theorem setCurrent_current {pid : Int} :
    (a.setCurrent c id).current tgid pid = if c = ⟨tgid, pid⟩ then some id else a.current tgid pid := by
  by_cases ht : tgid = c.tgid
  · subst ht
    by_cases hp : pid = c.pid
    · simp [setCurrent, hp]
    · have hne : c ≠ ⟨c.tgid, pid⟩ := fun he => hp (congrArg Task.pid he).symm
      simp [setCurrent, hp, hne]
  · have hne : c ≠ ⟨tgid, pid⟩ := fun he => ht (congrArg Task.tgid he).symm
    simp [setCurrent, ht, hne]

theorem setFiber_fiber :
    (a.setFiber t i F).fiber tgid id = if t = tgid ∧ i = id then some F else a.fiber tgid id := by
  by_cases ht : tgid = t
  · subst ht
    by_cases hi : id = i
    · simp [setFiber, hi]
    · simp [setFiber, hi, Ne.symm hi]
  · simp [setFiber, ht, Ne.symm ht]

@[simp] theorem setCurrent_fiber : (a.setCurrent c id).fiber = a.fiber := rfl

end set

/-- No process has a thread or a fiber. -/
def Init (a : Accounts) : Prop := (∀ tgid pid, a.current tgid pid = none) ∧ ∀ tgid id, a.fiber tgid id = none

/-- An event that no figure reads: nothing was created, and no switch was asked for. -/
def Silent (e : Event) : Prop :=
  (∀ c now, e.op = .fibConvert c now → e.out = some (-1)) ∧
    (∀ c func parameters stackPointer stackSize,
      e.op = .fibCreate c func parameters stackPointer stackSize → e.out = none) ∧
    ∀ c id now, e.op ≠ .fibSwitchTo c id now

inductive Step : Accounts → Event → Accounts → Prop
  | silent {a : Accounts} {e : Event} (he : Silent e) : Step a e a
  | convert {a : Accounts} {c : Task} {cpu : Cpu} {now : Timespec} {id : Int}
      (hcur : a.current c.tgid c.pid = none) (hpos : 0 < id) (hnew : a.fiber c.tgid id = none) :
      Step a ⟨.fibConvert c now, cpu, some id⟩ ((a.setFiber c.tgid id (.converted now)).setCurrent c id)
  | create {a : Accounts} {c : Task} {cpu : Cpu} {func parameters stackPointer stackSize : BitVec 64} {id : Int}
      (hnew : a.fiber c.tgid id = none) :
      Step a ⟨.fibCreate c func parameters stackPointer stackSize, cpu, some id⟩ (a.setFiber c.tgid id .created)
  | switch {a : Accounts} {c : Task} {cpu : Cpu} {old id : Int} {now : Timespec} {F G : Figures}
      (hcur : a.current c.tgid c.pid = some old) (hne : old ≠ id) (hF : a.fiber c.tgid old = some F)
      (hrun : F.running = true) (hG : a.fiber c.tgid id = some G) (hfree : G.running = false) :
      Step a ⟨.fibSwitchTo c id now, cpu, some 0⟩
        (((a.setFiber c.tgid old (F.leave now)).setFiber c.tgid id (G.enter now)).setCurrent c id)
  | notConverted {a : Accounts} {c : Task} {cpu : Cpu} {id : Int} {now : Timespec}
      (hcur : a.current c.tgid c.pid = none) : Step a ⟨.fibSwitchTo c id now, cpu, some (-1)⟩ a
  | absent {a : Accounts} {c : Task} {cpu : Cpu} {id : Int} {now : Timespec} (hno : a.fiber c.tgid id = none) :
      Step a ⟨.fibSwitchTo c id now, cpu, some (-1)⟩ a
  | running {a : Accounts} {c : Task} {cpu : Cpu} {old id : Int} {now : Timespec} {F G : Figures}
      (hcur : a.current c.tgid c.pid = some old) (hF : a.fiber c.tgid old = some F)
      (hG : a.fiber c.tgid id = some G) (hrun : G.running = true) :
      Step a ⟨.fibSwitchTo c id now, cpu, some (-1)⟩ (a.setFiber c.tgid old F.refuse)

end Accounts

end LinuxFibers
