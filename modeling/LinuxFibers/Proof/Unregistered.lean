import LinuxFibers.Proof.Reach

/-!
# Callers without an entry

A forked child that uses an inherited descriptor, or a process whose entry went with another file it
closed, calls `fib_ioctl` while no entry carries its `tgid`. The walk of every command then visits
nothing, and the loop's variables keep what they were initialised with. The pointer that `fib_create`
returns was not initialised, and `FIB_CREATE` follows it.
-/

namespace LinuxFibers

open HeapTable

/-- No entry carries the caller's `tgid`. -/
def Unregistered (c : Task) (s : State) : Prop := ∀ b ∈ s.processi, b.val.id ≠ c.tgid

/-- The argument structure is readable and writable. -/
structure UserArg.Usable (arg : UserArg) : Prop where
  accessOk : arg.accessOk = true
  copyFrom : arg.copyFrom = true
  copyToFails : arg.copyToFails = none

/-! ### The operations of an unregistered caller -/

section operations

variable {c : Task} {s : State} (h : Unregistered c s)
include h

theorem fibConvert_unregistered (now : Timespec) : fibConvert c now s = .ok (s, -1) := by
  rw [fibConvert, forEachProcess_none h]
  rfl

theorem fibCreate_unregistered (func parameters stackPointer stackSize : BitVec 64) :
    fibCreate c func parameters stackPointer stackSize s = .ok (s, none) := by
  rw [fibCreate, forEachProcess_none h]
  rfl

theorem fibSwitchTo_unregistered (id : Int) (now : Timespec) : fibSwitchTo c id now s = .ok (s, -1) := by
  rw [fibSwitchTo, forEachProcess_none h]
  simp only [bind, Except.bind, Function.update_eq_self]

theorem onRunner_unregistered {σ : Type} (body : Fiber → σ → Except Fault (Fiber × σ)) (x : σ) :
    onRunner c body s x = .ok (s, x) := by
  rw [onRunner, forEachProcess_none h]
  rfl

end operations

/-! ### The dispatcher -/

theorem copyIn_usable {arg : UserArg} (h : arg.Usable) (s : State)
    (rest : FiberArguments → Except Fault IoctlResult) : copyIn arg s rest = rest arg.value := by
  rw [copyIn, if_pos h.accessOk, if_pos h.copyFrom]

theorem copyOut_usable {arg : UserArg} (h : arg.Usable) (s : State) (fa : FiberArguments) :
    copyOut arg s fa = .ok (s, 0, fa) := by
  rw [copyOut, h.copyToFails]

/-- How each command tells its caller that it failed; `ret` is the value returned and `out` the argument
structure afterwards. `FIB_FLS_SET` has nothing to tell. -/
def ReportsFailure (cmd : Nat) (arg : UserArg) (ret : Int) (out : FiberArguments) : Prop :=
  if cmd = cmdFlsAlloc then out.flsIndex = -1
  else if cmd = cmdFlsGet then out.flsValue = -1
  else if cmd = cmdFlsSet then True
  else if cmd = cmdFlsDealloc then ret = 0
  else if cmd = cmdConvert then ret = -1
  else if cmd = cmdCreate then ret < 0 ∧ out.fiberId = arg.value.fiberId
  else if cmd = cmdSwitchTo then ret = -1
  else ret = -einval

/-- `fib_ioctl` completes without following an unassigned pointer, leaves every entry as it was and
reports failure. -/
def Refuses (c : Task) (cmd : Nat) (arg : UserArg) (fa : FiberArguments) (now : Timespec) (s : State) :
    Prop :=
  ∃ s' ret out, fibIoctl c cmd arg fa now s = .ok (s', ret, out) ∧ s'.processi = s.processi ∧
    ReportsFailure cmd arg ret out

theorem fibIoctl_create_unregistered {c : Task} {s : State} (h : Unregistered c s) {arg : UserArg}
    (harg : arg.Usable) (fa : FiberArguments) (now : Timespec) :
    fibIoctl c cmdCreate arg fa now s = .error .uninitialised := by
  rw [fibIoctl, if_neg (by decide), if_neg (by decide), if_neg (by decide), if_neg (by decide),
    if_neg (by decide), if_pos rfl, copyIn_usable harg, fibCreate_unregistered h]
  rfl

/-- **Commands of a caller without an entry.** Whatever the state of the other processes and whatever the
argument structure holds, `fib_ioctl` refuses the command exactly when it is not `FIB_CREATE`. -/
theorem refuses_unregistered_iff {c : Task} {s : State} (h : Unregistered c s) (cmd : Nat) {arg : UserArg}
    (harg : arg.Usable) (fa : FiberArguments) (now : Timespec) :
    Refuses c cmd arg fa now s ↔ cmd ≠ cmdCreate := by
  constructor
  · rintro ⟨s', ret, out, hok, -⟩ rfl
    rw [fibIoctl_create_unregistered h harg] at hok
    cases hok
  · intro hcmd
    unfold Refuses fibIoctl ReportsFailure
    simp only [if_neg hcmd, copyIn_usable harg, copyOut_usable harg, flsAlloc, flsFree, flsGetValue,
      flsSetValue, onRunner_unregistered h, fibConvert_unregistered h, fibSwitchTo_unregistered h,
      bind, Except.bind]
    by_cases h1 : cmd = cmdFlsAlloc
    · simp only [if_pos h1]
      exact ⟨_, _, _, rfl, rfl, rfl⟩
    by_cases h2 : cmd = cmdFlsGet
    · simp only [if_neg h1, if_pos h2]
      exact ⟨_, _, _, rfl, rfl, rfl⟩
    by_cases h3 : cmd = cmdFlsSet
    · simp only [if_neg h1, if_neg h2, if_pos h3]
      exact ⟨_, _, _, rfl, rfl, trivial⟩
    by_cases h4 : cmd = cmdFlsDealloc
    · simp only [if_neg h1, if_neg h2, if_neg h3, if_pos h4]
      exact ⟨_, _, _, rfl, rfl, rfl⟩
    by_cases h5 : cmd = cmdConvert
    · simp only [if_neg h1, if_neg h2, if_neg h3, if_neg h4, if_pos h5]
      exact ⟨_, _, _, rfl, rfl, rfl⟩
    by_cases h6 : cmd = cmdSwitchTo
    · simp only [if_neg h1, if_neg h2, if_neg h3, if_neg h4, if_neg h5, if_pos h6]
      exact ⟨_, _, _, rfl, rfl, rfl⟩
    · simp only [if_neg h1, if_neg h2, if_neg h3, if_neg h4, if_neg h5, if_neg h6]
      exact ⟨_, _, _, rfl, rfl, rfl⟩

/-- A readable and writable argument structure, all zero. -/
def zeroArg : UserArg where
  value := ⟨0, 0, 0, 0, 0, 0, 0, 0, 0⟩
  accessOk := true
  copyFrom := true
  copyToFails := none

theorem zeroArg_usable : zeroArg.Usable := ⟨rfl, rfl, rfl⟩

/-- The child `2` of a process `1` that has opened the device is refused by `FIB_SWITCH_TO`. -/
theorem refuses_unregistered_child : ∃ s, Reached nFib s ∧ s.processi ≠ [] ∧ Unregistered ⟨2, 2⟩ s ∧
    (Refuses ⟨2, 2⟩ cmdSwitchTo zeroArg zeroArg.value ⟨0, 5⟩ s ↔ cmdSwitchTo ≠ cmdCreate) := by
  have hopen : step nFib (.fibOpen ⟨1, 1⟩) empty = .ok (fibOpen nFib ⟨1, 1⟩ empty, some 0) := rfl
  have hs := (reached_empty nFib).next hopen
  have hno : Unregistered ⟨2, 2⟩ (fibOpen nFib ⟨1, 1⟩ empty) := by
    simp [Unregistered, fibOpen, empty, newProcess]
  exact ⟨_, hs, List.cons_ne_nil _ _, hno, refuses_unregistered_iff hno _ zeroArg_usable _ _⟩

/-- `FIB_CREATE` by that child follows a pointer that was never assigned. -/
theorem create_unregistered : ∃ s, Reached nFib s ∧ Unregistered ⟨2, 2⟩ s ∧
    fibIoctl ⟨2, 2⟩ cmdCreate zeroArg zeroArg.value ⟨0, 5⟩ s = .error .uninitialised ∧
    ¬ Refuses ⟨2, 2⟩ cmdCreate zeroArg zeroArg.value ⟨0, 5⟩ s := by
  have hopen : step nFib (.fibOpen ⟨1, 1⟩) empty = .ok (fibOpen nFib ⟨1, 1⟩ empty, some 0) := rfl
  have hs := (reached_empty nFib).next hopen
  have hno : Unregistered ⟨2, 2⟩ (fibOpen nFib ⟨1, 1⟩ empty) := by
    simp [Unregistered, fibOpen, empty, newProcess]
  have hfault := fibIoctl_create_unregistered hno zeroArg_usable zeroArg.value ⟨0, 5⟩
  refine ⟨_, hs, hno, hfault, ?_⟩
  rintro ⟨s', ret, out, hok, -⟩
  rw [hfault] at hok
  cases hok

end LinuxFibers
