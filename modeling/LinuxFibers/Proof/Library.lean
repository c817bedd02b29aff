import LinuxFibers.Driver.Interface
import LinuxFibers.Proof.Commands
import LinuxFibers.Proof.Faults
import LinuxFibers.Proof.Refine

/-!
# What a program sees of the driver

A function of the library fills in a structure, and the dispatcher takes it apart and puts the result back. Between them
nothing is lost: each function is the operation of the driver that it stands for, with the same result (`perform_step`).
So for a program that uses the library the machine is what it calls, and a call does not return where the driver does not,
or where the dispatcher reads a pointer that `fib_create` has not assigned (`library_refines`).
-/

namespace LinuxFibers

open HeapTable Runs

namespace Library

/-! ### The functions one by one -/

section functions

variable {c : Task} {fa : FiberArguments} {now : Timespec} {s s' : State}

/-- The structure is read. -/
theorem copyIn_onStack (param : FiberArguments) (rest : FiberArguments → Except Fault IoctlResult) :
    copyIn (onStack param) s rest = rest param := rfl

theorem fibFlsAlloc_eq : fibFlsAlloc c fa s = flsAlloc c s := by
  rw [fibFlsAlloc, ioctl, fibIoctl_flsAlloc]
  cases flsAlloc c s <;> rfl

theorem fibFlsGet_eq (pos : Int) : fibFlsGet c pos fa s = flsGetValue c pos s := by
  rw [fibFlsGet, ioctl, fibIoctl_flsGet, copyIn_onStack]
  cases flsGetValue c pos s <;> rfl

theorem fibFlsSet_eq (pos val : Int) : fibFlsSet c pos val fa s = flsSetValue c pos val s := by
  rw [fibFlsSet, ioctl, fibIoctl, if_neg (by decide), if_neg (by decide), if_pos rfl, copyIn_onStack]
  cases flsSetValue c pos val s <;> rfl

theorem fibFlsDealloc_eq (index : Int) : fibFlsDealloc c index fa s = flsFree c index s := by
  rw [fibFlsDealloc, ioctl, fibIoctl, if_neg (by decide), if_neg (by decide), if_neg (by decide), if_pos rfl,
    copyIn_onStack]
  rcases flsFree c index s with e | ⟨s₁, _ | _⟩
  · rfl
  · rfl
  · rfl

/-- What is no error number passes `ioctl`, and so does -1. -/
theorem ioctlRet_eq {ret : Int} (hlow : -1 ≤ ret) (hhigh : ret ≤ pidMax) : ioctlRet ret = ret := by
  unfold pidMax at hhigh
  unfold ioctlRet
  split_ifs with h
  · omega
  · exact Int.bmod_eq_of_le (by omega) (by omega)

end functions

/-! ### Calls -/

section calls

variable {nFib : Nat} {s s' : State} {call : Call} {out : Option Int} {fa : FiberArguments}

/-- A mapped result is a result. -/
theorem map_eq_ok {ε α β : Type} {x : Except ε α} {f : α → β} {b : β} (h : x.map f = .ok b) :
    ∃ a, x = .ok a ∧ f a = b := by
  cases x with
  | error e => cases h
  | ok a => exact ⟨a, rfl, Except.ok.inj h⟩

theorem fibConvert_ok {c : Task} {now : Timespec} {ret : Int} (h : Reached nFib s)
    (hok : fibConvert c now fa s = .ok (s', ret)) : LinuxFibers.fibConvert c now s = .ok (s', ret) := by
  rw [fibConvert, ioctl, fibIoctl, if_neg (by decide), if_neg (by decide), if_neg (by decide), if_neg (by decide),
    if_pos rfl] at hok
  obtain ⟨r, hr, hret⟩ := map_eq_ok hok
  obtain ⟨r, hioctl, rfl⟩ := map_eq_ok hr
  obtain ⟨⟨s₁, ret₁⟩, hrun, hvalue⟩ := bind_eq_ok.mp hioctl
  obtain rfl := Except.ok.inj hvalue
  obtain ⟨rfl, rfl⟩ := Prod.mk.inj hret
  obtain ⟨hlow, hhigh⟩ := fibConvert_bounds h hrun
  rwa [ioctlRet_eq hlow hhigh]

theorem fibSwitchTo_ok {c : Task} {id : Int} {now : Timespec} {ret : Int} (h : Reached nFib s)
    (hok : fibSwitchTo c id now fa s = .ok (s', ret)) : LinuxFibers.fibSwitchTo c id now s = .ok (s', ret) := by
  rw [fibSwitchTo, ioctl, fibIoctl, if_neg (by decide), if_neg (by decide), if_neg (by decide), if_neg (by decide),
    if_neg (by decide), if_neg (by decide), if_pos rfl, copyIn_onStack] at hok
  obtain ⟨r, hr, hret⟩ := map_eq_ok hok
  obtain ⟨r, hioctl, rfl⟩ := map_eq_ok hr
  obtain ⟨⟨s₁, ret₁⟩, hrun, hvalue⟩ := bind_eq_ok.mp hioctl
  obtain rfl := Except.ok.inj hvalue
  obtain ⟨rfl, rfl⟩ := Prod.mk.inj hret
  obtain ⟨hlow, hhigh⟩ := fibSwitchTo_bounds h hrun
  rwa [ioctlRet_eq hlow (hhigh.trans (by decide))]

/-- The creation of a fiber by a caller for whom the driver can assign its pointer. -/
theorem fibCreateFiber_ok {c : Task} {func parameters stackSize block : BitVec 64} {param : FiberArguments} {id : Int}
    (hparam : param.startFunctionAddress = func ∧ param.startFunctionParameters = parameters ∧
      param.stackPointer = block ∧ param.stackSize = stackSize)
    (hok : ((ioctl c cmdCreate param fa ⟨0, 0⟩ s).map fun r => (r.1, r.2.2.fiberId)) = .ok (s', id)) :
    ∃ b, LinuxFibers.fibCreate c func parameters block stackSize s = .ok (s', some b) ∧ b.val.id = id := by
  obtain ⟨rfl, rfl, rfl, rfl⟩ := hparam
  rw [ioctl, fibIoctl_create, copyIn_onStack] at hok
  obtain ⟨r, hr, hid⟩ := map_eq_ok hok
  obtain ⟨r, hioctl, rfl⟩ := map_eq_ok hr
  obtain ⟨⟨s₁, fiber⟩, hrun, hvalue⟩ := bind_eq_ok.mp hioctl
  cases fiber with
  | none => cases hvalue
  | some b =>
    obtain rfl := Except.ok.inj hvalue
    obtain ⟨rfl, rfl⟩ := Prod.mk.inj hid
    exact ⟨b, hrun, rfl⟩

/-- **One call.** It is the operation of the driver it stands for, with the same result, or, where it does not come to
the driver, it returns -1 and nothing has changed. -/
theorem perform_step (h : Reached nFib s) (hok : perform nFib fa call s = .ok (s', out)) :
    (call.op = none ∧ s' = s ∧ out = some (-1)) ∨ ∃ op, call.op = some op ∧ step nFib op s = .ok (s', out) := by
  cases call with
  | fiberInit c => exact .inr ⟨_, rfl, hok⟩
  | closeFiberlib c => exact .inr ⟨_, rfl, hok⟩
  | user c cpu => exact .inr ⟨_, rfl, hok⟩
  | fibFlsAlloc c =>
    rw [perform, fibFlsAlloc_eq] at hok
    obtain ⟨⟨s₁, index⟩, hrun, hok⟩ := map_eq_ok hok
    refine .inr ⟨_, rfl, ?_⟩
    rw [step, hrun, ← hok]
    rfl
  | fibFlsDealloc c index =>
    rw [perform, fibFlsDealloc_eq] at hok
    obtain ⟨⟨s₁, ret⟩, hrun, hok⟩ := map_eq_ok hok
    refine .inr ⟨_, rfl, ?_⟩
    rw [step, hrun, ← hok]
    rfl
  | fibFlsSet c pos val =>
    rw [perform, fibFlsSet_eq] at hok
    obtain ⟨⟨s₁, _⟩, hrun, hok⟩ := map_eq_ok hok
    refine .inr ⟨_, rfl, ?_⟩
    rw [step, hrun, ← hok]
    rfl
  | fibFlsGet c pos =>
    rw [perform, fibFlsGet_eq] at hok
    obtain ⟨⟨s₁, ret⟩, hrun, hok⟩ := map_eq_ok hok
    refine .inr ⟨_, rfl, ?_⟩
    rw [step, hrun, ← hok]
    rfl
  | fibConvert c now =>
    obtain ⟨⟨s₁, ret⟩, hrun, hok⟩ := map_eq_ok hok
    refine .inr ⟨_, rfl, ?_⟩
    rw [step, fibConvert_ok h hrun, ← hok]
    rfl
  | fibSwitchTo c id now =>
    obtain ⟨⟨s₁, ret⟩, hrun, hok⟩ := map_eq_ok hok
    refine .inr ⟨_, rfl, ?_⟩
    rw [step, fibSwitchTo_ok h hrun, ← hok]
    rfl
  | fibCreate c func parameters stackSize memalign =>
    obtain ⟨⟨s₁, id⟩, hrun, hout⟩ := map_eq_ok hok
    unfold fibCreateFiber fibCreate at hrun
    by_cases hzero : stackSize = 0
    · rw [if_pos hzero] at hrun
      obtain ⟨rfl, rfl⟩ := Prod.mk.inj (Except.ok.inj hrun)
      obtain ⟨rfl, rfl⟩ := Prod.mk.inj hout
      exact .inl ⟨if_pos hzero, rfl, rfl⟩
    · rw [if_neg hzero] at hrun
      cases memalign with
      | none =>
        obtain ⟨rfl, rfl⟩ := Prod.mk.inj (Except.ok.inj hrun)
        obtain ⟨rfl, rfl⟩ := Prod.mk.inj hout
        exact .inl ⟨if_neg hzero, rfl, rfl⟩
      | some block =>
        obtain ⟨b, hcreate, hid⟩ := fibCreateFiber_ok ⟨rfl, rfl, rfl, rfl⟩ hrun
        obtain ⟨rfl, rfl⟩ := Prod.mk.inj hout
        refine .inr ⟨.fibCreate c func parameters block stackSize, if_neg hzero, ?_⟩
        rw [step, hcreate, ← hid]
        rfl

/-- A creation in a process that has not opened the device. -/
def Call.Unopened (call : Call) (s : State) : Prop :=
  ∃ c func parameters stackPointer stackSize,
    call.op = some (.fibCreate c func parameters stackPointer stackSize) ∧ Unregistered c s

theorem map_eq_error {ε α β : Type} {x : Except ε α} {f : α → β} {e : ε} : x.map f = .error e ↔ x = .error e := by
  cases x <;> simp [Except.map]

theorem fibConvert_error (c : Task) (now : Timespec) {e : Fault} :
    fibConvert c now fa s = .error e ↔ LinuxFibers.fibConvert c now s = .error e := by
  rw [fibConvert, ioctl, fibIoctl, if_neg (by decide), if_neg (by decide), if_neg (by decide), if_neg (by decide),
    if_pos rfl, map_eq_error, map_eq_error, bind_ok_eq_error fun r => ⟨_, rfl⟩]

theorem fibSwitchTo_error (c : Task) (id : Int) (now : Timespec) {e : Fault} :
    fibSwitchTo c id now fa s = .error e ↔ LinuxFibers.fibSwitchTo c id now s = .error e := by
  rw [fibSwitchTo, ioctl, fibIoctl, if_neg (by decide), if_neg (by decide), if_neg (by decide), if_neg (by decide),
    if_neg (by decide), if_neg (by decide), if_pos rfl, copyIn_onStack, map_eq_error, map_eq_error,
    bind_ok_eq_error fun r => ⟨_, rfl⟩]

/-- The dispatcher's creation fails where the driver's does, and where that assigns no pointer. -/
theorem ioctlCreate_error {c : Task} {func parameters stackPointer stackSize : BitVec 64} {param : FiberArguments}
    {e : Fault} (hparam : param.startFunctionAddress = func ∧ param.startFunctionParameters = parameters ∧
      param.stackPointer = stackPointer ∧ param.stackSize = stackSize) :
    ioctl c cmdCreate param fa ⟨0, 0⟩ s = .error e ↔
      LinuxFibers.fibCreate c func parameters stackPointer stackSize s = .error e ∨
        Unregistered c s ∧ e = .uninitialised := by
  obtain ⟨rfl, rfl, rfl, rfl⟩ := hparam
  rw [ioctl, fibIoctl_create, copyIn_onStack, map_eq_error, bind_eq_error]
  refine or_congr_right ?_
  constructor
  · rintro ⟨⟨s₁, fiber⟩, hrun, herror⟩
    cases fiber with
    | none =>
      refine ⟨?_, (Except.error.inj herror).symm⟩
      by_contra hreg
      exact fibCreate_assigns hreg hrun rfl
    | some b => cases herror
  · rintro ⟨hno, rfl⟩
    exact ⟨_, fibCreate_unregistered hno _ _ _ _, rfl⟩

theorem create_op {c : Task} {func parameters stackSize : BitVec 64} {memalign : Option (BitVec 64)} {op : Op}
    (hop : (Call.fibCreate c func parameters stackSize memalign).op = some op) :
    ∃ block, op = .fibCreate c func parameters block stackSize := by
  rw [Call.op] at hop
  split_ifs at hop
  obtain ⟨block, -, rfl⟩ := Option.map_eq_some_iff.mp hop
  exact ⟨block, rfl⟩

/-- A call other than a creation fails where its operation does. -/
theorem perform_error_of_op {op : Op} {e : Fault} (hop : call.op = some op)
    (hcreate : ∀ c func parameters stackPointer stackSize, op ≠ .fibCreate c func parameters stackPointer stackSize) :
    perform nFib fa call s = .error e ↔ step nFib op s = .error e := by
  cases call with
  | fiberInit | closeFiberlib | user =>
    cases hop
    exact Iff.rfl
  | fibFlsAlloc c =>
    cases hop
    rw [perform, fibFlsAlloc_eq, map_eq_error, step, bind_ok_eq_error fun r => ⟨_, rfl⟩]
  | fibFlsDealloc c index =>
    cases hop
    rw [perform, fibFlsDealloc_eq, map_eq_error, step, bind_ok_eq_error fun r => ⟨_, rfl⟩]
  | fibFlsSet c pos val =>
    cases hop
    rw [perform, fibFlsSet_eq, map_eq_error, step, bind_ok_eq_error fun r => ⟨_, rfl⟩]
  | fibFlsGet c pos =>
    cases hop
    rw [perform, fibFlsGet_eq, map_eq_error, step, bind_ok_eq_error fun r => ⟨_, rfl⟩]
  | fibConvert c now =>
    cases hop
    rw [perform, map_eq_error, fibConvert_error, step, bind_ok_eq_error fun r => ⟨_, rfl⟩]
  | fibSwitchTo c id now =>
    cases hop
    rw [perform, map_eq_error, fibSwitchTo_error, step, bind_ok_eq_error fun r => ⟨_, rfl⟩]
  | fibCreate c func parameters stackSize memalign =>
    obtain ⟨block, rfl⟩ := create_op hop
    exact absurd rfl (hcreate _ _ _ _ _)

/-- A creation fails where there is a stack and the dispatcher's creation fails. -/
theorem fibCreateFiber_error {c : Task} {func parameters stackSize : BitVec 64} {memalign : Option (BitVec 64)} {e : Fault} :
    fibCreateFiber c func parameters stackSize memalign fa s = .error e ↔ ∃ block,
      (Call.fibCreate c func parameters stackSize memalign).op = some (.fibCreate c func parameters block stackSize) ∧
        (LinuxFibers.fibCreate c func parameters block stackSize s = .error e ∨ Unregistered c s ∧ e = .uninitialised) := by
  unfold fibCreateFiber fibCreate
  by_cases hzero : stackSize = 0
  · simp [hzero, Call.op]
  · cases memalign with
    | none => simp [Call.op]
    | some block =>
      have hop : (Call.fibCreate c func parameters stackSize (some block)).op =
          some (.fibCreate c func parameters block stackSize) := if_neg hzero
      simp only [if_neg hzero, Option.map_some, map_eq_error, hop]
      rw [ioctlCreate_error ⟨rfl, rfl, rfl, rfl⟩]
      simp

/-- What stops a call: what stops its operation, or a pointer that the driver has not assigned. -/
theorem perform_error {e : Fault} : perform nFib fa call s = .error e ↔
    (∃ op, call.op = some op ∧ step nFib op s = .error e) ∨ call.Unopened s ∧ e = .uninitialised := by
  by_cases hcall : ∃ c func parameters stackSize memalign, call = .fibCreate c func parameters stackSize memalign
  · obtain ⟨c, func, parameters, stackSize, memalign, rfl⟩ := hcall
    rw [perform, map_eq_error, fibCreateFiber_error]
    constructor
    · rintro ⟨block, hop, herror | ⟨hno, rfl⟩⟩
      · refine .inl ⟨_, hop, ?_⟩
        rw [step, bind_ok_eq_error fun r => ⟨_, rfl⟩]
        exact herror
      · exact .inr ⟨⟨c, func, parameters, block, stackSize, hop, hno⟩, rfl⟩
    · rintro (⟨op, hop, herror⟩ | ⟨⟨d, f, p, block, size, hop, hno⟩, rfl⟩)
      · obtain ⟨block, rfl⟩ := create_op hop
        rw [step, bind_ok_eq_error fun r => ⟨_, rfl⟩] at herror
        exact ⟨block, hop, .inl herror⟩
      · obtain ⟨block', heq⟩ := create_op hop
        cases heq
        exact ⟨_, hop, .inr ⟨hno, rfl⟩⟩
  · have hcreate : ∀ op, call.op = some op → ∀ c func parameters stackPointer stackSize,
        op ≠ .fibCreate c func parameters stackPointer stackSize := by
      rintro op hop c func parameters stackPointer stackSize rfl
      cases call with
      | fibCreate c func parameters stackSize memalign => exact hcall ⟨_, _, _, _, _, rfl⟩
      | _ => cases hop
    have hopened : ¬ call.Unopened s := by
      rintro ⟨c, func, parameters, stackPointer, stackSize, hop, -⟩
      exact hcreate _ hop _ _ _ _ _ rfl
    cases hop : call.op with
    | none =>
      cases call with
      | fibCreate c func parameters stackSize memalign => exact absurd ⟨_, _, _, _, _, rfl⟩ hcall
      | _ => cases hop
    | some op =>
      rw [perform_error_of_op hop (hcreate op hop)]
      simp [hopened]

end calls

/-! ### Programs -/

section run

variable {nFib : Nat} {s : State} {tr : List Event}

theorem op_caller {call : Call} {op : Op} (h : call.op = some op) : op.caller = call.caller := by
  cases call with
  | fibCreate c func parameters stackSize memalign =>
    obtain ⟨block, rfl⟩ := create_op h
    rfl
  | _ =>
    cases h
    rfl

/-- The calls of programs are calls of the driver. -/
theorem library_run (hrun : Run Init (Step nFib) s tr) :
    Run Init (LinuxFibers.Step nFib) s (tr.filterMap Event.visible) := by
  have hcalls : ∃ x, (Reached nFib s ∧ x = s) ∧ Run Init (LinuxFibers.Step nFib) x (tr.filterMap Event.visible) := by
    refine hrun.simulate_visible (R := fun s x => Reached nFib s ∧ x = s)
      (fun s hs => ⟨s, hs, Reachable.of_init hs, rfl⟩) ?_
    rintro s e s' x ⟨hreached, hx⟩ ⟨⟨fa, hok⟩, hcpu⟩
    subst hx
    obtain ⟨hnone, hsame, -⟩ | ⟨op, hop, hstep⟩ := perform_step hreached hok
    · rw [hsame]
      refine ⟨x, ⟨hreached, rfl⟩, .inl ⟨?_, rfl⟩⟩
      rw [Event.visible, hnone]
      rfl
    · refine ⟨s', ⟨hreached.next hstep, rfl⟩, .inr ⟨⟨op, e.cpu, e.out⟩, ?_, hstep, ?_⟩⟩
      · rw [Event.visible, hop]
        rfl
      · rw [op_caller hop]
        exact hcpu
  obtain ⟨x, ⟨-, rfl⟩, hcalls⟩ := hcalls
  exact hcalls

end run

end Library

end LinuxFibers
