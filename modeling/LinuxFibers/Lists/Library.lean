import LinuxFibers.Lists.Directory
import LinuxFibers.Lists.Interface
import LinuxFibers.Proof.Library

/-!
# What a program sees of the list driver

Each function of the library comes to one operation of the driver, with the same result (`perform_ok`), whatever the
fields that it leaves unassigned hold. So for programs the machine is what they call, as often as they open the device,
and `programs_refine` says which of their calls do not return: those of the driver, and a `fib_create` of a process that
has not opened the device, whose result the dispatcher reads through a pointer that was never assigned.
-/

namespace LinuxFibers.Lists.Library

open HeapTable Outcomes Runs
open LinuxFibers.Library (ioctlRet ioctlRet_eq map_eq_ok)

/-! ### The values that go through `ioctl` -/

section values

variable {P : Printer} {c : Task} {s : State}

/-- What is returned is no negative of an error number, and an `int`. -/
def Passes (x : Except Stop (State × Int)) : Prop :=
  Yields (fun _ => True) (fun r => -1 ≤ r.2 ∧ r.2 ≤ pidMax) x

theorem passes_minus (s : State) : Passes (.ok (s, -1)) := (by decide : (-1 : Int) ≤ -1 ∧ -1 ≤ pidMax)

theorem flsAlloc_passes (index : Int) : Passes (flsAlloc c index s) := by
  unfold flsAlloc
  refine (Yields.any _).bind fun s _ => ?_
  split
  · exact passes_minus _
  · split
    · exact passes_minus _
    · split
      · exact passes_minus _
      · refine (Yields.any _).bind fun f _ => ?_
        split
        · exact passes_minus _
        · next bitmap _ =>
          -- the search is not to be run
          generalize foundIndex bitmap index = k
          split
          · exact passes_minus _
          · unfold writeAt
            split
            · next hk =>
              have hsize : (flsSize : Int) = 4096 := rfl
              have hmax : pidMax = 2147483647 := rfl
              have hlow := hk.1
              have hhigh := hk.2
              exact (⟨by omega, by omega⟩ : -1 ≤ k ∧ k ≤ pidMax)
            · trivial

theorem fibConvert_passes (hs : s.Sound) (now : Timespec) : Passes (Lists.fibConvert c now s) := by
  have hzero : (-1 : Int) ≤ 0 ∧ 0 ≤ pidMax := by decide
  have hlock : Yields (fun _ => True) (fun t => t.listaProcessi = s.listaProcessi) (spinLock s) := by
    unfold spinLock
    split
    · trivial
    · rfl
  unfold Lists.fibConvert
  refine hlock.bind fun t ht => ?_
  have hsound : t.Sound := fun p hp => hs p (ht ▸ hp)
  split
  · exact hzero
  · next i p hp =>
    split
    · exact hzero
    · have hcreate := doFibCreate_eq (c := c) (t.cpu c) (t.cpu c).regs.ip 0 1 0 (sound_of_find hsound hp)
      by_cases hmax : (p.listaFiber.length : Int) < pidMax
      · rw [if_pos hmax] at hcreate
        dsimp only
        rw [hcreate]
        exact (⟨by omega, by omega⟩ : -1 ≤ (p.listaFiber.length : Int) + 1 ∧ (p.listaFiber.length : Int) + 1 ≤ pidMax)
      · rw [if_neg hmax] at hcreate
        dsimp only
        rw [hcreate]
        trivial

theorem fibSwitchTo_passes (id : Int) (now : Timespec) : Passes (Lists.fibSwitchTo c id now s) := by
  unfold Lists.fibSwitchTo
  refine (Yields.any _).bind fun s _ => ?_
  split
  · exact passes_minus _
  · split
    · exact passes_minus _
    · split
      · exact passes_minus _
      · split
        · exact (Yields.any _).bind fun _ _ => passes_minus _
        · refine (Yields.any _).bind fun _ _ => (Yields.any _).bind fun _ _ => ?_
          exact (by decide : (-1 : Int) ≤ 0 ∧ 0 ≤ pidMax)

/-- `ioctl` gives the program what the driver returns. -/
theorem map_ioctlRet {x : Except Stop (State × Int)} (h : Passes x) : x.map (fun r => (r.1, ioctlRet r.2)) = x := by
  cases x with
  | error e => rfl
  | ok r =>
    obtain ⟨hlow, hhigh⟩ : -1 ≤ r.2 ∧ r.2 ≤ pidMax := h
    show Except.ok (r.1, ioctlRet r.2) = _
    rw [ioctlRet_eq hlow hhigh]

end values

/-! ### The functions one by one -/

section functions

variable {P : Printer} {g : Garbage} {c : Task} {s : State}

theorem fibFlsAlloc_eq (index : Int) : fibFlsAlloc P g c index s = flsAlloc c index s := by
  refine Eq.trans ?_ (map_ioctlRet (flsAlloc_passes index))
  rw [fibFlsAlloc, ioctl, fibIoctl, if_pos rfl]
  cases flsAlloc c index s <;> rfl

theorem fibFlsGet_eq (pos : Int) : fibFlsGet P g c pos s = flsGetValue c pos s := by
  rw [fibFlsGet, ioctl, fibIoctl, if_neg (by decide), if_pos (.inr rfl)]
  show Except.map _ (Except.map _ (flsGetValue c pos s >>= _)) = _
  cases flsGetValue c pos s <;> rfl

theorem fibFlsSet_eq (pos val : Int) : fibFlsSet P g c pos val s = flsSetValue c pos val s := by
  rw [fibFlsSet, ioctl, fibIoctl, if_neg (by decide), if_neg (by decide), if_pos rfl]
  show Except.map _ (Except.map _ (flsSetValue c pos val s >>= _)) = _
  cases flsSetValue c pos val s <;> rfl

theorem fibFlsDealloc_eq (index : Int) : fibFlsDealloc P g c index s = flsFree c index s := by
  rw [fibFlsDealloc, ioctl, fibIoctl, if_neg (by decide), if_neg (by decide), if_neg (by decide), if_pos rfl]
  show Except.map _ (Except.map _ (flsFree c index s >>= _)) = _
  rcases flsFree c index s with e | ⟨s₁, _ | _⟩
  · rfl
  · rfl
  · rfl

theorem fibConvert_eq (hs : s.Sound) (now : Timespec) : fibConvert P g c now s = Lists.fibConvert c now s := by
  refine Eq.trans ?_ (map_ioctlRet (fibConvert_passes hs now))
  rw [fibConvert, ioctl, fibIoctl, if_neg (by decide), if_neg (by decide), if_neg (by decide), if_neg (by decide),
    if_pos rfl]
  cases Lists.fibConvert c now s <;> rfl

/-- The lower half of the register is the id. -/
theorem fibSwitchTo_eq (id : BitVec 32) (now : Timespec) :
    fibSwitchTo P g c id now s = Lists.fibSwitchTo c id.toInt now s := by
  have hid : (g.high ++ id).truncate 32 = id := BitVec.setWidth_append_eq_right
  refine Eq.trans ?_ (map_ioctlRet (fibSwitchTo_passes id.toInt now))
  rw [fibSwitchTo, ioctl, fibIoctl, if_neg (by decide), if_neg (by decide), if_neg (by decide), if_neg (by decide),
    if_neg (by decide), if_neg (by decide), if_pos rfl, hid]
  cases Lists.fibSwitchTo c id.toInt now s <;> rfl

/-- What the dispatcher makes of what `fib_create` returns. -/
def created : Except Stop (State × Option ListaFiber) → Except Stop (State × Int)
  | .error stop => .error stop
  | .ok (_, none) => .error (.fault .uninitialised)
  | .ok (s, some elem) => .ok (s, elem.id)

theorem fibCreate_eq (func parameters stackSize malloc : BitVec 64) : fibCreate P g c func parameters stackSize malloc s =
    created (Lists.fibCreate P c func parameters malloc stackSize s) := by
  rw [fibCreate, ioctl, fibIoctl, if_neg (by decide), if_neg (by decide), if_neg (by decide), if_neg (by decide),
    if_neg (by decide), if_pos rfl]
  show Except.map _ (Except.map _ (Lists.fibCreate P c func parameters malloc stackSize s >>= _)) = _
  rcases Lists.fibCreate P c func parameters malloc stackSize s with stop | ⟨s₁, _ | elem⟩
  · rfl
  · rfl
  · rfl

end functions

/-! ### Calls -/

/-- A creation in a process that has not opened the device. -/
def Call.Unopened (s : State) : Call → Prop
  | .fibCreate c _ _ _ _ => s.lockListaProcessi = false ∧ s.findProcesso c.tgid = none
  | _ => False

section calls

variable {P : Printer} {g : Garbage} {s s' : State} {call : Call} {out : Option Int} {stop : Stop}

/-- Every call but a creation is the call of the driver. -/
theorem perform_eq (hs : s.Sound) (hcall : ∀ c func parameters stackSize malloc,
    call ≠ .fibCreate c func parameters stackSize malloc) : perform P g call s = Lists.perform P call.driver s := by
  cases call with
  | fiberInit c =>
    show Except.map _ (fibOpen c s) = fibOpen c s >>= _
    cases fibOpen c s <;> rfl
  | closeFiberlib c =>
    show Except.map _ (fibRelease c s) = fibRelease c s >>= _
    cases fibRelease c s <;> rfl
  | exit c =>
    show Except.map _ (preHandlerExit c s) = preHandlerExit c s >>= _
    cases preHandlerExit c s <;> rfl
  | user c cpu => rfl
  | fibFlsAlloc c index =>
    show Except.map _ (fibFlsAlloc P g c index s) = flsAlloc c index s >>= _
    rw [fibFlsAlloc_eq]
    cases flsAlloc c index s <;> rfl
  | fibFlsDealloc c index =>
    show Except.map _ (fibFlsDealloc P g c index s) = flsFree c index s >>= _
    rw [fibFlsDealloc_eq]
    cases flsFree c index s <;> rfl
  | fibFlsSet c pos val =>
    show Except.map _ (fibFlsSet P g c pos val s) = flsSetValue c pos val s >>= _
    rw [fibFlsSet_eq]
    cases flsSetValue c pos val s <;> rfl
  | fibFlsGet c pos =>
    show Except.map _ (fibFlsGet P g c pos s) = flsGetValue c pos s >>= _
    rw [fibFlsGet_eq]
    cases flsGetValue c pos s <;> rfl
  | fibConvert c now =>
    show Except.map _ (fibConvert P g c now s) = Lists.fibConvert c now s >>= _
    rw [fibConvert_eq hs]
    cases Lists.fibConvert c now s <;> rfl
  | fibSwitchTo c id now =>
    show Except.map _ (fibSwitchTo P g c id now s) = Lists.fibSwitchTo c id.toInt now s >>= _
    rw [fibSwitchTo_eq]
    cases Lists.fibSwitchTo c id.toInt now s <;> rfl
  | fibCreate c func parameters stackSize malloc => exact absurd rfl (hcall c func parameters stackSize malloc)

/-- **One call.** If it returns, it is the call of the driver, with the same result. -/
theorem perform_ok (hs : s.Sound) (hok : perform P g call s = .ok (s', out)) :
    Lists.perform P call.driver s = .ok (s', out) := by
  by_cases hcall : ∀ c func parameters stackSize malloc, call ≠ .fibCreate c func parameters stackSize malloc
  · rwa [← perform_eq hs hcall]
  · push Not at hcall
    obtain ⟨c, func, parameters, stackSize, malloc, rfl⟩ := hcall
    obtain ⟨⟨s₁, id⟩, hcreate, hok⟩ := map_eq_ok hok
    rw [fibCreate_eq] at hcreate
    show (Lists.fibCreate P c func parameters malloc stackSize s >>= _) = _
    rcases hx : Lists.fibCreate P c func parameters malloc stackSize s with stop | ⟨s₂, _ | elem⟩
    · rw [hx] at hcreate
      cases hcreate
    · rw [hx] at hcreate
      cases hcreate
    · rw [hx] at hcreate
      cases hcreate
      rw [← hok]
      rfl

/-- The driver's `fib_create` returns nothing to a process that has not opened the device, and to no other one. -/
theorem fibCreate_unopened (hs : s.Sound) (c : Task) (func parameters malloc stackSize : BitVec 64) :
    (∃ s', Lists.fibCreate P c func parameters malloc stackSize s = .ok (s', none)) ↔
      s.lockListaProcessi = false ∧ s.findProcesso c.tgid = none := by
  constructor
  · rintro ⟨s', hok⟩
    refine ⟨?_, ?_⟩
    · by_contra hlock
      rw [Lists.fibCreate, spinLock, if_pos (Bool.not_eq_false _ ▸ hlock)] at hok
      cases hok
    · obtain ⟨hp, -⟩ | ⟨i, p, elem, stuff, -, helem, -⟩ := fibCreate_lists hs hok
      · exact hp
      · cases helem
  · rintro ⟨hfree, hp⟩
    have hp' : State.findProcesso { s with lockListaProcessi := true } c.tgid = none := hp
    rw [Lists.fibCreate, spinLock_free hfree]
    simp only [bind, Except.bind, hp']
    exact ⟨_, rfl⟩

/-- What stops a call. -/
theorem perform_error (hs : s.Sound) : perform P g call s = .error stop ↔
    Lists.perform P call.driver s = .error stop ∨ call.Unopened s ∧ stop = .fault .uninitialised := by
  by_cases hcall : ∀ c func parameters stackSize malloc, call ≠ .fibCreate c func parameters stackSize malloc
  · have hopened : ¬ call.Unopened s := by
      cases call with
      | fibCreate c func parameters stackSize malloc => exact absurd rfl (hcall c func parameters stackSize malloc)
      | _ => exact id
    rw [perform_eq hs hcall]
    tauto
  · push Not at hcall
    obtain ⟨c, func, parameters, stackSize, malloc, rfl⟩ := hcall
    show (Except.map _ (fibCreate P g c func parameters stackSize malloc s)) = _ ↔
      (Lists.fibCreate P c func parameters malloc stackSize s >>= _) = _ ∨
        (s.lockListaProcessi = false ∧ s.findProcesso c.tgid = none) ∧ _
    rw [fibCreate_eq, ← fibCreate_unopened (P := P) hs c func parameters malloc stackSize]
    rcases Lists.fibCreate P c func parameters malloc stackSize s with e | ⟨s₁, _ | elem⟩
    · simp [created, Except.map, bind, Except.bind]
    · simp [created, Except.map, bind, Except.bind, eq_comm]
    · simp [created, Except.map, bind, Except.bind]

end calls

/-! ### Programs -/

section run

variable {P : Printer} {s : State} {tr : List Event}

/-- The calls of programs are calls of the driver. -/
theorem programs_run (hrun : Run Init (Step P) s tr) : Run Init (Performs P) s (tr.map Event.driver) := by
  induction hrun with
  | start hs => exact .start hs
  | @step s s' tr e _ hstep ih =>
    obtain ⟨⟨g, hok⟩, hcaller⟩ := hstep
    exact ih.step ⟨perform_ok (lists_refine ih).1 hok, hcaller⟩

def zeros : Garbage := ⟨LinuxFibers.Library.noArguments, 0, 0⟩

end run

end LinuxFibers.Lists.Library
