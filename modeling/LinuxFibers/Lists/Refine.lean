import LinuxFibers.Lists.Lock
import LinuxFibers.Lists.Operations

/-!
# The list driver is the machine

Every call of the list driver is a step of the machine on the same event, if it returns (`perform_refines`), and so every
run is a run of the machine (`lists_refine`). `lists_fault_iff` says which calls do not return.
-/

namespace LinuxFibers.Lists

open Outcomes Runs

section calls

variable {P : Printer} {s : State} {call : Call} {stop : Stop}

theorem yields_out {α : Type} {x : Except Stop (State × α)} {g : α → Option Int}
    (h : Yields (Faults P s call) (fun r => Does s call r.1 (g r.2)) x) :
    Yields (Faults P s call) (fun r => Does s call r.1 r.2) (do let (s, a) ← x; .ok (s, g a)) := by
  rcases x with e | ⟨s', a⟩
  · exact h
  · exact h

/-- One call: it is a step of the machine, or it does not return for one of the reasons listed. -/
theorem perform_refines (hs : s.Sound) (hcaller : ∀ c ∈ call.caller, c.pid ≠ 0) :
    Yields (Faults P s call) (fun r => Does s call r.1 r.2) (perform P call s) := by
  cases call with
  | driver op =>
    cases op with
    | fibOpen c => exact yields_out (g := some) (fibOpen_refines hs)
    | fibConvert c now => exact yields_out (g := some) (fibConvert_refines hs (hcaller c rfl) now)
    | fibCreate c func parameters stackPointer stackSize =>
      exact yields_out (fibCreate_refines hs func parameters stackPointer stackSize)
    | fibSwitchTo c id now => exact yields_out (g := some) (fibSwitchTo_refines hs (hcaller c rfl) id now)
    | flsAlloc c index => exact yields_out (g := some) (flsAlloc_refines hs (hcaller c rfl) index)
    | flsFree c index =>
      exact yields_out (g := fun ret : Bool => some (if ret then 1 else 0)) (flsFree_refines hs (hcaller c rfl) index)
    | flsGetValue c pos => exact yields_out (g := some) (flsGetValue_refines hs (hcaller c rfl) pos)
    | flsSetValue c pos val =>
      exact yields_out (g := fun _ => none) (flsSetValue_refines hs (hcaller c rfl) pos val)
    | myread name tgid fibId tmpPid len off copied =>
      exact yields_out (g := fun reply : Reader.Reply Char => some reply.ret)
        (myread_refines hs name tgid fibId tmpPid len off copied)
  | fibRelease c => exact yields_out (g := some) (fibRelease_refines hs)
  | preHandlerExit c => exact yields_out (g := some) (preHandlerExit_refines hs (hcaller c rfl))
  | user c cpu => exact ⟨hs, .user⟩

/-! ### What stops a call -/

theorem perform_locked (hlocked : s.lockListaProcessi = true) (hcall : call.Locks) :
    perform P call s = .error .spins := by
  cases call with
  | driver op => exact step_held hlocked op
  | fibRelease c =>
    rw [perform, fibRelease, spinLock, hlocked]
    rfl
  | preHandlerExit c => cases hcall
  | user c cpu => cases hcall

theorem firstClear_full {f : Fiber} {bitmap : Fin flsSize → BitVec 64} (hb : f.bitmapFls = some bitmap)
    (hfull : ∀ k, k ∈ f.storage.live) : firstClear bitmap = none :=
  List.find?_eq_none.mpr fun k _ hk => (mem_live hb).mp (hfull k) (of_decide_eq_true hk)

/-- Each of the reasons stops the call. -/
theorem Faults.perform_eq (hs : s.Sound) (hcaller : ∀ c ∈ call.caller, c.pid ≠ 0) (h : Faults P s call stop) :
    perform P call s = .error stop := by
  cases h with
  | locked hlocked hcall => exact perform_locked hlocked hcall
  | @fibRelease c hfree hp =>
    have hp' : State.findProcesso { s with lockListaProcessi := true } c.tgid = none := hp
    rw [perform, Lists.fibRelease, spinLock_free hfree]
    simp only [bind, Except.bind, hp', deref]
  | @fibConvert c now i p hfree hp hno hmax =>
    have hp' : State.findProcesso { s with lockListaProcessi := true } c.tgid = some (i, p) := hp
    have hcreate := doFibCreate_eq (c := c) (s.cpu c) (s.cpu c).regs.ip 0 1 0 (sound_of_find hs hp)
    rw [if_neg (not_lt.mpr hmax)] at hcreate
    rw [perform, step, Lists.fibConvert, spinLock_free hfree]
    simp only [bind, Except.bind, hp', hno, hcreate]
  | @fibCreate c func parameters stackPointer stackSize i p hfree hp hmax =>
    have hp' : State.findProcesso { s with lockListaProcessi := true } c.tgid = some (i, p) := hp
    have hcreate := doFibCreate_eq (c := c) (s.cpu c) func parameters stackPointer stackSize (sound_of_find hs hp)
    rw [if_neg (not_lt.mpr hmax)] at hcreate
    rw [perform, step, Lists.fibCreate, spinLock_free hfree]
    simp only [bind, Except.bind, hp', hcreate]
  | @entry c func parameters stackPointer stackSize i p hfree hp hnext hroom =>
    have hp' : State.findProcesso { s with lockListaProcessi := true } c.tgid = some (i, p) := hp
    have hsound := sound_of_find hs hp
    have hcreate := doFibCreate_eq (c := c) (s.cpu c) func parameters stackPointer stackSize hsound
    rw [if_pos hnext] at hcreate
    rw [perform, step, Lists.fibCreate, spinLock_free hfree]
    simp only [bind, Except.bind, hp', hcreate, newNode, entryName, List.length_cons]
    by_cases hname : (Printer.decimal (P.int (p.listaFiber.length + 1))).length + 1 < nameSize
    · have hfull : p.fiberStuff.lenFiberStuff = nFib := hroom.resolve_left (not_le.mpr hname)
      rw [if_pos hname]
      simp only [storeEntry, hfull, hsound.room, lt_irrefl, if_false]
    · rw [if_neg hname]
  | @flsAlloc c index i j p n f hfree hp hj hf hfull hindex hsize =>
    have hp' : State.findProcesso { s with lockListaProcessi := true } c.tgid = some (i, p) := hp
    have hsound := sound_of_find hs hp
    obtain ⟨hn, -, hrunning, -⟩ := findRunner_some hsound hj (hcaller c rfl)
    obtain ⟨f', hf', -, hbitmap⟩ := hsound.nodes.whole n hn
    obtain rfl := Option.some.inj (hf.symm.trans hf')
    obtain ⟨bitmap, hb⟩ := Option.ne_none_iff_exists'.mp hbitmap
    have hfound : foundIndex bitmap index = index := foundIndex_none (firstClear_full hb hfull)
    rw [perform, step, Lists.flsAlloc, spinLock_free hfree]
    simp only [bind, Except.bind, hp', hj, hrunning, hf, deref, hb, hfound, if_neg hsize, writeAt_out hindex]
    rfl
  | @myread name tgid fibId tmpPid len off copied i j p n f hfree hp hj hf hlong =>
    have hp' : State.findProcesso { s with lockListaProcessi := true } (pidOfName tgid tmpPid) = some (i, p) := hp
    rw [perform, step, Lists.myread, spinLock_free hfree]
    simp only [bind, Except.bind, hp', hj, hf, deref, sprintf, if_neg (not_lt.mpr hlong)]

end calls

/-! ### Runs -/

section run

variable {P : Printer} {s : State} {tr : List Event}

theorem machine_start (hs : Init s) : s.Sound ∧ Machine.Start s.machine := by
  obtain ⟨hempty, hfree⟩ := hs
  refine ⟨fun p hp => ?_, fun tgid => ?_, hfree⟩
  · rw [hempty] at hp
    cases hp
  · show (s.listaProcessi.filter fun p => p.id = tgid).map FiberProcessi.fibers = []
    rw [hempty]
    rfl

/-- **The list driver is the machine.** Whatever calls its processes make, one at a time, in whatever order, the lists
stay sound (the ids of a process count down to 1, every fiber has its arrays, no thread runs two of them), and what the
driver does and returns is what the machine does and returns. -/
theorem lists_refine (hrun : Run Init (Performs P) s tr) : s.Sound ∧ Run Machine.Start Machine.Step s.machine tr := by
  induction hrun with
  | start hs =>
    obtain ⟨hsound, hstart⟩ := machine_start hs
    exact ⟨hsound, .start hstart⟩
  | @step s s' tr e _ hstep ih =>
    obtain ⟨hsound, hmachine⟩ := ih
    obtain ⟨hperform, hcaller⟩ := hstep
    obtain ⟨hsound', hmove⟩ := (perform_refines hsound hcaller).of_ok hperform
    exact ⟨hsound', hmachine.step hmove⟩

/-- Process 1 opens the device, its thread becomes a fiber, and process 1 closes the device. -/
theorem run_released : ∃ s, Run Init (Performs ⟨fun _ => [], BitVec.ofInt 64⟩) s
    [⟨.fibRelease ⟨1, 1⟩, some 0⟩, ⟨.driver (.fibConvert ⟨1, 1⟩ ⟨0, 5⟩), some 1⟩, ⟨.driver (.fibOpen ⟨1, 1⟩), some 0⟩] := by
  have hone : ∀ c ∈ some (⟨1, 1⟩ : Task), c.pid ≠ 0 := by
    rintro c ⟨⟩
    decide
  have hstart : Init { listaProcessi := [], lockListaProcessi := false, cpu := fun _ => {} } := ⟨rfl, rfl⟩
  have hopen : Run Init (Performs ⟨fun _ => [], BitVec.ofInt 64⟩) _ [_] :=
    (Run.start hstart).step (⟨rfl, hone⟩ : Performs _ _ ⟨.driver (.fibOpen ⟨1, 1⟩), some 0⟩ _)
  have hconvert := hopen.step (⟨rfl, hone⟩ : Performs _ _ ⟨.driver (.fibConvert ⟨1, 1⟩ ⟨0, 5⟩), some 1⟩ _)
  exact ⟨_, hconvert.step (⟨rfl, hone⟩ : Performs _ _ ⟨.fibRelease ⟨1, 1⟩, some 0⟩ _)⟩

theorem lists_refine_released : ∃ s tr, tr.length = 3 ∧ State.Sound s ∧ Run Machine.Start Machine.Step s.machine tr := by
  obtain ⟨s, hrun⟩ := run_released
  exact ⟨s, _, rfl, lists_refine hrun⟩

/-- **What stops a call.** In every state that the driver reaches a call does not return exactly for the reasons listed:
the lock was kept, nothing is open to release, there is no next id, the name or the text does not fit, the directory is
full, or every index is handed out and the variable holds none. No walk ends in a missing fiber or a missing array. -/
theorem lists_fault_iff (hrun : Run Init (Performs P) s tr) {call : Call} (hcaller : ∀ c ∈ call.caller, c.pid ≠ 0)
    {stop : Stop} : perform P call s = .error stop ↔ Faults P s call stop := by
  obtain ⟨hsound, -⟩ := lists_refine hrun
  exact ⟨(perform_refines hsound hcaller).of_error, Faults.perform_eq hsound hcaller⟩

/-- Process 1 opens the device, its thread becomes a fiber and asks for the value at an index past the end, which keeps the
lock: process 2 never opens the device. -/
theorem lists_fault_iff_locked : ∃ s tr, Run Init (Performs ⟨fun _ => [], BitVec.ofInt 64⟩) s tr ∧
    tr.map Event.out = [some (-1), some 1, some 0] ∧
      perform ⟨fun _ => [], BitVec.ofInt 64⟩ (.driver (.fibOpen ⟨2, 2⟩)) s = .error .spins := by
  have hone : ∀ c ∈ some (⟨1, 1⟩ : Task), c.pid ≠ 0 := by
    rintro c ⟨⟩
    decide
  have htwo : ∀ c ∈ some (⟨2, 2⟩ : Task), c.pid ≠ 0 := by
    rintro c ⟨⟩
    decide
  have hstart : Init { listaProcessi := [], lockListaProcessi := false, cpu := fun _ => {} } := ⟨rfl, rfl⟩
  have hopen : Run Init (Performs ⟨fun _ => [], BitVec.ofInt 64⟩) _ [_] :=
    (Run.start hstart).step (⟨rfl, hone⟩ : Performs _ _ ⟨.driver (.fibOpen ⟨1, 1⟩), some 0⟩ _)
  have hconvert := hopen.step (⟨rfl, hone⟩ : Performs _ _ ⟨.driver (.fibConvert ⟨1, 1⟩ ⟨0, 5⟩), some 1⟩ _)
  have hkept := hconvert.step (⟨rfl, hone⟩ : Performs _ _ ⟨.driver (.flsGetValue ⟨1, 1⟩ flsSize), some (-1)⟩ _)
  exact ⟨_, _, hkept, rfl, (lists_fault_iff hkept (by exact htwo)).mpr (.locked rfl trivial)⟩

end run

end LinuxFibers.Lists
