import LinuxFibers.Base.Local
import LinuxFibers.Conc.Locks
import LinuxFibers.Proof.Entry

/-!
# The cells of the shared memory

The fibers and thread nodes by their addresses, the registers of each thread, and the shape of the entry,
which no switch changes. An assignment of the exchange is local to the `window` of the switch: its two
fibers, the caller's node and the caller's registers.
-/

namespace LinuxFibers

open HeapTable LocalActions

/-- What a switch leaves as it is: the addresses and ids of the nodes, and the fields it does not use. -/
structure Shape where
  fibers : List (Nat × Int)
  threads : List (Nat × Int)
  listafiberStuff : Table FiberStuff
  lastFibId : Int
  id : Int

inductive Cell
  | fiber (a : Nat)
  | thread (a : Nat)
  | cpu (t : Int)
  | shape

@[reducible] def Cell.Val : Cell → Type
  | .fiber _ => Option Fiber
  | .thread _ => Option Thread
  | .cpu _ => Cpu
  | .shape => Shape

def Process.shape (p : Process) : Shape where
  fibers := p.listafiber.map fun b => (b.addr, b.val.id)
  threads := p.listathread.map fun b => (b.addr, b.val.id)
  listafiberStuff := p.listafiberStuff
  lastFibId := p.lastFibId
  id := p.id

def Shared.get (m : Shared) : (i : Cell) → i.Val
  | .fiber a => m.proc.listafiber.deref a
  | .thread a => m.proc.listathread.deref a
  | .cpu t => m.cpu t
  | .shape => m.proc.shape

/-- The cells that a switch by the thread `t` from `old` to `new` may touch. -/
def window (t : Int) (thread old new : Nat) : Set Cell :=
  {.fiber old, .fiber new, .thread thread, .cpu t}

section window

variable {t : Int} {thread old new : Nat}

theorem fiber_mem_window {a : Nat} : Cell.fiber a ∈ window t thread old new ↔ a = old ∨ a = new := by
  simp [window]

theorem thread_mem_window {a : Nat} : Cell.thread a ∈ window t thread old new ↔ a = thread := by
  simp [window]

theorem cpu_mem_window {u : Int} : Cell.cpu u ∈ window t thread old new ↔ u = t := by
  simp [window]

theorem shape_notMem_window : Cell.shape ∉ window t thread old new := by
  simp [window]

end window

/-! ### Local assignments -/

section assign

variable {t : Int} {thread old new : Nat}

/-- An assignment to one of the two fibers, of a value that depends on the target and the registers. -/
theorem isLocal_fiber {a : Nat} (ha : a = old ∨ a = new) (G : Option Fiber → Cpu → Fiber → Fiber)
    (hid : ∀ g cpu f, (G g cpu f).id = f.id) :
    IsLocal Shared.get (window t thread old new)
      (Shared.assign t fun y => (y.1.modFiber a (G (y.1.listafiber.deref new) y.2), y.2)) where
  frame m i hi := by
    cases i with
    | fiber b =>
      rw [fiber_mem_window] at hi
      have hb : b ≠ a := by
        rintro rfl
        exact hi ha
      show (Process.modFiber _ _ _).listafiber.deref b = _
      rw [Process.modFiber_listafiber, Table.deref_update_ne hb]
      rfl
    | thread b => rfl
    | cpu u =>
      show Function.update m.cpu t (m.cpu t) u = m.cpu u
      rw [Function.update_eq_self]
    | shape =>
      have hfibers := Table.map_update_addr (T := m.proc.listafiber) (a := a)
        (g := G (m.proc.listafiber.deref new) (m.cpu t)) Fiber.id (hid _ _)
      show Shape.mk _ _ _ _ _ = Shape.mk _ _ _ _ _
      rw [Shape.mk.injEq]
      exact ⟨hfibers, rfl, rfl, rfl, rfl⟩
  congr m m' h i hi := by
    have hfiber : ∀ b, b = old ∨ b = new → m.proc.listafiber.deref b = m'.proc.listafiber.deref b :=
      fun b hb => h (.fiber b) (fiber_mem_window.mpr hb)
    have hcpu : m.cpu t = m'.cpu t := h (.cpu t) (cpu_mem_window.mpr rfl)
    cases i with
    | fiber b =>
      show (Process.modFiber _ _ _).listafiber.deref b = (Process.modFiber _ _ _).listafiber.deref b
      rw [Process.modFiber_listafiber, Process.modFiber_listafiber]
      by_cases hb : b = a
      · subst hb
        rw [Table.deref_update_self, Table.deref_update_self, hfiber b ha, hfiber new (.inr rfl), hcpu]
      · rw [Table.deref_update_ne hb, Table.deref_update_ne hb]
        exact hfiber b (fiber_mem_window.mp hi)
    | thread b => exact h (.thread b) hi
    | cpu u =>
      show Function.update m.cpu t (m.cpu t) u = Function.update m'.cpu t (m'.cpu t) u
      rw [Function.update_eq_self, Function.update_eq_self]
      exact h (.cpu u) hi
    | shape => exact absurd hi shape_notMem_window

/-- An assignment to the caller's registers, of a value that depends on the target. -/
theorem isLocal_cpu (K : Option Fiber → Cpu → Cpu) :
    IsLocal Shared.get (window t thread old new)
      (Shared.assign t fun y => (y.1, K (y.1.listafiber.deref new) y.2)) where
  frame m i hi := by
    cases i with
    | cpu u =>
      rw [cpu_mem_window] at hi
      exact Function.update_of_ne hi _ _
    | _ => rfl
  congr m m' h i hi := by
    have hnew : m.proc.listafiber.deref new = m'.proc.listafiber.deref new :=
      h (.fiber new) (fiber_mem_window.mpr (.inr rfl))
    have hcpu : m.cpu t = m'.cpu t := h (.cpu t) (cpu_mem_window.mpr rfl)
    cases i with
    | cpu u =>
      obtain rfl := cpu_mem_window.mp hi
      show Function.update m.cpu u _ u = Function.update m'.cpu u _ u
      rw [Function.update_self, Function.update_self]
      show K (m.proc.listafiber.deref new) (m.cpu u) = K (m'.proc.listafiber.deref new) (m'.cpu u)
      rw [hnew, hcpu]
    | fiber b => exact h (.fiber b) hi
    | thread b => exact h (.thread b) hi
    | shape => exact absurd hi shape_notMem_window

/-- An assignment to the caller's node. -/
theorem isLocal_thread (h : Thread → Thread) (hid : ∀ n, (h n).id = n.id) :
    IsLocal Shared.get (window t thread old new)
      (Shared.assign t fun y => (y.1.modThread thread h, y.2)) where
  frame m i hi := by
    cases i with
    | fiber b => rfl
    | thread b =>
      rw [thread_mem_window] at hi
      show (Process.modThread _ _ _).listathread.deref b = _
      rw [Process.modThread_listathread, Table.deref_update_ne hi]
      rfl
    | cpu u =>
      show Function.update m.cpu t (m.cpu t) u = m.cpu u
      rw [Function.update_eq_self]
    | shape =>
      have hthreads := Table.map_update_addr (T := m.proc.listathread) (a := thread) (g := h) Thread.id hid
      show Shape.mk _ _ _ _ _ = Shape.mk _ _ _ _ _
      rw [Shape.mk.injEq]
      exact ⟨rfl, hthreads, rfl, rfl, rfl⟩
  congr m m' hm i hi := by
    cases i with
    | fiber b => exact hm (.fiber b) hi
    | thread b =>
      obtain rfl := thread_mem_window.mp hi
      have hb : m.proc.listathread.deref b = m'.proc.listathread.deref b := hm (.thread b) hi
      show (Process.modThread _ _ _).listathread.deref b = (Process.modThread _ _ _).listathread.deref b
      rw [Process.modThread_listathread, Process.modThread_listathread, Table.deref_update_self,
        Table.deref_update_self, hb]
    | cpu u =>
      show Function.update m.cpu t (m.cpu t) u = Function.update m'.cpu t (m'.cpu t) u
      rw [Function.update_eq_self, Function.update_eq_self]
      exact hm (.cpu u) hi
    | shape => exact absurd hi shape_notMem_window

theorem isLocal_countFailed :
    IsLocal Shared.get (window t thread old new) (Shared.assign t (countFailedStep old)) :=
  isLocal_fiber (.inl rfl) (fun _ _ f => { f with failedCounter := f.failedCounter + 1 }) fun _ _ _ => rfl

theorem shape_countFailed (m : Shared) : (m.assign t (countFailedStep old)).proc.shape = m.proc.shape := by
  have hlocal : IsLocal Shared.get (window t 0 old old) (Shared.assign t (countFailedStep old)) :=
    isLocal_countFailed
  exact hlocal.frame m .shape shape_notMem_window

/-- Every assignment of the exchange is local to its switch. -/
theorem isLocal_exchangeSteps (t : Int) (thread old new : Nat) (now : Timespec) :
    ∀ f ∈ exchangeSteps thread old new now,
      IsLocal Shared.get (window t thread old new) (Shared.assign t f) := by
  have hold : old = old ∨ old = new := .inl rfl
  have hnew : new = old ∨ new = new := .inr rfl
  rw [exchangeSteps]
  simp only [List.forall_mem_cons]
  refine ⟨?_, ?_, ?_, ?_, ?_, ?_, ?_, ?_, ?_, ?_, fun _ h => absurd h List.not_mem_nil⟩
  · exact isLocal_fiber hold (fun _ cpu f => { f with regs := { f.regs with val := cpu.regs } }) fun _ _ _ => rfl
  · exact isLocal_fiber hold (fun _ cpu f => { f with fpu := { f.fpu with val := copyFxregsToKernel cpu } })
      fun _ _ _ => rfl
  · exact isLocal_fiber hold (fun _ _ f => { f with selectedThread := none }) fun _ _ _ => rfl
  · exact isLocal_cpu fun g cpu => { cpu with regs := (g.map fun f => f.regs.val).getD cpu.regs }
  · exact isLocal_cpu fun g cpu => copyKernelToFxregs ((g.map fun f => f.fpu.val).getD cpu.fpu) cpu
  · exact isLocal_fiber hnew (fun _ _ f => { f with selectedThread := some thread }) fun _ _ _ => rfl
  · exact isLocal_thread (fun n => { n with runner := some new }) fun _ => rfl
  · exact isLocal_fiber hnew (fun _ _ f => { f with correctCounter := f.correctCounter + 1 }) fun _ _ _ => rfl
  · exact isLocal_fiber hnew (fun _ _ f => { f with lastActivationTime := BitVec.ofInt 64 now.tvNsec })
      fun _ _ _ => rfl
  · exact isLocal_fiber hold (fun g _ f => { f with
      execTime := f.execTime + ((g.map Fiber.lastActivationTime).getD 0 - f.lastActivationTime) }) fun _ _ _ => rfl

/-- The assignments one after another are the exchange. -/
theorem exec_exchangeSteps (t : Int) (thread old new : Nat) (now : Timespec) (m : Shared) :
    exec ((exchangeSteps thread old new now).map (Shared.assign t)) m =
      m.assign t (exchange thread old new now) := by
  have hfold : ∀ (l : List Assign) (m : Shared), exec (l.map (Shared.assign t)) m =
      m.assign t fun y => l.foldl (fun y assign => assign y) y := by
    intro l
    induction l with
    | nil =>
      intro m
      show m = { proc := m.proc, cpu := Function.update m.cpu t (m.cpu t) }
      rw [Function.update_eq_self]
    | cons f l ih =>
      intro m
      rw [List.map_cons, exec, ih]
      simp only [Shared.assign, Function.update_self, Function.update_idem, List.foldl_cons]
  exact hfold _ m

end assign

/-! ### Memories that agree on every cell -/

theorem Shared.ext_get {m m' : Shared} (hfibers : m.proc.listafiber.addrs.Nodup)
    (hthreads : m.proc.listathread.addrs.Nodup) (h : ∀ i, m.get i = m'.get i) : m = m' := by
  obtain ⟨⟨T, F, D, last, id⟩, cpu⟩ := m
  obtain ⟨⟨T', F', D', last', id'⟩, cpu'⟩ := m'
  have hshape := h .shape
  simp only [Shared.get, Process.shape, Shape.mk.injEq] at hshape
  obtain ⟨hF, hT, rfl, rfl, rfl⟩ := hshape
  have hFa : F.addrs = F'.addrs := by
    have hfst := congrArg (List.map Prod.fst) hF
    simp only [List.map_map] at hfst
    exact hfst
  have hTa : T.addrs = T'.addrs := by
    have hfst := congrArg (List.map Prod.fst) hT
    simp only [List.map_map] at hfst
    exact hfst
  have hFeq : F = F' := Table.ext_deref hfibers hFa fun a _ => h (.fiber a)
  have hTeq : T = T' := Table.ext_deref hthreads hTa fun a _ => h (.thread a)
  have hcpu : cpu = cpu' := funext fun t => h (.cpu t)
  rw [hFeq, hTeq, hcpu]

end LinuxFibers
