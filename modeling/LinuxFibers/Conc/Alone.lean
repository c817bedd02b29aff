import LinuxFibers.Conc.Atomic

/-!
# Calls of one thread at a time

What `fib_switch_to` does to the shared memory when nobody else runs (`Alone`), and a list of calls made
one after another (`serially`). Both are the operation `fibSwitchTo` of the driver, on a module whose only
entry is the one the threads share.
-/

namespace LinuxFibers

open HeapTable LocalActions Runs

/-! ### Calls one after another -/

/-- The module with the memory's entry at the address `a`, and the registers of its threads. -/
def Shared.state (m : Shared) (a : Nat) (k : Kmem) : State where
  processi := [⟨a, m.proc⟩]
  kmem := k
  cpu c := if c.tgid = m.proc.id then m.cpu c.pid else {}

/-- The calls of `fib_switch_to` one after another, with the values returned. -/
def serially (tgid : Int) : List (Int × Call) → State → Except Fault (State × List (Int × Int))
  | [], s => .ok (s, [])
  | (t, call) :: calls, s => do
    let (s, ret) ← fibSwitchTo ⟨tgid, t⟩ call.id call.now s
    let (s, rets) ← serially tgid calls s
    .ok (s, (t, ret) :: rets)

theorem serially_snoc {tgid t ret : Int} {call : Call} {calls : List (Int × Call)} {s s' s'' : State}
    {rets : List (Int × Int)} (h : serially tgid calls s = .ok (s', rets))
    (hcall : fibSwitchTo ⟨tgid, t⟩ call.id call.now s' = .ok (s'', ret)) :
    serially tgid (calls ++ [(t, call)]) s = .ok (s'', rets ++ [(t, ret)]) := by
  induction calls generalizing s rets with
  | nil =>
    cases h
    simp only [List.nil_append, serially, hcall, bind, Except.bind]
  | cons c calls ih =>
    obtain ⟨⟨s₁, r⟩, hc, h⟩ := bind_eq_ok.mp h
    obtain ⟨⟨s₂, rs⟩, hrest, h⟩ := bind_eq_ok.mp h
    cases h
    simp only [List.cons_append, serially, hc, bind, Except.bind, ih hrest]

/-- `fib_switch_to`, with nobody else running, takes the memory `m` to `m'` and returns `ret`. -/
def Alone (m : Shared) (t : Int) (call : Call) (m' : Shared) (ret : Int) : Prop :=
  ∀ a k, ∃ k', fibSwitchTo ⟨m.proc.id, t⟩ call.id call.now (m.state a k) = .ok (m'.state a k', ret)

section alone

variable {m : Shared} {t : Int} {call : Call} {thread old new : Nat} {f g : Fiber}

theorem alone_of_switchProcess {p : Process} {cpu : Cpu} {ret : Int} (hid : p.id = m.proc.id)
    (h : ∀ k, ∃ k', switchProcess ⟨m.proc.id, t⟩ call.id call.now m.proc ⟨k, m.cpu t, -1⟩ =
      .ok (p, ⟨k', cpu, ret⟩)) : Alone m t call { proc := p, cpu := Function.update m.cpu t cpu } ret := by
  intro a k
  obtain ⟨k', hswitch⟩ := h k
  have hcpu : (m.state a k).cpu ⟨m.proc.id, t⟩ = m.cpu t := if_pos rfl
  refine ⟨k', ?_⟩
  have hwalk : forEachProcess (⟨m.proc.id, t⟩ : Task).tgid (switchProcess ⟨m.proc.id, t⟩ call.id call.now)
      (m.state a k).processi ⟨(m.state a k).kmem, (m.state a k).cpu ⟨m.proc.id, t⟩, -1⟩ =
      .ok ([⟨a, p⟩], ⟨k', cpu, ret⟩) := by
    rw [hcpu]
    refine (forEachProcess_single (b := ⟨a, m.proc⟩) rfl).trans ?_
    show (switchProcess ⟨m.proc.id, t⟩ call.id call.now m.proc ⟨k, m.cpu t, -1⟩ >>= _) = _
    rw [hswitch]
    rfl
  rw [fibSwitchTo, hwalk]
  simp only [bind, Except.bind, Shared.state, hid, Except.ok.injEq, Prod.mk.injEq, and_true,
    State.mk.injEq, true_and]
  funext c
  by_cases hc : c.tgid = m.proc.id
  · by_cases hp : c.pid = t
    · have heq : c = ⟨m.proc.id, t⟩ := by
        rw [← hc, ← hp]
      rw [if_pos hc, hp, Function.update_self, heq, Function.update_self]
    · have hne : c ≠ ⟨m.proc.id, t⟩ := fun he => hp (congrArg Task.pid he)
      rw [if_pos hc, Function.update_of_ne hp, Function.update_of_ne hne, if_pos hc]
  · have hne : c ≠ ⟨m.proc.id, t⟩ := fun he => hc (congrArg Task.tgid he)
    rw [if_neg hc, Function.update_of_ne hne, if_neg hc]

theorem alone_refused (hno : ∀ n ∈ m.proc.listathread, n.val.id ≠ t) : Alone m t call m (-1) := by
  have h : Alone m t call { proc := m.proc, cpu := Function.update m.cpu t (m.cpu t) } (-1) :=
    alone_of_switchProcess rfl fun k => ⟨k, switchProcess_notConverted hno⟩
  rwa [Function.update_eq_self] at h

theorem alone_absent (hwf : m.proc.Wf) (hc : m.proc.Carries t thread old f) (hid : f.id ≠ call.id)
    (hno : ∀ g ∈ m.proc.listafiber, g.val.id ≠ call.id) : Alone m t call m (-1) := by
  have h : Alone m t call { proc := m.proc, cpu := Function.update m.cpu t (m.cpu t) } (-1) :=
    alone_of_switchProcess rfl fun k => ⟨k, switchProcess_absent hwf hc hid hno⟩
  rwa [Function.update_eq_self] at h

theorem alone_self (hwf : m.proc.Wf) (hc : m.proc.Carries t thread old f) (hid : f.id = call.id) :
    Alone m t call (m.assign t (countFailedStep old)) (-1) :=
  alone_of_switchProcess rfl fun k => ⟨k, switchProcess_self hwf hc hid⟩

theorem alone_busy (hwf : m.proc.Wf) (hc : m.proc.Carries t thread old f) (hid : f.id ≠ call.id)
    (hg : m.proc.listafiber.deref new = some g) (hgid : g.id = call.id) (hsel : g.selectedThread ≠ none) :
    Alone m t call (m.assign t (countFailedStep old)) (-1) :=
  alone_of_switchProcess rfl fun k => ⟨k, switchProcess_busy hwf hc hid hg hgid hsel⟩

theorem assign_exchange (hne : old ≠ new) (hg : m.proc.listafiber.deref new = some g) (now : Timespec) :
    m.assign t (exchange thread old new now) =
      { proc := exchanged thread old new now (m.cpu t) m.proc, cpu := Function.update m.cpu t (context g) } := by
  rw [Shared.assign, exchange_eq hne hg]

theorem alone_done (hwf : m.proc.Wf) (hc : m.proc.Carries t thread old f) (hid : f.id ≠ call.id)
    (hg : m.proc.listafiber.deref new = some g) (hgid : g.id = call.id) (hsel : g.selectedThread = none) :
    Alone m t call (m.assign t (exchange thread old new call.now)) 0 := by
  rw [assign_exchange (target_ne hc.fiber hg hid hgid) hg]
  exact alone_of_switchProcess rfl fun k => ⟨_, switchProcess_done hwf hc hid hg hgid hsel⟩

end alone

end LinuxFibers
