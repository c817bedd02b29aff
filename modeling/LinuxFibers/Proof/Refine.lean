import LinuxFibers.Spec.Machine
import LinuxFibers.Proof.FlsBounds
import LinuxFibers.Proof.Registry

/-!
# The driver is the machine

Where each process has opened the device once, the table holds one entry for each process, and
`State.machine` reads the fibers of the machine out of it. Every operation of the driver is then a step of
the machine on the same event (`step_refines`), and every run is a run of the machine (`run_refines`).
-/

namespace LinuxFibers

open HeapTable Runs SlotStorage

/-! ### What an entry shows of its threads and fibers -/

def Fiber.storage (f : Fiber) : Fls := Slots.ofArrays f.bitmapFls.val f.fls.val

def Fiber.view (f : Fiber) : SavedFiber :=
  { saved := context f, free := f.selectedThread.isNone, fls := f.storage }

namespace Process

/-- The id of the fiber a thread runs. -/
def current (p : Process) (pid : Int) : Option Int := (p.runningFiber pid).map Fiber.id

def fiber (p : Process) (id : Int) : Option SavedFiber := (p.listafiber.lookup Fiber.id id).map Fiber.view

theorem Carries.current {p : Process} {pid : Int} {thread r : Nat} {f : Fiber}
    (h : p.Carries pid thread r f) (hwf : p.Wf) : p.current pid = some f.id := by
  rw [Process.current, h.runningFiber hwf]
  rfl

theorem current_none {p : Process} {pid : Int} (hno : ∀ t ∈ p.listathread, t.val.id ≠ pid) :
    p.current pid = none := by
  rw [current, runningFiber_none hno]
  rfl

variable {p : Process}

/-- The fibers of the entry after its table of fibers has changed at one id. -/
theorem fiber_update {p' : Process} {id : Int} {f : Fiber}
    (h : p'.listafiber.lookup Fiber.id = Function.update (p.listafiber.lookup Fiber.id) id (some f)) :
    p'.fiber = Function.update p.fiber id (some f.view) := by
  funext k
  by_cases hk : k = id
  · subst hk
    simp [fiber, h]
  · simp [fiber, h, hk]

theorem fiber_of_deref (hwf : p.Wf) {r : Nat} {f : Fiber} (hf : p.listafiber.deref r = some f) :
    p.fiber f.id = some f.view := by
  have hfound : p.listafiber.lookup Fiber.id f.id = some f :=
    Table.lookup_of_mem hwf.fiberIds (Table.mem_of_deref hf)
  rw [fiber, hfound]
  rfl

theorem fiber_none {id : Int} (hno : ∀ f ∈ p.listafiber, f.val.id ≠ id) : p.fiber id = none := by
  rw [fiber, Table.lookup_eq_none.mpr hno]
  rfl

theorem fiber_modFiber {r : Nat} {f : Fiber} {g : Fiber → Fiber}
    (hids : (p.listafiber.map fun f => f.val.id).Nodup) (haddrs : p.listafiber.addrs.Nodup)
    (hf : p.listafiber.deref r = some f) (hid : (g f).id = f.id) :
    (p.modFiber r g).fiber = Function.update p.fiber f.id (some (g f).view) :=
  fiber_update (Table.lookup_update hids haddrs hf hid)

theorem current_modFiber {r : Nat} {g : Fiber → Fiber}
    (hid : ∀ f, p.listafiber.deref r = some f → (g f).id = f.id) : (p.modFiber r g).current = p.current := by
  funext pid
  simp only [current, runningFiber, modFiber_listathread]
  cases p.listathread.lookup Thread.id pid with
  | none => rfl
  | some t =>
    simp only [Option.bind_some, deref_modFiber]
    cases t.runner with
    | none => rfl
    | some a =>
      simp only [Option.bind_some]
      split_ifs with ha
      · cases hf : p.listafiber.deref a with
        | none => rfl
        | some f => exact congrArg some (hid f (ha ▸ hf))
      · rfl

/-! ### The exchange -/

section exchange

variable {pid : Int} {thread old new : Nat} {f g : Fiber} {now : Timespec} {cpu : Cpu}

theorem lookup_exchanged (hwf : p.Wf) (hf : p.listafiber.deref old = some f)
    (hg : p.listafiber.deref new = some g) (hne : old ≠ new) :
    (exchanged thread old new now cpu p).listafiber.lookup Fiber.id =
      Function.update (Function.update (p.listafiber.lookup Fiber.id) f.id (some (leaveFiber cpu now f))) g.id
        (some (enterFiber thread now g)) := by
  have hleave : (p.modFiber old (leaveFiber cpu now)).listafiber.lookup Fiber.id =
      Function.update (p.listafiber.lookup Fiber.id) f.id (some (leaveFiber cpu now f)) :=
    Table.lookup_update hwf.fiberIds hwf.fiberAddrs hf rfl
  have hids : ((p.modFiber old (leaveFiber cpu now)).listafiber.map fun f => f.val.id).Nodup := by
    rw [fiberIds_modFiber (g := leaveFiber cpu now) (fun _ _ => rfl) hwf.fiberAddrs]
    exact hwf.fiberIds
  have haddrs : (p.modFiber old (leaveFiber cpu now)).listafiber.addrs.Nodup := by
    rw [modFiber_listafiber, Table.addrs_update]
    exact hwf.fiberAddrs
  have hg' : (p.modFiber old (leaveFiber cpu now)).listafiber.deref new = some g := by
    rw [deref_modFiber, if_neg hne.symm, hg]
  rw [← hleave]
  exact Table.lookup_update (g := enterFiber thread now) hids haddrs hg' rfl

theorem fiber_exchanged (hwf : p.Wf) (hf : p.listafiber.deref old = some f)
    (hg : p.listafiber.deref new = some g) (hne : old ≠ new) :
    (exchanged thread old new now cpu p).fiber =
      Function.update (Function.update p.fiber f.id (some { f.view with saved := cpu, free := true })) g.id
        (some { g.view with free := false }) := by
  funext k
  rw [fiber, lookup_exchanged hwf hf hg hne]
  by_cases hk : k = g.id
  · subst hk
    simp [enterFiber, Fiber.view, Fiber.storage, context]
  · rw [Function.update_of_ne hk, Function.update_of_ne hk]
    by_cases hj : k = f.id
    · subst hj
      simp [leaveFiber, Fiber.view, Fiber.storage, context]
    · rw [Function.update_of_ne hj, Function.update_of_ne hj, fiber]

theorem current_exchanged (hwf : p.Wf) (hc : p.Carries pid thread old f)
    (hg : p.listafiber.deref new = some g) (hne : old ≠ new) :
    (exchanged thread old new now cpu p).current = Function.update p.current pid (some g.id) := by
  have hlookup : (exchanged thread old new now cpu p).listathread.lookup Thread.id =
      Function.update (p.listathread.lookup Thread.id) pid (some { runner := some new, id := pid }) :=
    Table.lookup_update (g := fun (t : Thread) => { t with runner := some new }) hwf.threadIds
      hwf.threadAddrs hc.thread rfl
  funext k
  simp only [current, runningFiber, hlookup]
  by_cases hk : k = pid
  · subst hk
    simp [deref_exchanged_fiber hne, hne.symm, hg, enterFiber]
  · rw [Function.update_of_ne hk, Function.update_of_ne hk, current, runningFiber]
    cases p.listathread.lookup Thread.id k with
    | none => rfl
    | some t =>
      simp only [Option.bind_some]
      cases t.runner with
      | none => rfl
      | some a =>
        -- both fibers of the exchange keep their ids
        simp only [Option.bind_some, deref_exchanged_fiber hne]
        split_ifs <;> cases p.listafiber.deref a <;> rfl

end exchange

/-! ### Creation -/

section create

variable {n : Nat} {f : Fiber} {a : Nat} {T : Table Thread} {U : Table FiberStuff} {id : Int}

/-- A new fiber changes nothing for the threads there are. -/
theorem runningFiber_cons (h : p.Inv n) (hna : n ≤ a) {pid : Int}
    (hT : T.lookup Thread.id pid = p.listathread.lookup Thread.id pid) :
    runningFiber { p with
      listathread := T
      listafiber := ⟨a, f⟩ :: p.listafiber
      listafiberStuff := U
      lastFibId := id } pid = p.runningFiber pid := by
  simp only [runningFiber, hT]
  cases ht : p.listathread.lookup Thread.id pid with
  | none => rfl
  | some t =>
    obtain ⟨b, hb, rfl, -⟩ := Table.exists_of_lookup ht
    obtain ⟨r, g, hr, hg, -⟩ := h.runner _ _ (Table.deref_of_mem h.threadAddrs hb)
    have hne : a ≠ r := by
      intro he
      have := h.fiberBound r (Table.addr_mem_addrs (Table.mem_of_deref hg))
      omega
    simp only [Option.bind_some, hr, Table.deref_cons, if_neg hne]

theorem fiber_fresh (h : p.Inv n) : p.fiber (p.lastFibId + 1) = none := by
  refine fiber_none fun f hf => ?_
  have := (h.fiberId f hf).2
  omega

theorem fiber_cons {g : Fiber} :
    fiber { p with
      listathread := T
      listafiber := ⟨a, g⟩ :: p.listafiber
      listafiberStuff := U
      lastFibId := id } = Function.update p.fiber g.id (some g.view) :=
  fiber_update (Table.lookup_cons Fiber.id ⟨a, g⟩)

end create

end Process

/-! ### What each operation does to the view of an entry -/

section views

variable {c : Task} {cpu : Cpu} {now : Timespec} {p p' : Process}

theorem convertThread_view {x x' : ConvertVars} (hinv : p.Inv x.kmem.next)
    (hok : convertThread c cpu now p x = .ok (p', x')) :
    p'.current = Function.update p.current c.pid (some (p.lastFibId + 1)) ∧
      p'.fiber = Function.update p.fiber (p.lastFibId + 1) (some ⟨cpu, false, .empty⟩) ∧
      x'.ret = p.lastFibId + 1 := by
  obtain ⟨U, -, -, rfl, -, -, hret⟩ := convertThread_ok hinv.threadBound hok
  refine ⟨?_, Process.fiber_cons, hret⟩
  funext k
  by_cases hk : k = c.pid
  · subst hk
    simp [Process.current, Process.runningFiber, Table.lookup_head, Table.deref_cons, newFiber]
  · rw [Function.update_of_ne hk, Process.current, Process.current, Process.runningFiber_cons hinv (by omega)]
    rw [Table.lookup_cons, Function.update_of_ne hk]

theorem createProcess_view {func parameters stackPointer stackSize : BitVec 64} {x x' : CreateVars}
    (hinv : p.Inv x.kmem.next)
    (hok : createProcess c cpu func parameters stackPointer stackSize p x = .ok (p', x')) :
    p'.current = p.current ∧
      p'.fiber = Function.update p.fiber (p.lastFibId + 1)
        (some ⟨Machine.created cpu func parameters stackPointer stackSize, true, .empty⟩) ∧
      x'.listaFiberElem.map (fun b => b.val.id) = some (p.lastFibId + 1) := by
  obtain ⟨U, b, -, -, rfl, rfl, rfl⟩ := createProcess_ok hok
  refine ⟨?_, Process.fiber_cons, rfl⟩
  funext k
  rw [Process.current, Process.current]
  exact congrArg (Option.map Fiber.id) (Process.runningFiber_cons hinv (le_refl _) rfl)

/-- A switch that fails shows in nothing but `failed_counter`, and the thread runs no fiber or the target is not there to
be taken; one that succeeds moves the caller. -/
theorem switchProcess_view {id : Int} {x x' : SwitchVars} (hwf : p.Wf)
    (hok : switchProcess c id now p x = .ok (p', x')) :
    (p'.current = p.current ∧ p'.fiber = p.fiber ∧ x'.cpu = x.cpu ∧ (x'.ret = x.ret ∨ x'.ret = -1) ∧
        (p.current c.pid = none ∨ ∀ g, p.fiber id = some g → g.free = false)) ∨
      ∃ f g : Fiber, p.current c.pid = some f.id ∧ f.id ≠ id ∧ p.fiber f.id = some f.view ∧
        p.fiber id = some g.view ∧ g.view.free = true ∧
        p'.current = Function.update p.current c.pid (some id) ∧
        p'.fiber = Function.update
          (Function.update p.fiber f.id (some { f.view with saved := x.cpu, free := true })) id
          (some { g.view with free := false }) ∧
        x'.cpu = g.view.saved ∧ x'.ret = 0 := by
  obtain ⟨q, y, hq, hcase⟩ := switchProcess_spec hwf c id now x
  rw [hok, Except.ok.injEq, Prod.mk.injEq] at hq
  obtain ⟨rfl, rfl⟩ := hq
  have hfailed : ∀ {thread old : Nat} {f : Fiber}, p.Carries c.pid thread old f →
      (countFailed old p).current = p.current ∧ (countFailed old p).fiber = p.fiber := by
    intro thread old f hc
    refine ⟨Process.current_modFiber fun _ _ => rfl, ?_⟩
    have hview := Process.fiber_modFiber (g := fun f => { f with failedCounter := f.failedCounter + 1 })
      hwf.fiberIds hwf.fiberAddrs hc.fiber rfl
    refine hview.trans ?_
    rw [Function.update_eq_self_iff]
    exact (Process.fiber_of_deref hwf hc.fiber).symm
  have htaken : ∀ {r : Nat} {f : Fiber}, p.listafiber.deref r = some f → f.selectedThread ≠ none →
      ∀ g, p.fiber f.id = some g → g.free = false := by
    intro r f hf hsel g hg
    obtain rfl := Option.some.inj ((Process.fiber_of_deref hwf hf).symm.trans hg)
    exact Option.isNone_eq_false_iff.mpr (Option.isSome_iff_ne_none.mpr hsel)
  cases hcase with
  | notConverted hno => exact .inl ⟨rfl, rfl, rfl, .inl rfl, .inl (Process.current_none hno)⟩
  | absent hc hid hno =>
    refine .inl ⟨rfl, rfl, rfl, .inl rfl, .inr fun g hg => ?_⟩
    rw [Process.fiber_none hno] at hg
    cases hg
  | self hc hid =>
    subst hid
    have hsel := Option.ne_none_iff_exists'.mpr ⟨_, hc.selected hwf⟩
    exact .inl ⟨(hfailed hc).1, (hfailed hc).2, rfl, .inr rfl, .inr (htaken hc.fiber hsel)⟩
  | busy hc hid hg hgid hsel =>
    subst hgid
    exact .inl ⟨(hfailed hc).1, (hfailed hc).2, rfl, .inr rfl, .inr (htaken hg hsel)⟩
  | done hc hid hg hgid hsel =>
    have hne := target_ne hc.fiber hg hid hgid
    subst hgid
    refine .inr ⟨_, _, hc.current hwf, hid, Process.fiber_of_deref hwf hc.fiber,
      Process.fiber_of_deref hwf hg, ?_, Process.current_exchanged hwf hc hg hne,
      Process.fiber_exchanged hwf hc.fiber hg hne, rfl, rfl⟩
    simp [Fiber.view, hsel]

end views

/-! ### The machine of a state -/

def State.machine (s : State) : Machine where
  opened tgid := (s.processi.lookup Process.id tgid).isSome
  current tgid := (s.processi.lookup Process.id tgid).elim (fun _ => none) Process.current
  fiber tgid := (s.processi.lookup Process.id tgid).elim (fun _ => none) Process.fiber
  cpu := s.cpu

section machine

variable {s s' : State} {tgid : Int} {p p' : Process}

theorem machine_opened (h : s.processi.lookup Process.id tgid = some p) : s.machine.opened tgid = true := by
  simp only [State.machine, h, Option.isSome_some]

theorem machine_opened_none (h : s.processi.lookup Process.id tgid = none) : s.machine.opened tgid = false := by
  simp only [State.machine, h, Option.isSome_none]

theorem machine_current (h : s.processi.lookup Process.id tgid = some p) :
    s.machine.current tgid = p.current := by
  simp only [State.machine, h, Option.elim]

theorem machine_fiber (h : s.processi.lookup Process.id tgid = some p) :
    s.machine.fiber tgid = p.fiber := by
  simp only [State.machine, h, Option.elim]

theorem machine_current_none (h : s.processi.lookup Process.id tgid = none) (pid : Int) :
    s.machine.current tgid pid = none := by
  simp only [State.machine, h, Option.elim]

theorem machine_fiber_none (h : s.processi.lookup Process.id tgid = none) (id : Int) :
    s.machine.fiber tgid id = none := by
  simp only [State.machine, h, Option.elim]

/-- What changes when one entry of the table does. -/
theorem machine_update {T : Table Process} {m : Kmem} {cpu : Task → Cpu}
    (h : T.lookup Process.id = Function.update (s.processi.lookup Process.id) tgid (some p')) :
    State.machine { processi := T, kmem := m, cpu := cpu } =
      { opened := Function.update s.machine.opened tgid true
        current := Function.update s.machine.current tgid p'.current
        fiber := Function.update s.machine.fiber tgid p'.fiber
        cpu := cpu } := by
  simp only [State.machine, h, Machine.mk.injEq, and_true]
  refine ⟨?_, ?_, ?_⟩
  all_goals
    funext t
    by_cases ht : t = tgid
    · subst ht
      simp
    · simp [ht]

/-- What changes when the entry of a process does. -/
theorem machine_update_entry {T : Table Process} {m : Kmem} {cpu : Task → Cpu}
    (hp : s.processi.lookup Process.id tgid = some p)
    (h : T.lookup Process.id = Function.update (s.processi.lookup Process.id) tgid (some p')) :
    State.machine { processi := T, kmem := m, cpu := cpu } =
      { s.machine with
        current := Function.update s.machine.current tgid p'.current
        fiber := Function.update s.machine.fiber tgid p'.fiber
        cpu := cpu } := by
  rw [machine_update h, ← machine_opened hp, Function.update_eq_self]

end machine

/-! ### Each operation is a step of the machine -/

section step

variable {nFib : Nat} {s s' : State} {c : Task} {e : Event} {p : Process}

/-- In a reachable state a walk over the processes does nothing, where the process has no entry, or runs its body on
the one entry that it has. -/
theorem walk_lookup (h : Reached nFib s) (hkeys : (s.processi.map fun b => b.val.id).Nodup) {σ : Type}
    {body : Process → σ → Except Fault (Process × σ)} {T : Table Process} {x x' : σ} {tgid : Int}
    (hid : ∀ p p' y y', body p y = .ok (p', y') → p'.id = p.id)
    (hok : forEachProcess tgid body s.processi x = .ok (T, x')) :
    s.processi.lookup Process.id tgid = none ∧ T = s.processi ∧ x' = x ∨
      ∃ p p', s.processi.lookup Process.id tgid = some p ∧ p.Inv s.kmem.next ∧ body p x = .ok (p', x') ∧
        T.lookup Process.id = Function.update (s.processi.lookup Process.id) tgid (some p') := by
  cases hp : s.processi.lookup Process.id tgid with
  | none =>
    rw [forEachProcess_none (Table.lookup_eq_none.mp hp)] at hok
    cases hok
    exact .inl ⟨rfl, rfl, rfl⟩
  | some p =>
    obtain ⟨b, hb, rfl, hpid⟩ := Table.exists_of_lookup hp
    rw [forEachProcess_eq] at hok
    obtain ⟨p', hbody, hT⟩ := Table.forEach_lookup hkeys hp (fun p' y hq => (hid _ _ _ _ hq).trans hpid) hok
    exact .inr ⟨b.val, p', rfl, reached_inv h b hb, hbody, hT⟩

theorem fibConvert_refines (h : Reached nFib s) (hkeys : (s.processi.map fun b => b.val.id).Nodup)
    {now : Timespec} {ret : Int} (hok : fibConvert c now s = .ok (s', ret)) :
    Machine.Step s.machine ⟨.fibConvert c now, s.cpu c, some ret⟩ s'.machine := by
  obtain ⟨⟨T, y⟩, hwalk, hok⟩ := bind_eq_ok.mp hok
  cases hok
  rcases walk_lookup h hkeys (fun _ _ _ _ hq => walkKeeps_id.convertProcess hq) hwalk with
    ⟨hp, rfl, rfl⟩ | ⟨p, p', hp, hinv, hbody, hT⟩
  · exact .convertRefused (.inl (machine_opened_none hp))
  · rw [machine_update_entry hp hT]
    by_cases hno : ∀ t ∈ p.listathread, t.val.id ≠ c.pid
    · rw [convertProcess_new rfl hno] at hbody
      obtain ⟨hcurrent, hfiber, hret⟩ := convertThread_view hinv hbody
      have hcur : s.machine.current c.tgid c.pid = none := by
        rw [machine_current hp, Process.current_none hno]
      have hnew : s.machine.fiber c.tgid (p.lastFibId + 1) = none := by
        rw [machine_fiber hp, Process.fiber_fresh hinv]
      have hpos : 0 < p.lastFibId + 1 := by
        have := hinv.lastFibId
        omega
      rw [hret, hcurrent, hfiber, ← machine_current hp, ← machine_fiber hp]
      exact .convert (machine_opened hp) hcur hpos hnew
    · obtain ⟨thread, r, f, hc⟩ := (hinv.carries_or c.pid).resolve_left hno
      have hcur : s.machine.current c.tgid c.pid ≠ none := by
        rw [machine_current hp, hc.current hinv.toWf]
        exact Option.some_ne_none _
      push Not at hno
      rw [convertProcess_keep (.inr hno)] at hbody
      cases hbody
      rw [← machine_current hp, ← machine_fiber hp, Function.update_eq_self, Function.update_eq_self]
      exact .convertRefused (.inr hcur)

theorem fibCreate_refines (h : Reached nFib s) (hkeys : (s.processi.map fun b => b.val.id).Nodup)
    {func parameters stackPointer stackSize : BitVec 64} {r : Option (Block Fiber)}
    (hok : fibCreate c func parameters stackPointer stackSize s = .ok (s', r)) :
    Machine.Step s.machine ⟨.fibCreate c func parameters stackPointer stackSize, s.cpu c,
      r.map fun b => b.val.id⟩ s'.machine := by
  obtain ⟨⟨T, y⟩, hwalk, hok⟩ := bind_eq_ok.mp hok
  cases hok
  rcases walk_lookup h hkeys (fun _ _ _ _ hq => walkKeeps_id.createProcess hq) hwalk with
    ⟨hp, rfl, rfl⟩ | ⟨p, p', hp, hinv, hbody, hT⟩
  · exact .createRefused (machine_opened_none hp)
  · obtain ⟨hcurrent, hfiber, hret⟩ := createProcess_view hinv hbody
    have hnew : s.machine.fiber c.tgid (p.lastFibId + 1) = none := by
      rw [machine_fiber hp, Process.fiber_fresh hinv]
    have hpos : 0 < p.lastFibId + 1 := by
      have := hinv.lastFibId
      omega
    rw [machine_update_entry hp hT, hret, hcurrent, hfiber, ← machine_current hp, ← machine_fiber hp,
      Function.update_eq_self]
    exact .create (machine_opened hp) hpos hnew

theorem fibSwitchTo_refines (h : Reached nFib s) (hkeys : (s.processi.map fun b => b.val.id).Nodup) {id : Int}
    {now : Timespec} {ret : Int} (hok : fibSwitchTo c id now s = .ok (s', ret)) :
    Machine.Step s.machine ⟨.fibSwitchTo c id now, s.cpu c, some ret⟩ s'.machine := by
  obtain ⟨⟨T, y⟩, hwalk, hok⟩ := bind_eq_ok.mp hok
  cases hok
  rcases walk_lookup h hkeys (fun _ _ _ _ hq => walkKeeps_id.switchProcess hq) hwalk with
    ⟨hp, rfl, rfl⟩ | ⟨p, p', hp, hinv, hbody, hT⟩
  · rw [Function.update_eq_self]
    exact .switchRefused (.inl (machine_current_none hp _))
  · rw [machine_update_entry hp hT]
    rcases switchProcess_view hinv.toWf hbody with ⟨hcurrent, hfiber, hcpu, hret, hno⟩ |
      ⟨f, g, hcur, hne, hf, hg, hfree, hcurrent, hfiber, hcpu, hret⟩
    · have hret : y.ret = -1 := by
        rcases hret with hret | hret <;> exact hret
      rw [hret, hcurrent, hfiber, hcpu, ← machine_current hp, ← machine_fiber hp, Function.update_eq_self,
        Function.update_eq_self, Function.update_eq_self]
      rw [← machine_current hp, ← machine_fiber hp] at hno
      exact .switchRefused hno
    · rw [← machine_current hp] at hcur
      rw [← machine_fiber hp] at hf hg
      have hstep : Machine.Step s.machine ⟨.fibSwitchTo c id now, s.cpu c, some 0⟩ _ :=
        .switch hcur hne hf hg hfree
      simp only [Machine.setFiber, Machine.setCurrent, Machine.setCpu, Function.update_self,
        Function.update_idem] at hstep
      rw [hret, hcurrent, hfiber, hcpu, ← machine_current hp, ← machine_fiber hp]
      exact hstep

/-- The four operations on the local storage, by what their body does to the storage of one fiber. -/
theorem onRunner_refines (h : Reached nFib s) (hkeys : (s.processi.map fun b => b.val.id).Nodup) (op : Op)
    {o : FlsOp} {σ : Type} {body : Fiber → σ → Except Fault (Fiber × σ)} {x x' : σ} (out : σ → Option Int)
    (hop : op.flsOp = some o) (hrefusal : out x = o.refusal) (hkeeps : KeepsBinding body)
    (hbody : ∀ f f' y, body f x = .ok (f', y) → Fls.Step o f.storage (out y) f'.storage)
    (hok : onRunner op.caller body s x = .ok (s', x')) :
    Machine.Step s.machine ⟨op, s.cpu op.caller, out x'⟩ s'.machine := by
  obtain ⟨⟨T, y⟩, hwalk, hok⟩ := bind_eq_ok.mp hok
  cases hok
  rcases walk_lookup h hkeys (fun _ _ _ _ hq => walkKeeps_id.runnerProcess hq) hwalk with
    ⟨hp, rfl, rfl⟩ | ⟨p, p', hp, hinv, hrun, hT⟩
  · rw [hrefusal]
    exact .flsRefused hop (machine_current_none hp _)
  · rw [machine_update_entry hp hT]
    rcases hinv.carries_or op.caller.pid with hno | ⟨thread, r, f, hc⟩
    · rw [runnerProcess_none hno] at hrun
      cases hrun
      rw [hrefusal, ← machine_current hp, ← machine_fiber hp, Function.update_eq_self,
        Function.update_eq_self]
      refine .flsRefused hop ?_
      rw [machine_current hp, Process.current_none hno]
    · rw [runnerProcess_eq hinv.toWf hc] at hrun
      obtain ⟨⟨f', x₁⟩, hf, hrun⟩ := bind_eq_ok.mp hrun
      cases hrun
      have hfls := hbody _ _ _ hf
      obtain ⟨fls, bitmap, rfl⟩ := hkeeps _ _ _ _ hf
      have hcur : s.machine.current op.caller.tgid op.caller.pid = some f.id := by
        rw [machine_current hp, hc.current hinv.toWf]
      have hview : s.machine.fiber op.caller.tgid f.id = some f.view := by
        rw [machine_fiber hp, Process.fiber_of_deref hinv.toWf hc.fiber]
      have hid : ∀ g, p.listafiber.deref r = some g → f.id = g.id := by
        intro g hg
        rw [hc.fiber, Option.some.injEq] at hg
        rw [hg]
      have hcurrent := Process.current_modFiber (g := fun _ => { f with
        fls := { f.fls with val := fls }
        bitmapFls := { f.bitmapFls with val := bitmap } }) hid
      have hfiber := Process.fiber_modFiber (g := fun _ => { f with
        fls := { f.fls with val := fls }
        bitmapFls := { f.bitmapFls with val := bitmap } }) hinv.fiberIds hinv.fiberAddrs hc.fiber rfl
      rw [hcurrent, hfiber, ← machine_current hp, ← machine_fiber hp, Function.update_eq_self]
      exact .fls hop hcur hview hfls

/-! #### The four bodies -/

theorem mem_storage {f : Fiber} {i : Fin flsSize} : i ∈ f.storage.live ↔ f.bitmapFls.val i ≠ 0 := Slots.mem_ofArrays

theorem flsAllocFiber_step {f f' : Fiber} {index : Int} (hok : flsAllocFiber f (-1) = .ok (f', index)) :
    Fls.Step .alloc f.storage (some index) f'.storage := by
  cases hfirst : firstClear f.bitmapFls.val with
  | none =>
    rw [flsAllocFiber_full f (firstClear_eq_none.mp hfirst) (by decide)] at hok
    cases hok
  | some i =>
    rw [flsAllocFiber_some f hfirst] at hok
    cases hok
    obtain ⟨hclear, hleast⟩ := firstClear_eq_some.mp hfirst
    have htake : (setBit f i 1).storage = f.storage.take i := Slots.ofArrays_set (by decide)
    rw [htake]
    refine .alloc (fun hi => mem_storage.mp hi hclear) fun j hj => ?_
    exact mem_storage.mpr (hleast j hj)

theorem flsFreeFiber_step {f f' : Fiber} {index : Int} {ret : Bool}
    (hok : flsFreeFiber index f false = .ok (f', ret)) :
    Fls.Step (.free index) f.storage (some (if ret then 1 else 0)) f'.storage := by
  by_cases hin : InRange index
  · obtain ⟨i, rfl⟩ := hin.exists_fin
    rw [flsFreeFiber_eq] at hok
    split_ifs at hok with hbit
    · cases hok
      have hdrop : (setBit f i 0).storage = f.storage.drop i := Slots.ofArrays_clear
      rw [hdrop]
      exact .free (mem_storage.mpr hbit)
    · cases hok
      exact .freeDead fun hi => mem_storage.mp hi (not_not.mp hbit)
  · rw [flsFreeFiber_out f hin] at hok
    cases hok

theorem flsGetValueFiber_step {f f' : Fiber} {pos ret : Int}
    (hok : flsGetValueFiber pos f (-1) = .ok (f', ret)) :
    Fls.Step (.getValue pos) f.storage (some ret) f'.storage := by
  by_cases hin : InRange pos
  · obtain ⟨i, rfl⟩ := hin.exists_fin
    rw [flsGetValueFiber_eq] at hok
    cases hok
    split_ifs with hbit
    · exact .getValue (mem_storage.mpr hbit)
    · exact .getValueDead fun hi => hbit (mem_storage.mp hi)
  · rw [flsGetValueFiber_out f hin] at hok
    cases hok

theorem flsSetValueFiber_step {f f' : Fiber} {pos val : Int} {x x' : Unit}
    (hok : flsSetValueFiber pos val f x = .ok (f', x')) :
    Fls.Step (.setValue pos val) f.storage none f'.storage := by
  by_cases hin : InRange pos
  · obtain ⟨i, rfl⟩ := hin.exists_fin
    rw [flsSetValueFiber_eq] at hok
    split_ifs at hok with hbit
    · cases hok
      exact .setValue (mem_storage.mpr hbit)
    · cases hok
      exact .setValueDead fun hi => mem_storage.mp hi (not_not.mp hbit)
  · rw [flsSetValueFiber_out f hin] at hok
    cases hok

/-- A process that opens the device for the first time has neither fibers nor converted threads. -/
theorem fibOpen_machine {c : Task} (hnone : s.processi.lookup Process.id c.tgid = none) :
    (fibOpen nFib c s).machine = s.machine.setOpened c.tgid := by
  have hT : (fibOpen nFib c s).processi.lookup Process.id =
      Function.update (s.processi.lookup Process.id) c.tgid
        (some (newProcess nFib c.tgid (s.kmem.next + 1) (s.kmem.next + 2))) :=
    Table.lookup_cons Process.id _
  have hcurrent : Process.current (newProcess nFib c.tgid (s.kmem.next + 1) (s.kmem.next + 2)) =
      s.machine.current c.tgid := by
    funext pid
    rw [machine_current_none hnone]
    rfl
  have hfiber : Process.fiber (newProcess nFib c.tgid (s.kmem.next + 1) (s.kmem.next + 2)) =
      s.machine.fiber c.tgid := by
    funext id
    rw [machine_fiber_none hnone]
    rfl
  refine (machine_update hT).trans ?_
  rw [hcurrent, hfiber, Function.update_eq_self, Function.update_eq_self]
  rfl

/-- **One operation.** Where no two entries are of one process, an operation other than a release, and an
open by a process that has none, is a step of the machine with the same caller, registers and result. -/
theorem step_refines (h : Reached nFib s) (hkeys : (s.processi.map fun b => b.val.id).Nodup)
    (hopen : ∀ c, e.op = .fibOpen c → s.processi.lookup Process.id c.tgid = none)
    (hrelease : ∀ c, e.op ≠ .fibRelease c) (hstep : Step nFib s e s') :
    Machine.Step s.machine e s'.machine := by
  obtain ⟨op, cpu, out⟩ := e
  obtain ⟨hok, hcpu⟩ := hstep
  simp only at hok hcpu hopen hrelease
  subst hcpu
  cases op with
  | fibOpen c =>
    cases hok
    rw [fibOpen_machine (hopen c rfl)]
    exact .fibOpen (machine_opened_none (hopen c rfl))
  | fibRelease c => exact absurd rfl (hrelease c)
  | fibConvert c now =>
    obtain ⟨⟨s₁, ret⟩, hrun, hok⟩ := bind_eq_ok.mp hok
    cases hok
    exact fibConvert_refines h hkeys hrun
  | fibCreate c func parameters stackPointer stackSize =>
    obtain ⟨⟨s₁, r⟩, hrun, hok⟩ := bind_eq_ok.mp hok
    cases hok
    exact fibCreate_refines h hkeys hrun
  | fibSwitchTo c id now =>
    obtain ⟨⟨s₁, ret⟩, hrun, hok⟩ := bind_eq_ok.mp hok
    cases hok
    exact fibSwitchTo_refines h hkeys hrun
  | flsAlloc c =>
    obtain ⟨⟨s₁, index⟩, hrun, hok⟩ := bind_eq_ok.mp hok
    cases hok
    exact onRunner_refines h hkeys (.flsAlloc c) some rfl rfl flsAllocFiber_keeps
      (fun _ _ _ hf => flsAllocFiber_step hf) hrun
  | flsFree c index =>
    obtain ⟨⟨s₁, ret⟩, hrun, hok⟩ := bind_eq_ok.mp hok
    cases hok
    exact onRunner_refines h hkeys (.flsFree c index) (fun ret => some (if ret then 1 else 0)) rfl rfl
      (flsFreeFiber_keeps index) (fun _ _ _ hf => flsFreeFiber_step hf) hrun
  | flsGetValue c pos =>
    obtain ⟨⟨s₁, ret⟩, hrun, hok⟩ := bind_eq_ok.mp hok
    cases hok
    exact onRunner_refines h hkeys (.flsGetValue c pos) some rfl rfl (flsGetValueFiber_keeps pos)
      (fun _ _ _ hf => flsGetValueFiber_step hf) hrun
  | flsSetValue c pos val =>
    obtain ⟨⟨s₁, ret⟩, hrun, hok⟩ := bind_eq_ok.mp hok
    cases hok
    exact onRunner_refines h hkeys (.flsSetValue c pos val) (fun _ => none) rfl rfl (flsSetValueFiber_keeps pos val)
      (fun _ _ _ hf => flsSetValueFiber_step hf) hrun
  | user c cpu =>
    cases hok
    exact .user

end step

/-! ### Every run is a run of the machine -/

/-- The process that an open registers. -/
def Op.opener : Op → Option Int
  | .fibOpen c => some c.tgid
  | _ => none

/-- Every process opens the device at most once, and no file is released. -/
structure OpensOnce (tr : List Event) : Prop where
  openers : (tr.filterMap fun e => e.op.opener).Nodup
  kept : ∀ e ∈ tr, ∀ c, e.op ≠ .fibRelease c

section run

variable {nFib : Nat} {s : State} {tr : List Event}

theorem OpensOnce.tail {e : Event} (h : OpensOnce (e :: tr)) : OpensOnce tr where
  openers := h.openers.sublist ((List.sublist_cons_self e tr).filterMap _)
  kept d hd := h.kept d (List.mem_cons_of_mem _ hd)

theorem opensOnce_of_ops {ops : List Op} (h : tr.map Event.op = ops) (hopeners : (ops.filterMap Op.opener).Nodup)
    (hkept : ∀ op ∈ ops, ∀ c, op ≠ .fibRelease c) : OpensOnce tr := by
  subst h
  refine ⟨?_, fun e he => hkept e.op (List.mem_map_of_mem he)⟩
  rw [List.filterMap_map] at hopeners
  exact hopeners

/-- The entries are those of the processes that have opened the device, in the same order. -/
theorem ids_eq_openers (hrun : Run Init (Step nFib) s tr) (honce : OpensOnce tr) :
    (s.processi.map fun b => b.val.id) = tr.filterMap fun e => e.op.opener := by
  induction hrun with
  | start h =>
    rw [h.1]
    rfl
  | @step s s' tr e hr hs ih =>
    rw [performs_ids ⟨tr, hr⟩ ⟨_, hs.1⟩, ih honce.tail, List.filterMap_cons]
    cases hop : e.op with
    | fibRelease c => exact absurd hop (honce.kept e List.mem_cons_self c)
    | _ => rfl

/-- Up to the next event no process has two entries, and one that opens the device has none. -/
theorem OpensOnce.fresh {e : Event} (honce : OpensOnce (e :: tr)) (hrun : Run Init (Step nFib) s tr) :
    (s.processi.map fun b => b.val.id).Nodup ∧
      ∀ c, e.op = .fibOpen c → s.processi.lookup Process.id c.tgid = none := by
  have hids := ids_eq_openers hrun honce.tail
  refine ⟨hids ▸ honce.tail.openers, fun c hop => ?_⟩
  rw [Table.lookup_eq_none]
  intro b hb hid
  have hopener : e.op.opener = some c.tgid := by
    rw [hop]
    rfl
  have hnd := honce.openers
  simp only [List.filterMap_cons, hopener, List.nodup_cons] at hnd
  refine hnd.1 ?_
  rw [← hids, ← hid]
  exact List.mem_map_of_mem hb

/-- **The driver is the machine.** Where every process opens the device at most once and keeps it, the
events of a run are a run of the machine, which ends in the machine that the final tables show. -/
theorem run_refines (hrun : Run Init (Step nFib) s tr) (honce : OpensOnce tr) :
    Run Machine.Init Machine.Step s.machine tr := by
  refine Run.simulate State.machine (fun _ _ h => h.tail) ?_ ?_ hrun honce
  · intro s hinit
    have hnone : ∀ tgid, s.processi.lookup Process.id tgid = none := by
      intro tgid
      rw [hinit.1]
      rfl
    exact ⟨fun tgid => machine_opened_none (hnone tgid), fun tgid => machine_current_none (hnone tgid),
      fun tgid => machine_fiber_none (hnone tgid)⟩
  · intro s tr e s' hr honce hs
    obtain ⟨hkeys, hopen⟩ := honce.fresh hr
    exact step_refines ⟨tr, hr⟩ hkeys hopen (honce.kept e List.mem_cons_self) hs

end run

end LinuxFibers
