import LinuxFibers.Spec.Accounts
import LinuxFibers.Proof.Refine

/-!
# The driver keeps the figures

`State.accounts` reads the figures of every fiber out of the tables. Where each process has opened the device
once, every operation of the driver is a step of the accounts on the same event (`step_accounts`), and
every run is a run of the accounts (`run_accounts`).
-/

namespace LinuxFibers

open HeapTable Runs

/-! ### What an entry shows of its figures -/

def Fiber.figures (f : Fiber) : Figures :=
  { correct := f.correctCounter
    failed := f.failedCounter
    exec := f.execTime
    last := f.lastActivationTime
    running := f.selectedThread.isSome }

namespace Process

def figures (p : Process) (id : Int) : Option Figures := (p.listafiber.lookup Fiber.id id).map Fiber.figures

variable {p p' : Process}

theorem figures_update {id : Int} {f : Fiber}
    (h : p'.listafiber.lookup Fiber.id = Function.update (p.listafiber.lookup Fiber.id) id (some f)) :
    p'.figures = Function.update p.figures id (some f.figures) := by
  funext k
  by_cases hk : k = id
  · subst hk
    simp [figures, h]
  · simp [figures, h, hk]

theorem figures_of_deref (hwf : p.Wf) {r : Nat} {f : Fiber} (hf : p.listafiber.deref r = some f) :
    p.figures f.id = some f.figures := by
  have hfound : p.listafiber.lookup Fiber.id f.id = some f :=
    Table.lookup_of_mem hwf.fiberIds (Table.mem_of_deref hf)
  rw [figures, hfound]
  rfl

theorem figures_none {id : Int} (hno : ∀ f ∈ p.listafiber, f.val.id ≠ id) : p.figures id = none := by
  rw [figures, Table.lookup_eq_none.mpr hno]
  rfl

theorem figures_fresh {n : Nat} (h : p.Inv n) : p.figures (p.lastFibId + 1) = none := by
  refine figures_none fun f hf => ?_
  have := (h.fiberId f hf).2
  omega

theorem figures_modFiber (hwf : p.Wf) {r : Nat} {f : Fiber} {g : Fiber → Fiber}
    (hf : p.listafiber.deref r = some f) (hid : (g f).id = f.id) :
    (p.modFiber r g).figures = Function.update p.figures f.id (some (g f).figures) :=
  figures_update (Table.lookup_update hwf.fiberIds hwf.fiberAddrs hf hid)

theorem figures_cons {a : Nat} {g : Fiber} {T : Table Thread} {U : Table FiberStuff} {id : Int} :
    figures { p with
      listathread := T
      listafiber := ⟨a, g⟩ :: p.listafiber
      listafiberStuff := U
      lastFibId := id } = Function.update p.figures g.id (some g.figures) :=
  figures_update (Table.lookup_cons Fiber.id ⟨a, g⟩)

theorem figures_countFailed (hwf : p.Wf) {r : Nat} {f : Fiber} (hf : p.listafiber.deref r = some f) :
    (countFailed r p).figures = Function.update p.figures f.id (some f.figures.refuse) :=
  figures_modFiber hwf hf rfl

theorem figures_exchanged (hwf : p.Wf) {thread old new : Nat} {f g : Fiber} {now : Timespec} {cpu : Cpu}
    (hf : p.listafiber.deref old = some f) (hg : p.listafiber.deref new = some g) (hne : old ≠ new) :
    (exchanged thread old new now cpu p).figures =
      Function.update (Function.update p.figures f.id (some (f.figures.leave now))) g.id
        (some (g.figures.enter now)) := by
  funext k
  rw [figures, lookup_exchanged hwf hf hg hne]
  by_cases hk : k = g.id
  · subst hk
    simp [enterFiber, Fiber.figures, Figures.enter, stamp, stampOf]
  · rw [Function.update_of_ne hk, Function.update_of_ne hk]
    by_cases hj : k = f.id
    · subst hj
      simp [leaveFiber, Fiber.figures, Figures.leave, stamp, stampOf]
    · rw [Function.update_of_ne hj, Function.update_of_ne hj, figures]

end Process

section views

variable {c : Task} {cpu : Cpu} {now : Timespec} {p p' : Process}

theorem convertThread_figures {x x' : ConvertVars} (hinv : p.Inv x.kmem.next)
    (hok : convertThread c cpu now p x = .ok (p', x')) :
    p'.figures = Function.update p.figures (p.lastFibId + 1) (some (.converted now)) := by
  obtain ⟨U, -, -, rfl, -⟩ := convertThread_ok hinv.threadBound hok
  exact Process.figures_cons

theorem createProcess_figures {func parameters stackPointer stackSize : BitVec 64} {x x' : CreateVars}
    (hok : createProcess c cpu func parameters stackPointer stackSize p x = .ok (p', x')) :
    p'.figures = Function.update p.figures (p.lastFibId + 1) (some .created) := by
  obtain ⟨U, b, -, -, rfl, rfl, -⟩ := createProcess_ok hok
  exact Process.figures_cons

end views

/-! ### The accounts of a state -/

def State.accounts (s : State) : Accounts where
  current := s.machine.current
  fiber tgid := (s.processi.lookup Process.id tgid).elim (fun _ => none) Process.figures

section accounts

variable {s s' : State} {tgid : Int} {p p' : Process}

theorem accounts_fiber (h : s.processi.lookup Process.id tgid = some p) : s.accounts.fiber tgid = p.figures := by
  simp only [State.accounts, h, Option.elim]

theorem accounts_fiber_none (h : s.processi.lookup Process.id tgid = none) (id : Int) :
    s.accounts.fiber tgid id = none := by
  simp only [State.accounts, h, Option.elim]

theorem accounts_current (h : s.processi.lookup Process.id tgid = some p) :
    s.accounts.current tgid = p.current := machine_current h

/-- What changes when one entry of the table does. -/
theorem accounts_update {T : Table Process} {m : Kmem} {cpu : Task → Cpu}
    (h : T.lookup Process.id = Function.update (s.processi.lookup Process.id) tgid (some p')) :
    State.accounts { processi := T, kmem := m, cpu := cpu } =
      { current := Function.update s.accounts.current tgid p'.current
        fiber := Function.update s.accounts.fiber tgid p'.figures } := by
  simp only [State.accounts, machine_update h, Accounts.mk.injEq, true_and]
  funext t
  by_cases ht : t = tgid
  · subst ht
    simp [h]
  · simp [h, ht]

/-- An entry that shows the same shows nothing new. -/
theorem accounts_same {T : Table Process} {m : Kmem} {cpu : Task → Cpu}
    (hp : s.processi.lookup Process.id tgid = some p)
    (h : T.lookup Process.id = Function.update (s.processi.lookup Process.id) tgid (some p'))
    (hcurrent : p'.current = p.current) (hfigures : p'.figures = p.figures) :
    State.accounts { processi := T, kmem := m, cpu := cpu } = s.accounts := by
  rw [accounts_update h, hcurrent, hfigures, ← accounts_current hp, ← accounts_fiber hp, Function.update_eq_self,
    Function.update_eq_self]

end accounts

/-! ### Each operation is a step of the accounts -/

/-- The operations that create fibers or switch between them. -/
def Op.movesFibers : Op → Bool
  | .fibConvert _ _ | .fibCreate _ _ _ _ _ | .fibSwitchTo _ _ _ => true
  | _ => false

theorem silent_of_op {e : Event} (h : e.op.movesFibers = false) : Accounts.Silent e := by
  refine ⟨fun c now hop => ?_, fun c func parameters stackPointer stackSize hop => ?_, fun c id now hop => ?_⟩ <;>
    rw [hop] at h <;> cases h

section step

variable {nFib : Nat} {s s' : State} {c : Task} {e : Event}

theorem fibConvert_accounts (h : Reached nFib s) (hkeys : (s.processi.map fun b => b.val.id).Nodup)
    {now : Timespec} {cpu : Cpu} {ret : Int} (hok : fibConvert c now s = .ok (s', ret)) :
    Accounts.Step s.accounts ⟨.fibConvert c now, cpu, some ret⟩ s'.accounts := by
  obtain ⟨⟨T, y⟩, hwalk, hok⟩ := bind_eq_ok.mp hok
  cases hok
  have hsilent : Accounts.Silent ⟨.fibConvert c now, cpu, some (-1)⟩ :=
    ⟨fun _ _ _ => rfl, fun _ _ _ _ _ hop => (by cases hop), fun _ _ _ hop => (by cases hop)⟩
  rcases walk_lookup h hkeys (fun _ _ _ _ hq => walkKeeps_id.convertProcess hq) hwalk with
    ⟨hp, rfl, rfl⟩ | ⟨p, p', hp, hinv, hbody, hT⟩
  · exact .silent hsilent
  · by_cases hno : ∀ t ∈ p.listathread, t.val.id ≠ c.pid
    · rw [convertProcess_new rfl hno] at hbody
      obtain ⟨hcurrent, -, hret⟩ := convertThread_view hinv hbody
      have hfigures := convertThread_figures hinv hbody
      have hcur : s.accounts.current c.tgid c.pid = none := by
        rw [accounts_current hp, Process.current_none hno]
      have hnew : s.accounts.fiber c.tgid (p.lastFibId + 1) = none := by
        rw [accounts_fiber hp, Process.figures_fresh hinv]
      have hpos : 0 < p.lastFibId + 1 := by
        have := hinv.lastFibId
        omega
      rw [accounts_update hT, hret, hcurrent, hfigures, ← accounts_current hp, ← accounts_fiber hp]
      exact .convert hcur hpos hnew
    · push Not at hno
      rw [convertProcess_keep (.inr hno)] at hbody
      cases hbody
      rw [accounts_same hp hT rfl rfl]
      exact .silent hsilent

theorem fibCreate_accounts (h : Reached nFib s) (hkeys : (s.processi.map fun b => b.val.id).Nodup)
    {func parameters stackPointer stackSize : BitVec 64} {cpu : Cpu} {r : Option (Block Fiber)}
    (hok : fibCreate c func parameters stackPointer stackSize s = .ok (s', r)) :
    Accounts.Step s.accounts ⟨.fibCreate c func parameters stackPointer stackSize, cpu,
      r.map fun b => b.val.id⟩ s'.accounts := by
  obtain ⟨⟨T, y⟩, hwalk, hok⟩ := bind_eq_ok.mp hok
  cases hok
  rcases walk_lookup h hkeys (fun _ _ _ _ hq => walkKeeps_id.createProcess hq) hwalk with
    ⟨hp, rfl, rfl⟩ | ⟨p, p', hp, hinv, hbody, hT⟩
  · exact .silent ⟨fun _ _ hop => (by cases hop), fun _ _ _ _ _ _ => rfl, fun _ _ _ hop => (by cases hop)⟩
  · obtain ⟨hcurrent, -, hret⟩ := createProcess_view hinv hbody
    have hnew : s.accounts.fiber c.tgid (p.lastFibId + 1) = none := by
      rw [accounts_fiber hp, Process.figures_fresh hinv]
    rw [accounts_update hT, hret, hcurrent, createProcess_figures hbody, ← accounts_current hp,
      ← accounts_fiber hp, Function.update_eq_self]
    exact .create hnew

/-- The ways a switch ends. -/
theorem fibSwitchTo_accounts (h : Reached nFib s) (hkeys : (s.processi.map fun b => b.val.id).Nodup) {id : Int}
    {now : Timespec} {cpu : Cpu} {ret : Int} (hok : fibSwitchTo c id now s = .ok (s', ret)) :
    Accounts.Step s.accounts ⟨.fibSwitchTo c id now, cpu, some ret⟩ s'.accounts := by
  obtain ⟨⟨T, y⟩, hwalk, hok⟩ := bind_eq_ok.mp hok
  cases hok
  rcases walk_lookup h hkeys (fun _ _ _ _ hq => walkKeeps_id.switchProcess hq) hwalk with
    ⟨hp, rfl, rfl⟩ | ⟨p, p', hp, hinv, hbody, hT⟩
  · exact .notConverted (machine_current_none hp _)
  · have hwf := hinv.toWf
    obtain ⟨q, z, hq, hcase⟩ := switchProcess_spec hwf c id now ⟨s.kmem, s.cpu c, -1⟩
    rw [hbody, Except.ok.injEq, Prod.mk.injEq] at hq
    obtain ⟨rfl, rfl⟩ := hq
    have hcurrent : ∀ {thread old : Nat} {f : Fiber}, p.Carries c.pid thread old f →
        s.accounts.current c.tgid c.pid = some f.id := by
      intro thread old f hc
      rw [accounts_current hp, hc.current hwf]
    have hrunning : ∀ {thread old : Nat} {f : Fiber}, p.Carries c.pid thread old f →
        f.figures.running = true := by
      intro thread old f hc
      simp only [Fiber.figures, hc.selected hwf, Option.isSome_some]
    have hfigures : ∀ {r : Nat} {f : Fiber}, p.listafiber.deref r = some f →
        s.accounts.fiber c.tgid f.id = some f.figures := by
      intro r f hf
      rw [accounts_fiber hp, Process.figures_of_deref hwf hf]
    have hfailed : ∀ {r : Nat} {f : Fiber}, p.listafiber.deref r = some f →
        (countFailed r p).current = p.current := fun _ => Process.current_modFiber fun _ _ => rfl
    cases hcase with
    | notConverted hno =>
      rw [accounts_same hp hT rfl rfl]
      exact .notConverted (by rw [accounts_current hp, Process.current_none hno])
    | absent hc hid hno =>
      rw [accounts_same hp hT rfl rfl]
      exact .absent (by rw [accounts_fiber hp, Process.figures_none hno])
    | self hc hid =>
      subst hid
      rw [accounts_update hT, hfailed hc.fiber, Process.figures_countFailed hwf hc.fiber, ← accounts_current hp,
        ← accounts_fiber hp, Function.update_eq_self]
      exact .running (hcurrent hc) (hfigures hc.fiber) (hfigures hc.fiber) (hrunning hc)
    | busy hc hid hg hgid hsel =>
      subst hgid
      rw [accounts_update hT, hfailed hc.fiber, Process.figures_countFailed hwf hc.fiber, ← accounts_current hp,
        ← accounts_fiber hp, Function.update_eq_self]
      exact .running (hcurrent hc) (hfigures hc.fiber) (hfigures hg) (Option.isSome_iff_ne_none.mpr hsel)
    | done hc hid hg hgid hsel =>
      have hne := target_ne hc.fiber hg hid hgid
      subst hgid
      have hfree : ∀ g : Fiber, g.selectedThread = none → g.figures.running = false := by
        intro g hg
        simp only [Fiber.figures, hg, Option.isSome_none]
      have hstep : Accounts.Step s.accounts ⟨.fibSwitchTo c _ now, cpu, some 0⟩ _ :=
        .switch (hcurrent hc) hid (hfigures hc.fiber) (hrunning hc) (hfigures hg) (hfree _ hsel)
      simp only [Accounts.setFiber, Accounts.setCurrent, Function.update_self, Function.update_idem] at hstep
      rw [accounts_update hT, Process.current_exchanged hwf hc hg hne,
        Process.figures_exchanged hwf hc.fiber hg hne, ← accounts_current hp, ← accounts_fiber hp]
      exact hstep

/-- The operations on the local storage touch no figure. -/
theorem onRunner_accounts (h : Reached nFib s) (hkeys : (s.processi.map fun b => b.val.id).Nodup) {σ : Type}
    {body : Fiber → σ → Except Fault (Fiber × σ)} (hkeeps : KeepsBinding body) {x x' : σ}
    (hok : onRunner c body s x = .ok (s', x')) : s'.accounts = s.accounts := by
  obtain ⟨⟨T, y⟩, hwalk, hok⟩ := bind_eq_ok.mp hok
  cases hok
  rcases walk_lookup h hkeys (fun _ _ _ _ hq => walkKeeps_id.runnerProcess hq) hwalk with
    ⟨hp, rfl, rfl⟩ | ⟨p, p', hp, hinv, hrun, hT⟩
  · rfl
  · rcases hinv.carries_or c.pid with hno | ⟨thread, r, f, hc⟩
    · rw [runnerProcess_none hno] at hrun
      cases hrun
      exact accounts_same hp hT rfl rfl
    · rw [runnerProcess_eq hinv.toWf hc] at hrun
      obtain ⟨⟨f', x₁⟩, hf, hrun⟩ := bind_eq_ok.mp hrun
      cases hrun
      obtain ⟨fls, bitmap, rfl⟩ := hkeeps _ _ _ _ hf
      refine accounts_same hp hT (Process.current_modFiber fun g hg => ?_) ?_
      · rw [hc.fiber, Option.some.injEq] at hg
        rw [← hg]
      · refine (Process.figures_modFiber hinv.toWf hc.fiber rfl).trans ?_
        rw [Function.update_eq_self_iff]
        exact (Process.figures_of_deref hinv.toWf hc.fiber).symm

/-- A process that opens the device for the first time has neither fibers nor converted threads. -/
theorem fibOpen_accounts {c : Task} (hnone : s.processi.lookup Process.id c.tgid = none) :
    (fibOpen nFib c s).accounts = s.accounts := by
  have hT : (fibOpen nFib c s).processi.lookup Process.id =
      Function.update (s.processi.lookup Process.id) c.tgid
        (some (newProcess nFib c.tgid (s.kmem.next + 1) (s.kmem.next + 2))) :=
    Table.lookup_cons Process.id _
  have hcurrent : Process.current (newProcess nFib c.tgid (s.kmem.next + 1) (s.kmem.next + 2)) =
      s.accounts.current c.tgid := by
    funext pid
    exact (machine_current_none hnone pid).symm
  have hfigures : Process.figures (newProcess nFib c.tgid (s.kmem.next + 1) (s.kmem.next + 2)) =
      s.accounts.fiber c.tgid := by
    funext id
    exact (accounts_fiber_none hnone id).symm
  refine (accounts_update hT).trans ?_
  rw [hcurrent, hfigures, Function.update_eq_self, Function.update_eq_self]

/-- **One operation.** Where no two entries are of one process, an operation other than a release, and an
open by a process that has none, is a step of the accounts. -/
theorem step_accounts (h : Reached nFib s) (hkeys : (s.processi.map fun b => b.val.id).Nodup)
    (hopen : ∀ c, e.op = .fibOpen c → s.processi.lookup Process.id c.tgid = none)
    (hrelease : ∀ c, e.op ≠ .fibRelease c) (hstep : Step nFib s e s') :
    Accounts.Step s.accounts e s'.accounts := by
  obtain ⟨op, cpu, out⟩ := e
  obtain ⟨hok, -⟩ := hstep
  simp only at hok hopen hrelease
  cases op with
  | fibOpen c =>
    cases hok
    rw [fibOpen_accounts (hopen c rfl)]
    exact .silent (silent_of_op rfl)
  | fibRelease c => exact absurd rfl (hrelease c)
  | fibConvert c now =>
    obtain ⟨⟨s₁, ret⟩, hrun, hok⟩ := bind_eq_ok.mp hok
    cases hok
    exact fibConvert_accounts h hkeys hrun
  | fibCreate c func parameters stackPointer stackSize =>
    obtain ⟨⟨s₁, r⟩, hrun, hok⟩ := bind_eq_ok.mp hok
    cases hok
    exact fibCreate_accounts h hkeys hrun
  | fibSwitchTo c id now =>
    obtain ⟨⟨s₁, ret⟩, hrun, hok⟩ := bind_eq_ok.mp hok
    cases hok
    exact fibSwitchTo_accounts h hkeys hrun
  | user c cpu' =>
    cases hok
    exact .silent (silent_of_op rfl)
  | flsAlloc c =>
    obtain ⟨⟨s₁, index⟩, hrun, hok⟩ := bind_eq_ok.mp hok
    cases hok
    rw [onRunner_accounts h hkeys flsAllocFiber_keeps hrun]
    exact .silent (silent_of_op rfl)
  | flsFree c index =>
    obtain ⟨⟨s₁, ret⟩, hrun, hok⟩ := bind_eq_ok.mp hok
    cases hok
    rw [onRunner_accounts h hkeys (flsFreeFiber_keeps index) hrun]
    exact .silent (silent_of_op rfl)
  | flsGetValue c pos =>
    obtain ⟨⟨s₁, ret⟩, hrun, hok⟩ := bind_eq_ok.mp hok
    cases hok
    rw [onRunner_accounts h hkeys (flsGetValueFiber_keeps pos) hrun]
    exact .silent (silent_of_op rfl)
  | flsSetValue c pos val =>
    obtain ⟨⟨s₁, ret⟩, hrun, hok⟩ := bind_eq_ok.mp hok
    cases hok
    rw [onRunner_accounts h hkeys (flsSetValueFiber_keeps pos val) hrun]
    exact .silent (silent_of_op rfl)

end step

section run

variable {nFib : Nat} {s s' : State} {tr : List Event} {e : Event}

/-- **The driver keeps the figures.** Where every process opens the device at most once and keeps it, the
events of a run are a run of the accounts. -/
theorem run_accounts (hrun : Run Init (Step nFib) s tr) (honce : OpensOnce tr) :
    Run Accounts.Init Accounts.Step s.accounts tr := by
  refine Run.simulate State.accounts (fun _ _ h => h.tail) ?_ ?_ hrun honce
  · intro s hinit
    have hnone : ∀ tgid, s.processi.lookup Process.id tgid = none := by
      intro tgid
      rw [hinit.1]
      rfl
    exact ⟨fun tgid => machine_current_none (hnone tgid), fun tgid => accounts_fiber_none (hnone tgid)⟩
  · intro s tr e s' hr honce hs
    obtain ⟨hkeys, hopen⟩ := honce.fresh hr
    exact step_accounts ⟨tr, hr⟩ hkeys hopen (honce.kept e List.mem_cons_self) hs

end run

end LinuxFibers
