import LinuxFibers.Driver.Run

/-!
# What an operation does to one entry

One lemma per function of the driver, saying everything the function can do to a well-formed entry.
`Process.Wf` is the shape of an entry: distinct ids and addresses, and the binding of threads and fibers
stored on both sides. Under it every walk over threads or fibers meets at most one node, so each
operation comes down to a few cases (`SwitchCase`, `doFibCreate_ok`, `runnerProcess_eq`).
-/

namespace LinuxFibers

open HeapTable

namespace Process

/-- The shape of an entry: `Thread.runner` and `Fiber.selectedThread` describe one binding. -/
structure Wf (p : Process) : Prop where
  threadIds : (p.listathread.map fun t => t.val.id).Nodup
  threadAddrs : p.listathread.addrs.Nodup
  fiberIds : (p.listafiber.map fun f => f.val.id).Nodup
  fiberAddrs : p.listafiber.addrs.Nodup
  runner : ∀ a t, p.listathread.deref a = some t →
    ∃ r f, t.runner = some r ∧ p.listafiber.deref r = some f ∧ f.selectedThread = some a
  selected : ∀ r f a, p.listafiber.deref r = some f → f.selectedThread = some a →
    ∃ t, p.listathread.deref a = some t ∧ t.runner = some r

/-- The thread `pid` has the node `thread` and runs the fiber `f` at address `r`. -/
structure Carries (p : Process) (pid : Int) (thread r : Nat) (f : Fiber) : Prop where
  thread : p.listathread.deref thread = some { runner := some r, id := pid }
  fiber : p.listafiber.deref r = some f

end Process

/-! ### Walks over threads and fibers -/

section walks

variable {α σ : Type} {id : α → Int} {T : Table α} {k pid : Int} {p : Process} {x : σ}
  {body : Nat → Process → σ → Except Fault (Process × σ)}

theorem possible_single (hnd : (T.map fun b => id b.val).Nodup) {b : Block α} (hb : b ∈ T)
    (hk : id b.val = k) : possible id k T = [b.addr] := by
  rw [possible_eq, Table.filter_key (fun b => id b.val) hnd hb hk]
  rfl

theorem possible_nil (hno : ∀ b ∈ T, id b.val ≠ k) : possible id k T = [] := by
  rw [possible_eq, List.filter_eq_nil_iff.mpr fun b hb => by simpa using hno b hb]
  rfl

theorem possible_eq_nil_iff : possible id k T = [] ↔ ∀ b ∈ T, id b.val ≠ k := by
  refine ⟨fun h b hb hk => ?_, possible_nil⟩
  rw [possible_eq, Table.addrs, List.map_eq_nil_iff, List.filter_eq_nil_iff] at h
  exact h b hb (by simpa using hk)

theorem forEachThread_none (hno : ∀ t ∈ p.listathread, t.val.id ≠ pid) :
    forEachThread pid body p x = .ok (p, x) := by
  rw [forEachThread, possible_nil hno]
  rfl

theorem forEachThread_one (hwf : p.Wf) {t : Block Thread} (ht : t ∈ p.listathread)
    (hid : t.val.id = pid) : forEachThread pid body p x = body t.addr p x := by
  rw [forEachThread, possible_single hwf.threadIds ht hid, List.foldlM_cons]
  simp only [List.foldlM_nil]
  cases body t.addr p x <;> rfl

/-- A converted thread runs a fiber; there is no third case. -/
theorem Process.Wf.carries_or (hwf : p.Wf) (pid : Int) :
    (∀ t ∈ p.listathread, t.val.id ≠ pid) ∨ ∃ thread r f, p.Carries pid thread r f := by
  by_cases hno : ∀ t ∈ p.listathread, t.val.id ≠ pid
  · exact .inl hno
  · push Not at hno
    obtain ⟨t, ht, rfl⟩ := hno
    have hderef := Table.deref_of_mem hwf.threadAddrs ht
    obtain ⟨r, f, hr, hf, -⟩ := hwf.runner _ _ hderef
    refine .inr ⟨t.addr, r, f, ?_, hf⟩
    rw [hderef, ← hr]

theorem Process.Carries.forEachThread_eq {thread r : Nat} {f : Fiber} (h : p.Carries pid thread r f)
    (hwf : p.Wf) : forEachThread pid body p x = body thread p x :=
  forEachThread_one hwf (Table.mem_of_deref h.thread) rfl

theorem Process.Carries.selected {thread r : Nat} {f : Fiber} (h : p.Carries pid thread r f)
    (hwf : p.Wf) : f.selectedThread = some thread := by
  obtain ⟨r', f', hr, hf, hsel⟩ := hwf.runner _ _ h.thread
  obtain rfl : r = r' := Option.some.inj hr
  obtain rfl : f = f' := Option.some.inj (h.fiber.symm.trans hf)
  exact hsel

end walks

/-! ### The exchange -/

def stamp (now : Timespec) : BitVec 64 := BitVec.ofInt 64 now.tvNsec

/-- What the exchange makes of the fiber left behind. -/
def leaveFiber (cpu : Cpu) (now : Timespec) (f : Fiber) : Fiber :=
  { f with
    regs := { f.regs with val := cpu.regs }
    fpu := { f.fpu with val := cpu.fpu }
    selectedThread := none
    execTime := f.execTime + (stamp now - f.lastActivationTime) }

/-- What the exchange makes of the fiber resumed. -/
def enterFiber (thread : Nat) (now : Timespec) (f : Fiber) : Fiber :=
  { f with
    selectedThread := some thread
    correctCounter := f.correctCounter + 1
    lastActivationTime := stamp now }

/-- What the exchange makes of the entry. -/
def exchanged (thread old new : Nat) (now : Timespec) (cpu : Cpu) (p : Process) : Process :=
  ((p.modFiber old (leaveFiber cpu now)).modFiber new (enterFiber thread now)).modThread thread
    fun t => { t with runner := some new }

def context (f : Fiber) : Cpu := { regs := f.regs.val, fpu := f.fpu.val }

theorem exchange_eq {thread old new : Nat} {now : Timespec} {p : Process} {cpu : Cpu} {g : Fiber}
    (hne : old ≠ new) (hg : p.listafiber.deref new = some g) :
    exchange thread old new now (p, cpu) = (exchanged thread old new now cpu p, context g) := by
  simp only [exchange, exchangeSteps, List.foldl_cons, List.foldl_nil, saveRegs, saveFpu, freeOld, loadRegs,
    loadFpu, bindFiber, bindThread, countNew, stampNew, chargeOld, Process.modFiber, Process.modThread,
    Table.deref_update_self, Table.deref_update_ne hne.symm, hg, Option.map_some, Option.getD_some,
    copyFxregsToKernel, copyKernelToFxregs, exchanged, context, Prod.mk.injEq, and_true]
  congr 1
  rw [Table.update_comm hne.symm, Table.update_comm hne.symm, Table.update_comm hne.symm]
  simp only [Table.update_update]
  rfl

/-! ### `fib_switch_to` on one entry -/

/-- The outcomes of `fib_switch_to(id)` by the thread `c` on one entry. -/
inductive SwitchCase (c : Task) (id : Int) (now : Timespec) (p : Process) (x : SwitchVars) :
    Process → SwitchVars → Prop
  | notConverted (hno : ∀ t ∈ p.listathread, t.val.id ≠ c.pid) : SwitchCase c id now p x p x
  | self {thread old : Nat} {f : Fiber} (hc : p.Carries c.pid thread old f) (hid : f.id = id) :
      SwitchCase c id now p x (countFailed old p) { x with ret := -1 }
  | absent {thread old : Nat} {f : Fiber} (hc : p.Carries c.pid thread old f) (hid : f.id ≠ id)
      (hno : ∀ g ∈ p.listafiber, g.val.id ≠ id) : SwitchCase c id now p x p x
  | busy {thread old new : Nat} {f g : Fiber} (hc : p.Carries c.pid thread old f) (hid : f.id ≠ id)
      (hg : p.listafiber.deref new = some g) (hgid : g.id = id) (hsel : g.selectedThread ≠ none) :
      SwitchCase c id now p x (countFailed old p) { x with ret := -1 }
  | done {thread old new : Nat} {f g : Fiber} (hc : p.Carries c.pid thread old f) (hid : f.id ≠ id)
      (hg : p.listafiber.deref new = some g) (hgid : g.id = id) (hsel : g.selectedThread = none) :
      SwitchCase c id now p x (exchanged thread old new now x.cpu p)
        { kmem := timeStr x.kmem, cpu := context g, ret := 0 }

/-- The target of a switch is another node than the fiber left. -/
theorem target_ne {p : Process} {old new : Nat} {f g : Fiber} {id : Int}
    (hf : p.listafiber.deref old = some f) (hg : p.listafiber.deref new = some g) (hid : f.id ≠ id)
    (hgid : g.id = id) : old ≠ new := by
  intro he
  subst he
  rw [hf, Option.some.injEq] at hg
  subst hg
  exact hid hgid

section switch

variable {p : Process} {c : Task} {id : Int} {now : Timespec} {x : SwitchVars} {thread old new : Nat}
  {f g : Fiber}

theorem switchProcess_notConverted (hno : ∀ t ∈ p.listathread, t.val.id ≠ c.pid) :
    switchProcess c id now p x = .ok (p, x) := forEachThread_none hno

theorem switchProcess_carries (hwf : p.Wf) (hc : p.Carries c.pid thread old f) :
    switchProcess c id now p x =
      if f.id = id then .ok (countFailed old p, { x with ret := -1 })
      else .ok ((possible Fiber.id id p.listafiber).foldl (switchTarget thread old now) (p, x)) := by
  have hrun : switchProcess c id now p x = switchThread id now thread p x := hc.forEachThread_eq hwf
  rw [hrun, switchThread, load_ok.mpr hc.thread]
  simp only [bind, Except.bind, load_ok.mpr hc.fiber]

theorem switchProcess_self (hwf : p.Wf) (hc : p.Carries c.pid thread old f) (hid : f.id = id) :
    switchProcess c id now p x = .ok (countFailed old p, { x with ret := -1 }) := by
  rw [switchProcess_carries hwf hc, if_pos hid]

theorem switchProcess_absent (hwf : p.Wf) (hc : p.Carries c.pid thread old f) (hid : f.id ≠ id)
    (hno : ∀ g ∈ p.listafiber, g.val.id ≠ id) : switchProcess c id now p x = .ok (p, x) := by
  rw [switchProcess_carries hwf hc, if_neg hid, possible_nil hno]
  rfl

theorem possible_target (hwf : p.Wf) (hg : p.listafiber.deref new = some g) (hgid : g.id = id) :
    possible Fiber.id id p.listafiber = [new] :=
  possible_single hwf.fiberIds (Table.mem_of_deref hg) hgid

theorem switchProcess_busy (hwf : p.Wf) (hc : p.Carries c.pid thread old f) (hid : f.id ≠ id)
    (hg : p.listafiber.deref new = some g) (hgid : g.id = id) (hsel : g.selectedThread ≠ none) :
    switchProcess c id now p x = .ok (countFailed old p, { x with ret := -1 }) := by
  obtain ⟨a, ha⟩ := Option.ne_none_iff_exists'.mp hsel
  rw [switchProcess_carries hwf hc, if_neg hid, possible_target hwf hg hgid, List.foldl_cons, List.foldl_nil]
  simp only [switchTarget, hg, Option.bind_some, ha]

theorem switchProcess_done (hwf : p.Wf) (hc : p.Carries c.pid thread old f) (hid : f.id ≠ id)
    (hg : p.listafiber.deref new = some g) (hgid : g.id = id) (hsel : g.selectedThread = none) :
    switchProcess c id now p x = .ok (exchanged thread old new now x.cpu p,
      { kmem := timeStr x.kmem, cpu := context g, ret := 0 }) := by
  rw [switchProcess_carries hwf hc, if_neg hid, possible_target hwf hg hgid, List.foldl_cons, List.foldl_nil]
  simp only [switchTarget, hg, Option.bind_some, hsel, exchange_eq (target_ne hc.fiber hg hid hgid) hg]

end switch

/-- On a well-formed entry `fib_switch_to` returns, with one of the outcomes. -/
theorem switchProcess_spec {p : Process} (hwf : p.Wf) (c : Task) (id : Int) (now : Timespec)
    (x : SwitchVars) :
    ∃ p' x', switchProcess c id now p x = .ok (p', x') ∧ SwitchCase c id now p x p' x' := by
  rcases hwf.carries_or c.pid with hno | ⟨thread, old, f, hc⟩
  · exact ⟨p, x, switchProcess_notConverted hno, .notConverted hno⟩
  by_cases hid : f.id = id
  · exact ⟨_, _, switchProcess_self hwf hc hid, .self hc hid⟩
  by_cases hno : ∀ g ∈ p.listafiber, g.val.id ≠ id
  · exact ⟨_, _, switchProcess_absent hwf hc hid hno, .absent hc hid hno⟩
  push Not at hno
  obtain ⟨⟨new, g⟩, hmem, hgid⟩ := hno
  have hg : p.listafiber.deref new = some g := Table.deref_of_mem hwf.fiberAddrs hmem
  by_cases hsel : g.selectedThread = none
  · exact ⟨_, _, switchProcess_done hwf hc hid hg hgid hsel, .done hc hid hg hgid hsel⟩
  · exact ⟨_, _, switchProcess_busy hwf hc hid hg hgid hsel, .busy hc hid hg hgid hsel⟩

/-! ### `do_fib_create` and its callers on one entry -/

/-- The record `do_fib_create` fills in, for the allocator's state `m` at its start. -/
def newFiber (c : Task) (regs : PtRegs) (fpu : Fpu) (func : BitVec 64) (id : Int) (m : Kmem) : Fiber :=
  { regs := ⟨m.next + 1, regs⟩
    fpu := ⟨m.next + 2, fpu⟩
    entryPoint := func
    selectedThread := none
    fls := ⟨m.next + 3, fun _ => 0⟩
    bitmapFls := ⟨m.next + 4, fun _ => 0⟩
    execTime := 0
    lastActivationTime := 0
    correctCounter := 0
    creator := c.pid
    id := id
    failedCounter := 0 }

theorem doFibCreate_ok {c : Task} {cpu : Cpu} {func parameters stackPointer stackSize : BitVec 64}
    {flag : Int} {p p' : Process} {m m' : Kmem} {b : Block Fiber}
    (hok : doFibCreate c cpu func parameters stackPointer stackSize flag p m = .ok (b, p', m')) :
    ∃ U, p.lastFibId < pidMax ∧
      addEntry (fibersEntryLog (m.next + 5) (p.lastFibId + 1)) p.listafiberStuff = .ok U ∧
      b = ⟨m.next, newFiber c (startRegs cpu.regs func parameters stackPointer stackSize flag) cpu.fpu func
        (p.lastFibId + 1) m⟩ ∧
      p' = { p with lastFibId := p.lastFibId + 1, listafiberStuff := U } ∧
      m' = { m with next := m.next + 6 } := by
  simp only [doFibCreate, kzalloc, nextFibId] at hok
  obtain ⟨id, hid, hok⟩ := bind_eq_ok.mp hok
  split_ifs at hid with hlt
  obtain rfl := Except.ok.inj hid
  obtain ⟨U, hU, hok⟩ := bind_eq_ok.mp hok
  simp only [Except.ok.injEq, Prod.mk.injEq] at hok
  obtain ⟨rfl, rfl, rfl⟩ := hok
  exact ⟨U, hlt, hU, rfl, rfl, rfl⟩

theorem createProcess_ok {c : Task} {cpu : Cpu} {func parameters stackPointer stackSize : BitVec 64}
    {p p' : Process} {x x' : CreateVars}
    (hok : createProcess c cpu func parameters stackPointer stackSize p x = .ok (p', x')) :
    ∃ U b, p.lastFibId < pidMax ∧
      addEntry (fibersEntryLog (x.kmem.next + 5) (p.lastFibId + 1)) p.listafiberStuff = .ok U ∧
      b = ⟨x.kmem.next, newFiber c (startRegs cpu.regs func parameters stackPointer stackSize 1) cpu.fpu func
        (p.lastFibId + 1) x.kmem⟩ ∧
      p' = addFiber { p with lastFibId := p.lastFibId + 1, listafiberStuff := U } b ∧
      x' = { kmem := { x.kmem with next := x.kmem.next + 6 }, listaFiberElem := some b } := by
  rw [createProcess, bind_eq_ok] at hok
  obtain ⟨⟨b, p₁, m₁⟩, hcreate, hok⟩ := hok
  obtain ⟨U, hlt, hU, rfl, rfl, rfl⟩ := doFibCreate_ok hcreate
  simp only [Except.ok.injEq, Prod.mk.injEq] at hok
  obtain ⟨rfl, rfl⟩ := hok
  exact ⟨U, _, hlt, hU, rfl, rfl, rfl⟩

/-- What `fib_convert` adds to an entry that does not hold the thread yet. -/
theorem convertThread_ok {c : Task} {cpu : Cpu} {now : Timespec} {p p' : Process} {x x' : ConvertVars}
    (hfresh : ∀ a ∈ p.listathread.addrs, a < x.kmem.next)
    (hok : convertThread c cpu now p x = .ok (p', x')) :
    ∃ U, p.lastFibId < pidMax ∧
      addEntry (fibersEntryLog (x.kmem.next + 6) (p.lastFibId + 1)) p.listafiberStuff = .ok U ∧
      p' = { p with
        listathread := ⟨x.kmem.next, { runner := some (x.kmem.next + 1), id := c.pid }⟩ :: p.listathread
        listafiber := ⟨x.kmem.next + 1,
          { newFiber c cpu.regs cpu.fpu cpu.regs.ip (p.lastFibId + 1)
              { x.kmem with next := x.kmem.next + 1 } with
            lastActivationTime := stamp now
            correctCounter := 1
            selectedThread := some x.kmem.next }⟩ :: p.listafiber
        listafiberStuff := U
        lastFibId := p.lastFibId + 1 } ∧
      x'.kmem = { next := x.kmem.next + 8, freed := (x.kmem.next + 7) :: x.kmem.freed } ∧
      x'.flagControllo = x.flagControllo ∧ x'.ret = p.lastFibId + 1 := by
  simp only [convertThread, doThreadCreate, kzalloc] at hok
  obtain ⟨⟨b, p₁, m₁⟩, hcreate, hok⟩ := bind_eq_ok.mp hok
  obtain ⟨U, hlt, hU, rfl, rfl, rfl⟩ := doFibCreate_ok hcreate
  simp only [Except.ok.injEq, Prod.mk.injEq] at hok
  obtain ⟨rfl, rfl⟩ := hok
  have hnew : x.kmem.next ∉ p.listathread.addrs := fun h => Nat.lt_irrefl _ (hfresh _ h)
  refine ⟨U, hlt, hU, ?_, rfl, rfl, rfl⟩
  simp only [addFiber, Process.modThread, Table.update_cons, if_true, Table.update_eq_self hnew]
  rfl

/-- `fib_convert` leaves an entry alone when this or an earlier one holds the thread. -/
theorem convertProcess_keep {c : Task} {cpu : Cpu} {now : Timespec} {p : Process} {x : ConvertVars}
    (h : x.flagControllo = true ∨ ∃ t ∈ p.listathread, t.val.id = c.pid) :
    convertProcess c cpu now p x = .ok (p, { x with flagControllo := true }) := by
  unfold convertProcess
  by_cases hno : possible Thread.id c.pid p.listathread = []
  · rcases h with hflag | ⟨t, ht, hid⟩
    · obtain ⟨m, flag, ret⟩ := x
      simp only at hflag
      subst hflag
      simp only [if_pos hno, if_true]
    · exact absurd hid (possible_eq_nil_iff.mp hno t ht)
  · simp only [if_neg hno, if_true]

theorem convertProcess_new {c : Task} {cpu : Cpu} {now : Timespec} {p : Process} {x : ConvertVars}
    (hflag : x.flagControllo = false) (hno : ∀ t ∈ p.listathread, t.val.id ≠ c.pid) :
    convertProcess c cpu now p x = convertThread c cpu now p x := by
  simp only [convertProcess, if_pos (possible_nil hno), hflag, Bool.false_eq_true, if_false]

/-! ### Fiber-local storage on one entry -/

theorem runnerProcess_none {σ : Type} {body : Fiber → σ → Except Fault (Fiber × σ)} {c : Task} {p : Process}
    (hno : ∀ t ∈ p.listathread, t.val.id ≠ c.pid) (x : σ) :
    forEachThread c.pid (runnerThread body) p x = .ok (p, x) :=
  forEachThread_none hno

theorem runnerProcess_eq {σ : Type} {body : Fiber → σ → Except Fault (Fiber × σ)} {c : Task} {p : Process}
    (hwf : p.Wf) {thread r : Nat} {f : Fiber} (hc : p.Carries c.pid thread r f) (x : σ) :
    forEachThread c.pid (runnerThread body) p x = (do
      let (f, x) ← body f x
      .ok (p.modFiber r fun _ => f, x)) := by
  rw [hc.forEachThread_eq hwf, runnerThread, load_ok.mpr hc.thread]
  simp only [bind, Except.bind, load_ok.mpr hc.fiber]

end LinuxFibers
