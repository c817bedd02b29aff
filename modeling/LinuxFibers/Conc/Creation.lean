import LinuxFibers.Proof.Directory

/-!
# Concurrent creations

The threads of one process inside `fib_create` and `fib_convert` at once. Nothing is locked (`rcu_read_lock`
keeps nobody out), so every load and every store of `last_fib_id`, of `len_fiber_stuff` and of
`fiber_base_stuff[i]` in `do_fib_create` is a step of its own. What a call does to memory that only it can
reach happens in the step before.

* A process has one directory (`DirInv`), at the address `dir`, so the walk of bucket `0` meets one node.
* `kzalloc` and `hash_add_rcu` take one step each.
-/

namespace LinuxFibers

open HeapTable Runs

/-- A call of `fib_create`, or one of `fib_convert` with what `getnstimeofday` answers in it. -/
inductive Request
  | fibCreate (func parameters stackPointer stackSize : BitVec 64)
  | fibConvert (now : Timespec)

/-- What the caller of `do_fib_create` does with the fiber returned. -/
inductive Caller
  | fibCreate
  | fibConvert (thread : Nat) (now : Timespec)

/-- Where a thread is; `b` is the fiber it fills in, and `name` the block of its entry's name. -/
inductive CreatePc
  | idle
  /-- at the load in `last_fib_id += 1` -/
  | loadLast (k : Caller) (b : Block Fiber)
  /-- at the store in it, with the value loaded -/
  | storeLast (k : Caller) (b : Block Fiber) (last : Int)
  /-- at `str_fiber->id = last_fib_id` -/
  | loadId (k : Caller) (b : Block Fiber)
  /-- at `i = len_fiber_stuff` -/
  | loadLen (k : Caller) (b : Block Fiber) (name : Nat)
  /-- at `fiber_base_stuff[i] = fibers_entry_log` -/
  | storeEntry (k : Caller) (b : Block Fiber) (name : Nat) (i : Nat)
  /-- at `len_fiber_stuff = i + 1` -/
  | storeLen (k : Caller) (b : Block Fiber) (name : Nat) (i : Nat)
  /-- at `hash_add_rcu` and the return -/
  | publish (k : Caller) (b : Block Fiber)

/-- The entry, the allocator and the registers, where each thread is, the calls it has still to make and the
values that its calls returned. -/
structure Creation where
  proc : Process
  kmem : Kmem
  cpu : Int → Cpu
  dir : Nat
  pc : Int → CreatePc
  todo : Int → List Request
  rets : Int → List Int

/-- `do_fib_create` up to `last_fib_id`; the pointers not assigned yet are `NULL`. -/
def beginFiber (pid : Int) (cpu : Cpu) (func parameters stackPointer stackSize : BitVec 64) (flag : Int)
    (m : Kmem) : Block Fiber × Kmem :=
  let (strFiber, m) := kzalloc m
  let (regs, m) := kzalloc m
  let (fpu, m) := kzalloc m
  (⟨strFiber,
    { regs := ⟨regs, startRegs cpu.regs func parameters stackPointer stackSize flag⟩
      fpu := ⟨fpu, copyFxregsToKernel cpu⟩
      entryPoint := func
      selectedThread := none
      fls := ⟨0, fun _ => 0⟩
      bitmapFls := ⟨0, fun _ => 0⟩
      execTime := 0
      lastActivationTime := 0
      correctCounter := 0
      creator := pid
      id := 0
      failedCounter := 0 }⟩, m)

/-- `do_fib_create` from the id to the directory, with the block of the entry's name. -/
def nameFiber (b : Block Fiber) (id : Int) (m : Kmem) : Block Fiber × Nat × Kmem :=
  let (fls, m) := kzalloc m
  let (bitmapFls, m) := kzalloc m
  let (name, m) := kzalloc m
  ({ b with val := { b.val with id := id, fls := ⟨fls, fun _ => 0⟩, bitmapFls := ⟨bitmapFls, fun _ => 0⟩ } },
    name, m)

/-- The rest of the caller. -/
def publishFiber (p : Process) (m : Kmem) (b : Block Fiber) : Caller → Process × Kmem
  | .fibCreate => (addFiber p { b with val := { b.val with selectedThread := none } }, m)
  | .fibConvert thread now =>
    let fiber := { b.val with
      lastActivationTime := BitVec.ofInt 64 now.tvNsec
      correctCounter := 1
      selectedThread := some thread }
    (addFiber (p.modThread thread fun t => { t with runner := some b.addr }) { b with val := fiber }, timeStr m)

section publish

variable {p : Process} {m : Kmem} {b : Block Fiber} {k : Caller}

theorem publishFiber_lastFibId : (publishFiber p m b k).1.lastFibId = p.lastFibId := by
  cases k <;> rfl

theorem publishFiber_listafiberStuff : (publishFiber p m b k).1.listafiberStuff = p.listafiberStuff := by
  cases k <;> rfl

theorem publishFiber_fiberIds : ((publishFiber p m b k).1.listafiber.map fun f => f.val.id) =
    b.val.id :: p.listafiber.map fun f => f.val.id := by
  cases k <;> rfl

theorem publishFiber_threadIds : ((publishFiber p m b k).1.listathread.map fun n => n.val.id) =
    p.listathread.map fun n => n.val.id := by
  cases k with
  | fibCreate => rfl
  | fibConvert thread now =>
    show ((p.listathread.update thread fun t => { t with runner := some b.addr }).map fun n => n.val.id) = _
    exact Table.map_update Thread.id fun _ => rfl

end publish

namespace Creation

def goto (cf : Creation) (t : Int) (pc : CreatePc) : Creation := { cf with pc := Function.update cf.pc t pc }

def setTodo (cf : Creation) (t : Int) (calls : List Request) : Creation :=
  { cf with todo := Function.update cf.todo t calls }

def setProc (cf : Creation) (p : Process) : Creation := { cf with proc := p }

def setKmem (cf : Creation) (m : Kmem) : Creation := { cf with kmem := m }

def returns (cf : Creation) (t : Int) (ret : Int) : Creation :=
  { cf with rets := Function.update cf.rets t (cf.rets t ++ [ret]) }

/-- The directory of the process. -/
def stuff (cf : Creation) : Option FiberStuff := cf.proc.listafiberStuff.deref cf.dir

def modStuff (cf : Creation) (g : FiberStuff → FiberStuff) : Creation :=
  { cf with proc := { cf.proc with listafiberStuff := cf.proc.listafiberStuff.update cf.dir g } }

/-- The next step of the thread `t`; `none` when it has no call to make or the step is a fault. -/
def next (cf : Creation) (t : Int) : Option Creation :=
  match cf.pc t with
  | .idle =>
    match cf.todo t with
    | [] => none
    | .fibCreate func parameters stackPointer stackSize :: calls =>
      let (b, m) := beginFiber t (cf.cpu t) func parameters stackPointer stackSize 1 cf.kmem
      some (((cf.setTodo t calls).setKmem m).goto t (.loadLast .fibCreate b))
    | .fibConvert now :: calls =>
      if possible Thread.id t cf.proc.listathread = [] then
        let (thread, p, m) := doThreadCreate cf.proc t cf.kmem
        let (b, m) := beginFiber t (cf.cpu t) (cf.cpu t).regs.ip 0 0 (-1) 0 m
        some ((((cf.setTodo t calls).setProc p).setKmem m).goto t (.loadLast (.fibConvert thread now) b))
      else some ((cf.setTodo t calls).returns t (-1))
  | .loadLast k b => some (cf.goto t (.storeLast k b cf.proc.lastFibId))
  | .storeLast k b last =>
    if last < pidMax then some ((cf.setProc { cf.proc with lastFibId := last + 1 }).goto t (.loadId k b))
    else none
  | .loadId k b =>
    let (b, name, m) := nameFiber b cf.proc.lastFibId cf.kmem
    some ((cf.setKmem m).goto t (.loadLen k b name))
  | .loadLen k b name => cf.stuff.map fun stuff => cf.goto t (.storeEntry k b name stuff.lenFiberStuff)
  | .storeEntry k b name i =>
    cf.stuff.bind fun stuff =>
      if i < stuff.fiberBaseStuff.val.length then
        some ((cf.modStuff fun stuff => { stuff with fiberBaseStuff := { stuff.fiberBaseStuff with
          val := stuff.fiberBaseStuff.val.set i (fibersEntryLog name b.val.id) } }).goto t
            (.storeLen k b name i))
      else none
  | .storeLen k b _ i =>
    some ((cf.modStuff fun stuff => { stuff with lenFiberStuff := i + 1 }).goto t (.publish k b))
  | .publish k b =>
    let (p, m) := publishFiber cf.proc cf.kmem b k
    some ((((cf.setProc p).setKmem m).goto t .idle).returns t b.val.id)

/-- A step of the system is a step of some thread. -/
def Next (cf : Creation) (t : Int) (cf' : Creation) : Prop := cf.next t = some cf'

/-- All calls have returned. -/
def Complete (cf : Creation) : Prop := ∀ t, cf.pc t = .idle ∧ cf.todo t = []

def done (cf : Creation) (t : Int) : Bool :=
  match cf.pc t, cf.todo t with
  | .idle, [] => true
  | _, _ => false

theorem done_iff {cf : Creation} {t : Int} : cf.done t = true ↔ cf.pc t = .idle ∧ cf.todo t = [] := by
  unfold done
  split <;> simp_all

end Creation

/-! ### Steps -/

/-- What `fib_convert` tests first. -/
def Process.converted (p : Process) (pid : Int) : Bool := decide (possible Thread.id pid p.listathread ≠ [])

theorem converted_iff {p : Process} {pid : Int} :
    p.converted pid = true ↔ pid ∈ p.listathread.map fun n => n.val.id := by
  rw [Process.converted, decide_eq_true_eq, Ne, possible_eq_nil_iff]
  simp

namespace Creation

/-- What one step of a thread can do. -/
inductive Taken (cf : Creation) (t : Int) : Creation → Prop
  | created {func parameters stackPointer stackSize : BitVec 64} {calls : List Request} {b : Block Fiber}
      {m : Kmem} (hpc : cf.pc t = .idle)
      (htodo : cf.todo t = .fibCreate func parameters stackPointer stackSize :: calls) :
      Taken cf t (((cf.setTodo t calls).setKmem m).goto t (.loadLast .fibCreate b))
  | converted {now : Timespec} {calls : List Request} {thread : Nat} {b : Block Fiber} {m : Kmem}
      (hpc : cf.pc t = .idle) (htodo : cf.todo t = .fibConvert now :: calls)
      (hno : cf.proc.converted t = false) :
      Taken cf t ((((cf.setTodo t calls).setProc (doThreadCreate cf.proc t cf.kmem).2.1).setKmem m).goto t
        (.loadLast (.fibConvert thread now) b))
  | refused {now : Timespec} {calls : List Request} (hpc : cf.pc t = .idle)
      (htodo : cf.todo t = .fibConvert now :: calls) (hyes : cf.proc.converted t = true) :
      Taken cf t ((cf.setTodo t calls).returns t (-1))
  | loadedLast {k : Caller} {b : Block Fiber} (hpc : cf.pc t = .loadLast k b) :
      Taken cf t (cf.goto t (.storeLast k b cf.proc.lastFibId))
  | storedLast {k : Caller} {b : Block Fiber} {last : Int} (hpc : cf.pc t = .storeLast k b last) :
      Taken cf t ((cf.setProc { cf.proc with lastFibId := last + 1 }).goto t (.loadId k b))
  | loadedId {k : Caller} {b b' : Block Fiber} {name : Nat} {m : Kmem} (hpc : cf.pc t = .loadId k b)
      (hid : b'.val.id = cf.proc.lastFibId) : Taken cf t ((cf.setKmem m).goto t (.loadLen k b' name))
  | loadedLen {k : Caller} {b : Block Fiber} {name : Nat} {stuff : FiberStuff}
      (hpc : cf.pc t = .loadLen k b name) (hstuff : cf.stuff = some stuff) :
      Taken cf t (cf.goto t (.storeEntry k b name stuff.lenFiberStuff))
  | storedEntry {k : Caller} {b : Block Fiber} {name i : Nat} {stuff : FiberStuff}
      (hpc : cf.pc t = .storeEntry k b name i) (hstuff : cf.stuff = some stuff)
      (hi : i < stuff.fiberBaseStuff.val.length) :
      Taken cf t ((cf.modStuff fun stuff => { stuff with fiberBaseStuff := { stuff.fiberBaseStuff with
        val := stuff.fiberBaseStuff.val.set i (fibersEntryLog name b.val.id) } }).goto t (.storeLen k b name i))
  | storedLen {k : Caller} {b : Block Fiber} {name i : Nat} (hpc : cf.pc t = .storeLen k b name i) :
      Taken cf t ((cf.modStuff fun stuff => { stuff with lenFiberStuff := i + 1 }).goto t (.publish k b))
  | published {k : Caller} {b : Block Fiber} (hpc : cf.pc t = .publish k b) :
      Taken cf t ((((cf.setProc (publishFiber cf.proc cf.kmem b k).1).setKmem
        (publishFiber cf.proc cf.kmem b k).2).goto t .idle).returns t b.val.id)

theorem taken {cf cf' : Creation} {t : Int} (h : Next cf t cf') : cf.Taken t cf' := by
  unfold Next next at h
  cases hpc : cf.pc t with
  | idle =>
    simp only [hpc] at h
    split at h
    · cases h
    · rename_i func parameters stackPointer stackSize calls htodo
      cases h
      exact .created hpc htodo
    · rename_i now calls htodo
      split_ifs at h with hno
      · cases h
        exact .converted hpc htodo (by simp [Process.converted, hno])
      · cases h
        exact .refused hpc htodo (by simp [Process.converted, hno])
  | loadLast k b =>
    simp only [hpc] at h
    cases h
    exact .loadedLast hpc
  | storeLast k b last =>
    simp only [hpc] at h
    split_ifs at h with hlast
    cases h
    exact .storedLast hpc
  | loadId k b =>
    simp only [hpc] at h
    cases h
    exact .loadedId hpc rfl
  | loadLen k b name =>
    simp only [hpc] at h
    obtain ⟨stuff, hstuff, h⟩ := Option.map_eq_some_iff.mp h
    subst h
    exact .loadedLen hpc hstuff
  | storeEntry k b name i =>
    simp only [hpc] at h
    obtain ⟨stuff, hstuff, h⟩ := Option.bind_eq_some_iff.mp h
    split_ifs at h with hi
    cases h
    exact .storedEntry hpc hstuff hi
  | storeLen k b name i =>
    simp only [hpc] at h
    cases h
    exact .storedLen hpc
  | publish k b =>
    simp only [hpc] at h
    cases h
    exact .published hpc

/-- A step changes nothing of the other threads. -/
theorem Taken.others {cf cf' : Creation} {t : Int} (h : cf.Taken t cf') {u : Int} (hu : u ≠ t) :
    cf'.pc u = cf.pc u ∧ cf'.todo u = cf.todo u ∧ cf'.rets u = cf.rets u := by
  cases h <;> simp [goto, setTodo, setProc, setKmem, returns, modStuff, hu]

/-- Nobody converts another thread. -/
theorem Taken.converted_others {cf cf' : Creation} {t : Int} (h : cf.Taken t cf') {u : Int} (hu : u ≠ t) :
    cf'.proc.converted u = cf.proc.converted u := by
  have hids : u ∈ (cf'.proc.listathread.map fun n => n.val.id) ↔
      u ∈ cf.proc.listathread.map fun n => n.val.id := by
    cases h with
    | converted hpc htodo hno =>
      show u ∈ t :: _ ↔ _
      rw [List.mem_cons, or_iff_right hu]
    | published hpc =>
      show u ∈ (publishFiber _ _ _ _).1.listathread.map _ ↔ _
      rw [publishFiber_threadIds]
    | _ => exact Iff.rfl
  rw [Bool.eq_iff_iff, converted_iff, converted_iff]
  exact hids

/-- A thread without calls stays outside. -/
theorem run_idle {cf₀ cf : Creation} {tr : List Int} (h : Run (· = cf₀) Next cf tr) {u : Int}
    (hpc : cf₀.pc u = .idle) (htodo : cf₀.todo u = []) : cf.pc u = .idle ∧ cf.todo u = [] := by
  have hidle : (cf.pc u, cf.todo u) = (cf₀.pc u, cf₀.todo u) := by
    refine h.idle (fun cf u => (cf.pc u, cf.todo u)) (fun cf cf' hsame hstep => ?_) fun cf t cf' ht hstep => ?_
    · obtain ⟨hpc', htodo'⟩ := Prod.mk.inj hsame
      rw [Next, next, hpc', hpc, htodo', htodo] at hstep
      cases hstep
    · obtain ⟨hpc', htodo', -⟩ := (taken hstep).others ht
      rw [hpc', htodo']
  rw [hpc, htodo] at hidle
  exact Prod.mk.inj hidle

/-- Two threads are done, and the others have no calls. -/
theorem complete_of_two {cf₀ cf : Creation} {tr : List Int} (h : Run (· = cf₀) Next cf tr)
    (hidle : ∀ t, cf₀.pc t = .idle) (htodo : ∀ t, t ≠ 1 → t ≠ 2 → cf₀.todo t = []) (h₁ : cf.done 1 = true)
    (h₂ : cf.done 2 = true) : cf.Complete := by
  intro t
  by_cases ht₁ : t = 1
  · rw [ht₁]
    exact done_iff.mp h₁
  by_cases ht₂ : t = 2
  · rw [ht₂]
    exact done_iff.mp h₂
  exact run_idle h (hidle t) (htodo t ht₁ ht₂)

/-! ### Starts -/

/-- An entry as the operations leave it, with nobody inside `fib_create` or `fib_convert`. -/
structure Start (cf : Creation) (stuff : FiberStuff) : Prop where
  dir : cf.proc.listafiberStuff = [⟨cf.dir, stuff⟩]
  last : 0 ≤ cf.proc.lastFibId
  idle : ∀ t, cf.pc t = .idle
  rets : ∀ t, cf.rets t = []

/-- The threads of an entry, about to make the calls `todo`. -/
def atEntry (s : State) (b : Block Process) (dir : Nat) (todo : Int → List Request) : Creation where
  proc := b.val
  kmem := s.kmem
  cpu pid := s.cpu ⟨b.val.id, pid⟩
  dir := dir
  pc _ := .idle
  todo := todo
  rets _ := []

/-- The entries that the operations build are starts, for any calls of any threads. -/
theorem start_of_reached {nFib : Nat} {s : State} (h : Reached nFib s) {b : Block Process}
    (hb : b ∈ s.processi) {d : Block FiberStuff} (hd : d ∈ b.val.listafiberStuff)
    (todo : Int → List Request) : (atEntry s b d.addr todo).Start d.val := by
  obtain ⟨a, stuff, hstuff, -⟩ := reached_dirInv h b hb
  rw [hstuff] at hd
  obtain rfl := List.mem_singleton.mp hd
  exact ⟨hstuff, (reached_inv h b hb).lastFibId, fun _ => rfl, fun _ => rfl⟩

/-- The threads of the newest entry, if there is one. -/
def newest (todo : Int → List Request) (s : State) : Option Creation :=
  s.processi.head?.bind fun b => b.val.listafiberStuff.head?.map fun d => atEntry s b d.addr todo

/-- A run from an entry that the operations build, with a given view of its two ends. -/
theorem exists_concurrent (nFib : Nat) (ops : List Op) (todo : Int → List Request) (ts : List Int)
    (ok : Creation → Int → Bool) (guard : Creation → Int → Prop)
    (hok : ∀ cf₀ cf tr t stuff, cf₀.Start stuff → cf₀.todo = todo → Run (· = cf₀) Next cf tr →
      ok cf t = true → guard cf t) {β : Type} (view : Creation → Creation → β) {v : β}
    (h : (runOps nFib ops empty []).toOption.map (fun r =>
      (newest todo r.1).bind fun cf₀ => (follow next ok cf₀ ts).map (view cf₀)) = some (some v)) :
    ∃ cf₀ cf stuff, cf₀.Start stuff ∧ cf₀.todo = todo ∧ Run (· = cf₀) (Guarded guard Next) cf ts.reverse ∧
      view cf₀ cf = v := by
  have hstarts : ∀ s cf₀, Reached nFib s → newest todo s = some cf₀ →
      ∃ stuff, cf₀.Start stuff ∧ cf₀.todo = todo := by
    intro s cf₀ hs hnewest
    obtain ⟨b, hb, hdir⟩ := Option.bind_eq_some_iff.mp hnewest
    obtain ⟨d, hd, rfl⟩ := Option.map_eq_some_iff.mp hdir
    exact ⟨_, start_of_reached hs (List.mem_of_mem_head? hb) (List.mem_of_mem_head? hd) todo, rfl⟩
  have hguard : ∀ s cf₀ cf tr t, Reached nFib s → newest todo s = some cf₀ → Run (· = cf₀) Next cf tr →
      ok cf t = true → guard cf t := by
    intro s cf₀ cf tr t hs hnewest
    obtain ⟨stuff, hstart, htodo⟩ := hstarts s cf₀ hs hnewest
    exact hok cf₀ cf tr t stuff hstart htodo
  obtain ⟨s, cf₀, cf, hs, hnewest, hrun, hview⟩ := exists_followed nFib ops (newest todo) ts ok guard hguard view h
  obtain ⟨stuff, hstart, htodo⟩ := hstarts s cf₀ hs hnewest
  exact ⟨cf₀, cf, stuff, hstart, htodo, hrun, hview⟩

end Creation

/-! ### One call alone -/

section alone

variable {cf : Creation} {t tgid : Int} {calls : List Request} {stuff : FiberStuff}

/-- The directory with the next entry stored. -/
def FiberStuff.entered (stuff : FiberStuff) (entry : PidEntry) : FiberStuff where
  fiberBaseStuff := { stuff.fiberBaseStuff with
    val := stuff.fiberBaseStuff.val.set stuff.lenFiberStuff entry }
  lenFiberStuff := stuff.lenFiberStuff + 1

/-- The steps of `do_fib_create` from `last_fib_id` on and the rest of its caller, with nobody else running. -/
theorem follow_doFibCreate (cf : Creation) {k : Caller} {b b' : Block Fiber} {name : Nat} {m : Kmem}
    (hdir : cf.proc.listafiberStuff = [⟨cf.dir, stuff⟩]) (hlast : cf.proc.lastFibId < pidMax)
    (hroom : stuff.lenFiberStuff < stuff.fiberBaseStuff.val.length)
    (hpc : cf.pc t = .loadLast k b) (hb : nameFiber b (cf.proc.lastFibId + 1) cf.kmem = (b', name, m)) :
    follow Creation.next (fun _ _ => true) cf (List.replicate 7 t) = some
      (let p := publishFiber { cf.proc with
        listafiberStuff := [⟨cf.dir, stuff.entered (fibersEntryLog name b'.val.id)⟩]
        lastFibId := cf.proc.lastFibId + 1 } m b' k
      { cf with
        proc := p.1
        kmem := p.2
        pc := Function.update cf.pc t .idle
        rets := Function.update cf.rets t (cf.rets t ++ [b'.val.id]) }) := by
  simp [follow, Creation.next, Creation.goto, hpc, hlast, Creation.setProc, hb, Creation.stuff, hdir,
    Creation.setKmem, Table.deref_cons, hroom, Creation.modStuff, Table.update_cons, List.replicate,
    Creation.returns, FiberStuff.entered]

/-- A call of `fib_create` with nobody else running is the operation of the driver. -/
theorem follow_fibCreate {func parameters stackPointer stackSize : BitVec 64} {p' : Process}
    {x' : CreateVars} (hdir : cf.proc.listafiberStuff = [⟨cf.dir, stuff⟩]) (hpc : cf.pc t = .idle)
    (htodo : cf.todo t = .fibCreate func parameters stackPointer stackSize :: calls)
    (hok : createProcess ⟨tgid, t⟩ (cf.cpu t) func parameters stackPointer stackSize cf.proc ⟨cf.kmem, none⟩ =
      .ok (p', x')) :
    ∃ b, x'.listaFiberElem = some b ∧
      follow Creation.next (fun _ _ => true) cf (List.replicate 8 t) = some { cf with
        proc := p'
        kmem := x'.kmem
        todo := Function.update cf.todo t calls
        rets := Function.update cf.rets t (cf.rets t ++ [b.val.id]) } := by
  obtain ⟨U, b, hlast, hU, rfl, rfl, rfl⟩ := createProcess_ok hok
  rw [hdir, addEntry_single] at hU
  obtain ⟨stuff', hstore, hU⟩ := bind_eq_ok.mp hU
  obtain rfl := Except.ok.inj hU
  by_cases hroom : stuff.lenFiberStuff < stuff.fiberBaseStuff.val.length
  · rw [storeEntry_room hroom] at hstore
    obtain rfl := Except.ok.inj hstore
    refine ⟨_, rfl, ?_⟩
    have hstep : cf.next t = some (((cf.setTodo t calls).setKmem { cf.kmem with next := cf.kmem.next + 3 }).goto t
        (.loadLast .fibCreate
          (beginFiber t (cf.cpu t) func parameters stackPointer stackSize 1 cf.kmem).1)) := by
      rw [Creation.next, hpc]
      simp only [htodo]
      rfl
    rw [List.replicate_succ, follow, if_pos rfl, hstep, Option.bind_some]
    refine (follow_doFibCreate _ ?_ ?_ hroom (Function.update_self _ _ _) rfl).trans ?_
    · exact hdir
    · exact hlast
    simp only [Creation.goto, Creation.setKmem, Creation.setTodo, Function.update_idem]
    rw [← hpc, Function.update_eq_self]
    rfl
  · rw [storeEntry_full hroom] at hstore
    cases hstore

/-- So is a call of `fib_convert`, for a converted thread and for another. -/
theorem follow_fibConvert {now : Timespec} {p' : Process} {x' : ConvertVars}
    (hdir : cf.proc.listafiberStuff = [⟨cf.dir, stuff⟩]) (hpc : cf.pc t = .idle)
    (htodo : cf.todo t = .fibConvert now :: calls)
    (hok : convertProcess ⟨tgid, t⟩ (cf.cpu t) now cf.proc ⟨cf.kmem, false, -1⟩ = .ok (p', x')) :
    ∃ n, follow Creation.next (fun _ _ => true) cf (List.replicate n t) = some { cf with
      proc := p'
      kmem := x'.kmem
      todo := Function.update cf.todo t calls
      rets := Function.update cf.rets t (cf.rets t ++ [x'.ret]) } := by
  by_cases hno : ∀ n ∈ cf.proc.listathread, n.val.id ≠ t
  · rw [convertProcess_new rfl hno] at hok
    simp only [convertThread, doThreadCreate, kzalloc] at hok
    obtain ⟨⟨b, p₁, m₁⟩, hcreate, hok⟩ := bind_eq_ok.mp hok
    obtain ⟨U, hlast, hU, rfl, rfl, rfl⟩ := doFibCreate_ok hcreate
    obtain ⟨rfl, rfl⟩ := Prod.mk.inj (Except.ok.inj hok)
    rw [hdir, addEntry_single] at hU
    obtain ⟨stuff', hstore, hU⟩ := bind_eq_ok.mp hU
    obtain rfl := Except.ok.inj hU
    by_cases hroom : stuff.lenFiberStuff < stuff.fiberBaseStuff.val.length
    · rw [storeEntry_room hroom] at hstore
      obtain rfl := Except.ok.inj hstore
      refine ⟨8, ?_⟩
      have hstep : cf.next t = some ((((cf.setTodo t calls).setProc (doThreadCreate cf.proc t cf.kmem).2.1).setKmem
          { cf.kmem with next := cf.kmem.next + 4 }).goto t (.loadLast (.fibConvert cf.kmem.next now)
            (beginFiber t (cf.cpu t) (cf.cpu t).regs.ip 0 0 (-1) 0
              { cf.kmem with next := cf.kmem.next + 1 }).1)) := by
        rw [Creation.next, hpc]
        simp only [htodo, if_pos (possible_nil hno)]
        rfl
      rw [List.replicate_succ, follow, if_pos rfl, hstep, Option.bind_some]
      refine (follow_doFibCreate _ ?_ ?_ hroom (Function.update_self _ _ _) rfl).trans ?_
      · exact hdir
      · exact hlast
      simp only [Creation.goto, Creation.setKmem, Creation.setTodo, Creation.setProc, Function.update_idem]
      rw [← hpc, Function.update_eq_self]
      rfl
    · rw [storeEntry_full hroom] at hstore
      cases hstore
  · push Not at hno
    rw [convertProcess_keep (.inr hno)] at hok
    obtain ⟨rfl, rfl⟩ := Prod.mk.inj (Except.ok.inj hok)
    refine ⟨1, ?_⟩
    obtain ⟨n, hn, hid⟩ := hno
    have hsome : possible Thread.id t cf.proc.listathread ≠ [] := fun he => possible_eq_nil_iff.mp he n hn hid
    have hstep : cf.next t = some ((cf.setTodo t calls).returns t (-1)) := by
      rw [Creation.next, hpc]
      simp only [htodo, if_neg hsome]
    rw [List.replicate_one, follow, if_pos rfl, hstep]
    rfl

end alone

end LinuxFibers
