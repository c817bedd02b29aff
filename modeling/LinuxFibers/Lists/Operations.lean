import LinuxFibers.Lists.Storage

/-!
# The other calls

A conversion and a creation add a fiber to the caller's process, a switch moves the caller from one fiber to another
(`exchange_fibers`), and `fib_open`, `fib_release` and the handler for a thread that exits change what is open and who
runs what. Each of them, and `myread`, is a step of the machine if it returns.
-/

namespace LinuxFibers.Lists

open Outcomes Runs SlotStorage
open Function (update update_self update_of_ne)

variable {P : Printer} {s : State} {c : Task} {i j : Nat} {p : FiberProcessi} {n : ListaFiber} {f : Fiber}

/-! ### `do_fib_create` -/

/-- The next id is one more than the number of fibers. -/
theorem nextId_eq (hp : p.Sound) : nextId p =
    if (p.listaFiber.length : Int) < pidMax then .ok (p.listaFiber.length + 1) else .error (.fault .signedOverflow) := by
  have hids := hp.nodes.ids
  unfold nextId
  cases hl : p.listaFiber with
  | nil => rfl
  | cons f l =>
    rw [hl, List.map_cons, List.length_cons, idsDown] at hids
    obtain ⟨hid, -⟩ := List.cons.inj hids
    rw [List.length_cons]
    push_cast
    rw [← hid]

/-- The node of a new fiber. -/
def newNode (c : Task) (cpu : Cpu) (func parameters stackPointer stackSize : BitVec 64) (id : Int) : ListaFiber where
  fiber := some
    { regs := startRegs cpu.regs func parameters stackPointer stackSize
      fpu := 0
      fls := some fun _ => 0
      bitmapFls := some fun _ => 0
      execTime := 0
      lastActivationTime := 0
      correctCounter := 0
      failedCounter := 0
      entryPoint := func
      creator := c.pid }
  id := id
  runner := 0
  running := false

theorem doFibCreate_eq (cpu : Cpu) (func parameters stackPointer stackSize : BitVec 64) (hp : p.Sound) :
    doFibCreate c cpu func parameters stackPointer stackSize p =
      if (p.listaFiber.length : Int) < pidMax then
        .ok (newNode c cpu func parameters stackPointer stackSize (p.listaFiber.length + 1),
          { p with listaFiber := newNode c cpu func parameters stackPointer stackSize (p.listaFiber.length + 1) ::
            p.listaFiber })
      else .error (.fault .signedOverflow) := by
  unfold doFibCreate
  rw [nextId_eq hp]
  split <;> rfl

theorem storage_new {f : Fiber} (hfls : f.fls = some fun _ => 0) (hbitmap : f.bitmapFls = some fun _ => 0) :
    f.storage = .empty := by
  rw [storage_eq hbitmap hfls]
  exact Slots.ofArrays_zero

/-- A new fiber that no thread runs. -/
theorem fibers_push {l : List ListaFiber} (h : Wf l) (hid : n.id = l.length + 1) (hf : n.fiber = some f)
    (hfls : f.fls = some fun _ => 0) (hbitmap : f.bitmapFls = some fun _ => 0) (hrunner : n.runner = 0) :
    Wf (n :: l) ∧ fibersOf (n :: l) = (fibersOf l).add ⟨⟨f.regs, f.fpu⟩, !n.running, .empty⟩ := by
  have hwhole : n.Whole :=
    ⟨f, hf, by rw [hfls]; exact Option.some_ne_none _, by rw [hbitmap]; exact Option.some_ne_none _⟩
  have h' : Wf (n :: l) := h.push hid hwhole (fun hne => absurd hrunner hne) fun _ _ _ => hrunner
  have hx : n.coroutine = some ⟨⟨f.regs, f.fpu⟩, !n.running, .empty⟩ := by
    rw [coroutine_eq hf, storage_new hfls hbitmap]
  have hcurrent : currentOf (n :: l) = currentOf l := by
    funext pid
    by_cases hpid : pid = 0
    · rw [hpid, currentOf_zero, currentOf_zero]
    · exact currentOf_push h h' (by rw [hrunner]; exact Ne.symm hpid)
  refine ⟨h', ?_⟩
  unfold fibersOf Fibers.add Fibers.setFiber
  rw [fiberOf_push h h' hx, hcurrent, List.length_cons]

/-- A new fiber that the thread `pid` runs. -/
theorem fibers_push_running {l : List ListaFiber} {pid : Int} (h : Wf l) (hid : n.id = l.length + 1)
    (hf : n.fiber = some f) (hfls : f.fls = some fun _ => 0) (hbitmap : f.bitmapFls = some fun _ => 0)
    (hrunner : n.runner = pid) (hrunning : n.running = true) (hpid : pid ≠ 0) (hno : ∀ m ∈ l, m.runner ≠ pid) :
    Wf (n :: l) ∧ fibersOf (n :: l) =
      ((fibersOf l).add ⟨⟨f.regs, f.fpu⟩, false, .empty⟩).setCurrent pid (some (l.length + 1)) := by
  have hwhole : n.Whole :=
    ⟨f, hf, by rw [hfls]; exact Option.some_ne_none _, by rw [hbitmap]; exact Option.some_ne_none _⟩
  have h' : Wf (n :: l) := h.push hid hwhole (fun _ => hrunning) fun m hm hr => absurd (hr.symm.trans hrunner) (hno m hm)
  have hx : n.coroutine = some ⟨⟨f.regs, f.fpu⟩, false, .empty⟩ := by
    rw [coroutine_eq hf, storage_new hfls hbitmap, hrunning]
    rfl
  have hcurrent : currentOf (n :: l) = update (currentOf l) pid (some (l.length + 1)) := by
    funext t
    by_cases ht : t = pid
    · rw [ht, update_self, ← hid, ← hrunner]
      exact currentOf_mem h' List.mem_cons_self (by rw [hrunner]; exact hpid)
    · rw [update_of_ne ht]
      exact currentOf_push h h' (by rw [hrunner]; exact Ne.symm ht)
  refine ⟨h', ?_⟩
  unfold fibersOf Fibers.add Fibers.setFiber Fibers.setCurrent
  rw [fiberOf_push h h' hx, hcurrent, List.length_cons]

/-! ### `fib_convert` and `fib_create` -/

section create

variable (hs : s.Sound)
include hs

theorem fibConvert_refines (hpid : c.pid ≠ 0) (now : Timespec) : Yields (Faults P s (.driver (.fibConvert c now)))
    (fun r => Does s (.driver (.fibConvert c now)) r.1 (some r.2)) (fibConvert c now s) := by
  unfold fibConvert
  refine yields_lock (fun h => .locked h trivial) fun hfree => ?_
  split
  · next hp => exact refused hs hfree rfl hp (fun _ => Op.noConfusion) rfl
  · next i p hp =>
    have hsound := sound_of_find hs hp
    split
    · next node hj =>
      obtain ⟨-, -, -, hcur, -⟩ := findRunner_some hsound (j := node.1) (n := node.2) hj hpid
      exact kept hs hfree rfl hp (.convertRefused hcur)
    · next hj =>
      have hcreate := doFibCreate_eq (c := c) (s.cpu c) (s.cpu c).regs.ip 0 1 0 hsound
      by_cases hmax : (p.listaFiber.length : Int) < pidMax
      · rw [if_pos hmax] at hcreate
        dsimp only
        rw [hcreate]
        have hno : ∀ m ∈ p.listaFiber, m.runner ≠ c.pid := fun m hm => of_decide_eq_false (walk_eq_none.mp hj m hm)
        obtain ⟨hwf, hfibers⟩ := fibers_push_running hsound.nodes
          (n := { newNode c (s.cpu c) (s.cpu c).regs.ip 0 1 0 (p.listaFiber.length + 1) with
            fiber := (newNode c (s.cpu c) (s.cpu c).regs.ip 0 1 0 (p.listaFiber.length + 1)).fiber.map fun f =>
              { f with lastActivationTime := BitVec.ofInt 64 now.tvNsec, correctCounter := 1 }
            running := true
            runner := c.pid }) rfl rfl rfl rfl rfl rfl hpid hno
        refine acted' hs hfree rfl hp rfl rfl ⟨hwf, hsound.room, hsound.used⟩ ?_
        refine cast (congrArg (fun q => Fibers.Step c.pid _ _ _ (_, q)) hfibers.symm) ?_
        exact .convert (findRunner_none hj)
      · rw [if_neg hmax] at hcreate
        dsimp only
        rw [hcreate]
        exact .fibConvert hfree hp hj (not_lt.mp hmax)

theorem fibCreate_refines (func parameters stackPointer stackSize : BitVec 64) :
    Yields (Faults P s (.driver (.fibCreate c func parameters stackPointer stackSize)))
      (fun r => Does s (.driver (.fibCreate c func parameters stackPointer stackSize)) r.1 (r.2.map ListaFiber.id))
      (fibCreate P c func parameters stackPointer stackSize s) := by
  unfold fibCreate
  refine yields_lock (fun h => .locked h trivial) fun hfree => ?_
  split
  · next hp =>
    exact refused hs hfree rfl hp (fun _ => Op.noConfusion) rfl
  · next i p hp =>
    have hsound := sound_of_find hs hp
    have hcreate := doFibCreate_eq (c := c) (s.cpu c) func parameters stackPointer stackSize hsound
    by_cases hmax : (p.listaFiber.length : Int) < pidMax
    · rw [if_pos hmax] at hcreate
      dsimp only
      rw [hcreate]
      obtain ⟨hwf, hfibers⟩ := fibers_push hsound.nodes (n := newNode c (s.cpu c) func parameters stackPointer stackSize
        (p.listaFiber.length + 1)) rfl rfl rfl rfl rfl
      show Yields _ _ (entryName P (p.listaFiber.length + 1) >>= _)
      unfold entryName
      dsimp only
      split
      · show Yields _ _ (storeEntry _ p.fiberStuff >>= _)
        unfold storeEntry
        dsimp only
        split
        · next hlt =>
          refine acted' hs hfree rfl hp rfl rfl ⟨hwf, ?_, ?_⟩ ?_
          · rw [List.length_set]
            exact hsound.room
          · rw [hsound.room] at hlt
            exact hlt
          · refine cast (congrArg (fun q => Fibers.Step c.pid _ _ _ (_, q)) hfibers.symm) ?_
            exact .create
        · next hfull =>
          rw [hsound.room] at hfull
          exact .entry hfree hp hmax (.inr (le_antisymm hsound.used (not_lt.mp hfull)))
      · next hname =>
        exact .entry hfree hp hmax (.inl (not_lt.mp hname))
    · rw [if_neg hmax] at hcreate
      dsimp only
      rw [hcreate]
      exact .fibCreate hfree hp (not_lt.mp hmax)

end create

/-! ### `fib_switch_to` -/

theorem modify_comm {α : Type} {l : List α} {a b : Nat} (hne : a ≠ b) (f g : α → α) :
    (l.modify a f).modify b g = (l.modify b g).modify a f := by
  apply List.ext_getElem?
  intro k
  simp only [List.getElem?_modify]
  by_cases ha : a = k
  · subst ha
    simp [hne.symm]
  · simp [ha]

theorem getElem?_of_walk {α : Type} {l : List α} {k : Nat} {a : α} {found : α → Bool} (h : walk found l = some (k, a)) :
    l[k]? = some a := by
  obtain ⟨u, w, rfl, rfl, -, -⟩ := walk_eq_some.mp h
  simp

theorem split_of_getElem? {α : Type} {l : List α} {k : Nat} {a : α} (h : l[k]? = some a) :
    ∃ u w, l = u ++ a :: w ∧ u.length = k := by
  obtain ⟨hlt, rfl⟩ := List.getElem?_eq_some_iff.mp h
  refine ⟨l.take k, l.drop (k + 1), ?_, List.length_take_of_le hlt.le⟩
  rw [List.getElem_cons_drop, List.take_append_drop]

/-- What the exchange assigns to the node that is left. -/
def leaveNode (cpu : Cpu) (last : BitVec 64) (n : ListaFiber) : ListaFiber :=
  { n with
    fiber := n.fiber.map fun f =>
      { f with regs := cpu.regs, fpu := copyFxregsToKernel cpu, execTime := f.execTime + (last - f.lastActivationTime) }
    running := false
    runner := 0 }

/-- What it assigns to the node that is entered. -/
def enterNode (c : Task) (last : BitVec 64) (n : ListaFiber) : ListaFiber :=
  { n with
    fiber := n.fiber.map fun f => { f with correctCounter := f.correctCounter + 1, lastActivationTime := last }
    running := true
    runner := c.pid }

theorem exchange_eq (cpu : Cpu) (now : Timespec) {old new : Nat} {g : Fiber} {m : ListaFiber} (hne : old ≠ new)
    (hm : p.listaFiber[new]? = some m) (hg : m.fiber = some g) :
    exchange c old new now p cpu =
      ((p.modNode old (leaveNode cpu (BitVec.ofInt 64 now.tvNsec))).modNode new
        (enterNode c (BitVec.ofInt 64 now.tvNsec)), ⟨g.regs, g.fpu⟩) := by
  obtain ⟨time, htime⟩ : ∃ time, BitVec.ofInt 64 now.tvNsec = time := ⟨_, rfl⟩
  -- what is read at `new`, before and after it is entered
  have hbefore : (p.modFiber old fun f => { f with regs := cpu.regs, fpu := copyFxregsToKernel cpu }).fiberAt new =
      some g := by
    rw [FiberProcessi.fiberAt, FiberProcessi.modFiber, FiberProcessi.modNode, List.getElem?_modify_ne _ _ hne, hm]
    exact hg
  have hafter : ∀ q : FiberProcessi, q.listaFiber[new]? = some m →
      ((((q.modNode new fun f => { f with running := true, runner := c.pid }).modFiber new fun f =>
        { f with correctCounter := f.correctCounter + 1, lastActivationTime := time }).fiberAt new).map
          Fiber.lastActivationTime).getD 0 = time := by
    intro q hq
    simp only [FiberProcessi.fiberAt, FiberProcessi.modFiber, FiberProcessi.modNode, List.getElem?_modify_eq, hq,
      Option.map_eq_map, Option.map_some, Option.bind_some, hg, Option.getD_some]
  have hnode : ((p.modFiber old fun f => { f with regs := cpu.regs, fpu := copyFxregsToKernel cpu }).modNode old fun f =>
      { f with running := false, runner := 0 }).listaFiber[new]? = some m := by
    rw [FiberProcessi.modNode, List.getElem?_modify_ne _ _ hne, FiberProcessi.modFiber, FiberProcessi.modNode,
      List.getElem?_modify_ne _ _ hne, hm]
  unfold exchange
  simp only [htime, hbefore, hafter _ hnode]
  refine congrArg (fun q => (q, _)) ?_
  simp only [FiberProcessi.modFiber, FiberProcessi.modNode, FiberProcessi.mk.injEq, and_true]
  rw [List.modify_modify_eq, List.modify_modify_eq, modify_comm hne.symm, List.modify_modify_eq]
  congr 1
  refine congrArg (p.listaFiber.modify old) (funext fun n => ?_)
  obtain ⟨fiber, id, runner, running⟩ := n
  cases fiber <;> rfl

/-- A thread leaves the node it runs. -/
theorem leave_fibers {u w : List ListaFiber} {n : ListaFiber} {pid : Int} {x : Coroutine} (hp : p.Sound)
    (hl : p.listaFiber = u ++ n :: w) (n' : ListaFiber) (hrunner : n.runner = pid) (hpid : pid ≠ 0) (hid : n'.id = n.id)
    (hwhole : n'.Whole) (hx : n'.coroutine = some x) (hleft : n'.runner = 0) :
    FiberProcessi.Sound { p with listaFiber := u ++ n' :: w } ∧
      FiberProcessi.fibers { p with listaFiber := u ++ n' :: w } =
        (p.fibers.setFiber n.id x).setCurrent pid none := by
  have hnodes := hp.nodes
  rw [hl] at hnodes
  have hwf : Wf (u ++ n' :: w) := hnodes.replace hid hwhole (fun h => absurd hleft h) fun _ _ _ => hleft
  refine ⟨⟨hwf, hp.room, hp.used⟩, ?_⟩
  show fibersOf _ = (Fibers.setFiber (fibersOf p.listaFiber) n.id x).setCurrent pid none
  unfold fibersOf
  rw [hl, fiberOf_replace hnodes hwf hid hx, currentOf_leave hnodes hwf (by rw [hrunner]; exact hpid) hleft, hrunner]
  simp [Fibers.setFiber, Fibers.setCurrent]

/-- A thread that runs no fiber enters a node. -/
theorem enter_fibers {u w : List ListaFiber} {n : ListaFiber} {pid : Int} {x : Coroutine} (hp : p.Sound)
    (hl : p.listaFiber = u ++ n :: w) (n' : ListaFiber) (hzero : n.runner = 0) (hpid : pid ≠ 0) (hid : n'.id = n.id)
    (hwhole : n'.Whole) (hx : n'.coroutine = some x) (hrunner : n'.runner = pid) (hrunning : n'.running = true)
    (hno : p.fibers.current pid = none) : FiberProcessi.Sound { p with listaFiber := u ++ n' :: w } ∧
      FiberProcessi.fibers { p with listaFiber := u ++ n' :: w } =
        (p.fibers.setFiber n.id x).setCurrent pid (some n.id) := by
  have hnodes := hp.nodes
  rw [hl] at hnodes
  have hwf : Wf (u ++ n' :: w) := by
    refine hnodes.replace hid hwhole (fun _ => hrunning) fun m hm hm' => ?_
    have hcur := currentOf_mem hnodes (mem_middle.mpr (.inr hm)) (by rw [← hm', hrunner]; exact hpid)
    rw [← hm', hrunner, ← hl] at hcur
    cases hno.symm.trans hcur
  refine ⟨⟨hwf, hp.room, hp.used⟩, ?_⟩
  show fibersOf _ = (Fibers.setFiber (fibersOf p.listaFiber) n.id x).setCurrent pid (some n.id)
  unfold fibersOf
  rw [hl, fiberOf_replace hnodes hwf hid hx, currentOf_enter hnodes hwf hid hzero (by rw [hrunner]; exact hpid), hrunner]
  simp [Fibers.setFiber, Fibers.setCurrent]

/-- What the exchange does to the fibers: the caller's registers go to the fiber it leaves, and the thread goes to the
other one. -/
theorem exchange_fibers (cpu : Cpu) (last : BitVec 64) {old new : Nat} {a b : ListaFiber} {f g : Fiber}
    {found : ListaFiber → Bool} (hp : p.Sound) (hpid : c.pid ≠ 0) (hold : p.findRunner c.pid = some (old, a))
    (hnew : walk found p.listaFiber = some (new, b)) (ha : a.fiber = some f) (hb : b.fiber = some g)
    (hne : old ≠ new) (hfree : b.running = false) :
    ((p.modNode old (leaveNode cpu last)).modNode new (enterNode c last)).Sound ∧
      ((p.modNode old (leaveNode cpu last)).modNode new (enterNode c last)).fibers =
        ((p.fibers.setFiber a.id ⟨cpu, true, f.storage⟩).setFiber b.id ⟨⟨g.regs, g.fpu⟩, false, g.storage⟩).setCurrent
          c.pid (some b.id) := by
  obtain ⟨hamem, harunner, -⟩ := findRunner_some hp hold hpid
  obtain ⟨u, w, hl, rfl, -, -⟩ := walk_eq_some.mp hold
  obtain ⟨u', w', hl', rfl, -, -⟩ := walk_eq_some.mp hnew
  have hbmem : b ∈ p.listaFiber := by rw [hl']; exact mem_middle.mpr (.inl rfl)
  have hbrunner : b.runner = 0 := by
    by_contra hzero
    rw [hp.nodes.running b hbmem hzero] at hfree
    cases hfree
  obtain ⟨f₀, hf₀, hffls, hfbitmap⟩ := hp.nodes.whole a hamem
  obtain ⟨g₀, hg₀, hgfls, hgbitmap⟩ := hp.nodes.whole b hbmem
  obtain rfl := Option.some.inj (ha.symm.trans hf₀)
  obtain rfl := Option.some.inj (hb.symm.trans hg₀)
  obtain ⟨hsound₁, hfibers₁⟩ := leave_fibers (x := ⟨cpu, true, f.storage⟩) hp hl (leaveNode cpu last a) harunner
    hpid rfl ⟨_, congrArg (Option.map _) ha, hffls, hfbitmap⟩
    (by simp only [ListaFiber.coroutine, leaveNode, ha, Option.map_some]; rfl) rfl
  rw [modNode_eq hl]
  -- the other node is where it was
  obtain ⟨v, x, hl₁, hlen⟩ : ∃ v x, u ++ leaveNode cpu last a :: w = v ++ b :: x ∧ v.length = u'.length := by
    refine split_of_getElem? ?_
    rw [← modify_append_cons u w a, ← hl, List.getElem?_modify_ne _ _ hne, hl']
    simp
  rw [← hlen, modNode_eq hl₁]
  obtain ⟨hsound₂, hfibers₂⟩ := enter_fibers (x := ⟨⟨g.regs, g.fpu⟩, false, g.storage⟩) hsound₁ hl₁
    (enterNode c last b) hbrunner hpid rfl ⟨_, congrArg (Option.map _) hb, hgfls, hgbitmap⟩
    (by simp only [ListaFiber.coroutine, enterNode, hb, Option.map_some]; rfl) rfl rfl
    (by rw [hfibers₁]; exact update_self ..)
  refine ⟨hsound₂, ?_⟩
  rw [hfibers₂, hfibers₁]
  unfold Fibers.setCurrent Fibers.setFiber
  rw [Function.update_idem]

theorem findFiber_some {id : Int} (hp : p.Sound) (hj : p.findFiber id = some (j, n)) :
    n ∈ p.listaFiber ∧ n.id = id ∧ p.fibers.fiber id = n.coroutine := by
  obtain ⟨u, w, hl, -, hid, -⟩ := walk_eq_some.mp hj
  have hn : n ∈ p.listaFiber := by
    rw [hl]
    exact mem_middle.mpr (.inl rfl)
  have hid' : n.id = id := of_decide_eq_true hid
  refine ⟨hn, hid', ?_⟩
  rw [← hid']
  exact fiberOf_mem hp.nodes hn

theorem findFiber_none {id : Int} (hj : p.findFiber id = none) : p.fibers.fiber id = none :=
  fiberOf_none fun n hn => of_decide_eq_false (walk_eq_none.mp hj n hn)

theorem fibSwitchTo_refines (hs : s.Sound) (hpid : c.pid ≠ 0) (id : Int) (now : Timespec) :
    Yields (Faults P s (.driver (.fibSwitchTo c id now)))
      (fun r => Does s (.driver (.fibSwitchTo c id now)) r.1 (some r.2)) (fibSwitchTo c id now s) := by
  unfold fibSwitchTo
  refine yields_lock (fun h => .locked h trivial) fun hfree => ?_
  split
  · next hp => exact refused hs hfree rfl hp (fun _ => Op.noConfusion) rfl
  · next i p hp =>
    have hsound := sound_of_find hs hp
    split
    · next hj => exact kept hs hfree rfl hp (.switchRefused (.inl (findRunner_none hj)))
    · next old a hold =>
      obtain ⟨hamem, -, -, hcur, hafiber⟩ := findRunner_some hsound hold hpid
      obtain ⟨f, hf, -, -⟩ := hsound.nodes.whole a hamem
      split
      · next hnew =>
        refine kept hs hfree rfl hp (.switchRefused (.inr fun g hg => ?_))
        rw [findFiber_none hnew] at hg
        cases hg
      · next new b hnew =>
        obtain ⟨hbmem, rfl, hbfiber⟩ := findFiber_some hsound hnew
        obtain ⟨g, hg, hgfls, hgbitmap⟩ := hsound.nodes.whole b hbmem
        rw [coroutine_eq hf] at hafiber
        rw [coroutine_eq hg] at hbfiber
        split
        · next hrunning =>
          -- the attempt is counted, which the machine does not see
          refine yields_deref hg ?_
          obtain ⟨hsound', hfibers⟩ := modFiber_fibers (h := fun f => { f with failedCounter := f.failedCounter + 1 })
            hsound hnew hg hgfls hgbitmap
          refine acted' hs hfree rfl hp rfl rfl hsound' ?_
          rw [hfibers]
          refine cast (congrArg (fun q => Fibers.Step c.pid _ _ _ (_, q)) (Fibers.setFiber_self hbfiber).symm) ?_
          refine .switchRefused (.inr fun x hx => ?_)
          obtain rfl := Option.some.inj (hbfiber.symm.trans hx)
          rw [hrunning]
          rfl
        · next hrunning =>
          have hrunning := Bool.eq_false_iff.mpr hrunning
          refine yields_deref hf (yields_deref hg ?_)
          obtain ⟨-, -, harunning, -, -⟩ := findRunner_some hsound hold hpid
          have hids : a.id ≠ b.id := by
            intro hid
            rw [hsound.nodes.eq_of_id hamem hbmem hid, hrunning] at harunning
            cases harunning
          have hgeta := getElem?_of_walk hold
          have hgetb := getElem?_of_walk hnew
          have hne : old ≠ new := by
            rintro rfl
            exact hids (congrArg ListaFiber.id (Option.some.inj (hgeta.symm.trans hgetb)))
          have hexchange := exchange_eq (c := c) (s.cpu c) now hne hgetb hg
          obtain ⟨hsound', hfibers⟩ := exchange_fibers (s.cpu c) (BitVec.ofInt 64 now.tvNsec) hsound hpid hold hnew
            hf hg hne hrunning
          show Yields _ _ (let x := exchange c old new now p (s.cpu c); _)
          rw [hexchange]
          refine acted hs hfree rfl hp rfl rfl hsound' ?_
          rw [hfibers]
          exact .switch hcur hafiber hids hbfiber (by rw [hrunning]; rfl)

/-! ### The other calls -/

theorem processo_fibers (tgid : Int) : (processo tgid).fibers = .none := by
  unfold FiberProcessi.fibers fibersOf Fibers.none
  refine congr (congrArg (Fibers.mk 0) (funext fun pid => ?_)) (funext fun id => rfl)
  exact currentOf_none fun n hn => absurd hn List.not_mem_nil

theorem fibOpen_refines (hs : s.Sound) : Yields (Faults P s (.driver (.fibOpen c)))
    (fun r => Does s (.driver (.fibOpen c)) r.1 (some r.2)) (fibOpen c s) := by
  unfold fibOpen
  refine yields_lock (fun h => .locked h trivial) fun hfree => ⟨?_, ?_⟩
  · intro p hp
    obtain rfl | hp := List.mem_cons.mp hp
    · exact ⟨.nil, List.length_replicate, Nat.zero_le _⟩
    · exact hs p hp
  · refine cast (congrArg (Machine.Step s.machine ⟨.driver (.fibOpen c), some 0⟩) ?_) (Machine.Step.fibOpen hfree)
    have hprocs := procs_update (nodes_cons (s := s) (p := processo c.tgid) rfl)
    rw [List.map_cons, processo_fibers] at hprocs
    exact congr (congrArg (fun procs => Machine.mk procs s.cpu) hprocs.symm) hfree

theorem fibRelease_refines (hs : s.Sound) : Yields (Faults P s (.fibRelease c))
    (fun r => Does s (.fibRelease c) r.1 (some r.2)) (fibRelease c s) := by
  unfold fibRelease
  refine yields_lock (fun h => .locked h trivial) fun hfree => ?_
  show Yields _ _ (deref (s.findProcesso c.tgid) >>= _)
  cases hp : s.findProcesso c.tgid with
  | none => exact .fibRelease hfree hp
  | some x =>
    obtain ⟨i, p⟩ := x
    obtain ⟨rest, hrest, herase⟩ := machine_eraseIdx hp
    refine ⟨fun q hq => hs q (List.mem_of_mem_eraseIdx hq), ?_⟩
    have hstep := Machine.Step.fibRelease (a := s.machine) hfree hrest
    rw [← herase] at hstep
    refine cast (congrArg (Machine.Step s.machine ⟨.fibRelease c, some 0⟩) ?_) hstep
    exact congrArg (Machine.mk _ _) hfree

theorem preHandlerExit_refines (hs : s.Sound) (hpid : c.pid ≠ 0) : Yields (Faults P s (.preHandlerExit c))
    (fun r => Does s (.preHandlerExit c) r.1 (some r.2)) (preHandlerExit c s) := by
  unfold preHandlerExit
  split
  · next hp =>
    refine ⟨hs, .exitOther fun q rest hq => ?_⟩
    rw [procs_none hp] at hq
    cases hq
  · next i p hp =>
    have hsound := sound_of_find hs hp
    split
    · next hj =>
      obtain ⟨rest, hrest⟩ := procs_some hp
      refine ⟨hs, .exitOther fun q rest' hq => ?_⟩
      obtain ⟨rfl, -⟩ := List.cons.inj (hrest.symm.trans hq)
      exact findRunner_none hj
    · next j n hj =>
      obtain ⟨hn, hrunner, hrunning, hcur, hfiber⟩ := findRunner_some hsound hj hpid
      obtain ⟨f, hf, hfls, hbitmap⟩ := hsound.nodes.whole n hn
      obtain ⟨u, w, hl, rfl, -, -⟩ := walk_eq_some.mp hj
      rw [coroutine_eq hf, hrunning] at hfiber
      refine yields_deref hf ?_
      have hmod : ((p.modFiber u.length fun f => { f with regs := (s.cpu c).regs, fpu := copyFxregsToKernel (s.cpu c) }
          ).modNode u.length fun f => { f with running := true, runner := 0 }) =
          { p with listaFiber := u ++ { n with
            fiber := some { f with regs := (s.cpu c).regs, fpu := copyFxregsToKernel (s.cpu c) }
            running := true
            runner := 0 } :: w } := by
        rw [FiberProcessi.modFiber, modNode_eq hl, hf, modNode_eq rfl]
        rfl
      obtain ⟨hsound', hfibers⟩ := leave_fibers (x := ⟨s.cpu c, false, f.storage⟩) hsound hl
        { n with
          fiber := some { f with regs := (s.cpu c).regs, fpu := copyFxregsToKernel (s.cpu c) }
          running := true
          runner := 0 } hrunner hpid rfl ⟨_, rfl, hfls, hbitmap⟩ rfl rfl
      rw [← hmod] at hsound' hfibers
      obtain ⟨rest, hrest, hmachine⟩ := machine_modProcesso (g := fun _ => (p.modFiber u.length fun f =>
        { f with regs := (s.cpu c).regs, fpu := copyFxregsToKernel (s.cpu c) }).modNode u.length fun f =>
          { f with running := true, runner := 0 }) hp rfl rfl
      refine ⟨sound_modProcesso hs hp rfl hsound', ?_⟩
      refine cast (congrArg (Machine.Step s.machine ⟨.preHandlerExit c, some 0⟩) ?_) (Machine.Step.exit hrest hcur hfiber)
      refine Eq.trans ?_ hmachine.symm
      rw [hfibers]
      rfl

theorem myread_refines (hs : s.Sound) (name tgid : List Char) (fibId : Nat) (tmpPid : Int) (len off : Nat)
    (copied : Bool) : Yields (Faults P s (.driver (.myread name tgid fibId tmpPid len off copied)))
      (fun r => Does s (.driver (.myread name tgid fibId tmpPid len off copied)) r.1 (some r.2.ret))
      (myread P name tgid fibId tmpPid len off copied s) := by
  unfold myread
  dsimp only
  refine yields_lock (fun h => .locked h trivial) fun hfree => ?_
  have hsame : ∀ ret : Int, Does s (.driver (.myread name tgid fibId tmpPid len off copied))
      (spinUnlock { s with lockListaProcessi := true }) (some ret) := by
    intro ret
    rw [unlock_lock hfree]
    exact ⟨hs, .myread hfree⟩
  split
  · exact hsame _
  · next i p hp =>
    have hsound := sound_of_find hs hp
    split
    · exact hsame _
    · next j n hj =>
      obtain ⟨u, w, hl, -⟩ := walk_eq_some.mp hj
      obtain ⟨f, hf, -, -⟩ := hsound.nodes.whole n (by rw [hl]; exact mem_middle.mpr (.inl rfl))
      refine yields_deref hf ?_
      unfold sprintf
      split
      · exact hsame _
      · next hlong => exact .myread hfree hp hj hf (not_lt.mp hlong)

end LinuxFibers.Lists
