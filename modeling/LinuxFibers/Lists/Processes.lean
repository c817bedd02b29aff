import LinuxFibers.Base.Outcome
import LinuxFibers.Lists.Nodes

/-!
# The list of processes

`State.machine` reads the machine out of the two kinds of lists. A walk that finds the caller's process finds the newest
fibers of the machine (`findProcesso_some`), and the rules say which step of the machine it is when an operation returns
with nothing changed (`refused`, `kept`) or with that process and the caller's registers changed (`acted`).
-/

namespace LinuxFibers.Lists

open Outcomes
open Function (update update_self update_of_ne)

structure FiberProcessi.Sound (p : FiberProcessi) : Prop where
  nodes : Wf p.listaFiber
  room : p.fiberStuff.fiberBaseStuff.length = nFib
  used : p.fiberStuff.lenFiberStuff ≤ nFib

def FiberProcessi.fibers (p : FiberProcessi) : Fibers := fibersOf p.listaFiber

namespace State

def Sound (s : State) : Prop := ∀ p ∈ s.listaProcessi, p.Sound

/-- The nodes of a process, the newest first. -/
def nodes (s : State) (tgid : Int) : List FiberProcessi := s.listaProcessi.filter fun p => p.id = tgid

/-- The fibers of the machine. -/
def machine (s : State) : Machine where
  procs := fun tgid => (s.listaProcessi.filter fun p => p.id = tgid).map FiberProcessi.fibers
  cpu := s.cpu
  locked := s.lockListaProcessi

end State

variable {s : State} {c : Task} {tgid : Int} {i : Nat} {p p' : FiberProcessi} {g : FiberProcessi → FiberProcessi}

/-! ### The nodes of a process -/

theorem filter_head {u w : List FiberProcessi} (hp : p.id = tgid) (hu : ∀ q ∈ u, q.id ≠ tgid) :
    (u ++ p :: w).filter (fun q => q.id = tgid) = p :: w.filter fun q => q.id = tgid := by
  have hnone : u.filter (fun q => q.id = tgid) = [] :=
    List.filter_eq_nil_iff.mpr fun q hq => by simpa using hu q hq
  rw [List.filter_append, hnone, List.nil_append, List.filter_cons_of_pos (by simpa using hp)]

/-- The walk to a process that is there. -/
theorem findProcesso_some (h : s.findProcesso tgid = some (i, p)) :
    ∃ u w, s.listaProcessi = u ++ p :: w ∧ u.length = i ∧ p.id = tgid ∧ ∀ q ∈ u, q.id ≠ tgid := by
  obtain ⟨u, w, hl, hu, hp, hno⟩ := walk_eq_some.mp h
  exact ⟨u, w, hl, hu, of_decide_eq_true hp, fun q hq => of_decide_eq_false (hno q hq)⟩

theorem nodes_none (h : s.findProcesso tgid = none) : s.nodes tgid = [] :=
  List.filter_eq_nil_iff.mpr fun q hq => by simpa using of_decide_eq_false (walk_eq_none.mp h q hq)

theorem nodes_some (h : s.findProcesso tgid = some (i, p)) : ∃ w, s.nodes tgid = p :: w := by
  obtain ⟨u, w, hl, -, hp, hu⟩ := findProcesso_some h
  rw [State.nodes, hl, filter_head hp hu]
  exact ⟨_, rfl⟩

/-- The process is assigned to. -/
theorem nodes_modProcesso (h : s.findProcesso tgid = some (i, p)) (hg : g p = p') (hid : p'.id = p.id) :
    ∃ w, s.nodes tgid = p :: w ∧ (s.modProcesso i g).nodes = update s.nodes tgid (p' :: w) := by
  obtain ⟨u, w, hl, rfl, hp, hu⟩ := findProcesso_some h
  refine ⟨w.filter fun q => q.id = tgid, ?_, funext fun t => ?_⟩
  · rw [State.nodes, hl, filter_head hp hu]
  · show (s.listaProcessi.modify u.length g).filter (fun q => q.id = t) = _
    rw [hl, modify_append_cons, hg]
    by_cases ht : t = tgid
    · subst ht
      rw [update_self, filter_head (hid.trans hp) hu]
    · have hne : ¬ p'.id = t := fun he => ht (he.symm.trans (hid.trans hp))
      have hne' : ¬ p.id = t := fun he => ht (he.symm.trans hp)
      rw [update_of_ne ht, State.nodes, hl, List.filter_append, List.filter_append,
        List.filter_cons_of_neg (by simpa using hne), List.filter_cons_of_neg (by simpa using hne')]

/-- The process is unlinked. -/
theorem nodes_eraseIdx (h : s.findProcesso tgid = some (i, p)) :
    ∃ w, s.nodes tgid = p :: w ∧
      State.nodes { s with listaProcessi := s.listaProcessi.eraseIdx i } = update s.nodes tgid w := by
  obtain ⟨u, w, hl, rfl, hp, hu⟩ := findProcesso_some h
  have herase : s.listaProcessi.eraseIdx u.length = u ++ w := by
    rw [hl, List.eraseIdx_append_of_length_le le_rfl, Nat.sub_self]
    rfl
  refine ⟨w.filter fun q => q.id = tgid, ?_, funext fun t => ?_⟩
  · rw [State.nodes, hl, filter_head hp hu]
  · show (s.listaProcessi.eraseIdx u.length).filter (fun q => q.id = t) = _
    rw [herase, List.filter_append]
    by_cases ht : t = tgid
    · subst ht
      have hnone : u.filter (fun q => q.id = t) = [] := List.filter_eq_nil_iff.mpr fun q hq => by simpa using hu q hq
      rw [update_self, hnone]
      rfl
    · have hne : ¬ p.id = t := fun he => ht (he.symm.trans hp)
      rw [update_of_ne ht, State.nodes, hl, List.filter_append, List.filter_cons_of_neg (by simpa using hne)]

/-- A node of the process `tgid` is linked at the head. -/
theorem nodes_cons (hid : p.id = tgid) :
    State.nodes { s with listaProcessi := p :: s.listaProcessi } = update s.nodes tgid (p :: s.nodes tgid) := by
  funext t
  show (p :: s.listaProcessi).filter (fun q => q.id = t) = _
  by_cases ht : t = tgid
  · subst ht
    rw [update_self, List.filter_cons_of_pos (by simpa using hid)]
    rfl
  · have hne : ¬ p.id = t := fun he => ht (he.symm.trans hid)
    rw [update_of_ne ht, List.filter_cons_of_neg (by simpa using hne)]
    rfl

/-! ### The fibers of the nodes -/

theorem procs_eq (s : State) (t : Int) : s.machine.procs t = (s.nodes t).map FiberProcessi.fibers := rfl

/-- The nodes of one process change, and with them its fibers. -/
theorem procs_update {s' : State} {l : List FiberProcessi} (h : s'.nodes = update s.nodes tgid l) :
    s'.machine.procs = update s.machine.procs tgid (l.map FiberProcessi.fibers) := by
  funext t
  rw [procs_eq, h]
  by_cases ht : t = tgid
  · subst ht
    rw [update_self, update_self]
  · rw [update_of_ne ht, update_of_ne ht, procs_eq]

theorem procs_none (h : s.findProcesso tgid = none) : s.machine.procs tgid = [] := by
  rw [procs_eq, nodes_none h]
  rfl

theorem sound_of_find (hs : s.Sound) (h : s.findProcesso tgid = some (i, p)) : p.Sound := by
  obtain ⟨u, w, hl, -⟩ := findProcesso_some h
  exact hs p (by rw [hl]; simp)

theorem procs_some (h : s.findProcesso tgid = some (i, p)) :
    ∃ rest, s.machine.procs tgid = p.fibers :: rest := by
  obtain ⟨w, hw⟩ := nodes_some h
  exact ⟨w.map FiberProcessi.fibers, by rw [procs_eq, hw, List.map_cons]⟩

theorem machine_modProcesso (h : s.findProcesso tgid = some (i, p)) (hg : g p = p') (hid : p'.id = p.id) :
    ∃ rest, s.machine.procs tgid = p.fibers :: rest ∧
      (s.modProcesso i g).machine = s.machine.setProcs tgid (p'.fibers :: rest) := by
  obtain ⟨w, hw, hmod⟩ := nodes_modProcesso h hg hid
  refine ⟨w.map FiberProcessi.fibers, by rw [procs_eq, hw, List.map_cons], ?_⟩
  exact congrArg (fun procs => Machine.mk procs _ _) (procs_update hmod)

theorem machine_eraseIdx (h : s.findProcesso tgid = some (i, p)) :
    ∃ rest, s.machine.procs tgid = p.fibers :: rest ∧
      State.machine { s with listaProcessi := s.listaProcessi.eraseIdx i } = s.machine.setProcs tgid rest := by
  obtain ⟨w, hw, herase⟩ := nodes_eraseIdx h
  refine ⟨w.map FiberProcessi.fibers, by rw [procs_eq, hw, List.map_cons], ?_⟩
  exact congrArg (fun procs => Machine.mk procs _ _) (procs_update herase)

theorem sound_modProcesso (hs : s.Sound) (h : s.findProcesso tgid = some (i, p)) (hg : g p = p') (hp' : p'.Sound) :
    (s.modProcesso i g).Sound := by
  obtain ⟨u, w, hl, rfl, -, -⟩ := findProcesso_some h
  intro q hq
  have hq' : q ∈ s.listaProcessi.modify u.length g := hq
  rw [hl, modify_append_cons, hg] at hq'
  obtain rfl | hq' := mem_middle.mp hq'
  · exact hp'
  · exact hs q (by rw [hl]; exact mem_middle.mpr (.inr hq'))

/-! ### The fibers of a process -/

section node

variable {j : Nat} {n : ListaFiber} {f : Fiber} {h : Fiber → Fiber} {pid id : Int}

/-- The walk to the fiber that the caller runs. -/
theorem findRunner_some (hp : p.Sound) (hj : p.findRunner pid = some (j, n)) (hpid : pid ≠ 0) :
    n ∈ p.listaFiber ∧ n.runner = pid ∧ n.running = true ∧ p.fibers.current pid = some n.id ∧
      p.fibers.fiber n.id = n.coroutine := by
  obtain ⟨u, w, hl, -, hrunner, -⟩ := walk_eq_some.mp hj
  have hn : n ∈ p.listaFiber := by
    rw [hl]
    exact mem_middle.mpr (.inl rfl)
  have hpid' : n.runner = pid := of_decide_eq_true hrunner
  have hzero : n.runner ≠ 0 := by rwa [hpid']
  refine ⟨hn, hpid', hp.nodes.running n hn hzero, ?_, fiberOf_mem hp.nodes hn⟩
  rw [← hpid']
  exact currentOf_mem hp.nodes hn hzero

theorem findRunner_none (hj : p.findRunner pid = none) : p.fibers.current pid = none :=
  currentOf_none fun n hn => of_decide_eq_false (walk_eq_none.mp hj n hn)

/-- A node is assigned to. -/
theorem modNode_eq {u w : List ListaFiber} {g : ListaFiber → ListaFiber} (hl : p.listaFiber = u ++ n :: w) :
    p.modNode u.length g = { p with listaFiber := u ++ g n :: w } := by
  rw [FiberProcessi.modNode, hl, modify_append_cons]

/-- The fiber of a node is assigned to, with the arrays where they were. -/
theorem modFiber_fibers (hp : p.Sound) {found : ListaFiber → Bool} (hj : walk found p.listaFiber = some (j, n))
    (hf : n.fiber = some f) (hfls : (h f).fls ≠ none) (hbitmap : (h f).bitmapFls ≠ none) : (p.modFiber j h).Sound ∧
      (p.modFiber j h).fibers = p.fibers.setFiber n.id ⟨⟨(h f).regs, (h f).fpu⟩, !n.running, (h f).storage⟩ := by
  obtain ⟨u, w, hl, rfl, -, -⟩ := walk_eq_some.mp hj
  have hmod : p.modFiber u.length h = { p with listaFiber := u ++ { n with fiber := some (h f) } :: w } := by
    rw [FiberProcessi.modFiber, modNode_eq hl, hf]
    rfl
  have hnodes := hp.nodes
  rw [hl] at hnodes
  have hnodes' : Wf (u ++ { n with fiber := some (h f) } :: w) := by
    refine hnodes.replace rfl ⟨_, rfl, hfls, hbitmap⟩ (hnodes.running n (by simp)) fun m hm hrunner => ?_
    by_contra hzero
    refine hnodes.id_ne hm ?_
    rw [hnodes.eq_of_runner (mem_middle.mpr (.inr hm)) (mem_middle.mpr (.inl rfl)) hrunner.symm
      (by rw [← hrunner]; exact hzero)]
  rw [hmod]
  refine ⟨⟨hnodes', hp.room, hp.used⟩, ?_⟩
  show fibersOf _ = _
  rw [FiberProcessi.fibers, hl]
  unfold fibersOf Fibers.setFiber
  rw [fiberOf_replace hnodes hnodes' rfl rfl, currentOf_same hnodes hnodes' rfl rfl]
  simp

end node

/-! ### The ways an operation ends -/

/-- The call takes the lock. -/
def Call.Locks : Call → Prop
  | .driver _ | .fibRelease _ => True
  | .preHandlerExit _ | .user _ _ => False

/-- The calls that do not return, by what stops them. -/
inductive Faults (P : Printer) (s : State) : Call → Stop → Prop
  /-- an operation has kept the lock -/
  | locked {call : Call} (hlocked : s.lockListaProcessi = true) (hcall : call.Locks) : Faults P s call .spins
  /-- `bersaglio` is `NULL` -/
  | fibRelease {c : Task} (hfree : s.lockListaProcessi = false) (hp : s.findProcesso c.tgid = none) :
      Faults P s (.fibRelease c) (.fault .danglingPointer)
  /-- there is no next id -/
  | fibConvert {c : Task} {now : Timespec} {i : Nat} {p : FiberProcessi} (hfree : s.lockListaProcessi = false)
      (hp : s.findProcesso c.tgid = some (i, p)) (hno : p.findRunner c.pid = none) (hmax : pidMax ≤ p.listaFiber.length) :
      Faults P s (.driver (.fibConvert c now)) (.fault .signedOverflow)
  | fibCreate {c : Task} {func parameters stackPointer stackSize : BitVec 64} {i : Nat} {p : FiberProcessi}
      (hfree : s.lockListaProcessi = false) (hp : s.findProcesso c.tgid = some (i, p))
      (hmax : pidMax ≤ p.listaFiber.length) :
      Faults P s (.driver (.fibCreate c func parameters stackPointer stackSize)) (.fault .signedOverflow)
  /-- the name does not fit, or the directory is full -/
  | entry {c : Task} {func parameters stackPointer stackSize : BitVec 64} {i : Nat} {p : FiberProcessi}
      (hfree : s.lockListaProcessi = false) (hp : s.findProcesso c.tgid = some (i, p))
      (hnext : (p.listaFiber.length : Int) < pidMax)
      (hroom : nameSize ≤ (Printer.decimal (P.int (p.listaFiber.length + 1))).length + 1 ∨
        p.fiberStuff.lenFiberStuff = nFib) :
      Faults P s (.driver (.fibCreate c func parameters stackPointer stackSize)) (.fault .outOfBounds)
  /-- every index is handed out, and the variable `index` holds none -/
  | flsAlloc {c : Task} {index : Int} {i j : Nat} {p : FiberProcessi} {n : ListaFiber} {f : Fiber}
      (hfree : s.lockListaProcessi = false) (hp : s.findProcesso c.tgid = some (i, p))
      (hj : p.findRunner c.pid = some (j, n)) (hf : n.fiber = some f) (hfull : ∀ k, k ∈ f.storage.live)
      (hindex : ¬ InRange index) (hsize : index ≠ flsSize) :
      Faults P s (.driver (.flsAlloc c index)) (.fault .outOfBounds)
  /-- the text does not fit -/
  | myread {name tgid : List Char} {fibId : Nat} {tmpPid : Int} {len off : Nat} {copied : Bool} {i j : Nat}
      {p : FiberProcessi} {n : ListaFiber} {f : Fiber} (hfree : s.lockListaProcessi = false)
      (hp : s.findProcesso (pidOfName tgid tmpPid) = some (i, p))
      (hj : walk (fun f : ListaFiber => (f.id % 2 ^ 64).toNat = (fibIdOfName name).getD fibId) p.listaFiber = some (j, n))
      (hf : n.fiber = some f) (hlong : fibLogLen ≤ (fiberStat P n.running f).length) :
      Faults P s (.driver (.myread name tgid fibId tmpPid len off copied)) (.fault .outOfBounds)

/-- After the call the lists are sound, and the machine has taken a step. -/
def Does (s : State) (call : Call) (s' : State) (out : Option Int) : Prop :=
  s'.Sound ∧ Machine.Step s.machine ⟨call, out⟩ s'.machine

theorem unlock_lock (hfree : s.lockListaProcessi = false) : spinUnlock { s with lockListaProcessi := true } = s := by
  rw [spinUnlock, ← hfree]

theorem yields_lock {α : Type} {allowed : Stop → Prop} {post : State × α → Prop} {k : State → Except Stop (State × α)}
    (hlocked : s.lockListaProcessi = true → allowed .spins)
    (hk : s.lockListaProcessi = false → Yields allowed post (k { s with lockListaProcessi := true })) :
    Yields allowed post (spinLock s >>= k) := by
  cases h : s.lockListaProcessi with
  | true =>
    rw [spinLock, h]
    exact hlocked h
  | false =>
    rw [spinLock_free h]
    exact hk h

theorem yields_deref {α β : Type} {allowed : Stop → Prop} {post : State × α → Prop} {o : Option β} {b : β}
    {k : β → Except Stop (State × α)} (ho : o = some b) (hk : Yields allowed post (k b)) :
    Yields allowed post (deref o >>= k) := by
  rw [ho]
  exact hk

section returns

variable {op : Op} {out : Option Int} {cpu : Cpu} (hs : s.Sound) (hfree : s.lockListaProcessi = false)
  (hcaller : op.caller = some c)
include hs hfree hcaller

/-- The process has not opened the device. -/
theorem refused (hp : s.findProcesso c.tgid = none) (hop : ∀ c, op ≠ .fibOpen c) (hout : out = op.refusal) :
    Does s (.driver op) (spinUnlock { s with lockListaProcessi := true }) out := by
  rw [unlock_lock hfree, hout]
  exact ⟨hs, .refused hfree hcaller hop (procs_none hp)⟩

/-- Nothing has changed. -/
theorem kept (hp : s.findProcesso c.tgid = some (i, p))
    (hstep : Fibers.Step c.pid (s.cpu c, p.fibers) op out (s.cpu c, p.fibers)) :
    Does s (.driver op) (spinUnlock { s with lockListaProcessi := true }) out := by
  rw [unlock_lock hfree]
  obtain ⟨rest, hrest⟩ := procs_some hp
  refine ⟨hs, ?_⟩
  have hmachine := Machine.Step.driver (a := s.machine) hfree hcaller hrest hstep
  rw [← hrest] at hmachine
  unfold Machine.setProcs Machine.setCpu at hmachine
  simp only [Function.update_eq_self] at hmachine
  rwa [show Function.update s.machine.cpu c (s.cpu c) = s.machine.cpu from Function.update_eq_self c s.cpu] at hmachine

/-- The process has changed, and the registers of the caller. -/
theorem acted (hp : s.findProcesso c.tgid = some (i, p)) (hg : g p = p') (hid : p'.id = p.id) (hp' : p'.Sound)
    (hstep : Fibers.Step c.pid (s.cpu c, p.fibers) op out (cpu, p'.fibers)) :
    Does s (.driver op) (spinUnlock ((State.modProcesso { s with lockListaProcessi := true } i g).setCpu c cpu)) out := by
  have hp₁ : State.findProcesso { s with lockListaProcessi := true } c.tgid = some (i, p) := hp
  obtain ⟨rest, hrest, hmod⟩ := machine_modProcesso hp₁ hg hid
  refine ⟨sound_modProcesso (s := { s with lockListaProcessi := true }) hs hp₁ hg hp', ?_⟩
  have hmachine := Machine.Step.driver (a := s.machine) hfree hcaller hrest hstep
  have hprocs : (spinUnlock ((State.modProcesso { s with lockListaProcessi := true } i g).setCpu c cpu)).machine.procs =
      Function.update s.machine.procs c.tgid (p'.fibers :: rest) := congrArg Machine.procs hmod
  refine cast (congrArg (Machine.Step s.machine ⟨.driver op, out⟩) ?_) hmachine
  refine Eq.trans ?_ (congrArg (fun procs => Machine.mk procs (Function.update s.cpu c cpu) false) hprocs.symm)
  exact congrArg (Machine.mk _ _) hfree

/-- The process has changed. -/
theorem acted' (hp : s.findProcesso c.tgid = some (i, p)) (hg : g p = p') (hid : p'.id = p.id) (hp' : p'.Sound)
    (hstep : Fibers.Step c.pid (s.cpu c, p.fibers) op out (s.cpu c, p'.fibers)) :
    Does s (.driver op) (spinUnlock (State.modProcesso { s with lockListaProcessi := true } i g)) out := by
  have hdoes := acted hs hfree hcaller hp hg hid hp' hstep
  rwa [State.setCpu, show Function.update (State.modProcesso { s with lockListaProcessi := true } i g).cpu c (s.cpu c) =
    s.cpu from Function.update_eq_self c s.cpu] at hdoes

end returns

end LinuxFibers.Lists
