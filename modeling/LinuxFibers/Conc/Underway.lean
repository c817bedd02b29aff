import LinuxFibers.Conc.Alone

/-!
# The memory with every exchange complete

A call takes effect at one step of its thread: when the target is found free, when the failure is counted,
or when the walks find nothing. `Underway` relates the memory to the memory `a` in which every exchange
that has begun is complete. `Underway.step` says what a step does to `a`: nothing, or what one whole call
does when nobody else runs.
-/

namespace LinuxFibers

open HeapTable LocalActions Runs

/-- The cells that a thread is in the course of writing. -/
def Pc.own (t : Int) : Pc → Set Cell
  | .exchange thread old new _ => window t thread old new
  | _ => ∅

/-- The assignments that a thread has still to make. -/
def Pc.pending (t : Int) : Pc → List (Shared → Shared)
  | .exchange _ _ _ rest => rest.map (Shared.assign t)
  | _ => []

/-- The call that a thread has begun and that has had no effect yet. -/
def Pc.undecided : Pc → List Call
  | .lockOld call _ _ | .heldOld call _ _ | .lockNew call _ _ _ | .heldNew call _ _ _
  | .countFailed call _ _ _ => [call]
  | _ => []

/-- The value that a call will return, from its effect on. -/
def Pc.decided : Pc → List Int
  | .exchange _ _ _ _ => [0]
  | .unlockNew _ _ ret | .unlockOld _ ret => [ret]
  | _ => []

/-- The calls of a thread that have had no effect yet. -/
def Config.ahead (cf : Config) (t : Int) : List Call := (cf.pc t).undecided ++ cf.todo t

/-- The values returned by the calls of a thread that have had their effect. -/
def Config.answered (cf : Config) (t : Int) : List Int := cf.rets t ++ (cf.pc t).decided

theorem Pc.exchange_of_mem_own {pc : Pc} {t : Int} {i : Cell} (h : i ∈ pc.own t) :
    ∃ thread old new rest, pc = .exchange thread old new rest ∧ i ∈ window t thread old new := by
  cases pc with
  | exchange thread old new rest => exact ⟨thread, old, new, rest, rfl, h⟩
  | _ => exact absurd h (Set.notMem_empty i)

structure Underway (cf : Config) (a : Shared) : Prop where
  locks : Locks cf
  pending : Pending Shared.get (fun u => (cf.pc u).own u) (fun u => (cf.pc u).pending u) cf.mem a
  wf : a.proc.Wf
  good : ∀ u, (cf.pc u).Good u cf.mem a

/-! ### Starts -/

/-- An entry as the operations leave it, with nobody inside `fib_switch_to`. -/
structure Config.Start (cf : Config) : Prop where
  wf : cf.mem.proc.Wf
  free : ∀ x, cf.lock x = none
  idle : ∀ t, cf.pc t = .idle
  rets : ∀ t, cf.rets t = []

/-- The threads of an entry, about to make the calls `todo`. -/
def Config.atEntry (s : State) (b : Block Process) (todo : Int → List Call) : Config where
  mem := { proc := b.val, cpu := fun pid => s.cpu ⟨b.val.id, pid⟩ }
  lock _ := none
  pc _ := .idle
  todo := todo
  rets _ := []

/-- The entries that the operations build are starts, for any calls of any threads. -/
theorem start_of_reached {nFib : Nat} {s : State} (h : Reached nFib s) {b : Block Process}
    (hb : b ∈ s.processi) (todo : Int → List Call) : (Config.atEntry s b todo).Start :=
  ⟨(reached_inv h b hb).toWf, fun _ => rfl, fun _ => rfl, fun _ => rfl⟩

/-- The threads of the newest entry, if there is one. -/
def Config.newest (todo : Int → List Call) (s : State) : Option Config :=
  s.processi.head?.map fun b => Config.atEntry s b todo

/-- A run from an entry that the operations build, with a given view of its end. -/
theorem exists_concurrent (nFib : Nat) (ops : List Op) (todo : Int → List Call) (ts : List Int)
    (ok : Config → Int → Bool) (guard : Config → Int → Prop)
    (hok : ∀ cf₀ cf tr t, cf₀.Start → cf₀.todo = todo → Run (· = cf₀) Next cf tr → ok cf t = true →
      guard cf t) {β : Type} (view : Config → β) {v : β}
    (h : (runOps nFib ops empty []).toOption.map (fun r =>
      (Config.newest todo r.1).bind fun cf₀ => (follow Config.next ok cf₀ ts).map view) = some (some v)) :
    ∃ cf₀ cf, cf₀.Start ∧ cf₀.todo = todo ∧ Run (· = cf₀) (Guarded guard Next) cf ts.reverse ∧
      view cf = v := by
  have hstarts : ∀ s cf₀, Reached nFib s → Config.newest todo s = some cf₀ → cf₀.Start ∧ cf₀.todo = todo := by
    intro s cf₀ hs hnewest
    obtain ⟨b, hb, rfl⟩ := Option.map_eq_some_iff.mp hnewest
    exact ⟨start_of_reached hs (List.mem_of_mem_head? hb) todo, rfl⟩
  obtain ⟨s, cf₀, cf, hs, hnewest, hrun, hview⟩ := exists_followed nFib ops (Config.newest todo) ts ok guard
    (fun s cf₀ cf tr t hs hnewest => hok cf₀ cf tr t (hstarts s cf₀ hs hnewest).1 (hstarts s cf₀ hs hnewest).2)
    (fun _ => view) h
  obtain ⟨hstart, htodo⟩ := hstarts s cf₀ hs hnewest
  exact ⟨cf₀, cf, hstart, htodo, hrun, hview⟩

theorem Config.Start.locks {cf : Config} (h : cf.Start) : Locks cf := by
  refine ⟨fun x u => ?_, fun u => ?_⟩
  · rw [h.free, h.idle]
    simp [Pc.holds]
  · rw [h.idle]
    exact List.nodup_nil

theorem Config.Start.underway {cf : Config} (h : cf.Start) : Underway cf cf.mem := by
  have hown : (fun u => (cf.pc u).own u) = fun _ => ∅ := by
    funext u
    rw [h.idle]
    rfl
  have hpending : (fun u => (cf.pc u).pending u) = fun _ => [] := by
    funext u
    rw [h.idle]
    rfl
  refine ⟨h.locks, ?_, h.wf, fun u => ?_⟩
  · rw [hown, hpending]
    exact Pending.start cf.mem
  · rw [h.idle]
    trivial

/-! ### Nodes and the shape of the entry -/

section shape

variable {p q : Process} {x : Nat} {i t : Int}

theorem mem_shape_fibers {f : Fiber} (hf : p.listafiber.deref x = some f) : (x, f.id) ∈ p.shape.fibers :=
  List.mem_map.mpr ⟨⟨x, f⟩, Table.mem_of_deref hf, rfl⟩

theorem exists_fiber (hwf : p.Wf) (h : (x, i) ∈ p.shape.fibers) :
    ∃ f, p.listafiber.deref x = some f ∧ f.id = i := by
  obtain ⟨b, hb, he⟩ := List.mem_map.mp h
  simp only [Prod.mk.injEq] at he
  obtain ⟨rfl, rfl⟩ := he
  exact ⟨b.val, Table.deref_of_mem hwf.fiberAddrs hb, rfl⟩

theorem fiber_id_eq (hwf : p.Wf) {f : Fiber} (hf : p.listafiber.deref x = some f)
    (h : (x, i) ∈ p.shape.fibers) : f.id = i := by
  obtain ⟨f', hf', hi⟩ := exists_fiber hwf h
  obtain rfl : f = f' := Option.some.inj (hf.symm.trans hf')
  exact hi

theorem fiber_addr_eq (hwf : p.Wf) {y : Nat} (hx : (x, i) ∈ p.shape.fibers) (hy : (y, i) ∈ p.shape.fibers) :
    x = y := by
  obtain ⟨b, hb, he⟩ := List.mem_map.mp hx
  obtain ⟨b', hb', he'⟩ := List.mem_map.mp hy
  obtain ⟨rfl, hid⟩ := Prod.mk.inj he
  obtain ⟨rfl, hid'⟩ := Prod.mk.inj he'
  rw [List.inj_on_of_nodup_map hwf.fiberIds hb hb' (hid.trans hid'.symm)]

theorem threadIds_shape (hwf : p.Wf) (h : p.shape = q.shape) :
    (q.listathread.map fun b => b.val.id).Nodup := by
  have hids := congrArg (fun s => s.threads.map Prod.snd) h
  simp only [Process.shape, List.map_map] at hids
  have hnodup := hwf.threadIds
  exact (show (q.listathread.map fun b => b.val.id) = _ from hids.symm) ▸ hnodup

theorem threadAddrs_shape (hwf : p.Wf) (h : p.shape = q.shape) : q.listathread.addrs.Nodup := by
  have haddrs := congrArg (fun s => s.threads.map Prod.fst) h
  simp only [Process.shape, List.map_map] at haddrs
  have hnodup := hwf.threadAddrs
  exact (show q.listathread.addrs = _ from haddrs.symm) ▸ hnodup

theorem mem_possible {α : Type} {id : α → Int} {T : Table α} (h : x ∈ possible id i T) :
    ∃ b ∈ T, b.addr = x ∧ id b.val = i := by
  rw [possible_eq, Table.mem_addrs] at h
  obtain ⟨b, hb, hx⟩ := h
  rw [List.mem_filter, decide_eq_true_eq] at hb
  exact ⟨b, hb.1, hx, hb.2⟩

/-- What the lookup of the runner answers is the caller's node and its runner. -/
theorem runs_of_runnerOf {m : Shared} {thread old : Nat} (haddrs : m.proc.listathread.addrs.Nodup)
    (h : m.proc.runnerOf t = some (thread, old)) : m.Runs t thread old := by
  obtain ⟨n, hn, h⟩ := Option.bind_eq_some_iff.mp h
  obtain ⟨r, hr, h⟩ := Option.map_eq_some_iff.mp h
  obtain ⟨rfl, rfl⟩ := Prod.mk.inj h
  obtain ⟨⟨b, v⟩, hb, rfl, hid⟩ := mem_possible (List.mem_of_mem_head? hn)
  obtain ⟨v', hv', hrun⟩ := Option.bind_eq_some_iff.mp hr
  have hderef := Table.deref_of_mem haddrs hb
  obtain rfl : v = v' := Option.some.inj (hderef.symm.trans hv')
  show m.proc.listathread.deref b = _
  rw [hderef, ← hrun, ← hid]

theorem runnerOf_of_runs {m : Shared} {thread old : Nat}
    (hids : (m.proc.listathread.map fun b => b.val.id).Nodup) (h : m.Runs t thread old) :
    m.proc.runnerOf t = some (thread, old) := by
  have hderef : m.proc.listathread.deref thread = some { runner := some old, id := t } := h
  have hpossible : possible Thread.id t m.proc.listathread = [thread] :=
    possible_single hids (Table.mem_of_deref hderef) rfl
  rw [Process.runnerOf, hpossible]
  simp only [List.head?_cons, Option.bind_some, hderef, Option.map_some]

theorem runs_inj {m : Shared} {u : Int} {thread old old' : Nat} (h : m.Runs t thread old)
    (hu : m.Runs u thread old') : t = u ∧ old = old' := by
  have heq := Option.some.inj (Eq.trans (Eq.symm h) hu)
  rw [Thread.mk.injEq, Option.some.injEq] at heq
  exact ⟨heq.2, heq.1⟩

theorem carries_of_runs {m : Shared} {thread old : Nat} (hwf : m.proc.Wf) (h : m.Runs t thread old) :
    ∃ f, m.proc.Carries t thread old f := by
  obtain ⟨r, f, hr, hf, -⟩ := hwf.runner _ _ h
  obtain rfl := Option.some.inj hr
  exact ⟨f, h, hf⟩

end shape

/-! ### What the two memories share -/

namespace Underway

variable {cf cf' : Config} {a a' : Shared} {t u : Int} {thread old new : Nat}

theorem unowned_shape (u : Int) : Cell.shape ∉ (cf.pc u).own u := by
  intro hu
  obtain ⟨thread, old, new, rest, -, hi⟩ := Pc.exchange_of_mem_own hu
  exact shape_notMem_window hi

theorem shape (h : Underway cf a) : a.proc.shape = cf.mem.proc.shape :=
  h.pending.free .shape unowned_shape

/-- Nobody else writes a fiber that a thread has locked. -/
theorem unowned_fiber (h : Underway cf a) (hown : (cf.pc t).own t = ∅) {x : Nat} (hx : x ∈ (cf.pc t).holds)
    (u : Int) : Cell.fiber x ∉ (cf.pc u).own u := by
  intro hu
  obtain ⟨thread, old, new, rest, hpc, hi⟩ := Pc.exchange_of_mem_own hu
  have hxu : x ∈ (cf.pc u).holds := by
    rw [hpc]
    rcases fiber_mem_window.mp hi with rfl | rfl <;> simp [Pc.holds]
  obtain rfl := h.locks.eq_of_holds hx hxu
  rw [hown] at hu
  exact hu

/-- Nobody else writes the node of a thread. -/
theorem unowned_thread (h : Underway cf a) (hown : (cf.pc t).own t = ∅)
    (hruns : cf.mem.Runs t thread old ∨ a.Runs t thread old) (u : Int) :
    Cell.thread thread ∉ (cf.pc u).own u := by
  intro hu
  obtain ⟨thread', old', new', rest, hpc, hi⟩ := Pc.exchange_of_mem_own hu
  obtain rfl := thread_mem_window.mp hi
  have hgood := h.good u
  rw [hpc] at hgood
  obtain ⟨⟨r, -, hr⟩, ha, -⟩ := hgood
  have hut : t = u := by
    rcases hruns with hm | hm
    · exact (runs_inj hm hr).1
    · exact (runs_inj hm ha).1
  subst hut
  rw [hown] at hu
  exact hu

theorem unowned_cpu (hown : (cf.pc t).own t = ∅) (u : Int) : Cell.cpu t ∉ (cf.pc u).own u := by
  intro hu
  obtain ⟨thread, old, new, rest, -, hi⟩ := Pc.exchange_of_mem_own hu
  obtain rfl := cpu_mem_window.mp hi
  rw [hown] at hu
  exact hu

/-- Nobody is writing in the window of a thread that has its locks and writes nothing yet. -/
theorem unowned (h : Underway cf a) (hown : (cf.pc t).own t = ∅) (hruns : cf.mem.Runs t thread old)
    (hold : old ∈ (cf.pc t).holds) (hnew : new ∈ (cf.pc t).holds) (u : Int) :
    Disjoint (window t thread old new) ((cf.pc u).own u) := by
  rw [Set.disjoint_left]
  intro i hi
  cases i with
  | fiber x =>
    rcases fiber_mem_window.mp hi with rfl | rfl
    · exact h.unowned_fiber hown hold u
    · exact h.unowned_fiber hown hnew u
  | thread x =>
    obtain rfl := thread_mem_window.mp hi
    exact h.unowned_thread hown (.inl hruns) u
  | cpu v =>
    obtain rfl := cpu_mem_window.mp hi
    exact unowned_cpu hown u
  | shape => exact absurd hi shape_notMem_window

theorem runs_iff (h : Underway cf a) (hown : (cf.pc t).own t = ∅) :
    a.Runs t thread old ↔ cf.mem.Runs t thread old := by
  refine ⟨fun hruns => ?_, fun hruns => ?_⟩
  · have hnode := h.pending.free _ (h.unowned_thread hown (.inr hruns))
    exact Eq.trans (Eq.symm hnode) hruns
  · have hnode := h.pending.free _ (h.unowned_thread hown (.inl hruns))
    exact Eq.trans hnode hruns

/-- The fiber a thread has locked is the same in the two memories. -/
theorem fiber_eq (h : Underway cf a) (hown : (cf.pc t).own t = ∅) {x : Nat} (hx : x ∈ (cf.pc t).holds) :
    a.proc.listafiber.deref x = cf.mem.proc.listafiber.deref x :=
  h.pending.free (.fiber x) (h.unowned_fiber hown hx)

/-! ### One step -/

theorem of_step {pc : Pc} (hlocks : Locks cf') (hpc : cf'.pc = Function.update cf.pc t pc)
    (hpending : Pending Shared.get (Function.update (fun u => (cf.pc u).own u) t (pc.own t))
      (Function.update (fun u => (cf.pc u).pending u) t (pc.pending t)) cf'.mem a')
    (hwf : a'.proc.Wf) (hgood : pc.Good t cf'.mem a')
    (hothers : ∀ u, u ≠ t → (cf.pc u).Good u cf'.mem a') : Underway cf' a' := by
  have hown : (fun u => (cf'.pc u).own u) = Function.update (fun u => (cf.pc u).own u) t (pc.own t) := by
    funext u
    rw [hpc]
    by_cases hu : u = t
    · subst hu
      rw [Function.update_self, Function.update_self]
    · rw [Function.update_of_ne hu, Function.update_of_ne hu]
  have hpend : (fun u => (cf'.pc u).pending u) =
      Function.update (fun u => (cf.pc u).pending u) t (pc.pending t) := by
    funext u
    rw [hpc]
    by_cases hu : u = t
    · subst hu
      rw [Function.update_self, Function.update_self]
    · rw [Function.update_of_ne hu, Function.update_of_ne hu]
  refine ⟨hlocks, ?_, hwf, fun u => ?_⟩
  · rw [hown, hpend]
    exact hpending
  · rw [hpc]
    by_cases hu : u = t
    · subst hu
      rw [Function.update_self]
      exact hgood
    · rw [Function.update_of_ne hu]
      exact hothers u hu

/-- A thread moves on without writing. -/
theorem move {pc : Pc} (h : Underway cf a) (hlocks : Locks cf') (hmem : cf'.mem = cf.mem)
    (hpc : cf'.pc = Function.update cf.pc t pc) (hown : pc.own t = (cf.pc t).own t)
    (hpending : pc.pending t = (cf.pc t).pending t) (hgood : pc.Good t cf.mem a) : Underway cf' a := by
  refine of_step hlocks hpc ?_ h.wf (hmem ▸ hgood) fun u _ => hmem ▸ h.good u
  rw [hown, hpending, hmem, Function.update_eq_self, Function.update_eq_self]
  exact h.pending

/-- What the other threads know survives a step in the window of `t`. -/
theorem good_others (h : Underway cf a) {m' : Shared} (hruns : ∃ r, cf.mem.Runs t thread r)
    (hold : old ∈ (cf.pc t).holds) (hnew : new ∈ (cf.pc t).holds)
    (hm : ∀ i, i ∉ window t thread old new → m'.get i = cf.mem.get i)
    (ha : ∀ i, i ∉ window t thread old new → a'.get i = a.get i) (u : Int) (hu : u ≠ t) :
    (cf.pc u).Good u m' a' := by
  obtain ⟨r, hr⟩ := hruns
  refine (h.good u).frame hm ha ?_ ?_
  · intro n r' hn he
    subst he
    exact hu (runs_inj hn hr).1
  · intro x hx
    refine ⟨fun he => ?_, fun he => ?_⟩
    · subst he
      exact hu (h.locks.eq_of_holds hx hold)
    · subst he
      exact hu (h.locks.eq_of_holds hx hnew)

/-- The failure is counted in both memories. -/
theorem failed (h : Underway cf a) {pc : Pc} (hlocks : Locks cf') (hown : (cf.pc t).own t = ∅)
    (hpending : (cf.pc t).pending t = []) (hruns : cf.mem.Runs t thread old) (hold : old ∈ (cf.pc t).holds)
    (hmem : cf'.mem = cf.mem.assign t (countFailedStep old)) (hpc : cf'.pc = Function.update cf.pc t pc)
    (hown' : pc.own t = ∅) (hpending' : pc.pending t = []) (hgood : ∀ m a, pc.Good t m a) :
    Underway cf' (a.assign t (countFailedStep old)) := by
  have hlocal : IsLocal Shared.get (window t thread old old) (Shared.assign t (countFailedStep old)) :=
    isLocal_countFailed
  refine of_step hlocks hpc ?_ ?_ (hgood _ _) ?_
  · rw [hown', hpending', ← hown, ← hpending, Function.update_eq_self, Function.update_eq_self, hmem]
    exact h.pending.atomic (h.unowned hown hruns hold hold) hlocal
  · exact h.wf.modFiber (fun _ _ => rfl) fun _ _ => rfl
  · rw [hmem]
    exact h.good_others ⟨old, hruns⟩ hold hold (hlocal.frame cf.mem) (hlocal.frame a)

/-- The exchange begins: it is complete at once in the second memory. -/
theorem began (h : Underway cf a) {now : Timespec} {f g : Fiber} (hlocks : Locks cf')
    (hown : (cf.pc t).own t = ∅) (hc : a.proc.Carries t thread old f) (hold : old ∈ (cf.pc t).holds)
    (hnew : new ∈ (cf.pc t).holds) (hne : old ≠ new) (hg : a.proc.listafiber.deref new = some g)
    (hsel : g.selectedThread = none) (hmem : cf'.mem = cf.mem)
    (hpc : cf'.pc = Function.update cf.pc t (.exchange thread old new (exchangeSteps thread old new now))) :
    Underway cf' (a.assign t (exchange thread old new now)) := by
  have hruns : cf.mem.Runs t thread old := (h.runs_iff hown).mp hc.thread
  have hlocal : ∀ f ∈ (exchangeSteps thread old new now).map (Shared.assign t),
      IsLocal Shared.get (window t thread old new) f :=
    List.forall_mem_map.mpr (isLocal_exchangeSteps t thread old new now)
  have hassign : a.assign t (exchange thread old new now) =
      { proc := exchanged thread old new now (a.cpu t) a.proc, cpu := Function.update a.cpu t (context g) } :=
    assign_exchange hne hg now
  refine of_step hlocks hpc ?_ ?_ ?_ ?_
  · rw [hmem, ← exec_exchangeSteps]
    exact h.pending.begin hown (h.unowned hown hruns hold hnew) hlocal
  · rw [hassign]
    exact h.wf.exchanged hc hne hg hsel
  · rw [hmem, hassign]
    refine ⟨⟨old, .inl rfl, hruns⟩, ?_, ⟨leaveFiber (a.cpu t) now f, ?_, rfl⟩, movesTo_exchangeSteps _ _ _ _⟩
    · show (exchanged _ _ _ _ _ _).listathread.deref thread = _
      rw [Process.deref_exchanged_thread, if_pos rfl, hc.thread]
      rfl
    · show (exchanged _ _ _ _ _ _).listafiber.deref old = _
      rw [Process.deref_exchanged_fiber hne, if_pos rfl, hc.fiber]
      rfl
  · rw [hmem, ← exec_exchangeSteps]
    exact h.good_others ⟨old, hruns⟩ hold hnew (fun _ _ => rfl) ((isLocal_exec hlocal).frame a)

/-- An assignment of the exchange does not show. -/
theorem assigned (h : Underway cf a) {f : Assign} {rest : List Assign} (hlocks : Locks cf')
    (ht : cf.pc t = .exchange thread old new (f :: rest)) (hmem : cf'.mem = cf.mem.assign t f)
    (hpc : cf'.pc = Function.update cf.pc t (.exchange thread old new rest)) : Underway cf' a := by
  have hgood := h.good t
  rw [ht] at hgood
  obtain ⟨⟨r, hr, hruns⟩, haruns, hfree, hmoves⟩ := hgood
  have htodo : (cf.pc t).pending t = Shared.assign t f :: rest.map (Shared.assign t) := by
    rw [ht]
    rfl
  have hlocal : IsLocal Shared.get (window t thread old new) (Shared.assign t f) := by
    have := h.pending.isLocal t (Shared.assign t f) (by simp [htodo])
    rwa [ht] at this
  have hown : (cf.pc t).own t = Pc.own t (.exchange thread old new rest) := by
    rw [ht]
    rfl
  refine of_step hlocks hpc ?_ h.wf ?_ ?_
  · rw [← hown, Function.update_eq_self, hmem]
    exact h.pending.advance htodo
  · rw [hmem]
    refine ⟨?_, haruns, hfree, fun f' hf' => hmoves f' (List.mem_cons_of_mem _ hf')⟩
    rcases hmoves f List.mem_cons_self (cf.mem.proc, cf.mem.cpu t) with hkeep | hmove
    · refine ⟨r, hr, ?_⟩
      show (f (cf.mem.proc, cf.mem.cpu t)).1.listathread.deref thread = _
      rw [hkeep]
      exact hruns
    · refine ⟨new, .inr rfl, ?_⟩
      show (f (cf.mem.proc, cf.mem.cpu t)).1.listathread.deref thread = _
      have hnode : cf.mem.proc.listathread.deref thread = some { runner := some r, id := t } := hruns
      rw [hmove, Table.deref_update_self, hnode]
      rfl
  · rw [hmem]
    refine h.good_others ⟨r, hruns⟩ ?_ ?_ (hlocal.frame cf.mem) (fun _ _ => rfl)
    · simp [ht, Pc.holds]
    · simp [ht, Pc.holds]

/-- The exchange is complete in both memories. -/
theorem ended (h : Underway cf a) (hlocks : Locks cf') (ht : cf.pc t = .exchange thread old new [])
    (hmem : cf'.mem = cf.mem) (hpc : cf'.pc = Function.update cf.pc t (.unlockNew old new 0)) :
    Underway cf' a := by
  have htodo : (cf.pc t).pending t = [] := by
    rw [ht]
    rfl
  refine of_step hlocks hpc ?_ h.wf trivial fun u _ => hmem ▸ h.good u
  have hpending : Pc.pending t (.unlockNew old new 0) = (cf.pc t).pending t := htodo.symm
  rw [hpending, Function.update_eq_self, hmem]
  exact h.pending.finish htodo

end Underway

/-! ### What a step means -/

/-- What a step of the thread `t` does to the memory with every exchange complete: nothing, or what one of
the thread's calls does when nobody else runs. -/
inductive Effect (cf : Config) (t : Int) (cf' : Config) (a : Shared) : Shared → Prop
  | silent (hahead : cf'.ahead t = cf.ahead t) (hanswered : cf'.answered t = cf.answered t) :
      Effect cf t cf' a a
  | call {call : Call} {ret : Int} {a' : Shared} (halone : Alone a t call a' ret)
      (hid : a'.proc.id = a.proc.id) (hahead : cf.ahead t = call :: cf'.ahead t)
      (hanswered : cf'.answered t = cf.answered t ++ [ret]) : Effect cf t cf' a a'

section effect

variable {cf cf' : Config} {a a' : Shared} {t : Int} {pc : Pc}

theorem Effect.of_move (hpc : cf'.pc = Function.update cf.pc t pc) (htodo : cf'.todo = cf.todo)
    (hrets : cf'.rets = cf.rets) (hundecided : pc.undecided = (cf.pc t).undecided)
    (hdecided : pc.decided = (cf.pc t).decided) : Effect cf t cf' a a := by
  apply Effect.silent
  · rw [Config.ahead, Config.ahead, hpc, Function.update_self, htodo, hundecided]
  · rw [Config.answered, Config.answered, hpc, Function.update_self, hrets, hdecided]

theorem Effect.of_call {call : Call} {ret : Int} (halone : Alone a t call a' ret)
    (hid : a'.proc.id = a.proc.id) (hpc : cf'.pc = Function.update cf.pc t pc) (htodo : cf'.todo = cf.todo)
    (hrets : cf'.rets = cf.rets) (hundecided : (cf.pc t).undecided = call :: pc.undecided)
    (hdecided : pc.decided = (cf.pc t).decided ++ [ret]) : Effect cf t cf' a a' := by
  apply Effect.call halone hid
  · rw [Config.ahead, Config.ahead, hpc, Function.update_self, htodo, hundecided]
    rfl
  · rw [Config.answered, Config.answered, hpc, Function.update_self, hrets, hdecided, List.append_assoc]

end effect

namespace Underway

variable {cf cf' : Config} {a : Shared} {t : Int} {thread old new : Nat} {call : Call}

theorem exists_carries (h : Underway cf a) (hown : (cf.pc t).own t = ∅) (hruns : cf.mem.Runs t thread old) :
    ∃ f, a.proc.Carries t thread old f :=
  carries_of_runs h.wf ((h.runs_iff hown).mpr hruns)

/-- A thread whose runner is not found has no node at all. -/
theorem noNode (h : Underway cf a) (hown : (cf.pc t).own t = ∅) (hno : cf.mem.proc.runnerOf t = none) :
    ∀ n ∈ a.proc.listathread, n.val.id ≠ t := by
  rcases h.wf.carries_or t with hnone | ⟨thread, r, f, hc⟩
  · exact hnone
  · have hruns : cf.mem.Runs t thread r := (h.runs_iff hown).mp hc.thread
    rw [runnerOf_of_runs (threadIds_shape h.wf h.shape) hruns] at hno
    cases hno

/-- The fibers of a call that asks for `new`, in the second memory. -/
theorem asked (h : Underway cf a) {f : Fiber} (hf : a.proc.listafiber.deref old = some f)
    (hasks : cf.mem.Asks call old new) :
    f.id ≠ call.id ∧ ∃ g, a.proc.listafiber.deref new = some g ∧ g.id = call.id := by
  obtain ⟨⟨i, hi, hne⟩, hnew⟩ := hasks
  rw [← h.shape] at hi hnew
  refine ⟨?_, exists_fiber h.wf hnew⟩
  rw [fiber_id_eq h.wf hf hi]
  exact hne

theorem step_absent (h : Underway cf a) {f : Fiber} (hpc : cf.pc t = .heldOld call thread old)
    (hf : cf.mem.proc.listafiber.deref old = some f) (hid : f.id ≠ call.id)
    (hno : possible Fiber.id call.id cf.mem.proc.listafiber = []) : Alone a t call a (-1) := by
  have hown : (cf.pc t).own t = ∅ := by
    rw [hpc]
    rfl
  have hruns : cf.mem.Runs t thread old := by
    have := h.good t
    rwa [hpc] at this
  obtain ⟨f', hc⟩ := h.exists_carries hown hruns
  have hold : old ∈ (cf.pc t).holds := by simp [hpc, Pc.holds]
  obtain rfl : f' = f := by
    rw [← h.fiber_eq hown hold, hc.fiber] at hf
    exact Option.some.inj hf
  refine alone_absent h.wf hc hid fun g hg hgid => ?_
  have hmem : (g.addr, g.val.id) ∈ a.proc.shape.fibers := List.mem_map_of_mem hg
  rw [h.shape] at hmem
  obtain ⟨b, hb, he⟩ := List.mem_map.mp hmem
  exact possible_eq_nil_iff.mp hno b hb ((congrArg Prod.snd he).trans hgid)

theorem step_self (h : Underway cf a) (hpc : cf.pc t = .countFailed call thread old none) :
    Alone a t call (a.assign t (countFailedStep old)) (-1) := by
  have hown : (cf.pc t).own t = ∅ := by
    rw [hpc]
    rfl
  have hgood := h.good t
  rw [hpc] at hgood
  obtain ⟨hruns, hid⟩ := hgood
  obtain ⟨f, hc⟩ := h.exists_carries hown hruns
  rw [← h.shape] at hid
  exact alone_self h.wf hc (fiber_id_eq h.wf hc.fiber hid)

theorem step_busy (h : Underway cf a) (hpc : cf.pc t = .countFailed call thread old (some new)) :
    Alone a t call (a.assign t (countFailedStep old)) (-1) := by
  have hown : (cf.pc t).own t = ∅ := by
    rw [hpc]
    rfl
  have hgood := h.good t
  rw [hpc] at hgood
  obtain ⟨hruns, hasks, g, hg, hsel⟩ := hgood
  obtain ⟨f, hc⟩ := h.exists_carries hown hruns
  obtain ⟨hid, g', hg', hgid⟩ := h.asked hc.fiber hasks
  have hnew : new ∈ (cf.pc t).holds := by simp [hpc, Pc.holds]
  obtain rfl : g = g' := by
    rw [h.fiber_eq hown hnew, hg] at hg'
    exact Option.some.inj hg'
  exact alone_busy h.wf hc hid hg' hgid hsel

/-- The target found free: the whole exchange takes effect. -/
theorem step_began (h : Underway cf a) (hlocks : Locks cf') (hpc : cf.pc t = .heldNew call thread old new)
    (hsel : (cf.mem.proc.listafiber.deref new).bind Fiber.selectedThread = none) (hmem : cf'.mem = cf.mem)
    (hpc' : cf'.pc =
      Function.update cf.pc t (.exchange thread old new (exchangeSteps thread old new call.now))) :
    Underway cf' (a.assign t (exchange thread old new call.now)) ∧
      Alone a t call (a.assign t (exchange thread old new call.now)) 0 := by
  have hown : (cf.pc t).own t = ∅ := by
    rw [hpc]
    rfl
  have hgood := h.good t
  rw [hpc] at hgood
  obtain ⟨hruns, hasks⟩ := hgood
  obtain ⟨f, hc⟩ := h.exists_carries hown hruns
  obtain ⟨hid, g, hg, hgid⟩ := h.asked hc.fiber hasks
  have hold : old ∈ (cf.pc t).holds := by simp [hpc, Pc.holds]
  have hnew : new ∈ (cf.pc t).holds := by simp [hpc, Pc.holds]
  have hfree : g.selectedThread = none := by
    rw [← h.fiber_eq hown hnew, hg] at hsel
    exact hsel
  have hne : old ≠ new := target_ne hc.fiber hg hid hgid
  exact ⟨h.began hlocks hown hc hold hnew hne hg hfree hmem hpc', alone_done h.wf hc hid hg hgid hfree⟩

/-- **Every step keeps the two memories related**, and shows in the second one as nothing or as one call. -/
theorem step (h : Underway cf a) (ht : cf.Taken t cf') :
    ∃ a', Underway cf' a' ∧ Effect cf t cf' a a' := by
  have hlocks := h.locks.step ht
  have hgood := h.good t
  cases ht with
  | @refused call calls hpc htodo hno =>
    have hown : (cf.pc t).own t = ∅ := by
      rw [hpc]
      rfl
    have halone : Alone a t call a (-1) := alone_refused (h.noNode hown hno)
    refine ⟨a, h.move hlocks rfl (Function.update_eq_self t cf.pc).symm rfl rfl hgood,
      .call halone rfl ?_ ?_⟩
    · simp [Config.ahead, Config.setTodo, Config.returns, hpc, htodo, Pc.undecided]
    · simp [Config.answered, Config.setTodo, Config.returns, hpc, Pc.decided]
  | @started call calls thread old hpc htodo hrun =>
    have hruns := runs_of_runnerOf (threadAddrs_shape h.wf h.shape) hrun
    refine ⟨a, h.move hlocks rfl rfl (by rw [hpc]; rfl) (by rw [hpc]; rfl) hruns, .silent ?_ ?_⟩
    · simp [Config.ahead, Config.setTodo, Config.goto, hpc, htodo, Pc.undecided]
    · simp [Config.answered, Config.setTodo, Config.goto, hpc, Pc.decided]
  | @tookOld call thread old hpc hfree =>
    rw [hpc] at hgood
    exact ⟨a, h.move hlocks rfl rfl (by rw [hpc]; rfl) (by rw [hpc]; rfl) hgood,
      .of_move rfl rfl rfl (by rw [hpc]; rfl) (by rw [hpc]; rfl)⟩
  | @self call thread old f hpc hf hid =>
    rw [hpc] at hgood
    have hmem := mem_shape_fibers hf
    rw [hid] at hmem
    exact ⟨a, h.move hlocks rfl rfl (by rw [hpc]; rfl) (by rw [hpc]; rfl) ⟨hgood, hmem⟩,
      .of_move rfl rfl rfl (by rw [hpc]; rfl) (by rw [hpc]; rfl)⟩
  | @absent call thread old f hpc hf hid hno =>
    exact ⟨a, h.move hlocks rfl rfl (by rw [hpc]; rfl) (by rw [hpc]; rfl) trivial,
      .of_call (h.step_absent hpc hf hid hno) rfl rfl rfl rfl (by rw [hpc]; rfl) (by rw [hpc]; rfl)⟩
  | @found call thread old new f hpc hf hid hnew =>
    rw [hpc] at hgood
    obtain ⟨b, hb, rfl, hbid⟩ := mem_possible hnew
    have hmem : (b.addr, call.id) ∈ cf.mem.proc.shape.fibers := List.mem_map.mpr ⟨b, hb, by rw [hbid]⟩
    exact ⟨a, h.move hlocks rfl rfl (by rw [hpc]; rfl) (by rw [hpc]; rfl)
      ⟨hgood, ⟨f.id, mem_shape_fibers hf, hid⟩, hmem⟩,
      .of_move rfl rfl rfl (by rw [hpc]; rfl) (by rw [hpc]; rfl)⟩
  | @tookNew call thread old new hpc hfree =>
    rw [hpc] at hgood
    exact ⟨a, h.move hlocks rfl rfl (by rw [hpc]; rfl) (by rw [hpc]; rfl) hgood,
      .of_move rfl rfl rfl (by rw [hpc]; rfl) (by rw [hpc]; rfl)⟩
  | @busy call thread old new x hpc hsel =>
    rw [hpc] at hgood
    obtain ⟨g, hg, hx⟩ := Option.bind_eq_some_iff.mp hsel
    have hne : g.selectedThread ≠ none := by
      rw [hx]
      exact Option.some_ne_none x
    exact ⟨a, h.move hlocks rfl rfl (by rw [hpc]; rfl) (by rw [hpc]; rfl) ⟨hgood.1, hgood.2, g, hg, hne⟩,
      .of_move rfl rfl rfl (by rw [hpc]; rfl) (by rw [hpc]; rfl)⟩
  | @began call thread old new hpc hsel =>
    obtain ⟨hunder, halone⟩ := h.step_began hlocks hpc hsel rfl rfl
    exact ⟨_, hunder, .of_call halone rfl rfl rfl rfl (by rw [hpc]; rfl) (by rw [hpc]; rfl)⟩
  | @failedSelf call thread old hpc =>
    rw [hpc] at hgood
    exact ⟨_, h.failed hlocks (by rw [hpc]; rfl) (by rw [hpc]; rfl) hgood.1 (by simp [hpc, Pc.holds]) rfl rfl
      rfl rfl (fun _ _ => trivial),
      .of_call (h.step_self hpc) rfl rfl rfl rfl (by rw [hpc]; rfl) (by rw [hpc]; rfl)⟩
  | @failedBusy call thread old new hpc =>
    rw [hpc] at hgood
    exact ⟨_, h.failed hlocks (by rw [hpc]; rfl) (by rw [hpc]; rfl) hgood.1 (by simp [hpc, Pc.holds]) rfl rfl
      rfl rfl (fun _ _ => trivial),
      .of_call (h.step_busy hpc) rfl rfl rfl rfl (by rw [hpc]; rfl) (by rw [hpc]; rfl)⟩
  | @assigned thread old new f rest hpc =>
    exact ⟨a, h.assigned hlocks hpc rfl rfl, .of_move rfl rfl rfl (by rw [hpc]; rfl) (by rw [hpc]; rfl)⟩
  | @ended thread old new hpc =>
    exact ⟨a, h.ended hlocks hpc rfl rfl, .of_move rfl rfl rfl (by rw [hpc]; rfl) (by rw [hpc]; rfl)⟩
  | @freedNew old new ret hpc =>
    exact ⟨a, h.move hlocks rfl rfl (by rw [hpc]; rfl) (by rw [hpc]; rfl) trivial,
      .of_move rfl rfl rfl (by rw [hpc]; rfl) (by rw [hpc]; rfl)⟩
  | @freedOld old ret hpc =>
    refine ⟨a, h.move hlocks rfl rfl (by rw [hpc]; rfl) (by rw [hpc]; rfl) trivial, .silent ?_ ?_⟩
    · simp [Config.ahead, Config.spinUnlock, Config.goto, Config.returns, hpc, Pc.undecided]
    · simp [Config.answered, Config.spinUnlock, Config.goto, Config.returns, hpc, Pc.decided]

end Underway

end LinuxFibers
