import LinuxFibers.Proof.Reach

/-!
# When a switch succeeds, and what it leaves alone

`fib_switch_to` decides in four nested loops. `fibSwitchTo_exact` says when it returns 0, which nodes it then changes,
and that a call that returns -1 changes nothing but one count.
-/

namespace LinuxFibers

open HeapTable Runs

/-- The caller's thread `t` runs the fiber `f`, and `g` is another fiber, with this id, that no thread runs. -/
structure Target (s : State) (c : Task) (id : Int) (b : Block Process) (t : Block Thread) (f g : Block Fiber) :
    Prop where
  registered : b ∈ s.processi
  tgid : b.val.id = c.tgid
  converted : t ∈ b.val.listathread
  pid : t.val.id = c.pid
  current : f ∈ b.val.listafiber
  runner : t.val.runner = some f.addr
  target : g ∈ b.val.listafiber
  targetId : g.val.id = id
  other : g ≠ f
  free : g.val.selectedThread = none

/-- One entry is replaced and all others are as they were. -/
def Replaces (T T' : Table Process) (b : Block Process) (p : Process) : Prop :=
  ∃ l r, T = l ++ b :: r ∧ T' = l ++ { b with val := p } :: r

/-- Threads and fibers of an entry are told apart by their addresses. -/
structure Process.Distinct (p : Process) : Prop where
  threads : p.listathread.addrs.Nodup
  fibers : p.listafiber.addrs.Nodup

/-- What a switch changes: the two fibers, the caller's thread and the caller's registers. -/
structure Switches (s s' : State) (c : Task) (b : Block Process) (t : Block Thread) (f g : Block Fiber)
    (now : Timespec) (p : Process) : Prop where
  entry : Replaces s.processi s'.processi b p
  distinct : b.val.Distinct
  rest : p.id = b.val.id ∧ p.lastFibId = b.val.lastFibId ∧ p.listafiberStuff = b.val.listafiberStuff
  threads : p.listathread = b.val.listathread.update t.addr fun u => { u with runner := some g.addr }
  fibers : p.listafiber =
    (b.val.listafiber.update f.addr (leaveFiber (s.cpu c) now)).update g.addr (enterFiber t.addr now)
  cpu : s'.cpu = Function.update s.cpu c { regs := g.val.regs.val, fpu := g.val.fpu.val }

/-- What a refusal changes: at most one count of failures, by one. -/
structure Unswitched (s s' : State) : Prop where
  cpu : s'.cpu = s.cpu
  kmem : s'.kmem = s.kmem
  processi : s'.processi = s.processi ∨ ∃ b ∈ s.processi, ∃ f ∈ b.val.listafiber, b.val.Distinct ∧
    Replaces s.processi s'.processi b
      { b.val with listafiber := b.val.listafiber.update f.addr fun h => { h with failedCounter := h.failedCounter + 1 } }

/-- What a call of `fib_switch_to` returns, and what it changes. -/
structure SwitchResult (s : State) (c : Task) (id : Int) (now : Timespec) (s' : State) (ret : Int) : Prop where
  values : ret = 0 ∨ ret = -1
  success : ret = 0 ↔ ∃ b t f g, Target s c id b t f g
  switches : ret = 0 → ∃ b t f g p, Target s c id b t f g ∧ Switches s s' c b t f g now p
  refuses : ret = -1 → Unswitched s s'

section exact

variable {nFib : Nat} {s : State} {c : Task} {id : Int} {b d : Block Process} {t : Block Thread} {f g : Block Fiber}
  {p' : Process} {x x' : SwitchVars} {now : Timespec}

theorem Target.carries (h : Target s c id b t f g) (hwf : b.val.Wf) : b.val.Carries c.pid t.addr f.addr f.val where
  thread := by
    rw [Table.deref_of_mem hwf.threadAddrs h.converted, ← h.pid, ← h.runner]
  fiber := Table.deref_of_mem hwf.fiberAddrs h.current

/-- A thread has one node and runs one fiber. -/
theorem Process.Carries.unique {p : Process} {pid : Int} {thread thread' r r' : Nat} {f f' : Fiber} (hwf : p.Wf)
    (h : p.Carries pid thread r f) (h' : p.Carries pid thread' r' f') : r = r' ∧ f = f' := by
  have ht := Table.mem_of_deref h.thread
  have ht' := Table.mem_of_deref h'.thread
  have hsame := List.inj_on_of_nodup_map hwf.threadIds ht ht' rfl
  obtain rfl : r = r' := Option.some.inj (congrArg (fun u : Block Thread => u.val.runner) hsame)
  exact ⟨rfl, Option.some.inj (h.fiber.symm.trans h'.fiber)⟩

/-- A switch of a well-formed entry either exchanges the two fibers, or there is nothing to switch to and at most one
count changes. -/
theorem SwitchCase.outcome (hwf : b.val.Wf) (hb : b ∈ s.processi) (htgid : b.val.id = c.tgid)
    (hcase : SwitchCase c id now b.val x p' x') (hret : x.ret = -1) :
    (∃ t f g, Target s c id b t f g ∧ p' = exchanged t.addr f.addr g.addr now x.cpu b.val ∧
      x'.cpu = context g.val ∧ x'.ret = 0) ∨
    (∀ t f g, ¬ Target s c id b t f g) ∧ x' = x ∧
      (p' = b.val ∨ ∃ f ∈ b.val.listafiber, p' = countFailed f.addr b.val) := by
  have hsame : ∀ {x₀ : SwitchVars}, x₀ = { x with ret := -1 } → x₀ = x := by
    rintro x₀ rfl
    rw [← hret]
  cases hcase with
  | notConverted hno => exact .inr ⟨fun t f g ht => hno t ht.converted ht.pid, rfl, .inl rfl⟩
  | @self thread old h hc hid =>
    refine .inr ⟨fun t f g ht => ht.other ?_, hsame rfl, .inr ⟨⟨old, h⟩, Table.mem_of_deref hc.fiber, rfl⟩⟩
    obtain ⟨-, hf⟩ := hc.unique hwf (ht.carries hwf)
    refine List.inj_on_of_nodup_map hwf.fiberIds ht.target ht.current ?_
    rw [ht.targetId, ← hf, hid]
  | absent hc hid hno => exact .inr ⟨fun t f g ht => hno g ht.target ht.targetId, rfl, .inl rfl⟩
  | @busy thread old new h k hc hid hg hgid hsel =>
    refine .inr ⟨fun t f g ht => hsel ?_, hsame rfl, .inr ⟨⟨old, h⟩, Table.mem_of_deref hc.fiber, rfl⟩⟩
    have hk : g = ⟨new, k⟩ :=
      List.inj_on_of_nodup_map hwf.fiberIds ht.target (Table.mem_of_deref hg) (ht.targetId.trans hgid.symm)
    have hfree := ht.free
    rwa [hk] at hfree
  | @done thread old new h k hc hid hg hgid hsel =>
    have hne : old ≠ new := target_ne hc.fiber hg hid hgid
    refine .inl ⟨⟨thread, _⟩, ⟨old, h⟩, ⟨new, k⟩, ⟨hb, htgid, Table.mem_of_deref hc.thread, rfl,
      Table.mem_of_deref hc.fiber, rfl, Table.mem_of_deref hg, hgid, ?_, hsel⟩, rfl, rfl, rfl⟩
    intro he
    exact hne (congrArg Block.addr he).symm

/-- The call returns, and runs on the one entry of the process if there is one. -/
theorem exists_switch (hs : Reached nFib s) (hkeys : (s.processi.map fun b => b.val.id).Nodup) (c : Task) (id : Int)
    (now : Timespec) : ∃ T y, fibSwitchTo c id now s =
      .ok ({ processi := T, kmem := y.kmem, cpu := Function.update s.cpu c y.cpu }, y.ret) ∧
      (((∀ b ∈ s.processi, b.val.id ≠ c.tgid) ∧ T = s.processi ∧ y = ⟨s.kmem, s.cpu c, -1⟩) ∨
        ∃ b p, b ∈ s.processi ∧ b.val.id = c.tgid ∧ SwitchCase c id now b.val ⟨s.kmem, s.cpu c, -1⟩ p y ∧
          Replaces s.processi T b p) := by
  have hreturns : ∃ r, forEachProcess c.tgid (switchProcess c id now) s.processi ⟨s.kmem, s.cpu c, -1⟩ = .ok r := by
    refine (forEachProcess_ok_iff (fun _ => True) (fun b hb _ x => ?_) _).mpr fun _ _ _ => trivial
    obtain ⟨p', x', hok, -⟩ := switchProcess_spec (reached_inv hs b hb).toWf c id now x
    exact iff_of_true ⟨_, hok⟩ trivial
  obtain ⟨⟨T, y⟩, hwalk⟩ := hreturns
  refine ⟨T, y, ?_, ?_⟩
  · rw [fibSwitchTo, hwalk]
    rfl
  · rw [forEachProcess_eq] at hwalk
    rcases Table.forEach_unique hkeys hwalk with ⟨hno, rfl, rfl⟩ | ⟨l, b, r, p, hT, hid, hbody, rfl⟩
    · exact .inl ⟨hno, rfl, rfl⟩
    · have hb : b ∈ s.processi := by
        rw [hT]
        exact List.mem_append_right _ List.mem_cons_self
      obtain ⟨p', y', hok, hcase⟩ := switchProcess_spec (reached_inv hs b hb).toWf c id now ⟨s.kmem, s.cpu c, -1⟩
      obtain ⟨rfl, rfl⟩ := Prod.mk.inj (Except.ok.inj (hbody.symm.trans hok))
      exact .inr ⟨b, p, hb, hid, hcase, l, r, hT, rfl⟩

theorem SwitchResult.of_refused {s' : State} (hno : ∀ b t f g, ¬ Target s c id b t f g) (h : Unswitched s s') :
    SwitchResult s c id now s' (-1) where
  values := .inr rfl
  success := by
    refine iff_of_false (by decide) ?_
    rintro ⟨b, t, f, g, ht⟩
    exact hno b t f g ht
  switches hret := by cases hret
  refuses _ := h

/-- **When a switch succeeds.** In a reachable state with one entry for each process the call returns 0 or -1, and 0
exactly when there is a target. Then the two fibers, the caller's thread and its registers change as they should and
nothing else does, and otherwise nothing changes but one count of failures. -/
theorem fibSwitchTo_exact (hs : Reached nFib s) (hkeys : (s.processi.map fun b => b.val.id).Nodup) (c : Task)
    (id : Int) (now : Timespec) :
    ∃ s' ret, fibSwitchTo c id now s = .ok (s', ret) ∧ SwitchResult s c id now s' ret := by
  obtain ⟨T, y, hok, hcase⟩ := exists_switch hs hkeys c id now
  refine ⟨_, _, hok, ?_⟩
  rcases hcase with ⟨hno, rfl, rfl⟩ | ⟨b, p, hb, htgid, hcase, hreplaces⟩
  · exact .of_refused (fun b t f g ht => hno b ht.registered ht.tgid) ⟨Function.update_eq_self _ _, rfl, .inl rfl⟩
  · have hinv := reached_inv hs b hb
    have hdistinct : b.val.Distinct := ⟨hinv.threadAddrs, hinv.fiberAddrs⟩
    rcases hcase.outcome hinv.toWf hb htgid rfl with ⟨t, f, g, ht, rfl, hcpu, hret⟩ | ⟨hno, rfl, hp⟩
    · have hswitches : Switches s { processi := T, kmem := y.kmem, cpu := Function.update s.cpu c y.cpu } c b t f g now
          (exchanged t.addr f.addr g.addr now (s.cpu c) b.val) :=
        ⟨hreplaces, hdistinct, ⟨rfl, rfl, rfl⟩, rfl, rfl, by rw [hcpu]; rfl⟩
      rw [hret]
      exact ⟨.inl rfl, iff_of_true rfl ⟨b, t, f, g, ht⟩, fun _ => ⟨b, t, f, g, _, ht, hswitches⟩, fun h => by cases h⟩
    · refine .of_refused (fun d t f g ht => ?_) ⟨Function.update_eq_self _ _, rfl, ?_⟩
      · have hd : d = b := List.inj_on_of_nodup_map hkeys ht.registered hb (ht.tgid.trans htgid.symm)
        subst hd
        exact hno t f g ht
      · rcases hp with rfl | ⟨f, hf, rfl⟩
        · obtain ⟨l, r, hT, hT'⟩ := hreplaces
          exact .inl (hT'.trans hT.symm)
        · exact .inr ⟨b, hb, f, hf, hdistinct, hreplaces⟩

end exact

/-- The converted thread of process 1 switches to the fiber it created. -/
theorem fibSwitchTo_exact_created : ∃ s s', Reached 2 s ∧ fibSwitchTo ⟨1, 1⟩ 2 ⟨0, 9⟩ s = .ok (s', 0) ∧
    SwitchResult s ⟨1, 1⟩ 2 ⟨0, 9⟩ s' 0 := by
  obtain ⟨s, hs, hview⟩ := exists_reached 2
    [.fibOpen ⟨1, 1⟩, .fibConvert ⟨1, 1⟩ ⟨0, 5⟩, .fibCreate ⟨1, 1⟩ 16 0 4096 4096]
    (fun s => (s.processi.map fun b => b.val.id, (fibSwitchTo ⟨1, 1⟩ 2 ⟨0, 9⟩ s).toOption.map Prod.snd))
    (v := ([1], some 0)) (by decide)
  obtain ⟨hids, hret⟩ := Prod.mk.inj hview
  have hkeys : (s.processi.map fun b => b.val.id).Nodup := by
    rw [hids]
    exact List.nodup_singleton 1
  obtain ⟨s', ret, hok, hresult⟩ := fibSwitchTo_exact hs hkeys ⟨1, 1⟩ 2 ⟨0, 9⟩
  rw [hok] at hret
  obtain rfl := Option.some.inj hret
  exact ⟨s, s', hs, hok, hresult⟩

end LinuxFibers
