import LinuxFibers.Proof.Refine

/-!
# The local storage of every fiber

`Storages` is the part of the machine that a user of the FLS operations knows: the fiber each thread runs
and, for every fiber, the indices handed out and their values. Nothing but an FLS operation by the thread
that runs a fiber touches its pair (`Storages.Step.isolated`). `storages_refine` says that the driver's runs
are runs of this system and that the operations return wherever their use is allowed.
-/

namespace LinuxFibers

open HeapTable Runs

/-- The fiber each thread runs, and the storage of each fiber, by process and id. -/
structure Storages where
  current : Int → Int → Option Int
  pair : Int → Int → Fls

/-- The fiber that the caller of an operation has moved to. -/
def Event.moved (e : Event) : Option Int :=
  match e.op, e.out with
  | .fibConvert _ _, some id => if id = -1 then none else some id
  | .fibSwitchTo _ id _, some 0 => some id
  | _, _ => none

namespace Storages

def Init (a : Storages) : Prop := (∀ tgid pid, a.current tgid pid = none) ∧ ∀ tgid id, a.pair tgid id = .empty

def move (a : Storages) (c : Task) (id : Int) : Storages :=
  { a with
    current := Function.update a.current c.tgid (Function.update (a.current c.tgid) c.pid (some id)) }

def store (a : Storages) (tgid id : Int) (F : Fls) : Storages :=
  { a with pair := Function.update a.pair tgid (Function.update (a.pair tgid) id F) }

inductive Step : Storages → Event → Storages → Prop
  | other {a : Storages} {e : Event} (hop : e.op.flsOp = none) (hmoved : e.moved = none) : Step a e a
  | moved {a : Storages} {e : Event} {id : Int} (hop : e.op.flsOp = none) (hmoved : e.moved = some id) :
      Step a e (a.move e.op.caller id)
  | fls {a : Storages} {e : Event} {o : FlsOp} {id : Int} {F : Fls} (hop : e.op.flsOp = some o)
      (hcur : a.current e.op.caller.tgid e.op.caller.pid = some id)
      (hstep : Fls.Step o (a.pair e.op.caller.tgid id) e.out F) :
      Step a e (a.store e.op.caller.tgid id F)
  | flsRefused {a : Storages} {e : Event} {o : FlsOp} (hop : e.op.flsOp = some o)
      (hcur : a.current e.op.caller.tgid e.op.caller.pid = none) (hout : e.out = o.refusal) : Step a e a

/-- No operation alters the storage of a fiber but an FLS operation of the thread that runs it. -/
theorem Step.isolated {a a' : Storages} {e : Event} (h : Step a e a') {tgid id : Int}
    (hother : e.op.flsOp = none ∨ e.op.caller.tgid ≠ tgid ∨
      a.current e.op.caller.tgid e.op.caller.pid ≠ some id) : a'.pair tgid id = a.pair tgid id := by
  cases h with
  | other | moved | flsRefused => rfl
  | @fls o k F hop hcur hstep =>
    have hne : ¬ (e.op.caller.tgid = tgid ∧ k = id) := by
      rintro ⟨ht, hk⟩
      rcases hother with hnone | ht' | hc
      · rw [hop] at hnone
        cases hnone
      · exact ht' ht
      · exact hc (hk ▸ hcur)
    by_cases ht : tgid = e.op.caller.tgid
    · subst ht
      have hk : id ≠ k := fun he => hne ⟨rfl, he.symm⟩
      simp [store, hk]
    · simp [store, ht]

end Storages

/-! ### The machine and the driver -/

def Machine.storages (a : Machine) : Storages where
  current := a.current
  pair tgid id := (a.fiber tgid id).elim .empty SavedFiber.fls

section machine

variable {a a' : Machine} {tgid id : Int} {f : SavedFiber}

theorem storages_pair (h : a.fiber tgid id = some f) : a.storages.pair tgid id = f.fls := by
  simp only [Machine.storages, h, Option.elim]

theorem storages_pair_none (h : a.fiber tgid id = none) : a.storages.pair tgid id = .empty := by
  simp only [Machine.storages, h, Option.elim]

theorem storages_setFiber : (a.setFiber tgid id f).storages = a.storages.store tgid id f.fls := by
  have hpair : (a.setFiber tgid id f).storages.pair = (a.storages.store tgid id f.fls).pair := by
    funext t k
    by_cases ht : t = tgid
    · subst ht
      by_cases hk : k = id
      · simp [Machine.storages, Storages.store, Machine.setFiber, hk]
      · simp [Machine.storages, Storages.store, Machine.setFiber, hk]
    · simp [Machine.storages, Storages.store, Machine.setFiber, ht]
  exact congrArg (Storages.mk a.current) hpair

/-- A fiber that is set with the storage it has. -/
theorem storages_setFiber_same (h : a.storages.pair tgid id = f.fls) :
    (a.setFiber tgid id f).storages = a.storages := by
  rw [storages_setFiber, Storages.store, ← h, Function.update_eq_self, Function.update_eq_self]

theorem storages_setCurrent {c : Task} : (a.setCurrent c id).storages = a.storages.move c id := rfl

theorem storages_setCpu {c : Task} {cpu : Cpu} : (a.setCpu c cpu).storages = a.storages := rfl

/-- Forgetting the registers, a step of the machine is a step of the storages. -/
theorem Machine.Step.storages {e : Event} (h : Machine.Step a e a') :
    Storages.Step a.storages e a'.storages := by
  cases h with
  | fibOpen | createRefused | switchRefused | user => exact .other rfl rfl
  | convertRefused => exact .other rfl (by simp [Event.moved])
  | @convert c now id hopen hcur hpos hnew =>
    rw [storages_setCurrent, storages_setFiber_same (storages_pair_none hnew)]
    have hid : id ≠ -1 := by omega
    exact .moved rfl (by simp [Event.moved, hid])
  | create hopen hpos hnew =>
    rw [storages_setFiber_same (storages_pair_none hnew)]
    exact .other rfl rfl
  | @switch c old id now f g hcur hne hf hg hfree =>
    -- the two fibers of the switch are set with the storage they have
    have hold : (a.setFiber c.tgid old { f with saved := a.cpu c, free := true }).storages = a.storages := by
      refine storages_setFiber_same ?_
      show _ = f.fls
      exact storages_pair hf
    rw [storages_setCpu, storages_setCurrent, storages_setFiber_same, hold]
    · exact .moved rfl rfl
    · show _ = g.fls
      rw [hold]
      exact storages_pair hg
  | fls hop hcur hf hfls =>
    rw [storages_setFiber]
    refine .fls hop hcur ?_
    rw [storages_pair hf]
    exact hfls
  | flsRefused hop hcur => exact .flsRefused hop hcur rfl

end machine

/-- The storages a state of the driver shows. -/
def State.storages (s : State) : Storages := s.machine.storages

/-- An FLS operation whose index lies inside the arrays, or an allocation for a fiber with a free slot. -/
def FlsAllowed (a : Storages) : Op → Prop
  | .flsAlloc c => ∀ id, a.current c.tgid c.pid = some id → ∃ i, i ∉ (a.pair c.tgid id).live
  | .flsFree _ i | .flsGetValue _ i | .flsSetValue _ i _ => InRange i
  | _ => False

section driver

variable {nFib : Nat} {s : State} {tr : List Event}

/-- With one entry for each process, the fiber that an operation reaches is the caller's in the storages. -/
theorem storages_of_currentFibers (h : Reached nFib s) (hkeys : (s.processi.map fun b => b.val.id).Nodup)
    {c : Task} {f : Fiber} (hf : f ∈ currentFibers c s) :
    s.storages.current c.tgid c.pid = some f.id ∧ s.storages.pair c.tgid f.id = f.storage := by
  obtain ⟨b, hb, hrun⟩ := List.mem_filterMap.mp hf
  obtain ⟨hb, hid⟩ := List.mem_filter.mp hb
  have hwf := (reached_inv h b hb).toWf
  have hlookup : s.processi.lookup Process.id c.tgid = some b.val := by
    rw [← of_decide_eq_true hid]
    exact Table.lookup_of_mem hkeys hb
  have hcurrent : b.val.current c.pid = some f.id := by
    rw [Process.current, hrun]
    rfl
  have hfiber : b.val.fiber f.id = some f.view := by
    rcases hwf.carries_or c.pid with hno | ⟨thread, r, g, hc⟩
    · rw [Process.runningFiber_none hno] at hrun
      cases hrun
    · rw [hc.runningFiber hwf, Option.some.injEq] at hrun
      rw [← hrun]
      exact Process.fiber_of_deref hwf hc.fiber
  refine ⟨?_, ?_⟩
  · show s.machine.current c.tgid c.pid = _
    rw [machine_current hlookup, hcurrent]
  · refine storages_pair (f := f.view) ?_
    rw [machine_fiber hlookup, hfiber]

theorem fls_returns (h : Reached nFib s) (hkeys : (s.processi.map fun b => b.val.id).Nodup) {op : Op}
    (hop : FlsAllowed s.storages op) : ∃ s' out, step nFib op s = .ok (s', out) := by
  have hwf : ∀ b ∈ s.processi, b.val.Wf := fun b hb => (reached_inv h b hb).toWf
  cases op with
  | flsAlloc c =>
    have hguarded : AllocGuarded nFib s c := by
      refine (flsAlloc_guarded hwf).mpr fun f hf hfull => ?_
      obtain ⟨hcur, hpair⟩ := storages_of_currentFibers h hkeys hf
      obtain ⟨i, hi⟩ := hop f.id hcur
      rw [hpair] at hi
      exact hi (mem_storage.mpr (hfull i))
    obtain ⟨s', out, hok, -⟩ := hguarded
    exact ⟨s', out, hok⟩
  | flsFree c i =>
    have hguarded : IndexGuarded nFib s (.flsFree c i) i (some 0) := (flsFree_guarded hwf i).mpr (.inl hop)
    obtain ⟨s', out, hok, -⟩ := hguarded
    exact ⟨s', out, hok⟩
  | flsGetValue c i =>
    have hguarded : IndexGuarded nFib s (.flsGetValue c i) i (some (-1)) :=
      (flsGetValue_guarded hwf i).mpr (.inl hop)
    obtain ⟨s', out, hok, -⟩ := hguarded
    exact ⟨s', out, hok⟩
  | flsSetValue c i val =>
    have hguarded : IndexGuarded nFib s (.flsSetValue c i val) i none :=
      (flsSetValue_guarded hwf i val).mpr (.inl hop)
    obtain ⟨s', out, hok, -⟩ := hguarded
    exact ⟨s', out, hok⟩
  | _ => exact hop.elim

/-- **The local storage of every fiber.** In every run in which each process opens the device once, the
events are a run of `Storages` that ends in the storages the tables show, and each allowed FLS operation
returns. -/
theorem storages_refine (hrun : Run Init (Step nFib) s tr) (honce : OpensOnce tr) :
    Run Storages.Init Storages.Step s.storages tr ∧
      ∀ op, FlsAllowed s.storages op → ∃ s' out, step nFib op s = .ok (s', out) := by
  have hkeys : (s.processi.map fun b => b.val.id).Nodup := by
    rw [ids_eq_openers hrun honce]
    exact honce.openers
  refine ⟨?_, fun op hop => fls_returns ⟨tr, hrun⟩ hkeys hop⟩
  refine Run.simulate Machine.storages (P := fun _ => True) (fun _ _ _ => trivial) ?_ ?_
    (run_refines hrun honce) trivial
  · intro a hinit
    exact ⟨hinit.current, fun tgid id => storages_pair_none (hinit.fiber tgid id)⟩
  · intro a tr e a' _ _ hstep
    exact hstep.storages

end driver

/-- A slot allocated and set in a fiber that the thread leaves and takes up again. -/
theorem storages_refine_back : ∃ s tr, tr.map Event.out =
      [some 9, some 0, some (-1), some 0, some 2, none, some 0, some 1, some 0] ∧
    (Run Storages.Init Storages.Step s.storages tr ∧
      ∀ op, FlsAllowed s.storages op → ∃ s' out, step nFib op s = .ok (s', out)) := by
  obtain ⟨s, tr, hrun, hops, hview⟩ := exists_run nFib
    [.fibOpen ⟨1, 1⟩, .fibConvert ⟨1, 1⟩ ⟨0, 5⟩, .flsAlloc ⟨1, 1⟩, .flsSetValue ⟨1, 1⟩ 0 9,
      .fibCreate ⟨1, 1⟩ 16 0 4096 4096, .fibSwitchTo ⟨1, 1⟩ 2 ⟨0, 9⟩, .flsGetValue ⟨1, 1⟩ 0,
      .fibSwitchTo ⟨1, 1⟩ 1 ⟨0, 12⟩, .flsGetValue ⟨1, 1⟩ 0]
    (fun r => r.2.map Event.out)
    (v := [some 9, some 0, some (-1), some 0, some 2, none, some 0, some 1, some 0]) (by decide +kernel)
  have honce : OpensOnce tr := opensOnce_of_ops hops (by decide) (by simp)
  exact ⟨s, tr, hview, storages_refine hrun honce⟩

end LinuxFibers
