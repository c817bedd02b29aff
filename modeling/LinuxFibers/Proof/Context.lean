import LinuxFibers.Proof.Refine

/-!
# The registers a switch restores

Which registers a thread should find after a switch is read off the events of the run: `lastFiber` is the
fiber a thread runs, `lastLeft` the registers at the last switch away from a fiber, `createdWith` those it
was created with. `History` relates them to the machine, and `switched_context` is the consequence for
the driver.
-/

namespace LinuxFibers

open Runs

/-! ### What the events say -/

/-- The fiber that a thread runs, by the conversions and switches that succeeded. -/
def lastFiber : List Event → Task → Option Int
  | [], _ => none
  | e :: tr, c =>
    match e.op, e.out with
    | .fibConvert d _, some id => if d = c ∧ id ≠ -1 then some id else lastFiber tr c
    | .fibSwitchTo d id _, some 0 => if d = c then some id else lastFiber tr c
    | _, _ => lastFiber tr c

/-- The registers that the thread which last switched away from a fiber had at that moment. -/
def lastLeft : List Event → Int → Int → Option Cpu
  | [], _, _ => none
  | e :: tr, tgid, id =>
    match e.op, e.out with
    | .fibSwitchTo d _ _, some 0 =>
      if d.tgid = tgid ∧ lastFiber tr d = some id then some e.cpu else lastLeft tr tgid id
    | _, _ => lastLeft tr tgid id

/-- The creator's registers, redirected into the function. -/
def createdWith : List Event → Int → Int → Option Cpu
  | [], _, _ => none
  | e :: tr, tgid, id =>
    match e.op, e.out with
    | .fibCreate d func parameters stackPointer stackSize, some new =>
      if d.tgid = tgid ∧ new = id then some (Machine.created e.cpu func parameters stackPointer stackSize)
      else createdWith tr tgid id
    | _, _ => createdWith tr tgid id

/-- A machine agrees with its past. A fiber that nobody left is one that was created and never run. -/
structure History (a : Machine) (tr : List Event) : Prop where
  current : ∀ tgid pid, a.current tgid pid = lastFiber tr ⟨tgid, pid⟩
  unseen : ∀ tgid id, a.fiber tgid id = none → lastLeft tr tgid id = none
  saved : ∀ tgid id f, a.fiber tgid id = some f → f.free = true →
    (lastLeft tr tgid id).or (createdWith tr tgid id) = some f.saved

namespace History

variable {a : Machine} {tr : List Event}

/-- An event that none of the three functions reads. -/
theorem skip {e : Event} {a' : Machine} (h : History a tr)
    (hfiber : ∀ c, lastFiber (e :: tr) c = lastFiber tr c)
    (hleft : ∀ tgid id, lastLeft (e :: tr) tgid id = lastLeft tr tgid id)
    (hcreated : ∀ tgid id, createdWith (e :: tr) tgid id = createdWith tr tgid id)
    (hcurrent : a'.current = a.current)
    (hnone : ∀ tgid id, a'.fiber tgid id = none → a.fiber tgid id = none)
    (hsaved : ∀ tgid id f, a'.fiber tgid id = some f →
      ∃ g, a.fiber tgid id = some g ∧ g.free = f.free ∧ g.saved = f.saved) : History a' (e :: tr) where
  current tgid pid := by rw [hcurrent, hfiber, h.current]
  unseen tgid id hf := by rw [hleft, h.unseen tgid id (hnone tgid id hf)]
  saved tgid id f hf hfree := by
    obtain ⟨g, hg, hgf, hgs⟩ := hsaved tgid id f hf
    rw [hleft, hcreated, h.saved tgid id g hg (hgf.trans hfree), hgs]

theorem convert {c : Task} {now : Timespec} {id : Int} (h : History a tr) (hpos : 0 < id) :
    History ((a.setFiber c.tgid id ⟨a.cpu c, false, .empty⟩).setCurrent c id)
      (⟨.fibConvert c now, a.cpu c, some id⟩ :: tr) where
  current tgid pid := by
    have hid : id ≠ -1 := by omega
    rw [Machine.setCurrent_current, Machine.setFiber_current, h.current, lastFiber]
    simp only [hid, ne_eq, not_false_eq_true, and_true]
  unseen tgid k hf := by
    rw [Machine.setCurrent_fiber, Machine.setFiber_fiber] at hf
    split_ifs at hf
    exact h.unseen tgid k hf
  saved tgid k f hf hfree := by
    rw [Machine.setCurrent_fiber, Machine.setFiber_fiber] at hf
    split_ifs at hf with hk
    · -- the new fiber is not free
      obtain rfl := Option.some.inj hf
      cases hfree
    · exact h.saved tgid k f hf hfree

theorem create {c : Task} {func parameters stackPointer stackSize : BitVec 64} {id : Int} (h : History a tr)
    (hnew : a.fiber c.tgid id = none) :
    History (a.setFiber c.tgid id
        ⟨Machine.created (a.cpu c) func parameters stackPointer stackSize, true, .empty⟩)
      (⟨.fibCreate c func parameters stackPointer stackSize, a.cpu c, some id⟩ :: tr) where
  current tgid pid := h.current tgid pid
  unseen tgid k hf := by
    rw [Machine.setFiber_fiber] at hf
    split_ifs at hf
    exact h.unseen tgid k hf
  saved tgid k f hf hfree := by
    rw [Machine.setFiber_fiber] at hf
    show (lastLeft tr tgid k).or (if c.tgid = tgid ∧ id = k then
      some (Machine.created (a.cpu c) func parameters stackPointer stackSize) else createdWith tr tgid k) = _
    split_ifs at hf ⊢ with hk
    · obtain ⟨rfl, rfl⟩ := hk
      obtain rfl := Option.some.inj hf
      rw [h.unseen _ _ hnew]
      rfl
    · exact h.saved tgid k f hf hfree

theorem switch {c : Task} {old id : Int} {now : Timespec} {f g : SavedFiber} (h : History a tr)
    (hcur : a.current c.tgid c.pid = some old) :
    History ((((a.setFiber c.tgid old { f with saved := a.cpu c, free := true }).setFiber c.tgid id
        { g with free := false }).setCurrent c id).setCpu c g.saved)
      (⟨.fibSwitchTo c id now, a.cpu c, some 0⟩ :: tr) := by
  have hrun : lastFiber tr c = some old := (h.current c.tgid c.pid).symm.trans hcur
  refine ⟨fun tgid pid => ?_, fun tgid k hk => ?_, fun tgid k d hk hfree => ?_⟩
  · rw [Machine.setCpu_current, Machine.setCurrent_current, lastFiber]
    simp only [Machine.setFiber_current, h.current]
  · rw [Machine.setCpu_fiber, Machine.setCurrent_fiber, Machine.setFiber_fiber, Machine.setFiber_fiber] at hk
    split_ifs at hk with h1 h2
    have hno : ¬ (c.tgid = tgid ∧ lastFiber tr c = some k) := by
      rintro ⟨ht, hlast⟩
      exact h2 ⟨ht, Option.some.inj (hrun.symm.trans hlast)⟩
    rw [lastLeft]
    simp only [if_neg hno]
    exact h.unseen tgid k hk
  · rw [Machine.setCpu_fiber, Machine.setCurrent_fiber, Machine.setFiber_fiber, Machine.setFiber_fiber] at hk
    rw [lastLeft]
    split_ifs at hk with h1 h2
    · -- the fiber resumed is not free
      obtain rfl := Option.some.inj hk
      cases hfree
    · -- the fiber left keeps the caller's registers
      obtain ⟨rfl, rfl⟩ := h2
      obtain rfl := Option.some.inj hk
      simp only [hrun, and_self, if_true, Option.some_or]
    · have hno : ¬ (c.tgid = tgid ∧ lastFiber tr c = some k) := by
        rintro ⟨ht, hlast⟩
        exact h2 ⟨ht, Option.some.inj (hrun.symm.trans hlast)⟩
      simp only [if_neg hno]
      exact h.saved tgid k d hk hfree

/-- The operations on the local storage. -/
theorem fls {op : Op} {o : FlsOp} {cpu : Cpu} {out : Option Int} (h : History a tr) (hop : op.flsOp = some o)
    {a' : Machine} (hcurrent : a'.current = a.current)
    (hnone : ∀ tgid id, a'.fiber tgid id = none → a.fiber tgid id = none)
    (hsaved : ∀ tgid id f, a'.fiber tgid id = some f →
      ∃ g, a.fiber tgid id = some g ∧ g.free = f.free ∧ g.saved = f.saved) :
    History a' (⟨op, cpu, out⟩ :: tr) := by
  cases op with
  | flsAlloc | flsFree | flsGetValue | flsSetValue =>
    exact h.skip (fun _ => rfl) (fun _ _ => rfl) (fun _ _ => rfl) hcurrent hnone hsaved
  | _ => cases hop

/-- Every step of the machine keeps it in agreement with its past. -/
theorem step {e : Event} {a' : Machine} (h : History a tr) (hstep : Machine.Step a e a') :
    History a' (e :: tr) := by
  have hself : ∀ tgid id f, a.fiber tgid id = some f →
      ∃ g, a.fiber tgid id = some g ∧ g.free = f.free ∧ g.saved = f.saved :=
    fun _ _ f hf => ⟨f, hf, rfl, rfl⟩
  cases hstep with
  | fibOpen | createRefused | user =>
    exact h.skip (fun _ => rfl) (fun _ _ => rfl) (fun _ _ => rfl) rfl (fun _ _ hf => hf) hself
  | convert hopen hcur hpos hnew => exact h.convert hpos
  | convertRefused =>
    refine h.skip (fun c => ?_) (fun _ _ => rfl) (fun _ _ => rfl) rfl (fun _ _ hf => hf) hself
    simp [lastFiber]
  | create hopen hpos hnew => exact h.create hnew
  | switch hcur hne hf hg hfree => exact h.switch hcur
  | switchRefused =>
    exact h.skip (fun _ => rfl) (fun _ _ => rfl) (fun _ _ => rfl) rfl (fun _ _ hf => hf) hself
  | fls hop hcur hf hfls =>
    refine h.fls hop rfl (fun tgid k hk => ?_) fun tgid k d hk => ?_
    · rw [Machine.setFiber_fiber] at hk
      split_ifs at hk
      exact hk
    · rw [Machine.setFiber_fiber] at hk
      split_ifs at hk with hid
      · obtain ⟨rfl, rfl⟩ := hid
        obtain rfl := Option.some.inj hk
        exact ⟨_, hf, rfl, rfl⟩
      · exact ⟨d, hk, rfl, rfl⟩
  | flsRefused hop hcur => exact h.fls hop rfl (fun _ _ hf => hf) hself

/-- Every run of the machine agrees with its past. -/
theorem run (hrun : Run Machine.Init Machine.Step a tr) : History a tr := by
  refine hrun.invariant (P := History) (fun a hinit => ?_) fun a tr e a' _ h hstep => h.step hstep
  refine ⟨hinit.current, fun _ _ _ => rfl, fun tgid id f hf => ?_⟩
  rw [hinit.fiber] at hf
  cases hf

end History

/-! ### The driver -/

/-- **The registers after a switch.** In every run in which each process opens the device once, a thread for
which `fib_switch_to(id)` returns 0 goes on with the registers and FPU state that the thread which last
switched away from the fiber had then, or with those the fiber was created with when nobody has. A run ends with a fault:
at an FLS index outside the arrays, an `flsAlloc` for a fiber with all `flsSize` slots in use, or a creation in a full
directory. -/
theorem switched_context {nFib : Nat} {s : State} {tr : List Event} {e : Event} {c : Task} {id : Int}
    {now : Timespec} (hrun : Run Init (Step nFib) s (e :: tr)) (honce : OpensOnce (e :: tr))
    (hop : e.op = .fibSwitchTo c id now) (hout : e.out = some 0) :
    (lastLeft tr c.tgid id).or (createdWith tr c.tgid id) = some (s.cpu c) := by
  have hmachine := run_refines hrun honce
  generalize hm : s.machine = a' at hmachine
  have hcpu : s.cpu = a'.cpu := by
    rw [← hm]
    rfl
  rw [hcpu]
  cases hmachine with
  | step hr hstep =>
    have hist := History.run hr
    cases hstep with
    | switch hcur hne hf hg hfree =>
      cases hop
      rw [hist.saved _ _ _ hg hfree]
      simp [Machine.setCpu]
    | fls hop' hcur hf hfls =>
      simp only at hop
      rw [hop] at hop'
      cases hop'
    | flsRefused hop' hcur =>
      simp only at hop
      rw [hop] at hop'
      cases hop'
    | switchRefused => cases hout
    | _ => cases hop

/-- A thread that switches to the fiber it created starts in its function, and one that switches back finds
the registers its first fiber was left with. -/
theorem switched_context_back : ∃ s tr, Run Init (Step nFib) s tr ∧
    (s.cpu ⟨1, 1⟩).regs.ip = 7 ∧ (lastLeft tr.tail 1 1).or (createdWith tr.tail 1 1) = some (s.cpu ⟨1, 1⟩) := by
  obtain ⟨s, tr, hrun, hops, hview⟩ := exists_run nFib
    [.fibOpen ⟨1, 1⟩, .user ⟨1, 1⟩ { regs := { ip := 7 } }, .fibConvert ⟨1, 1⟩ ⟨0, 5⟩,
      .fibCreate ⟨1, 1⟩ 16 0 4096 4096, .fibSwitchTo ⟨1, 1⟩ 2 ⟨0, 9⟩, .fibSwitchTo ⟨1, 1⟩ 1 ⟨0, 12⟩]
    (fun r => ((r.1.cpu ⟨1, 1⟩).regs.ip, r.2.map Event.out)) (v := (7, [some 0, some 0, some 2, some 1, none, some 0]))
    (by decide +kernel)
  have honce : OpensOnce tr := opensOnce_of_ops hops (by decide) (by simp)
  obtain ⟨e, tr, rfl, hop, -⟩ := List.map_eq_cons_iff.mp hops
  obtain ⟨hip, hout⟩ := Prod.mk.inj hview
  have hzero : e.out = some 0 := (List.cons.inj hout).1
  exact ⟨s, e :: tr, hrun, hip, switched_context hrun honce hop hzero⟩

end LinuxFibers
