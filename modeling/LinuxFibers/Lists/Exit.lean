import LinuxFibers.Lists.Refine

/-!
# A thread that exits takes its fiber with it

`Pre_Handler_Exit` leaves the fiber of the thread marked as running, with no runner. On the machine such a fiber is lost:
it is not free, and no thread runs it. No call of the process brings it back (`lost_step`), until the process opens or
releases the device (`exited_never_resumes`).
-/

namespace LinuxFibers.Lists

open Outcomes Runs
open Function (update update_self update_of_ne)

/-- No thread runs the fiber, and none may take it. -/
def Fibers.Lost (q : Fibers) (id : Int) : Prop :=
  (∃ f, q.fiber id = some f ∧ f.free = false) ∧ ∀ pid, q.current pid ≠ some id

/-- The call changes which fibers of the process count. -/
def Call.Reopens (tgid : Int) : Call → Prop
  | .driver (.fibOpen c) | .fibRelease c => c.tgid = tgid
  | _ => False

/-- The call is a switch of a thread of the process to the fiber. -/
def Call.SwitchesTo (tgid id : Int) : Call → Prop
  | .driver (.fibSwitchTo c id' _) => c.tgid = tgid ∧ id' = id
  | _ => False

/-- The fiber that the thread runs, as the walks of the driver find it. -/
def State.currentFiber (s : State) (c : Task) : Option Int :=
  (s.findProcesso c.tgid).bind fun x => (x.2.findRunner c.pid).map fun y => y.2.id

/-! ### The machine -/

section machine

variable {q q' : Fibers} {cpu cpu' : Cpu} {pid id x : Int} {f : Coroutine} {op : Op} {out : Option Int}

theorem Fibers.Lost.setFiber (h : q.Lost id) (hx : x ≠ id) : (q.setFiber x f).Lost id := by
  obtain ⟨⟨g, hg, hfree⟩, hno⟩ := h
  refine ⟨⟨g, ?_, hfree⟩, hno⟩
  exact (update_of_ne (Ne.symm hx) _ _).trans hg

theorem Fibers.Lost.setCurrent {o : Option Int} (h : q.Lost id) (ho : o ≠ some id) : (q.setCurrent pid o).Lost id := by
  refine ⟨h.1, fun t => ?_⟩
  unfold Fibers.setCurrent
  dsimp only
  by_cases ht : t = pid
  · rw [ht, update_self]
    exact ho
  · rw [update_of_ne ht]
    exact h.2 t

theorem Fibers.Lost.add (h : q.Lost id) (hid : id ≤ q.count) : (q.add f).Lost id := by
  refine h.setFiber ?_
  omega

/-- An operation of any thread of the process. -/
theorem Fibers.Lost.step (h : q.Lost id) (hid : id ≤ q.count) (hstep : Fibers.Step pid (cpu, q) op out (cpu', q')) :
    q'.Lost id ∧ ((∃ c now, op = .fibSwitchTo c id now) → out = some (-1)) := by
  obtain ⟨⟨g, hg, hfree⟩, hno⟩ := h
  have h : q.Lost id := ⟨⟨g, hg, hfree⟩, hno⟩
  cases hstep with
  | convert hcur =>
    refine ⟨(h.add hid).setCurrent fun he => ?_, by rintro ⟨_, _, ⟨⟩⟩⟩
    have := Option.some.inj he
    omega
  | convertRefused hcur => exact ⟨h, by rintro ⟨_, _, ⟨⟩⟩⟩
  | create => exact ⟨h.add hid, by rintro ⟨_, _, ⟨⟩⟩⟩
  | @switch _ _ c old id' now f' g' hcur hf hne hg' hfree' =>
    have hold : old ≠ id := fun he => hno pid (he ▸ hcur)
    have hother : id' ≠ id := by
      rintro rfl
      obtain rfl := Option.some.inj (hg.symm.trans hg')
      rw [hfree] at hfree'
      cases hfree'
    refine ⟨((h.setFiber hold).setFiber hother).setCurrent fun he => hother (Option.some.inj he), ?_⟩
    rintro ⟨_, _, he⟩
    exact absurd (Op.fibSwitchTo.inj he).2.1 hother
  | switchRefused hrefused => exact ⟨h, fun _ => rfl⟩
  | @fls _ _ _ o x f' _ F hop hcur hf hmove =>
    have hx : x ≠ id := fun he => hno pid (he ▸ hcur)
    refine ⟨h.setFiber hx, ?_⟩
    rintro ⟨c, now, rfl⟩
    cases hop
  | flsRefused hop hcur =>
    refine ⟨h, ?_⟩
    rintro ⟨c, now, rfl⟩
    cases hop

variable {a a' : Machine} {tgid : Int} {rest : List Fibers} {e : Event}

/-- A call of any thread, of this process or another one. -/
theorem lost_step (hq : a.procs tgid = q :: rest) (h : q.Lost id) (hid : id ≤ q.count) (hopen : ¬ e.call.Reopens tgid)
    (hstep : Machine.Step a e a') : (∃ q' rest', a'.procs tgid = q' :: rest' ∧ q'.Lost id) ∧
      (e.call.SwitchesTo tgid id → e.out = some (-1)) := by
  have hsame : ∃ q' rest', a.procs tgid = q' :: rest' ∧ q'.Lost id := ⟨q, rest, hq, h⟩
  cases hstep with
  | @fibOpen c hfree =>
    refine ⟨⟨q, rest, ?_, h⟩, False.elim⟩
    rw [← hq]
    exact update_of_ne (fun he => hopen he.symm) _ _
  | @fibRelease c _ _ hfree hp =>
    refine ⟨⟨q, rest, ?_, h⟩, False.elim⟩
    rw [← hq]
    exact update_of_ne (fun he => hopen he.symm) _ _
  | @driver c op out p p' rest' cpu hfree hcaller hp hmove =>
    by_cases ht : c.tgid = tgid
    · subst ht
      obtain ⟨rfl, rfl⟩ := List.cons.inj (hp.symm.trans hq)
      obtain ⟨hlost, hout⟩ := h.step hid hmove
      refine ⟨⟨p', rest', update_self _ _ _, hlost⟩, fun hto => hout ?_⟩
      cases op with
      | fibSwitchTo c' id' now => exact ⟨c', now, by rw [hto.2]⟩
      | _ => cases hto
    · refine ⟨⟨q, rest, ?_, h⟩, fun hto => ?_⟩
      · rw [← hq]
        exact update_of_ne (Ne.symm ht) _ _
      · cases op with
        | fibSwitchTo c' id' now =>
          obtain rfl := Option.some.inj hcaller
          exact absurd hto.1 ht
        | _ => cases hto
  | @refused c op hfree hcaller hop hnone =>
    refine ⟨hsame, fun hto => ?_⟩
    cases op with
    | fibSwitchTo c' id' now => rfl
    | _ => cases hto
  | keepsLock hfree hp hcur hpos => exact ⟨hsame, False.elim⟩
  | myread hfree => exact ⟨hsame, False.elim⟩
  | @exit c x p rest' f hp hcur hf =>
    refine ⟨?_, False.elim⟩
    by_cases ht : c.tgid = tgid
    · subst ht
      obtain ⟨rfl, rfl⟩ := List.cons.inj (hp.symm.trans hq)
      have hx : x ≠ id := fun he => h.2 c.pid (he ▸ hcur)
      exact ⟨_, _, update_self _ _ _, (h.setFiber hx).setCurrent (Option.some_ne_none id).symm⟩
    · exact ⟨q, rest, (update_of_ne (Ne.symm ht) _ _).trans hq, h⟩
  | exitOther hno => exact ⟨hsame, False.elim⟩
  | user => exact ⟨hsame, False.elim⟩

end machine

/-! ### The lists -/

section lists

variable {P : Printer} {s s₁ s₂ : State} {tr later : List Event} {c : Task} {out : Option Int} {id tgid : Int}
  {p : FiberProcessi}

/-- The node of a fiber of the machine. -/
theorem node_of_fiber (hp : p.Sound) {f : Coroutine} (h : p.fibers.fiber id = some f) :
    ∃ j n, p.findFiber id = some (j, n) ∧ n ∈ p.listaFiber ∧ n.id = id ∧ n.coroutine = some f := by
  cases hj : p.findFiber id with
  | none =>
    rw [findFiber_none hj] at h
    cases h
  | some x =>
    obtain ⟨j, n⟩ := x
    obtain ⟨hn, hid, hfiber⟩ := findFiber_some hp hj
    exact ⟨j, n, rfl, hn, hid, hfiber.symm.trans h⟩

theorem id_le_count (hp : p.Sound) {f : Coroutine} (h : p.fibers.fiber id = some f) : id ≤ p.fibers.count := by
  obtain ⟨j, n, -, hn, rfl, -⟩ := node_of_fiber hp h
  exact (hp.nodes.id_mem hn).2

/-- No two threads of a process run one fiber. -/
theorem current_injective (hp : p.Sound) {x y : Int} (hx : p.fibers.current x = some id)
    (hy : p.fibers.current y = some id) : x = y := by
  have hnode : ∀ z, p.fibers.current z = some id → ∃ n ∈ p.listaFiber, n.runner = z ∧ n.id = id := by
    intro z hz
    have hzero : z ≠ 0 := by
      rintro rfl
      cases hz
    cases hj : p.findRunner z with
    | none =>
      rw [findRunner_none hj] at hz
      cases hz
    | some w =>
      obtain ⟨j, n⟩ := w
      obtain ⟨hn, hrunner, -, hcur, -⟩ := findRunner_some hp hj hzero
      exact ⟨n, hn, hrunner, Option.some.inj (hcur.symm.trans hz)⟩
  obtain ⟨n, hn, rfl, hnid⟩ := hnode x hx
  obtain ⟨m, hm, rfl, hmid⟩ := hnode y hy
  rw [hp.nodes.eq_of_id hn hm (hnid.trans hmid.symm)]

/-- The newest fibers of the machine are those of the process that the driver finds. -/
theorem find_of_procs {q : Fibers} {rest : List Fibers} (h : s.machine.procs tgid = q :: rest) :
    ∃ i p, s.findProcesso tgid = some (i, p) ∧ p.fibers = q := by
  cases hp : s.findProcesso tgid with
  | none =>
    rw [procs_none hp] at h
    cases h
  | some x =>
    obtain ⟨i, p⟩ := x
    obtain ⟨rest', hrest⟩ := procs_some hp
    exact ⟨i, p, rfl, (List.cons.inj (hrest.symm.trans h)).1⟩

/-- The exit of a thread that runs a fiber. -/
theorem lost_of_exit (hs : s.Sound) (hpid : c.pid ≠ 0) (hid : s.currentFiber c = some id)
    (hstep : Machine.Step s.machine ⟨.preHandlerExit c, out⟩ s₁.machine) :
    ∃ q rest, s₁.machine.procs c.tgid = q :: rest ∧ q.Lost id := by
  obtain ⟨⟨i, p⟩, hp, hid⟩ := Option.bind_eq_some_iff.mp hid
  obtain ⟨⟨j, n⟩, hj, rfl⟩ := Option.map_eq_some_iff.mp hid
  have hsound := sound_of_find hs hp
  obtain ⟨-, -, hrunning, hcur, hfiber⟩ := findRunner_some hsound hj hpid
  obtain ⟨rest, hrest⟩ := procs_some hp
  obtain ⟨a, ha⟩ : ∃ a, s₁.machine = a := ⟨_, rfl⟩
  rw [ha] at hstep ⊢
  cases hstep with
  | @exit _ x q rest' f hq hcur' hf =>
    obtain ⟨rfl, rfl⟩ := List.cons.inj (hq.symm.trans hrest)
    obtain rfl := Option.some.inj (hcur.symm.trans hcur')
    refine ⟨_, _, update_self _ _ _, ⟨⟨_, update_self _ _ _, ?_⟩, fun pid hpid => ?_⟩⟩
    · obtain ⟨g, -, rfl⟩ := Option.map_eq_some_iff.mp (hfiber.symm.trans hf)
      show (!n.running) = false
      rw [hrunning]
      rfl
    · by_cases hself : pid = c.pid
      · rw [hself] at hpid
        cases (update_self _ _ _).symm.trans hpid
      · exact hself (current_injective hsound ((update_of_ne hself _ _).symm.trans hpid) hcur)
  | exitOther hno => cases (hno _ _ hrest).symm.trans hcur

/-- **A fiber whose thread has exited never runs again.** Once a thread that runs a fiber has exited, and until its
process opens or releases the device, whatever calls are made: the fiber is in the list, marked as running, with no
runner, and every switch to it is refused. -/
theorem exited_never_resumes (hrun : Run Init (Performs P) s tr) (hid : s.currentFiber c = some id)
    (hexit : Performs P s ⟨.preHandlerExit c, out⟩ s₁) (hlater : Run (fun x => x = s₁) (Performs P) s₂ later)
    (hopen : ∀ e ∈ later, ¬ e.call.Reopens c.tgid) :
    (∃ i p j n, s₂.findProcesso c.tgid = some (i, p) ∧ p.findFiber id = some (j, n) ∧ n.running = true ∧
      n.runner = 0) ∧ ∀ e ∈ later, e.call.SwitchesTo c.tgid id → e.out = some (-1) := by
  obtain ⟨hs, -⟩ := lists_refine hrun
  obtain ⟨hs₁, hmove⟩ := (perform_refines hs hexit.2).of_ok hexit.1
  have hlost := lost_of_exit hs (hexit.2 c rfl) hid hmove
  -- the fiber stays lost
  have hkept : s₂.Sound ∧ (∃ q rest, s₂.machine.procs c.tgid = q :: rest ∧ q.Lost id) ∧
      ∀ e ∈ later, e.call.SwitchesTo c.tgid id → e.out = some (-1) := by
    induction hlater with
    | start h =>
      subst h
      exact ⟨hs₁, hlost, fun e he => absurd he List.not_mem_nil⟩
    | @step s s' tr e _ hstep ih =>
      obtain ⟨hsound, ⟨q, rest, hq, hlost⟩, hout⟩ := ih fun e he => hopen e (List.mem_cons_of_mem _ he)
      obtain ⟨hsound', hmove⟩ := (perform_refines hsound hstep.2).of_ok hstep.1
      obtain ⟨i, p, hp, rfl⟩ := find_of_procs hq
      obtain ⟨f, hf, -⟩ := hlost.1
      obtain ⟨hlost', hlast⟩ := lost_step hq hlost (id_le_count (sound_of_find hsound hp) hf)
        (hopen e List.mem_cons_self) hmove
      exact ⟨hsound', hlost', List.forall_mem_cons.mpr ⟨hlast, hout⟩⟩
  obtain ⟨hs₂, ⟨q, rest, hq, ⟨f, hf, hfree⟩, hno⟩, hout⟩ := hkept
  obtain ⟨i, p, hp, rfl⟩ := find_of_procs hq
  have hsound := sound_of_find hs₂ hp
  obtain ⟨j, n, hj, hn, rfl, hcoroutine⟩ := node_of_fiber hsound hf
  obtain ⟨g, -, rfl⟩ := Option.map_eq_some_iff.mp hcoroutine
  refine ⟨⟨i, p, j, n, hp, hj, by simpa using hfree, ?_⟩, hout⟩
  by_contra hrunner
  exact hno n.runner (currentOf_mem hsound.nodes hn hrunner)

/-- Thread 1 becomes fiber 1 and exits; thread 2 of the process becomes fiber 2 and asks for fiber 1. -/
theorem exited_never_resumes_asked : ∃ s i p j n, State.findProcesso s 1 = some (i, p) ∧ p.findFiber 1 = some (j, n) ∧
    n.running = true ∧ n.runner = 0 := by
  have hone : ∀ c ∈ some (⟨1, 1⟩ : Task), c.pid ≠ 0 := by
    rintro c ⟨⟩
    decide
  have htwo : ∀ c ∈ some (⟨1, 2⟩ : Task), c.pid ≠ 0 := by
    rintro c ⟨⟩
    decide
  have hstart : Init { listaProcessi := [], lockListaProcessi := false, cpu := fun _ => {} } := ⟨rfl, rfl⟩
  have hopen : Run Init (Performs ⟨fun _ => [], BitVec.ofInt 64⟩) _ [_] :=
    (Run.start hstart).step (⟨rfl, hone⟩ : Performs _ _ ⟨.driver (.fibOpen ⟨1, 1⟩), some 0⟩ _)
  have hconvert := hopen.step (⟨rfl, hone⟩ : Performs _ _ ⟨.driver (.fibConvert ⟨1, 1⟩ ⟨0, 5⟩), some 1⟩ _)
  have hboth := exited_never_resumes hconvert rfl
    (⟨rfl, hone⟩ : Performs _ _ ⟨.preHandlerExit ⟨1, 1⟩, some 0⟩ _)
    (.step (.step (.start rfl) (⟨rfl, htwo⟩ : Performs _ _ ⟨.driver (.fibConvert ⟨1, 2⟩ ⟨0, 7⟩), some 2⟩ _))
      (⟨rfl, htwo⟩ : Performs _ _ ⟨.driver (.fibSwitchTo ⟨1, 2⟩ 1 ⟨0, 9⟩), some (-1)⟩ _)) ?_
  · obtain ⟨⟨i, p, j, n, hnode⟩, -⟩ := hboth
    exact ⟨_, i, p, j, n, hnode⟩
  · intro e he
    simp only [List.mem_cons, List.not_mem_nil, or_false] at he
    obtain rfl | rfl := he
    · exact id
    · exact id

end lists

end LinuxFibers.Lists
