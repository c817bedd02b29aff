import LinuxFibers.Proof.Accounts
import LinuxFibers.Proof.Context

/-!
# What the figures of a fiber say of the run

The activations, refusals and completed activations of a fiber are read off the events of a run, and `Kept`
relates them to the figures. `counters_exact` is the consequence for the counters: they are right in every
run in which no thread asks for the fiber that another thread runs. A refusal of that kind is counted at
the fiber of the thread that asked.
-/

namespace LinuxFibers

open HeapTable Runs

/-! ### What the events say -/

/-- The thread, the fiber and the clock of an activation. -/
def Event.entered (e : Event) : Option (Task × Int × Timespec) :=
  match e.op, e.out with
  | .fibConvert c now, some id => if id ≠ -1 then some (c, id, now) else none
  | .fibSwitchTo c id now, some 0 => some (c, id, now)
  | _, _ => none

/-- The clock at the activation of a fiber that is running. -/
def runningSince : List Event → Int → Int → Option Timespec
  | [], _, _ => none
  | e :: tr, tgid, id =>
    match e.entered with
    | some (c, new, now) =>
      if c.tgid = tgid ∧ new = id then some now
      else if c.tgid = tgid ∧ lastFiber tr c = some id then none
      else runningSince tr tgid id
    | none => runningSince tr tgid id

/-- A switch that was refused because its target was running: the process, the caller's fiber and the target. -/
def Event.refused (e : Event) (tr : List Event) : Option (Int × Int × Int) :=
  match e.op with
  | .fibSwitchTo c target _ =>
    if e.out = some (-1) ∧ (runningSince tr c.tgid target).isSome then
      (lastFiber tr c).map fun own => (c.tgid, own, target)
    else none
  | _ => none

/-- How often a fiber became some thread's current fiber. -/
def activations : List Event → Int → Int → Nat
  | [], _, _ => 0
  | e :: tr, tgid, id =>
    match e.entered with
    | some (c, new, _) => activations tr tgid id + if c.tgid = tgid ∧ new = id then 1 else 0
    | none => activations tr tgid id

/-- How often a converted thread named the fiber and was refused because it was running. -/
def refusals : List Event → Int → Int → Nat
  | [], _, _ => 0
  | e :: tr, tgid, id =>
    match e.refused tr with
    | some (t, _, target) => refusals tr tgid id + if t = tgid ∧ target = id then 1 else 0
    | none => refusals tr tgid id

/-- How often the thread that ran the fiber was refused because its target was running. -/
def charges : List Event → Int → Int → Nat
  | [], _, _ => 0
  | e :: tr, tgid, id =>
    match e.refused tr with
    | some (t, own, _) => charges tr tgid id + if t = tgid ∧ own = id then 1 else 0
    | none => charges tr tgid id

/-- The clock at the start and at the end of the completed activations, newest first. -/
def completed : List Event → Int → Int → List (Timespec × Timespec)
  | [], _, _ => []
  | e :: tr, tgid, id =>
    match e.entered with
    | some (c, _, now) =>
      if c.tgid = tgid ∧ lastFiber tr c = some id then
        ((runningSince tr tgid id).map fun start => (start, now)).toList ++ completed tr tgid id
      else completed tr tgid id
    | none => completed tr tgid id

/-- The sum of the differences of `tv_nsec`. -/
def nsecSum (l : List (Timespec × Timespec)) : Int := (l.map fun a => a.2.tvNsec - a.1.tvNsec).sum

/-- The figures of a fiber are those of its history. -/
structure Figures.Tells (F : Figures) (tr : List Event) (tgid id : Int) : Prop where
  correct : F.correct = BitVec.ofNat 64 (activations tr tgid id)
  failed : F.failed = BitVec.ofNat 32 (charges tr tgid id)
  running : F.running = (runningSince tr tgid id).isSome
  last : ∀ start, runningSince tr tgid id = some start → F.last = stampOf start
  exec : F.exec = BitVec.ofInt 64 (nsecSum (completed tr tgid id))

/-- A fiber that does not exist has no history. -/
structure Unseen (tr : List Event) (tgid id : Int) : Prop where
  activations : activations tr tgid id = 0
  charges : charges tr tgid id = 0
  runningSince : runningSince tr tgid id = none
  completed : completed tr tgid id = []

/-- Accounts agree with their past. -/
structure Kept (a : Accounts) (tr : List Event) : Prop where
  current : ∀ tgid pid, a.current tgid pid = lastFiber tr ⟨tgid, pid⟩
  unseen : ∀ tgid id, a.fiber tgid id = none → Unseen tr tgid id
  figures : ∀ tgid id F, a.fiber tgid id = some F → F.Tells tr tgid id

section cons

variable {e : Event} {tr : List Event} {tgid id : Int}

theorem lastFiber_entered {c d : Task} {new : Int} {now : Timespec} (h : e.entered = some (d, new, now)) :
    lastFiber (e :: tr) c = if d = c then some new else lastFiber tr c := by
  obtain ⟨op, cpu, out⟩ := e
  rw [lastFiber]
  unfold Event.entered at h
  split at h
  · split_ifs at h with hid
    cases h
    simp_all
  · cases h
    simp_all
  · cases h

theorem lastFiber_idle {c : Task} (h : e.entered = none) : lastFiber (e :: tr) c = lastFiber tr c := by
  obtain ⟨op, cpu, out⟩ := e
  rw [lastFiber]
  unfold Event.entered at h
  split at h
  · split_ifs at h with hid
    simp_all
  · cases h
  · simp_all

theorem runningSince_cons : runningSince (e :: tr) tgid id = match e.entered with
    | some (c, new, now) =>
      if c.tgid = tgid ∧ new = id then some now
      else if c.tgid = tgid ∧ lastFiber tr c = some id then none
      else runningSince tr tgid id
    | none => runningSince tr tgid id := rfl

theorem activations_cons : activations (e :: tr) tgid id = match e.entered with
    | some (c, new, _) => activations tr tgid id + if c.tgid = tgid ∧ new = id then 1 else 0
    | none => activations tr tgid id := rfl

theorem charges_cons : charges (e :: tr) tgid id = match e.refused tr with
    | some (t, own, _) => charges tr tgid id + if t = tgid ∧ own = id then 1 else 0
    | none => charges tr tgid id := rfl

theorem completed_cons : completed (e :: tr) tgid id = match e.entered with
    | some (c, _, now) =>
      if c.tgid = tgid ∧ lastFiber tr c = some id then
        ((runningSince tr tgid id).map fun start => (start, now)).toList ++ completed tr tgid id
      else completed tr tgid id
    | none => completed tr tgid id := rfl

end cons

/-! ### One event and the history of one fiber -/

theorem ofInt_sub (x y : Int) : BitVec.ofInt 64 (x - y) = BitVec.ofInt 64 x - BitVec.ofInt 64 y := by
  rw [eq_sub_iff_add_eq, ← BitVec.ofInt_add, Int.sub_add_cancel]

section tells

variable {e : Event} {tr : List Event} {tgid id : Int} {F : Figures} {c : Task} {new : Int} {now : Timespec}

theorem Unseen.tells (h : Unseen tr tgid id) : Figures.created.Tells tr tgid id where
  correct := by
    rw [h.activations]
    rfl
  failed := by
    rw [h.charges]
    rfl
  running := by rw [h.runningSince, Figures.created, Option.isSome_none]
  last start hstart := by
    rw [h.runningSince] at hstart
    cases hstart
  exec := by
    rw [h.completed, Figures.created]
    rfl

theorem Unseen.idle (h : Unseen tr tgid id) (henter : e.entered = none) (hrefuse : e.refused tr = none) :
    Unseen (e :: tr) tgid id where
  activations := by simp only [activations_cons, henter, h.activations]
  charges := by simp only [charges_cons, hrefuse, h.charges]
  runningSince := by simp only [runningSince_cons, henter, h.runningSince]
  completed := by simp only [completed_cons, henter, h.completed]

theorem Unseen.other (h : Unseen tr tgid id) (henter : e.entered = some (c, new, now)) (hrefuse : e.refused tr = none)
    (hnew : ¬ (c.tgid = tgid ∧ new = id)) (hold : ¬ (c.tgid = tgid ∧ lastFiber tr c = some id)) :
    Unseen (e :: tr) tgid id where
  activations := by simp only [activations_cons, henter, if_neg hnew, h.activations]
  charges := by simp only [charges_cons, hrefuse, h.charges]
  runningSince := by simp only [runningSince_cons, henter, if_neg hnew, if_neg hold, h.runningSince]
  completed := by simp only [completed_cons, henter, if_neg hold, h.completed]

theorem Unseen.refuseOther {t own target : Int} (h : Unseen tr tgid id) (henter : e.entered = none)
    (hrefuse : e.refused tr = some (t, own, target)) (hne : ¬ (t = tgid ∧ own = id)) : Unseen (e :: tr) tgid id where
  activations := by simp only [activations_cons, henter, h.activations]
  charges := by simp only [charges_cons, hrefuse, if_neg hne, h.charges]
  runningSince := by simp only [runningSince_cons, henter, h.runningSince]
  completed := by simp only [completed_cons, henter, h.completed]

namespace Figures.Tells

/-- An event that activates nothing and is not refused at a running fiber. -/
theorem idle (h : F.Tells tr tgid id) (henter : e.entered = none) (hrefuse : e.refused tr = none) :
    F.Tells (e :: tr) tgid id where
  correct := by simp only [activations_cons, henter, h.correct]
  failed := by simp only [charges_cons, hrefuse, h.failed]
  running := by simp only [runningSince_cons, henter, h.running]
  last start hstart := h.last start (by simpa only [runningSince_cons, henter] using hstart)
  exec := by simp only [completed_cons, henter, h.exec]

/-- An activation of another fiber, by a thread that ran another fiber or none. -/
theorem other (h : F.Tells tr tgid id) (henter : e.entered = some (c, new, now)) (hrefuse : e.refused tr = none)
    (hnew : ¬ (c.tgid = tgid ∧ new = id)) (hold : ¬ (c.tgid = tgid ∧ lastFiber tr c = some id)) :
    F.Tells (e :: tr) tgid id where
  correct := by simp only [activations_cons, henter, if_neg hnew, h.correct, Nat.add_zero]
  failed := by simp only [charges_cons, hrefuse, h.failed]
  running := by simp only [runningSince_cons, henter, if_neg hnew, if_neg hold, h.running]
  last start hstart := h.last start (by simpa only [runningSince_cons, henter, if_neg hnew, if_neg hold] using hstart)
  exec := by simp only [completed_cons, henter, if_neg hold, h.exec]

/-- The fiber is activated. -/
theorem enter (h : F.Tells tr c.tgid id) (henter : e.entered = some (c, id, now)) (hrefuse : e.refused tr = none)
    (hold : lastFiber tr c ≠ some id) : (F.enter now).Tells (e :: tr) c.tgid id where
  correct := by
    simp only [activations_cons, henter, Figures.enter, h.correct, and_self, if_true, BitVec.ofNat_add]
    rfl
  failed := by simp only [charges_cons, hrefuse, Figures.enter, h.failed]
  running := by simp only [runningSince_cons, henter, Figures.enter, and_self, if_true, Option.isSome_some]
  last start hstart := by
    simp only [runningSince_cons, henter, and_self, if_true, Option.some.injEq] at hstart
    rw [← hstart, Figures.enter]
  exec := by simp only [completed_cons, henter, Figures.enter, hold, and_false, if_false, h.exec]

/-- The thread that runs the fiber activates another. -/
theorem leave (h : F.Tells tr c.tgid id) (henter : e.entered = some (c, new, now)) (hrefuse : e.refused tr = none)
    (hold : lastFiber tr c = some id) (hne : new ≠ id) (hrun : F.running = true) :
    (F.leave now).Tells (e :: tr) c.tgid id := by
  obtain ⟨start, hstart⟩ := Option.isSome_iff_exists.mp (h.running.symm.trans hrun)
  refine ⟨?_, ?_, ?_, fun start' hstart' => ?_, ?_⟩
  · simp only [activations_cons, henter, hne, and_false, if_false, Figures.leave, h.correct, Nat.add_zero]
  · simp only [charges_cons, hrefuse, Figures.leave, h.failed]
  · simp only [runningSince_cons, henter, hne, and_false, if_false, hold, and_self, if_true, Figures.leave,
      Option.isSome_none]
  · simp only [runningSince_cons, henter, hne, and_false, if_false, hold, and_self, if_true] at hstart'
    cases hstart'
  · simp only [completed_cons, henter, hold, and_self, if_true, hstart, Option.map_some, Option.toList_some,
      List.singleton_append, nsecSum, List.map_cons, List.sum_cons, Figures.leave, h.exec, h.last start hstart,
      stampOf, BitVec.ofInt_add, ofInt_sub]
    rw [BitVec.add_comm]

/-- A refusal counts at the fiber of the thread that asked. -/
theorem refuse {target : Int} (h : F.Tells tr tgid id) (henter : e.entered = none)
    (hrefuse : e.refused tr = some (tgid, id, target)) : F.refuse.Tells (e :: tr) tgid id where
  correct := by simp only [activations_cons, henter, Figures.refuse, h.correct]
  failed := by
    simp only [charges_cons, hrefuse, Figures.refuse, h.failed, and_self, if_true, BitVec.ofNat_add]
    rfl
  running := by simp only [runningSince_cons, henter, Figures.refuse, h.running]
  last start hstart := h.last start (by simpa only [runningSince_cons, henter] using hstart)
  exec := by simp only [completed_cons, henter, Figures.refuse, h.exec]

theorem refuseOther {t own target : Int} (h : F.Tells tr tgid id) (henter : e.entered = none)
    (hrefuse : e.refused tr = some (t, own, target)) (hne : ¬ (t = tgid ∧ own = id)) : F.Tells (e :: tr) tgid id where
  correct := by simp only [activations_cons, henter, h.correct]
  failed := by simp only [charges_cons, hrefuse, if_neg hne, h.failed, Nat.add_zero]
  running := by simp only [runningSince_cons, henter, h.running]
  last start hstart := h.last start (by simpa only [runningSince_cons, henter] using hstart)
  exec := by simp only [completed_cons, henter, h.exec]

end Figures.Tells

end tells

/-! ### Every run -/

namespace Kept

variable {a : Accounts} {tr : List Event}

theorem idle {e : Event} (h : Kept a tr) (henter : e.entered = none) (hrefuse : e.refused tr = none) :
    Kept a (e :: tr) where
  current tgid pid := by rw [h.current, lastFiber_idle henter]
  unseen tgid id hf := (h.unseen tgid id hf).idle henter hrefuse
  figures tgid id F hF := (h.figures tgid id F hF).idle henter hrefuse

theorem create {e : Event} {tgid id : Int} (h : Kept a tr) (hnew : a.fiber tgid id = none)
    (henter : e.entered = none) (hrefuse : e.refused tr = none) : Kept (a.setFiber tgid id .created) (e :: tr) where
  current t pid := (h.idle henter hrefuse).current t pid
  unseen t k hf := by
    rw [Accounts.setFiber_fiber] at hf
    split_ifs at hf
    exact (h.unseen t k hf).idle henter hrefuse
  figures t k F hF := by
    rw [Accounts.setFiber_fiber] at hF
    split_ifs at hF with hk
    · obtain ⟨rfl, rfl⟩ := hk
      cases hF
      exact (h.unseen _ _ hnew).tells.idle henter hrefuse
    · exact (h.figures t k F hF).idle henter hrefuse

theorem current_enter {e : Event} {c : Task} {id : Int} {now : Timespec} {a' : Accounts} (h : Kept a tr)
    (henter : e.entered = some (c, id, now)) (ha : a'.current = a.current) (tgid pid : Int) :
    (a'.setCurrent c id).current tgid pid = lastFiber (e :: tr) ⟨tgid, pid⟩ := by
  rw [lastFiber_entered henter, Accounts.setCurrent_current, ha, h.current]

theorem convert {e : Event} {c : Task} {id : Int} {now : Timespec} (h : Kept a tr)
    (hcur : a.current c.tgid c.pid = none) (hnew : a.fiber c.tgid id = none)
    (henter : e.entered = some (c, id, now)) (hrefuse : e.refused tr = none) :
    Kept ((a.setFiber c.tgid id (.converted now)).setCurrent c id) (e :: tr) := by
  have hlast : lastFiber tr c = none := (h.current c.tgid c.pid).symm.trans hcur
  refine ⟨h.current_enter henter rfl, fun t k hf => ?_, fun t k F hF => ?_⟩
  · rw [Accounts.setCurrent_fiber, Accounts.setFiber_fiber] at hf
    split_ifs at hf with hk
    exact (h.unseen t k hf).other henter hrefuse hk (by simp [hlast])
  · rw [Accounts.setCurrent_fiber, Accounts.setFiber_fiber] at hF
    split_ifs at hF with hk
    · obtain ⟨rfl, rfl⟩ := hk
      cases hF
      -- a converted fiber is one that was created and then activated
      exact (h.unseen _ _ hnew).tells.enter henter hrefuse (by simp [hlast])
    · exact (h.figures t k F hF).other henter hrefuse hk (by simp [hlast])

theorem switch {e : Event} {c : Task} {old id : Int} {now : Timespec} {F G : Figures} (h : Kept a tr)
    (hcur : a.current c.tgid c.pid = some old) (hne : old ≠ id) (hF : a.fiber c.tgid old = some F)
    (hrun : F.running = true) (hG : a.fiber c.tgid id = some G)
    (henter : e.entered = some (c, id, now)) (hrefuse : e.refused tr = none) :
    Kept (((a.setFiber c.tgid old (F.leave now)).setFiber c.tgid id (G.enter now)).setCurrent c id) (e :: tr) := by
  have hlast : lastFiber tr c = some old := (h.current c.tgid c.pid).symm.trans hcur
  refine ⟨h.current_enter henter rfl, fun t k hf => ?_, fun t k H hH => ?_⟩
  · rw [Accounts.setCurrent_fiber, Accounts.setFiber_fiber, Accounts.setFiber_fiber] at hf
    split_ifs at hf with hk hj
    refine (h.unseen t k hf).other henter hrefuse hk ?_
    rw [hlast, Option.some.injEq]
    exact hj
  · rw [Accounts.setCurrent_fiber, Accounts.setFiber_fiber, Accounts.setFiber_fiber] at hH
    split_ifs at hH with hk hj
    · obtain ⟨rfl, rfl⟩ := hk
      cases hH
      refine (h.figures _ _ G hG).enter henter hrefuse ?_
      rw [hlast, ne_eq, Option.some.injEq]
      exact hne
    · obtain ⟨rfl, rfl⟩ := hj
      cases hH
      exact (h.figures _ _ F hF).leave henter hrefuse hlast hne.symm hrun
    · refine (h.figures t k H hH).other henter hrefuse hk ?_
      rw [hlast, Option.some.injEq]
      exact hj

theorem refuse {e : Event} {tgid old target : Int} {F : Figures} (h : Kept a tr) (hF : a.fiber tgid old = some F)
    (henter : e.entered = none) (hrefuse : e.refused tr = some (tgid, old, target)) :
    Kept (a.setFiber tgid old F.refuse) (e :: tr) := by
  refine ⟨fun t pid => ?_, fun t k hf => ?_, fun t k H hH => ?_⟩
  · rw [lastFiber_idle henter]
    exact h.current t pid
  · rw [Accounts.setFiber_fiber] at hf
    split_ifs at hf with hk
    exact (h.unseen t k hf).refuseOther henter hrefuse hk
  · rw [Accounts.setFiber_fiber] at hH
    split_ifs at hH with hk
    · obtain ⟨rfl, rfl⟩ := hk
      cases hH
      exact (h.figures _ _ F hF).refuse henter hrefuse
    · exact (h.figures t k H hH).refuseOther henter hrefuse hk

theorem entered_silent {e : Event} (h : Accounts.Silent e) : e.entered = none := by
  obtain ⟨hconvert, -, hswitch⟩ := h
  unfold Event.entered
  split
  · rename_i c now id hop hout
    have hminus := hconvert c now hop
    rw [hout, Option.some.injEq] at hminus
    rw [if_neg (not_not.mpr hminus)]
  · rename_i c id now hop _
    exact absurd hop (hswitch c id now)
  · rfl

theorem refused_silent {e : Event} (h : Accounts.Silent e) : e.refused tr = none := by
  unfold Event.refused
  split
  · rename_i c id now hop
    exact absurd hop (h.2.2 c id now)
  · rfl

/-- Every step of the accounts keeps them in agreement with their past. -/
theorem step {e : Event} {a' : Accounts} (h : Kept a tr) (hstep : Accounts.Step a e a') : Kept a' (e :: tr) := by
  cases hstep with
  | silent he => exact h.idle (entered_silent he) (refused_silent he)
  | convert hcur hpos hnew =>
    refine h.convert hcur hnew ?_ rfl
    simp only [Event.entered]
    rw [if_pos (by omega)]
  | create hnew => exact h.create hnew rfl rfl
  | switch hcur hne hF hrun hG hfree =>
    refine h.switch hcur hne hF hrun hG rfl ?_
    simp [Event.refused]
  | @notConverted c cpu id now hcur =>
    have hlast : lastFiber tr c = none := (h.current c.tgid c.pid).symm.trans hcur
    exact h.idle rfl (by simp [Event.refused, hlast])
  | @absent c cpu id now hno =>
    refine h.idle rfl ?_
    simp [Event.refused, (h.unseen _ _ hno).runningSince]
  | @running c cpu old id now F G hcur hF hG hrun =>
    have hlast : lastFiber tr c = some old := (h.current c.tgid c.pid).symm.trans hcur
    have hsince := (h.figures _ _ G hG).running.symm.trans hrun
    have hrefuse : Event.refused ⟨.fibSwitchTo c id now, cpu, some (-1)⟩ tr = some (c.tgid, old, id) := by
      simp only [Event.refused, hsince, hlast, and_self, if_true, Option.map_some]
    exact h.refuse hF rfl hrefuse

/-- Every run of the accounts agrees with its past. -/
theorem run (hrun : Run Accounts.Init Accounts.Step a tr) : Kept a tr := by
  refine hrun.invariant (P := Kept) (fun a hinit => ?_) fun a tr e a' _ h hstep => h.step hstep
  refine ⟨hinit.1, fun _ _ _ => ⟨rfl, rfl, rfl, rfl⟩, fun tgid id F hF => ?_⟩
  rw [hinit.2] at hF
  cases hF

end Kept

/-! ### The driver -/

section driver

variable {nFib : Nat} {s : State} {tr : List Event}

theorem accounts_of_mem (h : Reached nFib s) (hkeys : (s.processi.map fun b => b.val.id).Nodup) {b : Block Process}
    (hb : b ∈ s.processi) {f : Block Fiber} (hf : f ∈ b.val.listafiber) :
    s.accounts.fiber b.val.id f.val.id = some f.val.figures := by
  have hp : s.processi.lookup Process.id b.val.id = some b.val := Table.lookup_of_mem hkeys hb
  have hwf := (reached_inv h b hb).toWf
  rw [accounts_fiber hp]
  exact Process.figures_of_deref hwf (Table.deref_of_mem hwf.fiberAddrs hf)

/-- In every run in which each process opens the device once, the figures of a fiber are those of its history. -/
theorem figures_tell (hrun : Run Init (Step nFib) s tr) (honce : OpensOnce tr) {b : Block Process}
    (hb : b ∈ s.processi) {f : Block Fiber} (hf : f ∈ b.val.listafiber) :
    f.val.figures.Tells tr b.val.id f.val.id := by
  have hkeys : (s.processi.map fun b => b.val.id).Nodup := ids_eq_openers hrun honce ▸ honce.openers
  exact (Kept.run (run_accounts hrun honce)).figures _ _ _ (accounts_of_mem ⟨tr, hrun⟩ hkeys hb hf)

/-- No converted thread asks for a fiber that another thread runs. -/
def asksNoOther : List Event → Bool
  | [] => true
  | e :: tr => asksNoOther tr &&
    match e.op with
    | .fibSwitchTo c id _ =>
      lastFiber tr c = none || lastFiber tr c = some id || (runningSince tr c.tgid id).isNone
    | _ => true

/-- Where nobody asks for another thread's fiber, a refusal counts at the fiber that was asked for. -/
theorem charges_eq_refusals (h : asksNoOther tr = true) (tgid id : Int) :
    charges tr tgid id = refusals tr tgid id := by
  induction tr with
  | nil => rfl
  | cons e tr ih =>
    rw [asksNoOther, Bool.and_eq_true] at h
    have hrest := ih h.1
    cases hrefuse : e.refused tr with
    | none => simp only [charges_cons, refusals, hrefuse, hrest]
    | some r =>
      obtain ⟨t, own, target⟩ := r
      have hsame : own = target := by
        unfold Event.refused at hrefuse
        split at hrefuse
        · rename_i c id now hop
          split_ifs at hrefuse with hrun
          obtain ⟨own', hlast, he⟩ := Option.map_eq_some_iff.mp hrefuse
          cases he
          have hasks := h.2
          simp only [hop, hlast, Option.some.injEq, reduceCtorEq, decide_false, Bool.false_or, Bool.or_eq_true,
            decide_eq_true_eq] at hasks
          rcases hasks with hown | hidle
          · exact hown
          · rw [Option.isNone_iff_eq_none.mp hidle] at hrun
            exact absurd hrun.2 (by simp)
        · cases hrefuse
      simp only [charges_cons, refusals, hrefuse, hrest, hsame]

theorem activations_le (tr : List Event) (tgid id : Int) : activations tr tgid id ≤ tr.length := by
  induction tr with
  | nil => exact le_refl _
  | cons e tr ih =>
    rw [List.length_cons, activations_cons]
    split
    · split_ifs <;> omega
    · omega

theorem refusals_le (tr : List Event) (tgid id : Int) : refusals tr tgid id ≤ tr.length := by
  induction tr with
  | nil => exact le_refl _
  | cons e tr ih =>
    rw [List.length_cons, refusals]
    split
    · split_ifs <;> omega
    · omega

/-- **The counters are right** in every run in which each process opens the device once and no converted thread
asks for a fiber that another thread runs, as long as they can hold the counts. -/
theorem counters_exact (hrun : Run Init (Step nFib) s tr) (honce : OpensOnce tr) (hasks : asksNoOther tr = true)
    (hactivations : ∀ tgid id, activations tr tgid id < 2 ^ 64) (hrefusals : ∀ tgid id, refusals tr tgid id < 2 ^ 31) :
    ∀ b ∈ s.processi, ∀ f ∈ b.val.listafiber,
      f.val.correctCounter.toNat = activations tr b.val.id f.val.id ∧
        f.val.failedCounter.toInt = refusals tr b.val.id f.val.id := by
  intro b hb f hf
  have htell := figures_tell hrun honce hb hf
  have hcorrect : f.val.correctCounter = BitVec.ofNat 64 (activations tr b.val.id f.val.id) := htell.correct
  have hfailed : f.val.failedCounter = BitVec.ofNat 32 (refusals tr b.val.id f.val.id) := by
    rw [← charges_eq_refusals hasks]
    exact htell.failed
  have hact := hactivations b.val.id f.val.id
  have href := hrefusals b.val.id f.val.id
  constructor
  · rw [hcorrect, BitVec.toNat_ofNat, Nat.mod_eq_of_lt hact]
  · rw [hfailed, BitVec.toInt_eq_toNat_of_lt, BitVec.toNat_ofNat, Nat.mod_eq_of_lt (by omega)]
    rw [BitVec.toNat_ofNat]
    omega

end driver

/-- The counters of the fibers of every entry. -/
def counters (s : State) : List (List (Int × Nat × Int)) :=
  s.processi.map fun b => b.val.listafiber.map fun f =>
    (f.val.id, f.val.correctCounter.toNat, f.val.failedCounter.toInt)

/-- Two threads of which one switches to a fiber it created and then asks for that fiber again. -/
theorem counters_exact_again : ∃ s tr, Run Init (Step nFib) s tr ∧
    counters s = [[(3, 1, 1), (2, 1, 0), (1, 1, 0)]] ∧ refusals tr 1 3 = 1 ∧
    ∀ b ∈ s.processi, ∀ f ∈ b.val.listafiber,
      f.val.correctCounter.toNat = activations tr b.val.id f.val.id ∧
        f.val.failedCounter.toInt = refusals tr b.val.id f.val.id := by
  obtain ⟨s, tr, hrun, hops, hview⟩ := exists_run nFib
    [.fibOpen ⟨1, 1⟩, .fibConvert ⟨1, 1⟩ ⟨0, 5⟩, .fibConvert ⟨1, 2⟩ ⟨0, 6⟩, .fibCreate ⟨1, 1⟩ 16 0 4096 4096,
      .fibSwitchTo ⟨1, 1⟩ 3 ⟨0, 9⟩, .fibSwitchTo ⟨1, 1⟩ 3 ⟨0, 12⟩]
    (fun r => (counters r.1, refusals r.2 1 3, asksNoOther r.2, r.2.length))
    (v := ([[(3, 1, 1), (2, 1, 0), (1, 1, 0)]], 1, true, 6)) (by decide +kernel)
  simp only [Prod.mk.injEq] at hview
  obtain ⟨hcounters, hrefused, hasks, hlength⟩ := hview
  have honce : OpensOnce tr := opensOnce_of_ops hops (by decide) (by simp)
  refine ⟨s, tr, hrun, hcounters, hrefused, counters_exact hrun honce hasks (fun tgid id => ?_) fun tgid id => ?_⟩
  · have := activations_le tr tgid id
    omega
  · have := refusals_le tr tgid id
    omega

/-- Thread 1 asks for the fiber of thread 2: the refusal counts at fiber 1. -/
theorem refusal_miscounted : ∃ s tr, Run Init (Step nFib) s tr ∧ OpensOnce tr ∧
    counters s = [[(2, 1, 0), (1, 1, 1)]] ∧ refusals tr 1 2 = 1 ∧ refusals tr 1 1 = 0 := by
  obtain ⟨s, tr, hrun, hops, hview⟩ := exists_run nFib
    [.fibOpen ⟨1, 1⟩, .fibConvert ⟨1, 1⟩ ⟨0, 5⟩, .fibConvert ⟨1, 2⟩ ⟨0, 6⟩, .fibSwitchTo ⟨1, 1⟩ 2 ⟨0, 9⟩]
    (fun r => (counters r.1, refusals r.2 1 2, refusals r.2 1 1)) (v := ([[(2, 1, 0), (1, 1, 1)]], 1, 0))
    (by decide +kernel)
  simp only [Prod.mk.injEq] at hview
  exact ⟨s, tr, hrun, opensOnce_of_ops hops (by decide) (by simp), hview.1, hview.2.1, hview.2.2⟩

end LinuxFibers
