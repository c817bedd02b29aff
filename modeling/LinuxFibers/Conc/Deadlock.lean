import LinuxFibers.Conc.Serial

/-!
# Circular waits

`fib_switch_to` takes the lock of the caller's fiber and keeps it while it spins on the target's. Threads that
switch to each other's fibers in a ring may come to hold one lock each and wait for the next one for ever
(`switch_deadlock`). That is the only way: if no thread takes the lock that closes a ring, no state of the run
has a circular wait (`no_circular_wait`), and once a ring is closed it ends in one (`ring_deadlocks`).
-/

namespace LinuxFibers

open HeapTable Runs

/-- A non-empty set each of whose members is related to a member. -/
def Circular {α : Type} (R : α → α → Prop) (S : Set α) : Prop := S.Nonempty ∧ ∀ x ∈ S, ∃ y ∈ S, R x y

theorem Circular.mono {α : Type} {R R' : α → α → Prop} {S : Set α} (h : Circular R S)
    (hR : ∀ x ∈ S, ∀ y ∈ S, R x y → R' x y) : Circular R' S := by
  refine ⟨h.1, fun x hx => ?_⟩
  obtain ⟨y, hy, hxy⟩ := h.2 x hx
  exact ⟨y, hy, hR x hx y hy hxy⟩

/-- The thread `t` spins on a lock that `u` holds. -/
def Config.WaitsFor (cf : Config) (t u : Int) : Prop := (cf.pc t).waits.bind cf.lock = some u

/-- The id asked for by a call that has its own fiber's lock and not yet its target's, and that fiber. -/
def Pc.asking : Pc → Option (Int × Nat)
  | .heldOld call _ old | .lockNew call _ old _ => some (call.id, old)
  | _ => none

def Config.asking (cf : Config) (u : Int) : Option (Int × Nat) := (cf.pc u).asking

/-- The call of `t` asks for the fiber that `u` has locked for a call of its own. -/
def AsksFor (fibers : List (Nat × Int)) (asking : Int → Option (Int × Nat)) (t u : Int) : Prop :=
  t ≠ u ∧ ∃ x y, asking t = some x ∧ asking u = some y ∧ (y.2, x.1) ∈ fibers

/-- The threads of a set ask in a ring for each other's fibers. -/
def Ring (fibers : List (Nat × Int)) (asking : Int → Option (Int × Nat)) (S : Set Int) : Prop :=
  Circular (AsksFor fibers asking) S

/-- The thread is about to take the lock of its own fiber and so to close a ring. -/
def Config.ClosesRing (cf : Config) (t : Int) : Prop :=
  ∃ call thread old, cf.pc t = .lockOld call thread old ∧ cf.lock old = none ∧
    ∃ S, Ring cf.mem.proc.shape.fibers (Function.update cf.asking t (some (call.id, old))) S

/-! ### Without a ring no wait is circular -/

/-- No ring of calls has been closed. -/
def NoRing (cf : Config) : Prop := ¬ ∃ S, Ring cf.mem.proc.shape.fibers cf.asking S

/-- A call asks for no more than before, so it closes no ring. -/
theorem NoRing.of_le {cf cf' : Config} (h : NoRing cf)
    (hshape : cf'.mem.proc.shape = cf.mem.proc.shape)
    (hle : ∀ u x, cf'.asking u = some x → cf.asking u = some x) : NoRing cf' := by
  intro ⟨S, hS⟩
  refine h ⟨S, hS.mono fun t _ u _ hasks => ?_⟩
  obtain ⟨hne, x, y, hx, hy, hmem⟩ := hasks
  rw [hshape] at hmem
  exact ⟨hne, x, y, hle t x hx, hle u y hy, hmem⟩

/-- A thread asks for what it asked for, or for nothing, or it takes its own fiber's lock. -/
theorem Config.Taken.asking {cf cf' : Config} {t : Int} (h : cf.Taken t cf') :
    (∃ call thread old, cf.pc t = .lockOld call thread old ∧ cf.lock old = none ∧
      cf'.pc t = .heldOld call thread old) ∨ ∀ x, cf'.asking t = some x → cf.asking t = some x := by
  cases h with
  | tookOld hpc hfree => exact .inl ⟨_, _, _, hpc, hfree, Function.update_self _ _ _⟩
  | refused hpc => exact .inr fun x hx => hx
  | found hpc =>
    right
    intro x hx
    simp only [Config.asking, Config.goto, Function.update_self, Pc.asking] at hx
    simp only [Config.asking, hpc, Pc.asking, hx]
  | _ =>
    right
    intro x hx
    simp [Config.asking, Config.goto, Config.returns, Pc.asking] at hx

namespace Underway

variable {cf cf' : Config} {a : Shared} {t : Int}

theorem shape_step (h : Underway cf a) (ht : cf.Taken t cf') : cf'.mem.proc.shape = cf.mem.proc.shape := by
  cases ht with
  | failedSelf hpc => exact shape_countFailed cf.mem
  | failedBusy hpc => exact shape_countFailed cf.mem
  | @assigned thread old new f rest hpc =>
    have hlocal := h.pending.isLocal t (Shared.assign t f)
    rw [hpc] at hlocal
    exact (hlocal List.mem_cons_self).frame cf.mem .shape shape_notMem_window
  | _ => rfl

theorem noRing_step (h : Underway cf a) (hno : NoRing cf) (hring : ¬ cf.ClosesRing t) (ht : cf.Taken t cf') :
    NoRing cf' := by
  have hshape := h.shape_step ht
  have hothers : ∀ u, u ≠ t → cf'.asking u = cf.asking u := by
    intro u hu
    rw [Config.asking, (ht.others hu).1]
    rfl
  rcases ht.asking with ⟨call, thread, old, hpc, hfree, hpc'⟩ | hle
  · intro ⟨S, hS⟩
    refine hring ⟨call, thread, old, hpc, hfree, S, ?_⟩
    have hasking : cf'.asking = Function.update cf.asking t (some (call.id, old)) := by
      funext u
      by_cases hu : u = t
      · rw [hu, Function.update_self, Config.asking, hpc']
        rfl
      · rw [Function.update_of_ne hu, hothers u hu]
    rw [hasking, hshape] at hS
    exact hS
  · refine hno.of_le hshape fun u x hx => ?_
    by_cases hu : u = t
    · subst hu
      exact hle x hx
    · rw [← hothers u hu]
      exact hx

/-- One fiber has one thread, even while it is being left. -/
theorem eq_of_runs (h : Underway cf a) {u : Int} {n n' r : Nat} (ht : cf.mem.Runs t n r)
    (hu : cf.mem.Runs u n' r) : t = u := by
  have hnode := h.oneThread _ (Table.mem_of_deref ht) _ (Table.mem_of_deref hu) rfl
  obtain rfl : n = n' := congrArg Block.addr hnode
  exact (runs_inj ht hu).1

theorem ne_of_asks (h : Underway cf a) {call : Call} {old new : Nat} (hasks : cf.mem.Asks call old new) :
    old ≠ new := by
  intro he
  subst he
  obtain ⟨⟨i, hi, hne⟩, hnew⟩ := hasks
  rw [← h.shape] at hi hnew
  obtain ⟨f, hf, hid⟩ := exists_fiber h.wf hi
  exact hne (hid.symm.trans (fiber_id_eq h.wf hf hnew))

/-- A thread that waits for one that waits asks for the fiber that this one runs. -/
theorem asksFor_of_waits (h : Underway cf a) {u v : Int} (htu : cf.WaitsFor t u) (huv : cf.WaitsFor u v) :
    AsksFor cf.mem.proc.shape.fibers cf.asking t u := by
  obtain ⟨x, hx, hlock⟩ := Option.bind_eq_some_iff.mp htu
  obtain ⟨y, hy, -⟩ := Option.bind_eq_some_iff.mp huv
  have hholds : x ∈ (cf.pc u).holds := (h.locks.holds x u).mp hlock
  have hgood := h.good t
  have hgood' := h.good u
  -- the second thread waits and holds a lock, so it holds the lock of its own fiber
  cases hu : cf.pc u with
  | lockNew call' thread' old' new' =>
    rw [hu] at hholds hgood'
    obtain rfl := List.mem_singleton.mp hholds
    cases ht : cf.pc t with
    | lockOld call thread old =>
      rw [ht] at hx hgood
      obtain rfl := Option.some.inj hx
      obtain rfl := h.eq_of_runs hgood hgood'.1
      rw [hu] at ht
      cases ht
    | lockNew call thread old new =>
      rw [ht] at hx hgood
      obtain rfl := Option.some.inj hx
      refine ⟨fun he => ?_, (call.id, old), (call'.id, new), ?_, ?_, hgood.2.2⟩
      · subst he
        rw [hu] at ht
        injection ht with _ _ hold _
        exact h.ne_of_asks hgood.2 hold.symm
      · rw [Config.asking, ht]
        rfl
      · rw [Config.asking, hu]
        rfl
    | _ => simp [ht, Pc.waits] at hx
  | lockOld call' thread' old' => simp [hu, Pc.holds] at hholds
  | _ => simp [hu, Pc.waits] at hy

end Underway

theorem noRing_of_run {cf₀ cf : Config} {tr : List Int} (hstart : cf₀.Start)
    (hrun : Run (· = cf₀) (Guarded (fun cf t => ¬ cf.ClosesRing t) Next) cf tr) :
    (∃ a, Underway cf a) ∧ NoRing cf := by
  refine hrun.invariant (P := fun cf _ => (∃ a, Underway cf a) ∧ NoRing cf) ?_ ?_
  · intro cf he
    rw [he]
    refine ⟨⟨cf₀.mem, hstart.underway⟩, fun ⟨S, ⟨t, ht⟩, hS⟩ => ?_⟩
    obtain ⟨u, -, -, x, y, hx, -⟩ := hS t ht
    rw [Config.asking, hstart.idle] at hx
    cases hx
  · intro cf tr t cf' _ ih hstep
    obtain ⟨⟨a, hunder⟩, hno⟩ := ih
    obtain ⟨hnext, hring⟩ := hstep
    have ht := Config.taken hnext
    obtain ⟨a', hunder', -⟩ := hunder.step ht
    exact ⟨⟨a', hunder'⟩, hunder.noRing_step hno hring ht⟩

/-- A circular wait is a ring. -/
theorem Underway.ring_of_circular {cf : Config} {a : Shared} (h : Underway cf a) {S : Set Int}
    (hS : Circular cf.WaitsFor S) : Ring cf.mem.proc.shape.fibers cf.asking S := by
  refine hS.mono fun t _ u hu htu => ?_
  obtain ⟨v, -, huv⟩ := hS.2 u hu
  exact h.asksFor_of_waits htu huv

/-- **No circular wait** in any state of a run in which no thread takes the lock that closes a ring. -/
theorem no_circular_wait {cf₀ cf : Config} {tr : List Int} (hstart : cf₀.Start)
    (hrun : Run (· = cf₀) (Guarded (fun cf t => ¬ cf.ClosesRing t) Next) cf tr) :
    ¬ ∃ S, Circular cf.WaitsFor S := by
  obtain ⟨⟨a, hunder⟩, hno⟩ := noRing_of_run hstart hrun
  intro ⟨S, hS⟩
  exact hno ⟨S, hunder.ring_of_circular hS⟩

/-- A thread closes no ring while no other asks for a fiber. -/
theorem not_closesRing {cf : Config} {t : Int} (h : ∀ u, u ≠ t → cf.asking u = none) : ¬ cf.ClosesRing t := by
  intro ⟨call, thread, old, hpc, hfree, S, ⟨v, hv⟩, hS⟩
  obtain ⟨u, -, hne, x, y, hx, hy, -⟩ := hS v hv
  by_cases hvt : v = t
  · have hut : u ≠ t := fun he => hne (hvt.trans he.symm)
    rw [Function.update_of_ne hut, h u hut] at hy
    cases hy
  · rw [Function.update_of_ne hvt, h v hvt] at hx
    cases hx

/-- A thread that waits for the fiber another is leaving. -/
theorem no_circular_wait_left : ∃ cf₀ cf tr, cf₀.Start ∧
    Run (· = cf₀) (Guarded (fun cf t => ¬ cf.ClosesRing t) Next) cf tr ∧ cf.WaitsFor 2 1 ∧
    ¬ ∃ S, Circular cf.WaitsFor S := by
  have hok : ∀ (cf₀ cf : Config) (tr : List Int) (t : Int), cf₀.Start →
      (cf₀.todo = fun t => if t = 1 then [⟨3, ⟨0, 9⟩⟩] else if t = 2 then [⟨1, ⟨0, 9⟩⟩] else []) →
      Run (· = cf₀) Next cf tr →
      decide ((t = 1 ∨ cf.asking 1 = none) ∧ (t = 2 ∨ cf.asking 2 = none)) = true → ¬ cf.ClosesRing t := by
    intro cf₀ cf tr t hstart htodo hrun hok
    rw [decide_eq_true_eq] at hok
    apply not_closesRing
    intro u hu
    by_cases h₁ : u = 1
    · rw [h₁]
      exact hok.1.resolve_left fun ht => hu (h₁.trans ht.symm)
    by_cases h₂ : u = 2
    · rw [h₂]
      exact hok.2.resolve_left fun ht => hu (h₂.trans ht.symm)
    have hcalls : cf₀.todo u = [] := by
      rw [htodo]
      show (if u = 1 then _ else if u = 2 then _ else _) = _
      rw [if_neg h₁, if_neg h₂]
    rw [Config.asking, (run_idle hrun (hstart.idle u) hcalls).1]
    rfl
  obtain ⟨cf₀, cf, hstart, -, hrun, hview⟩ := exists_concurrent 3
    [.fibOpen ⟨1, 1⟩, .fibConvert ⟨1, 1⟩ ⟨0, 5⟩, .fibConvert ⟨1, 2⟩ ⟨0, 6⟩, .fibCreate ⟨1, 1⟩ 16 0 4096 4096]
    (fun t => if t = 1 then [⟨3, ⟨0, 9⟩⟩] else if t = 2 then [⟨1, ⟨0, 9⟩⟩] else [])
    [1, 1, 1, 1, 2, 2, 2] _ _ hok (fun cf => (cf.pc 2).waits.bind cf.lock) (v := some 1) (by decide)
  exact ⟨cf₀, cf, _, hstart, hrun, hview, no_circular_wait hstart hrun⟩

/-- Two threads switch to each other's fibers: each takes its own fiber's lock and waits for the other's. -/
theorem switch_deadlock : ∃ cf₀ cf tr, cf₀.Start ∧ Run (· = cf₀) Next cf tr ∧
    Circular cf.WaitsFor {1, 2} := by
  obtain ⟨cf₀, cf, hstart, -, hrun, hview⟩ := exists_concurrent 3
    [.fibOpen ⟨1, 1⟩, .fibConvert ⟨1, 1⟩ ⟨0, 5⟩, .fibConvert ⟨1, 2⟩ ⟨0, 6⟩]
    (fun t => if t = 1 then [⟨2, ⟨0, 9⟩⟩] else if t = 2 then [⟨1, ⟨0, 9⟩⟩] else [])
    [1, 2, 1, 2, 1, 2] (fun _ _ => true) (fun _ _ => True) (fun _ _ _ _ _ _ _ _ => trivial)
    (fun cf => ((cf.pc 1).waits.bind cf.lock, (cf.pc 2).waits.bind cf.lock)) (v := (some 2, some 1)) (by decide)
  obtain ⟨h₁, h₂⟩ := Prod.mk.inj hview
  refine ⟨cf₀, cf, _, hstart, hrun.of_guarded, ⟨1, .inl rfl⟩, ?_⟩
  rintro t (rfl | rfl)
  · exact ⟨2, .inr rfl, h₁⟩
  · exact ⟨1, .inl rfl, h₂⟩

/-! ### A ring ends in a circular wait -/

namespace Underway

variable {cf : Config} {a : Shared} {t u : Int}

theorem own_of_asking {x : Int × Nat} (hx : cf.asking t = some x) : (cf.pc t).own t = ∅ := by
  cases hpc : cf.pc t with
  | exchange thread old new rest => simp [Config.asking, hpc, Pc.asking] at hx
  | _ => rfl

/-- A thread that asks for a fiber runs and has locked its own. -/
theorem runs_of_asking (h : Underway cf a) {x : Int × Nat} (hx : cf.asking t = some x) :
    (∃ thread, cf.mem.Runs t thread x.2) ∧ x.2 ∈ (cf.pc t).holds := by
  have hgood := h.good t
  cases hpc : cf.pc t with
  | heldOld call thread old =>
    rw [hpc] at hgood
    simp only [Config.asking, hpc, Pc.asking, Option.some.injEq] at hx
    subst hx
    exact ⟨⟨thread, hgood⟩, List.mem_singleton_self old⟩
  | lockNew call thread old new =>
    rw [hpc] at hgood
    simp only [Config.asking, hpc, Pc.asking, Option.some.injEq] at hx
    subst hx
    exact ⟨⟨thread, hgood.1⟩, List.mem_singleton_self old⟩
  | _ => simp [Config.asking, hpc, Pc.asking] at hx

/-- The target of a call in a ring is found. -/
theorem next_of_asksFor (h : Underway cf a) {call : Call} {thread old : Nat}
    (hpc : cf.pc t = .heldOld call thread old) (hasks : AsksFor cf.mem.proc.shape.fibers cf.asking t u) :
    ∃ new, cf.next t = some (cf.goto t (.lockNew call thread old new)) := by
  obtain ⟨hne, x, y, hx, hy, hmem⟩ := hasks
  have hown := own_of_asking hx
  obtain ⟨⟨n, hruns⟩, hold⟩ := h.runs_of_asking hx
  obtain ⟨⟨n', hruns'⟩, -⟩ := h.runs_of_asking hy
  obtain rfl : (call.id, old) = x := by
    rw [Config.asking, hpc] at hx
    exact Option.some.inj hx
  obtain ⟨f, hc⟩ := h.exists_carries hown hruns
  have hf : cf.mem.proc.listafiber.deref old = some f := by
    rw [← h.fiber_eq hown hold]
    exact hc.fiber
  have hid : f.id ≠ call.id := by
    intro hid
    have hself := mem_shape_fibers hf
    rw [hid, ← h.shape] at hself
    rw [← h.shape] at hmem
    have haddr : old = y.2 := fiber_addr_eq h.wf hself hmem
    rw [← haddr] at hruns'
    exact hne (h.eq_of_runs hruns hruns')
  have hsome : possible Fiber.id call.id cf.mem.proc.listafiber ≠ [] := by
    intro hno
    obtain ⟨b, hb, he⟩ := List.mem_map.mp hmem
    exact possible_eq_nil_iff.mp hno b hb (congrArg Prod.snd he)
  obtain ⟨new, rest, hnew⟩ := List.exists_cons_of_ne_nil hsome
  refine ⟨new, ?_⟩
  rw [Config.next, hpc]
  simp only [hf, if_neg hid, hnew, List.head?_cons]

/-- In a ring, a thread that spins on its target's lock waits for a thread of the ring. -/
theorem waits_of_asksFor (h : Underway cf a) {call : Call} {thread old new : Nat}
    (hpc : cf.pc t = .lockNew call thread old new)
    (hasks : AsksFor cf.mem.proc.shape.fibers cf.asking t u) : cf.WaitsFor t u := by
  obtain ⟨-, x, y, hx, hy, hmem⟩ := hasks
  obtain rfl : (call.id, old) = x := by
    rw [Config.asking, hpc] at hx
    exact Option.some.inj hx
  have hgood := h.good t
  rw [hpc] at hgood
  obtain ⟨-, -, hnew⟩ := hgood
  rw [← h.shape] at hmem hnew
  have haddr : new = y.2 := fiber_addr_eq h.wf hnew hmem
  have hlock : cf.lock new = some u := by
    rw [haddr, h.locks.holds]
    exact (h.runs_of_asking hy).2
  rw [Config.WaitsFor, hpc]
  exact hlock

end Underway

/-- The threads of a ring that are listed come to spin on their targets' locks; nobody else moves. -/
theorem settle {cf₀ : Config} (hstart : cf₀.Start) {S : Set Int} (l : List Int) {cf : Config} {tr : List Int}
    (hrun : Run (· = cf₀) Next cf tr) (hring : Ring cf.mem.proc.shape.fibers cf.asking S) :
    ∃ cf' tr', Run (· = cf₀) Next cf' tr' ∧ Ring cf'.mem.proc.shape.fibers cf'.asking S ∧
      (∀ t, (cf.pc t).waits ≠ none → (cf'.pc t).waits ≠ none) ∧
      ∀ t ∈ l, t ∈ S → (cf'.pc t).waits ≠ none := by
  induction l generalizing cf tr with
  | nil => exact ⟨cf, tr, hrun, hring, fun _ h => h, fun _ h => absurd h List.not_mem_nil⟩
  | cons t l ih =>
    by_cases hmove : t ∈ S ∧ (cf.pc t).waits = none
    · obtain ⟨htS, hwaits⟩ := hmove
      obtain ⟨a, hunder, -⟩ := underway_of_run hstart hrun
      obtain ⟨u, -, hasks⟩ := hring.2 t htS
      obtain ⟨-, x, -, hx, -⟩ := id hasks
      cases hpc : cf.pc t with
      | heldOld call thread old =>
        obtain ⟨new, hnext⟩ := hunder.next_of_asksFor hpc hasks
        have hasking : (cf.goto t (.lockNew call thread old new)).asking = cf.asking := by
          funext v
          by_cases hv : v = t
          · simp [hv, Config.asking, Config.goto, hpc, Pc.asking]
          · simp [hv, Config.asking, Config.goto]
        have hring' : Ring cf.mem.proc.shape.fibers (cf.goto t (.lockNew call thread old new)).asking S := by
          rw [hasking]
          exact hring
        obtain ⟨cf', tr', hrun', hring'', hkeep, hall⟩ := ih (hrun.step hnext) hring'
        have hstill : ∀ v, (cf.pc v).waits ≠ none → (cf'.pc v).waits ≠ none := by
          intro v hv
          apply hkeep
          have hvt : v ≠ t := fun he => hv (he ▸ hwaits)
          simp only [Config.goto, Function.update_of_ne hvt]
          exact hv
        have hhead : (cf'.pc t).waits ≠ none := by
          apply hkeep
          simp [Config.goto, Pc.waits]
        refine ⟨cf', tr', hrun', hring'', hstill, fun v hv hvS => ?_⟩
        rcases List.mem_cons.mp hv with rfl | hv
        · exact hhead
        · exact hall v hv hvS
      | lockNew call thread old new =>
        rw [hpc] at hwaits
        cases hwaits
      | _ => simp [Config.asking, hpc, Pc.asking] at hx
    · obtain ⟨cf', tr', hrun', hring', hkeep, hall⟩ := ih hrun hring
      refine ⟨cf', tr', hrun', hring', hkeep, fun v hv hvS => ?_⟩
      rcases List.mem_cons.mp hv with rfl | hv
      · exact hkeep v fun hnone => hmove ⟨hvS, hnone⟩
      · exact hall v hv hvS

/-- Once a ring is closed, its threads need only go on to wait for each other. -/
theorem ring_deadlocks {cf₀ cf : Config} {tr : List Int} {S : Set Int} (hstart : cf₀.Start)
    (hrun : Run (· = cf₀) Next cf tr) (hring : Ring cf.mem.proc.shape.fibers cf.asking S) :
    ∃ cf' tr', Run (· = cf₀) Next cf' tr' ∧ Circular cf'.WaitsFor S := by
  have hlisted : ∀ t ∈ S, t ∈ tr := by
    intro t htS
    obtain ⟨u, -, -, x, -, hx, -⟩ := hring.2 t htS
    by_contra htr
    rw [Config.asking, run_pc hrun htr, hstart.idle] at hx
    cases hx
  obtain ⟨cf', tr', hrun', hring', -, hall⟩ := settle hstart tr hrun hring
  obtain ⟨a, hunder, -⟩ := underway_of_run hstart hrun'
  refine ⟨cf', tr', hrun', hring'.1, fun t htS => ?_⟩
  obtain ⟨u, huS, hasks⟩ := hring'.2 t htS
  obtain ⟨-, x, -, hx, -⟩ := id hasks
  have hwaits := hall t (hlisted t htS) htS
  cases hpc : cf'.pc t with
  | lockNew call thread old new => exact ⟨u, huS, hunder.waits_of_asksFor hpc hasks⟩
  | heldOld call thread old =>
    rw [hpc] at hwaits
    exact absurd rfl hwaits
  | _ => simp [Config.asking, hpc, Pc.asking] at hx

/-- Some run ends in a circular wait exactly when some run lets a thread close a ring. -/
theorem circular_wait_iff {cf₀ : Config} (hstart : cf₀.Start) :
    (∃ cf tr, Run (· = cf₀) Next cf tr ∧ ∃ S, Circular cf.WaitsFor S) ↔
      ∃ cf tr t, Run (· = cf₀) Next cf tr ∧ cf.ClosesRing t := by
  constructor
  · intro ⟨cf, tr, hrun, S, hS⟩
    by_contra hno
    push Not at hno
    have hguarded : Run (· = cf₀) (Guarded (fun cf t => ¬ cf.ClosesRing t) Next) cf tr := by
      refine hrun.invariant (P := fun cf tr => Run (· = cf₀) (Guarded (fun cf t => ¬ cf.ClosesRing t) Next) cf tr)
        (fun cf he => .start he) ?_
      intro cf tr t cf' hrun ih hstep
      exact ih.step ⟨hstep, hno cf tr t hrun⟩
    obtain ⟨⟨a, hunder⟩, hring⟩ := noRing_of_run hstart hguarded
    exact hring ⟨S, hunder.ring_of_circular hS⟩
  · intro ⟨cf, tr, t, hrun, call, thread, old, hpc, hfree, S, hS⟩
    have hnext : Next cf t ((cf.spinLock t old).goto t (.heldOld call thread old)) := by
      rw [Next, Config.next, hpc]
      exact if_pos hfree
    have hasking : ((cf.spinLock t old).goto t (.heldOld call thread old)).asking =
        Function.update cf.asking t (some (call.id, old)) := by
      funext u
      by_cases hu : u = t
      · simp [hu, Config.asking, Config.goto, Pc.asking]
      · simp [hu, Config.asking, Config.goto, Config.spinLock]
    rw [← hasking] at hS
    obtain ⟨cf', tr', hrun', hcircular⟩ := ring_deadlocks hstart (hrun.step hnext) hS
    exact ⟨cf', tr', hrun', S, hcircular⟩

end LinuxFibers
