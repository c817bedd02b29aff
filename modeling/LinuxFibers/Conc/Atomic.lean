import LinuxFibers.Conc.Cells
import LinuxFibers.Proof.Reach

/-!
# Where each thread is, and what that says of the memory

`Locks` says that a lock is held by the thread whose place in the function says so. `Pc.Good` is what a
thread knows where it is, and `Pc.Good.frame` that no step of another thread takes it away: the other
thread touches its own node and registers and fibers whose locks it holds.
-/

namespace LinuxFibers

open HeapTable LocalActions

/-! ### The locks -/

/-- The locks are held as the places of the threads say. -/
structure Locks (cf : Config) : Prop where
  holds : ∀ x u, cf.lock x = some u ↔ x ∈ (cf.pc u).holds
  nodup : ∀ u, (cf.pc u).holds.Nodup

namespace Locks

variable {cf cf' : Config} {t : Int}

theorem eq_of_holds (h : Locks cf) {x : Nat} {u v : Int} (hu : x ∈ (cf.pc u).holds)
    (hv : x ∈ (cf.pc v).holds) : u = v := by
  rw [← h.holds] at hu hv
  exact Option.some.inj (hu.symm.trans hv)

/-- A thread moves on with the locks it has. -/
theorem keep (h : Locks cf) {pc : Pc} (hlock : cf'.lock = cf.lock) (hpc : cf'.pc = Function.update cf.pc t pc)
    (hholds : pc.holds = (cf.pc t).holds) : Locks cf' := by
  have hsame : ∀ u, (cf'.pc u).holds = (cf.pc u).holds := by
    intro u
    rw [hpc]
    by_cases hu : u = t
    · rw [hu, Function.update_self, hholds]
    · rw [Function.update_of_ne hu]
  refine ⟨fun x u => ?_, fun u => ?_⟩
  · rw [hlock, hsame]
    exact h.holds x u
  · rw [hsame]
    exact h.nodup u

/-- A thread takes a free lock. -/
theorem take (h : Locks cf) {a : Nat} {pc : Pc} (hfree : cf.lock a = none)
    (hlock : cf'.lock = Function.update cf.lock a (some t)) (hpc : cf'.pc = Function.update cf.pc t pc)
    (hholds : ∀ x, x ∈ pc.holds ↔ x = a ∨ x ∈ (cf.pc t).holds) (hnodup : pc.holds.Nodup) : Locks cf' := by
  have hnot : ∀ u, a ∉ (cf.pc u).holds := by
    intro u hu
    rw [← h.holds, hfree] at hu
    cases hu
  refine ⟨fun x u => ?_, fun u => ?_⟩
  · rw [hlock, hpc]
    by_cases hx : x = a
    · subst hx
      rw [Function.update_self]
      by_cases hu : u = t
      · rw [hu, Function.update_self, hholds]
        simp
      · rw [Function.update_of_ne hu]
        have hne : some t ≠ some u := fun he => hu (Option.some.inj he).symm
        exact iff_of_false hne (hnot u)
    · rw [Function.update_of_ne hx]
      by_cases hu : u = t
      · rw [hu, Function.update_self, hholds, h.holds]
        simp [hx]
      · rw [Function.update_of_ne hu]
        exact h.holds x u
  · rw [hpc]
    by_cases hu : u = t
    · rw [hu, Function.update_self]
      exact hnodup
    · rw [Function.update_of_ne hu]
      exact h.nodup u

/-- A thread gives a lock back. -/
theorem free (h : Locks cf) {a : Nat} {pc : Pc} (hlock : cf'.lock = Function.update cf.lock a none)
    (hpc : cf'.pc = Function.update cf.pc t pc) (hholds : (cf.pc t).holds.Perm (a :: pc.holds)) : Locks cf' := by
  have hnodup : (a :: pc.holds).Nodup := hholds.nodup_iff.mp (h.nodup t)
  have hmem : ∀ x, x ∈ (cf.pc t).holds ↔ x = a ∨ x ∈ pc.holds := by
    intro x
    rw [hholds.mem_iff, List.mem_cons]
  refine ⟨fun x u => ?_, fun u => ?_⟩
  · rw [hlock, hpc]
    by_cases hx : x = a
    · subst hx
      rw [Function.update_self]
      refine iff_of_false (fun he => by cases he) fun hu => ?_
      by_cases hut : u = t
      · rw [hut, Function.update_self] at hu
        exact (List.nodup_cons.mp hnodup).1 hu
      · rw [Function.update_of_ne hut] at hu
        exact hut (h.eq_of_holds hu ((hmem x).mpr (.inl rfl)))
    · rw [Function.update_of_ne hx]
      by_cases hu : u = t
      · rw [hu, Function.update_self, h.holds, hmem]
        simp [hx]
      · rw [Function.update_of_ne hu]
        exact h.holds x u
  · rw [hpc]
    by_cases hu : u = t
    · rw [hu, Function.update_self]
      exact (List.nodup_cons.mp hnodup).2
    · rw [Function.update_of_ne hu]
      exact h.nodup u

/-- Every step keeps the locks as the places say. -/
theorem step (h : Locks cf) (ht : cf.Taken t cf') : Locks cf' := by
  cases ht with
  | refused hpc htodo hno => exact ⟨h.holds, h.nodup⟩
  | started hpc htodo hrun => exact h.keep rfl rfl (by rw [hpc]; rfl)
  | tookOld hpc hfree =>
    exact h.take hfree rfl rfl (by simp [hpc, Pc.holds]) (List.nodup_singleton _)
  | self hpc hf hid => exact h.keep rfl rfl (by rw [hpc]; rfl)
  | absent hpc hf hid hno => exact h.keep rfl rfl (by rw [hpc]; rfl)
  | found hpc hf hid hnew => exact h.keep rfl rfl (by rw [hpc]; rfl)
  | @tookNew call thread old new hpc hfree =>
    have hold : cf.lock old = some t := (h.holds old t).mpr (by simp [hpc, Pc.holds])
    have hne : old ≠ new := by
      rintro rfl
      rw [hfree] at hold
      cases hold
    refine h.take hfree rfl rfl (fun x => ?_) (by simp [Pc.holds, hne])
    simp only [hpc, Pc.holds, List.mem_cons, List.not_mem_nil, or_false]
    exact or_comm
  | busy hpc hsel => exact h.keep rfl rfl (by rw [hpc]; rfl)
  | began hpc hsel => exact h.keep rfl rfl (by rw [hpc]; rfl)
  | failedSelf hpc => exact h.keep rfl rfl (by rw [hpc]; rfl)
  | failedBusy hpc => exact h.keep rfl rfl (by rw [hpc]; rfl)
  | assigned hpc => exact h.keep rfl rfl (by rw [hpc]; rfl)
  | ended hpc => exact h.keep rfl rfl (by rw [hpc]; rfl)
  | @freedNew old new ret hpc =>
    refine h.free rfl rfl ?_
    rw [hpc]
    exact List.Perm.swap new old []
  | freedOld hpc =>
    refine h.free rfl rfl ?_
    rw [hpc]
    exact List.Perm.refl _

end Locks

/-! ### What a thread knows -/

/-- The node `thread` belongs to the thread `t`, and its runner is `old`. -/
def Shared.Runs (m : Shared) (t : Int) (thread old : Nat) : Prop :=
  m.proc.listathread.deref thread = some { runner := some old, id := t }

/-- The call asks for the fiber `new`, and `old` is another one. -/
def Shared.Asks (m : Shared) (call : Call) (old new : Nat) : Prop :=
  (∃ i, (old, i) ∈ m.proc.shape.fibers ∧ i ≠ call.id) ∧ (new, call.id) ∈ m.proc.shape.fibers

/-- Assignments that change no node but `thread`, and that one only to run `new`. -/
def MovesTo (thread new : Nat) (l : List Assign) : Prop :=
  ∀ f ∈ l, ∀ y, (f y).1.listathread = y.1.listathread ∨
    (f y).1.listathread = y.1.listathread.update thread fun n => { n with runner := some new }

theorem movesTo_exchangeSteps (thread old new : Nat) (now : Timespec) :
    MovesTo thread new (exchangeSteps thread old new now) := by
  rw [MovesTo, exchangeSteps]
  simp only [List.forall_mem_cons]
  refine ⟨fun _ => .inl rfl, fun _ => .inl rfl, fun _ => .inl rfl, fun _ => .inl rfl, fun _ => .inl rfl,
    fun _ => .inl rfl, fun _ => .inr rfl, fun _ => .inl rfl, fun _ => .inl rfl, fun _ => .inl rfl,
    fun _ h => absurd h List.not_mem_nil⟩

/-- What holds of the memory `m`, and of the memory `a` in which the exchanges that have begun are complete,
where the thread `t` is. -/
def Pc.Good (t : Int) (m a : Shared) : Pc → Prop
  | .idle | .unlockNew _ _ _ | .unlockOld _ _ => True
  | .lockOld _ thread old | .heldOld _ thread old => m.Runs t thread old
  | .lockNew call thread old new | .heldNew call thread old new => m.Runs t thread old ∧ m.Asks call old new
  | .countFailed call thread old none => m.Runs t thread old ∧ (old, call.id) ∈ m.proc.shape.fibers
  | .countFailed call thread old (some new) => m.Runs t thread old ∧ m.Asks call old new ∧
      ∃ g, m.proc.listafiber.deref new = some g ∧ g.selectedThread ≠ none
  | .exchange thread old new rest => (∃ r, (r = old ∨ r = new) ∧ m.Runs t thread r) ∧ a.Runs t thread new ∧
      (∃ f, a.proc.listafiber.deref old = some f ∧ f.selectedThread = none) ∧ MovesTo thread new rest

/-- The step of another thread, which touches no cell outside its window, leaves what a thread knows. -/
theorem Pc.Good.frame {pc : Pc} {t u : Int} {m m' a a' : Shared} {thread old new : Nat} (h : pc.Good u m a)
    (hm : ∀ i, i ∉ window t thread old new → m'.get i = m.get i)
    (ha : ∀ i, i ∉ window t thread old new → a'.get i = a.get i)
    (hthread : ∀ n r, m.Runs u n r → n ≠ thread) (hholds : ∀ x ∈ pc.holds, x ≠ old ∧ x ≠ new) :
    pc.Good u m' a' := by
  have hshape : m'.proc.shape = m.proc.shape := hm .shape shape_notMem_window
  have hruns : ∀ n r, m.Runs u n r → m'.Runs u n r := by
    intro n r hn
    have hnode : m'.proc.listathread.deref n = m.proc.listathread.deref n :=
      hm (.thread n) fun hi => hthread n r hn (thread_mem_window.mp hi)
    exact hnode.trans hn
  have hruns' : ∀ n r r', m.Runs u n r → a.Runs u n r' → a'.Runs u n r' := by
    intro n r r' hn hn'
    have hnode : a'.proc.listathread.deref n = a.proc.listathread.deref n :=
      ha (.thread n) fun hi => hthread n r hn (thread_mem_window.mp hi)
    exact hnode.trans hn'
  have hfiber : ∀ x ∈ pc.holds, m'.proc.listafiber.deref x = m.proc.listafiber.deref x ∧
      a'.proc.listafiber.deref x = a.proc.listafiber.deref x := by
    intro x hx
    obtain ⟨ho, hn⟩ := hholds x hx
    have hout : Cell.fiber x ∉ window t thread old new := fun hi => (fiber_mem_window.mp hi).elim ho hn
    exact ⟨hm (.fiber x) hout, ha (.fiber x) hout⟩
  have hasks : ∀ {call old new}, m.Asks call old new → m'.Asks call old new := by
    intro call old new hasks
    rw [Shared.Asks, hshape]
    exact hasks
  cases pc with
  | idle | unlockNew | unlockOld => trivial
  | lockOld call n x | heldOld call n x => exact hruns n x h
  | lockNew call n x y | heldNew call n x y => exact ⟨hruns n x h.1, hasks h.2⟩
  | countFailed call n x y =>
    cases y with
    | none => exact ⟨hruns n x h.1, hshape ▸ h.2⟩
    | some y =>
      obtain ⟨hn, hc, g, hg, hsel⟩ := h
      refine ⟨hruns n x hn, hasks hc, g, ?_, hsel⟩
      rw [(hfiber y (by simp [Pc.holds])).1, hg]
  | exchange n x y rest =>
    obtain ⟨⟨r, hr, hn⟩, hna, ⟨f, hf, hsel⟩, hrest⟩ := h
    refine ⟨⟨r, hr, hruns n r hn⟩, hruns' n r y hn hna, ⟨f, ?_, hsel⟩, hrest⟩
    rw [(hfiber x (by simp [Pc.holds])).2, hf]

end LinuxFibers
