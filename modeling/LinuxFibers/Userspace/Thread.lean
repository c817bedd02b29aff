import LinuxFibers.Base.Cas

/-!
# The ids of the threads

`create_threads` of `thread.c` starts `n` threads one after another, and each takes an id in a compare-and-swap loop on
`thread_counter` before it calls `start_routine`. The threads are numbered by the loop variable of `create_threads`. The
main result is `createThreads_tids`: whatever the schedule, the ids are handed out one by one and every thread gets one.
-/

namespace LinuxFibers

namespace Userspace.Thread

open Runs
open Function (update update_self update_of_ne)

/-- Where `__helper_create_thread` is: not begun, at the load of the counter, at the test of the loop with what was
loaded, or past the loop. -/
inductive Pc
  | absent
  | load
  | test (oldCounter : BitVec 32)
  | started

/-- `i` is the loop variable of `create_threads`. -/
structure Threads (n : BitVec 16) where
  i : Nat
  threadCounter : BitVec 32
  tid : Fin n.toNat → BitVec 32
  pc : Fin n.toNat → Pc

inductive Event (n : BitVec 16)
  | newThread (t : Fin n.toNat)
  | load (t : Fin n.toNat)
  | swap (t : Fin n.toNat)
  | again (t : Fin n.toNat)

variable {n : BitVec 16}

def Threads.goto (s : Threads n) (t : Fin n.toNat) (p : Pc) : Threads n := { s with pc := update s.pc t p }

inductive Step : Threads n → Event n → Threads n → Prop
  | newThread {s : Threads n} {t : Fin n.toNat} (ht : t.val = s.i) :
      Step s (.newThread t) { s.goto t .load with i := s.i + 1 }
  | load {s : Threads n} {t : Fin n.toNat} (ht : s.pc t = .load) :
      Step s (.load t) { s.goto t (.test s.threadCounter) with tid := update s.tid t (s.threadCounter + 1) }
  | swap {s : Threads n} {t : Fin n.toNat} (ht : s.pc t = .test s.threadCounter) :
      Step s (.swap t) { s.goto t .started with threadCounter := s.tid t }
  | again {s : Threads n} {t : Fin n.toNat} {oldCounter : BitVec 32} (ht : s.pc t = .test oldCounter)
      (hne : oldCounter ≠ s.threadCounter) : Step s (.again t) (s.goto t .load)

/-- `create_threads` is called; `c` threads have taken an id before. -/
def Start (c : BitVec 32) (s : Threads n) : Prop := s.i = 0 ∧ s.threadCounter = c ∧ ∀ t, s.pc t = .absent

/-! ### The loop as a compare-and-swap loop -/

def Threads.casPc (s : Threads n) (t : Fin n.toNat) : Cas.Pc (BitVec 32) :=
  match s.pc t with
  | .absent | .load => .ready
  | .test oldCounter => .loaded oldCounter
  | .started => .done (s.tid t)

def Threads.cas (s : Threads n) : Cas.State (Fin n.toNat) (BitVec 32) := { cell := s.threadCounter, pc := s.casPc }

def Event.cas : Event n → Option (Cas.Event (Fin n.toNat))
  | .newThread _ => none
  | .load t => some (.load t)
  | .swap t => some (.swap t)
  | .again t => some (.retry t)

/-- A thread that has loaded has set its id, and the threads from `i` on do not exist. -/
structure Inv (s : Threads n) : Prop where
  bound : s.i ≤ n.toNat
  absent : ∀ t, s.i ≤ t.val ↔ s.pc t = .absent
  tid : ∀ t oldCounter, s.pc t = .test oldCounter → s.tid t = oldCounter + 1

variable {s s' : Threads n} {e : Event n} {tr : List (Event n)} {c : BitVec 32}

/-- A thread that exists goes on. -/
theorem Inv.goto {t : Fin n.toNat} {p : Pc} (h : Inv s) (hold : s.pc t ≠ .absent) (hnew : p ≠ .absent)
    (hp : ∀ oldCounter, p = .test oldCounter → s.tid t = oldCounter + 1) : Inv (s.goto t p) where
  bound := h.bound
  absent u := by
    by_cases hu : u = t
    · subst hu
      have hiff := h.absent u
      simp only [Threads.goto, update_self]
      exact iff_of_false (fun hle => hold (hiff.mp hle)) hnew
    · simp only [Threads.goto, update_of_ne hu]
      exact h.absent u
  tid u oldCounter := by
    by_cases hu : u = t
    · subst hu
      simp only [Threads.goto, update_self]
      exact hp oldCounter
    · simp only [Threads.goto, update_of_ne hu]
      exact h.tid u oldCounter

theorem Inv.step (h : Inv s) (hstep : Step s e s') : Inv s' := by
  cases hstep with
  | @newThread t ht =>
    refine ⟨?_, fun u => ?_, fun u oldCounter hu => ?_⟩
    · have := t.isLt
      show s.i + 1 ≤ n.toNat
      omega
    · by_cases hu : u = t
      · subst hu
        refine iff_of_false (fun hle : s.i + 1 ≤ u.val => by omega) ?_
        simp only [Threads.goto, update_self]
        exact fun h => by cases h
      · have hval : u.val ≠ s.i := fun hval => hu (Fin.ext (hval.trans ht.symm))
        have hiff := h.absent u
        simp only [Threads.goto, update_of_ne hu]
        rw [← hiff]
        omega
    · by_cases hut : u = t
      · subst hut
        simp only [Threads.goto, update_self] at hu
        cases hu
      · simp only [Threads.goto, update_of_ne hut] at hu
        exact h.tid u oldCounter hu
  | @load t ht =>
    have hinv : Inv { s with tid := update s.tid t (s.threadCounter + 1) } := by
      refine ⟨h.bound, h.absent, fun u oldCounter hu => ?_⟩
      have hne : u ≠ t := by
        rintro rfl
        rw [show s.pc u = .load from ht] at hu
        cases hu
      simp only [update_of_ne hne]
      exact h.tid u oldCounter hu
    refine hinv.goto (by rw [show s.pc t = .load from ht]; exact Pc.noConfusion) Pc.noConfusion fun oldCounter hp => ?_
    obtain rfl := Pc.test.inj hp
    exact update_self ..
  | @swap t ht =>
    have hinv : Inv (s.goto t .started) :=
      h.goto (by rw [ht]; exact Pc.noConfusion) Pc.noConfusion fun _ hp => Pc.noConfusion hp
    exact ⟨hinv.bound, hinv.absent, hinv.tid⟩
  | @again t oldCounter ht hne =>
    exact h.goto (by rw [ht]; exact Pc.noConfusion) Pc.noConfusion fun _ hp => Pc.noConfusion hp

theorem Inv.start (h : Start c s) : Inv s where
  bound := by rw [h.1]; exact Nat.zero_le _
  absent t := iff_of_true (by rw [h.1]; exact Nat.zero_le _) (h.2.2 t)
  tid t oldCounter ht := by
    rw [h.2.2 t] at ht
    cases ht

/-- The loops after one thread has moved. -/
theorem cas_eq (s s' : Threads n) {t : Fin n.toNat} {p : Pc} {q : Cas.Pc (BitVec 32)} (hpc : s'.pc = update s.pc t p)
    (htid : ∀ u, u ≠ t → s'.tid u = s.tid u) (hq : s'.casPc t = q) :
    s'.cas = { cell := s'.threadCounter, pc := update s.casPc t q } := by
  refine congrArg (Cas.State.mk _) (funext fun u => ?_)
  by_cases hu : u = t
  · subst hu
    rw [update_self]
    exact hq
  · rw [update_of_ne hu, Threads.casPc, Threads.casPc, hpc, update_of_ne hu, htid u hu]

/-- A step of a thread is a step of its compare-and-swap loop; its creation does not show. -/
theorem step_cas (h : Inv s) (hstep : Step s e s') :
    (e.cas = none ∧ s'.cas = s.cas) ∨ ∃ e', e.cas = some e' ∧ Cas.Step (· + 1) s.cas e' s'.cas := by
  cases hstep with
  | @newThread t ht =>
    have hcas : s.casPc t = .ready := by rw [Threads.casPc, (h.absent t).mp ht.ge]
    refine .inl ⟨rfl, ?_⟩
    rw [cas_eq s { s.goto t .load with i := s.i + 1 } rfl (fun _ _ => rfl)
      (show _ = .ready by simp [Threads.casPc, Threads.goto]), ← hcas, Function.update_eq_self]
    rfl
  | @load t ht =>
    refine .inr ⟨_, rfl, ?_⟩
    rw [cas_eq s { s.goto t (.test s.threadCounter) with tid := update s.tid t (s.threadCounter + 1) } rfl
      (fun u hu => update_of_ne hu _ _) (show _ = .loaded s.threadCounter by simp [Threads.casPc, Threads.goto])]
    exact .load (s := s.cas) (by simp [Threads.cas, Threads.casPc, ht])
  | @swap t ht =>
    have htid : s.tid t = s.threadCounter + 1 := h.tid t _ ht
    refine .inr ⟨_, rfl, ?_⟩
    rw [cas_eq s { s.goto t .started with threadCounter := s.tid t } rfl (fun _ _ => rfl)
      (show _ = .done (s.threadCounter + 1) by simp [Threads.casPc, Threads.goto, htid])]
    simp only [htid]
    exact .swap (s := s.cas) (by simp [Threads.cas, Threads.casPc, ht])
  | @again t oldCounter ht hne =>
    refine .inr ⟨_, rfl, ?_⟩
    rw [cas_eq s (s.goto t .load) rfl (fun _ _ => rfl)
      (show _ = .ready by simp [Threads.casPc, Threads.goto])]
    exact .retry (s := s.cas) (by simp [Threads.cas, Threads.casPc, ht]) hne

/-- The run of the loops, and the loop variable as the number of threads created. -/
theorem run_cas (hrun : Run (Start c) Step s tr) :
    Inv s ∧ Run (Cas.Start c) (Cas.Step (· + 1)) s.cas (tr.filterMap Event.cas) ∧
      tr.length = (tr.filterMap Event.cas).length + s.i := by
  induction hrun with
  | start h =>
    refine ⟨.start h, .start ⟨h.2.1, fun t => ?_⟩, by rw [h.1]; rfl⟩
    show Threads.casPc _ t = .ready
    rw [Threads.casPc, h.2.2 t]
  | @step s s' tr e _ hstep ih =>
    obtain ⟨hinv, hcas, hlen⟩ := ih
    refine ⟨hinv.step hstep, ?_, ?_⟩
    · obtain ⟨hnone, heq⟩ | ⟨e', hsome, hstep'⟩ := step_cas hinv hstep
      · rw [List.filterMap_cons_none hnone, heq]
        exact hcas
      · rw [List.filterMap_cons_some hsome]
        exact hcas.step hstep'
    · cases hstep with
      | newThread ht =>
        show tr.length + 1 = (tr.filterMap Event.cas).length + (s.i + 1)
        omega
      | load ht | swap ht | again ht hne =>
        show tr.length + 1 = (tr.filterMap Event.cas).length + 1 + s.i
        omega

/-! ### The ids -/

theorem iterate_add_one (c : BitVec 32) (k : Nat) : (· + 1)^[k] c = c + BitVec.ofNat 32 k := by
  induction k with
  | zero => simp
  | succ k ih => rw [Function.iterate_succ_apply', ih, BitVec.add_assoc, BitVec.ofNat_add]; rfl

/-- The threads that are past the loop, in the order in which they left it: the ids are the numbers from `c + 1` on. -/
structure Numbered (c : BitVec 32) (s : Threads n) (order : List (Fin n.toNat)) : Prop where
  nodup : order.Nodup
  mem : ∀ t, t ∈ order ↔ s.pc t = .started
  threadCounter : s.threadCounter = c + BitVec.ofNat 32 order.length
  tid : order.map s.tid = (List.range order.length).map fun i => c + BitVec.ofNat 32 (i + 1)

theorem run_numbered (hrun : Run (Start c) Step s tr) : ∃ order, Numbered c s order := by
  obtain ⟨-, hcas, -⟩ := run_cas hrun
  have horder := Cas.run_order hcas
  have hdone : ∀ t v, s.cas.pc t = .done v → s.pc t = .started ∧ s.tid t = v := by
    intro t v ht
    have ht' : s.casPc t = .done v := ht
    rw [Threads.casPc] at ht'
    split at ht'
    · cases ht'
    · cases ht'
    · cases ht'
    · exact ⟨‹_›, Cas.Pc.done.inj ht'⟩
  refine ⟨(Cas.swapped (tr.filterMap Event.cas)).reverse, ?_, fun t => ?_, ?_, ?_⟩
  · exact List.nodup_reverse.mpr horder.nodup
  · rw [List.mem_reverse]
    constructor
    · intro hmem
      obtain ⟨us, vs, hts⟩ := List.append_of_mem hmem
      exact (hdone t _ (horder.value us t vs hts)).1
    · intro ht
      exact horder.mem t (s.tid t) (by show s.casPc t = _; rw [Threads.casPc, ht])
  · rw [List.length_reverse, ← iterate_add_one]
    exact horder.cell
  · rw [List.length_reverse, horder.map_value fun t v ht => (hdone t v ht).2]
    simp only [iterate_add_one]

/-- **Every thread gets an id of its own**: under every schedule of the `n` threads the ids are handed out one by one
from `c + 1` on, no two threads have the same one, the loops take at most `n * n + n` steps, to which `create_threads` adds
one for each thread, and when nothing is left to do every thread has its id. -/
theorem createThreads_tids {n : BitVec 16} {c : BitVec 32} {s : Threads n} {tr : List (Event n)}
    (hrun : Run (Start c) Step s tr) :
    (∃ order, Numbered c s order) ∧
      (∀ t u, s.pc t = .started → s.pc u = .started → s.tid t = s.tid u → t = u) ∧
      ((tr.filterMap Event.cas).length ≤ n.toNat * n.toNat + n.toNat ∧
        tr.length ≤ n.toNat * n.toNat + 2 * n.toNat) ∧
      ((∀ e s', ¬ Step s e s') → ∀ t, s.pc t = .started) := by
  obtain ⟨hinv, hcas, hlen⟩ := run_cas hrun
  obtain ⟨order, horder⟩ := run_numbered hrun
  refine ⟨⟨order, horder⟩, ?_, ?_, ?_⟩
  · have hlength : order.length ≤ n.toNat := by
      have := horder.nodup.length_le_card
      rwa [Fintype.card_fin] at this
    have hnodup : (order.map s.tid).Nodup := by
      rw [horder.tid]
      refine List.Nodup.map_on (fun i hi j hj hij => ?_) List.nodup_range
      rw [List.mem_range] at hi hj
      have hn := n.isLt
      have hij' := congrArg BitVec.toNat ((BitVec.add_right_inj c).mp hij)
      simp only [BitVec.toNat_ofNat] at hij'
      rw [Nat.mod_eq_of_lt (by omega), Nat.mod_eq_of_lt (by omega)] at hij'
      omega
    intro t u ht hu htu
    exact List.inj_on_of_nodup_map hnodup ((horder.mem t).mpr ht) ((horder.mem u).mpr hu) htu
  · have hbound := Cas.run_length hcas
    have hi := hinv.bound
    rw [Fintype.card_fin] at hbound
    exact ⟨hbound, by omega⟩
  · intro hstuck t
    have hi : s.i = n.toNat := by
      by_contra hne
      exact hstuck _ _ (.newThread (t := ⟨s.i, lt_of_le_of_ne hinv.bound hne⟩) rfl)
    match ht : s.pc t with
    | .absent =>
      have := (hinv.absent t).mpr ht
      have := t.isLt
      omega
    | .load => exact absurd (.load ht) (hstuck _ _)
    | .test oldCounter =>
      by_cases hold : oldCounter = s.threadCounter
      · exact absurd (.swap (hold ▸ ht)) (hstuck _ _)
      · exact absurd (.again ht hold) (hstuck _ _)
    | .started => rfl

/-- The threads of `create_threads(2, …)`. -/
def first : Fin (BitVec.toNat (2 : BitVec 16)) := ⟨0, by decide⟩

def second : Fin (BitVec.toNat (2 : BitVec 16)) := ⟨1, by decide⟩

/-- Both load the same counter; the second swap fails, and the thread tries again. -/
theorem twoThreads_run : ∃ s : Threads 2, Run (Start 0) Step s [.swap second, .load second, .again second,
    .swap first, .load second, .load first, .newThread second, .newThread first] ∧ s.tid first = 1 ∧ s.tid second = 2 := by
  have hstart : Run (Start 0) Step
      ({ i := 0, threadCounter := 0, tid := fun _ => 0, pc := fun _ => .absent } : Threads 2) [] :=
    .start ⟨rfl, rfl, fun _ => rfl⟩
  have hcreated := (hstart.step (.newThread (t := first) rfl)).step (.newThread (t := second) rfl)
  have hloaded := (hcreated.step (.load (t := first) rfl)).step (.load (t := second) rfl)
  have hfailed := (hloaded.step (.swap (t := first) rfl)).step (.again (t := second) rfl (by decide))
  exact ⟨_, (hfailed.step (.load (t := second) rfl)).step (.swap (t := second) rfl), rfl, rfl⟩

theorem createThreads_tids_two : ∃ s : Threads 2, s.tid first = 1 ∧ s.tid second = 2 ∧ ∃ order, Numbered 0 s order := by
  obtain ⟨s, hrun, h1, h2⟩ := twoThreads_run
  exact ⟨s, h1, h2, (createThreads_tids hrun).1⟩

end Userspace.Thread

end LinuxFibers
