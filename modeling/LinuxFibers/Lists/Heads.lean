import LinuxFibers.Lists.Refine
import LinuxFibers.Lists.Suffix

/-!
# The head is read before the lock

`Lista_Processi` is read where `lista_processi_iter` is declared, before the operation takes the lock, and the walk starts
at the node that was the head then. In the meantime other threads may run whole operations. `heads_refine`: as long as
nobody opens the device for a process one of whose threads is between the two, or releases a node that such a thread has
read, every operation does what it would do if it read the head under the lock.

* A node of the list of processes has an address, which `kmalloc` may hand out again after the node was freed.
* `fib_open` and `fib_release` read the head under the lock. The handler for a thread that exits, which does not take the
  lock, is left out.
-/

namespace LinuxFibers.Lists

open Outcomes Runs
open Function (update update_self update_of_ne)

/-! ### The threads -/

/-- The list with the addresses of its nodes, and the operation each thread is in, with the head it has read. -/
structure Threads where
  state : State
  addrs : List Nat
  entered : Task → Option (Op × Option Nat)

/-- The place in the list that a pointer points to; `NULL` is behind the last node. -/
def position (addrs : List Nat) : Option Nat → Option Nat
  | none => some addrs.length
  | some a => (walk (fun b => b = a) addrs).map Prod.fst

/-- The operation from the lock on, with the walk from the head that was read. -/
def stepFrom (P : Printer) (op : Op) (head : Option Nat) (x : Threads) : Except Stop (State × Option Int) :=
  match position x.addrs head with
  | none => do
    let _ ← spinLock x.state
    .error (.fault .danglingPointer)
  | some k => do
    let (s, out) ← step P op { x.state with listaProcessi := x.state.listaProcessi.drop k }
    .ok (s.prepend (x.state.listaProcessi.take k), out)

/-- What a thread does: it enters an operation and reads the head, goes through with the operation, or makes a call that
reads nothing beforehand. -/
inductive Moment
  | enter (t : Task) (op : Op)
  | finish (t : Task) (op : Op) (out : Option Int)
  | fibOpen (c : Task) (ret : Int)
  | fibRelease (c : Task) (ret : Int)
  | user (c : Task) (cpu : Cpu)

/-- The calls as the driver makes them. -/
def Moment.visible : Moment → Option Event
  | .enter _ _ => none
  | .finish _ op out => some ⟨.driver op, out⟩
  | .fibOpen c ret => some ⟨.driver (.fibOpen c), some ret⟩
  | .fibRelease c ret => some ⟨.fibRelease c, some ret⟩
  | .user c cpu => some ⟨.user c cpu, none⟩

namespace Threads

def Start (x : Threads) : Prop := Init x.state ∧ x.addrs = [] ∧ ∀ t, x.entered t = none

inductive Step (P : Printer) : Threads → Moment → Threads → Prop
  | enter {x : Threads} {t : Task} {op : Op} (hidle : x.entered t = none) (hpid : t.pid ≠ 0)
      (hcaller : ∀ c ∈ op.caller, c = t) (hop : ∀ c, op ≠ .fibOpen c) :
      Step P x (.enter t op) { x with entered := update x.entered t (some (op, x.addrs.head?)) }
  | finish {x : Threads} {t : Task} {op : Op} {head : Option Nat} {s : State} {out : Option Int}
      (hat : x.entered t = some (op, head)) (hok : stepFrom P op head x = .ok (s, out)) :
      Step P x (.finish t op out) { x with state := s, entered := update x.entered t none }
  | fibOpen {x : Threads} {c : Task} {a : Nat} {s : State} {ret : Int} (hidle : x.entered c = none) (hpid : c.pid ≠ 0)
      (hnew : a ∉ x.addrs) (hok : LinuxFibers.Lists.fibOpen c x.state = .ok (s, ret)) :
      Step P x (.fibOpen c ret) { x with state := s, addrs := a :: x.addrs }
  | fibRelease {x : Threads} {c : Task} {i : Nat} {p : FiberProcessi} {s : State} {ret : Int}
      (hidle : x.entered c = none) (hpid : c.pid ≠ 0) (hp : x.state.findProcesso c.tgid = some (i, p))
      (hok : LinuxFibers.Lists.fibRelease c x.state = .ok (s, ret)) :
      Step P x (.fibRelease c ret) { x with state := s, addrs := x.addrs.eraseIdx i }
  | user {x : Threads} {c : Task} {cpu : Cpu} (hidle : x.entered c = none) (hpid : c.pid ≠ 0) :
      Step P x (.user c cpu) { x with state := x.state.setCpu c cpu }

/-- No process gets a node, and none loses one, that a thread past its read of the head would miss. -/
def Calm (x : Threads) : Moment → Prop
  | .fibOpen c _ => ∀ t op head, x.entered t = some (op, head) → op.tgid ≠ c.tgid
  | .fibRelease c _ => ∀ i p t op a, x.state.findProcesso c.tgid = some (i, p) → x.entered t = some (op, some a) →
      x.addrs[i]? ≠ some a
  | _ => True

end Threads

/-! ### Positions -/

section position

variable {addrs : List Nat} {head : Option Nat} {a b i k : Nat} {ids : List Int}

theorem position_head : position addrs addrs.head? = some 0 := by
  cases addrs with
  | nil => rfl
  | cons a l =>
    rw [List.head?_cons, position, walk, if_pos (decide_eq_true rfl)]
    rfl

theorem position_some (h : addrs.Nodup) : position addrs (some a) = some k ↔ addrs[k]? = some a := by
  constructor
  · intro hk
    obtain ⟨⟨j, b⟩, hj, rfl⟩ := Option.map_eq_some_iff.mp hk
    obtain ⟨u, w, rfl, rfl, hb, -⟩ := walk_eq_some.mp hj
    obtain rfl : b = a := of_decide_eq_true hb
    simp
  · intro hk
    obtain ⟨u, w, rfl, rfl⟩ := split_of_getElem? hk
    have hu : a ∉ u := fun ha => (List.disjoint_of_nodup_append h) ha List.mem_cons_self
    have hwalk : walk (fun b => b = a) (u ++ a :: w) = some (u.length, a) := by
      refine walk_eq_some.mpr ⟨u, w, rfl, rfl, decide_eq_true rfl, fun b hb => decide_eq_false ?_⟩
      rintro rfl
      exact hu hb
    rw [position, hwalk]
    rfl

/-- A node is linked at the head. -/
theorem position_cons (h : (b :: addrs).Nodup) (hk : position addrs head = some k) :
    position (b :: addrs) head = some (k + 1) := by
  cases head with
  | none =>
    obtain rfl := Option.some.inj hk
    rfl
  | some a =>
    rw [position_some h, List.getElem?_cons_succ]
    exact (position_some (List.nodup_cons.mp h).2).mp hk

/-- A node other than the one pointed to is unlinked; none comes before that one which did not before. -/
theorem position_eraseIdx (h : addrs.Nodup) (hlen : addrs.length = ids.length) (hi : i < addrs.length)
    (hk : position addrs head = some k) (hne : ∀ a, head = some a → addrs[i]? ≠ some a) :
    ∃ k', position (addrs.eraseIdx i) head = some k' ∧ ∀ id ∈ (ids.eraseIdx i).take k', id ∈ ids.take k := by
  have h' : (addrs.eraseIdx i).Nodup := h.sublist (List.eraseIdx_sublist _ _)
  cases head with
  | none =>
    obtain rfl := Option.some.inj hk
    refine ⟨_, rfl, fun id hid => ?_⟩
    rw [hlen, List.take_length]
    exact List.mem_of_mem_eraseIdx (List.mem_of_mem_take hid)
  | some a =>
    rw [position_some h] at hk
    have hik : i ≠ k := by
      rintro rfl
      exact hne a rfl hk
    by_cases hlt : i < k
    · refine ⟨k - 1, ?_, fun id hid => ?_⟩
      · rw [position_some h', List.getElem?_eraseIdx, if_neg (by omega), Nat.sub_add_cancel (by omega)]
        exact hk
      · obtain ⟨j, hj, rfl⟩ := List.mem_take_iff_getElem.mp hid
        rw [List.getElem_eraseIdx]
        split
        · exact List.mem_take_iff_getElem.mpr ⟨j, by omega, rfl⟩
        · have hlength : (ids.eraseIdx i).length = ids.length - 1 := List.length_eraseIdx_of_lt (by omega)
          exact List.mem_take_iff_getElem.mpr ⟨j + 1, by omega, rfl⟩
    · refine ⟨k, ?_, fun id hid => ?_⟩
      · rw [position_some h', List.getElem?_eraseIdx, if_pos (by omega)]
        exact hk
      · rwa [List.take_eraseIdx_eq_take_of_le _ _ _ (by omega)] at hid

end position

/-! ### The walk from the head that was read -/

section step

variable {P : Printer} {x x' : Threads} {op : Op} {head : Option Nat} {k : Nat} {s s' : State} {c : Task} {ret : Int}

/-- Nothing of the process lies before the node that is pointed to. -/
theorem stepFrom_eq (hop : ∀ c, op ≠ .fibOpen c) (hk : position x.addrs head = some k)
    (hbefore : ∀ id ∈ x.state.ids.take k, id ≠ op.tgid) : stepFrom P op head x = step P op x.state ∧
      ∀ s out, step P op x.state = .ok (s, out) → s.ids = x.state.ids := by
  obtain ⟨u, hu⟩ : ∃ u, x.state.listaProcessi.take k = u := ⟨_, rfl⟩
  obtain ⟨t, ht⟩ : ∃ t, { x.state with listaProcessi := x.state.listaProcessi.drop k } = t := ⟨_, rfl⟩
  have hwhole : t.prepend u = x.state := by
    rw [← ht, ← hu]
    exact congrArg (fun l => State.mk l _ _) (List.take_append_drop _ _)
  have hne : ∀ p ∈ u, p.id ≠ op.tgid := by
    intro p hp
    refine hbefore p.id ?_
    rw [State.ids, ← List.map_take, hu]
    exact List.mem_map_of_mem hp
  have hbehind := step_behind (P := P) (s := t) hop hne
  rw [hwhole] at hbehind
  rw [stepFrom, hk]
  simp only [ht, hu]
  cases hstep : step P op t with
  | error e =>
    rw [hstep] at hbehind
    have hsame : step P op x.state = .error e := hbehind
    rw [hsame]
    exact ⟨rfl, fun _ _ h => by cases h⟩
  | ok r =>
    obtain ⟨s, out⟩ := r
    rw [hstep] at hbehind
    obtain ⟨hsame, hkept⟩ := hbehind
    rw [hsame]
    refine ⟨rfl, fun s' out' h => ?_⟩
    obtain ⟨rfl, rfl⟩ := Prod.mk.inj (Except.ok.inj h)
    rw [← hwhole]
    show (u ++ s.listaProcessi).map _ = (u ++ t.listaProcessi).map _
    rw [List.map_append, List.map_append]
    exact congrArg _ (ids_kept hkept)

theorem fibOpen_ids (hok : fibOpen c s = .ok (s', ret)) : s'.ids = c.tgid :: s.ids := by
  rw [State.ids, fibOpen_lists hok]
  rfl

theorem fibRelease_ids {i : Nat} {p : FiberProcessi} (hp : s.findProcesso c.tgid = some (i, p))
    (hok : fibRelease c s = .ok (s', ret)) : s'.ids = s.ids.eraseIdx i := by
  obtain ⟨k, q, hq, hlists⟩ := fibRelease_lists hok
  obtain ⟨rfl, -⟩ := Prod.mk.inj (Option.some.inj (hp.symm.trans hq))
  rw [State.ids, State.ids, hlists, List.eraseIdx_map]

/-! ### Runs -/

/-- Every thread in an operation points to a node of the list, or behind the last one, with no node of the process it
looks for before it. -/
structure Threads.Linked (x : Threads) : Prop where
  length : x.addrs.length = x.state.ids.length
  nodup : x.addrs.Nodup
  ahead : ∀ t op head, x.entered t = some (op, head) → (∀ c, op ≠ .fibOpen c) ∧ (∀ c ∈ op.caller, c.pid ≠ 0) ∧
    ∃ k, position x.addrs head = some k ∧ ∀ id ∈ x.state.ids.take k, id ≠ op.tgid

theorem Threads.Linked.start (h : x.Start) : x.Linked := by
  obtain ⟨⟨hempty, -⟩, haddrs, hidle⟩ := h
  refine ⟨?_, ?_, fun t op head hat => ?_⟩
  · rw [haddrs, State.ids, hempty]
    rfl
  · rw [haddrs]
    exact List.nodup_nil
  · rw [hidle t] at hat
    cases hat

/-- A step of one thread, seen as a call of the driver. -/
theorem Threads.Linked.step {e : Moment} (h : x.Linked) (hcalm : x.Calm e) (hstep : Threads.Step P x e x') :
    x'.Linked ∧ ((e.visible = none ∧ x'.state = x.state) ∨
      ∃ call, e.visible = some call ∧ Performs P x.state call x'.state) := by
  cases hstep with
  | @enter t op hidle hpid hcaller hop =>
    refine ⟨⟨h.length, h.nodup, fun u op' head hat => ?_⟩, .inl ⟨rfl, rfl⟩⟩
    by_cases hu : u = t
    · subst hu
      have hat' : update x.entered u (some (op, x.addrs.head?)) u = some (op', head) := hat
      rw [update_self] at hat'
      obtain ⟨rfl, rfl⟩ := Prod.mk.inj (Option.some.inj hat')
      refine ⟨hop, fun c hc => ?_, 0, position_head, fun id hid => absurd hid List.not_mem_nil⟩
      rw [hcaller c hc]
      exact hpid
    · exact h.ahead u op' head ((update_of_ne hu _ _).symm.trans hat)
  | @finish t op head s out hat hok =>
    obtain ⟨hop, hcaller, k, hk, hbefore⟩ := h.ahead t op head hat
    obtain ⟨hsame, hids⟩ := stepFrom_eq (P := P) hop hk hbefore
    rw [hsame] at hok
    have hids := hids s out hok
    refine ⟨⟨?_, h.nodup, fun u op' head' hat' => ?_⟩, .inr ⟨_, rfl, hok, hcaller⟩⟩
    · rw [h.length, ← hids]
    · have hne : u ≠ t := by
        rintro rfl
        cases (update_self _ _ _).symm.trans hat'
      show _ ∧ _ ∧ ∃ k, _ ∧ ∀ id ∈ s.ids.take k, _
      rw [hids]
      exact h.ahead u op' head' ((update_of_ne hne _ _).symm.trans hat')
  | @fibOpen c a s ret hidle hpid hnew hok =>
    have hids := fibOpen_ids hok
    have hnodup : (a :: x.addrs).Nodup := List.nodup_cons.mpr ⟨hnew, h.nodup⟩
    refine ⟨⟨?_, hnodup, fun t op head hat => ?_⟩, .inr ⟨_, rfl, ?_, ?_⟩⟩
    · show (a :: x.addrs).length = s.ids.length
      rw [hids, List.length_cons, List.length_cons, h.length]
    · obtain ⟨hop, hcaller, k, hk, hbefore⟩ := h.ahead t op head hat
      refine ⟨hop, hcaller, k + 1, position_cons hnodup hk, fun id hid => ?_⟩
      have hid' : id ∈ s.ids.take (k + 1) := hid
      rw [hids, List.take_succ_cons] at hid'
      obtain rfl | hid' := List.mem_cons.mp hid'
      · exact Ne.symm (hcalm t op head hat)
      · exact hbefore id hid'
    · rw [perform, Lists.step, hok]
      rfl
    · rintro _ ⟨⟩
      exact hpid
  | @fibRelease c i p s ret hidle hpid hp hok =>
    have hids := fibRelease_ids hp hok
    obtain ⟨u, w, hl, rfl, -⟩ := walk_eq_some.mp hp
    have hi : u.length < x.addrs.length := by
      rw [h.length, State.ids, List.length_map, hl, List.length_append, List.length_cons]
      omega
    refine ⟨⟨?_, h.nodup.sublist (List.eraseIdx_sublist _ _), fun t op head hat => ?_⟩,
      .inr ⟨_, rfl, ?_, ?_⟩⟩
    · show (x.addrs.eraseIdx u.length).length = s.ids.length
      rw [hids, List.length_eraseIdx_of_lt hi, List.length_eraseIdx_of_lt (h.length ▸ hi), h.length]
    · obtain ⟨hop, hcaller, k, hk, hbefore⟩ := h.ahead t op head hat
      obtain ⟨k', hk', hmem⟩ := position_eraseIdx h.nodup h.length hi hk fun a ha => hcalm u.length p t op a hp (ha ▸ hat)
      refine ⟨hop, hcaller, k', hk', fun id hid => ?_⟩
      have hid' : id ∈ s.ids.take k' := hid
      rw [hids] at hid'
      exact hbefore id (hmem id hid')
    · rw [perform, hok]
      rfl
    · rintro _ ⟨⟩
      exact hpid
  | @user c cpu hidle hpid =>
    refine ⟨⟨h.length, h.nodup, h.ahead⟩, .inr ⟨_, rfl, rfl, ?_⟩⟩
    rintro _ ⟨⟩
    exact hpid

/-- **The head may be read before the lock.** In every run, however the threads interleave, in which nobody opens the
device for a process with a thread between its read of the head and the lock, and nobody releases a node that such a
thread has read: the calls are those of a run of the driver in which they come one after the other, the machine has taken
them as its steps, and whatever a waiting thread will do once it has the lock, a fault included, it would do as well from
the head of the moment. -/
theorem heads_refine {tr : List Moment} (hrun : Run Threads.Start (Guarded Threads.Calm (Threads.Step P)) x tr) :
    Run Init (Performs P) x.state (tr.filterMap Moment.visible) ∧
      Run Machine.Start Machine.Step x.state.machine (tr.filterMap Moment.visible) ∧
      ∀ t op head, x.entered t = some (op, head) → stepFrom P op head x = step P op x.state := by
  have hcalls : ∃ s, (x.Linked ∧ x.state = s) ∧ Run Init (Performs P) s (tr.filterMap Moment.visible) := by
    refine hrun.simulate_visible (R := fun x s => x.Linked ∧ x.state = s)
      (fun x hx => ⟨x.state, hx.1, .start hx, rfl⟩) ?_
    rintro x e x' _ ⟨hlinked, rfl⟩ ⟨hstep, hcalm⟩
    obtain ⟨hlinked', hcall⟩ := hlinked.step hcalm hstep
    exact ⟨x'.state, ⟨hlinked', rfl⟩, hcall⟩
  obtain ⟨s, ⟨hlinked, rfl⟩, hcalls⟩ := hcalls
  refine ⟨hcalls, (lists_refine hcalls).2, fun t op head hat => ?_⟩
  obtain ⟨hop, -, k, hk, hbefore⟩ := hlinked.ahead t op head hat
  exact (stepFrom_eq hop hk hbefore).1

end step

/-- Process 1 opens the device, a thread of it enters `fib_convert` and reads the head, process 2 opens the device, and
the thread goes through with its call. -/
theorem heads_refine_opened : ∃ (x : Threads) (tr : List Moment), tr.length = 4 ∧
    Run Init (Performs ⟨fun _ => [], BitVec.ofInt 64⟩) x.state (tr.filterMap Moment.visible) := by
  have hcaller : ∀ c ∈ some (⟨1, 1⟩ : Task), c = ⟨1, 1⟩ := by
    rintro c ⟨⟩
    rfl
  have hstart : Threads.Start ⟨{ listaProcessi := [], lockListaProcessi := false, cpu := fun _ => {} }, [], fun _ => none⟩ :=
    ⟨⟨rfl, rfl⟩, rfl, fun _ => rfl⟩
  have hopen : Run Threads.Start (Guarded Threads.Calm (Threads.Step ⟨fun _ => [], BitVec.ofInt 64⟩)) _ [_] :=
    .step (.start hstart) (⟨.fibOpen (a := 10) rfl (by decide) List.not_mem_nil rfl, fun _ _ _ h => by cases h⟩ :
      Guarded _ (Threads.Step _) _ (.fibOpen ⟨1, 1⟩ 0) _)
  have henter := hopen.step (⟨.enter rfl (by decide) hcaller (fun _ => Op.noConfusion), trivial⟩ :
    Guarded Threads.Calm (Threads.Step _) _ (.enter ⟨1, 1⟩ (.fibConvert ⟨1, 1⟩ ⟨0, 5⟩)) _)
  have hother := henter.step (⟨.fibOpen (a := 20) rfl (by decide) (by decide) rfl, ?_⟩ :
    Guarded Threads.Calm (Threads.Step _) _ (.fibOpen ⟨2, 2⟩ 0) _)
  · have hfinish := hother.step (⟨.finish rfl rfl, trivial⟩ :
      Guarded Threads.Calm (Threads.Step _) _ (.finish ⟨1, 1⟩ (.fibConvert ⟨1, 1⟩ ⟨0, 5⟩) (some 1)) _)
    exact ⟨_, _, rfl, (heads_refine hfinish).1⟩
  · intro t op head hat
    by_cases ht : t = ⟨1, 1⟩
    · subst ht
      have hat' : some (Op.fibConvert ⟨1, 1⟩ ⟨0, 5⟩, some 10) = some (op, head) := hat
      obtain ⟨rfl, rfl⟩ := Prod.mk.inj (Option.some.inj hat')
      decide
    · cases (update_of_ne ht _ _).symm.trans hat

/-- Thread 2 reads the head, process 1 releases that node, and the walk of thread 2 starts at a block that was freed,
though its own process is in the list all the time. -/
theorem released_head_dangles : ∃ (x : Threads) (tr : List Moment) (op : Op) (head : Option Nat),
    Run Threads.Start (Threads.Step ⟨fun _ => [], BitVec.ofInt 64⟩) x tr ∧ x.entered ⟨2, 2⟩ = some (op, head) ∧
      (∃ i p, x.state.findProcesso op.tgid = some (i, p)) ∧
      stepFrom ⟨fun _ => [], BitVec.ofInt 64⟩ op head x = .error (.fault .danglingPointer) := by
  have hcaller : ∀ c ∈ some (⟨2, 2⟩ : Task), c = ⟨2, 2⟩ := by
    rintro c ⟨⟩
    rfl
  have hstart : Threads.Start ⟨{ listaProcessi := [], lockListaProcessi := false, cpu := fun _ => {} }, [], fun _ => none⟩ :=
    ⟨⟨rfl, rfl⟩, rfl, fun _ => rfl⟩
  have hopen : Run Threads.Start (Threads.Step ⟨fun _ => [], BitVec.ofInt 64⟩) _ [_] :=
    .step (.start hstart) (.fibOpen (a := 20) rfl (by decide) List.not_mem_nil rfl : Threads.Step _ _ (.fibOpen ⟨2, 2⟩ 0) _)
  have hother := hopen.step (.fibOpen (a := 10) rfl (by decide) (by decide) rfl :
    Threads.Step _ _ (.fibOpen ⟨1, 1⟩ 0) _)
  have henter := hother.step (.enter rfl (by decide) hcaller (fun _ => Op.noConfusion) :
    Threads.Step _ _ (.enter ⟨2, 2⟩ (.fibConvert ⟨2, 2⟩ ⟨0, 5⟩)) _)
  have hrelease := henter.step (.fibRelease rfl (by decide) rfl rfl : Threads.Step _ _ (.fibRelease ⟨1, 1⟩ 0) _)
  exact ⟨_, _, _, _, hrelease, rfl, ⟨_, _, rfl⟩, rfl⟩

end LinuxFibers.Lists
