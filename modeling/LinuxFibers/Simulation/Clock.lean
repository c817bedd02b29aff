import LinuxFibers.Simulation.MainLoop
import LinuxFibers.Simulation.Order

/-!
# The clock of a cell

`ProcessEvent` schedules nothing before the event it processes, so the queue of a fiber is only ever filled forward. As
long as the queue is aligned when a node is taken from it, the events of a cell are executed in the order of their
timestamps (`mainLoop_in_order`).
-/

namespace LinuxFibers.Cell

open HeapTable Runs Outcomes Calqueue

/-- `Expent` returns no negative time: what an event schedules is not before the event. -/
def Draws.Later (d : Draws ℚ≥0) (msg : Msg ℚ≥0) : Prop :=
  msg.type ≠ init → msg.timestamp ≤ d.stampEnd ∧ msg.timestamp ≤ d.stampStart

instance (d : Draws ℚ≥0) (msg : Msg ℚ≥0) : Decidable (d.Later msg) := inferInstanceAs (Decidable (_ → _))

/-- A turn that schedules nothing in the past. -/
def MainLoop.TimedStep (id : Nat) (s : MainLoop) (msg : Msg ℚ≥0) (s' : MainLoop) : Prop :=
  s.left = false ∧ ∃ d, d.address ∉ s.heap.addrs ∧ d.Later msg ∧ turn id d s = .ok (msg, s')

theorem MainLoop.TimedStep.step {id : Nat} {s s' : MainLoop} {msg : Msg ℚ≥0} (h : s.TimedStep id msg s') :
    s.Step id msg s' := by
  obtain ⟨hleft, d, hfresh, -, hturn⟩ := h
  exact ⟨hleft, d, hfresh, hturn⟩

theorem start_ne_init : startCall ≠ init := by decide

theorem end_ne_init : endCall ≠ init := by decide

/-- What `ProcessEvent` puts into the queue carries a time that was drawn. -/
theorem processEvent_puts {τ : Type} {d : Draws τ} {msg : Msg τ} {state : Option LpState} {heap : Heap} :
    Yields (fun _ => True) (fun r => ∀ m ∈ r.put, m.type ≠ init ∧
      (m.timestamp = d.stampEnd ∧ msg.type ≠ init ∨ m.timestamp = d.stampStart)) (processEvent d msg state heap) := by
  rw [processEvent]
  by_cases htype : msg.type = init
  · rw [if_pos htype]
    intro m hm
    obtain rfl := List.mem_singleton.mp hm
    exact ⟨start_ne_init, .inr rfl⟩
  · rw [if_neg htype]
    cases state with
    | none =>
      simp only [Option.map_none]
      split <;> trivial
    | some p =>
      simp only [Option.map_some]
      split_ifs with hstart hend
      · rw [processStart]
        split
        · intro m hm
          obtain rfl := List.mem_singleton.mp hm
          exact ⟨start_ne_init, .inr rfl⟩
        · refine (allocation_complete d.address).bind fun r _ => ?_
          intro m hm
          obtain rfl | rfl : m = _ ∨ m = _ := by simpa using hm
          · exact ⟨end_ne_init, .inl ⟨rfl, htype⟩⟩
          · exact ⟨start_ne_init, .inr rfl⟩
      · rw [processEnd]
        refine (deallocation_complete msg.channel).bind fun r _ => ?_
        intro m hm
        cases hm
      · trivial

/-- A node lies at the time of its event, `INIT` at 0. -/
def Timed (x : CalqueueNode (Msg ℚ≥0)) : Prop :=
  (x.payload.type = init → x.priority = 0) ∧ (x.payload.type ≠ init → x.priority = x.payload.timestamp)

/-- The steps of the queue behind the turns of a fiber. -/
structure Filled (q : Calqueue (Msg ℚ≥0)) (tr : List (Msg ℚ≥0)) (qtr : List (Calqueue.Event (Msg ℚ≥0))) : Prop where
  run : Run Calqueue.Started (Guarded (AtGet Aligned) Calqueue.Step) q qtr
  forward : Forward qtr
  taken : (PriorityBag.removed qtr).map CalqueueNode.payload = tr
  timed : ∀ x ∈ PriorityBag.puts qtr, Timed x

theorem Filled.put {q p : Calqueue (Msg ℚ≥0)} {tr : List (Msg ℚ≥0)} {qtr : List (Calqueue.Event (Msg ℚ≥0))}
    {x : CalqueueNode (Msg ℚ≥0)} (h : Filled q tr qtr) (hput : q.put x = .ok p) (htimed : Timed x)
    (hlater : ∀ y ∈ (PriorityBag.removed qtr).head?, y.priority ≤ x.priority) : Filled p tr (.put x :: qtr) where
  run := h.run.step ⟨.put hput, trivial⟩
  forward := ⟨hlater, h.forward⟩
  taken := h.taken
  timed y hy := by
    obtain rfl | hy := List.mem_cons.mp hy
    · exact htimed
    · exact h.timed y hy

theorem Filled.schedule {q p : Calqueue (Msg ℚ≥0)} {tr : List (Msg ℚ≥0)} {qtr : List (Calqueue.Event (Msg ℚ≥0))}
    {msgs : List (Msg ℚ≥0)} (h : Filled q tr qtr) (hschedule : schedule q msgs = .ok p)
    (hmsgs : ∀ m ∈ msgs, m.type ≠ init ∧ ∀ y ∈ (PriorityBag.removed qtr).head?, y.priority ≤ m.timestamp) :
    ∃ qtr', Filled p tr qtr' := by
  induction msgs generalizing q qtr with
  | nil =>
    cases hschedule
    exact ⟨qtr, h⟩
  | cons m msgs ih =>
    rw [Cell.schedule, List.foldlM_cons] at hschedule
    obtain ⟨q', hput, hrest⟩ := bind_eq_ok.mp hschedule
    obtain ⟨htype, hlater⟩ := hmsgs m List.mem_cons_self
    have hm : Timed ⟨m.timestamp, m⟩ := ⟨fun h => absurd h htype, fun _ => rfl⟩
    exact ih (h.put hput hm hlater) hrest fun m' hm' => hmsgs m' (List.mem_cons_of_mem _ hm')

/-- A turn takes a node, processes its event and schedules what that leaves. -/
theorem turn_ok {id : Nat} {d : Draws ℚ≥0} {s s' : MainLoop} {msg : Msg ℚ≥0} (h : turn id d s = .ok (msg, s')) :
    ∃ node q r, s.queue.deq = .ok (some node, q) ∧ node.payload = msg ∧
      processEvent d msg s.state s.heap = .ok r ∧ schedule q r.put = .ok s'.queue := by
  rw [turn, Calqueue.get] at h
  cases hq : s.queue.deq with
  | error f =>
    simp only [hq, bind, Except.bind] at h
    cases h
  | ok out =>
    obtain ⟨node, q⟩ := out
    simp only [hq, bind, Except.bind] at h
    cases node with
    | none => cases h
    | some node =>
      simp only [Option.map_some] at h
      split at h
      · cases h
      · cases hr : processEvent d node.payload s.state s.heap with
        | error f =>
          simp only [hr] at h
          cases h
        | ok r =>
          simp only [hr] at h
          cases hp : schedule q r.put with
          | error f =>
            simp only [hp] at h
            cases h
          | ok p =>
            simp only [hp] at h
            cases h
            exact ⟨node, q, r, rfl, rfl, hr, hp⟩

/-- What is taken out of the queue was put into it. -/
theorem mem_puts_of_removed {q : Calqueue (Msg ℚ≥0)} {qtr : List (Calqueue.Event (Msg ℚ≥0))}
    (hrun : Run Calqueue.Started (Guarded (AtGet Aligned) Calqueue.Step) q qtr) {x : CalqueueNode (Msg ℚ≥0)}
    (hx : x ∈ PriorityBag.removed qtr) : x ∈ PriorityBag.puts qtr := by
  have hcontents := PriorityBag.contents (run_nodes hrun.of_guarded)
  rw [← Multiset.mem_coe, ← hcontents]
  exact Multiset.mem_add.mpr (.inr hx)

/-- The runs of a fiber whose queue is aligned at every turn. -/
abbrev AlignedRun (id : Nat) : MainLoop → List (Msg ℚ≥0) → Prop :=
  Run (MainLoop.Started id) (Guarded (fun s _ => s.queue.Aligned) (MainLoop.TimedStep id))

variable {id : Nat} {s : MainLoop} {tr : List (Msg ℚ≥0)}

theorem run_filled (hrun : AlignedRun id s tr) : ∃ qtr, Filled s.queue tr qtr := by
  refine hrun.invariant (P := fun s tr => ∃ qtr, Filled s.queue tr qtr) ?_ ?_
  · rintro s ⟨garbage, stamp, ch, heap, hstart⟩
    obtain ⟨q, hq, hput⟩ := bind_eq_ok.mp hstart
    obtain ⟨p, hp, hs⟩ := bind_eq_ok.mp hput
    cases hs
    have hempty : Filled q [] [] := ⟨.start ⟨garbage, hq⟩, trivial, rfl, fun x hx => by cases hx⟩
    exact ⟨_, hempty.put hp ⟨fun _ => rfl, fun h => absurd rfl h⟩ fun y hy => by cases hy⟩
  · rintro s tr msg s' - ⟨qtr, h⟩ ⟨⟨-, d, -, hlater, hturn⟩, haligned⟩
    obtain ⟨node, q, r, hdeq, rfl, hr, hschedule⟩ := turn_ok hturn
    have hget : Filled q (node.payload :: tr) (.get (some node) :: qtr) :=
      ⟨h.run.step ⟨.get hdeq, fun _ => haligned⟩, h.forward, congrArg (node.payload :: ·) h.taken, h.timed⟩
    have hnode : Timed node := h.timed node (mem_puts_of_removed hget.run List.mem_cons_self)
    refine hget.schedule hschedule fun m hm => ?_
    obtain ⟨htype, htime⟩ := processEvent_puts.of_ok hr m hm
    refine ⟨htype, fun y hy => ?_⟩
    obtain rfl : node = y := Option.some.inj hy
    by_cases hinit : node.payload.type = init
    · rw [hnode.1 hinit]
      exact zero_le
    · obtain ⟨hend, hstart⟩ := hlater hinit
      rw [hnode.2 hinit]
      obtain ⟨htime, -⟩ | htime := htime
      · rw [htime]
        exact hend
      · rw [htime]
        exact hstart

/-- **Time does not run backwards in a cell.** In every run of a fiber whose draws are not negative and whose queue is
aligned at each turn, the events are executed in the order of their timestamps, those of one time in some order. -/
theorem mainLoop_in_order (hrun : AlignedRun id s tr) :
    (tr.filter fun msg => msg.type ≠ init).Pairwise fun a b => b.timestamp ≤ a.timestamp := by
  obtain ⟨qtr, h⟩ := run_filled hrun
  have hsorted := Calqueue.removed_sorted (run_aligned h.run h.forward).1 h.forward
  rw [← h.taken, List.pairwise_filter, List.pairwise_map]
  refine hsorted.imp_of_mem fun {a b} ha hb hle hta htb => ?_
  have hatime := (h.timed a (mem_puts_of_removed h.run ha)).2 (of_decide_eq_true hta)
  have hbtime := (h.timed b (mem_puts_of_removed h.run hb)).2 (of_decide_eq_true htb)
  rw [← hatime, ← hbtime]
  exact hle

/-- The first three turns of cell 1, with the queue aligned at each. -/
def alignedCall : Option (MainLoop × List (Msg ℚ≥0)) :=
  match mainLoopStart 1 zeroed 0 0 [] with
  | .ok s => callDraws.foldlM (perform 1 fun s d msg => decide s.queue.Aligned && decide (d.Later msg)) (s, [])
  | .error _ => none

theorem alignedCall_times : alignedCall.map (fun x => (x.2.filter fun msg => msg.type ≠ init).map Msg.timestamp) =
    some [6, 5] := by
  decide +kernel

theorem mainLoop_in_order_call : ∃ (s : MainLoop) (tr : List (Msg ℚ≥0)), AlignedRun 1 s tr ∧
    (tr.filter fun msg => msg.type ≠ init).map Msg.timestamp = [6, 5] ∧
    (tr.filter fun msg => msg.type ≠ init).Pairwise fun a b => b.timestamp ≤ a.timestamp := by
  obtain ⟨⟨s, tr⟩, hcall, htimes⟩ := Option.map_eq_some_iff.mp alignedCall_times
  rw [alignedCall] at hcall
  cases hstart : mainLoopStart 1 zeroed 0 0 [] with
  | error f =>
    rw [hstart] at hcall
    cases hcall
  | ok s₀ =>
    rw [hstart] at hcall
    have hrun : AlignedRun 1 s tr := by
      refine run_perform (fun s d msg s' hleft hfresh hturn hcheck => ?_) (.start ⟨zeroed, 0, 0, [], hstart⟩) hcall
      obtain ⟨haligned, hlater⟩ := Bool.and_eq_true_iff.mp hcheck
      exact ⟨⟨hleft, d, hfresh, of_decide_eq_true hlater, hturn⟩, of_decide_eq_true haligned⟩
    exact ⟨s, tr, hrun, htimes, mainLoop_in_order hrun⟩

end LinuxFibers.Cell
