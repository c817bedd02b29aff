import LinuxFibers.Simulation.Cell
import LinuxFibers.Simulation.Operations

/-!
# A fiber of the testbed

`main_loop` of `main.c` over the calendar queue: the fiber puts `INIT` into its queue, and takes event after event out
of it until one of them completes the last call. `mainLoop_completes` says what becomes of every such fiber: nothing but
the arithmetic of the queue can stop it, and it leaves the loop with exactly `COMPLETE_CALLS` calls completed.

* The queue and the state of the cell, which the fiber keeps in fiber-local storage, are two variables here.
* The channels of a cell lie in a heap of their own, and `malloc` succeeds.
-/

namespace LinuxFibers.Cell

open HeapTable Dlist Runs Outcomes Calqueue

/-- A fiber between two events; `left` is the `break`. -/
structure MainLoop where
  queue : Calqueue (Msg ℚ≥0)
  state : Option LpState
  heap : Heap
  left : Bool

/-- How the loop ends otherwise. -/
inductive Stop
  | queue (f : CalqueueFault)
  | noEvents
  | wrongReceiver
  | model (f : Failure)

/-- The events that `ProcessEvent` schedules, each at its timestamp. -/
def schedule (q : Calqueue (Msg ℚ≥0)) (msgs : List (Msg ℚ≥0)) : Except CalqueueFault (Calqueue (Msg ℚ≥0)) :=
  msgs.foldlM (fun q msg => q.put ⟨msg.timestamp, msg⟩) q

/-- `main_loop` up to the loop; the timestamp and the channel of `INIT` are what `malloc` returned. -/
def mainLoopStart (id : Nat) (garbage : Calqueue (Msg ℚ≥0)) (stamp : ℚ≥0) (ch : Int) (heap : Heap) :
    Except CalqueueFault MainLoop := do
  let q ← garbage.init
  let q ← q.put ⟨0, packEvent id init stamp ch⟩
  .ok { queue := q, state := none, heap, left := false }

/-- One turn of the loop, with the event it processes. -/
def turn (id : Nat) (d : Draws ℚ≥0) (s : MainLoop) : Except Stop (Msg ℚ≥0 × MainLoop) :=
  match s.queue.get with
  | .error f => .error (.queue f)
  | .ok (none, _) => .error .noEvents
  | .ok (some event, q) =>
    if event.receiver ≠ id then .error .wrongReceiver
    else
      match processEvent d event s.state s.heap with
      | .error f => .error (.model f)
      | .ok r =>
        match schedule q r.put with
        | .error f => .error (.queue f)
        | .ok q => .ok (event, {
            queue := q
            state := some r.state
            heap := r.heap
            left := decide (event.type ≠ init ∧ r.ret ≠ 0) })

namespace MainLoop

def Started (id : Nat) (s : MainLoop) : Prop := ∃ garbage stamp ch heap, mainLoopStart id garbage stamp ch heap = .ok s

def Step (id : Nat) (s : MainLoop) (msg : Msg ℚ≥0) (s' : MainLoop) : Prop :=
  s.left = false ∧ ∃ d, d.address ∉ s.heap.addrs ∧ turn id d s = .ok (msg, s')

/-- The fiber with a bag for its queue. -/
def toLoop (s : MainLoop) : Loop ℚ≥0 :=
  { state := s.state, heap := s.heap, pending := s.queue.nodes.map CalqueueNode.payload }

end MainLoop

/-! ### The queue as a bag -/

theorem foldr_cons {α : Type} (l : List α) (B : Multiset α) : l.foldr Multiset.cons B = (l : Multiset α) + B := by
  induction l with
  | nil => rw [List.foldr_nil, Multiset.coe_nil, zero_add]
  | cons a l ih => rw [List.foldr_cons, ih, ← Multiset.cons_coe, Multiset.cons_add]

/-- What is scheduled is in the queue. -/
theorem schedule_yields {q : Calqueue (Msg ℚ≥0)} (h : q.Wf) (msgs : List (Msg ℚ≥0)) :
    Yields CalqueueFault.Excluded (fun p => p.Wf ∧
      p.nodes.map CalqueueNode.payload = msgs.foldr Multiset.cons (q.nodes.map CalqueueNode.payload))
      (schedule q msgs) := by
  induction msgs generalizing q with
  | nil => exact ⟨h, rfl⟩
  | cons msg msgs ih =>
    rw [schedule, List.foldlM_cons]
    refine (put_yields h).bind ?_
    rintro p ⟨hwf, hnodes, -⟩
    refine (ih hwf).mono ?_
    rintro p' ⟨hwf', hpending⟩
    refine ⟨hwf', ?_⟩
    rw [hpending, hnodes, Multiset.map_cons, foldr_cons, foldr_cons, ← Multiset.cons_coe, Multiset.cons_add,
      Multiset.add_cons]

/-- The loop is entered with `INIT` in the queue. -/
theorem started_spec {id : Nat} {s : MainLoop} (h : s.Started id) :
    s.queue.Wf ∧ Init id s.toLoop ∧ s.left = false := by
  obtain ⟨garbage, stamp, ch, heap, hstart⟩ := h
  obtain ⟨q, hq, hput⟩ := bind_eq_ok.mp hstart
  obtain ⟨p, hp, hs⟩ := bind_eq_ok.mp hput
  obtain ⟨hwf, -, hnodes, -⟩ := init_yields.of_ok hq
  obtain ⟨hwf', hnodes', -⟩ := (put_yields hwf).of_ok hp
  cases hs
  refine ⟨hwf', ⟨rfl, stamp, ch, ?_⟩, rfl⟩
  show p.nodes.map CalqueueNode.payload = _
  rw [hnodes', hnodes, Multiset.map_cons]
  rfl

/-- While the views of the channels agree something is pending, and whatever is pending can be processed. -/
theorem Inv.next {τ : Type} {id : Nat} {s : Loop τ} {tr : List (Msg τ)} (h : Inv id s tr) :
    s.pending ≠ 0 ∧ ∀ msg ∈ s.pending, msg.receiver = id ∧
      ∀ d : Draws τ, d.address ∉ s.heap.addrs → ∃ r, processEvent d msg s.state s.heap = .ok r := by
  obtain ⟨-, hnone, stamp, ch, hinit⟩ | ⟨p, l, hstate, hsound⟩ := h
  · rw [hinit, hnone]
    refine ⟨Multiset.singleton_ne_zero _, fun msg hmsg => ?_⟩
    obtain rfl := Multiset.mem_singleton.mp hmsg
    exact ⟨rfl, fun d _ => ⟨_, processEvent_init rfl⟩⟩
  · refine ⟨fun hempty => ?_, fun msg hmsg => ⟨(hsound.known msg hmsg).1, fun d hfresh => ?_⟩⟩
    · have hstart := hsound.start
      rw [hempty] at hstart
      cases hstart
    · obtain ⟨rest, hpending⟩ := Multiset.exists_cons_of_mem hmsg
      rw [hpending] at hsound
      obtain ⟨r, -, hok, -⟩ := processEvent_sound hsound hfresh
      rw [hstate]
      exact ⟨r, hok⟩

/-- **A turn is an event taken from a bag and processed**, or a fault in the arithmetic of the queue. -/
theorem turn_yields {id : Nat} {s : MainLoop} {tr : List (Msg ℚ≥0)} {d : Draws ℚ≥0} (hwf : s.queue.Wf)
    (hinv : Inv id s.toLoop tr) (hfresh : d.address ∉ s.heap.addrs) :
    Yields (fun stop => ∃ f, stop = .queue f ∧ f.Excluded)
      (fun r => r.2.queue.Wf ∧ Step s.toLoop r.1 r.2.toLoop ∧
        ∃ r', processEvent d r.1 s.state s.heap = .ok r' ∧ r.2.state = some r'.state ∧
          r.2.left = decide (r.1.type ≠ init ∧ r'.ret ≠ 0)) (turn id d s) := by
  obtain ⟨hpending, hnext⟩ := hinv.next
  have hdeq := deq_yields hwf
  rw [turn, Calqueue.get]
  cases hq : s.queue.deq with
  | error f =>
    rw [hq] at hdeq
    exact ⟨f, rfl, hdeq⟩
  | ok out =>
    rw [hq] at hdeq
    obtain ⟨hempty, -⟩ | ⟨i, top, e, rest, -, -, -, hout, hwf', hnodes, -⟩ := hdeq
    · exact absurd (congrArg (Multiset.map CalqueueNode.payload) hempty) hpending
    · have htaken : s.toLoop.pending = e.payload ::ₘ out.2.nodes.map CalqueueNode.payload := by
        show s.queue.nodes.map CalqueueNode.payload = _
        rw [hnodes, Multiset.map_cons]
      obtain ⟨hreceiver, hprocess⟩ := hnext e.payload (by rw [htaken]; exact Multiset.mem_cons_self _ _)
      obtain ⟨r, hr⟩ := hprocess d hfresh
      have hr' : processEvent d e.payload s.state s.heap = .ok r := hr
      simp only [bind, Except.bind, hout, Option.map_some, hreceiver, ne_eq, not_true_eq_false, if_false, hr']
      have hschedule := schedule_yields hwf' r.put
      cases hq' : schedule out.2 r.put with
      | error f =>
        rw [hq'] at hschedule
        exact ⟨f, rfl, hschedule⟩
      | ok q =>
        rw [hq'] at hschedule
        refine ⟨hschedule.1, ⟨_, d, r, htaken, hfresh, hr', ?_⟩, r, hr', rfl, rfl⟩
        simp only [MainLoop.toLoop, hschedule.2]

/-! ### The number of calls -/

/-- `complete_calls`, 0 before the state is there. -/
def completed (state : Option LpState) : BitVec 32 := (state.map LpState.completeCalls).getD 0

/-- The calls that have ended, of the events that were processed. -/
def endedCalls {τ : Type} (tr : List (Msg τ)) : Nat := tr.countP fun msg => msg.type = endCall

section complete

variable {p : LpState} {heap : Heap}

theorem allocation_complete (c : Nat) :
    Yields (fun _ => True) (fun r => r.2.1.completeCalls = p.completeCalls) (allocation p c heap) := by
  rw [allocation]
  refine (Yields.any _).bind fun index _ => ?_
  split
  · have hset : Yields (fun _ => True) (fun p' : LpState => p'.completeCalls = p.completeCalls)
        (p.setChannel index) := by
      rw [LpState.setChannel]
      split
      · rfl
      · trivial
    refine hset.bind fun p' hp' => ?_
    refine (Yields.any _).bind fun heap' _ => ?_
    refine (Yields.any _).bind fun node _ => ?_
    refine (Yields.any _).bind fun _ _ => ?_
    exact (Yields.any _).bind fun _ _ => hp'
  · trivial

theorem unlink_complete (c : Nat) :
    Yields (fun _ => True) (fun r => r.1.completeCalls = p.completeCalls) (unlink p c heap) := by
  rw [unlink]
  refine (Yields.any _).bind fun node _ => ?_
  split
  · exact (Yields.any _).bind fun _ _ => rfl
  · refine (Yields.any _).bind fun heap' _ => ?_
    refine (Yields.any _).bind fun _ _ => ?_
    exact (Yields.any _).bind fun _ _ => rfl

theorem deallocation_complete (ch : Int) :
    Yields (fun _ => True) (fun r => r.1.completeCalls = p.completeCalls) (deallocation p ch heap) := by
  rw [deallocation]
  refine (Yields.any _).bind fun c _ => ?_
  cases c with
  | none => trivial
  | some c =>
    refine (unlink_complete c).bind fun r hr => ?_
    have hreset : Yields (fun _ => True) (fun p' : LpState => p'.completeCalls = p.completeCalls)
        (r.1.resetChannel ch) := by
      rw [LpState.resetChannel]
      split
      · exact hr
      · trivial
    refine hreset.bind fun p' hp' => ?_
    exact (Yields.any _).bind fun _ _ => hp'

/-- The end of a call is what counts, and the last one makes `ProcessEvent` return 1. -/
theorem processEvent_complete {τ : Type} {d : Draws τ} {msg : Msg τ} {state : Option LpState}
    (hinit : msg.type = init → completed state = 0) :
    Yields (fun _ => True) (fun r => r.state.completeCalls = completed state + BitVec.ofNat 32 (endedCalls [msg]) ∧
      (r.ret ≠ 0 ↔ msg.type = endCall ∧ r.state.completeCalls = enoughCalls)) (processEvent d msg state heap) := by
  rw [processEvent]
  by_cases htype : msg.type = init
  · rw [if_pos htype]
    refine ⟨?_, ?_⟩
    · simp [endedCalls, htype, hinit htype, newState, init, endCall]
    · simp [htype, init, endCall]
  · rw [if_neg htype]
    cases state with
    | none =>
      simp only [Option.map_none]
      split <;> trivial
    | some p =>
      simp only [Option.map_some]
      split_ifs with hstart hend
      · have hne : msg.type ≠ endCall := by
          rw [hstart]
          exact start_ne_end
        rw [processStart]
        split
        · exact ⟨by simp [endedCalls, hne, completed], by simp [hne]⟩
        · refine (allocation_complete d.address).bind fun r hr => ?_
          refine ⟨?_, by simp [hne]⟩
          rw [hr]
          simp [endedCalls, hne, completed]
      · rw [processEnd]
        refine (deallocation_complete msg.channel).bind fun r hr => ?_
        refine ⟨?_, ?_⟩
        · show r.1.completeCalls = _
          rw [hr]
          simp [endedCalls, hend, completed]
        · simp [hend]
      · trivial

end complete

/-! ### Runs -/

section run

variable {id : Nat} {s : MainLoop} {tr : List (Msg ℚ≥0)}

/-- `INIT` is the first event. -/
theorem Inv.init_first {τ : Type} {s : Loop τ} {tr : List (Msg τ)} {msg : Msg τ} (h : Inv id s tr)
    (hmsg : msg ∈ s.pending) (htype : msg.type = init) : tr = [] ∧ s.state = none := by
  obtain ⟨hstart, hnone, -⟩ | ⟨p, l, -, hsound⟩ := h
  · exact ⟨hstart, hnone⟩
  · obtain ⟨-, hs | he⟩ := hsound.known msg hmsg
    · rw [htype] at hs
      cases hs
    · rw [htype] at he
      cases he

/-- What holds of a fiber between two events. -/
structure MainLoop.Sound (id : Nat) (s : MainLoop) (tr : List (Msg ℚ≥0)) : Prop where
  queue : s.queue.Wf
  cell : Run (Init id) Cell.Step s.toLoop tr
  calls : completed s.state = BitVec.ofNat 32 (endedCalls tr)
  most : endedCalls tr ≤ 15000
  left : s.left = true ↔ endedCalls tr = 15000

theorem run_sound (hrun : Run (MainLoop.Started id) (MainLoop.Step id) s tr) : s.Sound id tr := by
  refine hrun.invariant (P := fun s tr => s.Sound id tr) (fun s hs => ?_) ?_
  · obtain ⟨hwf, hinit, hleft⟩ := started_spec hs
    have hstate : s.state = none := hinit.1
    refine ⟨hwf, .start hinit, ?_, Nat.zero_le _, ?_⟩
    · rw [hstate]
      rfl
    · rw [hleft]
      decide
  · rintro s tr msg s' - h ⟨hleft, d, hfresh, hturn⟩
    obtain ⟨hwf, hstep, r, hr, hstate, hleft'⟩ := (turn_yields h.queue (run_inv h.cell) hfresh).of_ok hturn
    simp only at hwf hstep hr hstate hleft'
    have hmsg : msg ∈ s.toLoop.pending := by
      obtain ⟨rest, -, -, hpending, -⟩ := hstep
      rw [hpending]
      exact Multiset.mem_cons_self _ _
    have hinit : msg.type = init → completed s.state = 0 := by
      intro htype
      rw [show s.state = none from ((run_inv h.cell).init_first hmsg htype).2]
      rfl
    obtain ⟨hcalls, hret⟩ := (processEvent_complete hinit).of_ok hr
    have hcons : endedCalls (msg :: tr) = endedCalls tr + endedCalls [msg] := by
      simp only [endedCalls, List.countP_cons, List.countP_nil, Nat.zero_add]
    have hone : endedCalls [msg] = if msg.type = endCall then 1 else 0 := by
      simp [endedCalls, List.countP_cons]
    have hlt : endedCalls tr ≠ 15000 := by
      intro hall
      rw [h.left.mpr hall] at hleft
      cases hleft
    have hmost := h.most
    rw [h.calls, ← BitVec.ofNat_add, ← hcons] at hcalls
    have hbound : endedCalls (msg :: tr) ≤ 15000 := by
      rw [hcons, hone]
      split <;> omega
    refine ⟨hwf, h.cell.step hstep, ?_, hbound, ?_⟩
    · rw [hstate]
      exact hcalls
    · rw [hleft', decide_eq_true_eq, hret, hcalls]
      have hcount : BitVec.ofNat 32 (endedCalls (msg :: tr)) = enoughCalls ↔ endedCalls (msg :: tr) = 15000 := by
        unfold enoughCalls
        bv_omega
      rw [hcount, hcons, hone]
      constructor
      · exact fun hall => hall.2.2
      · intro hall
        by_cases hend : msg.type = endCall
        · exact ⟨by rw [hend]; decide, hend, hall⟩
        · rw [if_neg hend] at hall
          omega

/-- **What becomes of a fiber.** Whatever is drawn, it never finds its queue empty, an event of another fiber or one that
`ProcessEvent` cannot process: only the arithmetic of the queue can stop it. It leaves the loop with the end of the
15000th call, no earlier and no later, and `complete_calls` is the number of calls that have ended. -/
theorem mainLoop_completes (hrun : Run (MainLoop.Started id) (MainLoop.Step id) s tr) :
    (s.left = true ↔ endedCalls tr = 15000) ∧ endedCalls tr ≤ 15000 ∧
      completed s.state = BitVec.ofNat 32 (endedCalls tr) ∧
      ∀ d, d.address ∉ s.heap.addrs → ∀ stop, turn id d s = .error stop → ∃ f, stop = .queue f ∧ f.Excluded := by
  have h := run_sound hrun
  refine ⟨h.left, h.most, h.calls, ?_⟩
  intro d hfresh stop hstop
  exact (turn_yields h.queue (run_inv h.cell) hfresh).of_error hstop

/-- A turn with the given draws, if they pass the check. -/
def perform (id : Nat) (ok : MainLoop → Draws ℚ≥0 → Msg ℚ≥0 → Bool) (x : MainLoop × List (Msg ℚ≥0))
    (d : Draws ℚ≥0) : Option (MainLoop × List (Msg ℚ≥0)) :=
  if x.1.left = false ∧ d.address ∉ x.1.heap.addrs then
    match turn id d x.1 with
    | .ok (event, s) => if ok x.1 d event then some (s, event :: x.2) else none
    | .error _ => none
  else none

/-- What is performed is a run. -/
theorem run_perform {step : MainLoop → Msg ℚ≥0 → MainLoop → Prop} {ok : MainLoop → Draws ℚ≥0 → Msg ℚ≥0 → Bool}
    (hok : ∀ s d msg s', s.left = false → d.address ∉ s.heap.addrs → turn id d s = .ok (msg, s') → ok s d msg = true →
      step s msg s')
    {ds : List (Draws ℚ≥0)} {x y : MainLoop × List (Msg ℚ≥0)} (hrun : Run (MainLoop.Started id) step x.1 x.2)
    (h : ds.foldlM (perform id ok) x = some y) : Run (MainLoop.Started id) step y.1 y.2 := by
  induction ds generalizing x with
  | nil =>
    cases h
    exact hrun
  | cons d ds ih =>
    rw [List.foldlM_cons] at h
    obtain ⟨z, hz, hrest⟩ := Option.bind_eq_some_iff.mp h
    refine ih ?_ hrest
    rw [perform] at hz
    split at hz
    · rename_i hready
      cases hturn : turn id d x.1 with
      | error e =>
        rw [hturn] at hz
        cases hz
      | ok r =>
        simp only [hturn] at hz
        split at hz
        · rename_i hcheck
          cases hz
          exact hrun.step (hok _ _ _ _ hready.1 hready.2 hturn hcheck)
        · cases hz
    · cases hz

end run

section Example

/-- `INIT`, a call that starts at 5 and ends at 6, and its end; the next one starts at 7. -/
def callDraws : List (Draws ℚ≥0) :=
  [⟨0, (5 : Nat), 0, fun _ => 0⟩, ⟨(6 : Nat), (7 : Nat), 1, fun _ => 0⟩, ⟨(6 : Nat), (6 : Nat), 2, fun _ => 0⟩]

def firstCall : Option (MainLoop × List (Msg ℚ≥0)) :=
  match mainLoopStart 1 zeroed 0 0 [] with
  | .ok s => callDraws.foldlM (perform 1 fun _ _ _ => true) (s, [])
  | .error _ => none

theorem firstCall_events : firstCall.map (fun x => decide (endedCalls x.2 = 1 ∧ x.2.length = 3)) = some true := by
  decide +kernel

theorem mainLoop_completes_firstCall : ∃ (s : MainLoop) (tr : List (Msg ℚ≥0)), endedCalls tr = 1 ∧
    (s.left = true ↔ endedCalls tr = 15000) ∧ completed s.state = 1 := by
  obtain ⟨⟨s, tr⟩, hfirst, hevents⟩ := Option.map_eq_some_iff.mp firstCall_events
  obtain ⟨hended, -⟩ := of_decide_eq_true hevents
  rw [firstCall] at hfirst
  cases hstart : mainLoopStart 1 zeroed 0 0 [] with
  | error f =>
    rw [hstart] at hfirst
    cases hfirst
  | ok s₀ =>
    rw [hstart] at hfirst
    have hrun : Run (MainLoop.Started 1) (MainLoop.Step 1) s tr :=
      run_perform (fun _ d _ _ hleft hfresh hturn _ => ⟨hleft, d, hfresh, hturn⟩)
        (.start ⟨zeroed, 0, 0, [], hstart⟩) hfirst
    obtain ⟨hleft, -, hcalls, -⟩ := mainLoop_completes hrun
    refine ⟨s, tr, hended, hleft, ?_⟩
    rw [hcalls, hended]
    rfl

end Example

end LinuxFibers.Cell
