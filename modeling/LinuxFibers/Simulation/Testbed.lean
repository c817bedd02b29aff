import Mathlib.Order.Interval.Finset.Nat
import LinuxFibers.Simulation.MainLoop

/-!
# The fibers of the testbed together

Every fiber runs `main_loop`; the threads take turns with them in any order. A fiber that has left its loop counts
`completed_fibers` down, and fiber 1 waits until the counter is 0. `allDone_completes`: what it then announces is true.

* A turn of a fiber touches nothing that another fiber reads, so it is one step.
* A fiber enters its loop before the first step; what it does before touches its own queue only.
-/

namespace LinuxFibers.Cell

open Runs HeapTable Calqueue
open Function (update update_self update_of_ne update_idem update_comm update_apply)

/-- `main_loop` in every fiber, by the `id` that it was passed. -/
structure Testbed where
  loop : Nat → MainLoop
  finished : Nat → Bool
  completedFibers : BitVec 32
  allDone : Bool

namespace Testbed

inductive Event
  | turn (id : Nat) (msg : Msg ℚ≥0)
  | finish (id : Nat)
  | announce

/-- The ids of the fibers: `main` passes `i + 1` to the fiber `i`. -/
def ids (numFibers : BitVec 32) : Finset Nat := Finset.Icc 1 numFibers.toNat

inductive Step (numFibers : BitVec 32) : Testbed → Event → Testbed → Prop
  | turn {s : Testbed} {id : Nat} {msg : Msg ℚ≥0} {x : MainLoop} : id ∈ ids numFibers →
      MainLoop.Step id (s.loop id) msg x → Step numFibers s (.turn id msg) { s with loop := update s.loop id x }
  /-- `__sync_fetch_and_sub(&completed_fibers, 1)` -/
  | finish {s : Testbed} {id : Nat} : id ∈ ids numFibers → (s.loop id).left = true → s.finished id = false →
      Step numFibers s (.finish id)
        { s with finished := update s.finished id true, completedFibers := s.completedFibers - 1 }
  /-- `while(completed_fibers > 0);` ends -/
  | announce {s : Testbed} : s.finished 1 = true → s.completedFibers = 0 →
      Step numFibers s .announce { s with allDone := true }

def Init (numFibers : BitVec 32) (s : Testbed) : Prop :=
  (∀ id ∈ ids numFibers, (s.loop id).Started id) ∧ (∀ id, s.finished id = false) ∧ s.completedFibers = numFibers ∧
    s.allDone = false

/-- The events that the fiber `id` has processed. -/
def eventsOf (id : Nat) (tr : List Event) : List (Msg ℚ≥0) := tr.filterMap fun e =>
  match e with
  | .turn id' msg => if id' = id then some msg else none
  | _ => none

theorem eventsOf_turn_self (id : Nat) (msg : Msg ℚ≥0) (tr : List Event) :
    eventsOf id (.turn id msg :: tr) = msg :: eventsOf id tr := by
  simp [eventsOf]

theorem eventsOf_turn_ne {id id' : Nat} (h : id' ≠ id) (msg : Msg ℚ≥0) (tr : List Event) :
    eventsOf id (.turn id' msg :: tr) = eventsOf id tr := by
  simp [eventsOf, h]

/-- The fibers that have not counted themselves out. -/
def working (numFibers : BitVec 32) (s : Testbed) : Finset Nat := (ids numFibers).filter fun id => s.finished id = false

structure Invariant (numFibers : BitVec 32) (s : Testbed) (tr : List Event) : Prop where
  run : ∀ id ∈ ids numFibers, Run (MainLoop.Started id) (MainLoop.Step id) (s.loop id) (eventsOf id tr)
  left : ∀ id ∈ ids numFibers, s.finished id = true → (s.loop id).left = true
  count : s.completedFibers.toNat = (s.working numFibers).card
  done : s.allDone = true → s.working numFibers = ∅

variable {numFibers : BitVec 32} {s s' : Testbed} {tr : List Event} {e : Event}

theorem Invariant.step (h : s.Invariant numFibers tr) (hstep : s.Step numFibers e s') :
    s'.Invariant numFibers (e :: tr) := by
  cases hstep with
  | @turn id msg x hid hx =>
    refine ⟨fun id' hid' => ?_, fun id' hid' hfinished => ?_, h.count, h.done⟩
    · by_cases hne : id = id'
      · subst hne
        simp only [eventsOf_turn_self, update_self]
        exact (h.run id hid).step hx
      · simp only [eventsOf_turn_ne hne, update_of_ne (Ne.symm hne)]
        exact h.run id' hid'
    · by_cases hne : id = id'
      · -- a fiber that has left its loop takes no turn
        subst hne
        have hleft := h.left id hid hfinished
        rw [hx.1] at hleft
        cases hleft
      · simp only [update_of_ne (Ne.symm hne)]
        exact h.left id' hid' hfinished
  | @finish id hid hleft hfinished =>
    have hmem : id ∈ s.working numFibers := Finset.mem_filter.mpr ⟨hid, hfinished⟩
    have hworking : working numFibers { s with
        finished := update s.finished id true
        completedFibers := s.completedFibers - 1 } = (s.working numFibers).erase id := by
      ext id'
      simp only [working, Finset.mem_filter, Finset.mem_erase]
      by_cases hne : id' = id <;> simp [hne]
    refine ⟨h.run, fun id' hid' hfinished' => ?_, ?_, fun hdone => ?_⟩
    · by_cases hne : id' = id
      · rw [hne]
        exact hleft
      · simp only [update_of_ne hne] at hfinished'
        exact h.left id' hid' hfinished'
    · rw [hworking, Finset.card_erase_of_mem hmem, ← h.count]
      have hpos : 0 < s.completedFibers.toNat := by
        rw [h.count]
        exact Finset.card_pos.mpr ⟨id, hmem⟩
      show (s.completedFibers - 1).toNat = s.completedFibers.toNat - 1
      bv_omega
    · rw [hworking, h.done hdone]
      rfl
  | announce hone hzero =>
    refine ⟨h.run, h.left, h.count, fun _ => ?_⟩
    have hcount := h.count
    rw [hzero] at hcount
    exact Finset.card_eq_zero.mp hcount.symm

theorem run_invariant (hrun : Run (Init numFibers) (Step numFibers) s tr) : s.Invariant numFibers tr := by
  refine hrun.invariant (P := Invariant numFibers) ?_ fun s tr e s' _ h hstep => h.step hstep
  rintro s ⟨hstart, hfinished, hcount, hdone⟩
  refine ⟨fun id hid => .start (hstart id hid), fun id _ hid => ?_, ?_, fun h => ?_⟩
  · rw [hfinished id] at hid
    cases hid
  · have hall : s.working numFibers = ids numFibers := Finset.filter_true_of_mem fun id _ => hfinished id
    rw [hcount, hall, ids, Nat.card_Icc]
    rfl
  · rw [hdone] at h
    cases h

/-- **"All fibers are done!" is true.** In every run, however the fibers take turns, the counter is the number of
fibers that have not counted themselves out, and when fiber 1 has passed its wait every fiber has left its loop, after
the end of exactly 15000 of its calls. -/
theorem allDone_completes (hrun : Run (Init numFibers) (Step numFibers) s tr) :
    s.completedFibers.toNat = (s.working numFibers).card ∧
      (s.allDone = true → ∀ id ∈ ids numFibers, (s.loop id).left = true ∧ endedCalls (eventsOf id tr) = 15000) := by
  have h := run_invariant hrun
  refine ⟨h.count, fun hdone id hid => ?_⟩
  have hfinished : s.finished id = true := by
    by_contra hne
    have hmem : id ∈ s.working numFibers := Finset.mem_filter.mpr ⟨hid, Bool.eq_false_iff.mpr hne⟩
    rw [h.done hdone] at hmem
    cases hmem
  have hleft := h.left id hid hfinished
  exact ⟨hleft, (run_sound (h.run id hid)).left.mp hleft⟩

/-! ### All calls of a fiber -/

section calls

variable {n : Nat} {l r : List (CalqueueNode (Msg ℚ≥0))} {x : CalqueueNode (Msg ℚ≥0)}

/-- The queue of a fiber at the time `n`, two buckets of width 1: that of `n` and the other one. -/
def calendar (n : Nat) (l r : List (CalqueueNode (Msg ℚ≥0))) : Calqueue (Msg ℚ≥0) where
  calq := update (update (fun _ => []) ((n + 1) % 2) r) (n % 2) l
  firstsub := 0
  nbuckets := 2
  qsize := l.length + r.length
  lastbucket := n % 2
  resizeEnabled := true
  topThreshold := 4
  botThreshold := -1
  lastprio := n
  buckettop := n + 3 / 2
  cwidth := 1

theorem turn_ne (n : Nat) : (n + 1) % 2 ≠ n % 2 := by omega

theorem bucket_now : (calendar n l r).bucket (n % 2) = l := by
  rw [Calqueue.bucket]
  simp only [calendar, Nat.zero_add, update_self]

theorem bucket_next : (calendar n l r).bucket ((n + 1) % 2) = r := by
  rw [Calqueue.bucket]
  simp only [calendar, Nat.zero_add, update_of_ne (turn_ne n), update_self]

theorem length_insertNode : (insertNode x l).length = l.length + 1 := (insertNode_perm x l).length_eq

theorem store_now : (calendar n l r).store x (n % 2) = calendar n (insertNode x l) r := by
  rw [Calqueue.store, bucket_now]
  simp only [calendar, Nat.zero_add, update_idem, length_insertNode, Nat.add_right_comm]

theorem store_next : (calendar n l r).store x ((n + 1) % 2) = calendar n l (insertNode x r) := by
  rw [Calqueue.store, bucket_next]
  simp only [calendar, Nat.zero_add, update_comm (turn_ne n), update_idem, length_insertNode, Nat.add_assoc]

theorem quotient_nat (h : n < 2 ^ 31) : quotient (2 ^ 31) (n : ℚ≥0) 1 = .ok n := by
  have hfloor : ⌊((n : ℚ≥0) : ℚ) / 1⌋₊ = n := by
    rw [div_one, NNRat.cast_natCast, Nat.floor_natCast]
  unfold quotient
  simp only [hfloor, if_pos h]

/-- With at most four nodes no resize is due. -/
theorem put_calendar {k : Nat} (hk : k < 2 ^ 31) (hroom : l.length + r.length < 4) (hx : x.priority = k) :
    (calendar n l r).put x = .ok ((calendar n l r).store x (k % 2)) := by
  have hquotient : quotient (2 ^ 31) x.priority (calendar n l r).cwidth = .ok k := by
    rw [hx]
    exact quotient_nat hk
  rw [Calqueue.put, putWith, hquotient]
  refine if_neg fun hfull => ?_
  have htop : (4 : Int) < ((l.length + r.length + 1 : Nat) : Int) := hfull.1
  omega

/-- Nor when a node is taken. -/
theorem deq_calendar {i : Nat} {top : ℚ} {rest : List (CalqueueNode (Msg ℚ≥0))}
    (hscan : (calendar n l r).scan 2 (n % 2) (n + 3 / 2 : ℚ) = (some i, top))
    (hb : (calendar n l r).bucket i = x :: rest) (hne : l.length + r.length ≠ 0) :
    (calendar n l r).deq = .ok (some x, (calendar n l r).take i top x rest) := by
  have hsearch : (calendar n l r).search = .ok (i, top) := by
    have hscan' : (calendar n l r).scan (calendar n l r).nbuckets (calendar n l r).lastbucket
        (calendar n l r).buckettop = (some i, top) := hscan
    rw [Calqueue.search, hscan']
  have hbot : ¬ (((calendar n l r).take i top x rest).qsize : Int) <
      ((calendar n l r).take i top x rest).botThreshold := by
    show ¬ (((l.length + r.length - 1 : Nat) : Int) < -1)
    omega
  have hsize : ¬ (calendar n l r).qsize = 0 := hne
  rw [Calqueue.deq, deqWith, if_neg hsize, hsearch]
  simp only [bind, Except.bind, hb, if_neg hbot]

theorem take_now (hx : x.priority = n) (top : ℚ) (htop : top = n + 3 / 2) :
    (calendar n (x :: l) r).take (n % 2) top x l = calendar n l r := by
  have hsize : (x :: l).length + r.length - 1 = l.length + r.length := by
    rw [List.length_cons]
    omega
  simp only [Calqueue.take, calendar, hx, htop, hsize, Nat.zero_add, update_idem]

theorem take_next (hx : x.priority = (n + 1 : Nat)) (top : ℚ) (htop : top = (n + 1 : Nat) + 3 / 2) :
    (calendar n [] (x :: r)).take ((n + 1) % 2) top x r = calendar (n + 1) r [] := by
  have hnow : (n + 1 + 1) % 2 = n % 2 := by omega
  simp only [Calqueue.take, calendar, hx, htop, hnow, Nat.zero_add, List.length_nil]
  rw [update_comm (turn_ne n), update_idem]
  rfl

/-- The node of the present is taken. -/
theorem deq_now (hx : x.priority = n) : (calendar n (x :: l) r).deq = .ok (some x, calendar n l r) := by
  have hbelow : (x.priority : ℚ) < n + 3 / 2 := by
    rw [hx, NNRat.cast_natCast]
    linarith
  have hhit : ∃ e ∈ ((calendar n (x :: l) r).bucket (n % 2)).head?, (e.priority : ℚ) < n + 3 / 2 := by
    rw [bucket_now]
    exact ⟨x, rfl, hbelow⟩
  have hscan : (calendar n (x :: l) r).scan 2 (n % 2) (n + 3 / 2 : ℚ) = (some (n % 2), (n + 3 / 2 : ℚ)) := by
    rw [Calqueue.scan, if_pos hhit]
  rw [deq_calendar hscan bucket_now (by simp), take_now hx _ rfl]

/-- When nothing is left of the present, time goes on. -/
theorem deq_next (hx : x.priority = (n + 1 : Nat)) :
    (calendar n [] (x :: r)).deq = .ok (some x, calendar (n + 1) r []) := by
  have hbelow : (x.priority : ℚ) < n + 3 / 2 + 1 := by
    rw [hx, NNRat.cast_natCast, Nat.cast_add, Nat.cast_one]
    linarith
  have hmiss : ¬ ∃ e ∈ ((calendar n [] (x :: r)).bucket (n % 2)).head?, (e.priority : ℚ) < n + 3 / 2 := by
    rw [bucket_now]
    rintro ⟨e, he, -⟩
    cases he
  have hhit : ∃ e ∈ ((calendar n [] (x :: r)).bucket ((n + 1) % 2)).head?, (e.priority : ℚ) < n + 3 / 2 + 1 := by
    rw [bucket_next]
    exact ⟨x, rfl, hbelow⟩
  have hstep : (if n % 2 + 1 = (calendar n [] (x :: r)).nbuckets then 0 else n % 2 + 1) = (n + 1) % 2 := by
    show (if n % 2 + 1 = 2 then 0 else n % 2 + 1) = (n + 1) % 2
    split <;> omega
  have hlast : (n + 1) % 2 ≠ (calendar n [] (x :: r)).lastbucket := turn_ne n
  have hscan : (calendar n [] (x :: r)).scan 2 (n % 2) (n + 3 / 2 : ℚ) =
      (some ((n + 1) % 2), (n + 3 / 2 + 1 : ℚ)) := by
    rw [Calqueue.scan, if_neg hmiss]
    simp only [hstep, if_neg hlast]
    show (calendar n [] (x :: r)).scan 1 ((n + 1) % 2) (n + 3 / 2 + 1) = _
    rw [Calqueue.scan, if_pos hhit]
  rw [deq_calendar hscan bucket_next (by simp), take_next hx _ (by push_cast; ring)]

/-- One call comes after the other, the call of the time `n` on channel 0 from `n` to `n`. -/
def startNode (id n : Nat) : CalqueueNode (Msg ℚ≥0) := ⟨n, packEvent id startCall n (-1)⟩

def endNode (id n : Nat) : CalqueueNode (Msg ℚ≥0) := ⟨n, packEvent id endCall n 0⟩

/-- The draws of that time. -/
def drawn (n address : Nat) : Draws ℚ≥0 := ⟨n, (n + 1 : Nat), address, fun _ => 0⟩

/-- The cell after `a` calls and `e` events, between two calls. -/
def idle (a e : BitVec 32) : LpState :=
  { newState (fun _ => 0) with arrivingCalls := a, completeCalls := a, executedEvents := e }

def inCall (a e : BitVec 32) : LpState :=
  { idle a e with
    channelCounter := 999
    arrivingCalls := a + 1
    executedEvents := e + 1
    channelState := Bitmap.set (newChannelState fun _ => 0) 0
    channels := some 0 }

/-- The fiber before its first event. -/
def entered (id : Nat) : MainLoop :=
  { queue := calendar 0 [⟨0, packEvent id init 0 0⟩] [], state := none, heap := [], left := false }

def waiting (id n : Nat) (a e : BitVec 32) (left : Bool) : MainLoop :=
  { queue := calendar n [] [startNode id (n + 1)], state := some (idle a e), heap := [], left }

def talking (id n : Nat) (a e : BitVec 32) : MainLoop where
  queue := calendar n [endNode id n] [startNode id (n + 1)]
  state := some (inCall a e)
  heap := [⟨0, ⟨0, none, none⟩⟩]
  left := false

theorem init_zeroed : (zeroed : Calqueue (Msg ℚ≥0)).init = .ok (calendar 0 [] []) := by
  have hquotient : quotient (2 ^ 63) (0 : ℚ≥0) 1 = .ok 0 := by
    simp [quotient]
  have hempty : (fun j => if 0 ≤ j ∧ j < 0 + 2 then [] else (zeroed : Calqueue (Msg ℚ≥0)).calq j) =
      update (update (fun _ => []) ((0 + 1) % 2) []) (0 % 2) [] := by
    funext j
    simp [update_apply, zeroed]
  rw [Calqueue.init, localinit, hquotient]
  simp only [bind, Except.bind, hempty]
  simp [calendar]
  norm_num

theorem entered_started (id : Nat) : (entered id).Started id := by
  refine ⟨zeroed, 0, 0, [], ?_⟩
  rw [mainLoopStart, init_zeroed]
  have hput := put_calendar (n := 0) (l := []) (r := []) (x := ⟨0, packEvent id init 0 0⟩) (k := 0) (by decide)
    (by decide) Nat.cast_zero.symm
  simp only [bind, Except.bind, hput]
  rw [store_now]
  rfl

section turns

variable {id n : Nat} {a e : BitVec 32}

theorem put_start (hn : n + 1 < 2 ^ 31) (hroom : l.length < 4) :
    (calendar n l []).put (startNode id (n + 1)) = .ok (calendar n l [startNode id (n + 1)]) := by
  rw [put_calendar hn (by simpa using hroom) rfl, store_next]
  rfl

theorem put_end (hn : n < 2 ^ 31) : (calendar n [] []).put (endNode id n) = .ok (calendar n [endNode id n] []) := by
  rw [put_calendar hn (by decide) rfl, store_now]
  rfl

theorem reset_set : Bitmap.reset (Bitmap.set (newChannelState fun _ => 0) 0) 0 = newChannelState fun _ => 0 := by
  decide

theorem process_start : processEvent (drawn n 0) (packEvent id startCall n (-1)) (some (idle a e)) [] = .ok {
    state := inCall a e
    heap := [⟨0, ⟨0, none, none⟩⟩]
    put := [(endNode id n).payload, (startNode id (n + 1)).payload]
    ret := 0 } := by
  with_unfolding_all rfl

theorem process_end : processEvent (drawn n 1) (packEvent id endCall n 0) (some (inCall a e)) [⟨0, ⟨0, none, none⟩⟩] =
    .ok {
      state := idle (a + 1) (e + 1 + 1)
      heap := []
      put := []
      ret := if a + 1 = enoughCalls then 1 else 0 } := by
  rw [idle, newState, ← reset_set]
  with_unfolding_all rfl

/-- A turn from its parts. -/
theorem turn_of_deq {s : MainLoop} {q p : Calqueue (Msg ℚ≥0)} {d : Draws ℚ≥0} {r : Result ℚ≥0}
    (hdeq : s.queue.deq = .ok (some x, q)) (hreceiver : x.payload.receiver = id)
    (hprocess : processEvent d x.payload s.state s.heap = .ok r) (hschedule : schedule q r.put = .ok p) :
    turn id d s = .ok (x.payload, {
      queue := p
      state := some r.state
      heap := r.heap
      left := decide (x.payload.type ≠ init ∧ r.ret ≠ 0) }) := by
  rw [turn, Calqueue.get, hdeq]
  simp only [bind, Except.bind, Option.map_some, hreceiver, ne_eq, not_true_eq_false, if_false, hprocess, hschedule]

theorem step_init (id : Nat) : (entered id).Step id (packEvent id init 0 0) (waiting id 0 0 0 false) := by
  have hdeq : (entered id).queue.deq = .ok (some ⟨0, packEvent id init 0 0⟩, calendar 0 [] []) :=
    deq_now Nat.cast_zero.symm
  have hschedule : schedule (calendar 0 [] []) [(startNode id (0 + 1)).payload] =
      .ok (calendar 0 [] [startNode id (0 + 1)]) := by
    rw [schedule, List.foldlM_cons]
    exact bind_eq_ok.mpr ⟨_, put_start (n := 0) (by decide) (by decide), rfl⟩
  exact ⟨rfl, drawn 0 0, List.not_mem_nil, turn_of_deq hdeq rfl rfl hschedule⟩

theorem step_start (hn : n + 2 < 2 ^ 31) :
    (waiting id n a e false).Step id (packEvent id startCall (n + 1 : Nat) (-1)) (talking id (n + 1) a e) := by
  have hdeq : (waiting id n a e false).queue.deq = .ok (some (startNode id (n + 1)), calendar (n + 1) [] []) :=
    deq_next rfl
  have hschedule : schedule (calendar (n + 1) [] []) [(endNode id (n + 1)).payload, (startNode id (n + 2)).payload] =
      .ok (calendar (n + 1) [endNode id (n + 1)] [startNode id (n + 2)]) := by
    rw [schedule, List.foldlM_cons]
    refine bind_eq_ok.mpr ⟨_, put_end (by omega), ?_⟩
    rw [List.foldlM_cons]
    exact bind_eq_ok.mpr ⟨_, put_start hn (Nat.le_of_ble_eq_true rfl), rfl⟩
  exact ⟨rfl, drawn (n + 1) 0, List.not_mem_nil, turn_of_deq hdeq rfl process_start hschedule⟩

theorem step_end : (talking id n a e).Step id (packEvent id endCall n 0)
    (waiting id n (a + 1) (e + 1 + 1) (decide (a + 1 = enoughCalls))) := by
  have hdeq : (talking id n a e).queue.deq = .ok (some (endNode id n), calendar n [] [startNode id (n + 1)]) :=
    deq_now rfl
  have hleft : decide (endCall ≠ init ∧ (if a + 1 = enoughCalls then (1 : Int) else 0) ≠ 0) =
      decide (a + 1 = enoughCalls) := by
    by_cases hall : a + 1 = enoughCalls
    · rw [if_pos hall, decide_eq_true hall]
      rfl
    · rw [if_neg hall, decide_eq_false hall]
      rfl
  have hfresh : 1 ∉ (talking id n a e).heap.addrs := by
    simp [talking, Table.addrs]
  refine ⟨rfl, drawn n 1, hfresh, ?_⟩
  rw [← hleft]
  exact turn_of_deq hdeq rfl process_end rfl

end turns

/-- After `k` calls of a fiber, all of which it has to itself. -/
def after (id k : Nat) : MainLoop := waiting id k (BitVec.ofNat 32 k) (BitVec.ofNat 32 (2 * k)) (decide (k = 15000))

/-- A call is a turn for its start and one for its end. -/
theorem calls_run (id : Nat) {k : Nat} (hk : k ≤ 15000) :
    ∃ tr, Run (· = entered id) (MainLoop.Step id) (after id k) tr := by
  induction k with
  | zero =>
    have hstart : Run (· = entered id) (MainLoop.Step id) (entered id) [] := .start rfl
    exact ⟨_, hstart.step (step_init id)⟩
  | succ k ih =>
    obtain ⟨tr, hrun⟩ := ih (by omega)
    have hgoes : decide (k = 15000) = false := decide_eq_false (by omega)
    have hlast : decide (BitVec.ofNat 32 k + 1 = enoughCalls) = decide (k + 1 = 15000) := by
      refine decide_eq_decide.mpr ?_
      unfold enoughCalls
      constructor
      · intro h
        bv_omega
      · intro h
        bv_omega
    have hcalls : BitVec.ofNat 32 (k + 1) = BitVec.ofNat 32 k + 1 := BitVec.ofNat_add k 1
    have hevents : BitVec.ofNat 32 (2 * (k + 1)) = BitVec.ofNat 32 (2 * k) + 1 + 1 := by
      bv_omega
    rw [after, hgoes] at hrun
    rw [after, hcalls, hevents, ← hlast]
    exact ⟨_, (hrun.step (step_start (by omega))).step step_end⟩

end calls

/-- What a fiber does by itself it does in the testbed, whatever the others have done. -/
theorem run_turns {id : Nat} {x x' : MainLoop} {msgs : List (Msg ℚ≥0)} (hid : id ∈ ids numFibers)
    (hrun : Run (Init numFibers) (Step numFibers) s tr) (hx : s.loop id = x)
    (hloop : Run (· = x) (MainLoop.Step id) x' msgs) :
    Run (Init numFibers) (Step numFibers) { s with loop := update s.loop id x' }
      (msgs.map (Event.turn id) ++ tr) := by
  induction hloop with
  | start h =>
    rw [h, ← hx, Function.update_eq_self]
    exact hrun
  | @step y y' msgs msg _ hstep ih =>
    have hself : MainLoop.Step id (update s.loop id y id) msg y' := by
      rw [update_self]
      exact hstep
    have hturn : Step numFibers { s with loop := update s.loop id y } (.turn id msg)
        { s with loop := update (update s.loop id y) id y' } := .turn hid hself
    rw [update_idem] at hturn
    exact ih.step hturn

/-- Two fibers with all their calls: the second one is done first, then the first one, which announces it. -/
theorem allDone_completes_twoFibers : ∃ (s : Testbed) (tr : List Event), Run (Init 2) (Step 2) s tr ∧
    s.allDone = true ∧ s.completedFibers.toNat = (s.working 2).card ∧
    ∀ id ∈ ids 2, (s.loop id).left = true ∧ endedCalls (eventsOf id tr) = 15000 := by
  have hone : 1 ∈ ids 2 := Finset.mem_Icc.mpr ⟨le_refl 1, by decide⟩
  have htwo : 2 ∈ ids 2 := Finset.mem_Icc.mpr ⟨by decide, le_refl 2⟩
  have hstart : Run (Init 2) (Step 2) ⟨entered, fun _ => false, 2, false⟩ [] :=
    .start ⟨fun id _ => entered_started id, fun _ => rfl, rfl, rfl⟩
  obtain ⟨msgs₁, hcalls₁⟩ := calls_run 1 (le_refl 15000)
  obtain ⟨msgs₂, hcalls₂⟩ := calls_run 2 (le_refl 15000)
  have hturns₂ := run_turns htwo hstart rfl hcalls₂
  have hturns₁ := run_turns hone hturns₂ (x := entered 1) rfl hcalls₁
  have hfinish₂ := hturns₁.step (.finish htwo rfl rfl)
  have hfinish₁ := hfinish₂.step (.finish hone rfl rfl)
  have hrun := hfinish₁.step (.announce rfl rfl)
  obtain ⟨hcount, hdone⟩ := allDone_completes hrun
  exact ⟨_, _, hrun, rfl, hcount, hdone rfl⟩

end Testbed

end LinuxFibers.Cell
