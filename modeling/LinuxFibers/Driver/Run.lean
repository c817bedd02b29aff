import LinuxFibers.Base.Run
import LinuxFibers.Driver.Open
import LinuxFibers.Driver.Ioctl

/-!
# Runs of the driver

The operations of the driver, each taken as one step, in any order and by any threads. Between two
operations user code may leave anything in a thread's registers (`Op.user`).
-/

namespace LinuxFibers

open HeapTable Runs

inductive Op
  | fibOpen (c : Task)
  | fibRelease (c : Task)
  | fibConvert (c : Task) (now : Timespec)
  | fibCreate (c : Task) (func parameters stackPointer stackSize : BitVec 64)
  | fibSwitchTo (c : Task) (id : Int) (now : Timespec)
  | flsAlloc (c : Task)
  | flsFree (c : Task) (index : Int)
  | flsGetValue (c : Task) (pos : Int)
  | flsSetValue (c : Task) (pos val : Int)
  | user (c : Task) (cpu : Cpu)

namespace Op

def caller : Op → Task
  | fibOpen c | fibRelease c | fibConvert c _ | fibCreate c _ _ _ _ | fibSwitchTo c _ _ | flsAlloc c
  | flsFree c _ | flsGetValue c _ | flsSetValue c _ _ | user c _ => c

end Op

/-- One operation, with the value it returns: `none` where it returns nothing, or a pointer it never
assigned. -/
def step (nFib : Nat) : Op → State → Except Fault (State × Option Int)
  | .fibOpen c, s => .ok (fibOpen nFib c s, some 0)
  | .fibRelease c, s => .ok (fibRelease c s, some 0)
  | .fibConvert c now, s => do
    let (s, ret) ← fibConvert c now s
    .ok (s, some ret)
  | .fibCreate c func parameters stackPointer stackSize, s => do
    let (s, fiber) ← fibCreate c func parameters stackPointer stackSize s
    .ok (s, fiber.map fun b => b.val.id)
  | .fibSwitchTo c id now, s => do
    let (s, ret) ← fibSwitchTo c id now s
    .ok (s, some ret)
  | .flsAlloc c, s => do
    let (s, index) ← flsAlloc c s
    .ok (s, some index)
  | .flsFree c index, s => do
    let (s, ret) ← flsFree c index s
    .ok (s, some (if ret then 1 else 0))
  | .flsGetValue c pos, s => do
    let (s, ret) ← flsGetValue c pos s
    .ok (s, some ret)
  | .flsSetValue c pos val, s => do
    let (s, _) ← flsSetValue c pos val s
    .ok (s, none)
  | .user c cpu, s => .ok ({ s with cpu := Function.update s.cpu c cpu }, none)

/-- The operation as a step between states, whatever it returns. -/
def Performs (nFib : Nat) (s : State) (op : Op) (s' : State) : Prop :=
  ∃ out, step nFib op s = .ok (s', out)

/-- What an observer of one operation sees: the operation, the caller's registers when it started and
the value returned. -/
structure Event where
  op : Op
  cpu : Cpu
  out : Option Int

/-- The empty table. -/
def Init (s : State) : Prop := s.processi = [] ∧ s.kmem = {}

def Step (nFib : Nat) (s : State) (e : Event) (s' : State) : Prop :=
  step nFib e.op s = .ok (s', e.out) ∧ e.cpu = s.cpu e.op.caller

/-- `s` is reached from the empty table by some sequence of operations. -/
def Reached (nFib : Nat) (s : State) : Prop := Reachable Init (Step nFib) s

/-- The empty table, every register zero. -/
def empty : State := { processi := [], kmem := {}, cpu := fun _ => {} }

/-- The operations one after another, with their events; the first fault ends the run. -/
def runOps (nFib : Nat) : List Op → State → List Event → Except Fault (State × List Event)
  | [], s, tr => .ok (s, tr)
  | op :: ops, s, tr => do
    let (s', out) ← step nFib op s
    runOps nFib ops s' (⟨op, s.cpu op.caller, out⟩ :: tr)

/-- The fault an operation ends in. -/
def faultOf {α : Type} : Except Fault α → Option Fault
  | .error e => some e
  | .ok _ => none

theorem faultOf_eq_some {α : Type} {r : Except Fault α} {e : Fault} : faultOf r = some e ↔ r = .error e := by
  cases r <;> simp [faultOf]

theorem reached_empty (nFib : Nat) : Reached nFib empty := Reachable.of_init ⟨rfl, rfl⟩

theorem Reached.next {nFib : Nat} {s s' : State} {op : Op} {out : Option Int} (h : Reached nFib s)
    (hok : step nFib op s = .ok (s', out)) : Reached nFib s' :=
  h.tail (e := ⟨op, s.cpu op.caller, out⟩) ⟨hok, rfl⟩

theorem run_runOps {nFib : Nat} {ops : List Op} {s s' : State} {tr tr' : List Event}
    (hrun : Run Init (Step nFib) s tr) (hok : runOps nFib ops s tr = .ok (s', tr')) :
    Run Init (Step nFib) s' tr' ∧ tr'.map Event.op = ops.reverse ++ tr.map Event.op := by
  induction ops generalizing s tr with
  | nil =>
    cases hok
    exact ⟨hrun, rfl⟩
  | cons op ops ih =>
    obtain ⟨⟨s₁, out⟩, hstep, hrest⟩ := bind_eq_ok.mp hok
    obtain ⟨hrun', hops⟩ := ih (hrun.step ⟨hstep, rfl⟩) hrest
    refine ⟨hrun', ?_⟩
    rw [hops, List.reverse_cons, List.append_assoc]
    rfl

/-- A run with a given view of its end, from operations that are evaluated. -/
theorem exists_run (nFib : Nat) (ops : List Op) {β : Type} (view : State × List Event → β) {v : β}
    (h : (runOps nFib ops empty []).toOption.map view = some v) :
    ∃ s tr, Run Init (Step nFib) s tr ∧ tr.map Event.op = ops.reverse ∧ view (s, tr) = v := by
  cases hrun : runOps nFib ops empty [] with
  | error e =>
    rw [hrun] at h
    cases h
  | ok r =>
    rw [hrun] at h
    obtain ⟨s, tr⟩ := r
    obtain ⟨hr, hops⟩ := run_runOps (.start ⟨rfl, rfl⟩) hrun
    exact ⟨s, tr, hr, by simpa using hops, Option.some.inj h⟩

/-- A reachable state with a given view. -/
theorem exists_reached (nFib : Nat) (ops : List Op) {β : Type} (view : State → β) {v : β}
    (h : (runOps nFib ops empty []).toOption.map (fun r => view r.1) = some v) :
    ∃ s, Reached nFib s ∧ view s = v := by
  obtain ⟨s, tr, hrun, -, hview⟩ := exists_run nFib ops (fun r => view r.1) h
  exact ⟨s, ⟨tr, hrun⟩, hview⟩

/-- A run of the threads of an entry that the operations build, with a given view of its two ends. -/
theorem exists_followed (nFib : Nat) (ops : List Op) {C : Type} {next : C → Int → Option C} (entry : State → Option C)
    (ts : List Int) (ok : C → Int → Bool) (guard : C → Int → Prop)
    (hok : ∀ s cf₀ cf tr t, Reached nFib s → entry s = some cf₀ →
      Run (· = cf₀) (fun cf t cf' => next cf t = some cf') cf tr → ok cf t = true → guard cf t)
    {β : Type} (view : C → C → β) {v : β}
    (h : (runOps nFib ops empty []).toOption.map (fun r =>
      (entry r.1).bind fun cf₀ => (follow next ok cf₀ ts).map (view cf₀)) = some (some v)) :
    ∃ s cf₀ cf, Reached nFib s ∧ entry s = some cf₀ ∧
      Run (· = cf₀) (Guarded guard fun cf t cf' => next cf t = some cf') cf ts.reverse ∧ view cf₀ cf = v := by
  obtain ⟨s, hs, hview⟩ := exists_reached nFib ops
    (fun s => (entry s).bind fun cf₀ => (follow next ok cf₀ ts).map (view cf₀)) h
  obtain ⟨cf₀, hentry, hview⟩ := Option.bind_eq_some_iff.mp hview
  obtain ⟨cf, hfollow, hview⟩ := Option.map_eq_some_iff.mp hview
  have hrun := run_follow (fun cf tr t hrun => hok s cf₀ cf tr t hs hentry hrun.of_guarded) (.start rfl) hfollow
  rw [List.append_nil] at hrun
  exact ⟨s, cf₀, cf, hs, hentry, hrun, hview⟩

end LinuxFibers
