import Mathlib.Logic.Basic
import Mathlib.Tactic.SplitIfs

/-!
# Runs of a labelled transition system

A run carries the events of its steps, the newest one first, so that what a theorem says about the
past of a state is a function of that list. `Run.invariant` is the one induction over runs; a
guarded system is the same system with the steps that meet a condition on the state before. `Along` says
of a whole sequence of events that each finds the state as it should be.
-/

namespace Runs

variable {S E : Type} {init : S → Prop} {step : S → E → S → Prop} {guard : S → E → Prop}

/-- `s` is reached from an initial state by the steps whose events are `tr`, newest first. -/
inductive Run (init : S → Prop) (step : S → E → S → Prop) : S → List E → Prop
  | start {s : S} : init s → Run init step s []
  | step {s s' : S} {tr : List E} {e : E} : Run init step s tr → step s e s' →
      Run init step s' (e :: tr)

def Reachable (init : S → Prop) (step : S → E → S → Prop) (s : S) : Prop :=
  ∃ tr, Run init step s tr

/-- The steps that are taken from a state that meets the condition. -/
def Guarded (guard : S → E → Prop) (step : S → E → S → Prop) : S → E → S → Prop :=
  fun s e s' => step s e s' ∧ guard s e

/-- What holds at the start and is kept by every step of a run holds along the run. -/
theorem Run.invariant {P : S → List E → Prop} (hinit : ∀ s, init s → P s [])
    (hstep : ∀ s tr e s', Run init step s tr → P s tr → step s e s' → P s' (e :: tr))
    {s : S} {tr : List E} (hrun : Run init step s tr) : P s tr := by
  induction hrun with
  | start h => exact hinit _ h
  | step hr hs ih => exact hstep _ _ _ _ hr ih hs

/-- What excludes the event `e` and is kept by all others lasts. -/
theorem Run.lasts {P : S → Prop} {e : E} (hinit : ∀ s, init s → P s) (hstuck : ∀ s s', P s → ¬ step s e s')
    (hother : ∀ s e' s', e' ≠ e → P s → step s e' s' → P s') {s : S} {tr : List E}
    (hrun : Run init step s tr) : P s := by
  refine hrun.invariant (P := fun s _ => P s) hinit fun s _ e' s' _ hP hs => ?_
  by_cases he : e' = e
  · subst he
    exact absurd hs (hstuck s s' hP)
  · exact hother s e' s' he hP hs

/-- The part of a thread that has no step, and that the steps of the others leave alone, stays as it is. -/
theorem Run.idle {A : Type} (part : S → E → A) {s₀ s : S} {tr : List E} {u : E} (hrun : Run (· = s₀) step s tr)
    (hstuck : ∀ s s', part s u = part s₀ u → ¬ step s u s')
    (hothers : ∀ s e s', u ≠ e → step s e s' → part s' u = part s u) : part s u = part s₀ u := by
  refine hrun.lasts (P := fun s => part s u = part s₀ u) (e := u) ?_ hstuck fun s e s' he hP hs => ?_
  · intro s he
    rw [he]
  · rw [hothers s e s' he.symm hs]
    exact hP

theorem Reachable.invariant {P : S → Prop} (hinit : ∀ s, init s → P s)
    (hstep : ∀ s e s', P s → step s e s' → P s') {s : S} (h : Reachable init step s) : P s := by
  obtain ⟨tr, hrun⟩ := h
  exact hrun.invariant (P := fun s _ => P s) hinit fun s _ e s' _ hP hs => hstep s e s' hP hs

theorem Reachable.of_init {s : S} (h : init s) : Reachable init step s := ⟨[], .start h⟩

theorem Reachable.tail {s s' : S} {e : E} (h : Reachable init step s) (hs : step s e s') :
    Reachable init step s' := by
  obtain ⟨tr, hrun⟩ := h
  exact ⟨e :: tr, hrun.step hs⟩

/-- A run maps to a run of another system, event by event, when the starts and the steps do. `P` is what
the steps may assume of the events up to and including their own. -/
theorem Run.simulate {S' : Type} {init' : S' → Prop} {step' : S' → E → S' → Prop} (abs : S → S')
    {P : List E → Prop} (htail : ∀ e tr, P (e :: tr) → P tr) (hinit : ∀ s, init s → init' (abs s))
    (hstep : ∀ s tr e s', Run init step s tr → P (e :: tr) → step s e s' → step' (abs s) e (abs s'))
    {s : S} {tr : List E} (hrun : Run init step s tr) (hP : P tr) : Run init' step' (abs s) tr := by
  induction hrun with
  | start h => exact .start (hinit _ h)
  | step hr hs ih => exact (ih (htail _ _ hP)).step (hstep _ _ _ _ hr hP hs)

/-- A run maps to a run of a system that does not see every event, when every step is simulated by the step of what is
seen of it, or by nothing. -/
theorem Run.simulate_visible {S' E' : Type} {init' : S' → Prop} {step' : S' → E' → S' → Prop} {visible : E → Option E'}
    {R : S → S' → Prop} (hinit : ∀ s, init s → ∃ x, init' x ∧ R s x)
    (hstep : ∀ s e s' x, R s x → step s e s' →
      ∃ x', R s' x' ∧ ((visible e = none ∧ x' = x) ∨ ∃ e', visible e = some e' ∧ step' x e' x'))
    {s : S} {tr : List E} (hrun : Run init step s tr) : ∃ x, R s x ∧ Run init' step' x (tr.filterMap visible) := by
  induction hrun with
  | start h =>
    obtain ⟨x, hx, hR⟩ := hinit _ h
    exact ⟨x, hR, .start hx⟩
  | step _ hs ih =>
    obtain ⟨x, hR, hx⟩ := ih
    obtain ⟨x', hR', ⟨hnone, rfl⟩ | ⟨e', hsome, hs'⟩⟩ := hstep _ _ _ _ hR hs
    · refine ⟨x', hR', ?_⟩
      rw [List.filterMap_cons_none hnone]
      exact hx
    · refine ⟨x', hR', ?_⟩
      rw [List.filterMap_cons_some hsome]
      exact hx.step hs'

/-- A run is no longer than a measure that every step takes something off. -/
theorem Run.length_add_le {μ : S → Nat} {b : Nat} (hinit : ∀ s, init s → μ s ≤ b)
    (hstep : ∀ s e s', step s e s' → μ s' < μ s) {s : S} {tr : List E} (hrun : Run init step s tr) :
    tr.length + μ s ≤ b := by
  induction hrun with
  | start h =>
    rw [List.length_nil, Nat.zero_add]
    exact hinit _ h
  | step _ hs ih =>
    have hlt := hstep _ _ _ hs
    rw [List.length_cons]
    omega

/-- A run all of whose steps meet the condition is a run. -/
theorem Run.of_guarded {s : S} {tr : List E} (h : Run init (Guarded guard step) s tr) :
    Run init step s tr := by
  induction h with
  | start h => exact .start h
  | step _ hs ih => exact ih.step hs.1

/-- Two conditions that agree on the steps of every run have the same runs. -/
theorem Run.guarded_iff {guard' : S → E → Prop}
    (h : ∀ s tr e s', Run init step s tr → step s e s' → (guard s e ↔ guard' s e)) {s : S} {tr : List E} :
    Run init (Guarded guard step) s tr ↔ Run init (Guarded guard' step) s tr := by
  constructor
  · intro hrun
    induction hrun with
    | start hs => exact .start hs
    | step hr hs ih => exact ih.step ⟨hs.1, (h _ _ _ _ hr.of_guarded hs.1).mp hs.2⟩
  · intro hrun
    induction hrun with
    | start hs => exact .start hs
    | step hr hs ih => exact ih.step ⟨hs.1, (h _ _ _ _ hr.of_guarded hs.1).mpr hs.2⟩

/-- A property that holds at the start, and after a step exactly if it held before and the step met the condition, says
that every step has met the condition. -/
theorem Run.holds_iff_guarded {P : S → Prop} (hinit : ∀ s, init s → P s)
    (hstep : ∀ s tr e s', Run init step s tr → step s e s' → (P s' ↔ P s ∧ guard s e)) {s : S} {tr : List E}
    (hrun : Run init step s tr) : P s ↔ Run init (Guarded guard step) s tr := by
  constructor
  · intro hP
    induction hrun with
    | start h => exact .start h
    | step hr hs ih =>
      obtain ⟨hP', hguard⟩ := (hstep _ _ _ _ hr hs).mp hP
      exact (ih hP').step ⟨hs, hguard⟩
  · intro hguarded
    induction hguarded with
    | start h => exact hinit _ h
    | step hr hs ih => exact (hstep _ _ _ _ hr.of_guarded hs.1).mpr ⟨ih hr.of_guarded, hs.2⟩

/-- A system that keeps a record, to which each step adds. -/
def Recording {A : Type} (step : S → E → S → Prop) (record : S → E → S → A → A) : S × A → E → S × A → Prop :=
  fun x e x' => step x.1 e x'.1 ∧ x'.2 = record x.1 e x'.1 x.2

/-- Keeping a record constrains no run. -/
theorem Run.recorded {A : Type} (record : S → E → S → A → A) (a : A) {s : S} {tr : List E} (h : Run init step s tr) :
    ∃ b, Run (fun x => init x.1 ∧ x.2 = a) (Recording step record) (s, b) tr := by
  induction h with
  | start h => exact ⟨a, .start ⟨h, rfl⟩⟩
  | @step s s' tr e _ hs ih =>
    obtain ⟨b, hb⟩ := ih
    exact ⟨record s e s' b, hb.step ⟨hs, rfl⟩⟩

theorem Run.of_recording {A : Type} {record : S → E → S → A → A} {a : A} {x : S × A} {tr : List E}
    (h : Run (fun x => init x.1 ∧ x.2 = a) (Recording step record) x tr) : Run init step x.1 tr := by
  induction h with
  | start h => exact .start h.1
  | step _ hs ih => exact ih.step hs.1

/-- The steps of a system that computes, for a list of events, each from a state that passes the check. -/
def follow (next : S → E → Option S) (ok : S → E → Bool) (s : S) : List E → Option S
  | [] => some s
  | e :: es => if ok s e then (next s e).bind fun s => follow next ok s es else none

/-- What is followed is a guarded run. -/
theorem run_follow {next : S → E → Option S} {ok : S → E → Bool} {s s' : S} {es tr : List E}
    (hok : ∀ s tr e, Run init (Guarded guard fun s e s' => next s e = some s') s tr → ok s e = true → guard s e)
    (hrun : Run init (Guarded guard fun s e s' => next s e = some s') s tr)
    (hfollow : follow next ok s es = some s') :
    Run init (Guarded guard fun s e s' => next s e = some s') s' (es.reverse ++ tr) := by
  induction es generalizing s tr with
  | nil =>
    obtain rfl := Option.some.inj hfollow
    exact hrun
  | cons e es ih =>
    rw [follow] at hfollow
    split_ifs at hfollow with hcheck
    obtain ⟨s₁, hnext, hrest⟩ := Option.bind_eq_some_iff.mp hfollow
    have hrun' := ih (hrun.step ⟨hnext, hok s tr e hrun hcheck⟩) hrest
    rw [List.reverse_cons, List.append_assoc]
    exact hrun'

/-- `P` holds of every event of the sequence, at each state the events before it lead to. -/
def Along (step : S → E → S → Prop) (P : S → E → Prop) : List E → S → Prop
  | [], _ => True
  | e :: es, s => P s e ∧ ∀ s', step s e s' → Along step P es s'

/-- Two properties that agree wherever an invariant holds agree along a sequence of events, if the
invariant survives the steps that have the second one. -/
theorem along_iff {I : S → Prop} {P Q : S → E → Prop} {es : List E}
    (hiff : ∀ s, ∀ e ∈ es, I s → (P s e ↔ Q s e))
    (hkeep : ∀ s, ∀ e ∈ es, ∀ s', I s → Q s e → step s e s' → I s') {s : S} (hs : I s) :
    Along step P es s ↔ Along step Q es s := by
  induction es generalizing s with
  | nil => exact Iff.rfl
  | cons e es ih =>
    have hrest := fun s' => ih (fun s e he => hiff s e (List.mem_cons_of_mem _ he))
      (fun s e he => hkeep s e (List.mem_cons_of_mem _ he)) (s := s')
    rw [Along, Along, hiff s e List.mem_cons_self hs]
    refine and_congr_right fun hq => forall₂_congr fun s' hs' => ?_
    exact hrest s' (hkeep s e List.mem_cons_self s' hs hq hs')

end Runs
