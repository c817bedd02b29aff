import LinuxFibers.Base.Bag
import LinuxFibers.Simulation.Resize

/-!
# The operations of the calendar queue

`Wf` is what every operation keeps: the calendar has a power of two of buckets, lies at one end of `calq` and is not
overfull. In a run from `calqueue_init` every operation is a step of a bag (`run_nodes`), and where one fails, a
width or a quotient was outside its range (`faults_excluded`).
-/

namespace LinuxFibers

open Outcomes Runs

namespace Calqueue

variable {α : Type} {q : Calqueue α} {x : CalqueueNode α}

structure Wf (q : Calqueue α) : Prop extends q.Shape, q.Thresholds where
  enabled : q.resizeEnabled = true
  power : ∃ k, 1 ≤ k ∧ k ≤ 15 ∧ q.nbuckets = 2 ^ k
  base : q.firstsub = 0 ∨ q.firstsub = calqspace - q.nbuckets
  load : q.nbuckets < maxnbuckets → q.qsize ≤ 2 * q.nbuckets

theorem Wf.le_max (h : q.Wf) : q.nbuckets ≤ maxnbuckets := by
  obtain ⟨k, -, hk, hn⟩ := h.power
  rw [hn]
  exact Nat.pow_le_pow_right (by decide) hk

/-- A power of two below the largest is at most half of it. -/
theorem Wf.double_le (h : q.Wf) (hlt : q.nbuckets < maxnbuckets) : 2 * q.nbuckets ≤ maxnbuckets := by
  obtain ⟨k, -, -, hn⟩ := h.power
  have hk : k < 15 := by
    rw [hn] at hlt
    exact (Nat.pow_lt_pow_iff_right (by decide)).mp hlt
  have hpow : 2 ^ (k + 1) ≤ 2 ^ 15 := Nat.pow_le_pow_right (by decide) hk
  rw [hn, ← Nat.pow_succ']
  exact hpow

/-- The calendars of a resize do not overlap. -/
theorem Wf.apart (h : q.Wf) {n : Nat} (hn : q.nbuckets + n ≤ calqspace) :
    ∀ j < q.nbuckets, ¬ region (q.newbase n) n (q.firstsub + j) := by
  rintro j hj ⟨hlo, hhi⟩
  have hmax := h.le_max
  unfold newbase at hlo hhi
  unfold calqspace at *
  unfold maxnbuckets at hmax
  rcases h.base with hbase | hbase
  · rw [if_pos hbase] at hlo
    omega
  · unfold calqspace at hbase
    rw [if_neg (by omega)] at hhi
    omega

theorem newbase_base (n : Nat) : q.newbase n = 0 ∨ q.newbase n = calqspace - n := by
  unfold newbase
  split_ifs
  · exact .inr rfl
  · exact .inl rfl

/-- A resize to a number of buckets that is in order. -/
theorem Wf.resize {p : Calqueue α} {n : Nat} (h : q.Wf) (hshape : p.Shape) (hlike : Like q p)
    (hpower : ∃ k, 1 ≤ k ∧ k ≤ 15 ∧ n = 2 ^ k) (hroom : p.qsize ≤ 2 * n) (hn : q.nbuckets + n ≤ calqspace) :
    Yields CalqueueFault.Excluded (fun r => r.Wf ∧ r.Fresh ∧ r.nodes = p.nodes ∧ r.lastprio = p.lastprio)
      (p.resize n) := by
  have hpos : 0 < n := by
    obtain ⟨k, -, -, rfl⟩ := hpower
    exact Nat.pow_pos (by decide)
  have hapart : ∀ j < p.nbuckets, ¬ region (p.newbase n) n (p.firstsub + j) := by
    rw [hlike.nbuckets, hlike.firstsub, newbase, hlike.firstsub]
    exact h.apart hn
  refine (resize_yields hshape (hlike.resizeEnabled.trans h.enabled) hpos hroom hapart).mono ?_
  rintro r ⟨hshape', hfresh, hthresholds, hnodes, hfirstsub, hnbuckets, hlastprio, hon⟩
  refine ⟨⟨hshape', hthresholds, hon, hnbuckets ▸ hpower, ?_, fun _ => ?_⟩, hfresh, hnodes, hlastprio⟩
  · rw [hfirstsub, hnbuckets]
    exact newbase_base n
  · rw [hshape'.size, hnodes, ← hshape.size, hnbuckets]
    exact hroom

/-! ### Each operation -/

theorem init_yields : Yields CalqueueFault.Excluded
    (fun p => p.Wf ∧ p.Fresh ∧ p.nodes = 0 ∧ p.lastprio = 0) q.init := by
  rw [init]
  refine (localinit_yields (by decide) one_pos).bind ?_
  rintro p ⟨hshape, hfresh, hthresholds, hnodes, hfirstsub, hnbuckets, -, hlastprio, -, -⟩
  refine ⟨⟨⟨hshape.buckets, hshape.width, hshape.sorted, hshape.placed, hshape.size, hshape.last⟩,
    ⟨hthresholds.top, hthresholds.bot⟩, rfl, ⟨1, by decide, by decide, hnbuckets⟩, .inl hfirstsub, fun _ => ?_⟩,
    ⟨hfresh.lastbucket, hfresh.buckettop⟩, hnodes, hlastprio⟩
  show p.qsize ≤ _
  rw [hshape.size, hnodes, Multiset.card_zero]
  exact Nat.zero_le _

/-- A put adds its node, and leaves the queue where it stands or at the bucket of the last priority. -/
theorem put_yields (h : q.Wf) : Yields CalqueueFault.Excluded (fun p => p.Wf ∧ p.nodes = x ::ₘ q.nodes ∧
    p.lastprio = q.lastprio ∧ (p.Fresh ∨ Like q p ∧ Stands q p)) (q.put x) := by
  have hnodes : (q.store x (q.place x.priority)).nodes = x ::ₘ q.nodes := nodes_store (place_lt h.toShape _)
  refine putWith_yields (fun _ hmax => ?_) fun hroom => ?_
  · have hdouble := h.double_le hmax
    have hload := h.load hmax
    have hpos := h.buckets
    have hpower : ∃ k, 1 ≤ k ∧ k ≤ 15 ∧ 2 * q.nbuckets = 2 ^ k := by
      obtain ⟨k, -, -, hn⟩ := h.power
      refine ⟨k + 1, by omega, ?_, by rw [hn, Nat.pow_succ']⟩
      have hlt : 2 ^ k < 2 ^ 15 := by
        rw [← hn]
        exact hmax
      exact (Nat.pow_lt_pow_iff_right (by decide)).mp hlt
    have hsize : q.qsize + 1 ≤ 2 * (2 * q.nbuckets) := by omega
    refine (h.resize h.toShape.store like_store hpower hsize ?_).mono ?_
    · unfold calqspace
      unfold maxnbuckets at hdouble
      omega
    · rintro p ⟨hwf, hfresh, hsame, hlastprio⟩
      exact ⟨hwf, hsame.trans hnodes, hlastprio, .inl hfresh⟩
  · refine ⟨⟨h.toShape.store, ⟨h.top, h.bot⟩, h.enabled, h.power, h.base, fun hmax => ?_⟩, hnodes, rfl,
      .inr ⟨like_store, rfl, rfl, rfl⟩⟩
    have htop : ¬ q.topThreshold < (q.qsize + 1 : Nat) := fun htop => hroom ⟨htop, hmax⟩
    rw [h.top] at htop
    show q.qsize + 1 ≤ 2 * q.nbuckets
    omega

/-- A dequeue takes the node that the search comes to. -/
theorem deq_yields (h : q.Wf) : Yields CalqueueFault.Excluded (fun r => (q.nodes = 0 ∧ r = (none, q)) ∨
    ∃ i top e rest, i < q.nbuckets ∧ q.bucket i = e :: rest ∧ q.Search i top e ∧ r.1 = some e ∧ r.2.Wf ∧
      q.nodes = e ::ₘ r.2.nodes ∧ r.2.lastprio = e.priority ∧ (r.2.Fresh ∨ r.2 = q.take i top e rest)) q.deq := by
  refine deqWith_yields h.toShape (fun hempty => .inl ⟨hempty, rfl⟩) fun i top e rest hi hb hfound => ?_
  have hnodes : q.nodes = e ::ₘ (q.take i top e rest).nodes := nodes_take hi hb
  refine ⟨fun hsmall => ?_, fun hlarge => ?_⟩
  · rw [h.bot] at hsmall
    obtain ⟨k, hk1, hk, hn⟩ := h.power
    have hhalf : q.nbuckets / 2 = 2 ^ (k - 1) := by
      rw [hn, ← Nat.succ_pred_eq_of_pos hk1, Nat.pow_succ, Nat.mul_div_cancel _ (by decide)]
      rfl
    have hpower : ∃ k, 1 ≤ k ∧ k ≤ 15 ∧ q.nbuckets / 2 = 2 ^ k := by
      refine ⟨k - 1, ?_, by omega, hhalf⟩
      by_contra hzero
      rw [hhalf, show k - 1 = 0 by omega] at hsmall
      omega
    have hsize : q.qsize - 1 ≤ 2 * (q.nbuckets / 2) := by omega
    refine (h.resize (h.toShape.take hi hb) like_take hpower hsize ?_).mono ?_
    · have hmax := h.le_max
      unfold calqspace
      unfold maxnbuckets at hmax
      omega
    · rintro p ⟨hwf, hfresh, hsame, hlastprio⟩
      exact .inr ⟨i, top, e, rest, hi, hb, hfound, rfl, hwf, hnodes.trans (by rw [hsame]), hlastprio, .inl hfresh⟩
  · refine .inr ⟨i, top, e, rest, hi, hb, hfound, rfl, ?_, hnodes, rfl, .inr rfl⟩
    refine ⟨h.toShape.take hi hb, ⟨h.top, h.bot⟩, h.enabled, h.power, h.base, fun hmax => ?_⟩
    have hload := h.load hmax
    show q.qsize - 1 ≤ 2 * q.nbuckets
    omega

/-! ### Runs -/

/-- What is put into the queue and taken out of it. -/
abbrev Event (α : Type) := PriorityBag.Event (CalqueueNode α)

inductive Step : Calqueue α → Event α → Calqueue α → Prop
  | put {q p : Calqueue α} {x : CalqueueNode α} (h : q.put x = .ok p) : Step q (.put x) p
  | get {q p : Calqueue α} {node : Option (CalqueueNode α)} (h : q.deq = .ok (node, p)) : Step q (.get node) p

/-- The queue as `calqueue_init` leaves it. -/
def Started (q : Calqueue α) : Prop := ∃ garbage : Calqueue α, garbage.init = .ok q

section run

variable {p : Calqueue α} {tr : List (Event α)} {e : Event α}

/-- `get` returns the payload of the node that is taken. -/
theorem get_ok_iff {payload : Option α} :
    q.get = .ok (payload, p) ↔ ∃ node, Step q (.get node) p ∧ node.map CalqueueNode.payload = payload := by
  rw [get]
  cases hdeq : q.deq with
  | error f =>
    refine ⟨fun h => (by cases h), ?_⟩
    rintro ⟨node, hstep, -⟩
    cases hstep with
    | get h => cases hdeq.symm.trans h
  | ok r =>
    obtain ⟨node, p'⟩ := r
    constructor
    · intro h
      cases h
      exact ⟨node, .get hdeq, rfl⟩
    · rintro ⟨node', hstep, rfl⟩
      cases hstep with
      | get h =>
        cases hdeq.symm.trans h
        rfl

/-- An operation on a well-formed queue is a step of a bag. -/
theorem Step.nodes (h : Step q e p) (hwf : q.Wf) : p.Wf ∧ PriorityBag.Step q.nodes e p.nodes := by
  cases h with
  | put h =>
    obtain ⟨hwf', hnodes, -, -⟩ := (put_yields hwf).of_ok h
    exact ⟨hwf', hnodes ▸ .put⟩
  | get h =>
    rcases (deq_yields hwf).of_ok h with ⟨hempty, heq⟩ | ⟨i, top, e, rest, -, -, -, heq, hwf', hnodes, -, -⟩
    · obtain ⟨rfl, rfl⟩ := Prod.mk.inj heq
      exact ⟨hwf, hempty ▸ .empty⟩
    · simp only at heq hnodes
      rw [hnodes, heq]
      exact ⟨hwf', .get⟩

theorem run_wf (hrun : Run Started Step q tr) : q.Wf := by
  refine hrun.invariant (P := fun q _ => q.Wf) ?_ fun q tr e p _ hwf hstep => (hstep.nodes hwf).1
  rintro q ⟨garbage, hinit⟩
  exact (init_yields.of_ok hinit).1

/-- **The queue is a bag**: every run is a run of what the queue holds. -/
theorem run_nodes (hrun : Run Started Step q tr) : Run (· = 0) PriorityBag.Step q.nodes tr := by
  refine Run.simulate nodes (P := fun _ => True) (fun _ _ _ => trivial) ?_ ?_ hrun trivial
  · rintro q ⟨garbage, hinit⟩
    exact (init_yields.of_ok hinit).2.2.1
  · exact fun q tr e p hr _ hstep => (hstep.nodes (run_wf hr)).2

/-- **Where an operation of a run fails** a width was not positive, was divided by zero or a quotient was too large:
no search comes to a bucket that is not there, and no resize is entered twice. -/
theorem faults_excluded (hrun : Run Started Step q tr) {f : CalqueueFault} :
    (∀ x, q.put x = .error f → f.Excluded) ∧ (q.deq = .error f → f.Excluded) :=
  ⟨fun _ h => (put_yields (run_wf hrun)).of_error h, fun h => (deq_yields (run_wf hrun)).of_error h⟩

end run

/-! ### Runs that are computed -/

/-- The operation of an event, if it does what the event says. -/
def next [DecidableEq α] (q : Calqueue α) : Event α → Option (Calqueue α)
  | .put x => q.put x |>.toOption
  | .get node => q.deq.toOption.bind fun r => if r.1 = node then some r.2 else none

/-- The operations of a run on a new queue, each on a queue that passes the check. -/
def played [DecidableEq α] (garbage : Calqueue α) (ok : Calqueue α → Event α → Bool) (tr : List (Event α)) :
    Option (Calqueue α) :=
  garbage.init.toOption.bind fun q => follow next ok q tr.reverse

section played

variable [DecidableEq α]

theorem step_of_next {p : Calqueue α} {e : Event α} (h : q.next e = some p) : Step q e p := by
  cases e with
  | put x =>
    cases hput : q.put x with
    | error f =>
      rw [next, hput] at h
      cases h
    | ok p' =>
      rw [next, hput] at h
      cases h
      exact .put hput
  | get node =>
    cases hdeq : q.deq with
    | error f =>
      rw [next, hdeq] at h
      cases h
    | ok r =>
      rw [next, hdeq] at h
      simp only [Except.toOption, Option.bind_some] at h
      split_ifs at h with hnode
      subst hnode
      cases h
      exact .get hdeq

/-- What is played is a run whose steps meet what was checked. -/
theorem exists_of_played (guard : Calqueue α → Event α → Prop) {garbage : Calqueue α} {ok : Calqueue α → Event α → Bool}
    {tr : List (Event α)} {β : Type} {view : Calqueue α → β} {v : β} (hok : ∀ q e, ok q e = true → guard q e)
    (h : (played garbage ok tr).map view = some v) : ∃ q, Run Started (Guarded guard Step) q tr ∧ view q = v := by
  obtain ⟨q, hplayed, hview⟩ := Option.map_eq_some_iff.mp h
  obtain ⟨q₀, hinit, hfollow⟩ := Option.bind_eq_some_iff.mp hplayed
  have hstarted : Started q₀ := by
    refine ⟨garbage, ?_⟩
    cases hgarbage : garbage.init with
    | error f =>
      rw [hgarbage] at hinit
      cases hinit
    | ok q =>
      rw [hgarbage] at hinit
      rw [Option.some.inj hinit]
  have hrun := run_follow (fun q _ e _ => hok q e) (.start hstarted) hfollow
  rw [List.reverse_reverse, List.append_nil] at hrun
  refine ⟨q, ?_, hview⟩
  exact hrun.simulate id (P := fun _ => True) (fun _ _ _ => trivial) (fun _ h => h)
    (fun _ _ _ _ _ _ hs => ⟨step_of_next hs.1, hs.2⟩) trivial

end played

end Calqueue

end LinuxFibers
