import Mathlib.Data.Finset.Max
import LinuxFibers.Simulation.Operations

/-!
# The order in which the calendar queue delivers

The direct search takes a least priority but leaves `buckettop` where the scan gave up, so that the next scan may
start at the bucket of one year with the top of another. `delivers_in_order` says which runs take a least priority
every time. A queue that stands at the bucket of the last priority always does, and so does one whose top is off, unless
it is one bucket behind or one short of a whole year ahead.
-/

namespace LinuxFibers

open Outcomes Runs

namespace Calqueue

variable {α : Type} {q : Calqueue α} {x e : CalqueueNode α}

/-! ### When the search finds the least -/

/-- How many buckets the scan passes before it comes to that of a priority. -/
def distance (q : Calqueue α) (priority : ℚ≥0) : Nat :=
  (q.place priority + (q.nbuckets - q.lastbucket)) % q.nbuckets

/-- The priority lies below the top that the scan has when it comes to its bucket. -/
def Due (q : Calqueue α) (priority : ℚ≥0) : Prop := (priority : ℚ) < q.level (q.distance priority)

/-- If anything in the queue is due, then so is the least, and nothing that is due lies in an earlier bucket. -/
def InStep (q : Calqueue α) : Prop := ∀ m ∈ q.nodes, (∀ y ∈ q.nodes, m.priority ≤ y.priority) → ∀ x ∈ q.nodes,
  q.Due x.priority → q.Due m.priority ∧ q.distance m.priority ≤ q.distance x.priority

section search

variable {i : Nat} {top : ℚ}

theorem distance_lt (h : q.Shape) (priority : ℚ≥0) : q.distance priority < q.nbuckets := Nat.mod_lt _ h.buckets

theorem slot_distance (h : q.Shape) (priority : ℚ≥0) : q.slot (q.distance priority) = q.place priority := by
  have hlast := h.last
  have hplace := place_lt h priority
  rw [slot, distance, Nat.add_mod_mod, show q.lastbucket + (q.place priority + (q.nbuckets - q.lastbucket)) =
    q.place priority + q.nbuckets by omega, Nat.add_mod_right, Nat.mod_eq_of_lt hplace]

theorem distance_of_slot (h : q.Shape) {k : Nat} (hk : k < q.nbuckets) {priority : ℚ≥0}
    (hplace : q.place priority = q.slot k) : q.distance priority = k := by
  have hlast := h.last
  rw [distance, hplace, slot, Nat.mod_add_mod, show q.lastbucket + k + (q.nbuckets - q.lastbucket) =
    k + q.nbuckets by omega, Nat.add_mod_right, Nat.mod_eq_of_lt hk]

theorem place_of_distance (h : q.Shape) {priority priority' : ℚ≥0}
    (hd : q.distance priority = q.distance priority') : q.place priority = q.place priority' := by
  rw [← slot_distance h, hd, slot_distance h]

/-- A node that is due stops the scan at its bucket. -/
theorem hit_of_due (h : q.Shape) (hx : x ∈ q.nodes) (hdue : q.Due x.priority) : q.Hit (q.distance x.priority) := by
  have hmem := h.mem_bucket hx
  have hlt := place_lt h x.priority
  rw [Hit, slot_distance h]
  cases hb : q.bucket (q.place x.priority) with
  | nil =>
    rw [hb] at hmem
    cases hmem
  | cons y l =>
    have hy : y ∈ (q.bucket (q.place x.priority)).head? := by rw [hb]; rfl
    have hle : (y.priority : ℚ) ≤ x.priority := by exact_mod_cast h.head_le hlt hy hmem
    exact ⟨y, rfl, hle.trans_lt hdue⟩

theorem mem_of_head (hi : i < q.nbuckets) (he : e ∈ (q.bucket i).head?) : e ∈ q.nodes :=
  mem_nodes.mpr ⟨i, hi, List.mem_of_mem_head? he⟩

/-- **The search finds a least priority** exactly when the queue is in step. -/
theorem Search.least_iff (h : q.Shape) (hs : q.Search i top e) :
    (∀ y ∈ q.nodes, e.priority ≤ y.priority) ↔ q.InStep := by
  cases hs with
  | @scanned k e hk he hbelow hbefore =>
    have hmem := mem_of_head (slot_lt h k) he
    have hplace := h.placed _ (slot_lt h k) e (List.mem_of_mem_head? he)
    have hdist := distance_of_slot h hk hplace
    have hdue : q.Due e.priority := by rwa [Due, hdist]
    constructor
    · intro hleast m hm hmin x hx hxdue
      -- nodes of one priority are in one bucket, and what is due at `x` would have stopped the scan there
      have heq : m.priority = e.priority := le_antisymm (hmin e hmem) (hleast m hm)
      rw [heq]
      refine ⟨hdue, ?_⟩
      rw [hdist]
      by_contra hlt
      exact hbefore _ (not_le.mp hlt) (hit_of_due h hx hxdue)
    · intro hstep y hy
      have hne : q.nodes ≠ 0 := by
        intro hnone
        rw [hnone] at hy
        exact Multiset.notMem_zero y hy
      obtain ⟨m, hm, hmin⟩ := Multiset.exists_min_image CalqueueNode.priority hne
      obtain ⟨hmdue, hle⟩ := hstep m hm hmin e hmem hdue
      have hd : q.distance m.priority = k := by
        rcases Nat.lt_or_ge (q.distance m.priority) k with hlt | hge
        · exact absurd (hit_of_due h hm hmdue) (hbefore _ hlt)
        · omega
      have hbucket := h.mem_bucket hm
      rw [place_of_distance h (hd.trans hdist.symm), hplace] at hbucket
      exact (h.head_le (slot_lt h k) he hbucket).trans (hmin y hy)
  | direct hi he hnone hleast =>
    refine ⟨fun _ m hm hmin x hx hxdue => ?_, fun _ => hleast⟩
    exact absurd (hit_of_due h hx hxdue) (hnone _ (distance_lt h _))

end search

/-! ### Where the queue stands -/

/-- The top is not in the middle of the bucket of the last priority, nor in the middle of the bucket one year on. -/
def Aligned (q : Calqueue α) : Prop :=
  q.buckettop ≠ (q.virtual q.lastprio + 1 / 2) * q.cwidth ∧
    q.buckettop ≠ (q.virtual q.lastprio + q.nbuckets + 1 / 2) * q.cwidth

instance (q : Calqueue α) : Decidable q.Aligned := inferInstanceAs (Decidable (_ ∧ _))

/-- The queue stands at the bucket of the last priority, which is not above what it holds, with the top of some
bucket `n`. -/
structure Positioned (q : Calqueue α) (n : ℤ) : Prop where
  lastbucket : q.lastbucket = q.place q.lastprio
  buckettop : q.buckettop = (n + 3 / 2) * q.cwidth
  ahead : n ≤ q.virtual q.lastprio + q.nbuckets - 1
  above : ∀ y ∈ q.nodes, q.lastprio ≤ y.priority

section position

variable {n : ℤ} {priority : ℚ≥0}

theorem virtual_le (h : q.Shape) : (q.virtual priority : ℚ) ≤ priority / q.cwidth :=
  Nat.floor_le (div_nonneg priority.coe_nonneg h.width.le)

theorem lt_virtual_succ (q : Calqueue α) (priority : ℚ≥0) : (priority : ℚ) / q.cwidth < q.virtual priority + 1 :=
  Nat.lt_floor_add_one _

theorem virtual_mono (h : q.Shape) {priority' : ℚ≥0} (hle : priority ≤ priority') :
    q.virtual priority ≤ q.virtual priority' :=
  Nat.floor_le_floor (div_le_div_of_nonneg_right (by exact_mod_cast hle) h.width.le)

/-- Virtual buckets of one bucket are years apart. -/
theorem Positioned.virtual_eq (h : q.Shape) (hpos : q.Positioned n) (hle : q.lastprio ≤ priority) :
    ∃ years, q.virtual priority = q.virtual q.lastprio + q.distance priority + years * q.nbuckets := by
  obtain ⟨d, hd⟩ := Nat.exists_eq_add_of_le (virtual_mono h hle)
  have hdistance : q.distance priority = d % q.nbuckets := by
    have hlast := h.last
    have hdiv := Nat.div_add_mod (q.virtual q.lastprio) q.nbuckets
    have hplace : q.virtual q.lastprio % q.nbuckets = q.lastbucket := hpos.lastbucket.symm
    rw [distance, place, Nat.mod_add_mod, ← Nat.add_mul_mod_self_left d q.nbuckets (q.virtual q.lastprio / q.nbuckets + 1),
      Nat.mul_succ]
    congr 1
    omega
  refine ⟨d / q.nbuckets, ?_⟩
  have hdiv := Nat.div_add_mod d q.nbuckets
  rw [hdistance, hd, Nat.mul_comm]
  omega

theorem Positioned.level_eq (hpos : q.Positioned n) (k : Nat) : q.level k = (n + k + 3 / 2) * q.cwidth := by
  rw [level, hpos.buckettop]
  ring

/-- What is due is at most one bucket beyond the one that the top belongs to. -/
theorem Positioned.virtual_le_of_due (h : q.Shape) (hpos : q.Positioned n) (hdue : q.Due priority) :
    (q.virtual priority : ℤ) ≤ n + q.distance priority + 1 := by
  rw [Due, hpos.level_eq, ← div_lt_iff₀ h.width] at hdue
  have hlt : (q.virtual priority : ℚ) < n + q.distance priority + 3 / 2 := (virtual_le h).trans_lt hdue
  by_contra hgt
  have hge : n + q.distance priority + 2 ≤ (q.virtual priority : ℤ) := by omega
  have hcast : (n : ℚ) + q.distance priority + 2 ≤ q.virtual priority := by exact_mod_cast hge
  linarith

/-- What is not beyond that bucket is due. -/
theorem Positioned.due_of_virtual_le (h : q.Shape) (hpos : q.Positioned n)
    (hle : (q.virtual priority : ℤ) ≤ n + q.distance priority) : q.Due priority := by
  rw [Due, hpos.level_eq, ← div_lt_iff₀ h.width]
  have hcast : (q.virtual priority : ℚ) ≤ n + q.distance priority := by exact_mod_cast hle
  have hlt := lt_virtual_succ q priority
  linarith

/-- **A queue that is aligned is in step.** -/
theorem Positioned.inStep (h : q.Shape) (hpos : q.Positioned n) (haligned : q.Aligned) : q.InStep := by
  intro m hm hmin x hx hdue
  obtain ⟨years, hyears⟩ := hpos.virtual_eq h (hpos.above x hx)
  obtain ⟨years', hyears'⟩ := hpos.virtual_eq h (hpos.above m hm)
  have hmono := virtual_mono h (hmin x hx)
  have hlt := distance_lt h x.priority
  have hbound := hpos.virtual_le_of_due h hdue
  have hahead := hpos.ahead
  -- the two tops that are excluded are those of the buckets `n` for which the bound leaves a choice
  have hbehind : n ≠ q.virtual q.lastprio - 1 := by
    rintro rfl
    refine haligned.1 (hpos.buckettop.trans ?_)
    push_cast
    ring
  have hyear : n ≠ q.virtual q.lastprio + q.nbuckets - 1 := by
    rintro rfl
    refine haligned.2 (hpos.buckettop.trans ?_)
    push_cast
    ring
  have hzero : years = 0 := by
    by_contra hne
    have hmul : 1 * q.nbuckets ≤ years * q.nbuckets := Nat.mul_le_mul_right _ (Nat.pos_of_ne_zero hne)
    omega
  have hzero' : years' = 0 := by
    by_contra hne
    have hmul : 1 * q.nbuckets ≤ years' * q.nbuckets := Nat.mul_le_mul_right _ (Nat.pos_of_ne_zero hne)
    rw [hzero] at hyears
    omega
  rw [hzero] at hyears
  rw [hzero'] at hyears'
  exact ⟨hpos.due_of_virtual_le h (by omega), by omega⟩

/-- A queue at the bucket of its last priority. -/
theorem Fresh.positioned (hfresh : q.Fresh) (h : q.Shape) (habove : ∀ y ∈ q.nodes, q.lastprio ≤ y.priority) :
    q.Positioned (q.virtual q.lastprio) := by
  refine ⟨hfresh.lastbucket, ?_, ?_, habove⟩
  · rw [hfresh.buckettop, Int.cast_natCast]
  · have hpos := h.buckets
    omega

/-- Another queue on the same calendar that stands where this one does. -/
theorem Positioned.congr {p : Calqueue α} (hpos : q.Positioned n) (hlike : Like q p) (hstands : Stands q p)
    (habove : ∀ y ∈ p.nodes, p.lastprio ≤ y.priority) : p.Positioned n where
  lastbucket := by rw [hstands.lastbucket, hstands.lastprio, hlike.place, hpos.lastbucket]
  buckettop := by rw [hstands.buckettop, hlike.cwidth, hpos.buckettop]
  ahead := by
    rw [hstands.lastprio, hlike.virtual, hlike.nbuckets]
    exact hpos.ahead
  above := habove

/-- The search leaves the top at most a year ahead of the node that it comes to. -/
theorem Positioned.take (h : q.Shape) (hpos : q.Positioned n) {i : Nat} {top : ℚ} {rest : List (CalqueueNode α)}
    (hi : i < q.nbuckets) (hb : q.bucket i = e :: rest) (hs : q.Search i top e)
    (hleast : ∀ y ∈ q.nodes, e.priority ≤ y.priority) : ∃ n', (q.take i top e rest).Positioned n' := by
  have hmem : e ∈ q.nodes := mem_nodes.mpr ⟨i, hi, by rw [hb]; exact List.mem_cons_self⟩
  have hplace : q.place e.priority = i := h.placed i hi e (by rw [hb]; exact List.mem_cons_self)
  have habove : ∀ y ∈ (q.take i top e rest).nodes, e.priority ≤ y.priority := by
    intro y hy
    refine hleast y ?_
    rw [nodes_take hi hb]
    exact Multiset.mem_cons_of_mem hy
  obtain ⟨years, hyears⟩ := hpos.virtual_eq h (hpos.above e hmem)
  have hahead := hpos.ahead
  cases hs with
  | @scanned k e hk he hbelow hbefore =>
    rw [distance_of_slot h hk hplace] at hyears
    refine ⟨n + k, hplace.symm, ?_, ?_, habove⟩
    · have hlevel := hpos.level_eq k
      push_cast
      exact hlevel
    · show n + k ≤ (q.virtual e.priority : ℤ) + q.nbuckets - 1
      omega
  | direct hi he hnone hleast =>
    have hnotdue : ¬ q.Due e.priority := fun hdue => hnone _ (distance_lt h _) (hit_of_due h hmem hdue)
    have hbeyond : ¬ (q.virtual e.priority : ℤ) ≤ n + q.distance e.priority :=
      fun hle => hnotdue (hpos.due_of_virtual_le h hle)
    refine ⟨n + q.nbuckets, hplace.symm, ?_, ?_, habove⟩
    · have hlevel := hpos.level_eq q.nbuckets
      push_cast
      exact hlevel
    · show n + q.nbuckets ≤ (q.virtual e.priority : ℤ) + q.nbuckets - 1
      omega

end position

/-! ### Runs -/

/-- What is asked of the queue when a node is taken from it. -/
def AtGet (P : Calqueue α → Prop) (q : Calqueue α) : Event α → Prop
  | .put _ => True
  | .get _ => q.nodes ≠ 0 → P q

/-- The node that is taken is a least one. -/
def TakesLeast (q : Calqueue α) (ev : Event α) : Prop := PriorityBag.Least CalqueueNode.priority q.nodes ev

/-- No priority is put below the last one taken. -/
def Forward (tr : List (Event α)) : Prop := PriorityBag.Forward CalqueueNode.priority tr

/-- The last priority taken, at first 0. -/
def lastTaken (tr : List (Event α)) : ℚ≥0 := ((PriorityBag.removed tr).head?.map CalqueueNode.priority).getD 0

section run

variable {p : Calqueue α} {tr : List (Event α)} {ev : Event α}

theorem lastTaken_le (hforward : Forward (.put x :: tr)) : lastTaken tr ≤ x.priority := by
  have hput : ∀ y ∈ (PriorityBag.removed tr).head?, y.priority ≤ x.priority := hforward.1
  rw [lastTaken]
  cases h : (PriorityBag.removed tr).head? with
  | none => exact zero_le
  | some y => exact hput y h

/-- A step takes a least node exactly when it finds the queue in step. -/
theorem Step.takesLeast_iff (hwf : q.Wf) (hstep : Step q ev p) : q.TakesLeast ev ↔ AtGet InStep q ev := by
  cases hstep with
  | put _ => exact Iff.rfl
  | get h =>
    refine forall_congr' fun hne => ?_
    rcases (deq_yields hwf).of_ok h with ⟨hempty, -⟩ | ⟨i, top, e, rest, -, -, hfound, heq, -⟩
    · exact absurd hempty hne
    · simp only at heq
      rw [← hfound.least_iff hwf.toShape, heq]
      constructor
      · rintro ⟨x, hx, hleast⟩
        rwa [Option.some.inj hx]
      · exact fun hleast => ⟨e, rfl, hleast⟩

/-- A step that finds the queue in step leaves it standing at the last priority taken. -/
theorem Step.positioned (hwf : q.Wf) (hstep : Step q ev p) (hleast : q.TakesLeast ev) (hforward : Forward (ev :: tr))
    (hlast : q.lastprio = lastTaken tr) {n : ℤ} (hpos : q.Positioned n) :
    (∃ n', p.Positioned n') ∧ p.lastprio = lastTaken (ev :: tr) := by
  cases hstep with
  | @put _ x h =>
    obtain ⟨hwf', hnodes, hlastprio, hstands⟩ := (put_yields hwf).of_ok h
    have habove : ∀ y ∈ p.nodes, p.lastprio ≤ y.priority := by
      intro y hy
      rw [hnodes] at hy
      rw [hlastprio]
      rcases Multiset.mem_cons.mp hy with rfl | hy
      · exact hlast.trans_le (lastTaken_le hforward)
      · exact hpos.above y hy
    refine ⟨?_, hlastprio.trans hlast⟩
    rcases hstands with hfresh | ⟨hlike, hstands⟩
    · exact ⟨_, hfresh.positioned hwf'.toShape habove⟩
    · exact ⟨n, hpos.congr hlike hstands habove⟩
  | get h =>
    rcases (deq_yields hwf).of_ok h with ⟨-, heq⟩ | ⟨i, top, e, rest, hi, hb, hfound, heq, hwf', hnodes, hlastprio, hor⟩
    · obtain ⟨rfl, rfl⟩ := Prod.mk.inj heq
      exact ⟨⟨n, hpos⟩, hlast⟩
    · simp only at heq hnodes hlastprio hor hwf'
      subst heq
      refine ⟨?_, hlastprio⟩
      obtain ⟨x, hx, hmin⟩ := hleast (hnodes ▸ Multiset.cons_ne_zero)
      obtain rfl := Option.some.inj hx
      rcases hor with hfresh | rfl
      · refine ⟨_, hfresh.positioned hwf'.toShape fun y hy => ?_⟩
        rw [hlastprio]
        exact hmin y (hnodes ▸ Multiset.mem_cons_of_mem hy)
      · exact hpos.take hwf.toShape hi hb hfound hmin

/-- A run whose gets find the queue aligned takes a least node every time. -/
theorem run_aligned (hrun : Run Started (Guarded (AtGet Aligned) Step) q tr) (hforward : Forward tr) :
    Run Started (Guarded TakesLeast Step) q tr ∧ (∃ n, q.Positioned n) ∧ q.lastprio = lastTaken tr := by
  induction hrun with
  | start h =>
    obtain ⟨garbage, hinit⟩ := h
    obtain ⟨hwf, hfresh, hnodes, hlastprio⟩ := init_yields.of_ok hinit
    refine ⟨.start ⟨garbage, hinit⟩, ⟨_, hfresh.positioned hwf.toShape fun y hy => ?_⟩, hlastprio⟩
    rw [hlastprio]
    exact zero_le
  | @step q p tr ev _ hs ih =>
    obtain ⟨hstep, haligned⟩ := hs
    have hforward' : Forward tr := by
      cases ev with
      | put _ => exact hforward.2
      | get _ => exact hforward
    obtain ⟨hrun, ⟨n, hpos⟩, hlast⟩ := ih hforward'
    have hwf := run_wf hrun.of_guarded
    have hleast : q.TakesLeast ev := by
      refine (hstep.takesLeast_iff hwf).mpr ?_
      cases ev with
      | put _ => exact trivial
      | get _ => exact fun hne => hpos.inStep hwf.toShape (haligned hne)
    exact ⟨hrun.step ⟨hstep, hleast⟩, hstep.positioned hwf hleast hforward hlast hpos⟩

/-- What a run takes that takes a least node every time is in order. -/
theorem removed_sorted (hrun : Run Started (Guarded TakesLeast Step) q tr) (hforward : Forward tr) :
    (PriorityBag.removed tr).Pairwise fun a b => b.priority ≤ a.priority := by
  have hbag : Run (· = 0) (Guarded (PriorityBag.Least CalqueueNode.priority) PriorityBag.Step) q.nodes tr := by
    refine Run.simulate nodes (P := fun _ => True) (fun _ _ _ => trivial) ?_ ?_ hrun trivial
    · rintro q ⟨garbage, hinit⟩
      exact (init_yields.of_ok hinit).2.2.1
    · exact fun q tr ev p hr _ hs => ⟨(hs.1.nodes (run_wf hr.of_guarded)).2, hs.2⟩
  exact (PriorityBag.removed_sorted hbag hforward).1

/-- **When the calendar queue delivers in order.** A run takes a least node every time exactly when each get finds the
queue in step. When no put is below the last priority taken, what such a run takes is in order; and a run whose gets
all find the queue aligned is such a run. -/
theorem delivers_in_order (q : Calqueue α) (tr : List (Event α)) :
    (Run Started (Guarded TakesLeast Step) q tr ↔ Run Started (Guarded (AtGet InStep) Step) q tr) ∧
    (Forward tr → Run Started (Guarded (AtGet InStep) Step) q tr →
      (PriorityBag.removed tr).Pairwise fun a b => b.priority ≤ a.priority) ∧
    (Forward tr → Run Started (Guarded (AtGet Aligned) Step) q tr → Run Started (Guarded TakesLeast Step) q tr) := by
  have hiff : Run Started (Guarded TakesLeast Step) q tr ↔ Run Started (Guarded (AtGet InStep) Step) q tr :=
    Run.guarded_iff fun q tr ev p hrun hstep => hstep.takesLeast_iff (run_wf hrun)
  refine ⟨hiff, fun hforward hrun => ?_, fun hforward hrun => (run_aligned hrun hforward).1⟩
  exact removed_sorted (hiff.mpr hrun) hforward

end run

/-! ### A run in order and a run out of order -/

/-- 3.4 is found by the direct search, which leaves the top at 4.5, that of its bucket. -/
def steady : List (Event Unit) := [.get (some ⟨21 / 5, ()⟩), .get (some ⟨17 / 5, ()⟩), .put ⟨21 / 5, ()⟩,
  .get (some ⟨7 / 5, ()⟩), .put ⟨7 / 5, ()⟩, .get (some ⟨1 / 5, ()⟩), .put ⟨17 / 5, ()⟩, .put ⟨1 / 5, ()⟩]

theorem played_steady : (played zeroed (fun q _ => decide q.Aligned) steady).map (fun _ => ()) = some () := by
  decide +kernel

theorem delivers_in_order_steady : Forward steady ∧ ∃ q, Run Started (Guarded (AtGet Aligned) Step) q steady ∧
    Run Started (Guarded TakesLeast Step) q steady ∧ Run Started (Guarded (AtGet InStep) Step) q steady ∧
    (PriorityBag.removed steady).Pairwise fun a b => b.priority ≤ a.priority := by
  have hforward : Forward steady := by
    refine ⟨?_, ?_, ?_, ?_, trivial⟩
    · decide +kernel
    · decide +kernel
    · decide +kernel
    · decide +kernel
  have hok : ∀ (q : Calqueue Unit) (e : Event Unit), decide q.Aligned = true → AtGet Aligned q e := by
    intro q e haligned
    cases e with
    | put x => trivial
    | get node => exact fun _ => of_decide_eq_true haligned
  obtain ⟨q, hrun, -⟩ := exists_of_played (AtGet Aligned) hok played_steady
  obtain ⟨hiff, hsorted, hleast⟩ := delivers_in_order q steady
  have hinStep := hiff.mp (hleast hforward hrun)
  exact ⟨hforward, q, hrun, hleast hforward hrun, hinStep, hsorted hforward hinStep⟩

/-- 3.2 is found by the direct search, which leaves the top in the middle of the bucket from 3 to 4. -/
def slip : List (Event Unit) := [.get (some ⟨19 / 5, ()⟩), .get (some ⟨41 / 10, ()⟩), .put ⟨41 / 10, ()⟩,
  .put ⟨19 / 5, ()⟩, .get (some ⟨16 / 5, ()⟩), .put ⟨16 / 5, ()⟩]

theorem played_slip : (played zeroed (fun _ _ => true) slip).map (fun _ => ()) = some () := by
  decide +kernel

/-- 4.1 is taken while 3.8 is in the queue. -/
theorem takes_larger : Forward slip ∧ ∃ q, Run Started Step q slip ∧ ¬ Run Started (Guarded TakesLeast Step) q slip ∧
    ¬ (PriorityBag.removed slip).Pairwise fun a b => b.priority ≤ a.priority := by
  have hforward : Forward slip := by
    refine ⟨?_, ?_, ?_, trivial⟩
    · decide +kernel
    · decide +kernel
    · decide +kernel
  have hunsorted : ¬ (PriorityBag.removed slip).Pairwise fun a b => b.priority ≤ a.priority := by
    decide +kernel
  obtain ⟨q, hrun, -⟩ := exists_of_played (fun _ _ => True) (fun _ _ _ => trivial) played_slip
  refine ⟨hforward, q, hrun.of_guarded, fun hleast => ?_, hunsorted⟩
  exact hunsorted (removed_sorted hleast hforward)

end Calqueue

end LinuxFibers
