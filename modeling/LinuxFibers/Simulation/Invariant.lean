import LinuxFibers.Simulation.Order

/-!
# What every run keeps of the calendar

`Resizes` are the calls of `resize` that an operation makes. `queue_invariant` says of every run that the calendar is
in order, that two calendars never overlap in a resize and that the queue holds what was put and not yet taken.
-/

namespace LinuxFibers

open Outcomes Runs

namespace Calqueue

variable {α : Type} {q p : Calqueue α} {x : CalqueueNode α} {n : Nat}

/-! ### The calls of `resize` -/

/-- The calls of `resize`: from `put` with the node stored, from `deq` with the node taken. -/
inductive Resizes (q : Calqueue α) : Nat → Calqueue α → Prop
  | put {x : CalqueueNode α} {i : Nat} (hi : quotient (2 ^ 31) x.priority q.cwidth = .ok i)
      (htop : q.topThreshold < (q.qsize + 1 : Nat)) (hmax : q.nbuckets < maxnbuckets) :
      Resizes q (2 * q.nbuckets) (q.store x (i % q.nbuckets))
  | get {i : Nat} {top : ℚ} {e : CalqueueNode α} {rest : List (CalqueueNode α)} (hsize : q.qsize ≠ 0)
      (hsearch : q.search = .ok (i, top)) (hb : q.bucket i = e :: rest)
      (hbot : (q.qsize - 1 : Nat) < q.botThreshold) : Resizes q (q.nbuckets / 2) (q.take i top e rest)

/-- `put` makes no other calls. -/
theorem putWith_congr {resize resize' : Resize α} (h : ∀ n p, q.Resizes n p → resize n p = resize' n p) :
    q.putWith resize x = q.putWith resize' x := by
  unfold putWith
  cases hi : quotient (2 ^ 31) x.priority q.cwidth with
  | error f => rfl
  | ok i =>
    show (if _ then _ else _) = if _ then _ else _
    split_ifs with hfull
    · exact h _ _ (.put hi hfull.1 hfull.2)
    · rfl

/-- Nor does `deq`. -/
theorem deqWith_congr {resize resize' : Resize α} (h : ∀ n p, q.Resizes n p → resize n p = resize' n p) :
    q.deqWith resize = q.deqWith resize' := by
  unfold deqWith
  split_ifs with hsize
  · rfl
  · cases hsearch : q.search with
    | error f => rfl
    | ok r =>
      obtain ⟨i, top⟩ := r
      cases hb : q.bucket i with
      | nil => simp only [bind, Except.bind, hb]
      | cons e rest =>
        simp only [bind, Except.bind, hb]
        split_ifs with hbot
        · have hsame : resize ((q.take i top e rest).nbuckets / 2) (q.take i top e rest) =
              resize' ((q.take i top e rest).nbuckets / 2) (q.take i top e rest) :=
            h _ _ (.get hsize hsearch hb hbot)
          rw [hsame]
        · rfl

/-- The old calendar and one of `n` buckets lie within `calq` and have no cell in common. -/
structure Apart (q : Calqueue α) (n : Nat) : Prop where
  old : q.firstsub + q.nbuckets ≤ calqspace
  new : q.newbase n + n ≤ calqspace
  disjoint : ∀ j, ¬ (region q.firstsub q.nbuckets j ∧ region (q.newbase n) n j)

theorem Wf.inside (h : q.Wf) : q.firstsub + q.nbuckets ≤ calqspace := by
  have hmax := h.le_max
  unfold maxnbuckets at hmax
  rcases h.base with hbase | hbase
  · rw [hbase]
    unfold calqspace
    omega
  · rw [hbase]
    unfold calqspace
    omega

theorem Wf.apart_of (h : q.Wf) (hn : n ≤ maxnbuckets) (hsum : q.nbuckets + n ≤ calqspace) : q.Apart n where
  old := h.inside
  new := by
    unfold maxnbuckets at hn
    rcases newbase_base (q := q) n with hbase | hbase
    · rw [hbase]
      unfold calqspace
      omega
    · rw [hbase]
      unfold calqspace
      omega
  disjoint := by
    rintro j ⟨⟨hlo, hhi⟩, hnew⟩
    refine h.apart hsum (j - q.firstsub) (by omega) ?_
    rwa [Nat.add_sub_of_le hlo]

/-- Every resize is apart from the calendar it leaves. -/
theorem Wf.resizes (h : q.Wf) (hr : q.Resizes n p) : p.Apart n := by
  have hmax := h.le_max
  cases hr with
  | put hi htop hlt =>
    have hdouble := h.double_le hlt
    have hsum : q.nbuckets + 2 * q.nbuckets ≤ calqspace := by
      unfold calqspace
      unfold maxnbuckets at hdouble
      omega
    obtain ⟨hold, hnew, hdisjoint⟩ := h.apart_of hdouble hsum
    exact ⟨hold, hnew, hdisjoint⟩
  | get hsize hsearch hb hbot =>
    have hhalf : q.nbuckets / 2 ≤ q.nbuckets := Nat.div_le_self _ _
    have hsum : q.nbuckets + q.nbuckets / 2 ≤ calqspace := by
      unfold calqspace
      unfold maxnbuckets at hmax
      omega
    obtain ⟨hold, hnew, hdisjoint⟩ := h.apart_of (hhalf.trans hmax) hsum
    exact ⟨hold, hnew, hdisjoint⟩

/-! ### The buckets -/

/-- A bucket holds exactly the nodes that belong to it. -/
theorem Shape.bucket_eq (h : q.Shape) {i : Nat} (hi : i < q.nbuckets) :
    (q.bucket i : Multiset (CalqueueNode α)) = q.nodes.filter fun x => q.place x.priority = i := by
  rw [nodes_split q hi, Multiset.filter_add]
  have hown : (q.bucket i : Multiset (CalqueueNode α)).filter (fun x => q.place x.priority = i) = q.bucket i :=
    Multiset.filter_eq_self.mpr fun x hx => h.placed i hi x hx
  have hothers : (∑ j ∈ (Finset.range q.nbuckets).erase i, (q.bucket j : Multiset (CalqueueNode α))).filter
      (fun x => q.place x.priority = i) = 0 := by
    refine Multiset.filter_eq_nil.mpr fun x hx hplace => ?_
    obtain ⟨j, hj, hx⟩ := Multiset.mem_sum.mp hx
    obtain ⟨hne, hj⟩ := Finset.mem_erase.mp hj
    exact hne ((h.placed j (Finset.mem_range.mp hj) x hx).symm.trans hplace)
  rw [hown, hothers, add_zero]

/-! ### Every run -/

/-- What every run keeps of the queue. -/
structure Invariant (q : Calqueue α) (tr : List (Event α)) : Prop where
  power : ∃ k, q.nbuckets = 2 ^ k
  buckets : 2 ≤ q.nbuckets ∧ q.nbuckets ≤ maxnbuckets
  inside : q.firstsub + q.nbuckets ≤ calqspace
  apart : ∀ n p, q.Resizes n p → p.Apart n
  sorted : ∀ i < q.nbuckets, (q.bucket i).Pairwise fun a b => a.priority ≤ b.priority
  placed : ∀ i < q.nbuckets, (q.bucket i : Multiset (CalqueueNode α)) =
    q.nodes.filter fun x => ⌊(x.priority : ℚ) / q.cwidth⌋₊ % q.nbuckets = i
  size : q.qsize = q.nodes.card
  contents : q.nodes + (PriorityBag.removed tr : Multiset (CalqueueNode α)) = PriorityBag.puts tr
  put_faults : ∀ x f, q.put x = .error f → f.Excluded
  get_faults : ∀ f, q.deq = .error f → f.Excluded

/-- **What every run keeps.** An operation fails only where a width or a quotient is excluded: no search comes to a
bucket that is not there, and no resize is entered twice. -/
theorem queue_invariant {tr : List (Event α)} (hrun : Run Started Step q tr) : q.Invariant tr := by
  have hwf := run_wf hrun
  obtain ⟨k, hk, -, hn⟩ := hwf.power
  have htwo : 2 ^ 1 ≤ 2 ^ k := Nat.pow_le_pow_right (by decide) hk
  refine ⟨⟨k, hn⟩, ⟨hn ▸ htwo, hwf.le_max⟩, hwf.inside, fun n p hr => hwf.resizes hr, hwf.sorted,
    fun i hi => hwf.bucket_eq hi, hwf.size, PriorityBag.contents (run_nodes hrun),
    fun x f => (faults_excluded hrun).1 x, fun f => (faults_excluded hrun).2⟩

/-- The fifth node makes the calendar twice as large; then the least is taken. -/
def doubling : List (Event Unit) := [.get (some ⟨1, ()⟩), .put ⟨6, ()⟩, .put ⟨4, ()⟩, .put ⟨3, ()⟩, .put ⟨2, ()⟩,
  .put ⟨1, ()⟩]

theorem played_doubling : (played zeroed (fun _ _ => true) doubling).map (fun q => q.nbuckets) = some 4 := by
  decide +kernel

theorem queue_invariant_doubling : ∃ q, Run Started Step q doubling ∧ q.nbuckets = 4 ∧ q.Invariant doubling := by
  obtain ⟨q, hrun, hn⟩ := exists_of_played (fun _ _ => True) (fun _ _ _ => trivial) played_doubling
  exact ⟨q, hrun.of_guarded, hn, queue_invariant hrun.of_guarded⟩

end Calqueue

end LinuxFibers
