import LinuxFibers.Simulation.Buckets

/-!
# Resizing the calendar

`resize` samples the widths, lays an empty calendar at the other end of `calq` and copies the nodes. `resize_yields`
says that the queue then holds what it held before and stands at the bucket of the last priority, and that no
step of this calls `resize` again.
-/

namespace LinuxFibers

open Outcomes

namespace Calqueue

variable {α : Type} {q : Calqueue α}

/-! ### Sampling the widths -/

/-- The nodes that the search comes to, one after another. -/
inductive Delivers : Calqueue α → List (CalqueueNode α) → Prop
  | nil {q : Calqueue α} : Delivers q []
  | cons {q : Calqueue α} {i : Nat} {top : ℚ} {e : CalqueueNode α} {rest temp : List (CalqueueNode α)}
      (hi : i < q.nbuckets) (hb : q.bucket i = e :: rest) (hs : q.Search i top e)
      (htemp : Delivers (q.take i top e rest) temp) : Delivers q (e :: temp)

/-- Dequeuing some of the nodes. -/
theorem drain_spec (n : Nat) (h : q.Shape) (hoff : q.resizeEnabled = false) (hn : n ≤ q.nodes.card) :
    ∃ temp p, drain n q = .ok (temp, p) ∧ temp.length = n ∧ q.Delivers temp ∧ p.Shape ∧ Like q p ∧
      q.nodes = (temp : Multiset (CalqueueNode α)) + p.nodes := by
  induction n generalizing q with
  | zero => exact ⟨[], q, rfl, rfl, .nil, h, .refl q, (zero_add _).symm⟩
  | succ n ih =>
    have hne : q.nodes ≠ 0 := by
      rintro hnone
      rw [hnone] at hn
      exact absurd hn (Nat.not_succ_le_zero n)
    obtain ⟨i, top, e, rest, hi, hb, hfound, hdeq⟩ := deqWith_inner h hoff hne
    have hnodes : q.nodes = e ::ₘ (q.take i top e rest).nodes := nodes_take hi hb
    have hrest : n ≤ (q.take i top e rest).nodes.card := by
      rw [hnodes, Multiset.card_cons] at hn
      omega
    obtain ⟨temp, p, hdrain, hlength, hdelivers, hshape, hlike, hsum⟩ := ih (h.take hi hb) hoff hrest
    refine ⟨e :: temp, p, ?_, by rw [List.length_cons, hlength], .cons hi hb hfound hdelivers, hshape,
      like_take.trans hlike, ?_⟩
    · simp only [drain, hdeq, bind, Except.bind, hdrain]
    · rw [hnodes, hsum, ← Multiset.cons_coe, Multiset.cons_add]

/-- The queue stands where it stood. -/
structure Stands (q p : Calqueue α) : Prop where
  lastbucket : p.lastbucket = q.lastbucket
  lastprio : p.lastprio = q.lastprio
  buckettop : p.buckettop = q.buckettop

/-- The cells of a calendar in `calq`. -/
def region (base n j : Nat) : Prop := base ≤ j ∧ j < base + n

/-- Putting nodes where no put resizes. -/
theorem pour_yields (l : List (CalqueueNode α)) (h : q.Shape)
    (hquiet : q.resizeEnabled = false ∨ ((q.qsize + l.length : Nat) : Int) ≤ q.topThreshold) :
    Yields CalqueueFault.Excluded (fun p => p.Shape ∧ Like q p ∧ Stands q p ∧
      p.nodes = (l : Multiset (CalqueueNode α)) + q.nodes ∧
      ∀ j, ¬ region q.firstsub q.nbuckets j → p.calq j = q.calq j) (l.foldlM (fun p x => p.putWith inner x) q) := by
  let I : List (CalqueueNode α) → Calqueue α → Prop := fun rest p => p.Shape ∧ Like q p ∧ Stands q p ∧
    (rest : Multiset (CalqueueNode α)) + p.nodes = l + q.nodes ∧
    ∀ j, ¬ region q.firstsub q.nbuckets j → p.calq j = q.calq j
  have hloop : Yields CalqueueFault.Excluded (I []) (l.foldlM (fun p x => p.putWith inner x) q) :=
    Yields.foldlM (fun x rest p hp => ?_) ⟨h, .refl q, ⟨rfl, rfl, rfl⟩, rfl, fun _ _ => rfl⟩
  · refine hloop.mono fun p hp => ⟨hp.1, hp.2.1, hp.2.2.1, ?_, hp.2.2.2.2⟩
    simpa using hp.2.2.2.1
  · obtain ⟨hshape, hlike, hstands, hsum, hcalq⟩ := hp
    have hquiet' : p.resizeEnabled = false ∨
        ¬ (p.topThreshold < (p.qsize + 1 : Nat) ∧ p.nbuckets < maxnbuckets) := by
      refine hquiet.imp (fun hoff => hlike.resizeEnabled.trans hoff) fun hroom hfull => ?_
      have hcard := congrArg Multiset.card hsum
      simp only [Multiset.card_add, Multiset.coe_card, List.length_cons, ← hshape.size, ← h.size] at hcard
      have htop := hfull.1
      rw [hlike.topThreshold] at htop
      omega
    refine (putWith_inner (x := x) hquiet').mono ?_
    rintro _ rfl
    refine ⟨hshape.store, hlike.trans like_store, ⟨hstands.lastbucket, hstands.lastprio, hstands.buckettop⟩, ?_,
      fun j hj => ?_⟩
    · rw [nodes_store (place_lt hshape _), ← hsum, ← Multiset.cons_coe, Multiset.add_cons, Multiset.cons_add]
    · have hplace := place_lt hshape x.priority
      have hne : j ≠ p.firstsub + p.place x.priority := by
        rintro rfl
        rw [hlike.firstsub] at hj
        rw [hlike.nbuckets] at hplace
        exact hj ⟨Nat.le_add_right _ _, by omega⟩
      exact (Function.update_of_ne hne _ _).trans (hcalq j hj)

theorem nsamples_le (qsize : Nat) : nsamples qsize ≤ qsize := by
  unfold nsamples
  split_ifs <;> omega

theorem sampleWidth_yields (temp : List (CalqueueNode α)) :
    Yields CalqueueFault.Excluded (fun _ => True) (sampleWidth temp) := by
  show Yields _ _ (if _ then _ else _)
  split_ifs
  · exact trivial
  · exact trivial

/-- The width is found without changing what the queue holds or where it stands. -/
theorem newWidth_yields (h : q.Shape) (hon : q.resizeEnabled = true) :
    Yields CalqueueFault.Excluded (fun r => r.2.Shape ∧ Like q r.2 ∧ r.2.nodes = q.nodes ∧
      r.2.lastbucket = q.lastbucket ∧ r.2.lastprio = q.lastprio ∧ r.2.buckettop = q.buckettop) q.newWidth := by
  rw [newWidth]
  split_ifs
  · exact ⟨h, .refl q, rfl, rfl, rfl, rfl⟩
  · have hoff : Shape { q with resizeEnabled := false } := ⟨h.buckets, h.width, h.sorted, h.placed, h.size, h.last⟩
    have hn : nsamples q.qsize ≤ q.nodes.card := by
      rw [← h.size]
      exact nsamples_le q.qsize
    obtain ⟨temp, p, hdrain, -, -, hshape, hlike, hsum⟩ := drain_spec _ hoff rfl hn
    rw [hdrain]
    refine (pour_yields temp hshape (.inl hlike.resizeEnabled)).bind ?_
    rintro r ⟨hshape', hlike', -, hsum', -⟩
    refine (sampleWidth_yields temp).bind fun width _ => ?_
    have hlike'' := hlike.trans hlike'
    refine ⟨⟨hshape'.buckets, hshape'.width, hshape'.sorted, hshape'.placed, hshape'.size, ?_⟩, ?_, ?_, rfl, rfl, rfl⟩
    · exact hlike''.nbuckets ▸ h.last
    · exact ⟨hlike''.firstsub, hlike''.nbuckets, hlike''.cwidth, hlike''.topThreshold, hlike''.botThreshold, hon.symm⟩
    · exact hsum'.trans hsum.symm

/-! ### The new calendar -/

/-- The queue stands at the bucket of the last priority, with the top that belongs to it. -/
structure Fresh (q : Calqueue α) : Prop where
  lastbucket : q.lastbucket = q.place q.lastprio
  buckettop : q.buckettop = (q.virtual q.lastprio + 3 / 2) * q.cwidth

/-- The thresholds belong to the number of buckets. -/
structure Thresholds (q : Calqueue α) : Prop where
  top : q.topThreshold = 2 * q.nbuckets
  bot : q.botThreshold = (q.nbuckets / 2 : Nat) - 2

/-- An empty calendar is laid over its region and nothing else. -/
theorem localinit_yields {qbase nbucks : Nat} {bwidth : ℚ} {startprio : ℚ≥0} (hbuckets : 0 < nbucks)
    (hwidth : 0 < bwidth) : Yields CalqueueFault.Excluded (fun p => p.Shape ∧ p.Fresh ∧ p.Thresholds ∧ p.nodes = 0 ∧
      p.firstsub = qbase ∧ p.nbuckets = nbucks ∧ p.cwidth = bwidth ∧ p.lastprio = startprio ∧
      p.resizeEnabled = q.resizeEnabled ∧ ∀ j, ¬ region qbase nbucks j → p.calq j = q.calq j)
      (q.localinit qbase nbucks bwidth startprio) := by
  rw [localinit]
  refine quotient_yields.bind ?_
  rintro _ rfl
  have hempty : ∀ i < nbucks, (if qbase ≤ qbase + i ∧ qbase + i < qbase + nbucks then [] else q.calq (qbase + i)) =
      [] := fun i hi => if_pos ⟨Nat.le_add_right _ _, by omega⟩
  have hnodes : ∑ i ∈ Finset.range nbucks,
      ((if qbase ≤ qbase + i ∧ qbase + i < qbase + nbucks then [] else q.calq (qbase + i) :
        List (CalqueueNode α)) : Multiset (CalqueueNode α)) = 0 := by
    refine Finset.sum_eq_zero fun i hi => ?_
    rw [hempty i (Finset.mem_range.mp hi)]
    rfl
  refine ⟨⟨hbuckets, hwidth, fun i hi => ?_, fun i hi x hx => ?_, ?_, Nat.mod_lt _ hbuckets⟩, ⟨rfl, ?_⟩, ⟨rfl, rfl⟩,
    hnodes, rfl, rfl, rfl, rfl, rfl, fun j hj => if_neg hj⟩
  · simp only [bucket, hempty i hi]
    exact List.Pairwise.nil
  · simp only [bucket, hempty i hi] at hx
    cases hx
  · exact Multiset.card_zero.symm.trans (congrArg Multiset.card hnodes).symm
  · simp only [virtual]
    ring

/-- The buckets below `n` of a calendar that starts at `base`. -/
def nodesAt (q : Calqueue α) (base n : Nat) : Multiset (CalqueueNode α) :=
  ∑ j ∈ Finset.range n, (q.calq (base + j) : Multiset (CalqueueNode α))

theorem nodesAt_congr {p : Calqueue α} {base n : Nat} (h : ∀ j < n, p.calq (base + j) = q.calq (base + j)) :
    p.nodesAt base n = q.nodesAt base n :=
  Finset.sum_congr rfl fun j hj => by rw [h j (Finset.mem_range.mp hj)]

/-- Copying an old calendar that lies elsewhere, into one that is large enough. -/
theorem copy_yields (base n : Nat) (h : q.Shape) (hapart : ∀ j < n, ¬ region q.firstsub q.nbuckets (base + j))
    (hroom : ((q.qsize + (q.nodesAt base n).card : Nat) : Int) ≤ q.topThreshold) :
    Yields CalqueueFault.Excluded (fun p => p.Shape ∧ Like q p ∧ Stands q p ∧ p.nodes = q.nodesAt base n + q.nodes)
      (copy base n q) := by
  induction n generalizing q with
  | zero => exact ⟨h, .refl q, ⟨rfl, rfl, rfl⟩, (zero_add _).symm⟩
  | succ n ih =>
    have hsplit : q.nodesAt base (n + 1) =
        q.nodesAt base n + (q.calq (base + n) : Multiset (CalqueueNode α)) := Finset.sum_range_succ _ _
    rw [hsplit, Multiset.card_add, Multiset.coe_card] at hroom
    rw [copy]
    refine (pour_yields _ h (.inr ?_)).bind ?_
    · omega
    rintro p ⟨hshape, hlike, hstands, hsum, hcalq⟩
    have hsame : p.nodesAt base n = q.nodesAt base n := nodesAt_congr fun j hj => hcalq _ (hapart j (by omega))
    have hsize : p.qsize = q.qsize + (q.calq (base + n)).length := by
      rw [hshape.size, hsum, Multiset.card_add, Multiset.coe_card, ← h.size, Nat.add_comm]
    refine (ih hshape (fun j hj => ?_) ?_).mono ?_
    · rw [hlike.firstsub, hlike.nbuckets]
      exact hapart j (by omega)
    · rw [hsame, hsize, hlike.topThreshold]
      omega
    · rintro r ⟨hshape', hlike', hstands', hsum'⟩
      refine ⟨hshape', hlike.trans hlike', ⟨hstands'.lastbucket.trans hstands.lastbucket,
        hstands'.lastprio.trans hstands.lastprio, hstands'.buckettop.trans hstands.buckettop⟩, ?_⟩
      rw [hsum', hsum, hsame, hsplit, add_assoc]

theorem Like.virtual {p : Calqueue α} (h : Like q p) (priority : ℚ≥0) : p.virtual priority = q.virtual priority := by
  rw [Calqueue.virtual, h.cwidth, Calqueue.virtual]

theorem Like.place {p : Calqueue α} (h : Like q p) (priority : ℚ≥0) : p.place priority = q.place priority := by
  rw [Calqueue.place, h.virtual, h.nbuckets, Calqueue.place]

theorem Fresh.congr {p : Calqueue α} (h : q.Fresh) (hlike : Like q p) (hstands : Stands q p) : p.Fresh where
  lastbucket := by rw [hstands.lastbucket, hstands.lastprio, hlike.place, h.lastbucket]
  buckettop := by rw [hstands.buckettop, hstands.lastprio, hlike.virtual, hlike.cwidth, h.buckettop]

/-- Where `resize` lays a calendar of `n` buckets. -/
def newbase (q : Calqueue α) (n : Nat) : Nat := if q.firstsub = 0 then calqspace - n else 0

/-- **A resize** keeps what the queue holds and its last priority, and stands at the bucket of that priority. -/
theorem resize_yields {n : Nat} (h : q.Shape) (hon : q.resizeEnabled = true) (hn : 0 < n)
    (hroom : q.qsize ≤ 2 * n) (hapart : ∀ j < q.nbuckets, ¬ region (q.newbase n) n (q.firstsub + j)) :
    Yields CalqueueFault.Excluded (fun p => p.Shape ∧ p.Fresh ∧ p.Thresholds ∧ p.nodes = q.nodes ∧
      p.firstsub = q.newbase n ∧ p.nbuckets = n ∧ p.lastprio = q.lastprio ∧ p.resizeEnabled = true)
      (q.resize n) := by
  rw [resize, if_pos hon]
  refine (newWidth_yields h hon).bind ?_
  rintro ⟨bwidth, p⟩ ⟨hshape, hlike, hnodes, hlastbucket, hlastprio, hbuckettop⟩
  simp only at hshape hlike hnodes hlastprio
  by_cases hwidth : 0 < bwidth
  · show Yields _ _ (if 0 < bwidth then _ else _)
    rw [if_pos hwidth]
    have hbase : p.newbase n = q.newbase n := by rw [newbase, hlike.firstsub, newbase]
    refine (localinit_yields hn hwidth).bind ?_
    rintro r ⟨hshape', hfresh, hthresholds, hempty, hfirstsub, hnbuckets, -, hlastprio', hon', hcalq⟩
    have hapart' : ∀ j < p.nbuckets, ¬ region (p.newbase n) n (p.firstsub + j) := by
      rw [hlike.nbuckets, hlike.firstsub, hbase]
      exact hapart
    have hcopied : r.nodesAt p.firstsub p.nbuckets = q.nodes := by
      rw [nodesAt_congr fun j hj => hcalq _ (hapart' j hj), ← hnodes]
      rfl
    refine (copy_yields p.firstsub p.nbuckets hshape' (fun j hj => ?_) ?_).mono ?_
    · rw [hfirstsub, hnbuckets]
      exact hapart' j hj
    · rw [hcopied, hshape'.size, hempty, Multiset.card_zero, ← h.size, hthresholds.top, hnbuckets]
      omega
    · rintro t ⟨hshape'', hlike', hstands, hsum⟩
      refine ⟨hshape'', hfresh.congr hlike' hstands, ⟨?_, ?_⟩, ?_, ?_, hlike'.nbuckets.trans hnbuckets, ?_, ?_⟩
      · rw [hlike'.topThreshold, hlike'.nbuckets, hthresholds.top]
      · rw [hlike'.botThreshold, hlike'.nbuckets, hthresholds.bot]
      · rw [hsum, hcopied, hempty, add_zero]
      · rw [hlike'.firstsub, hfirstsub, ← hbase]
        rfl
      · rw [hstands.lastprio, hlastprio', hlastprio]
      · rw [hlike'.resizeEnabled, hon', hlike.resizeEnabled, hon]
  · show Yields _ _ (if 0 < bwidth then _ else _)
    rw [if_neg hwidth]
    exact trivial

end Calqueue

end LinuxFibers
