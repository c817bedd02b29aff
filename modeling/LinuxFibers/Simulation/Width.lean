import Mathlib.Algebra.Order.BigOperators.Group.List
import Mathlib.Tactic.Linarith
import LinuxFibers.Simulation.Invariant

/-!
# The widths of the calendar

`new_width` averages the gaps of its sample that are less than twice their mean, and checks neither that there are any
nor that they are not all zero. `width_positive_iff` says of every resize of every run when the width is positive.
Ties are what it takes: in a sample in order without ties there is always a gap that counts.
-/

namespace LinuxFibers

open Outcomes Runs

namespace Calqueue

variable {α : Type} {q p : Calqueue α} {x e : CalqueueNode α} {rest temp : List (CalqueueNode α)} {i n : Nat} {top : ℚ}

/-! ### The sample -/

/-- The search does not depend on whether resizing is on. -/
theorem Search.switch (hs : q.Search i top e) (b : Bool) : Search { q with resizeEnabled := b } i top e := by
  cases hs with
  | scanned hk he hbelow hbefore => exact .scanned hk he hbelow hbefore
  | direct hi he hnone hleast => exact .direct hi he hnone hleast

theorem Delivers.switch (h : q.Delivers temp) (b : Bool) : Delivers { q with resizeEnabled := b } temp := by
  induction h with
  | nil => exact .nil
  | cons hi hb hs _ ih => exact .cons hi hb (hs.switch b) ih

/-- The search comes to one node only. -/
theorem Search.unique {i' : Nat} {top' : ℚ} {e' : CalqueueNode α} (h : q.Shape) (hs : q.Search i top e)
    (hs' : q.Search i' top' e') : i = i' ∧ top = top' ∧ e = e' := by
  cases hs with
  | @scanned k _ hk he hbelow hbefore =>
    cases hs' with
    | @scanned k' _ hk' he' hbelow' hbefore' =>
      have hle : k ≤ k' := Nat.le_of_not_lt fun hlt => hbefore _ hlt ⟨e', he', hbelow'⟩
      have hge : k' ≤ k := Nat.le_of_not_lt fun hlt => hbefore' _ hlt ⟨e, he, hbelow⟩
      obtain rfl := Nat.le_antisymm hle hge
      exact ⟨rfl, rfl, Option.mem_unique he he'⟩
    | direct _ _ hnone _ => exact absurd ⟨e, he, hbelow⟩ (hnone k hk)
  | direct hi he hnone hleast =>
    cases hs' with
    | @scanned k' _ hk' he' hbelow' _ => exact absurd ⟨e', he', hbelow'⟩ (hnone k' hk')
    | direct hi' he' _ hleast' =>
      -- both are least, and nodes of one priority are in one bucket
      have heq : e.priority = e'.priority :=
        le_antisymm (hleast e' (mem_of_head hi' he')) (hleast' e (mem_of_head hi he))
      have hplace := h.placed i hi e (List.mem_of_mem_head? he)
      have hplace' := h.placed i' hi' e' (List.mem_of_mem_head? he')
      obtain rfl : i = i' := by rw [← hplace, ← hplace', heq]
      exact ⟨rfl, rfl, Option.mem_unique he he'⟩

/-- How many nodes are delivered says which. -/
theorem Delivers.unique {temp' : List (CalqueueNode α)} (h : q.Shape) (hd : q.Delivers temp) (hd' : q.Delivers temp')
    (hlength : temp.length = temp'.length) : temp = temp' := by
  induction hd generalizing temp' with
  | nil => exact (List.length_eq_zero_iff.mp hlength.symm).symm
  | @cons q i top e rest temp hi hb hs _ ih =>
    cases hd' with
    | nil => cases hlength
    | cons hi' hb' hs' hd' =>
      obtain ⟨rfl, rfl, rfl⟩ := hs.unique h hs'
      obtain rfl : rest = _ := (List.cons.inj (hb.symm.trans hb')).2
      rw [ih (h.take hi hb) hd' (Nat.succ.inj hlength)]

/-! ### The gaps -/

/-- The gaps between the neighbours of a sample. -/
def gaps (temp : List (CalqueueNode α)) : List ℚ :=
  List.zipWith (fun a b => (b.priority : ℚ) - a.priority) temp temp.tail

def mean (temp : List (CalqueueNode α)) : ℚ := (gaps temp).sum / ((temp.length : ℚ) - 1)

/-- The gaps below twice the mean add up to something. -/
def Spaced (temp : List (CalqueueNode α)) : Prop :=
  0 < ((gaps temp).filter fun d => d < mean temp * 2).sum

theorem sampleWidth_pos_iff : (∃ w, sampleWidth temp = .ok w ∧ 0 < w) ↔ Spaced temp := by
  have hwidth : sampleWidth temp = if ((gaps temp).filter fun d => d < mean temp * 2).length = 0
      then .error .divisionByZero
      else .ok (((gaps temp).filter fun d => d < mean temp * 2).sum /
        ((gaps temp).filter fun d => d < mean temp * 2).length * 3) := rfl
  rw [hwidth, Spaced]
  generalize (gaps temp).filter (fun d => d < mean temp * 2) = near
  cases near with
  | nil => simp
  | cons d near =>
    rw [if_neg (show (d :: near).length ≠ 0 from Nat.succ_ne_zero _)]
    have hlength : (0 : ℚ) < ((d :: near).length : ℚ) := by exact_mod_cast Nat.succ_pos _
    constructor
    · rintro ⟨w, hw, hpos⟩
      obtain rfl := Except.ok.inj hw
      by_contra hsum
      have hquot : (d :: near).sum / ((d :: near).length : ℚ) ≤ 0 :=
        div_nonpos_of_nonpos_of_nonneg (not_lt.mp hsum) hlength.le
      linarith
    · intro hsum
      exact ⟨_, rfl, mul_pos (div_pos hsum hlength) (by norm_num)⟩

theorem gaps_cons (a b : CalqueueNode α) (temp : List (CalqueueNode α)) :
    gaps (a :: b :: temp) = ((b.priority : ℚ) - a.priority) :: gaps (b :: temp) := rfl

theorem length_gaps (temp : List (CalqueueNode α)) : (gaps temp).length = temp.length - 1 := by
  rw [gaps, List.length_zipWith, List.length_tail]
  exact Nat.min_eq_right (Nat.sub_le _ _)

/-- What relates all nodes of a sample relates the neighbours. -/
theorem gaps_of_pairwise {R : ℚ → Prop} (h : temp.Pairwise fun a b => R ((b.priority : ℚ) - a.priority)) :
    ∀ d ∈ gaps temp, R d := by
  induction temp with
  | nil => exact fun d hd => by cases hd
  | cons a temp ih =>
    cases temp with
    | nil => exact fun d hd => by cases hd
    | cons b temp =>
      obtain ⟨ha, hrest⟩ := List.pairwise_cons.mp h
      intro d hd
      rw [gaps_cons] at hd
      rcases List.mem_cons.mp hd with rfl | hd
      · exact ha b List.mem_cons_self
      · exact ih hrest d hd

theorem gaps_nonneg (hsorted : temp.Pairwise fun a b => a.priority ≤ b.priority) : ∀ d ∈ gaps temp, 0 ≤ d :=
  gaps_of_pairwise (hsorted.imp fun h => sub_nonneg.mpr (by exact_mod_cast h))

theorem gaps_pos (hdistinct : temp.Pairwise fun a b => a.priority < b.priority) : ∀ d ∈ gaps temp, 0 < d :=
  gaps_of_pairwise (hdistinct.imp fun h => sub_pos.mpr (by exact_mod_cast h))

/-- In order, it is enough that one gap counts that is not zero. -/
theorem spaced_iff (hsorted : temp.Pairwise fun a b => a.priority ≤ b.priority) :
    Spaced temp ↔ ∃ d ∈ gaps temp, 0 < d ∧ d < mean temp * 2 := by
  have hnonneg : ∀ d ∈ (gaps temp).filter fun d => d < mean temp * 2, 0 ≤ d :=
    fun d hd => gaps_nonneg hsorted d (List.mem_of_mem_filter hd)
  have hmem : ∀ d, d ∈ (gaps temp).filter (fun d => d < mean temp * 2) ↔ d ∈ gaps temp ∧ d < mean temp * 2 :=
    fun d => by rw [List.mem_filter, decide_eq_true_iff]
  rw [Spaced]
  constructor
  · intro hsum
    by_contra hnone
    have hzero : ∀ d ∈ (gaps temp).filter fun d => d < mean temp * 2, d = 0 := by
      intro d hd
      by_contra hne
      have hpos : 0 < d := lt_of_le_of_ne (hnonneg d hd) (Ne.symm hne)
      exact hnone ⟨d, ((hmem d).mp hd).1, hpos, ((hmem d).mp hd).2⟩
    exact absurd (List.sum_eq_zero hzero) hsum.ne'
  · rintro ⟨d, hd, hpos, hlt⟩
    exact hpos.trans_le (List.single_le_sum hnonneg d ((hmem d).mpr ⟨hd, hlt⟩))

/-- Without ties the least gap counts. -/
theorem spaced_of_distinct (hdistinct : temp.Pairwise fun a b => a.priority < b.priority) (hlength : 2 ≤ temp.length) :
    Spaced temp := by
  have hsorted : temp.Pairwise fun a b => a.priority ≤ b.priority := hdistinct.imp fun h => h.le
  have hpos : ∀ d ∈ gaps temp, 0 < d := gaps_pos hdistinct
  have hcount : ((gaps temp).length : ℚ) = (temp.length : ℚ) - 1 := by
    rw [length_gaps, Nat.cast_sub (by omega), Nat.cast_one]
  have hne : gaps temp ≠ [] := by
    intro hnil
    have hzero := length_gaps temp
    rw [hnil, List.length_nil] at hzero
    omega
  rw [spaced_iff hsorted]
  by_contra hnone
  have hlarge : ∀ d ∈ gaps temp, mean temp * 2 ≤ d := fun d hd => not_lt.mp fun hlt => hnone ⟨d, hd, hpos d hd, hlt⟩
  have hsum : (gaps temp).length • (mean temp * 2) ≤ (gaps temp).sum := List.card_nsmul_le_sum _ _ hlarge
  have hsum_pos : 0 < (gaps temp).sum := List.sum_pos _ hpos hne
  have hlength_pos : (0 : ℚ) < (gaps temp).length := by exact_mod_cast List.length_pos_iff.mpr hne
  have htwice : ((gaps temp).length : ℚ) * (mean temp * 2) = (gaps temp).sum * 2 := by
    rw [mean, ← hcount, ← mul_assoc, mul_div_cancel₀ _ hlength_pos.ne']
  rw [nsmul_eq_mul, htwice] at hsum
  linarith

/-! ### No quotient is too large -/

/-- The quotients of what the queue holds fit the integer they are converted to. -/
def Fits (q : Calqueue α) : Prop := ∀ x ∈ q.nodes, q.virtual x.priority < 2 ^ 31

/-- Another list in one bucket. -/
theorem Fits.update {l : List (CalqueueNode α)} (h : q.Fits) (hlike : Like q p)
    (hb : p.bucket = Function.update q.bucket i l)
    (hl : ∀ y ∈ l, q.virtual y.priority < 2 ^ 31 ∨ y ∈ q.bucket i) : p.Fits := by
  intro y hy
  obtain ⟨j, hj, hmem⟩ := mem_nodes.mp hy
  rw [hlike.nbuckets] at hj
  rw [hb] at hmem
  rw [hlike.virtual]
  by_cases hji : j = i
  · subst hji
    rw [Function.update_self] at hmem
    rcases hl y hmem with hlt | hold
    · exact hlt
    · exact h y (mem_nodes.mpr ⟨j, hj, hold⟩)
  · rw [Function.update_of_ne hji] at hmem
    exact h y (mem_nodes.mpr ⟨j, hj, hmem⟩)

theorem Fits.store (h : q.Fits) (hx : q.virtual x.priority < 2 ^ 31) : (q.store x i).Fits := by
  refine h.update like_store bucket_store fun y hy => ?_
  rcases List.mem_cons.mp ((insertNode_perm x _).mem_iff.mp hy) with rfl | hy
  · exact .inl hx
  · exact .inr hy

theorem Fits.take (h : q.Fits) (hb : q.bucket i = e :: rest) : (q.take i top e rest).Fits :=
  h.update like_take bucket_take fun _ hy => .inr (hb ▸ List.mem_cons_of_mem _ hy)

theorem quotient_ok {range : Nat} {priority : ℚ≥0} (h : quotient range priority q.cwidth = .ok n) :
    n = q.virtual priority ∧ n < range := by
  change (if q.virtual priority < range then _ else _) = _ at h
  split_ifs at h with hlt
  obtain rfl := Except.ok.inj h
  exact ⟨rfl, hlt⟩

/-- A put checks the quotient of its node. -/
theorem fits_putWith {resize : Resize α} (h : q.Fits)
    (hresize : ∀ n p, p.Fits → Yields (fun _ => True) Fits (resize n p)) :
    Yields (fun _ => True) Fits (q.putWith resize x) := by
  rw [putWith]
  cases hi : quotient (2 ^ 31) x.priority q.cwidth with
  | error f => exact trivial
  | ok i =>
    obtain ⟨hquotient, hlt⟩ := quotient_ok hi
    have hfits : (q.store x (i % q.nbuckets)).Fits := h.store (hquotient ▸ hlt)
    show Yields _ _ (if _ then _ else _)
    split_ifs
    · exact hresize _ _ hfits
    · exact hfits

theorem fits_inner (n : Nat) (p : Calqueue α) (h : p.Fits) : Yields (fun _ => True) Fits (inner n p) := by
  rw [inner]
  split_ifs
  · exact trivial
  · exact h

theorem fits_copy (base n : Nat) (h : q.Fits) : Yields (fun _ => True) Fits (copy base n q) := by
  induction n generalizing q with
  | zero => exact h
  | succ n ih =>
    rw [copy]
    have hpour : Yields (fun _ => True) Fits ((q.calq (base + n)).foldlM (fun q x => q.putWith inner x) q) :=
      Yields.foldlM (I := fun _ => Fits) (fun x _ p hp => fits_putWith hp fits_inner) h
    exact hpour.bind fun p hp => ih hp

theorem fits_localinit {qbase nbucks : Nat} {bwidth : ℚ} {startprio : ℚ≥0} :
    Yields (fun _ => True) Fits (q.localinit qbase nbucks bwidth startprio) := by
  rw [localinit]
  cases quotient (2 ^ 63) startprio bwidth with
  | error f => exact trivial
  | ok n =>
    intro x hx
    obtain ⟨j, hj, hmem⟩ := mem_nodes.mp hx
    have hempty : (if qbase ≤ qbase + j ∧ qbase + j < qbase + nbucks then [] else q.calq (qbase + j)) = [] :=
      if_pos ⟨Nat.le_add_right _ _, Nat.add_lt_add_left hj _⟩
    have hmem' : x ∈ (if qbase ≤ qbase + j ∧ qbase + j < qbase + nbucks then [] else q.calq (qbase + j)) := hmem
    rw [hempty] at hmem'
    cases hmem'

theorem fits_resize (n : Nat) (p : Calqueue α) (h : p.Fits) : Yields (fun _ => True) Fits (p.resize n) := by
  rw [resize]
  split_ifs
  · cases p.newWidth with
    | error f => exact trivial
    | ok r =>
      show Yields _ _ (if 0 < r.1 then _ else _)
      by_cases hwidth : 0 < r.1
      · rw [if_pos hwidth]
        exact fits_localinit.bind fun t ht => fits_copy _ _ ht
      · rw [if_neg hwidth]
        exact trivial
  · exact h

theorem fits_deq (h : q.Fits) : Yields (fun _ => True) (fun r => r.2.Fits) q.deq := by
  rw [deq, deqWith]
  split_ifs
  · exact h
  · cases q.search with
    | error f => exact trivial
    | ok r =>
      obtain ⟨i, top⟩ := r
      cases hb : q.bucket i with
      | nil =>
        simp only [bind, Except.bind, hb]
        exact trivial
      | cons e rest =>
        have htake : (q.take i top e rest).Fits := h.take hb
        simp only [bind, Except.bind, hb]
        split_ifs
        · exact (fits_resize _ _ htake).bind fun p hp => hp
        · exact htake

/-- In a run the quotient of every node was checked, with the width that there is. -/
theorem run_fits {tr : List (Event α)} (hrun : Run Started Step q tr) : q.Fits := by
  refine hrun.invariant (P := fun q _ => q.Fits) ?_ fun q tr ev p _ hfits hstep => ?_
  · rintro q ⟨garbage, hinit⟩ x hx
    rw [(init_yields.of_ok hinit).2.2.1] at hx
    exact absurd hx (Multiset.notMem_zero x)
  · cases hstep with
    | put hput => exact (fits_putWith hfits fits_resize).of_ok hput
    | get hget => exact (fits_deq hfits).of_ok hget

/-! ### Every resize of every run -/

theorem pour_ok (h : ∀ x ∈ temp, p.virtual x.priority < 2 ^ 31) (hoff : p.resizeEnabled = false) :
    ∃ r, temp.foldlM (fun p x => p.putWith inner x) p = .ok r := by
  induction temp generalizing p with
  | nil => exact ⟨p, rfl⟩
  | cons x temp ih =>
    have hput : p.putWith inner x = .ok (p.store x (p.place x.priority)) := by
      have hquotient : quotient (2 ^ 31) x.priority p.cwidth = .ok (p.virtual x.priority) :=
        if_pos (h x List.mem_cons_self)
      have hinner : inner (2 * p.nbuckets) (p.store x (p.place x.priority)) = .ok (p.store x (p.place x.priority)) :=
        if_neg (by rw [show (p.store x (p.place x.priority)).resizeEnabled = false from hoff]; exact Bool.false_ne_true)
      rw [putWith, hquotient]
      show (if _ then _ else _) = _
      split_ifs
      · exact hinner
      · rfl
    obtain ⟨r, hr⟩ := ih (p := p.store x (p.place x.priority)) (fun y hy => h y (List.mem_cons_of_mem _ hy)) hoff
    refine ⟨r, ?_⟩
    rw [List.foldlM_cons, hput]
    exact hr

/-- `new_width` comes to the average, and then it is the average that decides. -/
theorem newWidth_spec (h : p.Shape) (hfits : p.Fits) (hsize : 2 ≤ p.qsize) : ∃ temp r, p.Delivers temp ∧
    temp.length = nsamples p.qsize ∧ p.newWidth = (sampleWidth temp).map fun w => (w, r) := by
  have hshape : Shape { p with resizeEnabled := false } := ⟨h.buckets, h.width, h.sorted, h.placed, h.size, h.last⟩
  have hn : nsamples p.qsize ≤ p.nodes.card := by
    rw [← h.size]
    exact nsamples_le p.qsize
  obtain ⟨temp, t, hdrain, hlength, hdelivers, -, hlike, hsum⟩ := drain_spec _ hshape rfl hn
  have hquotients : ∀ x ∈ temp, t.virtual x.priority < 2 ^ 31 := by
    intro x hx
    rw [hlike.virtual]
    refine hfits x ?_
    rw [show p.nodes = temp + t.nodes from hsum]
    exact Multiset.mem_add.mpr (.inl hx)
  obtain ⟨r, hr⟩ := pour_ok hquotients hlike.resizeEnabled
  refine ⟨temp, { r with
    lastbucket := p.lastbucket
    lastprio := p.lastprio
    buckettop := p.buckettop
    resizeEnabled := true }, hdelivers.switch p.resizeEnabled, hlength, ?_⟩
  rw [newWidth, if_neg (by omega), hdrain]
  simp only [bind, Except.bind, hr]
  cases sampleWidth temp with
  | error f => rfl
  | ok w => rfl

theorem Wf.shape_resizes (h : q.Wf) (hr : q.Resizes n p) : p.Shape := by
  cases hr with
  | put hi =>
    obtain ⟨rfl, -⟩ := quotient_ok hi
    exact h.toShape.store
  | get hsize hsearch hb =>
    have hne : q.nodes ≠ 0 := fun hnone => hsize (by rw [h.size, hnone, Multiset.card_zero])
    obtain ⟨i, top, e, rest, hsearch', hi, -, -⟩ := search_spec h.toShape hne
    obtain ⟨rfl, rfl⟩ := Prod.mk.inj (Except.ok.inj (hsearch.symm.trans hsearch'))
    exact h.toShape.take hi hb

theorem Fits.resizes (h : q.Fits) (hr : q.Resizes n p) : p.Fits := by
  cases hr with
  | put hi =>
    obtain ⟨rfl, hlt⟩ := quotient_ok hi
    exact h.store hlt
  | get _ _ hb => exact h.take hb

/-- A resize that samples finds a positive width exactly when the sample is spaced. -/
theorem newWidth_pos_iff (hwf : q.Wf) (hfits : q.Fits) (hr : q.Resizes n p) :
    (∃ w r, p.newWidth = .ok (w, r) ∧ 0 < w) ↔
      p.qsize < 2 ∨ ∃ temp, p.Delivers temp ∧ temp.length = nsamples p.qsize ∧ Spaced temp := by
  have hshape := hwf.shape_resizes hr
  rcases Nat.lt_or_ge p.qsize 2 with hsmall | hlarge
  · refine iff_of_true ⟨1, p, ?_, one_pos⟩ (.inl hsmall)
    rw [newWidth, if_pos hsmall]
  · obtain ⟨temp, r, hdelivers, hlength, hnew⟩ := newWidth_spec hshape (hfits.resizes hr) hlarge
    have hpositive : (∃ w r, p.newWidth = .ok (w, r) ∧ 0 < w) ↔ ∃ w, sampleWidth temp = .ok w ∧ 0 < w := by
      rw [hnew]
      cases sampleWidth temp with
      | error f => simp [Except.map]
      | ok w => simp [Except.map]
    rw [hpositive, sampleWidth_pos_iff]
    constructor
    · exact fun hspaced => .inr ⟨temp, hdelivers, hlength, hspaced⟩
    · rintro (hsmall | ⟨temp', hdelivers', hlength', hspaced⟩)
      · omega
      · rwa [hdelivers.unique hshape hdelivers' (hlength.trans hlength'.symm)]

theorem two_le_nsamples (h : 2 ≤ n) : 2 ≤ nsamples n := by
  unfold nsamples
  split <;> omega

/-- Four nodes are in the queue and one more is put. -/
theorem exists_resizes {q : Calqueue Unit} {x : CalqueueNode Unit} {w : Except CalqueueFault ℚ}
    (h : quotient (2 ^ 31) x.priority q.cwidth = .ok 1 ∧ q.topThreshold = 4 ∧ q.qsize = 4 ∧ q.nbuckets = 2 ∧
      (q.store x 1).newWidth.map Prod.fst = w) : ∃ p, q.Resizes 4 p ∧ p.qsize = 5 ∧ p.newWidth.map Prod.fst = w := by
  obtain ⟨hi, htop, hsize, hn, hw⟩ := h
  have hput : q.Resizes (2 * q.nbuckets) (q.store x (1 % q.nbuckets)) := by
    refine .put hi ?_ ?_
    · rw [htop, hsize]
      decide
    · rw [hn]
      decide
  rw [hn] at hput
  refine ⟨q.store x 1, hput, ?_, hw⟩
  show q.qsize + 1 = 5
  rw [hsize]

theorem played_ties : (played zeroed (fun _ _ => true) (List.replicate 4 (.put ⟨1, ()⟩))).map (fun q => decide
    (quotient (2 ^ 31) 1 q.cwidth = .ok 1 ∧ q.topThreshold = 4 ∧ q.qsize = 4 ∧ q.nbuckets = 2 ∧
      (q.store ⟨1, ()⟩ 1).newWidth.map Prod.fst = .error .divisionByZero)) = some true := by
  decide +kernel

/-- Five nodes without ties, in any order. -/
theorem played_apart : (played zeroed (fun _ _ => true) [.put ⟨4, ()⟩, .put ⟨3, ()⟩, .put ⟨2, ()⟩, .put ⟨5, ()⟩]).map
    (fun q => decide (quotient (2 ^ 31) 1 q.cwidth = .ok 1 ∧ q.topThreshold = 4 ∧ q.qsize = 4 ∧ q.nbuckets = 2 ∧
      (q.store ⟨1, ()⟩ 1).newWidth.map Prod.fst = .ok 3)) = some true := by
  decide +kernel

end Calqueue

end LinuxFibers
