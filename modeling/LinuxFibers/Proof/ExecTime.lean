import Mathlib.RingTheory.Coprime.Lemmas
import LinuxFibers.Driver.Proc
import LinuxFibers.Proof.Figures

/-!
# The running time of a fiber

`exec_time` adds up differences of `tv_nsec` alone, and `myread` divides it by 1000 to print milliseconds.
`exec_time_iff` says in which runs the two are right: when the completed activations of a fiber cross no
second of the clock, and last less than a microsecond together.
-/

namespace LinuxFibers

open HeapTable Runs

/-! ### The clock -/

/-- Nanoseconds. -/
def Timespec.ns (t : Timespec) : Int := t.tvSec * 10 ^ 9 + t.tvNsec

/-- The readings of the clock by the conversions and switches that succeeded, newest first. -/
def readings (tr : List Event) : List Timespec := tr.filterMap fun e => e.entered.map fun r => r.2.2

/-- The clock never runs backwards, and `tv_nsec` stays within its second. -/
structure ClockOk (tr : List Event) : Prop where
  sorted : (readings tr).Pairwise fun new old => old.ns ≤ new.ns
  valid : ∀ t ∈ readings tr, 0 ≤ t.tvNsec ∧ t.tvNsec < 10 ^ 9

/-- The sum of the lengths of activations. -/
def elapsed (l : List (Timespec × Timespec)) : Int := (l.map fun a => a.2.ns - a.1.ns).sum

/-- The seconds of the clock that begin during the activations. -/
def crossings (l : List (Timespec × Timespec)) : Int := (l.map fun a => a.2.tvSec - a.1.tvSec).sum

theorem elapsed_eq (l : List (Timespec × Timespec)) : elapsed l = nsecSum l + 10 ^ 9 * crossings l := by
  induction l with
  | nil => rfl
  | cons a l ih =>
    simp only [elapsed, nsecSum, crossings, List.map_cons, List.sum_cons] at ih ⊢
    rw [ih, Timespec.ns, Timespec.ns]
    omega

section clock

variable {e : Event} {tr : List Event} {tgid id : Int}

theorem readings_entered {c : Task} {new : Int} {now : Timespec} (h : e.entered = some (c, new, now)) :
    readings (e :: tr) = now :: readings tr := by
  simp [readings, h]

theorem readings_idle (h : e.entered = none) : readings (e :: tr) = readings tr := by
  simp [readings, h]

theorem ClockOk.tail (h : ClockOk (e :: tr)) : ClockOk tr := by
  have hsub : (readings tr).Sublist (readings (e :: tr)) := (List.sublist_cons_self e tr).filterMap _
  exact ⟨h.sorted.sublist hsub, fun t ht => h.valid t (hsub.subset ht)⟩

theorem ClockOk.le_now (h : ClockOk (e :: tr)) {c : Task} {new : Int} {now : Timespec}
    (henter : e.entered = some (c, new, now)) {t : Timespec} (ht : t ∈ readings tr) : t.ns ≤ now.ns := by
  have hsorted := h.sorted
  rw [readings_entered henter, List.pairwise_cons] at hsorted
  exact hsorted.1 t ht

/-- A fiber that is running was activated at a reading of the clock. -/
theorem runningSince_mem {start : Timespec} (h : runningSince tr tgid id = some start) : start ∈ readings tr := by
  induction tr with
  | nil => cases h
  | cons e tr ih =>
    rw [runningSince_cons] at h
    cases henter : e.entered with
    | none =>
      rw [readings_idle henter]
      exact ih (by simpa only [henter] using h)
    | some r =>
      obtain ⟨c, new, now⟩ := r
      rw [readings_entered henter]
      simp only [henter] at h
      split_ifs at h
      · exact List.mem_cons.mpr (.inl (Option.some.inj h).symm)
      · exact List.mem_cons_of_mem _ (ih h)

/-- What one event adds to the completed activations. -/
theorem completed_cases (e : Event) (tr : List Event) (tgid id : Int) : completed (e :: tr) tgid id = completed tr tgid id ∨
    ∃ c new now start, e.entered = some (c, new, now) ∧ c.tgid = tgid ∧ lastFiber tr c = some id ∧
      runningSince tr tgid id = some start ∧ completed (e :: tr) tgid id = (start, now) :: completed tr tgid id := by
  rw [completed_cons]
  cases henter : e.entered with
  | none => exact .inl rfl
  | some r =>
    obtain ⟨c, new, now⟩ := r
    by_cases hleft : c.tgid = tgid ∧ lastFiber tr c = some id
    · cases hsince : runningSince tr tgid id with
      | none => exact .inl (by simp only [if_pos hleft]; rfl)
      | some start => exact .inr ⟨c, new, now, start, rfl, hleft.1, hleft.2, rfl, by simp only [if_pos hleft]; rfl⟩
    · exact .inl (by simp only [if_neg hleft])

/-- The time of a fiber only grows. -/
theorem elapsed_cons_le (h : ClockOk (e :: tr)) :
    elapsed (completed tr tgid id) ≤ elapsed (completed (e :: tr) tgid id) := by
  rcases completed_cases e tr tgid id with hsame |
    ⟨c, new, now, start, henter, -, -, hsince, hmore⟩
  · rw [hsame]
  · have hle := h.le_now henter (runningSince_mem hsince)
    simp only [hmore, elapsed, List.map_cons, List.sum_cons]
    omega

theorem elapsed_mono (h : ClockOk tr) {tr' : List Event} (hsuffix : tr' <:+ tr) :
    elapsed (completed tr' tgid id) ≤ elapsed (completed tr tgid id) := by
  induction tr with
  | nil => rw [List.suffix_nil.mp hsuffix]
  | cons e tr ih =>
    rcases List.suffix_cons_iff.mp hsuffix with rfl | hrest
    · exact le_refl _
    · exact (ih h.tail hrest).trans (elapsed_cons_le h)

theorem elapsed_nonneg (h : ClockOk tr) : 0 ≤ elapsed (completed tr tgid id) := by
  have hnil : [] <:+ tr := List.nil_suffix
  exact elapsed_mono h hnil

/-- The activations of a fiber follow one another: none of them counts a moment twice. -/
theorem elapsed_le (h : ClockOk tr) {origin : Int} (horigin : ∀ t ∈ readings tr, origin ≤ t.ns) :
    (∀ start, runningSince tr tgid id = some start → elapsed (completed tr tgid id) ≤ start.ns - origin) ∧
      ∀ limit, origin ≤ limit → (∀ t ∈ readings tr, t.ns ≤ limit) →
        elapsed (completed tr tgid id) ≤ limit - origin := by
  induction tr with
  | nil =>
    refine ⟨fun start hstart => (by cases hstart), fun limit hle _ => ?_⟩
    simp only [completed, elapsed, List.map_nil, List.sum_nil]
    omega
  | cons e tr ih =>
    cases henter : e.entered with
    | none =>
      rw [readings_idle henter] at horigin ⊢
      simpa only [runningSince_cons, completed_cons, henter] using ih h.tail horigin
    | some r =>
      obtain ⟨c, new, now⟩ := r
      rw [readings_entered henter] at horigin ⊢
      obtain ⟨hsince, hlimit⟩ := ih h.tail fun t ht => horigin t (List.mem_cons_of_mem _ ht)
      have hnow := horigin now List.mem_cons_self
      -- up to the reading of this event
      have hbound : elapsed (completed (e :: tr) tgid id) ≤ now.ns - origin := by
        rcases completed_cases e tr tgid id with hsame |
          ⟨c', new', now', start, henter', -, -, hstart, hmore⟩
        · rw [hsame]
          exact hlimit now.ns hnow fun t ht => h.le_now henter ht
        · cases henter.symm.trans henter'
          have hle := hsince start hstart
          simp only [elapsed] at hle
          simp only [hmore, elapsed, List.map_cons, List.sum_cons]
          omega
      refine ⟨fun start hstart => ?_, fun limit hle hall => ?_⟩
      · rw [runningSince_cons, henter] at hstart
        simp only at hstart
        split_ifs at hstart with hnew hleft
        · cases hstart
          exact hbound
        · rw [completed_cons, henter]
          simp only [if_neg hleft]
          exact hsince start hstart
      · have := hall now List.mem_cons_self
        omega

/-- An activation across a second lasts a nanosecond at least. -/
theorem crossings_le (h : ClockOk tr) :
    0 ≤ crossings (completed tr tgid id) ∧ crossings (completed tr tgid id) ≤ elapsed (completed tr tgid id) := by
  induction tr with
  | nil => exact ⟨le_refl _, le_refl _⟩
  | cons e tr ih =>
    obtain ⟨hnonneg, hle⟩ := ih h.tail
    rcases completed_cases e tr tgid id with hsame | ⟨c, new, now, start, henter, -, -, hsince, hmore⟩
    · rw [hsame]
      exact ⟨hnonneg, hle⟩
    · have hstart := runningSince_mem hsince
      have horder : start.ns ≤ now.ns := h.le_now henter hstart
      obtain ⟨hstart0, hstart9⟩ := h.tail.valid start hstart
      obtain ⟨hnow0, hnow9⟩ := h.valid now (by rw [readings_entered henter]; exact List.mem_cons_self)
      simp only [crossings, elapsed, Timespec.ns] at hnonneg hle horder
      simp only [hmore, crossings, elapsed, Timespec.ns, List.map_cons, List.sum_cons]
      omega

end clock

/-! ### The driver -/

/-- The running time of a fiber is the length of its completed activations: it never decreases along the run, it
never exceeds the time that has passed, and `myread` prints it in milliseconds. -/
structure TimeRight (tr : List Event) (tgid : Int) (f : Fiber) : Prop where
  sum : (f.execTime.toNat : Int) = elapsed (completed tr tgid f.id)
  grows : ∀ tr', tr' <:+ tr → elapsed (completed tr' tgid f.id) ≤ f.execTime.toNat
  within : ∀ origin limit : Int, origin ≤ limit → (∀ t ∈ readings tr, origin ≤ t.ns ∧ t.ns ≤ limit) →
    (f.execTime.toNat : Int) ≤ limit - origin
  msec : ((fiberStat f).msec.toNat : Int) = elapsed (completed tr tgid f.id) / 10 ^ 6

section driver

variable {nFib : Nat} {s : State} {tr : List Event}

/-- What `exec_time` holds: each second that begins during an activation is missing. -/
theorem execTime_toNat (hrun : Run Init (Step nFib) s tr) (honce : OpensOnce tr) {b : Block Process}
    (hb : b ∈ s.processi) {f : Block Fiber} (hf : f ∈ b.val.listafiber) :
    (f.val.execTime.toNat : Int) = (elapsed (completed tr b.val.id f.val.id) -
      10 ^ 9 * crossings (completed tr b.val.id f.val.id)) % 2 ^ 64 := by
  have hexec : f.val.execTime = BitVec.ofInt 64 (nsecSum (completed tr b.val.id f.val.id)) :=
    (figures_tell hrun honce hb hf).exec
  rw [hexec, BitVec.toNat_ofInt, elapsed_eq, Int.add_sub_cancel, Int.toNat_of_nonneg (by omega)]
  rfl

/-- Leaving `k` seconds out is seen modulo `2 ^ 64` unless `k` is a multiple of `2 ^ 55`. -/
theorem seconds_lost_iff {x k : Int} (h0 : 0 ≤ x) (hx : x < 2 ^ 64) : x = (x - 10 ^ 9 * k) % 2 ^ 64 ↔ 2 ^ 55 ∣ k := by
  have hmod : x = (x - 10 ^ 9 * k) % 2 ^ 64 ↔ (2 : Int) ^ 64 ∣ 10 ^ 9 * k := by
    rw [eq_comm]
    nth_rewrite 2 [← Int.emod_eq_of_lt h0 hx]
    rw [Int.emod_eq_emod_iff_emod_sub_eq_zero, ← Int.dvd_iff_emod_eq_zero]
    have hsub : x - 10 ^ 9 * k - x = -(10 ^ 9 * k) := by omega
    rw [hsub, Int.dvd_neg]
  have hfactor : (10 : Int) ^ 9 * k = 2 ^ 9 * (5 ^ 9 * k) := by omega
  have hpower : (2 : Int) ^ 64 = 2 ^ 9 * 2 ^ 55 := by norm_num
  have hcoprime : IsCoprime ((2 : Int) ^ 55) (5 ^ 9) := by
    rw [Int.isCoprime_iff_gcd_eq_one]
    decide +kernel
  rw [hmod, hfactor, hpower, Int.mul_dvd_mul_iff_left (by norm_num)]
  exact ⟨hcoprime.dvd_of_dvd_mul_left, fun h => Dvd.dvd.mul_left h _⟩

/-- Thousands are millions only when there are none of either. -/
theorem thousands_eq_millions_iff {x : Int} (h0 : 0 ≤ x) : x / 1000 = x / 10 ^ 6 ↔ x < 1000 := by
  omega

/-- In less than a thousand nanoseconds less than a thousand seconds begin. -/
theorem crossings_zero_iff (h : ClockOk tr) {tgid id : Int} (hshort : elapsed (completed tr tgid id) < 1000) :
    2 ^ 55 ∣ crossings (completed tr tgid id) ↔ crossings (completed tr tgid id) = 0 := by
  have hnonneg : 0 ≤ crossings (completed tr tgid id) := (crossings_le h).1
  have hle : crossings (completed tr tgid id) ≤ elapsed (completed tr tgid id) := (crossings_le h).2
  constructor
  · intro hdvd
    exact Int.eq_zero_of_dvd_of_nonneg_of_lt hnonneg (by omega) hdvd
  · intro hzero
    rw [hzero]
    exact Int.dvd_zero _

/-- **The running time.** In every run in which each process opens the device once, under a clock that never runs
backwards, the running time of a fiber that ran for less than `2 ^ 64` nanoseconds is right, in the table and as
printed, exactly when no second began during its completed activations and they last less than 1000 nanoseconds
together. -/
theorem exec_time_iff (hrun : Run Init (Step nFib) s tr) (honce : OpensOnce tr) (hclock : ClockOk tr)
    {b : Block Process} (hb : b ∈ s.processi) {f : Block Fiber} (hf : f ∈ b.val.listafiber)
    (htotal : elapsed (completed tr b.val.id f.val.id) < 2 ^ 64) :
    TimeRight tr b.val.id f.val ↔ crossings (completed tr b.val.id f.val.id) = 0 ∧
      elapsed (completed tr b.val.id f.val.id) < 1000 := by
  have hexec := execTime_toNat hrun honce hb hf
  have hnonneg : 0 ≤ elapsed (completed tr b.val.id f.val.id) := elapsed_nonneg hclock
  have hmsec : ((fiberStat f.val).msec.toNat : Int) = (f.val.execTime.toNat : Int) / 1000 := by
    rw [fiberStat, BitVec.toNat_udiv]
    rfl
  constructor
  · rintro ⟨hsum, -, -, hprint⟩
    rw [hmsec, hsum] at hprint
    rw [hsum] at hexec
    have hshort := (thousands_eq_millions_iff hnonneg).mp hprint
    exact ⟨(crossings_zero_iff hclock hshort).mp ((seconds_lost_iff hnonneg htotal).mp hexec), hshort⟩
  · rintro ⟨hcross, hshort⟩
    have hsum : (f.val.execTime.toNat : Int) = elapsed (completed tr b.val.id f.val.id) :=
      hexec.trans ((seconds_lost_iff hnonneg htotal).mpr ((crossings_zero_iff hclock hshort).mpr hcross)).symm
    refine ⟨hsum, fun tr' hsuffix => ?_, fun origin limit hle hall => ?_, ?_⟩
    · rw [hsum]
      exact elapsed_mono hclock hsuffix
    · rw [hsum]
      exact (elapsed_le hclock fun t ht => (hall t ht).1).2 limit hle fun t ht => (hall t ht).2
    · rw [hmsec, hsum]
      exact (thousands_eq_millions_iff hnonneg).mpr hshort

end driver

/-- The id, the running time and the milliseconds printed, of the fibers of every entry. -/
def times (s : State) : List (List (Int × Nat × Nat)) :=
  s.processi.map fun b => b.val.listafiber.map fun f =>
    (f.val.id, f.val.execTime.toNat, (fiberStat f.val).msec.toNat)

/-- A fiber left 600 nanoseconds after the thread was converted. -/
theorem exec_time_iff_short : ∃ s tr, Run Init (Step nFib) s tr ∧ times s = [[(2, 0, 0), (1, 600, 0)]] ∧
    elapsed (completed tr 1 1) = 600 ∧ ∀ b ∈ s.processi, ∀ f ∈ b.val.listafiber,
      (TimeRight tr b.val.id f.val ↔ crossings (completed tr b.val.id f.val.id) = 0 ∧
        elapsed (completed tr b.val.id f.val.id) < 1000) := by
  obtain ⟨s, tr, hrun, hops, hview⟩ := exists_run nFib
    [.fibOpen ⟨1, 1⟩, .fibConvert ⟨1, 1⟩ ⟨5, 100⟩, .fibCreate ⟨1, 1⟩ 16 0 4096 4096, .fibSwitchTo ⟨1, 1⟩ 2 ⟨5, 700⟩]
    (fun r => (times r.1, elapsed (completed r.2 1 1), readings r.2))
    (v := ([[(2, 0, 0), (1, 600, 0)]], 600, [⟨5, 700⟩, ⟨5, 100⟩])) (by decide +kernel)
  simp only [Prod.mk.injEq] at hview
  obtain ⟨htimes, helapsed, hreadings⟩ := hview
  have honce : OpensOnce tr := opensOnce_of_ops hops (by decide) (by simp)
  have hclock : ClockOk tr := ⟨by rw [hreadings]; decide, by rw [hreadings]; decide⟩
  have hbounds : ∀ t ∈ readings tr, (5000000100 : Int) ≤ t.ns ∧ t.ns ≤ 5000000700 := by
    rw [hreadings]
    decide
  refine ⟨s, tr, hrun, htimes, helapsed, fun b hb f hf => exec_time_iff hrun honce hclock hb hf ?_⟩
  have hshort : elapsed (completed tr b.val.id f.val.id) ≤ 5000000700 - 5000000100 :=
    (elapsed_le hclock fun t ht => (hbounds t ht).1).2 5000000700 (by decide) fun t ht => (hbounds t ht).2
  exact hshort.trans_lt (by decide)

/-- Fiber 1 ran for one nanosecond, across a second of the clock, and fiber 2 for 5000, which are printed as five
milliseconds. -/
theorem exec_time_wrong : ∃ s tr, Run Init (Step nFib) s tr ∧ OpensOnce tr ∧ ClockOk tr ∧
    times s = [[(2, 5000, 5), (1, 2 ^ 64 - 999999999, (2 ^ 64 - 999999999) / 1000)]] ∧
    elapsed (completed tr 1 1) = 1 ∧ elapsed (completed tr 1 2) = 5000 := by
  obtain ⟨s, tr, hrun, hops, hview⟩ := exists_run nFib
    [.fibOpen ⟨1, 1⟩, .fibConvert ⟨1, 1⟩ ⟨1, 999999999⟩, .fibCreate ⟨1, 1⟩ 16 0 4096 4096,
      .fibSwitchTo ⟨1, 1⟩ 2 ⟨2, 0⟩, .fibSwitchTo ⟨1, 1⟩ 1 ⟨2, 5000⟩]
    (fun r => (times r.1, [1, 2].map fun id => elapsed (completed r.2 1 id), readings r.2))
    (v := ([[(2, 5000, 5), (1, 2 ^ 64 - 999999999, (2 ^ 64 - 999999999) / 1000)]], [1, 5000],
      [⟨2, 5000⟩, ⟨2, 0⟩, ⟨1, 999999999⟩])) (by decide +kernel)
  simp only [Prod.mk.injEq, List.map_cons, List.cons.injEq] at hview
  obtain ⟨htimes, ⟨hone, htwo, -⟩, hreadings⟩ := hview
  have honce : OpensOnce tr := opensOnce_of_ops hops (by decide) (by simp)
  have hclock : ClockOk tr := ⟨by rw [hreadings]; decide, by rw [hreadings]; decide⟩
  exact ⟨s, tr, hrun, honce, hclock, htimes, hone, htwo⟩

end LinuxFibers
