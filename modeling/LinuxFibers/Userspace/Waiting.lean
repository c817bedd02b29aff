import LinuxFibers.Userspace.Handover
import Mathlib.Data.Fintype.EquivFin
import Mathlib.Logic.Relation

/-!
# Nobody waits in a circle

A thread that creates a fiber leaves its own one, starts the new one and comes back through `ult_lock(current)` in
`context_create_boot`, the only place where a thread waits: another thread may have taken the fiber since. That thread
never waits itself, and so every thread in the library can be brought back to the code of a fiber (`ult_comes_back`).
-/

namespace LinuxFibers

namespace Userspace

open Runs Baton
open Function (update update_self update_of_ne)

variable {T ι W : Type}

/-- The thread that makes the access. -/
def Event.thread : Event T ι W → T
  | .silent t | .convert t _ | .create t _ | .lock t _ _ | .setJmp t _ _ | .unlock t _ _ | .resume t _ _ => t

/-- The fiber that a thread is starting, on its way from `ult_unlock` to `ult_lock(current)`. -/
def Pc.starts : Pc ι W → Option Nat
  | .load f true _ | .boot f _ => some f
  | _ => none

/-- A fiber that has not been left yet was made by one that has. -/
def Ult.Fresh (s : Ult T ι W) : Prop :=
  ∀ t f, (s.pc t).starts = some f → s.frame f = none ∧ ∀ c, s.current t = some c → s.frame c ≠ none

/-- The fiber that a thread leaves, and how. -/
def Pc.leaves : Pc ι W → Option (Nat × Frame)
  | .locked f frame _ | .save f frame _ _ | .unlock f frame _ => some (f, frame)
  | _ => none

/-- The thread `t` has to come back to a fiber that `u` has taken. -/
def Ult.WaitsFor (s : Ult T ι W) (t u : T) : Prop :=
  (s.pc t).starts ≠ none ∧ ∃ c, s.current t = some c ∧ c ∈ (s.pc u).holds

variable {rax : ι} {zero : W → Bool} {val : W} {s s' : Ult T ι W} {pl : Store T Nat (ι → W)} {t u : T}

theorem Pc.holds_of_starts {pc : Pc ι W} {f : Nat} (h : pc.starts = some f) : pc.holds = [f] := by
  cases pc with
  | load g one got =>
    cases one with
    | true =>
      obtain rfl : g = f := Option.some.inj h
      rfl
    | false => cases h
  | boot g r =>
    obtain rfl : g = f := Option.some.inj h
    rfl
  | thread | run | locked | save | unlock => cases h

/-- The fiber to come back to is another one. -/
theorem Agree.creator {f : Nat} (h : Agree rax zero s pl) (hstarts : (s.pc t).starts = some f) : s.Creator t f := by
  have hplace := h.place t
  cases hpc : s.pc t with
  | load g one got =>
    rw [hpc] at hplace hstarts
    cases one with
    | true =>
      obtain rfl : g = f := Option.some.inj hstarts
      exact hplace.2.2
    | false => cases hstarts
  | boot g r =>
    rw [hpc] at hplace hstarts
    obtain rfl : g = f := Option.some.inj hstarts
    exact hplace
  | thread | run | locked | save | unlock =>
    rw [hpc] at hstarts
    cases hstarts

/-- What is true in every state of a run. -/
def Ult.Sound (rax : ι) (zero : W → Bool) (s : Ult T ι W) : Prop := s.Fresh ∧ ∃ pl, Agree rax zero s pl

/-- **A thread that is waited for waits for nobody.** -/
theorem Ult.Sound.starts_none (h : s.Sound rax zero) (hwaits : s.WaitsFor t u) : (s.pc u).starts = none := by
  obtain ⟨hfresh, -⟩ := h
  obtain ⟨hstarts, c, hcur, hheld⟩ := hwaits
  obtain ⟨f, hf⟩ := Option.ne_none_iff_exists'.mp hstarts
  by_contra hstarts'
  obtain ⟨g, hg⟩ := Option.ne_none_iff_exists'.mp hstarts'
  -- all that `u` holds is a fiber that has not been left yet
  rw [Pc.holds_of_starts hg, List.mem_singleton] at hheld
  subst hheld
  exact (hfresh t f hf).2 c hcur (hfresh u c hg).1

section Steps

variable [DecidableEq T] [DecidableEq ι] {e : Event T ι W}

theorem Ult.Step.others (h : s.Step rax zero val e s') (hu : u ≠ e.thread) :
    s'.pc u = s.pc u ∧ s'.current u = s.current u := by
  cases h with
  | refused => exact ⟨rfl, rfl⟩
  | convert | trylock => exact ⟨update_of_ne hu .., update_of_ne hu ..⟩
  | work | creat | lock | setJmp | store | saved | unlock | fetch | boot | resume | again =>
    exact ⟨update_of_ne hu .., rfl⟩

/-- The frame of a fiber that exists is changed by a thread that leaves the fiber. -/
theorem Ult.Step.frame_eq {f : Nat} (h : s.Step rax zero val e s') (hf : f < s.ultId) :
    s'.frame f = s.frame f ∨ s'.frame f ≠ none ∧ f ∈ (s.pc e.thread).holds := by
  cases h with
  | convert | creat => exact .inl (update_of_ne (Nat.ne_of_lt hf) ..)
  | @setJmp t g frame r hpc =>
    by_cases hg : f = g
    · refine .inr ⟨?_, ?_⟩
      · simp [Ult.goto, Ult.setFrame, hg]
      · simp [Event.thread, hpc, Pc.holds, hg]
    · exact .inl (update_of_ne hg ..)
  | work | refused | trylock | lock | store | saved | unlock | fetch | boot | resume | again => exact .inl rfl

theorem Ult.Step.frame_ne_none {f : Nat} (h : s.Step rax zero val e s') (hf : f < s.ultId) (hframe : s.frame f ≠ none) :
    s'.frame f ≠ none := by
  obtain hsame | ⟨hleft, -⟩ := h.frame_eq hf
  · rwa [hsame]
  · exact hleft

theorem fresh_own {f : Nat} (h : Agree rax zero s pl) (hfresh : s.Fresh) (hstep : s.Step rax zero val e s')
    (hstarts : (s'.pc e.thread).starts = some f) :
    s'.frame f = none ∧ ∀ c, s'.current e.thread = some c → s'.frame c ≠ none := by
  have hplace := h.place e.thread
  cases hstep with
  | work t r =>
    refine hfresh t f ?_
    simp only [Event.thread, Ult.goto, update_self] at hstarts
    cases hpc : s.pc t <;> rw [hpc] at hstarts <;> exact hstarts
  | refused target hpc hset =>
    rw [Event.thread, hpc] at hstarts
    cases hstarts
  | convert | creat | trylock | lock | setJmp | store | saved | resume | again =>
    simp [Event.thread, Ult.goto, Pc.starts] at hstarts
  | @unlock t g frame r hpc =>
    rw [Event.thread, hpc] at hplace
    obtain ⟨⟨-, hcur, htarget⟩, ⟨-, hframe⟩, -⟩ := hplace
    simp only [Event.thread, Ult.goto, update_self] at hstarts
    cases frame with
    | switch target => cases hstarts
    | create new =>
      obtain rfl : new = f := Option.some.inj hstarts
      refine ⟨htarget, fun c hc => ?_⟩
      obtain rfl : g = c := Option.some.inj (hcur.symm.trans hc)
      exact hframe
  | @fetch t g one got i hpc hi =>
    refine hfresh t f ?_
    simp only [Event.thread, Ult.goto, update_self] at hstarts
    rw [hpc]
    cases one <;> exact hstarts
  | @boot t g one got r hpc hgot hnz hframe =>
    rw [Event.thread, hpc] at hplace
    simp only [Event.thread, Ult.goto, update_self] at hstarts
    obtain rfl : g = f := Option.some.inj hstarts
    cases one with
    | true => exact hfresh t g (by rw [hpc]; rfl)
    | false => exact absurd hframe hplace.1.2.2

theorem fresh_step (h : Agree rax zero s pl) (hfresh : s.Fresh) (hstep : s.Step rax zero val e s') : s'.Fresh := by
  intro u f hstarts
  by_cases hu : u = e.thread
  · subst hu
    exact fresh_own h hfresh hstep hstarts
  · obtain ⟨hpc, hcur⟩ := hstep.others hu
    rw [hpc] at hstarts
    obtain ⟨hnone, hcreator⟩ := hfresh u f hstarts
    have hmem : f ∈ (s.pc u).holds := by simp [Pc.holds_of_starts hstarts]
    constructor
    · obtain hsame | ⟨-, hown⟩ := hstep.frame_eq (h.lt_ultId hmem)
      · rw [hsame, hnone]
      · exact absurd (h.holder_unique hmem hown) hu
    · intro c hc
      rw [hcur] at hc
      obtain ⟨c', hc', -, hlt⟩ := h.creator hstarts
      obtain rfl : c' = c := Option.some.inj (hc'.symm.trans hc)
      exact hstep.frame_ne_none hlt (hcreator c' hc)

theorem Ult.Sound.step (h : s.Sound rax zero) (hstep : s.Step rax zero val e s') (hguard : e.nonzero rax zero)
    (hval : zero val = false) : s'.Sound rax zero := by
  obtain ⟨hfresh, pl, hagree⟩ := h
  obtain ⟨pl', hagree', -⟩ := agree_step hagree hstep hguard hval
  exact ⟨fresh_step hagree hfresh hstep, pl', hagree'⟩

theorem sound_run {tr : List (Event T ι W)} (hval : zero val = false) (hrun : UltRun rax zero val s tr) :
    s.Sound rax zero := by
  refine hrun.invariant (P := fun s _ => s.Sound rax zero) ?_ fun s tr e s' _ hs hstep => hs.step hstep.1 hstep.2 hval
  intro s hinit
  obtain ⟨pl, hagree, -⟩ := agree_run hval (.start hinit)
  refine ⟨fun t f hstarts => ?_, pl, hagree⟩
  obtain ⟨-, -, hthread⟩ := hinit
  obtain ⟨r, hr⟩ := hthread t
  rw [hr] at hstarts
  cases hstarts

/-! ### What a thread reaches by itself -/

/-- Accesses of the threads in `A` lead from one state to the other. -/
abbrev Ult.Leads (rax : ι) (zero : W → Bool) (val : W) (A : Set T) : Ult T ι W → Ult T ι W → Prop :=
  Relation.ReflTransGen fun s s' => ∃ e : Event T ι W, s.Step rax zero val e s' ∧ e.nonzero rax zero ∧ e.thread ∈ A

theorem Ult.Leads.sound {A : Set T} (h : Ult.Leads rax zero val A s s') (hval : zero val = false)
    (hs : s.Sound rax zero) : s'.Sound rax zero := by
  induction h with
  | refl => exact hs
  | tail _ hstep ih =>
    obtain ⟨e, hstep, hguard, -⟩ := hstep
    exact ih.step hstep hguard hval

/-- A thread that takes no step stays where it is. -/
theorem Ult.Leads.others (h : Ult.Leads rax zero val {t} s s') (hu : u ≠ t) :
    s'.pc u = s.pc u ∧ s'.current u = s.current u := by
  induction h with
  | refl => exact ⟨rfl, rfl⟩
  | tail _ hstep ih =>
    obtain ⟨e, hstep, -, rfl⟩ := hstep
    obtain ⟨hpc, hcur⟩ := hstep.others hu
    exact ⟨hpc.trans ih.1, hcur.trans ih.2⟩

theorem Ult.Leads.run {A : Set T} {tr : List (Event T ι W)} (h : Ult.Leads rax zero val A s s')
    (hrun : UltRun rax zero val s tr) : ∃ es, UltRun rax zero val s' (es ++ tr) ∧ ∀ e ∈ es, e.thread ∈ A := by
  induction h with
  | refl => exact ⟨[], hrun, by simp⟩
  | tail _ hstep ih =>
    obtain ⟨es, hes, hA⟩ := ih
    obtain ⟨e, hstep, hguard, he⟩ := hstep
    refine ⟨e :: es, hes.step ⟨hstep, hguard⟩, ?_⟩
    simpa [he] using hA

variable (rax zero val) in
theorem leads_stores {f : Nat} {frame : Frame} {r : ι → W} {saved : List ι} (hpc : s.pc t = .save f frame r saved)
    (F : Finset ι) : ∃ s' saved', Ult.Leads rax zero val {t} s s' ∧ s'.pc t = .save f frame r saved' ∧
      (∀ i ∈ F, i ∈ saved') ∧ s'.current = s.current := by
  induction F using Finset.induction with
  | empty => exact ⟨s, saved, .refl, hpc, by simp, rfl⟩
  | insert i F _ ih =>
    obtain ⟨s₁, saved₁, hlead, hpc₁, hF, hcur⟩ := ih
    by_cases hi : i ∈ saved₁
    · exact ⟨s₁, saved₁, hlead, hpc₁, by simpa [hi] using hF, hcur⟩
    · refine ⟨_, i :: saved₁, hlead.tail ⟨_, .store hpc₁ hi, trivial, rfl⟩, update_self .., ?_, hcur⟩
      intro j hj
      obtain rfl | hj := Finset.mem_insert.mp hj
      · exact List.mem_cons_self
      · exact List.mem_cons_of_mem _ (hF j hj)

variable (rax zero val) in
theorem leads_fetches {f : Nat} {one : Bool} {got : ι → Option W} (hpc : s.pc t = .load f one got) (F : Finset ι) :
    ∃ s' got', Ult.Leads rax zero val {t} s s' ∧ s'.pc t = .load f one got' ∧ (∀ i ∈ F, got' i ≠ none) ∧
      s'.running = s.running ∧ s'.current = s.current := by
  induction F using Finset.induction with
  | empty => exact ⟨s, got, .refl, hpc, by simp, rfl, rfl⟩
  | insert i F _ ih =>
    obtain ⟨s₁, got₁, hlead, hpc₁, hF, hrunning, hcur⟩ := ih
    by_cases hi : got₁ i = none
    · refine ⟨_, _, hlead.tail ⟨_, .fetch hpc₁ hi, trivial, rfl⟩, update_self .., ?_, hrunning, hcur⟩
      intro j hj
      by_cases hji : j = i
      · simp [hji]
      · rw [update_of_ne hji]
        exact hF j ((Finset.mem_insert.mp hj).resolve_left hji)
    · refine ⟨s₁, got₁, hlead, hpc₁, ?_, hrunning, hcur⟩
      intro j hj
      obtain rfl | hj := Finset.mem_insert.mp hj
      · exact hi
      · exact hF j hj

variable [Finite ι]

variable (rax zero val) in
theorem leads_saved {f : Nat} {frame : Frame} {r : ι → W} {saved : List ι} (hpc : s.pc t = .save f frame r saved) :
    ∃ s', Ult.Leads rax zero val {t} s s' ∧ s'.pc t = .unlock f frame r ∧ s'.current = s.current := by
  have := Fintype.ofFinite ι
  obtain ⟨s₁, saved₁, hlead, hpc₁, hall, hcur⟩ := leads_stores rax zero val hpc Finset.univ
  exact ⟨_, hlead.tail ⟨_, .saved hpc₁ fun i => hall i (Finset.mem_univ i), trivial, rfl⟩, update_self .., hcur⟩

variable (rax zero val) in
theorem leads_loaded {f : Nat} {one : Bool} {got : ι → Option W} (hpc : s.pc t = .load f one got) :
    ∃ s' got', ∃ r : ι → W, Ult.Leads rax zero val {t} s s' ∧ s'.pc t = .load f one got' ∧
      (∀ i, got' i = some (r i)) ∧ s'.running = s.running ∧ s'.current = s.current := by
  have := Fintype.ofFinite ι
  obtain ⟨s', got', hlead, hpc', hall, hrunning, hcur⟩ := leads_fetches rax zero val hpc Finset.univ
  choose r hr using fun i => Option.ne_none_iff_exists'.mp (hall i (Finset.mem_univ i))
  exact ⟨s', got', r, hlead, hpc', hr, hrunning, hcur⟩

variable (rax) in
/-- A thread that leaves a fiber saves it, releases it and starts to load the other one. -/
theorem leads_unlock {f : Nat} {frame : Frame} (hval : zero val = false) (hleaves : (s.pc t).leaves = some (f, frame)) :
    ∃ s', Ult.Leads rax zero val {t} s s' ∧ s'.pc t = .load frame.target frame.one (fun _ => none) ∧
      s'.running f = false ∧ s'.current = s.current := by
  have hunlock : ∃ s₁ r, Ult.Leads rax zero val {t} s s₁ ∧ s₁.pc t = .unlock f frame r ∧ s₁.current = s.current := by
    cases hpc : s.pc t with
    | locked g frame' r =>
      rw [hpc] at hleaves
      cases hleaves
      -- the registers are saved with a value in `rax` that is not 0
      let r' := update r rax val
      have hwork : s.Step rax zero val (.silent t) (s.goto t (.locked f frame r')) := by
        simpa [hpc, Pc.work] using Ult.Step.work t r' (s := s)
      have hsetJmp : (s.goto t (.locked f frame r')).Step rax zero val (.setJmp t f r') _ := .setJmp (update_self ..)
      have hsave : (((s.goto t (.locked f frame r')).setFrame f (some frame)).goto t (.save f frame r' [])).pc t =
        .save f frame r' [] := update_self ..
      have hnonzero : zero (r' rax) = false := by simpa [r'] using hval
      obtain ⟨s₁, hlead, hpc₁, hcur⟩ := leads_saved rax zero val hsave
      exact ⟨s₁, r', .head ⟨_, hwork, trivial, rfl⟩ (.head ⟨_, hsetJmp, hnonzero, rfl⟩ hlead), hpc₁, hcur⟩
    | save g frame' r saved =>
      rw [hpc] at hleaves
      cases hleaves
      obtain ⟨s₁, hlead, hpc₁, hcur⟩ := leads_saved rax zero val hpc
      exact ⟨s₁, r, hlead, hpc₁, hcur⟩
    | unlock g frame' r =>
      rw [hpc] at hleaves
      cases hleaves
      exact ⟨s, r, .refl, hpc, rfl⟩
    | thread | run | load | boot =>
      rw [hpc] at hleaves
      cases hleaves
  obtain ⟨s₁, r, hlead, hpc, hcur⟩ := hunlock
  exact ⟨_, hlead.tail ⟨_, .unlock hpc, trivial, rfl⟩, update_self .., update_self .., hcur⟩

/-- A fiber that was taken after it had been left goes on. -/
theorem leads_resume {f : Nat} {got : ι → Option W} (hval : zero val = false) (hs : s.Sound rax zero)
    (hpc : s.pc t = .load f false got) : ∃ s' r, Ult.Leads rax zero val {t} s s' ∧ s'.pc t = .run f r := by
  obtain ⟨s₁, got₁, r, hlead, hpc₁, hgot, -, -⟩ := leads_loaded rax zero val hpc
  obtain ⟨-, pl, hagree⟩ := hlead.sound hval hs
  have hload := hagree.place t
  rw [hpc₁] at hload
  obtain ⟨⟨-, hzero, hframe⟩, hmem, -⟩ := hload
  rw [hmem rax _ (hgot rax)] at hzero
  obtain ⟨frame, hframe⟩ := Option.ne_none_iff_exists'.mp hframe
  exact ⟨_, _, hlead.tail ⟨_, .resume hpc₁ hgot hzero hframe, trivial, rfl⟩, update_self ..⟩

/-- A thread that starts a fiber comes back if the one it has left is free. -/
theorem leads_back {f : Nat} (hval : zero val = false) (hs : s.Sound rax zero)
    (hstarts : (s.pc t).starts = some f) (hclear : ∀ c, s.current t = some c → s.running c = false) :
    ∃ s' c r, Ult.Leads rax zero val {t} s s' ∧ s'.pc t = .run c r := by
  have hboot : ∀ {s : Ult T ι W} {r : ι → W}, s.Sound rax zero → s.pc t = .boot f r →
      (∀ c, s.current t = some c → s.running c = false) →
      ∃ s' c r, Ult.Leads rax zero val {t} s s' ∧ s'.pc t = .run c r := by
    intro s r hs hpc hclear
    obtain ⟨-, pl, hagree⟩ := id hs
    obtain ⟨c, hcur, -, -⟩ := hagree.creator (t := t) (by rw [hpc]; rfl)
    have hlock : Ult.Leads rax zero val {t} s _ := .single ⟨_, .lock hpc hcur (hclear c hcur), trivial, rfl⟩
    obtain ⟨s₁, hlead₁, hpc₁, -, -⟩ := leads_unlock rax hval
      (show (((s.setRunning c true).goto t (.locked f (.switch c) r)).pc t).leaves = some (f, .switch c) by
        simp [Ult.goto, Pc.leaves])
    obtain ⟨s', r', hlead', hpc'⟩ := leads_resume hval (hlead₁.sound hval (hlock.sound hval hs)) hpc₁
    exact ⟨s', c, r', (hlock.trans hlead₁).trans hlead', hpc'⟩
  cases hpc : s.pc t with
  | load g one got =>
    rw [hpc] at hstarts
    cases one with
    | true =>
      obtain rfl : g = f := Option.some.inj hstarts
      obtain ⟨s₁, got₁, r, hlead, hpc₁, hgot, hrunning, hcur⟩ := leads_loaded rax zero val hpc
      have hs₁ := hlead.sound hval hs
      have hframe : s₁.frame g = none := (hs₁.1 t g (by rw [hpc₁]; rfl)).1
      have hstep : Ult.Leads rax zero val {t} s₁ _ := .single ⟨_, .boot hpc₁ hgot hval hframe, trivial, rfl⟩
      obtain ⟨s', c, r', hlead', hpc'⟩ := hboot (hstep.sound hval hs₁) (update_self ..) fun c hc => by
        show s₁.running c = false
        rw [hrunning]
        exact hclear c (by rw [← hc, ← hcur]; rfl)
      exact ⟨s', c, r', (hlead.trans hstep).trans hlead', hpc'⟩
    | false => cases hstarts
  | boot g r =>
    rw [hpc] at hstarts
    obtain rfl : g = f := Option.some.inj hstarts
    exact hboot hs hpc hclear
  | thread | run | locked | save | unlock =>
    rw [hpc] at hstarts
    cases hstarts

/-- A thread in the library comes back to the code of a fiber, unless the fiber it has left has been taken. -/
theorem leads_run (hval : zero val = false) (hs : s.Sound rax zero) (hlib : ∀ r, s.pc t ≠ .thread r)
    (hclear : (s.pc t).starts ≠ none → ∀ c, s.current t = some c → s.running c = false) :
    ∃ s' f r, Ult.Leads rax zero val {t} s s' ∧ s'.pc t = .run f r := by
  have hleaving : ∀ {f frame}, (s.pc t).leaves = some (f, frame) → s.current t = some (frame.current f) →
      ∃ s' f r, Ult.Leads rax zero val {t} s s' ∧ s'.pc t = .run f r := by
    intro f frame hleaves hcur
    obtain ⟨s₁, hlead, hpc, hrunning, hsame⟩ := leads_unlock rax hval hleaves
    have hs₁ := hlead.sound hval hs
    cases frame with
    | switch target =>
      obtain ⟨s', r, hlead', hpc'⟩ := leads_resume hval hs₁ hpc
      exact ⟨s', target, r, hlead.trans hlead', hpc'⟩
    | create new =>
      -- the fiber to come back to is the one that has just been released
      obtain ⟨s', c, r, hlead', hpc'⟩ := leads_back hval hs₁ (by rw [hpc]; rfl) fun c hc => by
        rw [hsame, hcur] at hc
        obtain rfl : f = c := Option.some.inj hc
        exact hrunning
      exact ⟨s', c, r, hlead.trans hlead', hpc'⟩
  obtain ⟨-, pl, hagree⟩ := id hs
  have hplace := hagree.place t
  cases hpc : s.pc t with
  | thread r => exact absurd hpc (hlib r)
  | run f r => exact ⟨s, f, r, .refl, hpc⟩
  | locked f frame r =>
    rw [hpc] at hplace
    exact hleaving (by rw [hpc]; rfl) hplace.2.1
  | save f frame r saved =>
    rw [hpc] at hplace
    exact hleaving (by rw [hpc]; rfl) hplace.1.2.1
  | unlock f frame r =>
    rw [hpc] at hplace
    exact hleaving (by rw [hpc]; rfl) hplace.1.2.1
  | load f one got =>
    cases one with
    | true => exact leads_back hval hs (by rw [hpc]; rfl) (hclear (by rw [hpc]; simp [Pc.starts]))
    | false =>
      obtain ⟨s', r, hlead, hpc'⟩ := leads_resume hval hs hpc
      exact ⟨s', f, r, hlead, hpc'⟩
  | boot f r => exact leads_back hval hs (by rw [hpc]; rfl) (hclear (by rw [hpc]; simp [Pc.starts]))

/-- A thread that has not just been started can release any fiber it holds, by creating another one in its code. -/
theorem leads_release {c : Nat} (hval : zero val = false) (hs : s.Sound rax zero) (hmem : c ∈ (s.pc t).holds)
    (hstarts : (s.pc t).starts = none) (hframe : s.frame c ≠ none) :
    ∃ s', Ult.Leads rax zero val {t} s s' ∧ s'.running c = false := by
  have hrun : ∀ {s : Ult T ι W} {r : ι → W}, s.Sound rax zero → s.pc t = .run c r →
      ∃ s', Ult.Leads rax zero val {t} s s' ∧ s'.running c = false := by
    intro s r ⟨_, pl, hagree⟩ hpc
    have hcur := hagree.place t
    rw [hpc] at hcur
    have hcreat : Ult.Leads rax zero val {t} s _ := .single ⟨_, .creat r hpc hcur, trivial, rfl⟩
    obtain ⟨s', hlead, -, hrunning, -⟩ := leads_unlock rax hval
      (show (((s.newFiber r).goto t (.locked c (.create s.ultId) r)).pc t).leaves = some (c, .create s.ultId) by
        simp [Ult.goto, Pc.leaves])
    exact ⟨s', hcreat.trans hlead, hrunning⟩
  have hload : ∀ {s : Ult T ι W} {got : ι → Option W}, s.Sound rax zero → s.pc t = .load c false got →
      ∃ s', Ult.Leads rax zero val {t} s s' ∧ s'.running c = false := by
    intro s got hs hpc
    obtain ⟨s₁, r, hlead, hpc₁⟩ := leads_resume hval hs hpc
    obtain ⟨s', hlead', hrunning⟩ := hrun (hlead.sound hval hs) hpc₁
    exact ⟨s', hlead.trans hlead', hrunning⟩
  have hleaving : ∀ {f frame pl}, (s.pc t).leaves = some (f, frame) → c = f ∨ c = frame.target →
      s.Target rax zero pl t frame.target frame.one → ∃ s', Ult.Leads rax zero val {t} s s' ∧ s'.running c = false := by
    intro f frame pl hleaves hc htarget
    obtain ⟨s₁, hlead, hpc, hrunning, -⟩ := leads_unlock rax hval hleaves
    obtain rfl | rfl := hc
    · exact ⟨s₁, hlead, hrunning⟩
    · cases frame with
      | switch target =>
        obtain ⟨s', hlead', hrunning'⟩ := hload (hlead.sound hval hs) hpc
        exact ⟨s', hlead.trans hlead', hrunning'⟩
      | create new => exact absurd htarget hframe
  obtain ⟨-, pl, hagree⟩ := id hs
  have hplace := hagree.place t
  cases hpc : s.pc t with
  | thread r => simp [hpc, Pc.holds] at hmem
  | run f r =>
    rw [hpc] at hmem
    obtain rfl : c = f := List.mem_singleton.mp hmem
    exact hrun hs hpc
  | locked f frame r =>
    rw [hpc] at hplace hmem
    exact hleaving (by rw [hpc]; rfl) (by simpa [Pc.holds] using hmem) hplace.2.2
  | save f frame r saved =>
    rw [hpc] at hplace hmem
    exact hleaving (by rw [hpc]; rfl) (by simpa [Pc.holds] using hmem) hplace.1.2.2
  | unlock f frame r =>
    rw [hpc] at hplace hmem
    exact hleaving (by rw [hpc]; rfl) (by simpa [Pc.holds] using hmem) hplace.1.2.2
  | load f one got =>
    rw [hpc] at hmem hstarts
    obtain rfl : c = f := List.mem_singleton.mp hmem
    cases one with
    | true => cases hstarts
    | false => exact hload hs hpc
  | boot f r =>
    rw [hpc] at hstarts
    cases hstarts

end Steps

/-- The first thread has left the fiber 0 to start the fiber 2, and the second one has taken the fiber 0. -/
theorem twoThreads_wait : ∃ s tr, TwoRun s tr ∧ s.WaitsFor false true := by
  let on : Bool → Bool := fun _ => true
  have h₁ : TwoRun _ [.convert false 0] :=
    .step (.start (s := twoThreads) ⟨rfl, fun _ => rfl, fun _ => ⟨_, rfl⟩⟩) ⟨.convert (r := on) rfl, trivial⟩
  have h₂ : TwoRun _ (.convert true 1 :: _) := h₁.step ⟨.convert (r := on) rfl, trivial⟩
  have h₃ : TwoRun _ (.create false 2 :: _) := h₂.step ⟨.creat (r := on) on rfl rfl, trivial⟩
  have h₄ : TwoRun _ (.setJmp false 0 on :: _) := h₃.step ⟨.setJmp rfl, rfl⟩
  have h₅ : TwoRun _ (.silent false :: _) := h₄.step ⟨.store (i := false) rfl (by decide), trivial⟩
  have h₆ : TwoRun _ (.silent false :: _) := h₅.step ⟨.store (i := true) rfl (by decide), trivial⟩
  have h₇ : TwoRun _ (.silent false :: _) := h₆.step ⟨.saved rfl (by decide), trivial⟩
  have h₈ : TwoRun _ (.unlock false 0 on :: _) := h₇.step ⟨.unlock rfl, trivial⟩
  have h₉ : TwoRun _ (.lock true 0 _ :: _) := h₈.step ⟨.trylock (r := on) rfl rfl (by decide) rfl, trivial⟩
  exact ⟨_, _, h₉, Option.some_ne_none 2, 0, rfl, List.mem_cons_of_mem _ List.mem_cons_self⟩

end Userspace

end LinuxFibers
