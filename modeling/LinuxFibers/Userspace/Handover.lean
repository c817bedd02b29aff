import LinuxFibers.Userspace.Ult

/-!
# Fibers are handed over whole

The fibers of `ult.c` behave as things that are held by one thread or lie with a saved context (`agree_step`), as long as
no context is saved with an `rax` of 0. Hence no two threads execute one fiber (`ult_exclusion`), and a fiber that is
resumed finds the registers it was last saved with, whichever threads have run in between (`ult_resume`).
-/

namespace LinuxFibers

namespace Userspace

open Runs Baton
open Function (update update_self update_of_ne)

variable {T ι W : Type}

/-- What `current` is while a thread leaves the fiber `f` through a switch. -/
def Frame.current (f : Nat) : Frame → Nat
  | .switch target => target
  | .create _ => f

/-- The fiber a thread is about to load: a new one, or one taken with the context that is still in memory. -/
def Ult.Target (rax : ι) (zero : W → Bool) (s : Ult T ι W) (pl : Store T Nat (ι → W)) (t : T) (f : Nat) : Bool → Prop
  | true => s.frame f = none
  | false => pl f = some (.held t (some (s.context f))) ∧ zero (s.context f rax) = false ∧ s.frame f ≠ none

/-- A fiber to come back to. -/
def Ult.Creator (s : Ult T ι W) (t : T) (f : Nat) : Prop := ∃ c, s.current t = some c ∧ c ≠ f ∧ c < s.ultId

/-- What is known of a thread at each place. -/
def Ult.At (rax : ι) (zero : W → Bool) (s : Ult T ι W) (pl : Store T Nat (ι → W)) (t : T) : Pc ι W → Prop
  | .thread _ => True
  | .run f _ => s.current t = some f
  | .locked f frame _ =>
    f ≠ frame.target ∧ s.current t = some (frame.current f) ∧ s.Target rax zero pl t frame.target frame.one
  | .save f frame r saved =>
    (f ≠ frame.target ∧ s.current t = some (frame.current f) ∧ s.Target rax zero pl t frame.target frame.one) ∧
      (zero (r rax) = false ∧ s.frame f ≠ none) ∧ ∀ i ∈ saved, s.context f i = r i
  | .unlock f frame r =>
    (f ≠ frame.target ∧ s.current t = some (frame.current f) ∧ s.Target rax zero pl t frame.target frame.one) ∧
      (zero (r rax) = false ∧ s.frame f ≠ none) ∧ s.context f = r
  | .load f one got =>
    s.Target rax zero pl t f one ∧ (∀ i v, got i = some v → s.context f i = v) ∧
      if one then s.Creator t f else s.current t = some f
  | .boot f _ => s.Creator t f

/-- The memory and the threads agree with where the fibers are. -/
structure Agree (rax : ι) (zero : W → Bool) (s : Ult T ι W) (pl : Store T Nat (ι → W)) : Prop where
  fresh : ∀ f, pl f = none ↔ s.ultId ≤ f
  holds : ∀ t f, f ∈ (s.pc t).holds ↔ ∃ v, pl f = some (.held t v)
  flag : ∀ f, s.running f = true ↔ ∃ t v, pl f = some (.held t v)
  resting : ∀ f r, pl f = some (.rest r) → s.context f = r ∧ zero (r rax) = false ∧ s.frame f ≠ none
  place : ∀ t, s.At rax zero pl t (s.pc t)

variable {rax : ι} {zero : W → Bool} {val : W} {s s' : Ult T ι W} {pl pl' : Store T Nat (ι → W)} {t : T}

theorem Ult.Target.mono {f : Nat} {one : Bool} (h : s.Target rax zero pl t f one)
    (hf : s'.context f = s.context f ∧ s'.frame f = s.frame f ∧ pl' f = pl f) : s'.Target rax zero pl' t f one := by
  obtain ⟨hcontext, hframe, hpl⟩ := hf
  cases one with
  | true => exact hframe.trans h
  | false =>
    unfold Ult.Target
    rw [hcontext, hframe, hpl]
    exact h

/-- What is known of a thread rests on its own `current` and on the fibers it holds. -/
theorem Ult.At.mono {pc : Pc ι W} (h : s.At rax zero pl t pc) (hcur : s'.current t = s.current t)
    (hid : s.ultId ≤ s'.ultId)
    (hheld : ∀ f ∈ pc.holds, s'.context f = s.context f ∧ s'.frame f = s.frame f ∧ pl' f = pl f) :
    s'.At rax zero pl' t pc := by
  have hcreator : ∀ f, s.Creator t f → s'.Creator t f := by
    intro f ⟨c, h1, h2, h3⟩
    exact ⟨c, hcur.trans h1, h2, Nat.lt_of_lt_of_le h3 hid⟩
  cases pc with
  | thread r => trivial
  | run f r => exact hcur.trans h
  | locked f frame r => exact ⟨h.1, hcur.trans h.2.1, h.2.2.mono (hheld _ (by simp [Pc.holds]))⟩
  | save f frame r saved =>
    obtain ⟨hcontext, hframe, -⟩ := hheld f (by simp [Pc.holds])
    refine ⟨⟨h.1.1, hcur.trans h.1.2.1, h.1.2.2.mono (hheld _ (by simp [Pc.holds]))⟩, ⟨h.2.1.1, ?_⟩, ?_⟩
    · rw [hframe]
      exact h.2.1.2
    · rw [hcontext]
      exact h.2.2
  | unlock f frame r =>
    obtain ⟨hcontext, hframe, -⟩ := hheld f (by simp [Pc.holds])
    refine ⟨⟨h.1.1, hcur.trans h.1.2.1, h.1.2.2.mono (hheld _ (by simp [Pc.holds]))⟩, ⟨h.2.1.1, ?_⟩, ?_⟩
    · rw [hframe]
      exact h.2.1.2
    · rw [hcontext]
      exact h.2.2
  | load f one got =>
    have hf := hheld f (by simp [Pc.holds])
    refine ⟨h.1.mono hf, ?_, ?_⟩
    · rw [hf.1]
      exact h.2.1
    · obtain ⟨-, -, hlast⟩ := h
      cases one with
      | true => exact hcreator f hlast
      | false => exact hcur.trans hlast
  | boot f r => exact hcreator f h

/-- A step of the thread `t` that touches, besides the thread itself, the fiber `b` only. -/
theorem Agree.change [DecidableEq T] {b : Nat} (h : Agree rax zero s pl) (hid : s.ultId ≤ s'.ultId)
    (hthread : ∀ u ≠ t, s'.pc u = s.pc u ∧ s'.current u = s.current u)
    (hfiber : ∀ f ≠ b, (s'.running f = s.running f ∧ s'.context f = s.context f ∧ s'.frame f = s.frame f) ∧
      pl' f = pl f)
    (hfree : ∀ u ≠ t, ∀ v, pl b ≠ some (.held u v) ∧ pl' b ≠ some (.held u v))
    (hfresh : ∀ f, pl' f = none ↔ s'.ultId ≤ f)
    (hholds : ∀ f, f ∈ (s'.pc t).holds ↔ ∃ v, pl' f = some (.held t v))
    (hflag : s'.running b = true ↔ ∃ u v, pl' b = some (.held u v))
    (hrest : ∀ r, pl' b = some (.rest r) → s'.context b = r ∧ zero (r rax) = false ∧ s'.frame b ≠ none)
    (hat : s'.At rax zero pl' t (s'.pc t)) : Agree rax zero s' pl' where
  fresh := hfresh
  holds := by
    intro u f
    by_cases hu : u = t
    · rw [hu]
      exact hholds f
    · rw [(hthread u hu).1, h.holds]
      by_cases hf : f = b
      · rw [hf]
        constructor
        · intro ⟨v, hv⟩
          exact absurd hv (hfree u hu v).1
        · intro ⟨v, hv⟩
          exact absurd hv (hfree u hu v).2
      · rw [(hfiber f hf).2]
  flag := by
    intro f
    by_cases hf : f = b
    · rw [hf]
      exact hflag
    · rw [(hfiber f hf).1.1, (hfiber f hf).2]
      exact h.flag f
  resting := by
    intro f r
    by_cases hf : f = b
    · rw [hf]
      exact hrest r
    · rw [(hfiber f hf).1.2.1, (hfiber f hf).1.2.2, (hfiber f hf).2]
      exact h.resting f r
  place := by
    intro u
    by_cases hu : u = t
    · rw [hu]
      exact hat
    · rw [(hthread u hu).1]
      refine (h.place u).mono (hthread u hu).2 hid ?_
      intro f hf
      obtain ⟨v, hv⟩ := (h.holds u f).mp hf
      have hfb : f ≠ b := by
        intro hfb
        rw [hfb] at hv
        exact (hfree u hu v).1 hv
      exact ⟨(hfiber f hfb).1.2.1, (hfiber f hfb).1.2.2, (hfiber f hfb).2⟩

/-- A step of `t` inside the library or in a fiber's code: it changes where the thread is and at most the context and
the frame of a fiber it holds. -/
theorem Agree.own [DecidableEq T] {b : Nat} (h : Agree rax zero s pl)
    (hb : pl b = none ∨ ∃ v, pl b = some (.held t v)) (hid : s'.ultId = s.ultId) (hrunning : s'.running = s.running)
    (hcurrent : s'.current = s.current) (hpc : ∀ u ≠ t, s'.pc u = s.pc u)
    (hholds : (s'.pc t).holds = (s.pc t).holds)
    (hfiber : ∀ f ≠ b, s'.context f = s.context f ∧ s'.frame f = s.frame f)
    (hat : s'.At rax zero pl t (s'.pc t)) : Agree rax zero s' pl := by
  have hfree : ∀ u ≠ t, ∀ v, pl b ≠ some (.held u v) := by
    intro u hu v hv
    obtain hnone | ⟨w, hw⟩ := hb
    · simp [hnone] at hv
    · rw [hw] at hv
      simp only [Option.some.injEq, Place.held.injEq] at hv
      exact hu hv.1.symm
  refine h.change (b := b) (Nat.le_of_eq hid.symm) (fun u hu => ⟨hpc u hu, by rw [hcurrent]⟩)
    (fun f hf => ⟨⟨by rw [hrunning], hfiber f hf⟩, rfl⟩) (fun u hu v => ⟨hfree u hu v, hfree u hu v⟩) ?_ ?_ ?_ ?_ hat
  · rw [hid]
    exact h.fresh
  · rw [hholds]
    exact h.holds t
  · rw [hrunning]
    exact h.flag b
  · intro r hr
    obtain hnone | ⟨w, hw⟩ := hb
    · simp [hnone] at hr
    · simp [hw] at hr

theorem Agree.goto [DecidableEq T] {pc : Pc ι W} (h : Agree rax zero s pl) (hholds : pc.holds = (s.pc t).holds)
    (hat : s.At rax zero pl t pc) : Agree rax zero (s.goto t pc) pl := by
  have hpc : (s.goto t pc).pc t = pc := update_self ..
  refine h.own (b := s.ultId) (.inl ((h.fresh _).mpr (Nat.le_refl _))) rfl rfl rfl (fun u hu => update_of_ne hu ..) ?_
    (fun f _ => ⟨rfl, rfl⟩) ?_
  · rw [hpc, hholds]
  · rw [hpc]
    exact hat.mono rfl (Nat.le_refl _) fun f _ => ⟨rfl, rfl, rfl⟩

/-- A fiber whose flag is clear lies with the context that is in memory. -/
theorem Agree.parked {f : Nat} (h : Agree rax zero s pl) (hf : f < s.ultId) (hrunning : s.running f = false) :
    pl f = some (.rest (s.context f)) := by
  cases hpl : pl f with
  | none =>
    have := (h.fresh f).mp hpl
    omega
  | some place =>
    cases place with
    | held u v =>
      rw [(h.flag f).mpr ⟨u, v, hpl⟩] at hrunning
      cases hrunning
    | rest r => rw [(h.resting f r hpl).1]

/-- A fiber that a thread holds exists. -/
theorem Agree.lt_ultId {f : Nat} (h : Agree rax zero s pl) (hf : f ∈ (s.pc t).holds) : f < s.ultId := by
  obtain ⟨v, hv⟩ := (h.holds t f).mp hf
  by_contra hge
  rw [(h.fresh f).mpr (by omega)] at hv
  cases hv

theorem Agree.holder_unique {u : T} {f : Nat} (h : Agree rax zero s pl) (ht : f ∈ (s.pc t).holds)
    (hu : f ∈ (s.pc u).holds) : t = u := by
  obtain ⟨v, hv⟩ := (h.holds t f).mp ht
  obtain ⟨w, hw⟩ := (h.holds u f).mp hu
  rw [hv] at hw
  simp only [Option.some.injEq, Place.held.injEq] at hw
  exact hw.1

theorem Agree.running_iff {f : Nat} (h : Agree rax zero s pl) : s.running f = true ↔ ∃ t, f ∈ (s.pc t).holds := by
  simp only [h.flag, h.holds]

/-- A thread that runs a fiber has it as its `current`. -/
theorem Agree.runs {f cur : Nat} {r : ι → W} (h : Agree rax zero s pl) (hpc : s.pc t = .run f r)
    (hcur : s.current t = some cur) : cur = f := by
  have hrun := h.place t
  rw [hpc] at hrun
  exact Option.some.inj (hcur.symm.trans hrun)

/-- The target of a switch, right after its flag has been set. -/
theorem Agree.target {b : Nat} (h : Agree rax zero s pl) (hb : b < s.ultId) (hclear : s.running b = false)
    (hmem : s'.context = s.context ∧ s'.frame = s.frame) :
    s'.Target rax zero (update pl b (some (.held t (some (s.context b))))) t b false := by
  obtain ⟨-, hzero, hframe⟩ := h.resting b _ (h.parked hb hclear)
  refine ⟨?_, ?_, ?_⟩
  · rw [update_self, hmem.1]
  · rw [hmem.1]
    exact hzero
  · rw [hmem.2]
    exact hframe

/-- `set_jmp` does not return 0 twice: what it returns is 1, or an `rax` that no context is saved with. -/
theorem Agree.not_again {f : Nat} {one : Bool} {got : ι → Option W} {r : ι → W} (h : Agree rax zero s pl)
    (hval : zero val = false) (hpc : s.pc t = .load f one got) (hgot : ∀ i, got i = some (r i)) :
    zero (if one then val else r rax) = false := by
  have hload := h.place t
  rw [hpc] at hload
  obtain ⟨htarget, hmem, -⟩ := hload
  cases one with
  | true => exact hval
  | false =>
    rw [if_neg (by decide), ← hmem rax _ (hgot rax)]
    exact htarget.2.1

section Steps

variable [DecidableEq T]

/-- A thread sets the flag of a fiber that nobody holds, a new one or one that lies with its context. -/
theorem Agree.hold {b : Nat} {v : Option (ι → W)} {pc : Pc ι W} (h : Agree rax zero s pl)
    (hfree : ∀ u w, pl b ≠ some (.held u w)) (hid : s.ultId ≤ s'.ultId) (hb : b < s'.ultId)
    (hfresh : ∀ f ≠ b, s.ultId ≤ f ↔ s'.ultId ≤ f)
    (hfiber : ∀ f ≠ b, s'.running f = s.running f ∧ s'.context f = s.context f ∧ s'.frame f = s.frame f)
    (hrunning : s'.running b = true) (hpc : s'.pc = update s.pc t pc) (hcurrent : ∀ u ≠ t, s'.current u = s.current u)
    (hholds : ∀ f, f ∈ pc.holds ↔ f = b ∨ f ∈ (s.pc t).holds)
    (hat : s'.At rax zero (update pl b (some (.held t v))) t pc) :
    Agree rax zero s' (update pl b (some (.held t v))) := by
  refine h.change (t := t) (b := b) hid ?_ ?_ ?_ ?_ ?_ ?_ ?_ ?_
  · intro u hu
    exact ⟨by rw [hpc, update_of_ne hu], hcurrent u hu⟩
  · intro f hf
    exact ⟨hfiber f hf, update_of_ne hf ..⟩
  · intro u hu w
    rw [update_self]
    exact ⟨hfree u w, by simp [Ne.symm hu]⟩
  · intro f
    by_cases hf : f = b
    · rw [hf, update_self]
      simp [hb]
    · rw [update_of_ne hf, h.fresh, hfresh f hf]
  · intro f
    rw [hpc, update_self, hholds]
    by_cases hf : f = b
    · rw [hf, update_self]
      simp
    · rw [update_of_ne hf, ← h.holds]
      simp [hf]
  · rw [hrunning, update_self]
    simp
  · intro r hr
    simp at hr
  · rw [hpc, update_self]
    exact hat

/-- A thread clears the flag of a fiber it has saved. -/
theorem Agree.put {b : Nat} {r : ι → W} {pc : Pc ι W} {v : Option (ι → W)} (h : Agree rax zero s pl)
    (hb : pl b = some (.held t v)) (hr : s.context b = r ∧ zero (r rax) = false ∧ s.frame b ≠ none)
    (hholds : ∀ f, f ∈ pc.holds ↔ f ≠ b ∧ f ∈ (s.pc t).holds)
    (hat : s.At rax zero (update pl b (some (.rest r))) t pc) :
    Agree rax zero ((s.setRunning b false).goto t pc) (update pl b (some (.rest r))) := by
  have hpc : ((s.setRunning b false).goto t pc).pc = update s.pc t pc := rfl
  refine h.change (t := t) (b := b) (Nat.le_refl _) ?_ ?_ ?_ ?_ ?_ ?_ ?_ ?_
  · intro u hu
    exact ⟨by rw [hpc, update_of_ne hu], rfl⟩
  · intro f hf
    exact ⟨⟨update_of_ne hf .., rfl, rfl⟩, update_of_ne hf ..⟩
  · intro u hu v
    rw [hb, update_self]
    simp [Ne.symm hu]
  · intro f
    by_cases hf : f = b
    · rw [hf, update_self]
      have := (h.fresh b).not.mp (by rw [hb]; simp)
      simpa [Ult.goto, Ult.setRunning] using this
    · rw [update_of_ne hf]
      exact h.fresh f
  · intro f
    rw [hpc, update_self, hholds]
    by_cases hf : f = b
    · rw [hf, update_self]
      simp
    · rw [update_of_ne hf, ← h.holds]
      simp [hf]
  · rw [update_self]
    simp [Ult.goto, Ult.setRunning]
  · intro r' hr'
    rw [update_self] at hr'
    obtain rfl : r = r' := by simpa using hr'
    exact hr
  · rw [hpc, update_self]
    exact hat.mono rfl (Nat.le_refl _) fun f _ => ⟨rfl, rfl, rfl⟩

/-! ### The accesses one by one -/

variable {f cur target : Nat} {frame : Frame} {one : Bool} {r : ι → W} {got : ι → Option W}

theorem Agree.work (h : Agree rax zero s pl) (t : T) (r : ι → W) : Agree rax zero (s.goto t ((s.pc t).work r)) pl := by
  refine h.goto ?_ ?_
  · cases s.pc t <;> rfl
  · have hplace := h.place t
    cases hpc : s.pc t <;> rw [hpc] at hplace <;> exact hplace

theorem Agree.convert (h : Agree rax zero s pl) (hpc : s.pc t = .thread r) :
    Agree rax zero (((s.newFiber r).setCurrent t s.ultId).goto t (.run s.ultId r))
      (update pl s.ultId (some (.held t none))) := by
  have hnone : pl s.ultId = none := (h.fresh _).mpr (Nat.le_refl _)
  refine h.hold (by simp [hnone]) (Nat.le_succ _) (Nat.lt_succ_self _) (fun f hf => ?_) (fun f hf => ?_)
    (update_self ..) rfl (fun u hu => update_of_ne hu ..) (fun f => ?_) (update_self ..)
  · show _ ↔ s.ultId + 1 ≤ f
    omega
  · exact ⟨update_of_ne hf .., update_of_ne hf .., update_of_ne hf ..⟩
  · simp [Pc.holds, hpc]

theorem Agree.creat (h : Agree rax zero s pl) (r₀ : ι → W) (hpc : s.pc t = .run f r) (hcur : s.current t = some f) :
    Agree rax zero ((s.newFiber r₀).goto t (.locked f (.create s.ultId) r))
      (update pl s.ultId (some (.held t none))) := by
  have hnone : pl s.ultId = none := (h.fresh _).mpr (Nat.le_refl _)
  have hlt : f < s.ultId := h.lt_ultId (by rw [hpc]; exact List.mem_singleton_self f)
  refine h.hold (by simp [hnone]) (Nat.le_succ _) (Nat.lt_succ_self _) (fun g hg => ?_) (fun g hg => ?_)
    (update_self ..) rfl (fun u hu => rfl) (fun g => ?_) ⟨Nat.ne_of_lt hlt, hcur, update_self ..⟩
  · show _ ↔ s.ultId + 1 ≤ g
    omega
  · exact ⟨update_of_ne hg .., update_of_ne hg .., update_of_ne hg ..⟩
  · simp [Pc.holds, hpc, Frame.target, or_comm]

theorem Agree.trylock (h : Agree rax zero s pl) (hpc : s.pc t = .run f r) (hto : target < s.ultId)
    (hclear : s.running target = false) :
    Agree rax zero (((s.setRunning target true).setCurrent t target).goto t (.locked f (.switch target) r))
      (update pl target (some (.held t (some (s.context target))))) := by
  have hne : f ≠ target := by
    rintro rfl
    rw [h.running_iff.mpr ⟨t, by rw [hpc]; exact List.mem_singleton_self f⟩] at hclear
    cases hclear
  refine h.hold (by simp [h.parked hto hclear]) (Nat.le_refl _) hto (fun _ _ => Iff.rfl) (fun g hg => ?_)
    (update_self ..) rfl (fun u hu => update_of_ne hu ..) (fun g => ?_)
    ⟨hne, update_self .., h.target hto hclear ⟨rfl, rfl⟩⟩
  · exact ⟨update_of_ne hg .., rfl, rfl⟩
  · simp [Pc.holds, hpc, Frame.target, or_comm]

theorem Agree.lock (h : Agree rax zero s pl) (hpc : s.pc t = .boot f r) (hcur : s.current t = some cur)
    (hne : cur ≠ f) (hlt : cur < s.ultId) (hclear : s.running cur = false) :
    Agree rax zero ((s.setRunning cur true).goto t (.locked f (.switch cur) r))
      (update pl cur (some (.held t (some (s.context cur))))) := by
  refine h.hold (by simp [h.parked hlt hclear]) (Nat.le_refl _) hlt (fun _ _ => Iff.rfl) (fun g hg => ?_)
    (update_self ..) rfl (fun u hu => rfl) (fun g => ?_) ⟨hne.symm, hcur, h.target hlt hclear ⟨rfl, rfl⟩⟩
  · exact ⟨update_of_ne hg .., rfl, rfl⟩
  · simp [Pc.holds, hpc, Frame.target, or_comm]

theorem Agree.setJmp (h : Agree rax zero s pl) (hpc : s.pc t = .locked f frame r) (hzero : zero (r rax) = false) :
    Agree rax zero ((s.setFrame f (some frame)).goto t (.save f frame r [])) pl := by
  have hlocked := h.place t
  rw [hpc] at hlocked
  obtain ⟨hne, hcur, htarget⟩ := hlocked
  have hheld := (h.holds t f).mp (by rw [hpc]; exact List.mem_cons_self)
  refine h.own (t := t) (.inr hheld) rfl rfl rfl (fun u hu => update_of_ne hu ..) ?_ (fun g hg => ?_) ?_
  · simp [Ult.goto, Pc.holds, hpc]
  · exact ⟨rfl, update_of_ne hg ..⟩
  · simp only [Ult.goto, update_self]
    refine ⟨⟨hne, hcur, htarget.mono ⟨rfl, update_of_ne (Ne.symm hne) .., rfl⟩⟩, ⟨hzero, ?_⟩, ?_⟩
    · simp [Ult.setFrame]
    · simp

theorem Agree.store [DecidableEq ι] {saved : List ι} (h : Agree rax zero s pl) (hpc : s.pc t = .save f frame r saved)
    (i : ι) :
    Agree rax zero ((s.setContext f (update (s.context f) i (r i))).goto t (.save f frame r (i :: saved))) pl := by
  have hsave := h.place t
  rw [hpc] at hsave
  obtain ⟨⟨hne, hcur, htarget⟩, hnz, hsaved⟩ := hsave
  have hheld := (h.holds t f).mp (by rw [hpc]; exact List.mem_cons_self)
  refine h.own (t := t) (.inr hheld) rfl rfl rfl (fun u hu => update_of_ne hu ..) ?_ (fun g hg => ?_) ?_
  · simp [Ult.goto, Pc.holds, hpc]
  · exact ⟨update_of_ne hg .., rfl⟩
  · simp only [Ult.goto, update_self]
    refine ⟨⟨hne, hcur, htarget.mono ⟨update_of_ne (Ne.symm hne) .., rfl, rfl⟩⟩, hnz, ?_⟩
    intro j hj
    simp only [Ult.setContext, update_self]
    by_cases hji : j = i
    · rw [hji, update_self]
    · rw [update_of_ne hji]
      exact hsaved j ((List.mem_cons.mp hj).resolve_left hji)

theorem Agree.saved {saved : List ι} (h : Agree rax zero s pl) (hpc : s.pc t = .save f frame r saved)
    (hall : ∀ i, i ∈ saved) : Agree rax zero (s.goto t (.unlock f frame r)) pl := by
  have hsave := h.place t
  rw [hpc] at hsave
  obtain ⟨hswitch, hnz, hsaved⟩ := hsave
  refine h.goto (by rw [hpc]; rfl) ⟨hswitch, hnz, ?_⟩
  funext i
  exact hsaved i (hall i)

theorem Agree.unlock (h : Agree rax zero s pl) (hpc : s.pc t = .unlock f frame r) : (∃ v, pl f = some (.held t v)) ∧
    Agree rax zero ((s.setRunning f false).goto t (.load frame.target frame.one fun _ => none))
      (update pl f (some (.rest r))) := by
  have hunlock := h.place t
  rw [hpc] at hunlock
  obtain ⟨⟨hne, hcur, htarget⟩, ⟨hzero, hframe⟩, hcontext⟩ := hunlock
  have hmem : f ∈ (s.pc t).holds := by rw [hpc]; exact List.mem_cons_self
  obtain ⟨v, hheld⟩ := (h.holds t f).mp hmem
  refine ⟨⟨v, hheld⟩, h.put hheld ⟨hcontext, hzero, hframe⟩ (fun g => ?_) ⟨?_, by simp, ?_⟩⟩
  · simp only [Pc.holds, hpc, List.mem_cons, List.not_mem_nil, or_false]
    grind
  · exact htarget.mono ⟨rfl, rfl, update_of_ne (Ne.symm hne) ..⟩
  · cases frame with
    | switch target => exact hcur
    | create g => exact ⟨f, hcur, hne, h.lt_ultId hmem⟩

theorem Agree.fetch [DecidableEq ι] (h : Agree rax zero s pl) (hpc : s.pc t = .load f one got) (i : ι) :
    Agree rax zero (s.goto t (.load f one (update got i (some (s.context f i))))) pl := by
  have hload := h.place t
  rw [hpc] at hload
  obtain ⟨htarget, hgot, hlast⟩ := hload
  refine h.goto (by rw [hpc]; rfl) ⟨htarget, ?_, hlast⟩
  intro j v hv
  by_cases hj : j = i
  · rw [hj, update_self] at hv
    rw [hj]
    exact Option.some.inj hv
  · rw [update_of_ne hj] at hv
    exact hgot j v hv

/-- A context without a frame is that of a new fiber, whose creator waits for it. -/
theorem Agree.boot (h : Agree rax zero s pl) (hpc : s.pc t = .load f one got) (hframe : s.frame f = none) (r : ι → W) :
    Agree rax zero (s.goto t (.boot f r)) pl := by
  have hload := h.place t
  rw [hpc] at hload
  obtain ⟨htarget, -, hlast⟩ := hload
  refine h.goto (by rw [hpc]; rfl) ?_
  cases one with
  | true => exact hlast
  | false => exact absurd hframe htarget.2.2

theorem Agree.resume (h : Agree rax zero s pl) (hpc : s.pc t = .load f one got) (hframe : s.frame f = some frame)
    (r : ι → W) : Agree rax zero (s.goto t (.run f r)) pl := by
  have hload := h.place t
  rw [hpc] at hload
  obtain ⟨htarget, -, hlast⟩ := hload
  refine h.goto (by rw [hpc]; rfl) ?_
  cases one with
  | true =>
    rw [show s.frame f = none from htarget] at hframe
    cases hframe
  | false => exact hlast

/-- **One access of one thread**: the fibers stay where they are, or one is made, taken or put down. -/
theorem agree_step [DecidableEq ι] {e : Event T ι W} (h : Agree rax zero s pl)
    (hstep : s.Step rax zero val e s') (hguard : e.nonzero rax zero) (hval : zero val = false) :
    ∃ pl', Agree rax zero s' pl' ∧
      ((e.visible = none ∧ pl' = pl) ∨ ∃ e', e.visible = some e' ∧ Baton.Step pl e' pl') := by
  have hnone : pl s.ultId = none := (h.fresh _).mpr (Nat.le_refl _)
  cases hstep with
  | work t r => exact ⟨pl, h.work t r, .inl ⟨rfl, rfl⟩⟩
  | convert hpc => exact ⟨_, h.convert hpc, .inr ⟨_, rfl, .make hnone⟩⟩
  | creat r₀ hpc hcur =>
    obtain rfl := h.runs hpc hcur
    exact ⟨_, h.creat r₀ hpc hcur, .inr ⟨_, rfl, .make hnone⟩⟩
  | refused => exact ⟨pl, h, .inl ⟨rfl, rfl⟩⟩
  | trylock hpc hcur hto hclear =>
    obtain rfl := h.runs hpc hcur
    exact ⟨_, h.trylock hpc hto hclear, .inr ⟨_, rfl, .take (h.parked hto hclear)⟩⟩
  | @lock t f cur r hpc hcur hclear =>
    have hboot := h.place t
    rw [hpc] at hboot
    obtain ⟨c, hc, hne, hlt⟩ := hboot
    obtain rfl : c = cur := Option.some.inj (hc.symm.trans hcur)
    exact ⟨_, h.lock hpc hcur hne hlt hclear, .inr ⟨_, rfl, .take (h.parked hlt hclear)⟩⟩
  | setJmp hpc => exact ⟨pl, h.setJmp hpc hguard, .inl ⟨rfl, rfl⟩⟩
  | store hpc hi => exact ⟨pl, h.store hpc _, .inl ⟨rfl, rfl⟩⟩
  | saved hpc hall => exact ⟨pl, h.saved hpc hall, .inl ⟨rfl, rfl⟩⟩
  | unlock hpc =>
    obtain ⟨⟨v, hheld⟩, hput⟩ := h.unlock hpc
    exact ⟨_, hput, .inr ⟨_, rfl, .put hheld⟩⟩
  | fetch hpc hi => exact ⟨pl, h.fetch hpc _, .inl ⟨rfl, rfl⟩⟩
  | boot hpc hgot hnz hframe => exact ⟨pl, h.boot hpc hframe _, .inl ⟨rfl, rfl⟩⟩
  | resume hpc hgot hnz hframe => exact ⟨pl, h.resume hpc hframe _, .inl ⟨rfl, rfl⟩⟩
  | again hpc hgot hzero hframe =>
    rw [h.not_again hval hpc hgot] at hzero
    cases hzero

end Steps

/-- The runs in which no context is saved with an `rax` of 0. No signal arrives in the library in any run. -/
abbrev UltRun [DecidableEq T] [DecidableEq ι] (rax : ι) (zero : W → Bool) (val : W) :
    Ult T ι W → List (Event T ι W) → Prop :=
  Run Ult.Init (Guarded (fun _ e => e.nonzero rax zero) (Ult.Step rax zero val))

theorem agree_run [DecidableEq T] [DecidableEq ι] {tr : List (Event T ι W)} (hval : zero val = false)
    (hrun : UltRun rax zero val s tr) :
    ∃ pl, Agree rax zero s pl ∧ Run Baton.Start Baton.Step pl (tr.filterMap Event.visible) := by
  refine hrun.simulate_visible (R := Agree rax zero) ?_ ?_
  · intro s ⟨hid, hclear, hthread⟩
    refine ⟨fun _ => none, fun _ => rfl, ?_, ?_, ?_, by simp, ?_⟩
    · simp [hid]
    · intro t f
      obtain ⟨r, hr⟩ := hthread t
      simp [hr, Pc.holds]
    · simp [hclear]
    · intro t
      obtain ⟨r, hr⟩ := hthread t
      rw [hr]
      trivial
  · intro s e s' pl hagree hstep
    exact agree_step hagree hstep.1 hstep.2 hval

section Example

/-- Two threads with two registers, before they convert themselves; `rax` is the register `false`. -/
def twoThreads : Ult Bool Bool Bool where
  ultId := 0
  running := fun _ => false
  context := fun _ _ => false
  frame := fun _ => none
  current := fun _ => none
  pc := fun _ => .thread fun _ => true

abbrev TwoRun : Ult Bool Bool Bool → List (Event Bool Bool Bool) → Prop := UltRun false not true

/-- Both threads convert themselves. The first one creates the fiber 2, which boots, changes a register and switches back;
then the second one switches to the fiber 2, and finds what the first one has saved. -/
theorem twoThreads_run : ∃ s tr, TwoRun s (.resume true 2 (fun i => !i) :: tr) ∧ .unlock false 2 (fun i => !i) ∈ tr ∧
    (s.pc false).holds = [0] ∧ (s.pc true).holds = [2] := by
  let on : Bool → Bool := fun _ => true
  let rax : Bool → Bool := fun i => !i
  have hall : ∀ i : Bool, i ∈ [true, false] := by decide
  have h₁ : TwoRun _ [.convert false 0] :=
    .step (.start (s := twoThreads) ⟨rfl, fun _ => rfl, fun _ => ⟨_, rfl⟩⟩) ⟨.convert (r := on) rfl, trivial⟩
  have h₂ : TwoRun _ (.convert true 1 :: _) := h₁.step ⟨.convert (r := on) rfl, trivial⟩
  have h₃ : TwoRun _ (.create false 2 :: _) := h₂.step ⟨.creat (r := on) on rfl rfl, trivial⟩
  -- the first thread saves the fiber 0 and boots the fiber 2
  have h₄ : TwoRun _ (.setJmp false 0 on :: _) := h₃.step ⟨.setJmp rfl, rfl⟩
  have h₅ : TwoRun _ (.silent false :: _) := h₄.step ⟨.store (i := false) rfl (by decide), trivial⟩
  have h₆ : TwoRun _ (.silent false :: _) := h₅.step ⟨.store (i := true) rfl (by decide), trivial⟩
  have h₇ : TwoRun _ (.silent false :: _) := h₆.step ⟨.saved rfl hall, trivial⟩
  have h₈ : TwoRun _ (.unlock false 0 on :: _) := h₇.step ⟨.unlock rfl, trivial⟩
  have h₉ : TwoRun _ (.silent false :: _) := h₈.step ⟨.fetch (i := false) rfl rfl, trivial⟩
  have h₁₀ : TwoRun _ (.silent false :: _) := h₉.step ⟨.fetch (i := true) rfl rfl, trivial⟩
  have h₁₁ : TwoRun _ (.silent false :: _) := h₁₀.step ⟨.boot (r := on) rfl (by decide) rfl rfl, trivial⟩
  have h₁₂ : TwoRun _ (.silent false :: _) := h₁₁.step ⟨.work false rax, trivial⟩
  -- it saves the fiber 2 and goes back to the fiber 0
  have h₁₃ : TwoRun _ (.lock false 0 _ :: _) := h₁₂.step ⟨.lock (r := rax) rfl rfl rfl, trivial⟩
  have h₁₄ : TwoRun _ (.setJmp false 2 rax :: _) := h₁₃.step ⟨.setJmp rfl, rfl⟩
  have h₁₅ : TwoRun _ (.silent false :: _) := h₁₄.step ⟨.store (i := false) rfl (by decide), trivial⟩
  have h₁₆ : TwoRun _ (.silent false :: _) := h₁₅.step ⟨.store (i := true) rfl (by decide), trivial⟩
  have h₁₇ : TwoRun _ (.silent false :: _) := h₁₆.step ⟨.saved rfl hall, trivial⟩
  have h₁₈ : TwoRun _ (.unlock false 2 rax :: _) := h₁₇.step ⟨.unlock rfl, trivial⟩
  have h₁₉ : TwoRun _ (.silent false :: _) := h₁₈.step ⟨.fetch (i := false) rfl rfl, trivial⟩
  have h₂₀ : TwoRun _ (.silent false :: _) := h₁₉.step ⟨.fetch (i := true) rfl rfl, trivial⟩
  have h₂₁ : TwoRun _ (.resume false 0 on :: _) := h₂₀.step ⟨.resume (r := on) rfl (by decide) rfl rfl, trivial⟩
  -- the second thread saves the fiber 1 and goes to the fiber 2
  have h₂₂ : TwoRun _ (.lock true 2 _ :: _) := h₂₁.step ⟨.trylock (r := on) rfl rfl (by decide) rfl, trivial⟩
  have h₂₃ : TwoRun _ (.setJmp true 1 on :: _) := h₂₂.step ⟨.setJmp rfl, rfl⟩
  have h₂₄ : TwoRun _ (.silent true :: _) := h₂₃.step ⟨.store (i := false) rfl (by decide), trivial⟩
  have h₂₅ : TwoRun _ (.silent true :: _) := h₂₄.step ⟨.store (i := true) rfl (by decide), trivial⟩
  have h₂₆ : TwoRun _ (.silent true :: _) := h₂₅.step ⟨.saved rfl hall, trivial⟩
  have h₂₇ : TwoRun _ (.unlock true 1 on :: _) := h₂₆.step ⟨.unlock rfl, trivial⟩
  have h₂₈ : TwoRun _ (.silent true :: _) := h₂₇.step ⟨.fetch (i := false) rfl rfl, trivial⟩
  have h₂₉ : TwoRun _ (.silent true :: _) := h₂₈.step ⟨.fetch (i := true) rfl rfl, trivial⟩
  have h₃₀ : TwoRun _ (.resume true 2 rax :: _) := h₂₉.step ⟨.resume (r := rax) rfl (by decide) rfl rfl, trivial⟩
  exact ⟨_, _, h₃₀, by simp [rax], rfl, rfl⟩

end Example

end Userspace

end LinuxFibers
