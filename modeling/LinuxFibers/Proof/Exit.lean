import LinuxFibers.Driver.Exit
import LinuxFibers.Proof.Ledger
import LinuxFibers.Proof.Switch

/-!
# What the exit of a thread takes with it

`Pre_Handler_Exit` frees every fiber of an entry in which the exiting thread is converted, whoever runs it.
`exit_clean_iff` says when the other threads and fibers come out unharmed: when there are none.
-/

namespace LinuxFibers

open HeapTable Runs

namespace Process

/-- The thread `pid` is converted here. -/
def Exits (p : Process) (pid : Int) : Prop := ∃ t ∈ p.listathread, t.val.id = pid

/-- The thread `pid` runs the fiber. -/
def Own (p : Process) (pid : Int) (f : Block Fiber) : Prop :=
  ∃ t ∈ p.listathread, t.val.id = pid ∧ t.val.runner = some f.addr

instance (p : Process) (pid : Int) : Decidable (p.Exits pid) :=
  inferInstanceAs (Decidable (∃ t ∈ p.listathread, t.val.id = pid))

instance (p : Process) (pid : Int) (f : Block Fiber) : Decidable (p.Own pid f) :=
  inferInstanceAs (Decidable (∃ t ∈ p.listathread, t.val.id = pid ∧ t.val.runner = some f.addr))

/-- An entry after the thread `pid` has exited. -/
def left (p : Process) (pid : Int) : Process :=
  { p with
    listathread := p.listathread.filter fun t => t.val.id ≠ pid
    listafiber := if p.Exits pid then [] else p.listafiber }

end Process

/-- The exit of the thread `c` turned the entry `b` into `b'` and took only the thread and its own fiber with it. -/
structure ExitsCleanly (s s' : State) (c : Task) (b b' : Block Process) : Prop where
  threads : b'.val.listathread = b.val.listathread.filter fun t => t.val.id ≠ c.pid
  bound : ∀ t ∈ b'.val.listathread, ∃ f ∈ b'.val.listafiber, f ∈ b.val.listafiber ∧ t.val.runner = some f.addr ∧
    f.val.selectedThread = some t.addr ∧ ∀ a ∈ fiberBlocks f, a ∉ s'.kmem.freed
  fibers : ∀ f ∈ b.val.listafiber, ¬ b.val.Own c.pid f → f ∈ b'.val.listafiber
  targets : ∀ (u : Task) (id : Int) (g : Block Fiber), u.tgid = c.tgid → u.pid ≠ c.pid → ¬ b.val.Own c.pid g →
    ((∃ t f, Target s u id b t f g) ↔ ∃ t f, Target s' u id b' t f g)

/-- Each entry of the process survives the exit, the entries of other processes stay as they are. -/
def CleanExit (s : State) (c : Task) (s' : State) : Prop :=
  List.Forall₂ (fun b b' => b'.addr = b.addr ∧ if b.val.id = c.tgid then ExitsCleanly s s' c b b' else b' = b)
    s.processi s'.processi

/-- Where the exiting thread is converted, the only fiber is its own. -/
def OnlyOwn (s : State) (c : Task) : Prop :=
  ∀ b ∈ s.processi, b.val.id = c.tgid → b.val.Exits c.pid → ∀ f ∈ b.val.listafiber, b.val.Own c.pid f

instance (s : State) (c : Task) : Decidable (OnlyOwn s c) :=
  inferInstanceAs (Decidable (∀ b ∈ s.processi, b.val.id = c.tgid → b.val.Exits c.pid →
    ∀ f ∈ b.val.listafiber, b.val.Own c.pid f))

/-! ### The handler on one entry -/

section entry

variable {c : Task} {p : Process} {m : Kmem}

theorem Process.left_of_not_exits {p : Process} {pid : Int} (hno : ¬ p.Exits pid) : p.left pid = p := by
  have hfilter : (p.listathread.filter fun t => t.val.id ≠ pid) = p.listathread := by
    refine List.filter_eq_self.mpr fun t ht => ?_
    simpa using fun hid => hno ⟨t, ht, hid⟩
  rw [left, if_neg hno, hfilter]

theorem exitProcess_none (hno : ¬ p.Exits c.pid) : exitProcess c p m = (p, m) := by
  have hfilter : (p.listathread.filter fun t => t.val.id = c.pid) = [] := by
    refine List.filter_eq_nil_iff.mpr fun t ht => ?_
    simpa using fun hid => hno ⟨t, ht, hid⟩
  rw [exitProcess, hfilter]
  rfl

theorem exitProcess_one (hwf : p.Wf) {t : Block Thread} (ht : t ∈ p.listathread) (hid : t.val.id = c.pid) :
    exitProcess c p m = exitThread (p, m) t := by
  rw [exitProcess, Table.filter_key (fun t : Block Thread => t.val.id) hwf.threadIds ht hid]
  rfl

theorem exitProcess_left (hwf : p.Wf) : (exitProcess c p m).1 = p.left c.pid := by
  by_cases hexits : p.Exits c.pid
  · have hleft : p.left c.pid = { p with
        listathread := p.listathread.filter fun t => t.val.id ≠ c.pid
        listafiber := [] } := by
      rw [Process.left, if_pos hexits]
    obtain ⟨t, ht, hid⟩ := hexits
    have hfilter : (p.listathread.filter fun u => u.addr ≠ t.addr) =
        p.listathread.filter fun u => u.val.id ≠ c.pid := by
      refine List.filter_congr fun u hu => decide_eq_decide.mpr (not_congr ?_)
      constructor
      · intro haddr
        rw [Table.eq_of_addr hwf.threadAddrs hu ht haddr, hid]
      · intro hsame
        rw [List.inj_on_of_nodup_map hwf.threadIds hu ht (hsame.trans hid.symm)]
    rw [exitProcess_one hwf ht hid, hleft, ← hfilter]
    rfl
  · rw [exitProcess_none hexits, Process.left_of_not_exits hexits]

/-- A freed block hung off an entry in which the exiting thread is converted. -/
theorem exitProcess_freed (hwf : p.Wf) {a : Nat} (ha : a ∈ (exitProcess c p m).2.freed) :
    a ∈ m.freed ∨ p.Exits c.pid ∧ a ∈ p.blocks := by
  by_cases hexits : p.Exits c.pid
  · obtain ⟨t, ht, hid⟩ := hexits
    rw [exitProcess_one hwf ht hid] at ha
    have hfibers := foldl_freed (k := fiberBlocks) (fun m f => List.Perm.refl (freeFiber m f).freed) p.listafiber m
    rcases List.mem_cons.mp ha with rfl | ha
    · refine .inr ⟨⟨t, ht, hid⟩, ?_⟩
      simp only [Process.blocks, Process.reclaimed, List.mem_append]
      exact .inl (.inl (.inl (Table.addr_mem_addrs ht)))
    · rcases List.mem_append.mp (hfibers.mem_iff.mp ha) with ha | ha
      · refine .inr ⟨⟨t, ht, hid⟩, ?_⟩
        simp only [Process.blocks, Process.reclaimed, List.mem_append]
        exact .inl (.inl (.inr ha))
      · exact .inl ha
  · rw [exitProcess_none hexits] at ha
    exact .inl ha

end entry

/-! ### The handler on the table -/

section table

variable {nFib : Nat} {s s' : State} {c : Task} {b d : Block Process}

/-- The table after the exit. -/
def exited (c : Task) (T : Table Process) : Table Process :=
  T.map fun b => if b.val.id = c.tgid then { b with val := b.val.left c.pid } else b

theorem exitWalk_freed {T : Table Process} (hwf : ∀ b ∈ T, b.val.Wf) {m : Kmem} {a : Nat}
    (ha : a ∈ (T.foldl (fun m b => (exitProcess c b.val m).2) m).freed) :
    a ∈ m.freed ∨ ∃ b ∈ T, b.val.Exits c.pid ∧ a ∈ b.val.blocks := by
  induction T generalizing m with
  | nil => exact .inl ha
  | cons b T ih =>
    rcases ih (fun d hd => hwf d (List.mem_cons_of_mem _ hd)) ha with ha | ⟨d, hd, hexits, ha⟩
    · rcases exitProcess_freed (hwf b List.mem_cons_self) ha with ha | ⟨hexits, ha⟩
      · exact .inl ha
      · exact .inr ⟨b, List.mem_cons_self, hexits, ha⟩
    · exact .inr ⟨d, List.mem_cons_of_mem _ hd, hexits, ha⟩

/-- What the handler does to a reachable state. -/
theorem preHandlerExit_spec (hs : Reached nFib s) (c : Task) : ∃ s', preHandlerExit c s = .ok s' ∧
    s'.processi = exited c s.processi ∧ ∀ a ∈ s'.kmem.freed, a ∈ s.kmem.freed ∨
      ∃ b ∈ s.processi, b.val.id = c.tgid ∧ b.val.Exits c.pid ∧ a ∈ b.val.blocks := by
  have hwf : ∀ b ∈ s.processi, b.val.Wf := fun b hb => (reached_inv hs b hb).toWf
  have hwalk : forEachProcess c.tgid (fun p m => .ok (exitProcess c p m)) s.processi s.kmem =
      .ok (exited c s.processi,
        (s.processi.filter fun b => b.val.id = c.tgid).foldl (fun m b => (exitProcess c b.val m).2) s.kmem) := by
    rw [forEachProcess_eq]
    apply Table.forEach_total (g := fun p : Process => p.left c.pid) (h := fun p m => (exitProcess c p m).2)
    intro b hb _ m
    rw [← exitProcess_left (hwf b hb)]
  refine ⟨_, by rw [preHandlerExit, hwalk]; rfl, rfl, fun a ha => ?_⟩
  have hfilter : ∀ b ∈ s.processi.filter fun b => b.val.id = c.tgid, b.val.Wf :=
    fun b hb => hwf b (List.mem_filter.mp hb).1
  refine (exitWalk_freed hfilter ha).imp_right ?_
  rintro ⟨b, hb, hexits, hmem⟩
  obtain ⟨hb, hid⟩ := List.mem_filter.mp hb
  exact ⟨b, hb, of_decide_eq_true hid, hexits, hmem⟩

/-- The blocks of an entry are not freed, and no other entry has them. -/
theorem blocks_apart (hs : Reached nFib s) (hb : b ∈ s.processi) {a : Nat} (ha : a ∈ b.val.blocks) :
    a ∉ s.kmem.freed ∧ ∀ d ∈ s.processi, a ∈ d.val.blocks → d = b := by
  obtain ⟨tr, hrun⟩ := hs
  obtain ⟨L, hledger⟩ := hrun.recorded book []
  obtain ⟨-, hheld, hdisjoint⟩ := List.nodup_append'.mp (run_balanced hledger).nodup
  refine ⟨fun hfreed => hdisjoint hfreed (List.mem_flatMap.mpr ⟨b, hb, List.mem_cons_of_mem _ ha⟩), ?_⟩
  intro d hd had
  by_contra hne
  have : Std.Symm (Function.onFun List.Disjoint fun b : Block Process => b.addr :: b.val.blocks) := ⟨fun _ _ h => h.symm⟩
  have hapart := (List.nodup_flatMap.mp hheld).2.forall hd hb hne
  exact hapart (List.mem_cons_of_mem _ had) (List.mem_cons_of_mem _ ha)

end table

/-- All threads of an entry are the exiting one if it runs every fiber. -/
theorem Process.Binding.only {p : Process} (h : p.Binding) {pid : Int} (hown : ∀ f ∈ p.listafiber, p.Own pid f)
    {t : Block Thread} (ht : t ∈ p.listathread) : t.val.id = pid := by
  obtain ⟨f, hf, hrunner, -⟩ := h.runner t ht
  obtain ⟨u, hu, hid, hown⟩ := hown f hf
  rw [h.oneThread t ht u hu (hrunner.trans hown.symm), hid]

/-! ### When an exit is clean -/

section clean

variable {nFib : Nat} {s s' : State} {c : Task} {b : Block Process}

/-- An entry in which the thread is not converted is left alone. -/
theorem ExitsCleanly.of_not_exits (hs : Reached nFib s) (hb : b ∈ s.processi) (hb' : b ∈ s'.processi)
    (hno : ¬ b.val.Exits c.pid) (hfreed : ∀ a ∈ s'.kmem.freed, a ∈ s.kmem.freed ∨
      ∃ d ∈ s.processi, d.val.id = c.tgid ∧ d.val.Exits c.pid ∧ a ∈ d.val.blocks) :
    ExitsCleanly s s' c b b where
  threads := by
    have hleft := congrArg Process.listathread (Process.left_of_not_exits hno)
    exact hleft.symm
  bound t ht := by
    obtain ⟨f, hf, hrunner, hselected⟩ := (reached_binding hs b hb).runner t ht
    refine ⟨f, hf, hf, hrunner, hselected, fun a ha hgone => ?_⟩
    have hblock : a ∈ b.val.blocks := by
      simp only [Process.blocks, Process.reclaimed, List.mem_append]
      exact .inl (.inl (.inr (List.mem_flatMap.mpr ⟨f, hf, ha⟩)))
    obtain ⟨hkept, hapart⟩ := blocks_apart hs hb hblock
    rcases hfreed a hgone with hold | ⟨d, hd, -, hexits, had⟩
    · exact hkept hold
    · obtain rfl := hapart d hd had
      exact hno hexits
  fibers f hf _ := hf
  targets u id g _ _ _ := by
    refine exists_congr fun t => exists_congr fun f => ?_
    constructor
    · rintro ⟨-, htgid, hconverted, hpid, hcurrent, hrunner, htarget, hid, hother, hfree⟩
      exact ⟨hb', htgid, hconverted, hpid, hcurrent, hrunner, htarget, hid, hother, hfree⟩
    · rintro ⟨-, htgid, hconverted, hpid, hcurrent, hrunner, htarget, hid, hother, hfree⟩
      exact ⟨hb, htgid, hconverted, hpid, hcurrent, hrunner, htarget, hid, hother, hfree⟩

/-- An entry whose only fiber was the exiting thread's own has nothing more to lose. -/
theorem ExitsCleanly.of_only (hbinding : b.val.Binding) (hown : ∀ f ∈ b.val.listafiber, b.val.Own c.pid f) :
    ExitsCleanly s s' c b { b with val := b.val.left c.pid } where
  threads := rfl
  bound t ht := by
    obtain ⟨ht, hid⟩ := List.mem_filter.mp ht
    exact absurd (hbinding.only hown ht) (of_decide_eq_true hid)
  fibers f hf hnot := absurd (hown f hf) hnot
  targets u id g _ hpid _ := by
    constructor
    · rintro ⟨t, f, ht⟩
      exact absurd (ht.pid.symm.trans (hbinding.only hown ht.converted)) hpid
    · rintro ⟨t, f, ht⟩
      have hconverted := (List.mem_filter.mp ht.converted).1
      exact absurd (ht.pid.symm.trans (hbinding.only hown hconverted)) hpid

/-- The exit leaves no fiber in an entry in which the thread was converted. -/
theorem ExitsCleanly.only_own {b' : Block Process} (h : ExitsCleanly s s' c b b') (hnone : b'.val.listafiber = [])
    {f : Block Fiber} (hf : f ∈ b.val.listafiber) : b.val.Own c.pid f := by
  by_contra hnot
  have hmem := h.fibers f hf hnot
  rw [hnone] at hmem
  cases hmem

theorem cleanExit_iff (hT : s'.processi = exited c s.processi) : CleanExit s c s' ↔
    ∀ b ∈ s.processi, b.val.id = c.tgid → ExitsCleanly s s' c b { b with val := b.val.left c.pid } := by
  rw [CleanExit, hT, exited, List.forall₂_map_right_iff, List.forall₂_same]
  refine forall₂_congr fun b hb => ?_
  by_cases hid : b.val.id = c.tgid
  · simp [hid]
  · simp [hid]

/-- **When the exit of a thread is clean.** The handler returns from every reachable state. The thread's entry is
gone and every other thread and fiber of the process is as it was exactly when, wherever the thread is converted,
there is no fiber but its own. -/
theorem exit_clean_iff (hs : Reached nFib s) (c : Task) :
    ∃ s', preHandlerExit c s = .ok s' ∧ (CleanExit s c s' ↔ OnlyOwn s c) := by
  obtain ⟨s', hok, hT, hfreed⟩ := preHandlerExit_spec hs c
  refine ⟨s', hok, ?_⟩
  rw [cleanExit_iff hT]
  constructor
  · intro h b hb hid hexits f hf
    exact (h b hb hid).only_own (if_pos hexits) hf
  · intro h b hb hid
    by_cases hexits : b.val.Exits c.pid
    · exact .of_only (reached_binding hs b hb) (h b hb hid hexits)
    · have hsame : ({ b with val := b.val.left c.pid } : Block Process) = b := by
        rw [Process.left_of_not_exits hexits]
      have hb' : b ∈ s'.processi := by
        rw [hT]
        refine List.mem_map.mpr ⟨b, hb, ?_⟩
        rw [if_pos hid, hsame]
      rw [hsame]
      exact .of_not_exits hs hb hb' hexits hfreed

end clean

/-- The only thread of process 1 exits while it runs its only fiber. -/
theorem exit_clean_iff_alone : ∃ s s', Reached nFib s ∧ preHandlerExit ⟨1, 1⟩ s = .ok s' ∧
    (s.processi.map fun b => (b.val.listathread.addrs, b.val.listafiber.addrs)) = [([4], [5])] ∧
    CleanExit s ⟨1, 1⟩ s' := by
  obtain ⟨s, hs, hview⟩ := exists_reached nFib [.fibOpen ⟨1, 1⟩, .fibConvert ⟨1, 1⟩ ⟨0, 5⟩]
    (fun s => (s.processi.map fun b => (b.val.listathread.addrs, b.val.listafiber.addrs), decide (OnlyOwn s ⟨1, 1⟩)))
    (v := ([([4], [5])], true)) (by decide +kernel)
  obtain ⟨hnodes, hown⟩ := Prod.mk.inj hview
  obtain ⟨s', hok, hclean⟩ := exit_clean_iff hs ⟨1, 1⟩
  exact ⟨s, s', hs, hok, hnodes, hclean.mpr (of_decide_eq_true hown)⟩

/-- Two threads of process 1 are converted and the first exits: the second still runs the fiber at 13, which is freed
and gone from the table. -/
theorem exit_frees_others : ∃ s s', Reached nFib s ∧ preHandlerExit ⟨1, 1⟩ s = .ok s' ∧
    (s'.processi.map fun b => (b.val.listathread.map fun t => (t.val.id, t.val.runner), b.val.listafiber.addrs)) =
      [([(2, some 13)], [])] ∧ 13 ∈ s'.kmem.freed ∧ ¬ CleanExit s ⟨1, 1⟩ s' := by
  obtain ⟨s, hs, hview⟩ := exists_reached nFib
    [.fibOpen ⟨1, 1⟩, .fibConvert ⟨1, 1⟩ ⟨0, 5⟩, .fibConvert ⟨1, 2⟩ ⟨0, 6⟩]
    (fun s => ((preHandlerExit ⟨1, 1⟩ s).toOption.map fun s' : State => decide ((s'.processi.map fun b =>
      (b.val.listathread.map fun t => (t.val.id, t.val.runner), b.val.listafiber.addrs)) = [([(2, some 13)], [])] ∧
        13 ∈ s'.kmem.freed), decide (OnlyOwn s ⟨1, 1⟩)))
    (v := (some true, false)) (by decide +kernel)
  obtain ⟨hafter, hown⟩ := Prod.mk.inj hview
  obtain ⟨s', hok, hT, -⟩ := preHandlerExit_spec hs ⟨1, 1⟩
  rw [hok] at hafter
  obtain ⟨hnodes, hfreed⟩ := of_decide_eq_true (Option.some.inj hafter)
  refine ⟨s, s', hs, hok, hnodes, hfreed, fun hclean => ?_⟩
  refine of_decide_eq_false hown fun b hb hid hexits f hf => ?_
  exact ((cleanExit_iff hT).mp hclean b hb hid).only_own (if_pos hexits) hf

end LinuxFibers
