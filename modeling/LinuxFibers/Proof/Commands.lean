import LinuxFibers.Proof.Directory
import LinuxFibers.Proof.FlsBounds
import LinuxFibers.Proof.Unregistered

/-!
# Failed copies and what a command shows

`fib_ioctl` performs its operation between the copy in and the copy out, and `FIB_FLS_ALLOC` copies nothing
in. `efault_unchanged_iff` says which calls that return `-EFAULT` leave the tables as they were, and
`discloses_nothing_iff` which commands keep the old contents of the kernel stack from the caller.
-/

namespace LinuxFibers

open HeapTable

/-! ### The commands one by one -/

section dispatch

variable {c : Task} {arg : UserArg} {fa : FiberArguments} {now : Timespec} {s : State}

theorem fibIoctl_flsAlloc : fibIoctl c cmdFlsAlloc arg fa now s = (do
    let (s, index) ← flsAlloc c s
    copyOut arg s { fa with flsIndex := index }) := by
  rw [fibIoctl, if_pos rfl]

theorem fibIoctl_flsGet : fibIoctl c cmdFlsGet arg fa now s = copyIn arg s (fun fa => do
    let (s, value) ← flsGetValue c fa.flsIndex s
    copyOut arg s { fa with flsValue := value }) := by
  rw [fibIoctl, if_neg (by decide), if_pos rfl]

theorem fibIoctl_create : fibIoctl c cmdCreate arg fa now s = copyIn arg s (fun fa => do
    let (s, fiber) ← fibCreate c fa.startFunctionAddress fa.startFunctionParameters fa.stackPointer
      fa.stackSize s
    match fiber with
    | none => .error .uninitialised
    | some b => copyOut arg s { fa with fiberId := b.val.id }) := by
  rw [fibIoctl, if_neg (by decide), if_neg (by decide), if_neg (by decide), if_neg (by decide),
    if_neg (by decide)]
  exact if_pos rfl

/-- A command that fails to copy in has done nothing, and one that has copied in goes on. -/
theorem copyIn_cases {rest : FiberArguments → Except Fault IoctlResult} {s' : State} {ret : Int}
    {out : FiberArguments} (h : copyIn arg s rest = .ok (s', ret, out)) :
    (s' = s ∧ ret = -efault ∧ out = arg.value) ∨
      arg.accessOk = true ∧ arg.copyFrom = true ∧ rest arg.value = .ok (s', ret, out) := by
  unfold copyIn at h
  split_ifs at h with haccess hcopy
  · exact .inr ⟨haccess, hcopy, h⟩
  · cases h
    exact .inl ⟨rfl, rfl, rfl⟩
  · cases h
    exact .inl ⟨rfl, rfl, rfl⟩

theorem copyOut_cases {s₁ s' : State} {ret : Int} {out : FiberArguments}
    (h : copyOut arg s₁ fa = .ok (s', ret, out)) :
    s' = s₁ ∧ (ret = -efault ∧ arg.copyToFails ≠ none ∨ ret = 0 ∧ out = fa ∧ arg.copyToFails = none) := by
  unfold copyOut at h
  cases hfails : arg.copyToFails with
  | none =>
    rw [hfails] at h
    cases h
    exact ⟨rfl, .inr ⟨rfl, rfl, rfl⟩⟩
  | some left =>
    rw [hfails] at h
    cases h
    exact ⟨rfl, .inl ⟨rfl, Option.some_ne_none _⟩⟩

theorem copyOut_fails (s₁ : State) (fa : FiberArguments) (h : arg.copyToFails ≠ none) :
    ∃ out, copyOut arg s₁ fa = .ok (s₁, -efault, out) := by
  obtain ⟨left, hleft⟩ := Option.ne_none_iff_exists'.mp h
  exact ⟨left, by rw [copyOut, hleft]⟩

/-- The commands that neither allocate nor copy anything out. -/
theorem fibIoctl_silent {cmd : Nat} (halloc : cmd ≠ cmdFlsAlloc) (hget : cmd ≠ cmdFlsGet)
    (hcreate : cmd ≠ cmdCreate) {s' : State} {ret : Int} {out : FiberArguments}
    (hok : fibIoctl c cmd arg fa now s = .ok (s', ret, out)) :
    out = arg.value ∧ (s' = s ∨ (ret = 0 ∨ ret = 1) ∨ (∃ s₁, fibConvert c now s = .ok (s₁, ret)) ∨
      ∃ id s₁, fibSwitchTo c id now s = .ok (s₁, ret)) := by
  unfold fibIoctl at hok
  rw [if_neg halloc, if_neg hget] at hok
  split_ifs at hok with hset hdealloc hconvert hswitch
  · rcases copyIn_cases hok with ⟨rfl, rfl, rfl⟩ | ⟨-, -, hrest⟩
    · exact ⟨rfl, .inl rfl⟩
    · obtain ⟨⟨s₁, x⟩, -, hrest⟩ := bind_eq_ok.mp hrest
      cases hrest
      exact ⟨rfl, .inr (.inl (.inl rfl))⟩
  · rcases copyIn_cases hok with ⟨rfl, rfl, rfl⟩ | ⟨-, -, hrest⟩
    · exact ⟨rfl, .inl rfl⟩
    · obtain ⟨⟨s₁, x⟩, -, hrest⟩ := bind_eq_ok.mp hrest
      cases hrest
      refine ⟨rfl, .inr (.inl ?_)⟩
      cases x
      · exact .inl rfl
      · exact .inr rfl
  · obtain ⟨⟨s₁, x⟩, hrun, hok⟩ := bind_eq_ok.mp hok
    cases hok
    exact ⟨rfl, .inr (.inr (.inl ⟨_, hrun⟩))⟩
  · rcases copyIn_cases hok with ⟨rfl, rfl, rfl⟩ | ⟨-, -, hrest⟩
    · exact ⟨rfl, .inl rfl⟩
    · obtain ⟨⟨s₁, x⟩, hrun, hrest⟩ := bind_eq_ok.mp hrest
      cases hrest
      exact ⟨rfl, .inr (.inr (.inr ⟨_, _, hrun⟩))⟩
  · cases hok
    exact ⟨rfl, .inl rfl⟩

end dispatch

/-! ### Which operations leave the tables alone -/

section unchanged

variable {c : Task} {s s' : State}

/-- A walk whose body changes every block it visits changes the table, if it visits one. -/
theorem forEachProcess_ne {σ : Type} {tgid : Int} {body : Process → σ → Except Fault (Process × σ)}
    {T T' : Table Process} {x x' : σ} (hbody : ∀ p x p' x', body p x = .ok (p', x') → p' ≠ p)
    (hvisit : ∃ b ∈ T, b.val.id = tgid) (hok : forEachProcess tgid body T x = .ok (T', x')) : T' ≠ T := by
  rw [forEachProcess_eq] at hok
  induction T generalizing x T' with
  | nil =>
    obtain ⟨b, hb, -⟩ := hvisit
    cases hb
  | cons b T ih =>
    by_cases hb : b.val.id = tgid
    · obtain ⟨p, x₁, U, hrun, -, rfl⟩ := Table.forEach_cons_pos hb hok
      intro he
      have hhead : (⟨b.addr, p⟩ : Block Process) = b := (List.cons.inj he).1
      exact hbody _ _ _ _ hrun (congrArg Block.val hhead)
    · obtain ⟨U, hrest, rfl⟩ := Table.forEach_cons_neg hb hok
      obtain ⟨d, hd, hid⟩ := hvisit
      have hdT : d ∈ T := (List.mem_cons.mp hd).resolve_left fun he => hb (he ▸ hid)
      intro he
      exact ih ⟨d, hdT, hid⟩ hrest (List.cons.inj he).2

/-- A walk whose body assigns a loop variable leaves it assigned, if it visits an entry. -/
theorem forEachProcess_assigns {σ : Type} {tgid : Int} {body : Process → σ → Except Fault (Process × σ)}
    {J : σ → Prop} {T T' : Table Process} {x x' : σ} (hbody : ∀ p x p' x', body p x = .ok (p', x') → J x')
    (hvisit : ∃ b ∈ T, b.val.id = tgid) (hok : forEachProcess tgid body T x = .ok (T', x')) : J x' := by
  rw [forEachProcess_eq] at hok
  have hkeep : ∀ (T T' : Table Process) (x : σ), J x →
      Table.forEach (fun p => p.id = tgid) body T x = .ok (T', x') → J x' := by
    intro T T' x hx hok
    exact (Table.forEach_induct (J := J) (P := fun _ _ => True)
      (fun p y p' y' _ _ _ hrun => ⟨hbody p y p' y' hrun, trivial, fun _ _ => trivial⟩) hx
      (fun _ _ => trivial) hok).1
  induction T generalizing x T' with
  | nil =>
    obtain ⟨b, hb, -⟩ := hvisit
    cases hb
  | cons b T ih =>
    by_cases hb : b.val.id = tgid
    · obtain ⟨p, x₁, U, hrun, hrest, rfl⟩ := Table.forEach_cons_pos hb hok
      exact hkeep _ _ _ (hbody _ _ _ _ hrun) hrest
    · obtain ⟨U, hrest, rfl⟩ := Table.forEach_cons_neg hb hok
      obtain ⟨d, hd, hid⟩ := hvisit
      exact ih ⟨d, (List.mem_cons.mp hd).resolve_left fun he => hb (he ▸ hid), hid⟩ hrest

/-- Reading the local storage changes nothing. -/
theorem flsGetWalk_unchanged {T T' : Table Process} (hwf : ∀ b ∈ T, b.val.Wf) {pos x value : Int}
    (hok : flsWalk c (flsGetValueFiber pos) T x = .ok (T', value)) : T' = T := by
  induction T generalizing x T' with
  | nil =>
    cases hok
    rfl
  | cons b T ih =>
    have hT := fun d hd => hwf d (List.mem_cons_of_mem b hd)
    rcases flsWalk_cons (c := c) (flsGetValueFiber pos) (x := x) (hwf b List.mem_cons_self) with
      ⟨-, hw⟩ | ⟨f, r, hf, -, hw⟩
    · rw [hw] at hok
      obtain ⟨⟨U, y⟩, hrest, hok⟩ := bind_eq_ok.mp hok
      cases hok
      rw [ih hT hrest]
    · rw [hw] at hok
      obtain ⟨⟨f', x₁⟩, hbody, hok⟩ := bind_eq_ok.mp hok
      obtain ⟨⟨U, y⟩, hrest, hok⟩ := bind_eq_ok.mp hok
      cases hok
      have hin : InRange pos := by
        by_contra hout
        rw [flsGetValueFiber_out f hout] at hbody
        cases hbody
      obtain ⟨i, rfl⟩ := hin.exists_fin
      rw [flsGetValueFiber_eq] at hbody
      cases hbody
      have hsame : b.val.modFiber r (fun _ => f) = b.val := by
        rw [Process.modFiber, Table.update_const (hwf b List.mem_cons_self).fiberAddrs hf]
      rw [ih hT hrest, hsame]

theorem flsGetValue_unchanged (hwf : ∀ b ∈ s.processi, b.val.Wf) {pos value : Int}
    (hok : flsGetValue c pos s = .ok (s', value)) : s'.processi = s.processi := by
  obtain ⟨⟨T, y⟩, hwalk, hok⟩ := bind_eq_ok.mp hok
  cases hok
  exact flsGetWalk_unchanged hwf hwalk

theorem fibCreate_changed {func parameters stackPointer stackSize : BitVec 64} {r : Option (Block Fiber)}
    (hreg : ¬ Unregistered c s) (hok : fibCreate c func parameters stackPointer stackSize s = .ok (s', r)) :
    s'.processi ≠ s.processi := by
  obtain ⟨⟨T, y⟩, hwalk, hok⟩ := bind_eq_ok.mp hok
  cases hok
  simp only [Unregistered, not_forall, not_not] at hreg
  obtain ⟨b, hb, hid⟩ := hreg
  refine forEachProcess_ne (fun p x p' x' hrun he => ?_) ⟨b, hb, hid⟩ hwalk
  obtain ⟨U, d, -, -, -, rfl, -⟩ := createProcess_ok hrun
  have hlast : p.lastFibId + 1 = p.lastFibId := congrArg Process.lastFibId he
  omega

/-- The walk of `flsAlloc` faults at most on the first fiber. -/
theorem flsAllocWalk_ok {T : Table Process} (hwf : ∀ b ∈ T, b.val.Wf) (index : Int)
    (h : 0 ≤ index ∨ ∃ f l, visited c T = f :: l ∧ ¬ f.Full) :
    ∃ T' index', flsWalk c flsAllocFiber T index = .ok (T', index') := by
  induction T generalizing index with
  | nil => exact ⟨[], index, rfl⟩
  | cons b T ih =>
    have hT := fun d hd => hwf d (List.mem_cons_of_mem b hd)
    rcases flsWalk_cons (c := c) flsAllocFiber (x := index) (hwf b List.mem_cons_self) with
      ⟨hv, hw⟩ | ⟨f, r, -, hv, hw⟩
    · obtain ⟨T', index', hrest⟩ := ih hT index (hv ▸ h)
      exact ⟨_, _, by rw [hw, hrest]; rfl⟩
    · have hbody : ∃ f' index₁, flsAllocFiber f index = .ok (f', index₁) := by
        cases hfirst : firstClear f.bitmapFls.val with
        | some i => exact ⟨_, _, flsAllocFiber_some f hfirst index⟩
        | none =>
          have hindex : 0 ≤ index := by
            rcases h with hindex | ⟨g, l, hg, hfree⟩
            · exact hindex
            · rw [hv, List.cons.injEq] at hg
              rw [← hg.1] at hfree
              exact absurd (firstClear_eq_none.mp hfirst) hfree
          by_cases hlt : index < flsSize
          · obtain ⟨i, rfl⟩ := InRange.exists_fin ⟨hindex, hlt⟩
            simp only [flsAllocFiber, hfirst, if_pos hlt, writeAt_fin, bind, Except.bind]
            exact ⟨_, _, rfl⟩
          · simp only [flsAllocFiber, hfirst, if_neg hlt]
            exact ⟨_, _, rfl⟩
      obtain ⟨f', index₁, hf⟩ := hbody
      obtain ⟨T', index', hrest⟩ := ih hT _ (.inl (flsAllocFiber_nonneg hf))
      refine ⟨{ b with val := b.val.modFiber r fun _ => f' } :: T', index', ?_⟩
      rw [hw, hf]
      simp only [bind, Except.bind, hrest]

/-- `flsAlloc` takes a slot of the first fiber it reaches. -/
theorem flsAllocWalk_changed {T T' : Table Process} (hwf : ∀ b ∈ T, b.val.Wf) {index index' : Int} {f : Fiber}
    {l : List Fiber} (hv : visited c T = f :: l) (hfree : ¬ f.Full)
    (hok : flsWalk c flsAllocFiber T index = .ok (T', index')) : T' ≠ T := by
  induction T generalizing T' with
  | nil => cases hv
  | cons b T ih =>
    have hwfb := hwf b List.mem_cons_self
    have hT := fun d hd => hwf d (List.mem_cons_of_mem b hd)
    rcases flsWalk_cons (c := c) flsAllocFiber (x := index) hwfb with ⟨hv', hw⟩ | ⟨g, r, hg, hv', hw⟩
    · rw [hw] at hok
      obtain ⟨⟨U, y⟩, hrest, hok⟩ := bind_eq_ok.mp hok
      cases hok
      intro he
      exact ih hT (hv' ▸ hv) hrest (List.cons.inj he).2
    · rw [hv', List.cons.injEq] at hv
      obtain ⟨rfl, -⟩ := hv
      rw [hw] at hok
      obtain ⟨⟨f', index₁⟩, hbody, hok⟩ := bind_eq_ok.mp hok
      obtain ⟨⟨U, y⟩, -, hok⟩ := bind_eq_ok.mp hok
      cases hok
      cases hfirst : firstClear g.bitmapFls.val with
      | none => exact absurd (firstClear_eq_none.mp hfirst) hfree
      | some i =>
        rw [flsAllocFiber_some g hfirst] at hbody
        cases hbody
        intro he
        have hp : b.val.modFiber r (fun _ => setBit g i 1) = b.val :=
          congrArg Block.val (List.cons.inj he).1
        have hderef : (b.val.modFiber r fun _ => setBit g i 1).listafiber.deref r = some (setBit g i 1) := by
          rw [Process.deref_modFiber, if_pos rfl, hg]
          rfl
        rw [hp, hg, Option.some.injEq] at hderef
        have hbit : g.bitmapFls.val i = (setBit g i 1).bitmapFls.val i := by rw [← hderef]
        rw [(firstClear_eq_some.mp hfirst).1] at hbit
        simp [setBit] at hbit

end unchanged

theorem flsAlloc_first {c : Task} {s : State} (hwf : ∀ b ∈ s.processi, b.val.Wf) {f : Fiber} {l : List Fiber}
    (hv : currentFibers c s = f :: l) (hfree : ¬ f.Full) :
    ∃ s' index, flsAlloc c s = .ok (s', index) ∧ s'.processi ≠ s.processi := by
  obtain ⟨T, index, hwalk⟩ := flsAllocWalk_ok hwf (-1) (.inr ⟨f, l, hv, hfree⟩)
  exact ⟨_, index, onRunner_ok hwalk, flsAllocWalk_changed hwf hv hfree hwalk⟩

theorem flsAlloc_nobody {c : Task} {s : State} (hwf : ∀ b ∈ s.processi, b.val.Wf) (hv : currentFibers c s = []) :
    flsAlloc c s = .ok (s, -1) := onRunner_ok (flsWalk_none hwf hv)

theorem flsAlloc_full {c : Task} {s : State} (hwf : ∀ b ∈ s.processi, b.val.Wf) {f : Fiber} {l : List Fiber}
    (hv : currentFibers c s = f :: l) (hfull : f.Full) : flsAlloc c s = .error .outOfBounds :=
  onRunner_error (flsWalk_error hwf hv (flsAllocFiber_full f hfull (by decide)))

/-- `fib_convert` returns -1 or an id: no `-EFAULT`. -/
theorem fibConvert_bounds {n : Nat} {c : Task} {now : Timespec} {s s' : State} {ret : Int} (h : Reached n s)
    (hok : fibConvert c now s = .ok (s', ret)) : -1 ≤ ret ∧ ret ≤ pidMax := by
  obtain ⟨⟨T, y⟩, hwalk, hok⟩ := bind_eq_ok.mp hok
  cases hok
  rw [forEachProcess_eq] at hwalk
  refine (Table.forEach_induct (J := fun y : ConvertVars => -1 ≤ y.ret ∧ y.ret ≤ pidMax)
    (P := fun y p => p.Inv y.kmem.next) ?_ ⟨le_rfl, (by decide : (-1 : Int) ≤ pidMax)⟩ (reached_inv h) hwalk).1
  intro p x p' x' _ hret hinv hrun
  obtain ⟨hinv', hle⟩ := convertProcess_inv hinv hrun
  refine ⟨?_, hinv', fun q hq => hq.mono hle⟩
  by_cases hkeep : x.flagControllo = true ∨ ∃ t ∈ p.listathread, t.val.id = c.pid
  · rw [convertProcess_keep hkeep] at hrun
    cases hrun
    exact hret
  · push Not at hkeep
    rw [convertProcess_new (by simpa using hkeep.1) hkeep.2] at hrun
    obtain ⟨U, hlt, -, -, -, -, hnew⟩ := convertThread_ok hinv.threadBound hrun
    have := hinv.lastFibId
    omega

/-- `fib_switch_to` returns -1 or 0. -/
theorem fibSwitchTo_bounds {n : Nat} {c : Task} {now : Timespec} {s s' : State} {id ret : Int} (h : Reached n s)
    (hok : fibSwitchTo c id now s = .ok (s', ret)) : -1 ≤ ret ∧ ret ≤ 0 := by
  obtain ⟨⟨T, y⟩, hwalk, hok⟩ := bind_eq_ok.mp hok
  cases hok
  rw [forEachProcess_eq] at hwalk
  have hminus : (-1 : Int) ≤ -1 ∧ (-1 : Int) ≤ 0 := by decide
  refine (Table.forEach_induct (J := fun y : SwitchVars => -1 ≤ y.ret ∧ y.ret ≤ 0)
    (P := fun y p => p.Inv y.kmem.next) ?_ hminus (reached_inv h) hwalk).1
  intro p x p' x' _ hret hinv hrun
  obtain ⟨hinv', hle⟩ := switchProcess_inv hinv hrun
  refine ⟨?_, hinv'.mono hle, fun q hq => hq.mono hle⟩
  obtain ⟨q, z, hq, hcase⟩ := switchProcess_spec hinv.toWf c id now x
  rw [hrun, Except.ok.injEq, Prod.mk.injEq] at hq
  obtain ⟨rfl, rfl⟩ := hq
  cases hcase with
  | notConverted | absent => exact hret
  | self | busy => exact hminus
  | done => exact (by decide : (-1 : Int) ≤ 0 ∧ (0 : Int) ≤ 0)

/-! ### `-EFAULT` and the tables -/

/-- The copy out fails behind an operation that stores to the tables: an allocation for a thread that runs a fiber, or a
creation for a registered caller. -/
def LateFailure (c : Task) (cmd : Nat) (arg : UserArg) (s : State) : Prop :=
  arg.copyToFails ≠ none ∧
    (cmd = cmdFlsAlloc ∧ currentFibers c s ≠ [] ∨
      cmd = cmdCreate ∧ arg.accessOk = true ∧ arg.copyFrom = true ∧ ¬ Unregistered c s)

/-- A call that returns `-EFAULT` leaves every entry as it was. Of the commands that store before they copy out, one that
stores beyond an array goes on to its copy out, with the tables in a state of which C says nothing. If the copy out fails,
that counts as a change. -/
def EfaultUnchanged (c : Task) (cmd : Nat) (arg : UserArg) (fa : FiberArguments) (now : Timespec) (s : State) : Prop :=
  (∀ s' out, fibIoctl c cmd arg fa now s = .ok (s', -efault, out) → s'.processi = s.processi) ∧
    (arg.copyToFails ≠ none → cmd = cmdFlsAlloc ∨ cmd = cmdCreate → fibIoctl c cmd arg fa now s ≠ .error .outOfBounds)

/-- For a registered caller `fib_create` assigns its pointer: a walk that visits an entry does. -/
theorem fibCreate_assigns {c : Task} {s s' : State} (hreg : ¬ Unregistered c s)
    {func parameters stackPointer stackSize : BitVec 64} {r : Option (Block Fiber)}
    (hok : fibCreate c func parameters stackPointer stackSize s = .ok (s', r)) : r ≠ none := by
  obtain ⟨⟨T, y⟩, hwalk, hend⟩ := bind_eq_ok.mp hok
  cases hend
  simp only [Unregistered, not_forall, not_not] at hreg
  obtain ⟨b, hb, hid⟩ := hreg
  refine forEachProcess_assigns (J := fun x : CreateVars => x.listaFiberElem ≠ none) ?_ ⟨b, hb, hid⟩ hwalk
  intro p x p' x' hrun
  obtain ⟨U, d, -, -, -, -, rfl⟩ := createProcess_ok hrun
  exact Option.some_ne_none d

/-- For a registered caller `fib_create` returns a pointer, or stores beyond a directory. -/
theorem fibCreate_registered {c : Task} {s : State} (h : Reached nFib s) (hreg : ¬ Unregistered c s)
    (func parameters stackPointer stackSize : BitVec 64) :
    (∃ s' b, fibCreate c func parameters stackPointer stackSize s = .ok (s', some b)) ∨
      fibCreate c func parameters stackPointer stackSize s = .error .outOfBounds := by
  cases hrun : fibCreate c func parameters stackPointer stackSize s with
  | error e =>
    have hwalk := (bind_ok_eq_error fun r => ⟨_, rfl⟩).mp hrun
    rw [forEachProcess_eq] at hwalk
    obtain ⟨b, hb, -, z, hbody⟩ := Table.forEach_error hwalk
    have hinv := reached_dirInv h b hb
    rw [((createProcess_error hinv z).mp hbody).outOfBounds hinv (by decide)]
    exact .inr rfl
  | ok r =>
    obtain ⟨s₁, r⟩ := r
    obtain ⟨b, rfl⟩ := Option.ne_none_iff_exists'.mp (fibCreate_assigns hreg hrun)
    exact .inl ⟨s₁, b, rfl⟩

section efault

variable {c : Task} {cmd : Nat} {arg : UserArg} {fa out : FiberArguments} {now : Timespec} {s s' : State}

/-- An allocation in a fiber with a free slot whose copy out fails. -/
theorem flsAlloc_late (hwf : ∀ b ∈ s.processi, b.val.Wf) {f : Fiber} {l : List Fiber} (hv : currentFibers c s = f :: l)
    (hfree : ¬ f.Full) (hfails : arg.copyToFails ≠ none) :
    ∃ s' out, fibIoctl c cmdFlsAlloc arg fa now s = .ok (s', -efault, out) ∧ s'.processi ≠ s.processi := by
  obtain ⟨s', index, halloc, hne⟩ := flsAlloc_first hwf hv hfree
  obtain ⟨out, hout⟩ := copyOut_fails s' { fa with flsIndex := index } hfails
  refine ⟨s', out, ?_, hne⟩
  rw [fibIoctl_flsAlloc, halloc]
  exact hout

/-- After a late failure the entries are not what they were. -/
theorem not_unchanged_of_late (h : Reached nFib s) (hlate : LateFailure c cmd arg s) :
    ¬ EfaultUnchanged c cmd arg fa now s := by
  have hwf : ∀ b ∈ s.processi, b.val.Wf := fun b hb => (reached_inv h b hb).toWf
  rintro ⟨hkeep, hstores⟩
  obtain ⟨hfails, ⟨rfl, hruns⟩ | ⟨rfl, haccess, hcopy, hreg⟩⟩ := hlate
  · obtain ⟨f, l, hv⟩ := List.exists_cons_of_ne_nil hruns
    by_cases hfull : f.Full
    · refine hstores hfails (.inl rfl) ?_
      rw [fibIoctl_flsAlloc, flsAlloc_full hwf hv hfull]
      rfl
    · obtain ⟨s', out, hok, hne⟩ : ∃ s' out, fibIoctl c cmdFlsAlloc arg fa now s = .ok (s', -efault, out) ∧
          s'.processi ≠ s.processi := flsAlloc_late hwf hv hfull hfails
      exact hne (hkeep s' out hok)
  · obtain ⟨s', b, hcreate⟩ | hcreate := fibCreate_registered h hreg arg.value.startFunctionAddress
      arg.value.startFunctionParameters arg.value.stackPointer arg.value.stackSize
    · obtain ⟨out, hout⟩ := copyOut_fails s' { arg.value with fiberId := b.val.id } hfails
      refine fibCreate_changed hreg hcreate (hkeep s' out ?_)
      rw [fibIoctl_create, copyIn, if_pos haccess, if_pos hcopy, hcreate]
      exact hout
    · refine hstores hfails (.inr rfl) ?_
      rw [fibIoctl_create, copyIn, if_pos haccess, if_pos hcopy, hcreate]
      rfl

theorem flsAlloc_unchanged (hwf : ∀ b ∈ s.processi, b.val.Wf) (hlate : ¬ LateFailure c cmdFlsAlloc arg s) :
    EfaultUnchanged c cmdFlsAlloc arg fa now s := by
  by_cases hfails : arg.copyToFails = none
  · refine ⟨fun s' out hok => ?_, fun h => absurd hfails h⟩
    rw [fibIoctl_flsAlloc] at hok
    obtain ⟨r, -, hok⟩ := bind_eq_ok.mp hok
    obtain ⟨-, ⟨-, hne⟩ | ⟨hret, -⟩⟩ := copyOut_cases hok
    · exact absurd hfails hne
    · cases hret
  · have hv : currentFibers c s = [] := by
      by_contra hruns
      exact hlate ⟨hfails, .inl ⟨rfl, hruns⟩⟩
    obtain ⟨left, hleft⟩ := copyOut_fails s { fa with flsIndex := -1 } hfails
    have hrun : fibIoctl c cmdFlsAlloc arg fa now s = .ok (s, -efault, left) := by
      rw [fibIoctl_flsAlloc, flsAlloc_nobody hwf hv]
      exact hleft
    rw [EfaultUnchanged, hrun]
    refine ⟨fun s' out hok => ?_, fun _ _ h => ?_⟩
    · cases hok
      rfl
    · cases h

theorem fibCreate_unchanged (hlate : ¬ LateFailure c cmdCreate arg s) : EfaultUnchanged c cmdCreate arg fa now s := by
  by_cases hcopied : arg.accessOk = true ∧ arg.copyFrom = true
  · by_cases hreg : Unregistered c s
    · -- the pointer was never assigned
      have hrun : fibIoctl c cmdCreate arg fa now s = .error .uninitialised := by
        rw [fibIoctl_create, copyIn, if_pos hcopied.1, if_pos hcopied.2, fibCreate_unregistered hreg]
        rfl
      rw [EfaultUnchanged, hrun]
      refine ⟨fun s' out hok => ?_, fun _ _ h => ?_⟩
      · cases hok
      · cases h
    · have hfails : arg.copyToFails = none := by
        by_contra hfails
        exact hlate ⟨hfails, .inr ⟨rfl, hcopied.1, hcopied.2, hreg⟩⟩
      refine ⟨fun s' out hok => ?_, fun h => absurd hfails h⟩
      rw [fibIoctl_create] at hok
      rcases copyIn_cases hok with ⟨rfl, -, -⟩ | ⟨-, -, hrest⟩
      · rfl
      · obtain ⟨⟨s₁, r⟩, -, hrest⟩ := bind_eq_ok.mp hrest
        cases r with
        | none => cases hrest
        | some b =>
          obtain ⟨-, ⟨-, hne⟩ | ⟨hret, -⟩⟩ := copyOut_cases hrest
          · exact absurd hfails hne
          · cases hret
  · have hrun : fibIoctl c cmdCreate arg fa now s = .ok (s, -efault, arg.value) := by
      rw [fibIoctl_create, copyIn]
      split_ifs with haccess hcopy
      · exact absurd ⟨haccess, hcopy⟩ hcopied
      · rfl
      · rfl
    rw [EfaultUnchanged, hrun]
    refine ⟨fun s' out hok => ?_, fun _ _ h => ?_⟩
    · cases hok
      rfl
    · cases h

theorem flsGet_processi (hwf : ∀ b ∈ s.processi, b.val.Wf)
    (hok : fibIoctl c cmdFlsGet arg fa now s = .ok (s', -efault, out)) : s'.processi = s.processi := by
  rw [fibIoctl_flsGet] at hok
  rcases copyIn_cases hok with ⟨rfl, -, -⟩ | ⟨-, -, hrest⟩
  · rfl
  · obtain ⟨⟨s₁, value⟩, hrun, hrest⟩ := bind_eq_ok.mp hrest
    obtain ⟨rfl, -⟩ := copyOut_cases hrest
    exact flsGetValue_unchanged hwf hrun

end efault

/-- **`-EFAULT` and the tables.** In every reachable state, for every caller, command and user argument, a call
that returns `-EFAULT` leaves every entry as it was exactly when it is no late failure. -/
theorem efault_unchanged_iff {s : State} (h : Reached nFib s) (c : Task) (cmd : Nat) (arg : UserArg)
    (fa : FiberArguments) (now : Timespec) :
    EfaultUnchanged c cmd arg fa now s ↔ ¬ LateFailure c cmd arg s := by
  have hwf : ∀ b ∈ s.processi, b.val.Wf := fun b hb => (reached_inv h b hb).toWf
  refine ⟨fun hkeep hlate => not_unchanged_of_late h hlate hkeep, fun hlate => ?_⟩
  by_cases halloc : cmd = cmdFlsAlloc
  · subst halloc
    exact flsAlloc_unchanged hwf hlate
  by_cases hcreate : cmd = cmdCreate
  · subst hcreate
    exact fibCreate_unchanged hlate
  refine ⟨fun s' out hok => ?_, fun _ hstores => absurd hstores (by simp [halloc, hcreate])⟩
  by_cases hget : cmd = cmdFlsGet
  · subst hget
    exact flsGet_processi hwf hok
  obtain ⟨-, rfl | (hret | hret) | ⟨s₁, hrun⟩ | ⟨id, s₁, hrun⟩⟩ := fibIoctl_silent halloc hget hcreate hok
  · rfl
  · cases hret
  · cases hret
  · exact absurd (fibConvert_bounds h hrun).1 (by decide)
  · exact absurd (fibSwitchTo_bounds h hrun).1 (by decide)

/-- A user's structure that can be read but not written back. -/
def readOnlyArg : UserArg := { zeroArg with copyToFails := some zeroArg.value }

/-- The slots of the thread `1`'s fiber after `fib_open` and `fib_convert`. -/
theorem exists_converted : ∃ s, Reached nFib s ∧ ∃ f, currentFibers ⟨1, 1⟩ s = [f] ∧ ¬ f.Full := by
  obtain ⟨s, hs, hview⟩ := exists_reached nFib [.fibOpen ⟨1, 1⟩, .fibConvert ⟨1, 1⟩ ⟨0, 5⟩]
    (fun s => (currentFibers ⟨1, 1⟩ s).map fun (f : Fiber) => decide f.Full) (v := [false]) (by decide +kernel)
  obtain ⟨f, l, hf, hfree, hl⟩ := List.map_eq_cons_iff.mp hview
  obtain rfl := List.map_eq_nil_iff.mp hl
  exact ⟨s, hs, f, hf, of_decide_eq_false hfree⟩

/-- A thread that runs a fiber is registered. -/
theorem registered_of_currentFibers {c : Task} {s : State} (h : currentFibers c s ≠ []) : ¬ Unregistered c s := by
  intro hno
  refine h ?_
  rw [currentFibers, visited, List.filter_eq_nil_iff.mpr fun b hb => by simpa using hno b hb]
  rfl

/-- A converted thread whose structure can be read but not written. -/
theorem efault_unchanged_converted : ∃ s, Reached nFib s ∧ currentFibers ⟨1, 1⟩ s ≠ [] ∧
    (EfaultUnchanged ⟨1, 1⟩ cmdFlsGet readOnlyArg zeroArg.value ⟨0, 9⟩ s ↔
      ¬ LateFailure ⟨1, 1⟩ cmdFlsGet readOnlyArg s) := by
  obtain ⟨s, hs, f, hf, -⟩ := exists_converted
  exact ⟨s, hs, by simp [hf], efault_unchanged_iff hs _ _ _ _ _⟩

/-- `FIB_FLS_ALLOC` with a structure that cannot be written takes a slot and returns `-EFAULT`. -/
theorem flsAlloc_efault : ∃ s s' out, Reached nFib s ∧
    fibIoctl ⟨1, 1⟩ cmdFlsAlloc readOnlyArg zeroArg.value ⟨0, 9⟩ s = .ok (s', -efault, out) ∧
    s'.processi ≠ s.processi := by
  obtain ⟨s, hs, f, hf, hfree⟩ := exists_converted
  have hfails : readOnlyArg.copyToFails ≠ none := Option.some_ne_none _
  obtain ⟨s', out, hok, hne⟩ := flsAlloc_late (fun b hb => (reached_inv hs b hb).toWf) hf hfree hfails
  exact ⟨s, s', out, hs, hok, hne⟩

/-! ### What the user's structure shows -/

/-- The structure differs at most in the result field of the command. -/
def SameButResult (cmd : Nat) (before after : FiberArguments) : Prop :=
  if cmd = cmdFlsAlloc then after = { before with flsIndex := after.flsIndex }
  else if cmd = cmdFlsGet then after = { before with flsValue := after.flsValue }
  else if cmd = cmdCreate then after = { before with fiberId := after.fiberId }
  else after = before

/-- Two calls that return 0 and differ in nothing but what the local structure held on entry leave the same
structure to the user, changed at most in the result field. `FIB_FLS_ALLOC` copies its structure out all the same when
`flsAlloc` has stored beyond the array: a fault there counts as a disclosure if the copy out succeeds. -/
def DisclosesNothing (c : Task) (cmd : Nat) (arg : UserArg) (now : Timespec) (s : State) : Prop :=
  (∀ fa₁ fa₂ s₁ s₂ out₁ out₂, fibIoctl c cmd arg fa₁ now s = .ok (s₁, 0, out₁) →
    fibIoctl c cmd arg fa₂ now s = .ok (s₂, 0, out₂) → out₁ = out₂ ∧ SameButResult cmd arg.value out₁) ∧
  (cmd = cmdFlsAlloc → arg.copyToFails = none → ∀ fa fault, fibIoctl c cmd arg fa now s ≠ .error fault)

section disclosure

variable {c : Task} {arg : UserArg} {now : Timespec} {s : State}

/-- An allocation that returns copies the whole local structure out. -/
theorem flsAlloc_copies {s' : State} {index : Int} (hok : flsAlloc c s = .ok (s', index)) (hcopy : arg.copyToFails = none)
    (now : Timespec) (fa : FiberArguments) :
    fibIoctl c cmdFlsAlloc arg fa now s = .ok (s', 0, { fa with flsIndex := index }) := by
  rw [fibIoctl_flsAlloc, hok]
  simp only [bind, Except.bind, copyOut, hcopy]

/-- A command other than `FIB_FLS_ALLOC` reads nothing of what its local structure held. -/
theorem fibIoctl_local {cmd : Nat} (halloc : cmd ≠ cmdFlsAlloc) (fa₁ fa₂ : FiberArguments) :
    fibIoctl c cmd arg fa₁ now s = fibIoctl c cmd arg fa₂ now s := by
  unfold fibIoctl
  rw [if_neg halloc, if_neg halloc]

theorem fibIoctl_sameButResult {cmd : Nat} (halloc : cmd ≠ cmdFlsAlloc) {fa out : FiberArguments} {s' : State}
    (hok : fibIoctl c cmd arg fa now s = .ok (s', 0, out)) : SameButResult cmd arg.value out := by
  unfold SameButResult
  rw [if_neg halloc]
  by_cases hget : cmd = cmdFlsGet
  · subst hget
    rw [if_pos rfl]
    rw [fibIoctl_flsGet] at hok
    rcases copyIn_cases hok with ⟨-, hret, -⟩ | ⟨-, -, hrest⟩
    · cases hret
    · obtain ⟨⟨s₁, value⟩, -, hrest⟩ := bind_eq_ok.mp hrest
      obtain ⟨-, ⟨hret, -⟩ | ⟨-, rfl, -⟩⟩ := copyOut_cases hrest
      · cases hret
      · rfl
  by_cases hcreate : cmd = cmdCreate
  · subst hcreate
    rw [if_neg hget, if_pos rfl]
    rw [fibIoctl_create] at hok
    rcases copyIn_cases hok with ⟨-, hret, -⟩ | ⟨-, -, hrest⟩
    · cases hret
    · obtain ⟨⟨s₁, r⟩, -, hrest⟩ := bind_eq_ok.mp hrest
      cases r with
      | none => cases hrest
      | some b =>
        obtain ⟨-, ⟨hret, -⟩ | ⟨-, rfl, -⟩⟩ := copyOut_cases hrest
        · cases hret
        · rfl
  rw [if_neg hget, if_neg hcreate]
  exact (fibIoctl_silent halloc hget hcreate hok).1

end disclosure

/-- **What a command shows.** In every reachable state, for every registered caller, command and user structure, the
structure afterwards carries nothing of the old contents of the local variables exactly when the command is not
a `FIB_FLS_ALLOC` whose copy out succeeds. Of an unregistered caller it says nothing: `FIB_CREATE` then takes the id it
copies out from behind a pointer that was never assigned, which ends the model's call. -/
theorem discloses_nothing_iff {s : State} (_ : Reached nFib s) {c : Task} (_ : ¬ Unregistered c s) (cmd : Nat)
    (arg : UserArg) (now : Timespec) :
    DisclosesNothing c cmd arg now s ↔ ¬ (cmd = cmdFlsAlloc ∧ arg.copyToFails = none) := by
  constructor
  · rintro ⟨hnothing, hreturns⟩ ⟨rfl, hcopy⟩
    cases hrun : flsAlloc c s with
    | error fault =>
      refine hreturns rfl hcopy arg.value fault ?_
      rw [fibIoctl_flsAlloc, hrun]
      rfl
    | ok r =>
      have hok := flsAlloc_copies hrun hcopy now
      have hsame := congrArg FiberArguments.buffer
        (hnothing _ _ _ _ _ _ (hok zeroArg.value) (hok { zeroArg.value with buffer := 1 })).1
      cases hsame
  · intro hno
    refine ⟨fun fa₁ fa₂ s₁ s₂ out₁ out₂ hok₁ hok₂ => ?_, fun halloc hcopy => absurd ⟨halloc, hcopy⟩ hno⟩
    by_cases halloc : cmd = cmdFlsAlloc
    · subst halloc
      rw [fibIoctl_flsAlloc] at hok₁
      obtain ⟨r, -, hok₁⟩ := bind_eq_ok.mp hok₁
      obtain ⟨-, ⟨hret, -⟩ | ⟨-, -, hcopy⟩⟩ := copyOut_cases hok₁
      · cases hret
      · exact absurd ⟨rfl, hcopy⟩ hno
    · rw [fibIoctl_local halloc fa₂ fa₁, hok₁] at hok₂
      cases hok₂
      exact ⟨rfl, fibIoctl_sameButResult halloc hok₁⟩

/-- A converted thread that reads a slot. -/
theorem discloses_nothing_converted : ∃ s, Reached nFib s ∧ ¬ Unregistered ⟨1, 1⟩ s ∧
    (DisclosesNothing ⟨1, 1⟩ cmdFlsGet zeroArg ⟨0, 9⟩ s ↔ ¬ (cmdFlsGet = cmdFlsAlloc ∧ zeroArg.copyToFails = none)) := by
  obtain ⟨s, hs, f, hf, -⟩ := exists_converted
  have hreg := registered_of_currentFibers (by rw [hf]; simp)
  exact ⟨s, hs, hreg, discloses_nothing_iff hs hreg _ _ _⟩

/-- `FIB_FLS_ALLOC` copies out a structure of which it assigned one field. -/
theorem flsAlloc_discloses : ∃ s s₁ s₂ out₁ out₂, Reached nFib s ∧ ¬ Unregistered ⟨1, 1⟩ s ∧
    fibIoctl ⟨1, 1⟩ cmdFlsAlloc zeroArg zeroArg.value ⟨0, 9⟩ s = .ok (s₁, 0, out₁) ∧
    fibIoctl ⟨1, 1⟩ cmdFlsAlloc zeroArg { zeroArg.value with stackPointer := 16 } ⟨0, 9⟩ s = .ok (s₂, 0, out₂) ∧
    out₁.stackPointer = 0 ∧ out₂.stackPointer = 16 := by
  obtain ⟨s, hs, f, hf, hfree⟩ := exists_converted
  have hreg := registered_of_currentFibers (by rw [hf]; simp)
  have hwf : ∀ b ∈ s.processi, b.val.Wf := fun b hb => (reached_inv hs b hb).toWf
  obtain ⟨s', index, halloc, -⟩ := flsAlloc_first hwf hf hfree
  have hcopy : zeroArg.copyToFails = none := rfl
  have hok := flsAlloc_copies halloc hcopy ⟨0, 9⟩
  exact ⟨s, s', s', _, _, hs, hreg, hok _, hok _, rfl, rfl⟩

end LinuxFibers
