import LinuxFibers.Proof.Reach

/-!
# The directory of a process and its capacity

`fib_open` allocates `nFib` directory entries and every created fiber takes the next one. `DirInv` relates
the two in every reachable state; `directory_bounded_along` says that a run keeps inside the arrays
exactly when each directory it stores into has a free entry. Nothing in `do_fib_create` refuses the others.
-/

namespace LinuxFibers

open HeapTable Runs

/-- The entry has one directory, of the size allocated, with one entry in use per fiber created. -/
def DirInv (nFib : Nat) (p : Process) : Prop :=
  ∃ a stuff, p.listafiberStuff = [⟨a, stuff⟩] ∧ stuff.fiberBaseStuff.val.length = nFib ∧
    (stuff.lenFiberStuff : Int) = p.lastFibId ∧ stuff.lenFiberStuff ≤ nFib

/-- The next entry of every directory lies inside its array. -/
def Process.HasRoom (p : Process) : Prop :=
  ∀ d ∈ p.listafiberStuff, d.val.lenFiberStuff < d.val.fiberBaseStuff.val.length

instance (p : Process) : Decidable p.HasRoom := inferInstanceAs (Decidable (∀ _ ∈ _, _))

/-! ### Storing an entry -/

section store

variable {entry : PidEntry} {a : Nat} {stuff : FiberStuff} {U : Table FiberStuff}

theorem addEntry_single : addEntry entry [⟨a, stuff⟩] = (do
    let stuff ← storeEntry entry stuff
    .ok [⟨a, stuff⟩]) := by
  simp only [addEntry, Table.forEach_cons, Table.forEach_nil, if_true]
  cases storeEntry entry stuff <;> rfl

theorem storeEntry_room (h : stuff.lenFiberStuff < stuff.fiberBaseStuff.val.length) :
    storeEntry entry stuff = .ok
      { fiberBaseStuff := { stuff.fiberBaseStuff with
          val := stuff.fiberBaseStuff.val.set stuff.lenFiberStuff entry }
        lenFiberStuff := stuff.lenFiberStuff + 1 } := if_pos h

theorem storeEntry_full (h : ¬ stuff.lenFiberStuff < stuff.fiberBaseStuff.val.length) :
    storeEntry entry stuff = .error .outOfBounds := if_neg h

end store

section create

variable {nFib : Nat} {p : Process}

/-- A successful store keeps the invariant, with the id counted up. -/
theorem DirInv.store (h : DirInv nFib p) {entry : PidEntry} {U : Table FiberStuff}
    (hU : addEntry entry p.listafiberStuff = .ok U) {threads : Table Thread} {fibers : Table Fiber} :
    DirInv nFib
      { p with
        listathread := threads
        listafiber := fibers
        listafiberStuff := U
        lastFibId := p.lastFibId + 1 } := by
  obtain ⟨a, stuff, hp, hsize, hlen, hle⟩ := h
  rw [hp, addEntry_single] at hU
  obtain ⟨stuff', hstore, hU⟩ := bind_eq_ok.mp hU
  obtain rfl := Except.ok.inj hU
  by_cases hroom : stuff.lenFiberStuff < stuff.fiberBaseStuff.val.length
  · rw [storeEntry_room hroom] at hstore
    obtain rfl := Except.ok.inj hstore
    refine ⟨a, _, rfl, by simpa using hsize, ?_, ?_⟩
    · simp only
      omega
    · simp only
      omega
  · rw [storeEntry_full hroom] at hstore
    cases hstore

theorem DirInv.lastFibId_lt (h : DirInv nFib p) (hroom : p.HasRoom) (hcap : (nFib : Int) ≤ pidMax) :
    p.lastFibId < pidMax := by
  obtain ⟨a, stuff, hp, hsize, hlen, -⟩ := h
  have := hroom ⟨a, stuff⟩ (by rw [hp]; exact List.mem_singleton_self _)
  simp only at this
  omega

theorem DirInv.of_eq (h : DirInv nFib p) {p' : Process} (hstuff : p'.listafiberStuff = p.listafiberStuff)
    (hid : p'.lastFibId = p.lastFibId) : DirInv nFib p' := by
  unfold DirInv
  rw [hstuff, hid]
  exact h

end create

/-! ### The invariant in every reachable state -/

theorem dirInv_entry (nFib : Nat) : EntryInvariant nFib fun _ p => DirInv nFib p where
  mono _ h := h
  opened n tgid := ⟨_, _, rfl, by simp, rfl, by simp⟩
  convert {c cpu now p p' x x'} hinv h hok := by
    by_cases hkeep : x.flagControllo = true ∨ ∃ t ∈ p.listathread, t.val.id = c.pid
    · rw [convertProcess_keep hkeep] at hok
      cases hok
      exact h
    · push Not at hkeep
      rw [convertProcess_new (by simpa using hkeep.1) hkeep.2] at hok
      obtain ⟨U, -, hU, rfl, -⟩ := convertThread_ok hinv.threadBound hok
      exact h.store hU
  create hinv h hok := by
    obtain ⟨U, b, -, hU, rfl, rfl, -⟩ := createProcess_ok hok
    exact h.store hU
  switch {c id now p p' x x'} hinv h hok := by
    obtain ⟨q, y, hq, hcase⟩ := switchProcess_spec hinv.toWf c id now x
    rw [hok, Except.ok.injEq, Prod.mk.injEq] at hq
    obtain ⟨rfl, rfl⟩ := hq
    cases hcase <;> exact h
  fls {σ body c p p' x x' n} hbody hinv h hok := by
    rcases hinv.carries_or c.pid with hno | ⟨thread, r, f, hc⟩
    · rw [runnerProcess_none hno] at hok
      cases hok
      exact h
    · rw [runnerProcess_eq hinv.toWf hc] at hok
      obtain ⟨⟨f', x₁⟩, -, hok⟩ := bind_eq_ok.mp hok
      cases hok
      exact h

theorem reached_dirInv {nFib : Nat} {s : State} (h : Reached nFib s) : ∀ b ∈ s.processi, DirInv nFib b.val :=
  fun b hb => ((dirInv_entry nFib).reached h b hb).2

/-! ### When a creation succeeds -/

/-- The entries in which an operation creates a fiber. `fib_convert` stops creating at the first entry that
holds the thread. -/
def creationEntries : Op → State → List (Block Process)
  | .fibCreate c _ _ _ _, s => s.processi.filter fun b => b.val.id = c.tgid
  | .fibConvert c _, s => (s.processi.filter fun b => b.val.id = c.tgid).takeWhile fun b =>
      ∀ t ∈ b.val.listathread, t.val.id ≠ c.pid
  | _, _ => []

section walk

variable {nFib : Nat} {c : Task} {cpu : Cpu} {func parameters stackPointer stackSize : BitVec 64} {p : Process}
  {now : Timespec} {T : Table Process}

/-- Why an entry takes no new fiber: there is no next id, or the next entry of a directory lies outside its array. -/
def Process.Overflows (p : Process) (e : Fault) : Prop :=
  pidMax ≤ p.lastFibId ∧ e = .signedOverflow ∨ p.lastFibId < pidMax ∧ ¬ p.HasRoom ∧ e = .outOfBounds

theorem doFibCreate_error (h : DirInv nFib p) (flag : Int) (m : Kmem) {e : Fault} :
    doFibCreate c cpu func parameters stackPointer stackSize flag p m = .error e ↔ p.Overflows e := by
  obtain ⟨a, stuff, hp, -⟩ := h
  have hroom : p.HasRoom ↔ stuff.lenFiberStuff < stuff.fiberBaseStuff.val.length := by
    simp only [Process.HasRoom, hp, List.mem_singleton, forall_eq]
  rw [Process.Overflows, hroom]
  by_cases hlast : p.lastFibId < pidMax
  · by_cases hfree : stuff.lenFiberStuff < stuff.fiberBaseStuff.val.length
    · simp [doFibCreate, kzalloc, nextFibId, hlast, hp, addEntry_single, storeEntry_room hfree, bind, Except.bind, hfree]
    · simp [doFibCreate, kzalloc, nextFibId, hlast, hp, addEntry_single, storeEntry_full hfree, bind, Except.bind, hfree,
        eq_comm]
  · simp [doFibCreate, nextFibId, hlast, bind, Except.bind, not_lt.mp hlast, eq_comm]

theorem createProcess_error (h : DirInv nFib p) (x : CreateVars) {e : Fault} :
    createProcess c cpu func parameters stackPointer stackSize p x = .error e ↔ p.Overflows e := by
  rw [← doFibCreate_error (c := c) h 1 x.kmem]
  exact bind_ok_eq_error fun r => ⟨_, rfl⟩

theorem convertThread_error (h : DirInv nFib p) (x : ConvertVars) {e : Fault} :
    convertThread c cpu now p x = .error e ↔ p.Overflows e := by
  have hthread : DirInv nFib (doThreadCreate p c.pid x.kmem).2.1 := h.of_eq rfl rfl
  have hsame : (doThreadCreate p c.pid x.kmem).2.1.Overflows e ↔ p.Overflows e := Iff.rfl
  rw [← hsame, ← doFibCreate_error (c := c) hthread 0 (doThreadCreate p c.pid x.kmem).2.2]
  exact bind_ok_eq_error fun r => ⟨_, rfl⟩

/-- Where the arrays are shorter than the ids are many, an entry takes a new fiber exactly when there is room. -/
theorem DirInv.overflows_iff (h : DirInv nFib p) (hcap : (nFib : Int) ≤ pidMax) :
    (∀ e, ¬ p.Overflows e) ↔ p.HasRoom := by
  constructor
  · intro hno
    by_contra hroom
    by_cases hlast : p.lastFibId < pidMax
    · exact hno .outOfBounds (.inr ⟨hlast, hroom, rfl⟩)
    · exact hno .signedOverflow (.inl ⟨not_lt.mp hlast, rfl⟩)
  · rintro hroom e (⟨hlast, -⟩ | ⟨-, hfull, -⟩)
    · have := h.lastFibId_lt hroom hcap
      omega
    · exact hfull hroom

/-- Arrays shorter than the ids are many fill up first. -/
theorem Process.Overflows.outOfBounds {e : Fault} (h : p.Overflows e) (hinv : DirInv nFib p)
    (hcap : (nFib : Int) < pidMax) : e = .outOfBounds := by
  obtain ⟨a, stuff, -, -, hlen, hbound⟩ := hinv
  rcases h with ⟨hlast, -⟩ | ⟨-, -, he⟩
  · omega
  · exact he

theorem createProcess_iff (h : DirInv nFib p) (hcap : (nFib : Int) ≤ pidMax) (x : CreateVars) :
    (∃ r, createProcess c cpu func parameters stackPointer stackSize p x = .ok r) ↔ p.HasRoom := by
  simp only [exists_ok_iff, ne_eq, createProcess_error h, h.overflows_iff hcap]

theorem convertThread_iff (h : DirInv nFib p) (hcap : (nFib : Int) ≤ pidMax) (x : ConvertVars) :
    (∃ r, convertThread c cpu now p x = .ok r) ↔ p.HasRoom := by
  simp only [exists_ok_iff, ne_eq, convertThread_error h, h.overflows_iff hcap]

theorem convertThread_flag {p' : Process} {x x' : ConvertVars}
    (hok : convertThread c cpu now p x = .ok (p', x')) : x'.flagControllo = x.flagControllo := by
  obtain ⟨⟨b, p₁, m₁⟩, -, hok⟩ := bind_eq_ok.mp hok
  cases hok
  rfl

/-- The walk of `fib_convert` faults exactly when an entry it creates in is full. -/
theorem convertWalk_iff (hT : ∀ b ∈ T, DirInv nFib b.val) (hcap : (nFib : Int) ≤ pidMax)
    (x : ConvertVars) :
    (∃ r, T.forEach (fun p => p.id = c.tgid) (convertProcess c cpu now) x = .ok r) ↔
      x.flagControllo = true ∨ ∀ b ∈ (T.filter fun b => b.val.id = c.tgid).takeWhile fun b =>
        ∀ t ∈ b.val.listathread, t.val.id ≠ c.pid, b.val.HasRoom := by
  induction T generalizing x with
  | nil => exact ⟨fun _ => .inr fun b hb => absurd hb List.not_mem_nil, fun _ => ⟨_, rfl⟩⟩
  | cons b T ih =>
    have hrest := ih fun d hd => hT d (List.mem_cons_of_mem _ hd)
    by_cases hid : b.val.id = c.tgid
    · rw [List.filter_cons_of_pos (by simpa using hid), Table.forEach_cons, if_pos hid]
      by_cases hkeep : x.flagControllo = true ∨ ∃ t ∈ b.val.listathread, t.val.id = c.pid
      · -- the flag is set from here on, and the entries before this one are the only ones created in
        obtain ⟨⟨U, x₁⟩, hr⟩ := (hrest { x with flagControllo := true }).mpr (.inl rfl)
        simp only [convertProcess_keep hkeep, bind, Except.bind, hr]
        refine ⟨fun _ => ?_, fun _ => ⟨_, rfl⟩⟩
        rcases hkeep with hflag | hknown
        · exact .inl hflag
        · right
          intro d hd
          rw [List.takeWhile_cons_of_neg] at hd
          · cases hd
          · simpa using hknown
      · push Not at hkeep
        have hflag : x.flagControllo = false := by simpa using hkeep.1
        rw [convertProcess_new hflag hkeep.2, List.takeWhile_cons_of_pos (by simpa using hkeep.2)]
        simp only [hflag, Bool.false_eq_true, false_or, List.forall_mem_cons]
        have hhead : (∃ r, convertThread c cpu now b.val x = .ok r) ↔ b.val.HasRoom :=
          convertThread_iff (hT b List.mem_cons_self) hcap x
        rw [← hhead]
        constructor
        · rintro ⟨r, hok⟩
          obtain ⟨⟨p', x₁⟩, hb, hok⟩ := bind_eq_ok.mp hok
          obtain ⟨r, hr, -⟩ := bind_eq_ok.mp hok
          have hflag₁ : x₁.flagControllo ≠ true := by rw [convertThread_flag hb, hflag]; simp
          exact ⟨⟨_, hb⟩, ((hrest x₁).mp ⟨_, hr⟩).resolve_left hflag₁⟩
        · rintro ⟨⟨⟨p', x₁⟩, hb⟩, hroom⟩
          obtain ⟨⟨U, x₂⟩, hr⟩ := (hrest x₁).mpr (.inr hroom)
          simp only [hb, bind, Except.bind, hr]
          exact ⟨_, rfl⟩
    · rw [List.filter_cons_of_neg (by simpa using hid), Table.forEach_cons, if_neg hid, ← hrest]
      constructor
      · rintro ⟨r, hok⟩
        obtain ⟨r, hr, -⟩ := bind_eq_ok.mp hok
        exact ⟨r, hr⟩
      · rintro ⟨r, hr⟩
        rw [hr]
        exact ⟨_, rfl⟩

end walk

/-! ### One operation against the capacity -/

/-- `fib_open`, `fib_convert`, `fib_create`, `fib_switch_to` and `fib_release`. -/
def Op.onFibers : Op → Prop
  | .fibOpen _ | .fibRelease _ | .fibConvert _ _ | .fibCreate _ _ _ _ _ | .fibSwitchTo _ _ _ => True
  | .flsAlloc _ | .flsFree _ _ | .flsGetValue _ _ | .flsSetValue _ _ _ | .user _ _ => False

/-- The operation keeps inside the directories: it stores at no index past the entries allocated, no
directory has more entries in use than that, and a creation that does not fit changes no entry. -/
def DirectoryBounded (nFib : Nat) (s : State) (op : Op) : Prop :=
  ∃ s' out, step nFib op s = .ok (s', out) ∧
    (∀ b ∈ s'.processi, ∀ d ∈ b.val.listafiberStuff, d.val.lenFiberStuff ≤ nFib) ∧
    ((∃ b ∈ creationEntries op s, ∃ d ∈ b.val.listafiberStuff, nFib ≤ d.val.lenFiberStuff) →
      s'.processi = s.processi)

/-- Every directory the operation adds an entry to has fewer than `nFib` in use. -/
def DirectoryFree (nFib : Nat) (s : State) (op : Op) : Prop :=
  ∀ b ∈ creationEntries op s, ∀ d ∈ b.val.listafiberStuff, d.val.lenFiberStuff < nFib

section bounded

variable {n : Nat} {s : State}

theorem DirInv.hasRoom_iff {p : Process} (h : DirInv n p) :
    p.HasRoom ↔ ∀ d ∈ p.listafiberStuff, d.val.lenFiberStuff < n := by
  obtain ⟨a, stuff, hp, hsize, -⟩ := h
  simp only [Process.HasRoom, hp, List.mem_singleton, forall_eq, hsize]

theorem mem_creationEntries {op : Op} {b : Block Process} (hb : b ∈ creationEntries op s) :
    b ∈ s.processi := by
  cases op with
  | fibConvert c now => exact List.mem_of_mem_filter ((List.takeWhile_sublist _).subset hb)
  | fibCreate c func parameters stackPointer stackSize => exact List.mem_of_mem_filter hb
  | fibOpen | fibRelease | fibSwitchTo | flsAlloc | flsFree | flsGetValue | flsSetValue | user => cases hb

theorem step_ok_iff (h : Reached n s) (hcap : (n : Int) ≤ pidMax) {op : Op} (hop : op.onFibers) :
    (∃ r, step n op s = .ok r) ↔ ∀ b ∈ creationEntries op s, b.val.HasRoom := by
  have hdir := reached_dirInv h
  cases op with
  | fibOpen c => exact ⟨fun _ b hb => absurd hb List.not_mem_nil, fun _ => ⟨_, rfl⟩⟩
  | fibRelease c => exact ⟨fun _ b hb => absurd hb List.not_mem_nil, fun _ => ⟨_, rfl⟩⟩
  | fibConvert c now =>
    have hwalk : (∃ r, forEachProcess c.tgid (convertProcess c (s.cpu c) now) s.processi
        ⟨s.kmem, false, -1⟩ = .ok r) ↔ ∀ b ∈ creationEntries (.fibConvert c now) s, b.val.HasRoom := by
      rw [forEachProcess_eq, convertWalk_iff hdir hcap]
      simp only [Bool.false_eq_true, false_or, creationEntries]
    rw [← hwalk]
    constructor
    · rintro ⟨r, hok⟩
      obtain ⟨r, hrun, -⟩ := bind_eq_ok.mp hok
      obtain ⟨r, hr, -⟩ := bind_eq_ok.mp hrun
      exact ⟨r, hr⟩
    · rintro ⟨r, hr⟩
      simp only [step, fibConvert, hr, bind, Except.bind]
      exact ⟨_, rfl⟩
  | fibCreate c func parameters stackPointer stackSize =>
    have hbody : ∀ b ∈ s.processi, b.val.id = c.tgid → ∀ x,
        (∃ r, createProcess c (s.cpu c) func parameters stackPointer stackSize b.val x = .ok r) ↔
          b.val.HasRoom :=
      fun b hb _ x => createProcess_iff (hdir b hb) hcap x
    have hmem : (∀ b ∈ creationEntries (.fibCreate c func parameters stackPointer stackSize) s,
        b.val.HasRoom) ↔ ∀ b ∈ s.processi, b.val.id = c.tgid → b.val.HasRoom := by
      simp [creationEntries]
    rw [hmem, ← forEachProcess_ok_iff Process.HasRoom hbody ⟨s.kmem, none⟩]
    constructor
    · rintro ⟨r, hok⟩
      obtain ⟨r, hrun, -⟩ := bind_eq_ok.mp hok
      obtain ⟨r, hr, -⟩ := bind_eq_ok.mp hrun
      exact ⟨r, hr⟩
    · rintro ⟨r, hr⟩
      simp only [step, fibCreate, hr, bind, Except.bind]
      exact ⟨_, rfl⟩
  | fibSwitchTo c id now =>
    refine ⟨fun _ b hb => absurd hb List.not_mem_nil, fun _ => ?_⟩
    have hbody : ∀ b ∈ s.processi, b.val.id = c.tgid → ∀ x,
        (∃ r, switchProcess c id now b.val x = .ok r) ↔ True := by
      intro b hb _ x
      obtain ⟨p', x', hok, -⟩ := switchProcess_spec (reached_inv h b hb).toWf c id now x
      exact iff_true_intro ⟨_, hok⟩
    obtain ⟨r, hr⟩ := (forEachProcess_ok_iff (fun _ => True) hbody ⟨s.kmem, s.cpu c, -1⟩).mpr
      fun _ _ _ => trivial
    simp only [step, fibSwitchTo, hr, bind, Except.bind]
    exact ⟨_, rfl⟩
  | flsAlloc | flsFree | flsGetValue | flsSetValue | user => exact hop.elim

end bounded

theorem directory_bounded_iff {s : State} (h : Reached nFib s) {op : Op} (hop : op.onFibers) :
    DirectoryBounded nFib s op ↔ DirectoryFree nFib s op := by
  have hroom : (∀ b ∈ creationEntries op s, b.val.HasRoom) ↔ DirectoryFree nFib s op :=
    forall₂_congr fun b hb => (reached_dirInv h b (mem_creationEntries hb)).hasRoom_iff
  rw [← hroom, ← step_ok_iff h (by decide) hop]
  constructor
  · rintro ⟨s', out, hok, -⟩
    exact ⟨_, hok⟩
  · rintro ⟨⟨s', out⟩, hok⟩
    have h' := h.next hok
    refine ⟨s', out, hok, fun b hb d hd => ?_, fun ⟨b, hb, d, hd, hle⟩ => ?_⟩
    · obtain ⟨a, stuff, hp, -, -, hle⟩ := reached_dirInv h' b hb
      rw [hp, List.mem_singleton] at hd
      rw [hd]
      exact hle
    · have := hroom.mp ((step_ok_iff h (by decide) hop).mp ⟨_, hok⟩) b hb d hd
      omega

/-! ### Every run against the capacity -/

/-- **The directory and its 1000 entries.** A run of `fib_open`, `fib_convert`, `fib_create`,
`fib_switch_to` and `fib_release` keeps inside the directories from beginning to end exactly when no
operation of it adds an entry to a directory that has `nFib` in use. -/
theorem directory_bounded_along {s : State} (h : Init s) {ops : List Op} (hops : ∀ op ∈ ops, op.onFibers) :
    Along (Performs nFib) (DirectoryBounded nFib) ops s ↔ Along (Performs nFib) (DirectoryFree nFib) ops s := by
  refine along_iff (I := Reached nFib) ?_ ?_ (Reachable.of_init h)
  · intro t op ho ht
    exact directory_bounded_iff ht (hops op ho)
  · rintro t op - t' ht - ⟨out, hok⟩
    exact ht.next hok

/-- One process that opens the device, converts a thread and creates a fiber. -/
theorem directory_bounded_along_created :
    Along (Performs nFib) (DirectoryBounded nFib)
      [.fibOpen ⟨1, 1⟩, .fibConvert ⟨1, 1⟩ ⟨0, 5⟩, .fibCreate ⟨1, 1⟩ 16 0 4096 4096] empty ↔
    Along (Performs nFib) (DirectoryFree nFib)
      [.fibOpen ⟨1, 1⟩, .fibConvert ⟨1, 1⟩ ⟨0, 5⟩, .fibCreate ⟨1, 1⟩ 16 0 4096 4096] empty :=
  directory_bounded_along ⟨rfl, rfl⟩ (by simp [Op.onFibers])

/-! ### One creation too many -/

/-- One entry, of the process `1`, with `k` fibers created so far. -/
def OneEntry (k : Nat) (s : State) : Prop :=
  ∃ b, s.processi = [b] ∧ b.val.id = 1 ∧ b.val.lastFibId = k

theorem OneEntry.free_iff {k : Nat} {s : State} (h : OneEntry k s) (hs : Reached nFib s) :
    DirectoryFree nFib s (.fibCreate ⟨1, 1⟩ 16 0 4096 4096) ↔ k < nFib := by
  obtain ⟨b, hb, hid, hlast⟩ := h
  obtain ⟨a, stuff, hp, -, hlen, -⟩ := reached_dirInv hs b (by simp [hb])
  have hk : stuff.lenFiberStuff = k := by omega
  simp [DirectoryFree, creationEntries, hb, hid, hp, hk]

theorem OneEntry.fibCreate {k : Nat} {s s' : State} {out : Option Int} (h : OneEntry k s)
    (hok : step nFib (.fibCreate ⟨1, 1⟩ 16 0 4096 4096) s = .ok (s', out)) : OneEntry (k + 1) s' := by
  obtain ⟨b, hb, hid, hlast⟩ := h
  obtain ⟨⟨s₁, r⟩, hrun, hok⟩ := bind_eq_ok.mp hok
  cases hok
  obtain ⟨⟨T, x⟩, hwalk, hrun⟩ := bind_eq_ok.mp hrun
  cases hrun
  rw [hb, forEachProcess_eq] at hwalk
  obtain ⟨p, x₁, U, hcreate, hrest, rfl⟩ := Table.forEach_cons_pos hid hwalk
  cases hrest
  obtain ⟨U, d, -, -, -, rfl, -⟩ := createProcess_ok hcreate
  refine ⟨_, rfl, hid, ?_⟩
  simp only [addFiber]
  omega

/-- Creations that fill a directory and go one further leave it. -/
theorem OneEntry.not_along {j : Nat} : ∀ {k : Nat} {s : State}, OneEntry k s → Reached nFib s → k + j = nFib →
    ¬ Along (Performs nFib) (DirectoryBounded nFib)
      (List.replicate (j + 1) (.fibCreate ⟨1, 1⟩ 16 0 4096 4096)) s := by
  induction j with
  | zero =>
    intro k s h hs hk hrun
    have hop : Op.onFibers (.fibCreate ⟨1, 1⟩ 16 0 4096 4096) := trivial
    have := (h.free_iff hs).mp ((directory_bounded_iff hs hop).mp hrun.1)
    omega
  | succ j ih =>
    intro k s h hs hk hrun
    obtain ⟨⟨s', out, hok, -⟩, hrest⟩ := hrun
    exact ih (h.fibCreate hok) (hs.next hok) (by omega) (hrest s' ⟨out, hok⟩)

/-- `fib_open` and 1001 calls of `fib_create`: the last one stores past the 1000 entries. -/
theorem directory_overflows : ¬ Along (Performs nFib) (DirectoryBounded nFib)
    (.fibOpen ⟨1, 1⟩ :: List.replicate 1001 (.fibCreate ⟨1, 1⟩ 16 0 4096 4096)) empty := by
  rintro ⟨-, hrest⟩
  have hopen : step nFib (.fibOpen ⟨1, 1⟩) empty = .ok (fibOpen nFib ⟨1, 1⟩ empty, some 0) := rfl
  have hs := (reached_empty nFib).next hopen
  have hone : OneEntry 0 (fibOpen nFib ⟨1, 1⟩ empty) := ⟨_, rfl, rfl, rfl⟩
  exact hone.not_along hs rfl (hrest _ ⟨_, hopen⟩)

end LinuxFibers
