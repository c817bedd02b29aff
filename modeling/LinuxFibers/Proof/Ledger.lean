import LinuxFibers.Base.Ledger
import LinuxFibers.Proof.Directory
import LinuxFibers.Proof.Registry

/-!
# The ledger of the allocator

Every block that an operation takes from `kzalloc` is freed again by the operation or hangs off an entry of the
caller's process, and in one place only. `release_leaks` compares that with what `fib_release` gives back: the array
of the directory and the names of its entries are never freed, every other block is freed once.
-/

namespace LinuxFibers

open HeapTable Runs

/-! ### The blocks of an entry -/

/-- A fiber and its four areas. -/
def fiberBlocks (b : Block Fiber) : List Nat :=
  [b.addr, b.val.fls.addr, b.val.bitmapFls.addr, b.val.fpu.addr, b.val.regs.addr]

/-- The array of a directory and the names in it. -/
def arrayBlocks (d : Block FiberStuff) : List Nat :=
  d.val.fiberBaseStuff.addr :: d.val.fiberBaseStuff.val.filterMap fun e => e.name.map Block.addr

namespace Process

/-- The blocks below an entry that `fib_release` gives back. -/
def reclaimed (p : Process) : List Nat :=
  p.listathread.addrs ++ p.listafiber.flatMap fiberBlocks ++ p.listafiberStuff.addrs

/-- The blocks below an entry that it does not. -/
def unreclaimed (p : Process) : List Nat := p.listafiberStuff.flatMap arrayBlocks

def blocks (p : Process) : List Nat := p.reclaimed ++ p.unreclaimed

/-- One directory, whose entries from the next one on have no name yet. -/
def Spare (p : Process) : Prop :=
  ∃ a stuff, p.listafiberStuff = [⟨a, stuff⟩] ∧
    ∀ i e, stuff.lenFiberStuff ≤ i → stuff.fiberBaseStuff.val[i]? = some e → e.name = none

end Process

/-- A table of fibers that an assignment has left at its addresses. -/
theorem fiberBlocks_update {T : Table Fiber} {a : Nat} {g : Fiber → Fiber}
    (hg : ∀ f, T.deref a = some f → ∀ b, fiberBlocks ⟨b, g f⟩ = fiberBlocks ⟨b, f⟩) (hnd : T.addrs.Nodup) :
    (T.update a g).flatMap fiberBlocks = T.flatMap fiberBlocks := by
  rw [Table.update, List.flatMap_map]
  refine List.flatMap_congr fun b hb => ?_
  by_cases hba : b.addr = a
  · rw [if_pos hba]
    exact hg b.val (hba ▸ Table.deref_of_mem hnd hb) b.addr
  · rw [if_neg hba]

/-! ### What the operations do to the blocks of one entry -/

section entry

variable {nFib : Nat} {p p' : Process} {c : Task} {cpu : Cpu} {now : Timespec}

/-- A stored entry adds its name. -/
theorem Process.Spare.store (h : p.Spare) {name : Nat} {id : Int} {U : Table FiberStuff}
    (hU : addEntry (fibersEntryLog name id) p.listafiberStuff = .ok U) :
    (∃ a stuff, U = [⟨a, stuff⟩] ∧
        ∀ i e, stuff.lenFiberStuff ≤ i → stuff.fiberBaseStuff.val[i]? = some e → e.name = none) ∧
      U.addrs = p.listafiberStuff.addrs ∧ (U.flatMap arrayBlocks).Perm (name :: p.unreclaimed) := by
  obtain ⟨a, stuff, hp, hspare⟩ := h
  rw [hp, addEntry_single] at hU
  obtain ⟨stuff', hstore, hU⟩ := bind_eq_ok.mp hU
  cases hU
  have hroom : stuff.lenFiberStuff < stuff.fiberBaseStuff.val.length := by
    by_contra hroom
    rw [storeEntry_full hroom] at hstore
    cases hstore
  rw [storeEntry_room hroom] at hstore
  cases hstore
  refine ⟨⟨a, _, rfl, fun i e hi he => ?_⟩, by rw [hp]; rfl, ?_⟩
  · have hne : stuff.lenFiberStuff ≠ i := by
      simp only at hi
      omega
    rw [List.getElem?_set_ne hne] at he
    exact hspare i e (by simp only at hi; omega) he
  · have hfree := List.getElem?_eq_getElem hroom
    have hnone := hspare _ _ (le_refl _) hfree
    have hset := filterMap_set_perm (f := fun e : PidEntry => e.name.map Block.addr) (e := fibersEntryLog name id)
      hfree (by rw [hnone]; rfl) (a := name) rfl
    simp only [Process.unreclaimed, hp, arrayBlocks, List.flatMap_cons, List.flatMap_nil, List.append_nil]
    exact (hset.cons _).trans (List.Perm.swap _ _ _)

theorem newProcess_blocks {tgid : Int} {a b : Nat} : (newProcess nFib tgid a b).blocks = [a, b] := by
  have hnames : (List.replicate nFib ({} : PidEntry)).filterMap (fun e => e.name.map Block.addr) = [] := by
    rw [List.filterMap_eq_nil_iff]
    intro e he
    rw [List.eq_of_mem_replicate he]
    rfl
  simp only [Process.blocks, Process.reclaimed, Process.unreclaimed, newProcess, arrayBlocks, List.flatMap_cons,
    List.flatMap_nil, hnames]
  rfl

theorem spare_entry (nFib : Nat) : EntryInvariant nFib fun _ p => p.Spare where
  mono _ h := h
  opened n tgid := by
    refine ⟨_, _, rfl, fun i e _ he => ?_⟩
    rw [List.eq_of_mem_replicate (List.mem_of_getElem? he)]
  convert {c cpu now p p' x x'} hinv h hok := by
    by_cases hkeep : x.flagControllo = true ∨ ∃ t ∈ p.listathread, t.val.id = c.pid
    · rw [convertProcess_keep hkeep] at hok
      cases hok
      exact h
    · push Not at hkeep
      rw [convertProcess_new (by simpa using hkeep.1) hkeep.2] at hok
      obtain ⟨U, -, hU, rfl, -⟩ := convertThread_ok hinv.threadBound hok
      exact (h.store hU).1
  create hinv h hok := by
    obtain ⟨U, b, -, hU, rfl, rfl, -⟩ := createProcess_ok hok
    exact (h.store hU).1
  switch {c id now p p' x x'} hinv h hok := by
    obtain ⟨q, y, hq, hcase⟩ := switchProcess_spec hinv.toWf c id now x
    rw [hok, Except.ok.injEq, Prod.mk.injEq] at hq
    obtain ⟨rfl, rfl⟩ := hq
    cases hcase <;> exact h
  fls {σ body c p p' x x' n} hbody hinv h hok := by
    rcases hinv.carries_or c.pid with hno | ⟨thread, r, f, hc⟩
    · rw [runnerProcess_none hno] at hok
      cases hok
      exact h
    · rw [runnerProcess_eq hinv.toWf hc] at hok
      obtain ⟨⟨f', x₁⟩, -, hok⟩ := bind_eq_ok.mp hok
      cases hok
      exact h

theorem createProcess_handsOut {func parameters stackPointer stackSize : BitVec 64} {x x' : CreateVars}
    (hspare : p.Spare) (hok : createProcess c cpu func parameters stackPointer stackSize p x = .ok (p', x')) :
    x.kmem.freed ⊆ x'.kmem.freed ∧
      HandsOut x.kmem.next (x.kmem.freed ++ p.blocks) x'.kmem.next (x'.kmem.freed ++ p'.blocks) := by
  obtain ⟨U, b, -, hU, rfl, rfl, rfl⟩ := createProcess_ok hok
  obtain ⟨-, haddrs, harray⟩ := hspare.store hU
  refine ⟨List.Subset.refl _, 6, rfl, List.perm_iff_count.mpr fun a => ?_⟩
  have hcount := harray.count_eq a
  simp only [Process.blocks, Process.reclaimed, Process.unreclaimed, addFiber, haddrs, newFiber, fiberBlocks,
    List.flatMap_cons, List.count_append, List.count_cons, List.count_nil, List.range', Nat.add_assoc,
    Nat.reduceAdd] at hcount ⊢
  omega

/-- The `timespec` is handed out last and given back at once. -/
theorem convertThread_handsOut {x x' : ConvertVars} (hinv : p.Inv x.kmem.next) (hspare : p.Spare)
    (hok : convertThread c cpu now p x = .ok (p', x')) :
    x.kmem.freed ⊆ x'.kmem.freed ∧
      HandsOut x.kmem.next (x.kmem.freed ++ p.blocks) x'.kmem.next (x'.kmem.freed ++ p'.blocks) := by
  obtain ⟨U, -, hU, rfl, hkmem, -⟩ := convertThread_ok hinv.threadBound hok
  obtain ⟨-, haddrs, harray⟩ := hspare.store hU
  rw [hkmem]
  refine ⟨List.subset_cons_self _ _, 8, rfl, List.perm_iff_count.mpr fun a => ?_⟩
  have hcount := harray.count_eq a
  simp only [Process.blocks, Process.reclaimed, Process.unreclaimed, haddrs, newFiber, fiberBlocks, Table.addrs_cons,
    List.flatMap_cons, List.count_append, List.count_cons, List.count_nil, List.range', Nat.add_assoc,
    Nat.reduceAdd] at hcount ⊢
  omega

theorem convertProcess_handsOut {x x' : ConvertVars} (hinv : p.Inv x.kmem.next) (hspare : p.Spare)
    (hok : convertProcess c cpu now p x = .ok (p', x')) :
    x.kmem.freed ⊆ x'.kmem.freed ∧
      HandsOut x.kmem.next (x.kmem.freed ++ p.blocks) x'.kmem.next (x'.kmem.freed ++ p'.blocks) := by
  by_cases hkeep : x.flagControllo = true ∨ ∃ t ∈ p.listathread, t.val.id = c.pid
  · rw [convertProcess_keep hkeep] at hok
    cases hok
    exact ⟨List.Subset.refl _, .of_perm (List.Perm.refl _)⟩
  · push Not at hkeep
    rw [convertProcess_new (by simpa using hkeep.1) hkeep.2] at hok
    exact convertThread_handsOut hinv hspare hok

/-- Assignments that store at no address. -/
theorem blocks_modFiber {r : Nat} {g : Fiber → Fiber} (hnd : p.listafiber.addrs.Nodup)
    (hg : ∀ f, p.listafiber.deref r = some f → ∀ b, fiberBlocks ⟨b, g f⟩ = fiberBlocks ⟨b, f⟩) :
    (p.modFiber r g).blocks = p.blocks := by
  have hfibers := fiberBlocks_update hg hnd
  simp only [Process.blocks, Process.reclaimed, Process.unreclaimed, Process.modFiber_listathread,
    Process.modFiber_listafiber, Process.modFiber_listafiberStuff, hfibers]

theorem blocks_modThread {a : Nat} {g : Thread → Thread} : (p.modThread a g).blocks = p.blocks := by
  simp only [Process.blocks, Process.reclaimed, Process.unreclaimed, Process.modThread_listathread,
    Process.modThread_listafiber, Process.modThread_listafiberStuff, Table.addrs_update]

theorem blocks_exchanged (hwf : p.Wf) {thread old new : Nat} :
    (exchanged thread old new now cpu p).blocks = p.blocks := by
  have haddrs : (p.modFiber old (leaveFiber cpu now)).listafiber.addrs.Nodup := by
    rw [Process.modFiber_listafiber, Table.addrs_update]
    exact hwf.fiberAddrs
  have hleave : (p.modFiber old (leaveFiber cpu now)).blocks = p.blocks :=
    blocks_modFiber hwf.fiberAddrs fun _ _ _ => rfl
  have henter : ((p.modFiber old (leaveFiber cpu now)).modFiber new (enterFiber thread now)).blocks =
      (p.modFiber old (leaveFiber cpu now)).blocks := blocks_modFiber haddrs fun _ _ _ => rfl
  rw [exchanged, blocks_modThread, henter, hleave]

theorem blocks_countFailed (hwf : p.Wf) {old : Nat} : (countFailed old p).blocks = p.blocks :=
  blocks_modFiber hwf.fiberAddrs fun _ _ _ => rfl

theorem switchProcess_handsOut {id : Int} {x x' : SwitchVars} (hwf : p.Wf)
    (hok : switchProcess c id now p x = .ok (p', x')) :
    x.kmem.freed ⊆ x'.kmem.freed ∧
      HandsOut x.kmem.next (x.kmem.freed ++ p.blocks) x'.kmem.next (x'.kmem.freed ++ p'.blocks) := by
  obtain ⟨q, y, hq, hcase⟩ := switchProcess_spec hwf c id now x
  rw [hok, Except.ok.injEq, Prod.mk.injEq] at hq
  obtain ⟨rfl, rfl⟩ := hq
  cases hcase with
  | notConverted | absent => exact ⟨List.Subset.refl _, .of_perm (List.Perm.refl _)⟩
  | self | busy =>
    refine ⟨List.Subset.refl _, .of_perm ?_⟩
    rw [blocks_countFailed hwf]
  | done =>
    rw [blocks_exchanged hwf]
    exact ⟨List.subset_cons_self _ _, 1, rfl, List.Perm.refl _⟩

theorem runnerProcess_blocks {σ : Type} {body : Fiber → σ → Except Fault (Fiber × σ)} (hbody : KeepsBinding body)
    {x x' : σ} (hwf : p.Wf) (hok : forEachThread c.pid (runnerThread body) p x = .ok (p', x')) :
    p'.blocks = p.blocks := by
  rcases hwf.carries_or c.pid with hno | ⟨thread, r, f, hc⟩
  · rw [runnerProcess_none hno] at hok
    cases hok
    rfl
  · rw [runnerProcess_eq hwf hc] at hok
    obtain ⟨⟨f', x₁⟩, hf, hok⟩ := bind_eq_ok.mp hok
    cases hok
    obtain ⟨fls, bitmap, rfl⟩ := hbody _ _ _ _ hf
    refine blocks_modFiber hwf.fiberAddrs fun g hg b => ?_
    obtain rfl : f = g := Option.some.inj (hc.fiber.symm.trans hg)
    rfl

end entry

/-! ### What one operation does to the blocks of a process -/

/-- The blocks that the entries of a process hold. -/
def heldBy (tgid : Int) (s : State) : List Nat := s.processi.nodeBlocks (fun p => p.id = tgid) Process.blocks

/-- From `s` to `s'` the process loses no block, and no other process is touched. -/
structure Conserves (tgid : Int) (s s' : State) : Prop where
  freed : s.kmem.freed ⊆ s'.kmem.freed
  handed : HandsOut s.kmem.next (s.kmem.freed ++ heldBy tgid s) s'.kmem.next (s'.kmem.freed ++ heldBy tgid s')
  others : (s'.processi.filter fun b => ¬ b.val.id = tgid) = s.processi.filter fun b => ¬ b.val.id = tgid

section step

variable {nFib : Nat} {s s' : State} {tgid : Int}

/-- A walk over the entries of a process whose loop variables hold the allocator's state. -/
theorem Conserves.walk (h : Reached nFib s) {σ : Type} (kmem : σ → Kmem)
    {body : Process → σ → Except Fault (Process × σ)} {x x' : σ}
    (hid : ∀ p x p' x', body p x = .ok (p', x') → p'.id = p.id)
    (hbody : ∀ p x p' x', p.Inv (kmem x).next → p.Spare → body p x = .ok (p', x') →
      (kmem x).freed ⊆ (kmem x').freed ∧
        HandsOut (kmem x).next ((kmem x).freed ++ p.blocks) (kmem x').next ((kmem x').freed ++ p'.blocks))
    (hx : kmem x = s.kmem) (hx' : kmem x' = s'.kmem)
    (hok : forEachProcess tgid body s.processi x = .ok (s'.processi, x')) : Conserves tgid s s' := by
  rw [forEachProcess_eq] at hok
  have htest : ∀ p x p' x', p.id = tgid → body p x = .ok (p', x') → p'.id = tgid :=
    fun p x p' x' hp hrun => (hid p x p' x' hrun).trans hp
  have hinv : ∀ b ∈ s.processi, b.val.Inv (kmem x).next ∧ b.val.Spare := by
    rw [hx]
    exact (spare_entry nFib).reached h
  have hwalk := Table.forEach_handsOut (P := fun y p => p.Inv (kmem y).next ∧ p.Spare) Process.blocks
    (fun y => (kmem y).next) (fun y => (kmem y).freed) htest (fun p y p' y' _ hp hrun => ?_) hinv hok
  · rw [hx, hx'] at hwalk
    exact ⟨hwalk.1, hwalk.2, Table.forEach_filter_not htest hok⟩
  · obtain ⟨hfreed, hblocks⟩ := hbody p y p' y' hp.1 hp.2 hrun
    exact ⟨hfreed, hblocks, fun q hq => ⟨hq.1.mono hblocks.le, hq.2⟩⟩

theorem onRunner_conserves (h : Reached nFib s) {c : Task} {σ : Type} {body : Fiber → σ → Except Fault (Fiber × σ)}
    (hbody : KeepsBinding body) {x x' : σ} (hok : onRunner c body s x = .ok (s', x')) : Conserves c.tgid s s' := by
  obtain ⟨⟨T, y⟩, hwalk, hok⟩ := bind_eq_ok.mp hok
  cases hok
  refine Conserves.walk h (fun _ => s.kmem) (fun _ _ _ _ hq => walkKeeps_id.runnerProcess hq) ?_ rfl rfl hwalk
  intro p y p' y' hinv _ hrun
  rw [runnerProcess_blocks hbody hinv.toWf hrun]
  exact ⟨List.Subset.refl _, .of_perm (List.Perm.refl _)⟩

theorem fibOpen_conserves (c : Task) : Conserves c.tgid s (fibOpen nFib c s) where
  freed := List.Subset.refl _
  handed := by
    have hnew : heldBy c.tgid (fibOpen nFib c s) =
        (s.kmem.next :: (newProcess nFib c.tgid (s.kmem.next + 1) (s.kmem.next + 2)).blocks) ++
          heldBy c.tgid s := Table.nodeBlocks_cons_pos rfl
    rw [hnew, newProcess_blocks]
    exact ⟨3, rfl, List.perm_append_comm_assoc _ _ _⟩
  others := List.filter_cons_of_neg (by simp [newProcess])

/-- Every operation but a release conserves the blocks of the caller's process. -/
theorem step_conserves (h : Reached nFib s) {op : Op} {out : Option Int} (hop : ∀ c, op ≠ .fibRelease c)
    (hok : step nFib op s = .ok (s', out)) : Conserves op.caller.tgid s s' := by
  cases step_cases hok with
  | fibOpen c => exact fibOpen_conserves c
  | fibRelease c => exact absurd rfl (hop c)
  | fibConvert hwalk =>
    exact Conserves.walk h ConvertVars.kmem (fun _ _ _ _ hq => walkKeeps_id.convertProcess hq)
      (fun _ _ _ _ hinv hspare hq => convertProcess_handsOut hinv hspare hq) rfl rfl hwalk
  | fibCreate hwalk =>
    exact Conserves.walk h CreateVars.kmem (fun _ _ _ _ hq => walkKeeps_id.createProcess hq)
      (fun _ _ _ _ _ hspare hq => createProcess_handsOut hspare hq) rfl rfl hwalk
  | fibSwitchTo hwalk =>
    exact Conserves.walk h SwitchVars.kmem (fun _ _ _ _ hq => walkKeeps_id.switchProcess hq)
      (fun _ _ _ _ hinv _ hq => switchProcess_handsOut hinv.toWf hq) rfl rfl hwalk
  | fls hbody hrun => exact onRunner_conserves h hbody hrun
  | user c cpu => exact ⟨List.Subset.refl _, .of_perm (List.Perm.refl _), rfl⟩

end step

/-! ### What a release gives back -/

/-- What a release gives back of the blocks of a process. -/
def reclaimedBy (tgid : Int) (s : State) : List Nat := s.processi.nodeBlocks (fun p => p.id = tgid) Process.reclaimed

/-- What it does not. -/
def unreclaimedBy (tgid : Int) (s : State) : List Nat :=
  (s.processi.filter fun b => b.val.id = tgid).flatMap fun b => b.val.unreclaimed

section release

variable {s s' : State} {tgid t : Int}

theorem foldl_freed {α : Type} {free : Kmem → α → Kmem} {k : α → List Nat}
    (hfree : ∀ m a, (free m a).freed.Perm (k a ++ m.freed)) (l : List α) (m : Kmem) :
    (l.foldl free m).freed.Perm (l.flatMap k ++ m.freed) := by
  induction l generalizing m with
  | nil => exact List.Perm.refl _
  | cons a l ih =>
    rw [List.foldl_cons, List.flatMap_cons, List.append_assoc]
    exact (ih (free m a)).trans (((hfree m a).append_left _).trans (List.perm_append_comm_assoc _ _ _))

theorem freeProcess_freed (m : Kmem) (b : Block Process) :
    (freeProcess m b).freed.Perm ((b.addr :: b.val.reclaimed) ++ m.freed) := by
  have hthreads := foldl_freed (k := fun t : Block Thread => [t.addr])
    (fun m t => List.Perm.refl (freeThread m t).freed) b.val.listathread m
  have hfibers := foldl_freed (k := fiberBlocks) (fun m f => List.Perm.refl (freeFiber m f).freed)
    b.val.listafiber (b.val.listathread.foldl freeThread m)
  have hstuff := foldl_freed (k := fun d : Block FiberStuff => [d.addr])
    (fun m d => List.Perm.refl (freeFiberStuff m d).freed) b.val.listafiberStuff
    (b.val.listafiber.foldl freeFiber (b.val.listathread.foldl freeThread m))
  have htables : (b.val.listafiberStuff.foldl freeFiberStuff
      (b.val.listafiber.foldl freeFiber (b.val.listathread.foldl freeThread m))).freed.Perm
      (b.val.reclaimed ++ m.freed) := by
    refine hstuff.trans (List.perm_iff_count.mpr fun a => ?_)
    have hcount := hfibers.count_eq a
    have hcount' := hthreads.count_eq a
    rw [← List.map_eq_flatMap] at hcount' ⊢
    simp only [Process.reclaimed, Table.addrs, List.count_append] at hcount hcount' ⊢
    omega
  exact htables.cons b.addr

theorem fibRelease_freed (c : Task) : (fibRelease c s).kmem.freed.Perm (reclaimedBy c.tgid s ++ s.kmem.freed) :=
  foldl_freed freeProcess_freed _ _

theorem heldBy_perm (tgid : Int) (s : State) : (heldBy tgid s).Perm (reclaimedBy tgid s ++ unreclaimedBy tgid s) :=
  (List.flatMap_append_perm _ (fun b : Block Process => b.addr :: b.val.reclaimed) fun b => b.val.unreclaimed).symm

theorem fibRelease_others (c : Task) : ((fibRelease c s).processi.filter fun b => ¬ b.val.id = c.tgid) =
    s.processi.filter fun b => ¬ b.val.id = c.tgid := by
  rw [fibRelease, List.filter_filter]
  refine List.filter_congr fun b _ => ?_
  simp

/-- What another process holds depends on the entries of the others only. -/
theorem heldBy_other (hne : t ≠ tgid)
    (h : (s'.processi.filter fun b => ¬ b.val.id = tgid) = s.processi.filter fun b => ¬ b.val.id = tgid) :
    heldBy t s' = heldBy t s := by
  have hsub : ∀ T : Table Process, T.filter (fun b => b.val.id = t) =
      (T.filter fun b => ¬ b.val.id = tgid).filter fun b => b.val.id = t := by
    intro T
    rw [List.filter_filter]
    refine List.filter_congr fun b _ => ?_
    by_cases hb : b.val.id = t <;> simp [hb, hne]
  rw [heldBy, heldBy, Table.nodeBlocks, Table.nodeBlocks, hsub, h, ← hsub]

end release

/-! ### The ledger of a run -/

/-- The blocks handed out, each with the process whose operation asked for it, newest first. -/
abbrev Ledger := List (Int × Nat)

/-- An operation books the blocks that it was handed to the caller's process. -/
def book (s : State) (e : Event) (s' : State) (L : Ledger) : Ledger :=
  (List.range' s.kmem.next (s'.kmem.next - s.kmem.next)).map (Prod.mk e.op.caller.tgid) ++ L

/-- A run of the driver with its ledger. -/
def LedgerRun (nFib : Nat) (s : State) (L : Ledger) (tr : List Event) : Prop :=
  Run (fun x : State × Ledger => Init x.1 ∧ x.2 = []) (Recording (Step nFib) book) (s, L) tr

/-- Every block that was handed out to the process has been freed once. -/
def FreedOnce (tgid : Int) (L : Ledger) (m : Kmem) : Prop := ∀ a, (tgid, a) ∈ L → m.freed.count a = 1

/-- A thread of the process has opened the device. -/
def Opened (tgid : Int) (tr : List Event) : Prop := ∃ e ∈ tr, ∃ c, e.op = .fibOpen c ∧ c.tgid = tgid

/-- No thread of the process has released the file. -/
def NotReleased (tgid : Int) (tr : List Event) : Prop := ∀ e ∈ tr, ∀ c, e.op = .fibRelease c → c.tgid ≠ tgid

/-- The blocks that all entries hold. -/
def held (s : State) : List Nat := s.processi.flatMap fun b => b.addr :: b.val.blocks

/-- No block is in two places, and each block booked to a process that keeps the file is freed or held. -/
structure Balanced (s : State) (L : Ledger) (tr : List Event) : Prop where
  nodup : (s.kmem.freed ++ held s).Nodup
  bound : ∀ a ∈ s.kmem.freed ++ held s, a < s.kmem.next
  covered : ∀ tgid, NotReleased tgid tr → ∀ a, (tgid, a) ∈ L → a ∈ s.kmem.freed ++ heldBy tgid s
  booked : ∀ tgid, ∀ a ∈ heldBy tgid s, (tgid, a) ∈ L

section run

variable {nFib : Nat} {s s' : State} {L : Ledger} {tr : List Event} {e : Event} {tgid : Int}

theorem held_perm (tgid : Int) (s : State) : (held s).Perm (heldBy tgid s ++
    (s.processi.filter fun b => ¬ b.val.id = tgid).flatMap fun b => b.addr :: b.val.blocks) := by
  have hsplit := (List.filter_append_perm (fun b : Block Process => decide (b.val.id = tgid)) s.processi).symm
  have hflat := hsplit.flatMap_right fun b : Block Process => b.addr :: b.val.blocks
  rw [List.flatMap_append] at hflat
  simpa only [held, heldBy, Table.nodeBlocks, decide_not] using hflat

theorem NotReleased.tail (h : NotReleased tgid (e :: tr)) : NotReleased tgid tr :=
  fun d hd => h d (List.mem_cons_of_mem _ hd)

theorem opened_of_mem {c : Task} (h : .fibOpen c ∈ tr.map Event.op) : Opened c.tgid tr := by
  obtain ⟨e, he, hop⟩ := List.mem_map.mp h
  exact ⟨e, he, c, hop, rfl⟩

theorem mem_book {a : Nat} : (tgid, a) ∈ book s e s' L ↔
    (tgid = e.op.caller.tgid ∧ s.kmem.next ≤ a ∧ a < s'.kmem.next) ∨ (tgid, a) ∈ L := by
  rw [book, List.mem_append, List.mem_map]
  refine or_congr_left ?_
  constructor
  · rintro ⟨b, hb, he⟩
    obtain ⟨rfl, rfl⟩ := Prod.mk.inj he
    have := List.mem_range'_1.mp hb
    exact ⟨rfl, by omega, by omega⟩
  · rintro ⟨rfl, hlo, hhi⟩
    exact ⟨a, List.mem_range'_1.mpr ⟨hlo, by omega⟩, rfl⟩

/-- An operation that loses no block keeps the balance. -/
theorem Balanced.conserve (h : Balanced s L tr) (hc : Conserves e.op.caller.tgid s s') :
    Balanced s' (book s e s' L) (e :: tr) := by
  have hall : HandsOut s.kmem.next (s.kmem.freed ++ held s) s'.kmem.next (s'.kmem.freed ++ held s') := by
    have hframe := hc.handed.frame
      ((s.processi.filter fun b => ¬ b.val.id = e.op.caller.tgid).flatMap fun b => b.addr :: b.val.blocks)
    refine hframe.congr ?_ ?_
    · rw [List.append_assoc]
      exact (held_perm _ s).symm.append_left _
    · rw [List.append_assoc, ← hc.others]
      exact (held_perm _ s').symm.append_left _
  obtain ⟨hnd, hbound⟩ := hall.nodup h.nodup h.bound
  refine ⟨hnd, hbound, fun t hnot a ha => ?_, fun t a ha => ?_⟩
  · rcases mem_book.mp ha with ⟨rfl, hnew⟩ | hold
    · exact hc.handed.mem_iff.mpr (.inl hnew)
    · have hbefore := h.covered t hnot.tail a hold
      by_cases ht : t = e.op.caller.tgid
      · subst ht
        exact hc.handed.mem_iff.mpr (.inr hbefore)
      · rw [heldBy_other ht hc.others, List.mem_append]
        exact (List.mem_append.mp hbefore).imp_left fun hfreed => hc.freed hfreed
  · rw [mem_book]
    by_cases ht : t = e.op.caller.tgid
    · subst ht
      rcases hc.handed.mem_iff.mp (List.mem_append_right _ ha) with hnew | hold
      · exact .inl ⟨rfl, hnew⟩
      · refine .inr (h.booked _ a ((List.mem_append.mp hold).resolve_left fun hfreed => ?_))
        have hheld : a ∈ held s' := (held_perm _ s').mem_iff.mpr (List.mem_append_left _ ha)
        exact (List.nodup_append'.mp hnd).2.2 (hc.freed hfreed) hheld
    · rw [heldBy_other ht hc.others] at ha
      exact .inr (h.booked t a ha)

/-- A release moves blocks from the entries to those freed, and drops the others. -/
theorem fibRelease_perm (c : Task) (s : State) : (s.kmem.freed ++ held s).Perm
    (unreclaimedBy c.tgid s ++ ((fibRelease c s).kmem.freed ++ held (fibRelease c s))) := by
  have hheld : held (fibRelease c s) =
      (s.processi.filter fun b => ¬ b.val.id = c.tgid).flatMap fun b => b.addr :: b.val.blocks := by
    simp only [held, fibRelease, ne_eq]
  rw [hheld]
  refine List.perm_iff_count.mpr fun a => ?_
  have hfreed := (fibRelease_freed (s := s) c).count_eq a
  have hsplit := (held_perm c.tgid s).count_eq a
  have hby := (heldBy_perm c.tgid s).count_eq a
  simp only [List.count_append] at hfreed hsplit hby ⊢
  omega

theorem Balanced.release (h : Balanced s L tr) {c : Task} (hop : e.op = .fibRelease c) :
    Balanced (fibRelease c s) (book s e (fibRelease c s) L) (e :: tr) := by
  have hnext : (fibRelease c s).kmem.next = s.kmem.next := by
    simp only [fibRelease, foldl_next freeProcess freeProcess_next]
  have hbook : book s e (fibRelease c s) L = L := by
    rw [book, hnext, Nat.sub_self]
    rfl
  have hperm := fibRelease_perm c s
  have hnd := (List.nodup_append'.mp (hperm.nodup_iff.mp h.nodup)).2.1
  rw [hbook]
  refine ⟨hnd, fun a ha => ?_, fun t hnot a ha => ?_, fun t a ha => ?_⟩
  · rw [hnext]
    exact h.bound a (hperm.mem_iff.mpr (List.mem_append_right _ ha))
  · have ht : t ≠ c.tgid := (hnot e List.mem_cons_self c hop).symm
    rw [heldBy_other ht (fibRelease_others c), List.mem_append]
    refine (List.mem_append.mp (h.covered t hnot.tail a ha)).imp_left fun hfreed => ?_
    exact (fibRelease_freed c).mem_iff.mpr (List.mem_append_right _ hfreed)
  · by_cases ht : t = c.tgid
    · subst ht
      have hnone : heldBy c.tgid (fibRelease c s) = [] := by
        rw [heldBy, Table.nodeBlocks, fibRelease, List.filter_filter, List.filter_eq_nil_iff.mpr fun b _ => by simp]
        rfl
      rw [hnone] at ha
      cases ha
    · rw [heldBy_other ht (fibRelease_others c)] at ha
      exact h.booked t a ha

/-- Every run keeps its ledger in balance. -/
theorem run_balanced (hrun : LedgerRun nFib s L tr) : Balanced s L tr := by
  refine Run.invariant (P := fun (x : State × Ledger) tr => Balanced x.1 x.2 tr) ?_ ?_ hrun
  · rintro ⟨s, L⟩ ⟨hinit, hempty⟩
    simp only at hinit hempty ⊢
    have hheld : held s = [] := by
      rw [held, hinit.1]
      rfl
    have hby : ∀ t, heldBy t s = [] := by
      intro t
      rw [heldBy, hinit.1]
      rfl
    subst hempty
    refine ⟨?_, ?_, fun t _ a ha => (by cases ha), fun t a ha => ?_⟩
    · rw [hheld, hinit.2]
      exact List.nodup_nil
    · rw [hheld, hinit.2]
      intro a ha
      cases ha
    · rw [hby t] at ha
      cases ha
  · rintro ⟨s, L⟩ tr e ⟨s', L'⟩ hr h ⟨hstep, hbook⟩
    simp only at hstep hbook h ⊢
    subst hbook
    by_cases hop : ∃ c, e.op = .fibRelease c
    · obtain ⟨c, hop⟩ := hop
      have hok := hstep.1
      rw [hop, step, Except.ok.injEq, Prod.mk.injEq] at hok
      rw [← hok.1]
      exact h.release hop
    · push Not at hop
      exact h.conserve (step_conserves ⟨tr, hr.of_recording⟩ hop hstep.1)

/-- A process that has opened the device has an entry as long as it keeps the file. -/
theorem entry_of_opened (hrun : Run Init (Step nFib) s tr) (hopen : Opened tgid tr) (hkept : NotReleased tgid tr) :
    tgid ∈ s.processi.map fun b => b.val.id := by
  induction hrun with
  | start h =>
    obtain ⟨e, he, -⟩ := hopen
    cases he
  | @step s s' tr e hr hs ih =>
    rw [performs_ids ⟨tr, hr⟩ ⟨_, hs.1⟩]
    obtain ⟨d, hd, c, hop, hid⟩ := hopen
    rcases List.mem_cons.mp hd with rfl | hd
    · rw [hop, ← hid]
      exact List.mem_cons_self
    · exact mem_idsAfter (ih ⟨d, hd, c, hop, hid⟩ hkept.tail) fun c' => hkept e List.mem_cons_self c'

/-- The array of a directory is among the blocks that a release leaves behind. -/
theorem array_unreclaimed {b : Block Process} (hb : b ∈ s.processi) (hid : b.val.id = tgid)
    {d : Block FiberStuff} (hd : d ∈ b.val.listafiberStuff) : d.val.fiberBaseStuff.addr ∈ unreclaimedBy tgid s := by
  rw [unreclaimedBy, List.mem_flatMap]
  refine ⟨b, List.mem_filter.mpr ⟨hb, by simpa using hid⟩, ?_⟩
  rw [Process.unreclaimed, List.mem_flatMap]
  exact ⟨d, hd, List.mem_cons_self⟩

/-- **What a release leaves behind.** When a process that has opened the device releases the file, whatever it and
the others did before, the directory's array and the names of its entries are not freed, while every other block
that was handed out to the process is freed once. There is always one that is not. -/
theorem release_leaks (hrun : LedgerRun nFib s L tr) {c : Task} (hopen : Opened c.tgid tr)
    (hkept : NotReleased c.tgid tr) : ¬ FreedOnce c.tgid L (fibRelease c s).kmem ∧
      ∀ a, (c.tgid, a) ∈ L → (fibRelease c s).kmem.freed.count a = if a ∈ unreclaimedBy c.tgid s then 0 else 1 := by
  have hbalanced := run_balanced hrun
  have hperm : (s.kmem.freed ++ heldBy c.tgid s).Perm
      ((fibRelease c s).kmem.freed ++ unreclaimedBy c.tgid s) := by
    refine List.perm_iff_count.mpr fun a => ?_
    have hfreed := (fibRelease_freed (s := s) c).count_eq a
    have hby := (heldBy_perm c.tgid s).count_eq a
    simp only [List.count_append] at hfreed hby ⊢
    omega
  have hnd : (s.kmem.freed ++ heldBy c.tgid s).Nodup := by
    have hsplit := ((held_perm c.tgid s).append_left s.kmem.freed).nodup_iff.mp hbalanced.nodup
    rw [← List.append_assoc] at hsplit
    exact (List.nodup_append'.mp hsplit).1
  obtain ⟨hfreed, -, hdisjoint⟩ := List.nodup_append'.mp (hperm.nodup_iff.mp hnd)
  have hcount : ∀ a, (c.tgid, a) ∈ L → (fibRelease c s).kmem.freed.count a =
      if a ∈ unreclaimedBy c.tgid s then 0 else 1 := by
    intro a ha
    have hmem := hperm.mem_iff.mp (hbalanced.covered c.tgid hkept a ha)
    split_ifs with hleft
    · exact List.count_eq_zero.mpr fun hgone => hdisjoint hgone hleft
    · exact List.count_eq_one_of_mem hfreed ((List.mem_append.mp hmem).resolve_right hleft)
  refine ⟨fun honce => ?_, hcount⟩
  have hrun' := hrun.of_recording
  obtain ⟨b, hb, hid⟩ := List.mem_map.mp (entry_of_opened hrun' hopen hkept)
  obtain ⟨a, stuff, hstuff, -⟩ := reached_dirInv ⟨tr, hrun'⟩ b hb
  have harray := array_unreclaimed hb hid (d := ⟨a, stuff⟩) (by rw [hstuff]; exact List.mem_singleton_self _)
  have hbooked := hbalanced.booked c.tgid _ ((heldBy_perm _ s).mem_iff.mpr (List.mem_append_right _ harray))
  have hzero := hcount _ hbooked
  rw [if_pos harray, honce _ hbooked] at hzero
  exact absurd hzero (by decide)

end run

/-- Process 1 opens the device and converts a thread; what its entry holds, and what a release frees. -/
theorem ledger_converted : ∃ s L tr, LedgerRun nFib s L tr ∧
    tr.map Event.op = [.fibConvert ⟨1, 1⟩ ⟨0, 5⟩, .fibOpen ⟨1, 1⟩] ∧
    heldBy 1 s = [1, 4, 5, 8, 9, 7, 6, 2, 3, 10] ∧
    (fibRelease ⟨1, 1⟩ s).kmem.freed = [1, 2, 5, 8, 9, 7, 6, 4, 11] := by
  obtain ⟨s, tr, hrun, hops, hview⟩ := exists_run nFib [.fibOpen ⟨1, 1⟩, .fibConvert ⟨1, 1⟩ ⟨0, 5⟩]
    (fun r => (heldBy 1 r.1, (fibRelease ⟨1, 1⟩ r.1).kmem.freed))
    (v := ([1, 4, 5, 8, 9, 7, 6, 2, 3, 10], [1, 2, 5, 8, 9, 7, 6, 4, 11])) (by decide +kernel)
  obtain ⟨L, hledger⟩ := hrun.recorded book []
  exact ⟨s, L, tr, hledger, hops, (Prod.mk.inj hview).1, (Prod.mk.inj hview).2⟩

/-- The release of a process with one fiber. -/
theorem release_leaks_converted : ∃ s L tr, LedgerRun nFib s L tr ∧
    tr.map Event.op = [.fibConvert ⟨1, 1⟩ ⟨0, 5⟩, .fibOpen ⟨1, 1⟩] ∧
    ¬ FreedOnce 1 L (fibRelease ⟨1, 1⟩ s).kmem ∧
    ∀ a, (1, a) ∈ L → (fibRelease ⟨1, 1⟩ s).kmem.freed.count a = if a ∈ unreclaimedBy 1 s then 0 else 1 := by
  obtain ⟨s, L, tr, hrun, hops, -⟩ := ledger_converted
  have hopened : Opened 1 tr := opened_of_mem (c := ⟨1, 1⟩) (by simp [hops])
  have hkept : NotReleased 1 tr := by
    intro e he c hop
    have hmem := List.mem_map_of_mem (f := Event.op) he
    rw [hops, hop] at hmem
    simp at hmem
  exact ⟨s, L, tr, hrun, hops, release_leaks (c := ⟨1, 1⟩) hrun hopened hkept⟩

/-- Block 3 is the array of the directory and block 10 the name of the fiber: both were handed out to the process,
and the release frees neither. -/
theorem array_not_freed : ∃ s L tr, LedgerRun nFib s L tr ∧
    tr.map Event.op = [.fibConvert ⟨1, 1⟩ ⟨0, 5⟩, .fibOpen ⟨1, 1⟩] ∧ (1, 3) ∈ L ∧ (1, 10) ∈ L ∧
    (fibRelease ⟨1, 1⟩ s).kmem.freed.count 3 = 0 ∧ (fibRelease ⟨1, 1⟩ s).kmem.freed.count 10 = 0 ∧
    ¬ FreedOnce 1 L (fibRelease ⟨1, 1⟩ s).kmem := by
  obtain ⟨s, L, tr, hrun, hops, hheld, hfreed⟩ := ledger_converted
  have hbooked := (run_balanced hrun).booked 1
  rw [hheld] at hbooked
  have harray : (1, 3) ∈ L := hbooked 3 (by decide)
  refine ⟨s, L, tr, hrun, hops, harray, hbooked 10 (by decide), by rw [hfreed]; decide, by rw [hfreed]; decide, ?_⟩
  intro honce
  have hcount := honce 3 harray
  rw [hfreed] at hcount
  exact absurd hcount (by decide)

end LinuxFibers
