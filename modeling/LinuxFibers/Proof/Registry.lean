import LinuxFibers.Driver.Files
import LinuxFibers.Proof.Reach

/-!
# Entries and open files

`fib_release` finds the entry to remove by the `tgid` of the thread that closes the file, over the whole
table. `closes_own_iff` says when that is the entry of the file being closed and no other, and
`registered_along` follows whole sequences of opens and closes: the table holds one entry for each open
file as long as every file is closed by its opener's process, which has no other file open.
-/

namespace LinuxFibers

open HeapTable Runs

/-! ### What the operations on an open file leave alone -/

/-- A part of an entry that no walk over the entries of a process changes. -/
structure WalkKeeps {β : Type} (k : Process → β) : Prop where
  fiber : ∀ p a g, k (Process.modFiber p a g) = k p
  thread : ∀ p a h, k (Process.modThread p a h) = k p
  created : ∀ (p : Process) {entry : PidEntry} {U : Table FiberStuff} (T : Table Thread) (F : Table Fiber) (id : Int),
    addEntry entry p.listafiberStuff = .ok U →
      k { p with listathread := T, listafiber := F, listafiberStuff := U, lastFibId := id } = k p

theorem walkKeeps_id : WalkKeeps Process.id where
  fiber _ _ _ := rfl
  thread _ _ _ := rfl
  created _ _ _ _ _ _ _ := rfl

section keeps

variable {β : Type} {k : Process → β} {c : Task} {p p' : Process}

theorem forEachThread_keeps {σ : Type} {pid : Int} {body : Nat → Process → σ → Except Fault (Process × σ)}
    {x x' : σ} (hbody : ∀ t p x p' x', body t p x = .ok (p', x') → k p' = k p)
    (hok : forEachThread pid body p x = .ok (p', x')) : k p' = k p := by
  unfold forEachThread at hok
  generalize possible Thread.id pid p.listathread = l at hok
  induction l generalizing p x with
  | nil =>
    cases hok
    rfl
  | cons t l ih =>
    obtain ⟨⟨q, y⟩, hq, hrest⟩ := bind_eq_ok.mp hok
    exact (ih hrest).trans (hbody _ _ _ _ _ hq)

theorem WalkKeeps.exchange (hk : WalkKeeps k) (thread old new : Nat) (now : Timespec) (cpu : Cpu) :
    k (exchange thread old new now (p, cpu)).1 = k p := by
  simp only [LinuxFibers.exchange, exchangeSteps, List.foldl_cons, List.foldl_nil, saveRegs, saveFpu, freeOld,
    loadRegs, loadFpu, bindFiber, bindThread, countNew, stampNew, chargeOld, hk.fiber, hk.thread]

theorem WalkKeeps.foldl_switchTarget (hk : WalkKeeps k) (thread old : Nat) (now : Timespec) (l : List Nat)
    (y : Process × SwitchVars) : k (l.foldl (switchTarget thread old now) y).1 = k y.1 := by
  induction l generalizing y with
  | nil => rfl
  | cons new l ih =>
    obtain ⟨p, x⟩ := y
    rw [List.foldl_cons, ih, switchTarget]
    cases (p.listafiber.deref new).bind Fiber.selectedThread with
    | none => exact hk.exchange thread old new now x.cpu
    | some _ => exact hk.fiber ..

theorem WalkKeeps.switchProcess (hk : WalkKeeps k) {id : Int} {now : Timespec} {x x' : SwitchVars}
    (hok : switchProcess c id now p x = .ok (p', x')) : k p' = k p := by
  refine forEachThread_keeps (fun thread q y q' y' hq => ?_) hok
  obtain ⟨t, -, hq⟩ := bind_eq_ok.mp hq
  cases ht : t.runner with
  | none =>
    rw [ht] at hq
    cases hq
    rfl
  | some old =>
    rw [ht] at hq
    obtain ⟨f, -, hq⟩ := bind_eq_ok.mp hq
    split_ifs at hq
    · cases hq
      exact hk.fiber ..
    · have hfold := hk.foldl_switchTarget thread old now (possible Fiber.id id q.listafiber) (q, y)
      rw [Except.ok.inj hq] at hfold
      exact hfold

theorem WalkKeeps.convertProcess (hk : WalkKeeps k) {cpu : Cpu} {now : Timespec} {x x' : ConvertVars}
    (hok : convertProcess c cpu now p x = .ok (p', x')) : k p' = k p := by
  by_cases hkeep : x.flagControllo = true ∨ ∃ t ∈ p.listathread, t.val.id = c.pid
  · rw [convertProcess_keep hkeep] at hok
    cases hok
    rfl
  · push Not at hkeep
    rw [convertProcess_new (by simpa using hkeep.1) hkeep.2] at hok
    obtain ⟨⟨b, q, m⟩, hcreate, hok⟩ := bind_eq_ok.mp hok
    obtain ⟨U, -, hU, -, rfl, -⟩ := doFibCreate_ok hcreate
    cases hok
    exact hk.created p _ _ _ hU

theorem WalkKeeps.createProcess (hk : WalkKeeps k) {cpu : Cpu} {func parameters stackPointer stackSize : BitVec 64}
    {x x' : CreateVars} (hok : createProcess c cpu func parameters stackPointer stackSize p x = .ok (p', x')) :
    k p' = k p := by
  obtain ⟨U, b, -, hU, -, rfl, -⟩ := createProcess_ok hok
  exact hk.created p _ _ _ hU

theorem WalkKeeps.runnerProcess (hk : WalkKeeps k) {σ : Type} {body : Fiber → σ → Except Fault (Fiber × σ)} {pid : Int}
    {x x' : σ} (hok : forEachThread pid (runnerThread body) p x = .ok (p', x')) : k p' = k p := by
  refine forEachThread_keeps (fun thread q y q' y' hq => ?_) hok
  obtain ⟨t, -, hq⟩ := bind_eq_ok.mp hq
  cases ht : t.runner with
  | none =>
    rw [ht] at hq
    cases hq
    rfl
  | some old =>
    rw [ht] at hq
    obtain ⟨f, -, hq⟩ := bind_eq_ok.mp hq
    obtain ⟨⟨f', z⟩, -, hq⟩ := bind_eq_ok.mp hq
    cases hq
    exact hk.fiber ..

/-- What an operation on an open file leaves alone, in every entry. -/
theorem WalkKeeps.onRunner (hk : WalkKeeps k) {σ : Type} {body : Fiber → σ → Except Fault (Fiber × σ)} {s s' : State}
    {x x' : σ} (hok : onRunner c body s x = .ok (s', x')) :
    (s'.processi.map fun b => (b.addr, k b.val)) = (s.processi.map fun b => (b.addr, k b.val)) ∧
      s'.kmem = s.kmem := by
  obtain ⟨⟨T, y⟩, hwalk, hok⟩ := bind_eq_ok.mp hok
  cases hok
  exact ⟨forEachProcess_map (fun _ _ _ _ h => hk.runnerProcess h) hwalk, rfl⟩

theorem WalkKeeps.performs (hk : WalkKeeps k) {nFib : Nat} {s s' : State}
    (hinv : ∀ b ∈ s.processi, b.val.Inv s.kmem.next) {op : Op} (hop : op.onOpenFile) (hok : Performs nFib s op s') :
    (s'.processi.map fun b => (b.addr, k b.val)) = (s.processi.map fun b => (b.addr, k b.val)) ∧
      s.kmem.next ≤ s'.kmem.next := by
  obtain ⟨out, hok⟩ := hok
  cases step_cases hok with
  | fibOpen c => exact hop.elim
  | fibRelease c => exact hop.elim
  | fibConvert hwalk =>
    exact ⟨forEachProcess_map (fun _ _ _ _ hp => hk.convertProcess hp) hwalk,
      forEachProcess_next ConvertVars.kmem (fun _ _ _ _ hp hrun => convertProcess_inv hp hrun) hinv hwalk⟩
  | fibCreate hwalk =>
    exact ⟨forEachProcess_map (fun _ _ _ _ hp => hk.createProcess hp) hwalk,
      forEachProcess_next CreateVars.kmem (fun _ _ _ _ hp hrun => createProcess_inv hp hrun) hinv hwalk⟩
  | fibSwitchTo hwalk =>
    refine ⟨forEachProcess_map (fun _ _ _ _ hp => hk.switchProcess hp) hwalk,
      forEachProcess_next SwitchVars.kmem (fun _ _ _ _ hp hrun => ?_) hinv hwalk⟩
    obtain ⟨hp', hle⟩ := switchProcess_inv hp hrun
    exact ⟨hp'.mono hle, hle⟩
  | fls _ hrun =>
    obtain ⟨he, hm⟩ := hk.onRunner hrun
    exact ⟨he, by rw [hm]⟩
  | user c cpu => exact ⟨rfl, le_refl _⟩

end keeps

/-- The entries of the table, each by its address and the process it stands for. -/
def entries (s : State) : List (Nat × Int) := s.processi.map fun b => (b.addr, b.val.id)

/-- An operation on an open file registers nobody, removes nobody and gives no address back. -/
theorem performs_entries {nFib : Nat} {s s' : State} (h : Reached nFib s) {op : Op} (hop : op.onOpenFile)
    (hok : Performs nFib s op s') : entries s' = entries s ∧ s.kmem.next ≤ s'.kmem.next :=
  walkKeeps_id.performs (reached_inv h) hop hok

/-- What an operation leaves of the processes that have an entry. -/
def Op.idsAfter (ids : List Int) : Op → List Int
  | .fibOpen c => c.tgid :: ids
  | .fibRelease c => ids.filter (· ≠ c.tgid)
  | _ => ids

theorem performs_ids {nFib : Nat} {s s' : State} (h : Reached nFib s) {op : Op} (hok : Performs nFib s op s') :
    (s'.processi.map fun b => b.val.id) = op.idsAfter (s.processi.map fun b => b.val.id) := by
  by_cases hfile : op.onOpenFile
  · have hsnd := congrArg (List.map Prod.snd) (performs_entries h hfile hok).1
    simp only [entries, List.map_map] at hsnd
    refine Eq.trans hsnd ?_
    cases op <;> first | rfl | exact hfile.elim
  · obtain ⟨out, hok⟩ := hok
    cases op with
    | fibOpen c =>
      cases hok
      rfl
    | fibRelease c =>
      cases hok
      simp only [fibRelease, Op.idsAfter, List.filter_map]
      rfl
    | _ => exact absurd trivial hfile

/-- A process keeps its entry up to its release. -/
theorem mem_idsAfter {ids : List Int} {tgid : Int} {op : Op} (h : tgid ∈ ids)
    (hkept : ∀ c, op = .fibRelease c → c.tgid ≠ tgid) : tgid ∈ op.idsAfter ids := by
  cases op with
  | fibOpen c => exact List.mem_cons_of_mem _ h
  | fibRelease c => exact List.mem_filter.mpr ⟨h, decide_eq_true (hkept c rfl).symm⟩
  | _ => exact h

/-! ### One entry for each open file -/

def OpenFile.key (file : OpenFile) : Nat × Int := (file.entry, file.opener)

/-- The table holds exactly one entry for each open file, carrying the `tgid` of the opener. -/
structure Registered (v : Session) : Prop where
  perm : (entries v.drv).Perm (v.files.map OpenFile.key)
  distinct : (v.files.map OpenFile.entry).Nodup

/-- What a step should do to the table: an open adds one entry, a close removes and frees the entry of its
file and no other, and everything else leaves the entries in place. -/
def Exact (v : Session) (v' : Session) : FileOp → Prop
  | .openFile c => ∃ p, p.id = c.tgid ∧ v'.drv.processi = ⟨v.drv.kmem.next, p⟩ :: v.drv.processi
  | .closeFile _ file => ∃ b ∈ v.drv.processi, b.addr = file.entry ∧ b.val.id = file.opener ∧
      v'.drv.processi = v.drv.processi.filter (fun d => d.addr ≠ file.entry) ∧
      v'.drv.kmem = freeProcess v.drv.kmem b
  | .use _ => entries v'.drv = entries v.drv

/-- The step does what it should and leaves one entry for each open file. -/
def RegisteredAfter (nFib : Nat) (v : Session) (a : FileOp) : Prop :=
  ∀ v', FileStep nFib v a v' → Exact v v' a ∧ Registered v'

/-- A close comes from the process that opened the file, and that process has no other file open. -/
def ClosesOwn (v : Session) : FileOp → Prop
  | .closeFile c file => file ∈ v.files →
      file.opener = c.tgid ∧ ∀ other ∈ v.files, other.opener = c.tgid → other = file
  | _ => True

theorem closesOwn_open (v : Session) (c : Task) : ClosesOwn v (.openFile c) := trivial

/-- What every step keeps as long as the closes are of that kind. -/
structure SessionInv (nFib : Nat) (v : Session) : Prop where
  reached : Reached nFib v.drv
  entries : entries v.drv = v.files.map OpenFile.key
  addrs : v.drv.processi.addrs.Nodup
  bound : ∀ a ∈ v.drv.processi.addrs, a < v.drv.kmem.next

namespace SessionInv

variable {nFib : Nat} {v : Session} (h : SessionInv nFib v)
include h

theorem fileEntries : v.files.map OpenFile.entry = v.drv.processi.addrs := by
  have hfst := congrArg (List.map Prod.fst) h.entries
  simp only [LinuxFibers.entries, List.map_map] at hfst
  exact hfst.symm

theorem registered : Registered v where
  perm := by rw [h.entries]
  distinct := by
    rw [h.fileEntries]
    exact h.addrs

theorem exists_entry {file : OpenFile} (hfile : file ∈ v.files) :
    ∃ b ∈ v.drv.processi, b.addr = file.entry ∧ b.val.id = file.opener := by
  have hmem : file.key ∈ LinuxFibers.entries v.drv := by
    rw [h.entries]
    exact List.mem_map_of_mem hfile
  obtain ⟨b, hb, hkey⟩ := List.mem_map.mp hmem
  rw [OpenFile.key, Prod.mk.injEq] at hkey
  exact ⟨b, hb, hkey⟩

theorem exists_file {b : Block Process} (hb : b ∈ v.drv.processi) :
    ∃ file ∈ v.files, file.entry = b.addr ∧ file.opener = b.val.id := by
  have hmem : (b.addr, b.val.id) ∈ v.files.map OpenFile.key := by
    rw [← h.entries]
    exact List.mem_map_of_mem hb
  obtain ⟨file, hfile, hkey⟩ := List.mem_map.mp hmem
  rw [OpenFile.key, Prod.mk.injEq] at hkey
  exact ⟨file, hfile, hkey⟩

theorem file_eq {file other : OpenFile} (hfile : file ∈ v.files) (hother : other ∈ v.files)
    (he : other.entry = file.entry) : other = file := by
  have hnd : (v.files.map OpenFile.entry).Nodup := h.registered.distinct
  exact List.inj_on_of_nodup_map hnd hother hfile he

/-- Under the condition on a close, the entries of the closing process are the one of the file. -/
theorem id_iff_addr {c : Task} {file : OpenFile} (hfile : file ∈ v.files)
    (hown : file.opener = c.tgid ∧ ∀ other ∈ v.files, other.opener = c.tgid → other = file)
    {d : Block Process} (hd : d ∈ v.drv.processi) : d.val.id = c.tgid ↔ d.addr = file.entry := by
  obtain ⟨other, hother, haddr, hid⟩ := h.exists_file hd
  constructor
  · intro hc
    rw [← haddr, hown.2 other hother (hid.trans hc)]
  · intro he
    rw [← hid, h.file_eq hfile hother (haddr.trans he), hown.1]

theorem closeFile {c : Task} {file : OpenFile} (hfile : file ∈ v.files)
    (hown : file.opener = c.tgid ∧ ∀ other ∈ v.files, other.opener = c.tgid → other = file) :
    Exact v { drv := fibRelease c v.drv, files := v.files.erase file } (.closeFile c file) ∧
      SessionInv nFib { drv := fibRelease c v.drv, files := v.files.erase file } := by
  obtain ⟨b, hb, haddr, hid⟩ := h.exists_entry hfile
  have hkept : v.drv.processi.filter (fun d => d.val.id ≠ c.tgid) =
      v.drv.processi.filter fun d => d.addr ≠ file.entry :=
    List.filter_congr fun d hd => by simp only [ne_eq, h.id_iff_addr hfile hown hd]
  have hgone : v.drv.processi.filter (fun d => d.val.id = c.tgid) = [b] := by
    have hsame : v.drv.processi.filter (fun d => d.val.id = c.tgid) =
        v.drv.processi.filter fun d => d.addr = file.entry :=
      List.filter_congr fun d hd => by simp only [h.id_iff_addr hfile hown hd]
    rw [hsame]
    exact Table.filter_key Block.addr h.addrs hb haddr
  refine ⟨⟨b, hb, haddr, hid, hkept, ?_⟩, ?_⟩
  · simp only [fibRelease, hgone, List.foldl_cons, List.foldl_nil]
  have hsub : (fibRelease c v.drv).processi.Sublist v.drv.processi := List.filter_sublist
  have hstep : LinuxFibers.step nFib (.fibRelease c) v.drv = .ok (fibRelease c v.drv, some 0) := rfl
  refine ⟨h.reached.next hstep, ?_, h.addrs.sublist (hsub.map _), fun a ha => ?_⟩
  · have hfiles : v.files.erase file = v.files.filter fun other => other.entry ≠ file.entry := by
      rw [h.registered.distinct.of_map.erase_eq_filter]
      refine List.filter_congr fun other hother => ?_
      by_cases he : other.entry = file.entry
      · simp [h.file_eq hfile hother he]
      · have hne : other ≠ file := fun heq => he (heq ▸ rfl)
        simp [he, hne]
    have hkeys := congrArg (List.filter fun k => k.1 ≠ file.entry) h.entries
    simp only [LinuxFibers.entries, List.filter_map] at hkeys
    simp only [LinuxFibers.entries, fibRelease, hkept, hfiles]
    exact hkeys
  · have hle : (fibRelease c v.drv).kmem.next = v.drv.kmem.next := foldl_next freeProcess freeProcess_next _ _
    rw [hle]
    exact h.bound a ((hsub.map _).subset ha)

/-- A close removes the entry of its file and no other exactly when the closing process opened that file
and has no other file open. -/
theorem closes_own_iff (c : Task) (file : OpenFile) :
    RegisteredAfter nFib v (.closeFile c file) ↔ ClosesOwn v (.closeFile c file) := by
  constructor
  · intro hafter hfile
    obtain ⟨⟨b, hb, haddr, hid, hkept, -⟩, -⟩ := hafter _ (.closeFile v c file hfile)
    have hkept_iff : ∀ d ∈ v.drv.processi, d.val.id = c.tgid ↔ d.addr = file.entry := by
      intro d hd
      have hmem : d ∈ v.drv.processi.filter (fun d => d.val.id ≠ c.tgid) ↔
          d ∈ v.drv.processi.filter fun d => d.addr ≠ file.entry := by
        rw [← hkept]
        rfl
      simp only [List.mem_filter, hd, true_and, decide_eq_true_eq] at hmem
      exact not_iff_not.mp hmem
    refine ⟨hid ▸ (hkept_iff b hb).mpr haddr, fun other hother hopener => ?_⟩
    obtain ⟨d, hd, hda, hdi⟩ := h.exists_entry hother
    exact h.file_eq hfile hother (hda ▸ (hkept_iff d hd).mp (hdi.trans hopener))
  · intro hown v' hstep
    cases hstep with
    | closeFile _ _ hfile =>
      obtain ⟨hexact, hinv⟩ := h.closeFile hfile (hown hfile)
      exact ⟨hexact, hinv.registered⟩

/-- The steps that meet the condition keep the invariant. -/
theorem step {a : FileOp} {v' : Session} (hown : ClosesOwn v a) (hstep : FileStep nFib v a v') :
    SessionInv nFib v' := by
  cases hstep with
  | openFile c =>
    have hstep : LinuxFibers.step nFib (.fibOpen c) v.drv = .ok (fibOpen nFib c v.drv, some 0) := rfl
    refine ⟨h.reached.next hstep, congrArg (List.cons _) h.entries, ?_, fun a ha => ?_⟩
    · refine List.nodup_cons.mpr ⟨fun hmem => ?_, h.addrs⟩
      exact absurd (h.bound _ hmem) (lt_irrefl _)
    · show a < v.drv.kmem.next + 3
      rcases List.mem_cons.mp ha with ha | ha
      · have : a = v.drv.kmem.next := ha
        omega
      · have := h.bound a ha
        omega
  | closeFile c file hfile => exact (h.closeFile hfile (hown hfile)).2
  | use op s' hop hok =>
    obtain ⟨hentries, hle⟩ := performs_entries h.reached hop hok
    have haddrs : s'.processi.addrs = v.drv.processi.addrs := by
      have hfst := congrArg (List.map Prod.fst) hentries
      simp only [LinuxFibers.entries, List.map_map] at hfst
      exact hfst
    obtain ⟨out, hok⟩ := hok
    refine ⟨h.reached.next hok, hentries.trans h.entries, haddrs ▸ h.addrs, fun a ha => ?_⟩
    exact (h.bound a (haddrs ▸ ha)).trans_le hle

theorem registeredAfter_iff (a : FileOp) : RegisteredAfter nFib v a ↔ ClosesOwn v a := by
  cases a with
  | closeFile c file => exact h.closes_own_iff c file
  | openFile c =>
    refine iff_of_true (fun v' hstep => ?_) trivial
    have hinv := h.step (a := .openFile c) trivial hstep
    cases hstep
    exact ⟨⟨_, rfl, rfl⟩, hinv.registered⟩
  | use op =>
    refine iff_of_true (fun v' hstep => ?_) trivial
    have hinv := h.step (a := .use op) trivial hstep
    cases hstep with
    | use _ s' hop hok => exact ⟨(performs_entries h.reached hop hok).1, hinv.registered⟩

end SessionInv

theorem sessionInv_init {nFib : Nat} {v : Session} (h : SessionInit v) : SessionInv nFib v := by
  obtain ⟨hinit, hfiles⟩ := h
  refine ⟨Reachable.of_init hinit, ?_, ?_, fun a ha => ?_⟩
  · rw [entries, hinit.1, hfiles]
    rfl
  · rw [hinit.1]
    exact List.nodup_nil
  · rw [hinit.1] at ha
    cases ha

/-- **Entries and open files.** A sequence of opens, closes and operations on open files, by any processes
in any order, keeps one entry for each open file at every step exactly when each close comes from the
process that opened the file while it has no other file open. -/
theorem registered_along {nFib : Nat} {v : Session} (h : SessionInit v) (acts : List FileOp) :
    Along (FileStep nFib) (RegisteredAfter nFib) acts v ↔ Along (FileStep nFib) ClosesOwn acts v :=
  along_iff (I := SessionInv nFib) (fun _ a _ hv => hv.registeredAfter_iff a)
    (fun _ _ _ _ hv hown hstep => hv.step hown hstep) (sessionInv_init h)

/-- A process that opens the device and closes it. -/
theorem registered_along_close :
    Along (FileStep nFib) (RegisteredAfter nFib)
      [.openFile ⟨1, 1⟩, .closeFile ⟨1, 1⟩ ⟨1, 1⟩] ⟨empty, []⟩ ↔
    Along (FileStep nFib) ClosesOwn [.openFile ⟨1, 1⟩, .closeFile ⟨1, 1⟩ ⟨1, 1⟩] ⟨empty, []⟩ :=
  registered_along ⟨⟨rfl, rfl⟩, rfl⟩ _

/-- A process that opens the device twice loses both entries when it closes the second file, and an entry
survives the file that a forked child closes last. -/
theorem close_not_own :
    ¬ Along (FileStep nFib) (RegisteredAfter nFib)
      [.openFile ⟨1, 1⟩, .openFile ⟨1, 1⟩, .closeFile ⟨1, 1⟩ ⟨1, 4⟩] ⟨empty, []⟩ ∧
    ¬ Along (FileStep nFib) (RegisteredAfter nFib)
      [.openFile ⟨1, 1⟩, .closeFile ⟨2, 2⟩ ⟨1, 1⟩] ⟨empty, []⟩ := by
  have hinit : SessionInv nFib ⟨empty, []⟩ := sessionInv_init ⟨⟨rfl, rfl⟩, rfl⟩
  have hopen : FileStep nFib ⟨empty, []⟩ (.openFile ⟨1, 1⟩) _ := .openFile _ _
  have hinv := hinit.step (closesOwn_open _ _) hopen
  refine ⟨fun hrun => ?_, fun hrun => ?_⟩
  · have hafter := ((hrun.2 _ hopen).2 _ (.openFile _ _)).1
    have hagain := hinv.step (closesOwn_open _ _) (.openFile _ ⟨1, 1⟩)
    have hown := (hagain.closes_own_iff ⟨1, 1⟩ ⟨1, 4⟩).mp hafter (by decide)
    exact absurd (hown.2 ⟨1, 1⟩ (by decide) rfl) (by decide)
  · have hafter := (hrun.2 _ hopen).1
    have hown := (hinv.closes_own_iff ⟨2, 2⟩ ⟨1, 1⟩).mp hafter (by decide)
    exact absurd hown.1 (by decide)

end LinuxFibers
