import LinuxFibers.Base.Slot
import LinuxFibers.Driver.Readdir
import LinuxFibers.Proof.Registry

/-!
# The link counts of the directories read

`Pre_Handler_Readdir` increments the link count once for every entry of the process that the directory names, and
leaves the array of the last one in `new_tgid_base_stuff`; `Post_Handler_Readdir` decrements only the count of the
read whose array is there. The global is the slot of `SlotReferences`: `links_restored_iff` says that the counts
come back exactly in the runs that never overwrite it, and never take two links for one read.
-/

namespace LinuxFibers

open HeapTable Runs SlotReferences

/-! ### The arrays of the directories -/

/-- The addresses of the arrays `fiber_base_stuff`. -/
def Process.arrays (p : Process) : List Nat := p.listafiberStuff.map fun d => d.val.fiberBaseStuff.addr

theorem addEntry_arrays {entry : PidEntry} {T U : Table FiberStuff} (hok : addEntry entry T = .ok U) :
    (U.map fun d => d.val.fiberBaseStuff.addr) = T.map fun d => d.val.fiberBaseStuff.addr := by
  obtain ⟨⟨U', x⟩, hwalk, hok⟩ := bind_eq_ok.mp hok
  cases hok
  have hmap := Table.forEach_map (k := fun d : FiberStuff => d.fiberBaseStuff.addr) (fun p x p' x' _ hrun => ?_) hwalk
  · simpa [Function.comp_def] using congrArg (List.map Prod.snd) hmap
  · obtain ⟨stuff, hstore, hrun⟩ := bind_eq_ok.mp hrun
    cases hrun
    unfold storeEntry at hstore
    dsimp only at hstore
    split_ifs at hstore
    cases hstore
    rfl

theorem walkKeeps_arrays : WalkKeeps Process.arrays where
  fiber _ _ _ := rfl
  thread _ _ _ := rfl
  created _ _ _ _ _ _ hU := addEntry_arrays hU

/-- The arrays after an operation are arrays that were there, or handed out by it. -/
theorem performs_arrays {nFib : Nat} {s s' : State} (hinv : ∀ b ∈ s.processi, b.val.Inv s.kmem.next) {op : Op}
    (hok : Performs nFib s op s') : s.kmem.next ≤ s'.kmem.next ∧ ∀ b' ∈ s'.processi, ∀ a ∈ b'.val.arrays,
      (∃ b ∈ s.processi, a ∈ b.val.arrays) ∨ s.kmem.next ≤ a ∧ a < s'.kmem.next := by
  by_cases hfile : op.onOpenFile
  · obtain ⟨hmap, hle⟩ := walkKeeps_arrays.performs hinv hfile hok
    refine ⟨hle, fun b' hb' a ha => .inl ?_⟩
    have hmem : (b'.addr, b'.val.arrays) ∈ s.processi.map fun b => (b.addr, b.val.arrays) := by
      rw [← hmap]
      exact List.mem_map_of_mem hb'
    obtain ⟨b, hb, he⟩ := List.mem_map.mp hmem
    refine ⟨b, hb, ?_⟩
    rw [(Prod.mk.inj he).2]
    exact ha
  · obtain ⟨out, hok⟩ := hok
    cases op with
    | fibOpen c =>
      cases hok
      have hnext : (fibOpen nFib c s).kmem.next = s.kmem.next + 3 := rfl
      refine ⟨by omega, fun b' hb' a ha => ?_⟩
      rcases List.mem_cons.mp hb' with rfl | hb'
      · -- the array is the last of the three blocks of the new entry
        obtain rfl := List.mem_singleton.mp ha
        right
        rw [hnext]
        simp only
        omega
      · exact .inl ⟨b', hb', ha⟩
    | fibRelease c =>
      cases hok
      simp only [fibRelease, foldl_next freeProcess freeProcess_next]
      exact ⟨le_refl _, fun b' hb' a ha => .inl ⟨b', List.mem_of_mem_filter hb', ha⟩⟩
    | _ => exact absurd trivial hfile

namespace Readdir

/-! ### The calls of `inc_nlink` and `drop_nlink` -/

namespace Links

variable {l : Links} {inode : Nat} {start : Nat → BitVec 32}

def taken (l : Links) (inode : Nat) : Nat := l.calls.count (.inc inode)

def back (l : Links) (inode : Nat) : Nat := l.calls.count (.drop inode)

theorem taken_incNlink : (incNlink inode l).taken = Function.update l.taken inode (l.taken inode + 1) := by
  funext j
  by_cases hj : j = inode
  · subst hj
    simp [taken, incNlink]
  · have hne : LinkCall.inc inode ≠ .inc j := fun he => hj (LinkCall.inc.inj he).symm
    simp [taken, incNlink, hj, List.count_cons_of_ne hne]

theorem back_incNlink : (incNlink inode l).back = l.back := by
  funext j
  exact List.count_cons_of_ne LinkCall.noConfusion

theorem taken_dropNlink : (dropNlink inode l).taken = l.taken := by
  funext j
  exact List.count_cons_of_ne LinkCall.noConfusion

theorem back_dropNlink : (dropNlink inode l).back = Function.update l.back inode (l.back inode + 1) := by
  funext j
  by_cases hj : j = inode
  · subst hj
    simp [back, dropNlink]
  · have hne : LinkCall.drop inode ≠ .drop j := fun he => hj (LinkCall.drop.inj he).symm
    simp [back, dropNlink, hj, List.count_cons_of_ne hne]

theorem taken_iterate (n : Nat) : ((incNlink inode)^[n] l).taken = Function.update l.taken inode (l.taken inode + n) := by
  induction n with
  | zero => simp
  | succ n ih =>
    rw [Function.iterate_succ_apply', taken_incNlink, ih, Function.update_self, Function.update_idem, Nat.add_assoc]

theorem back_iterate (n : Nat) : ((incNlink inode)^[n] l).back = l.back := by
  induction n with
  | zero => rfl
  | succ n ih => rw [Function.iterate_succ_apply', back_incNlink, ih]

/-- The link counts are those at the start with the calls counted in. -/
def Counted (start : Nat → BitVec 32) (l : Links) : Prop :=
  ∀ inode, l.nlink inode + BitVec.ofNat 32 (l.back inode) = start inode + BitVec.ofNat 32 (l.taken inode)

theorem Counted.incNlink (h : l.Counted start) (inode : Nat) : (incNlink inode l).Counted start := by
  intro j
  have hj := h j
  rw [back_incNlink, taken_incNlink]
  by_cases he : j = inode
  · subst he
    simp only [Readdir.incNlink, Function.update_self, BitVec.ofNat_add]
    grind
  · simp only [Readdir.incNlink, Function.update_of_ne he]
    exact hj

theorem Counted.dropNlink (h : l.Counted start) (inode : Nat) : (dropNlink inode l).Counted start := by
  intro j
  have hj := h j
  rw [taken_dropNlink, back_dropNlink]
  by_cases he : j = inode
  · subst he
    simp only [Readdir.dropNlink, Function.update_self, BitVec.ofNat_add]
    grind
  · simp only [Readdir.dropNlink, Function.update_of_ne he]
    exact hj

theorem Counted.iterate (h : l.Counted start) (n : Nat) : ((Readdir.incNlink inode)^[n] l).Counted start := by
  induction n with
  | zero => exact h
  | succ n ih =>
    rw [Function.iterate_succ_apply']
    exact ih.incNlink inode

end Links

/-! ### What the handlers do -/

section handlers

variable {locals : HandlerLocals} {regs regs' : Regs} {s : Shared}

/-- The entries for which `Pre_Handler_Readdir` increments the link count. -/
def named (locals : HandlerLocals) (file : File) (T : Table Process) : Table Process :=
  if file.name = "fibers" then [] else entriesOf (pidOfName file.name.toList locals.myid) T

/-- The file stays, and the array is one of the arrays walked or stays. -/
theorem foldl_listStuff (l : Table FiberStuff) (x : Regs × Int) :
    (l.foldl listStuff x).1.file = x.1.file ∧ ((l.foldl listStuff x).1.dx = x.1.dx ∨
      ∃ d ∈ l, (l.foldl listStuff x).1.dx = .block d.val.fiberBaseStuff.addr) := by
  induction l generalizing x with
  | nil => exact ⟨rfl, .inl rfl⟩
  | cons d l ih =>
    obtain ⟨hfile, hdx⟩ := ih (listStuff x d)
    rw [List.foldl_cons]
    refine ⟨hfile, .inr ?_⟩
    rcases hdx with hdx | ⟨e, he, hdx⟩
    · exact ⟨d, List.mem_cons_self, hdx⟩
    · exact ⟨e, List.mem_cons_of_mem _ he, hdx⟩

/-- Every entry gets an array of its own, and the last one is left in the global. -/
theorem foldl_listProcess (locals : HandlerLocals) (b : Block Process) (l : Table Process) (regs : Regs) (s : Shared) :
    (b :: l).foldl (listProcess locals) (regs, s) =
      ({ file := regs.file
         dx := .block (s.driver.kmem.next + l.length)
         ents := (b :: l).foldl (fun ents _ => addFibersEntry locals ents) regs.ents },
       { driver := { s.driver with kmem := { s.driver.kmem with next := s.driver.kmem.next + (l.length + 1) } }
         newTgidBaseStuff := some (s.driver.kmem.next + l.length)
         links := (incNlink regs.file.fInode)^[l.length + 1] s.links }) := by
  induction l generalizing b regs s with
  | nil => rfl
  | cons c l ih =>
    rw [List.foldl_cons, listProcess]
    simp only [kzalloc]
    rw [ih]
    simp only [List.length_cons, List.foldl_cons, Function.iterate_succ_apply]
    have hadd : s.driver.kmem.next + 1 + l.length = s.driver.kmem.next + (l.length + 1) := by omega
    have hadd' : s.driver.kmem.next + 1 + (l.length + 1) = s.driver.kmem.next + (l.length + 1 + 1) := by omega
    rw [hadd, hadd']

/-- The two ways through `Pre_Handler_Readdir`. -/
inductive PreCase (locals : HandlerLocals) (regs : Regs) (s : Shared) : Regs → Shared → Prop
  | none {regs' : Regs} (hnamed : named locals regs.file s.driver.processi = []) (hfile : regs'.file = regs.file)
      (hdx : regs'.dx = regs.dx ∨ ∃ b ∈ s.driver.processi, ∃ a ∈ b.val.arrays, regs'.dx = .block a) :
      PreCase locals regs s regs' s
  | some {n : Nat} {ents : PidEnts} (hnamed : (named locals regs.file s.driver.processi).length = n + 1) :
      PreCase locals regs s
        { file := regs.file
          dx := .block (s.driver.kmem.next + n)
          ents := ents }
        { driver := { s.driver with kmem := { s.driver.kmem with next := s.driver.kmem.next + (n + 1) } }
          newTgidBaseStuff := .some (s.driver.kmem.next + n)
          links := (incNlink regs.file.fInode)^[n + 1] s.links }

/-- Forgetting the addresses and the links, the handler is the one that tells what a directory lists. -/
theorem preHandlerReaddir_ents : (preHandlerReaddir locals regs s).1.ents =
    LinuxFibers.preHandlerReaddir regs.file.name regs.file.parent locals s.driver.processi regs.ents := by
  by_cases hname : regs.file.name = "fibers"
  · have hfold : ∀ l : Table FiberStuff, l.foldl (fun _ d => (PidEnts.mk d.val.fiberBaseStuff.val d.val.lenFiberStuff,
        (d.val.lenFiberStuff : Int))) (regs.ents, locals.nFibers) =
          ((l.foldl listStuff (regs, locals.nFibers)).1.ents, (l.foldl listStuff (regs, locals.nFibers)).2) := by
      intro l
      exact @List.foldl_hom _ _ _ (fun x : Regs × Int => (x.1.ents, x.2)) listStuff _ l (regs, locals.nFibers)
        fun _ _ => rfl
    simp only [preHandlerReaddir, LinuxFibers.preHandlerReaddir, preHandler, if_pos hname, hfold]
    split_ifs
    · rfl
    · rfl
  · have hfold : ∀ l : Table Process, l.foldl (fun ents _ => addFibersEntry locals ents) regs.ents =
        (l.foldl (listProcess locals) (regs, s)).1.ents := by
      intro l
      exact @List.foldl_hom _ _ _ (fun x : Regs × Shared => x.1.ents) (listProcess locals) _ l (regs, s)
        fun _ _ => rfl
    simp only [preHandlerReaddir, LinuxFibers.preHandlerReaddir, preHandler, if_neg hname, hfold]

/-- The arm for the directory `fibers` takes no link. -/
theorem preHandlerReaddir_fibers (locals : HandlerLocals) (s : Shared) (hname : regs.file.name = "fibers") :
    preHandlerReaddir locals regs s =
      ({ (((entriesOf (pidOfName regs.file.parent.toList locals.parent) s.driver.processi).flatMap fun b =>
          b.val.listafiberStuff).foldl listStuff (regs, locals.nFibers)).1 with
        ents := LinuxFibers.preHandlerReaddir regs.file.name regs.file.parent locals s.driver.processi regs.ents },
      s) := by
  have hents : (preHandlerReaddir locals regs s).1.ents = _ := preHandlerReaddir_ents
  rw [← hents]
  unfold preHandlerReaddir
  rw [if_pos hname]
  dsimp only
  split_ifs
  · rfl
  · rfl

theorem preHandlerReaddir_named (hname : regs.file.name ≠ "fibers") : preHandlerReaddir locals regs s =
    (named locals regs.file s.driver.processi).foldl (listProcess locals) (regs, s) := by
  simp only [preHandlerReaddir, named, if_neg hname]

theorem preHandlerReaddir_spec (locals : HandlerLocals) (regs : Regs) (s : Shared) :
    PreCase locals regs s (preHandlerReaddir locals regs s).1 (preHandlerReaddir locals regs s).2 := by
  by_cases hname : regs.file.name = "fibers"
  · rw [preHandlerReaddir_fibers locals s hname]
    obtain ⟨hfile, hdx⟩ := foldl_listStuff ((entriesOf (pidOfName regs.file.parent.toList locals.parent)
      s.driver.processi).flatMap fun b => b.val.listafiberStuff) (regs, locals.nFibers)
    refine .none (if_pos hname) hfile (hdx.imp_right ?_)
    rintro ⟨d, hd, hdx⟩
    obtain ⟨b, hb, hd⟩ := List.mem_flatMap.mp hd
    exact ⟨b, List.mem_of_mem_filter (List.mem_of_mem_filter hb), _, List.mem_map_of_mem hd, hdx⟩
  · rw [preHandlerReaddir_named hname]
    cases hl : named locals regs.file s.driver.processi with
    | nil => exact .none hl rfl (.inl rfl)
    | cons b l =>
      rw [foldl_listProcess]
      exact .some (by rw [hl, List.length_cons])

end handlers

/-! ### The reads under way -/

/-- The address in `new_tgid_base_stuff`, as a register holds it. -/
def Shared.last (s : Shared) : Option EntsPtr := s.newTgidBaseStuff.map .block

/-- The inodes of the reads under way whose array is in `new_tgid_base_stuff`. -/
def Reads.owed (r : Reads) : Set Nat :=
  { inode | ∃ cpu regs, r.pending cpu = some regs ∧ r.shared.last = some regs.dx ∧ regs.file.fInode = inode }

/-- `Pre_Handler_Readdir` takes no link; or it takes one, and no read under way has its array in
`new_tgid_base_stuff`. -/
def Tidy (r : Reads) : Event → Prop
  | .pre _ locals file _ _ => named locals file r.shared.driver.processi = [] ∨
      (named locals file r.shared.driver.processi).length = 1 ∧
        ∀ cpu regs, r.pending cpu = some regs → r.shared.last ≠ some regs.dx
  | _ => True

/-- Which addresses have been handed out, and that no two of them stand for the same array. -/
structure Fresh (r : Reads) : Prop where
  entries : ∀ b ∈ r.shared.driver.processi, b.val.Inv r.shared.driver.kmem.next
  arrays : ∀ b ∈ r.shared.driver.processi, ∀ a ∈ b.val.arrays,
    a < r.shared.driver.kmem.next ∧ r.shared.newTgidBaseStuff ≠ some a
  last : ∀ a, r.shared.newTgidBaseStuff = some a → a < r.shared.driver.kmem.next
  pending : ∀ cpu regs a, r.pending cpu = some regs → regs.dx = .block a → a < r.shared.driver.kmem.next
  one : ∀ cpu cpu' regs regs', r.pending cpu = some regs → r.pending cpu' = some regs' →
    r.shared.last = some regs.dx → r.shared.last = some regs'.dx → cpu = cpu'

section reads

variable {nFib : Nat} {r r' : Reads} {cpu : Nat} {regs : Regs} {s : Shared} {e : Event}

theorem owed_eq_empty : r.owed = ∅ ↔ ∀ cpu regs, r.pending cpu = some regs → r.shared.last ≠ some regs.dx := by
  rw [Set.eq_empty_iff_forall_notMem]
  constructor
  · intro h cpu regs hregs hlast
    exact h _ ⟨cpu, regs, hregs, hlast, rfl⟩
  · rintro h inode ⟨cpu, regs, hregs, hlast, -⟩
    exact h cpu regs hregs hlast

/-- With no read under way nothing is owed. -/
theorem owed_of_idle (hidle : ∀ cpu, r.pending cpu = none) : r.owed = ∅ := by
  rw [owed_eq_empty]
  intro cpu regs hregs
  rw [hidle cpu] at hregs
  cases hregs

/-- What is pending after a read has begun. -/
theorem pending_begin {cpu' : Nat} {regs' : Regs} (h : Function.update r.pending cpu (some regs) cpu' = some regs') :
    cpu' = cpu ∧ regs' = regs ∨ r.pending cpu' = some regs' := by
  by_cases hcpu : cpu' = cpu
  · subst hcpu
    rw [Function.update_self] at h
    exact .inl ⟨rfl, (Option.some.inj h).symm⟩
  · rw [Function.update_of_ne hcpu] at h
    exact .inr h

/-- What is pending after a read has ended. -/
theorem pending_end {cpu' : Nat} {regs' : Regs} (h : Function.update r.pending cpu none cpu' = some regs') :
    cpu' ≠ cpu ∧ r.pending cpu' = some regs' := by
  by_cases hcpu : cpu' = cpu
  · subst hcpu
    rw [Function.update_self] at h
    cases h
  · rw [Function.update_of_ne hcpu] at h
    exact ⟨hcpu, h⟩

theorem owed_begin (hidle : r.pending cpu = none) (hdx : r.shared.last ≠ some regs.dx) :
    Reads.owed ⟨r.shared, Function.update r.pending cpu (some regs)⟩ = r.owed := by
  ext inode
  constructor
  · rintro ⟨cpu', regs', hregs, hlast, rfl⟩
    rcases pending_begin hregs with ⟨-, rfl⟩ | hregs
    · exact absurd hlast hdx
    · exact ⟨cpu', regs', hregs, hlast, rfl⟩
  · rintro ⟨cpu', regs', hregs, hlast, rfl⟩
    have hcpu : cpu' ≠ cpu := by
      rintro rfl
      rw [hidle] at hregs
      cases hregs
    refine ⟨cpu', regs', ?_, hlast, rfl⟩
    exact (Function.update_of_ne hcpu ..).trans hregs

theorem owed_take (hlast : s.last = some regs.dx)
    (hnew : ∀ cpu' regs', r.pending cpu' = some regs' → s.last ≠ some regs'.dx) :
    Reads.owed ⟨s, Function.update r.pending cpu (some regs)⟩ = {regs.file.fInode} := by
  ext inode
  rw [Set.mem_singleton_iff]
  constructor
  · rintro ⟨cpu', regs', hregs, hlast', rfl⟩
    rcases pending_begin hregs with ⟨-, rfl⟩ | hregs
    · rfl
    · exact absurd hlast' (hnew cpu' regs' hregs)
  · rintro rfl
    exact ⟨cpu, regs, Function.update_self .., hlast, rfl⟩

theorem Fresh.owed_eq (h : Fresh r) (hregs : r.pending cpu = some regs) (hlast : r.shared.last = some regs.dx) :
    r.owed = {regs.file.fInode} := by
  ext inode
  rw [Set.mem_singleton_iff]
  constructor
  · rintro ⟨cpu', regs', hregs', hlast', rfl⟩
    obtain rfl := h.one _ _ _ _ hregs hregs' hlast hlast'
    rw [Option.some.inj (hregs.symm.trans hregs')]
  · rintro rfl
    exact ⟨cpu, regs, hregs, hlast, rfl⟩

theorem Fresh.owed_give (h : Fresh r) (hregs : r.pending cpu = some regs) (hlast : r.shared.last = some regs.dx)
    (hs : s.last = r.shared.last) : Reads.owed ⟨s, Function.update r.pending cpu none⟩ = ∅ := by
  rw [owed_eq_empty]
  intro cpu' regs' hregs' hlast'
  obtain ⟨hcpu, hregs'⟩ := pending_end hregs'
  exact hcpu (h.one _ _ _ _ hregs' hregs (hs.symm.trans hlast') hlast)

theorem owed_end (hregs : r.pending cpu = some regs) (hlast : r.shared.last ≠ some regs.dx) :
    Reads.owed ⟨r.shared, Function.update r.pending cpu none⟩ = r.owed := by
  ext inode
  constructor
  · rintro ⟨cpu', regs', hregs', hlast', rfl⟩
    exact ⟨cpu', regs', (pending_end hregs').2, hlast', rfl⟩
  · rintro ⟨cpu', regs', hregs', hlast', rfl⟩
    have hcpu : cpu' ≠ cpu := by
      rintro rfl
      rw [hregs] at hregs'
      obtain rfl := Option.some.inj hregs'
      exact hlast hlast'
    refine ⟨cpu', regs', ?_, hlast', rfl⟩
    exact (Function.update_of_ne hcpu ..).trans hregs'

/-- An array of the kernel or of a directory is not the one that `new_tgid_base_stuff` points to. -/
theorem Fresh.not_last_array (h : Fresh r) {array : Nat} (hdx : regs.dx = .kernel array ∨
    ∃ b ∈ r.shared.driver.processi, ∃ a ∈ b.val.arrays, regs.dx = .block a) : r.shared.last ≠ some regs.dx := by
  intro hlast
  obtain ⟨a, ha, hdx'⟩ := Option.map_eq_some_iff.mp hlast
  rcases hdx with hdx | ⟨b, hb, a', ha', hdx⟩
  · exact EntsPtr.noConfusion (hdx'.trans hdx)
  · obtain rfl := EntsPtr.block.inj (hdx'.trans hdx)
    exact (h.arrays b hb a ha').2 ha

/-- An array that was there before `new_tgid_base_stuff` was assigned is not the one it points to. -/
theorem Fresh.not_last (h : Fresh r) {n : Nat} (hregs : r.pending cpu = some regs) :
    some (EntsPtr.block (r.shared.driver.kmem.next + n)) ≠ some regs.dx := by
  intro he
  have hlt := h.pending cpu regs _ hregs (Option.some.inj he).symm
  omega

/-! ### What a step does to the links -/

/-- A step takes no link and gives none back, or takes links of one inode, or gives back what is owed. -/
inductive Effect (r : Reads) (e : Event) (r' : Reads) : Prop
  | keeps (htidy : Tidy r e) (hlinks : r'.shared.links = r.shared.links) (howed : r'.owed = r.owed)
  | takes {inode n : Nat} (htidy : Tidy r e ↔ n = 0 ∧ r.owed = ∅)
      (hlinks : r'.shared.links = (incNlink inode)^[n + 1] r.shared.links) (howed : r'.owed = {inode})
  | gives {inode : Nat} (htidy : Tidy r e) (hlinks : r'.shared.links = dropNlink inode r.shared.links)
      (howed : r.owed = {inode}) (howed' : r'.owed = ∅)

theorem Step.effect (hfresh : Fresh r) (h : Step nFib r e r') : Effect r e r' := by
  cases h with
  | @pre cpu locals file array ents regs s hidle hpre =>
    have hspec := preHandlerReaddir_spec locals ⟨file, .kernel array, ents⟩ r.shared
    rw [hpre] at hspec
    cases hspec with
    | none hnamed hfile hdx =>
      exact .keeps (.inl hnamed) rfl (owed_begin hidle (hfresh.not_last_array hdx))
    | @some n ents' hnamed =>
      refine .takes (n := n) ?_ rfl (owed_take rfl fun cpu' regs' hregs => hfresh.not_last hregs)
      rw [owed_eq_empty, Tidy, ← List.length_eq_zero_iff, hnamed]
      constructor
      · rintro (hzero | ⟨hone, howed⟩)
        · omega
        · exact ⟨by omega, howed⟩
      · rintro ⟨rfl, howed⟩
        exact .inr ⟨rfl, howed⟩
  | @post cpu regs hregs =>
    by_cases hlast : r.shared.last = some regs.dx
    · have hpost : postHandlerReaddir regs r.shared =
          { r.shared with links := dropNlink regs.file.fInode r.shared.links } := if_pos hlast
      rw [hpost]
      exact .gives trivial rfl (hfresh.owed_eq hregs hlast) (hfresh.owed_give hregs hlast rfl)
    · have hpost : postHandlerReaddir regs r.shared = r.shared := if_neg hlast
      rw [hpost]
      exact .keeps trivial rfl (owed_end hregs hlast)
  | driver hok => exact .keeps trivial rfl rfl

/-! ### Addresses along a run -/

theorem postHandlerReaddir_eq (regs : Regs) (s : Shared) :
    ∃ links, postHandlerReaddir regs s = { s with links := links } := by
  unfold postHandlerReaddir
  split_ifs
  · exact ⟨_, rfl⟩
  · exact ⟨_, rfl⟩

/-- A read begins with an array of the kernel or of a directory. -/
theorem Fresh.begin (h : Fresh r) {array : Nat} (hdx : regs.dx = .kernel array ∨
    ∃ b ∈ r.shared.driver.processi, ∃ a ∈ b.val.arrays, regs.dx = .block a) :
    Fresh ⟨r.shared, Function.update r.pending cpu (some regs)⟩ := by
  have hne := h.not_last_array hdx
  refine ⟨h.entries, h.arrays, h.last, fun cpu' regs' a hregs hdx' => ?_, fun cpu₁ cpu₂ regs₁ regs₂ h₁ h₂ hl₁ hl₂ => ?_⟩
  · rcases pending_begin hregs with ⟨-, rfl⟩ | hregs
    · rcases hdx with hdx | ⟨b, hb, a', ha', hdx⟩
      · exact EntsPtr.noConfusion (hdx'.symm.trans hdx)
      · obtain rfl := EntsPtr.block.inj (hdx'.symm.trans hdx)
        exact (h.arrays b hb a ha').1
    · exact h.pending cpu' regs' a hregs hdx'
  · rcases pending_begin h₁ with ⟨-, rfl⟩ | h₁
    · exact absurd hl₁ hne
    · rcases pending_begin h₂ with ⟨-, rfl⟩ | h₂
      · exact absurd hl₂ hne
      · exact h.one _ _ _ _ h₁ h₂ hl₁ hl₂

/-- A read begins with the last of the arrays that are handed out for it. -/
theorem Fresh.take (h : Fresh r) {n : Nat} {links : Links}
    (hdx : regs.dx = .block (r.shared.driver.kmem.next + n)) :
    Fresh ⟨{ driver := { r.shared.driver with
               kmem := { r.shared.driver.kmem with next := r.shared.driver.kmem.next + (n + 1) } }
             newTgidBaseStuff := some (r.shared.driver.kmem.next + n)
             links := links }, Function.update r.pending cpu (some regs)⟩ := by
  have hle : r.shared.driver.kmem.next ≤ r.shared.driver.kmem.next + (n + 1) := Nat.le_add_right ..
  have hlt : r.shared.driver.kmem.next + n < r.shared.driver.kmem.next + (n + 1) := by omega
  refine ⟨fun b hb => (h.entries b hb).mono hle, fun b hb a ha => ?_, fun a ha => ?_, fun cpu' regs' a hregs hdx' => ?_,
    fun cpu₁ cpu₂ regs₁ regs₂ h₁ h₂ hl₁ hl₂ => ?_⟩
  · have hold := (h.arrays b hb a ha).1
    refine ⟨hold.trans_le hle, fun he => ?_⟩
    have := Option.some.inj he
    omega
  · rw [← Option.some.inj ha]
    exact hlt
  · rcases pending_begin hregs with ⟨-, rfl⟩ | hregs
    · rw [← EntsPtr.block.inj (hdx.symm.trans hdx')]
      exact hlt
    · exact (h.pending cpu' regs' a hregs hdx').trans_le hle
  · -- of the reads under way only the new one has the new array
    rcases pending_begin h₁ with ⟨rfl, -⟩ | h₁
    · rcases pending_begin h₂ with ⟨rfl, -⟩ | h₂
      · rfl
      · exact absurd hl₂ (h.not_last h₂)
    · exact absurd hl₁ (h.not_last h₁)

theorem Fresh.finish (h : Fresh r) {links : Links} :
    Fresh ⟨{ r.shared with links := links }, Function.update r.pending cpu none⟩ := by
  refine ⟨h.entries, h.arrays, h.last, fun cpu' regs' a hregs hdx => ?_, fun cpu₁ cpu₂ regs₁ regs₂ h₁ h₂ hl₁ hl₂ => ?_⟩
  · exact h.pending cpu' regs' a (pending_end hregs).2 hdx
  · exact h.one _ _ _ _ (pending_end h₁).2 (pending_end h₂).2 hl₁ hl₂

theorem Fresh.performs (h : Fresh r) {op : Op} {s' : State} (hok : Performs nFib r.shared.driver op s') :
    Fresh { r with shared := { r.shared with driver := s' } } := by
  obtain ⟨hle, harrays⟩ := performs_arrays h.entries hok
  obtain ⟨out, hok⟩ := hok
  refine ⟨fun b hb => ?_, fun b hb a ha => ?_, fun a ha => (h.last a ha).trans_le hle,
    fun cpu regs a hregs hdx => (h.pending cpu regs a hregs hdx).trans_le hle, h.one⟩
  · exact (entryInvariant_true.step (fun b hb => ⟨h.entries b hb, trivial⟩) hok b hb).1
  · rcases harrays b hb a ha with ⟨b', hb', ha'⟩ | ⟨hge, hlt⟩
    · obtain ⟨hlt, hne⟩ := h.arrays b' hb' a ha'
      exact ⟨hlt.trans_le hle, hne⟩
    · exact ⟨hlt, fun hlast => absurd (h.last a hlast) (Nat.not_lt.mpr hge)⟩

theorem Step.fresh (hfresh : Fresh r) (h : Step nFib r e r') : Fresh r' := by
  cases h with
  | @pre cpu locals file array ents regs s hidle hpre =>
    have hspec := preHandlerReaddir_spec locals ⟨file, .kernel array, ents⟩ r.shared
    rw [hpre] at hspec
    cases hspec with
    | none hnamed hfile hdx => exact hfresh.begin hdx
    | some hnamed => exact hfresh.take rfl
  | @post cpu regs hregs =>
    obtain ⟨links, hpost⟩ := postHandlerReaddir_eq regs r.shared
    rw [hpost]
    exact hfresh.finish
  | driver hok => exact hfresh.performs hok

/-! ### Whole runs -/

/-- Every link count is what it was at the start, and every `inc_nlink` has been matched by one `drop_nlink`. -/
def Restored (start : Nat → BitVec 32) (r : Reads) : Prop :=
  r.shared.links.nlink = start ∧ ∀ inode, r.shared.links.taken inode = r.shared.links.back inode

/-- Every link taken has been given back, or is owed. -/
def Reads.Settled (r : Reads) : Prop := SlotReferences.Exact r.shared.links.taken r.shared.links.back r.owed

/-- What a run keeps. -/
structure Kept (start : Nat → BitVec 32) (r : Reads) : Prop where
  fresh : Fresh r
  bounded : Bounded r.shared.links.taken r.shared.links.back r.owed
  counted : r.shared.links.Counted start

variable {start : Nat → BitVec 32}

theorem Starts.kept (h : Starts start r) : Kept start r := by
  refine ⟨⟨?_, ?_, ?_, ?_, ?_⟩, ?_, ?_⟩
  · rw [h.driver.1]
    exact fun b hb => absurd hb List.not_mem_nil
  · rw [h.driver.1]
    exact fun b hb => absurd hb List.not_mem_nil
  · intro a ha
    rw [h.newTgidBaseStuff] at ha
    cases ha
  · intro cpu regs a hregs
    rw [h.pending cpu] at hregs
    cases hregs
  · intro cpu cpu' regs regs' hregs
    rw [h.pending cpu] at hregs
    cases hregs
  · rw [owed_of_idle h.pending, h.links]
    exact bounded_zero
  · rw [h.links]
    exact fun _ => rfl

theorem Kept.step (h : Kept start r) (hstep : Step nFib r e r') : Kept start r' := by
  refine ⟨hstep.fresh h.fresh, ?_, ?_⟩
  · cases hstep.effect h.fresh with
    | keeps htidy hlinks howed =>
      rw [hlinks, howed]
      exact h.bounded
    | takes htidy hlinks howed =>
      rw [hlinks, howed, Links.taken_iterate, Links.back_iterate]
      exact h.bounded.take (Nat.succ_pos _)
    | gives htidy hlinks howed howed' =>
      rw [hlinks, howed', Links.taken_dropNlink, Links.back_dropNlink]
      exact h.bounded.give (by rw [howed]; exact Set.mem_singleton _)
  · cases hstep.effect h.fresh with
    | keeps htidy hlinks howed =>
      rw [hlinks]
      exact h.counted
    | takes htidy hlinks howed =>
      rw [hlinks]
      exact h.counted.iterate _
    | gives htidy hlinks howed howed' =>
      rw [hlinks]
      exact h.counted.dropNlink _

/-- A step neither makes up for a link that is lost nor, if it is tidy, loses one. -/
theorem Kept.settled_iff (h : Kept start r) (hstep : Step nFib r e r') : r'.Settled ↔ r.Settled ∧ Tidy r e := by
  unfold Reads.Settled
  cases hstep.effect h.fresh with
  | keeps htidy hlinks howed =>
    rw [hlinks, howed]
    exact (and_iff_left htidy).symm
  | @takes inode n htidy hlinks howed =>
    rw [hlinks, howed, Links.taken_iterate, Links.back_iterate, exact_take h.bounded (Nat.succ_pos n), htidy,
      Nat.succ_inj]
  | gives htidy hlinks howed howed' =>
    rw [hlinks, howed, howed', Links.taken_dropNlink, Links.back_dropNlink, exact_give]
    exact (and_iff_left htidy).symm

theorem run_kept {tr : List Event} (hrun : Run (Starts start) (Step nFib) r tr) : Kept start r :=
  hrun.invariant (P := fun r _ => Kept start r) (fun _ h => h.kept) fun _ _ _ _ _ h hs => h.step hs

/-- With nothing owed the counts are restored exactly if the links are settled. -/
theorem Kept.restored_iff (h : Kept start r) (howed : r.owed = ∅) : Restored start r ↔ r.Settled := by
  rw [Reads.Settled, howed, exact_empty]
  refine and_iff_right_of_imp fun hsame => ?_
  funext inode
  have hcounted := h.counted inode
  rw [hsame inode] at hcounted
  exact add_right_cancel hcounted

/-- **The links taken and given back.** A run after which no read is under way restores every link count exactly
if each of its calls of `Pre_Handler_Readdir` took no link, or a single one while no read under way had its array
in `new_tgid_base_stuff`. -/
theorem links_restored_iff {tr : List Event} (hrun : Run (Starts start) (Step nFib) r tr)
    (hdone : ∀ cpu, r.pending cpu = none) :
    Restored start r ↔ Run (Starts start) (Guarded Tidy (Step nFib)) r tr := by
  rw [(run_kept hrun).restored_iff (owed_of_idle hdone)]
  refine Run.holds_iff_guarded (P := Reads.Settled) ?_ ?_ hrun
  · intro r h
    rw [Reads.Settled, owed_of_idle h.pending, h.links]
    exact exact_empty.mpr fun _ => rfl
  · exact fun r tr e r' hr hs => (run_kept hr).settled_iff hs

end reads

/-! ### Runs that are evaluated -/

/-- The directory of process 1, whose inode is 7. -/
def dirOfOne : File := ⟨"1", "proc", 7⟩

/-- A read of that directory begins, with an array that is empty. -/
def beginOne (cpu : Nat) : Event :=
  .pre cpu { parent := 0, myid := 0, nFibers := 0, iop := none, fop := none } dirOfOne 0 ⟨[], 0⟩

/-- Nothing is registered and every link count is 2. -/
def noReads : Reads where
  shared := { driver := empty, newTgidBaseStuff := none, links := ⟨fun _ => 2, []⟩ }
  pending _ := none

theorem starts_noReads : Starts (fun _ => 2) noReads := ⟨⟨rfl, rfl⟩, rfl, rfl, fun _ => rfl⟩

/-- One read of the directory of a process that is registered once. -/
theorem links_restored_iff_once : ∃ r, Run (Starts fun _ => 2) (Step nFib) r
    [.post 0, beginOne 0, .driver (.fibOpen ⟨1, 1⟩)] ∧ r.shared.links.taken 7 = 1 ∧ Restored (fun _ => 2) r := by
  have hopen : Run (Starts fun _ => 2) (Guarded Tidy (Step nFib)) _ [.driver (.fibOpen ⟨1, 1⟩)] :=
    (Run.start starts_noReads).step ⟨.driver ⟨_, rfl⟩, trivial⟩
  have hbegin : Run (Starts fun _ => 2) (Guarded Tidy (Step nFib)) _ [beginOne 0, .driver (.fibOpen ⟨1, 1⟩)] :=
    hopen.step ⟨.pre rfl rfl, .inr ⟨by decide +kernel, fun _ _ h => by cases h⟩⟩
  have hend : Run (Starts fun _ => 2) (Guarded Tidy (Step nFib)) _
      [.post 0, beginOne 0, .driver (.fibOpen ⟨1, 1⟩)] := hbegin.step ⟨.post rfl, trivial⟩
  refine ⟨_, hend.of_guarded, by decide +kernel, (links_restored_iff hend.of_guarded ?_).mpr hend⟩
  intro cpu
  simp only [Function.update_apply]
  split_ifs
  · rfl
  · rfl

/-- Two reads that overlap on two CPUs; and a single read of the directory of a process that is registered twice. -/
theorem link_not_restored :
    (∃ r, Run (Starts fun _ => 2) (Step nFib) r
        [.post 1, .post 0, beginOne 1, beginOne 0, .driver (.fibOpen ⟨1, 1⟩)] ∧
      (∀ cpu, r.pending cpu = none) ∧ r.shared.links.nlink 7 = 3 ∧ ¬ Restored (fun _ => 2) r) ∧
    ∃ r, Run (Starts fun _ => 2) (Step nFib) r
        [.post 0, beginOne 0, .driver (.fibOpen ⟨1, 1⟩), .driver (.fibOpen ⟨1, 1⟩)] ∧
      (∀ cpu, r.pending cpu = none) ∧ r.shared.links.nlink 7 = 3 ∧ ¬ Restored (fun _ => 2) r := by
  have hlost : ∀ {r : Reads}, r.shared.links.nlink 7 = 3 → ¬ Restored (fun _ => 2) r := by
    intro r hnlink hrestored
    rw [hrestored.1] at hnlink
    exact absurd hnlink (by decide)
  have hopen : Run (Starts fun _ => 2) (Step nFib) _ [.driver (.fibOpen ⟨1, 1⟩)] :=
    (Run.start starts_noReads).step (.driver ⟨_, rfl⟩)
  have hbegin : Run (Starts fun _ => 2) (Step nFib) _ [beginOne 1, beginOne 0, .driver (.fibOpen ⟨1, 1⟩)] :=
    (hopen.step (.pre rfl rfl)).step (.pre rfl rfl)
  have htwice : Run (Starts fun _ => 2) (Step nFib) _
      [beginOne 0, .driver (.fibOpen ⟨1, 1⟩), .driver (.fibOpen ⟨1, 1⟩)] :=
    (hopen.step (.driver ⟨_, rfl⟩)).step (.pre rfl rfl)
  constructor
  · refine ⟨_, (hbegin.step (.post rfl)).step (.post rfl), fun cpu => ?_, by decide +kernel, hlost (by decide +kernel)⟩
    simp only [Function.update_apply]
    split_ifs
    · rfl
    · rfl
    · rfl
  · refine ⟨_, htwice.step (.post rfl), fun cpu => ?_, by decide +kernel, hlost (by decide +kernel)⟩
    simp only [Function.update_apply]
    split_ifs
    · rfl
    · rfl

end Readdir

end LinuxFibers
