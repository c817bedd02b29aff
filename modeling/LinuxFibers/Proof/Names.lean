import Mathlib.Data.List.TakeWhile
import LinuxFibers.Driver.Proc
import LinuxFibers.Proof.Directory

/-!
# The names in the directory of a process

`do_fib_create` counts the fibers of a process, files one entry per fiber and prints its id into the name;
`myread` parses the name back. `reached_listed` says that the three agree in every reachable state.
`listing_disagrees` is about the two probes: a directory that lists `fibers` never finds it.
-/

namespace LinuxFibers

open HeapTable Runs

/-! ### Printing and parsing -/

section parse

variable {k : Nat}

theorem entryName_toList (k : Nat) : (entryName k).toList = 'f' :: Nat.toDigits 10 k := by
  rw [entryName, String.toList_append]
  simp [toString, Int.repr, Nat.toList_repr]

theorem takeWhile_toDigits : (Nat.toDigits 10 k).takeWhile Char.isDigit = Nat.toDigits 10 k :=
  List.takeWhile_eq_self_iff.mpr fun _ hc => Nat.isDigit_of_mem_toDigits (by decide) (by decide) hc

theorem dropWhile_toDigits : (Nat.toDigits 10 k).dropWhile Char.isDigit = [] :=
  List.dropWhile_eq_nil_iff.mpr fun _ hc => Nat.isDigit_of_mem_toDigits (by decide) (by decide) hc

/-- A number that was printed starts with a digit and not with a sign. -/
theorem kstrtoul_toDigits (hk : k < 2 ^ 64) : kstrtoul (Nat.toDigits 10 k) = some k := by
  have hparse : kstrtoullDigits (Nat.toDigits 10 k) = some k := by
    simp only [kstrtoullDigits, takeWhile_toDigits, dropWhile_toDigits, Nat.ofDigitChars_ten_toDigits]
    rw [if_pos ⟨Nat.toDigits_ne_nil, .inl trivial, hk⟩]
  unfold kstrtoul
  split
  · rename_i s hs
    have hsign := Nat.isDigit_of_mem_toDigits (b := 10) (n := k) (by decide) (by decide)
      (c := '+') (by rw [hs]; exact List.mem_cons_self)
    exact absurd hsign (by decide)
  · exact hparse

theorem kstrtol_toDigits (hk : k < 2 ^ 63) : kstrtol (Nat.toDigits 10 k) = some (k : Int) := by
  unfold kstrtol
  split
  · rename_i s hs
    have hsign := Nat.isDigit_of_mem_toDigits (b := 10) (n := k) (by decide) (by decide)
      (c := '-') (by rw [hs]; exact List.mem_cons_self)
    exact absurd hsign (by decide)
  · rw [kstrtoul_toDigits (by omega), Option.bind_some, if_pos hk]

/-- A printed id is short enough for its name to end inside the bytes allocated. -/
theorem entryName_length_lt (hk : (k : Int) ≤ pidMax) : (entryName k).length < nameSize := by
  have hbound : k < 10 ^ 10 := by
    simp only [pidMax] at hk
    omega
  have hdigits := (Nat.length_toDigits_le_iff (n := k) (k := 10) (by decide) (by decide)).mpr hbound
  rw [← String.length_toList, entryName_toList, List.length_cons, nameSize]
  omega

theorem entryName_ne_fibers (k : Nat) : entryName k ≠ "fibers" := by
  intro he
  have hlist := congrArg String.toList he
  rw [entryName_toList] at hlist
  have hi : 'i' ∈ Nat.toDigits 10 k := by
    rw [(List.cons.inj hlist).2]
    decide
  exact absurd (Nat.isDigit_of_mem_toDigits (by decide) (by decide) hi) (by decide)

end parse

/-! ### The directory of an entry -/

/-- The ids of the fibers count down from `lastFibId`, and the directory holds one named entry for each. -/
def Process.Filed (p : Process) : Prop :=
  p.listafiber.map (fun f => f.val.id) = (List.range p.lastFibId.toNat).reverse.map (fun i : Nat => (i : Int) + 1) ∧
    (0 ≤ p.lastFibId ∧ p.lastFibId ≤ pidMax) ∧
    ∃ a stuff, p.listafiberStuff = [⟨a, stuff⟩] ∧ (stuff.lenFiberStuff : Int) = p.lastFibId ∧
      ∀ i < stuff.lenFiberStuff, ∃ name,
        stuff.fiberBaseStuff.val[i]? = some (fibersEntryLog name ((i + 1 : Nat) : Int))

theorem Process.Filed.create {p : Process} (h : p.Filed) {name : Nat} {U : Table FiberStuff}
    (hlt : p.lastFibId < pidMax) (hU : addEntry (fibersEntryLog name (p.lastFibId + 1)) p.listafiberStuff = .ok U)
    {threads : Table Thread} {b : Block Fiber} (hb : b.val.id = p.lastFibId + 1) :
    Process.Filed { p with
      listathread := threads
      listafiber := b :: p.listafiber
      listafiberStuff := U
      lastFibId := p.lastFibId + 1 } := by
  obtain ⟨hids, hrange, a, stuff, hp, hlen, hnames⟩ := h
  rw [hp, addEntry_single] at hU
  obtain ⟨stuff', hstore, hU⟩ := bind_eq_ok.mp hU
  cases hU
  have hroom : stuff.lenFiberStuff < stuff.fiberBaseStuff.val.length := by
    by_contra hroom
    rw [storeEntry_full hroom] at hstore
    cases hstore
  rw [storeEntry_room hroom] at hstore
  cases hstore
  refine ⟨?_, ⟨by simp only; omega, by simp only; omega⟩, a, _, rfl, by simp only; omega, ?_⟩
  · have hnext : (p.lastFibId + 1).toNat = p.lastFibId.toNat + 1 := by omega
    simp only [List.map_cons, hids, hb, hnext, List.range_succ, List.reverse_append, List.reverse_singleton,
      List.singleton_append, List.cons.injEq, and_true]
    omega
  · intro i hi
    by_cases heq : i = stuff.lenFiberStuff
    · subst heq
      have hid : ((stuff.lenFiberStuff + 1 : Nat) : Int) = p.lastFibId + 1 := by omega
      exact ⟨name, by simp only [List.getElem?_set_self hroom, hid]⟩
    · obtain ⟨name', hname⟩ := hnames i (by simp only at hi; omega)
      exact ⟨name', by simp only [List.getElem?_set_ne (Ne.symm heq), hname]⟩

theorem Process.Filed.of_eq {p p' : Process} (h : p.Filed)
    (hids : p'.listafiber.map (fun f => f.val.id) = p.listafiber.map fun f => f.val.id)
    (hstuff : p'.listafiberStuff = p.listafiberStuff) (hlast : p'.lastFibId = p.lastFibId) : p'.Filed := by
  unfold Process.Filed
  rw [hids, hstuff, hlast]
  exact h

theorem filed_entry (nFib : Nat) : EntryInvariant nFib fun _ p => p.Filed where
  mono _ h := h
  opened n tgid :=
    ⟨rfl, ⟨le_refl (0 : Int), show (0 : Int) ≤ pidMax by decide⟩, _, _, rfl, rfl,
      fun i hi => absurd hi (Nat.not_lt_zero i)⟩
  convert {c cpu now p p' x x'} hinv h hok := by
    by_cases hkeep : x.flagControllo = true ∨ ∃ t ∈ p.listathread, t.val.id = c.pid
    · rw [convertProcess_keep hkeep] at hok
      cases hok
      exact h
    · push Not at hkeep
      rw [convertProcess_new (by simpa using hkeep.1) hkeep.2] at hok
      obtain ⟨U, hlt, hU, rfl, -⟩ := convertThread_ok hinv.threadBound hok
      exact h.create hlt hU rfl
  create hinv h hok := by
    obtain ⟨U, b, hlt, hU, rfl, rfl, -⟩ := createProcess_ok hok
    exact h.create hlt hU rfl
  switch {c id now p p' x x'} hinv h hok := by
    obtain ⟨q, y, hq, hcase⟩ := switchProcess_spec hinv.toWf c id now x
    rw [hok, Except.ok.injEq, Prod.mk.injEq] at hq
    obtain ⟨rfl, rfl⟩ := hq
    cases hcase with
    | notConverted | absent => exact h
    | self hc => exact h.of_eq (Process.fiberIds_modFiber (fun _ _ => rfl) hinv.fiberAddrs) rfl rfl
    | busy hc => exact h.of_eq (Process.fiberIds_modFiber (fun _ _ => rfl) hinv.fiberAddrs) rfl rfl
    | done => exact h.of_eq Process.fiberIds_exchanged rfl rfl
  fls {σ body c p p' x x' n} hbody hinv h hok := by
    rcases hinv.carries_or c.pid with hno | ⟨thread, r, f, hc⟩
    · rw [runnerProcess_none hno] at hok
      cases hok
      exact h
    · rw [runnerProcess_eq hinv.toWf hc] at hok
      obtain ⟨⟨f', x₁⟩, hf, hok⟩ := bind_eq_ok.mp hok
      cases hok
      obtain ⟨fls, bitmap, rfl⟩ := hbody _ _ _ _ hf
      refine h.of_eq (Process.fiberIds_modFiber (fun g hg => ?_) hinv.fiberAddrs) rfl rfl
      obtain rfl : f = g := Option.some.inj (hc.fiber.symm.trans hg)
      rfl

/-! ### What the directory says -/

/-- The entry is a file with the name of fiber `k`. -/
def PidEntry.NamesFiber (e : PidEntry) (k : Nat) : Prop :=
  ∃ name, e.name = some name ∧ name.val.toList = 'f' :: Nat.toDigits 10 k ∧ e.len = name.val.length ∧
    name.val.length + 1 ≤ nameSize ∧ fibIdOfName name.val.toList = some k

/-- The fibers of the entry are numbered without gaps, and its directory names each of them. -/
structure Process.Listed (p : Process) : Prop where
  nodup : (p.listafiber.map fun f => f.val.id).Nodup
  ids : ∀ k : Int, (∃ f ∈ p.listafiber, f.val.id = k) ↔ 1 ≤ k ∧ k ≤ p.lastFibId
  directory : ∃ d, p.listafiberStuff = [d] ∧ (d.val.lenFiberStuff : Int) = p.lastFibId ∧
    ∀ k : Nat, 1 ≤ k → (k : Int) ≤ p.lastFibId →
      ∃ e, d.val.fiberBaseStuff.val[k - 1]? = some e ∧ e.NamesFiber k

theorem namesFiber_fibersEntryLog {name k : Nat} (hk : (k : Int) ≤ pidMax) :
    (fibersEntryLog name (k : Int)).NamesFiber k := by
  refine ⟨_, rfl, entryName_toList k, rfl, entryName_length_lt hk, ?_⟩
  have hbound : k < 2 ^ 64 := by
    simp only [pidMax] at hk
    omega
  rw [fibIdOfName, entryName_toList, List.drop_one, List.tail_cons, kstrtoul_toDigits hbound]

theorem Process.Filed.listed {p : Process} (h : p.Filed) : p.Listed := by
  obtain ⟨hids, hrange, a, stuff, hp, hlen, hnames⟩ := h
  refine ⟨?_, fun k => ?_, ⟨a, stuff⟩, hp, hlen, fun k hk hle => ?_⟩
  · rw [hids]
    refine (List.nodup_reverse.mpr List.nodup_range).map fun i j hij => ?_
    omega
  · have hmem : (∃ f ∈ p.listafiber, f.val.id = k) ↔ k ∈ p.listafiber.map fun f => f.val.id := by
      rw [List.mem_map]
    rw [hmem, hids, List.mem_map]
    simp only [List.mem_reverse, List.mem_range]
    constructor
    · rintro ⟨i, hi, rfl⟩
      omega
    · rintro ⟨h1, hle⟩
      exact ⟨(k - 1).toNat, by omega, by omega⟩
  · obtain ⟨name, hname⟩ := hnames (k - 1) (by omega)
    rw [Nat.sub_add_cancel hk] at hname
    exact ⟨_, hname, namesFiber_fibersEntryLog (hle.trans hrange.2)⟩

theorem reached_filed {nFib : Nat} {s : State} (h : Reached nFib s) : ∀ b ∈ s.processi, b.val.Filed :=
  fun b hb => ((filed_entry nFib).reached h b hb).2

/-- **Every entry of every reachable state** numbers its fibers from 1 to `lastFibId`, and its directory has one
entry for each, whose name `myread` parses back to the number. A run ends with a fault at a creation that finds the
directory full or `lastFibId` at `pidMax`, which is 2^31 - 1: the overflow of this `int` is undefined, and the compiled
code wraps. `failed_counter` is an `int` as well and wraps here too, since nothing depends on its sign. -/
theorem reached_listed {nFib : Nat} {s : State} (h : Reached nFib s) : ∀ b ∈ s.processi, b.val.Listed :=
  fun b hb => (reached_filed h b hb).listed

/-- A process with a converted thread and a fiber created. -/
theorem reached_listed_created : ∃ s, Reached 2 s ∧
    (s.processi.map fun b => b.val.listafiber.map fun f => f.val.id) = [[2, 1]] ∧
    ∀ b ∈ s.processi, b.val.Listed := by
  obtain ⟨s, hs, hview⟩ := exists_reached 2
    [.fibOpen ⟨1, 1⟩, .fibConvert ⟨1, 1⟩ ⟨0, 5⟩, .fibCreate ⟨1, 1⟩ 16 0 4096 4096]
    (fun s => s.processi.map fun b => b.val.listafiber.map fun f => f.val.id) (v := [[2, 1]]) (by decide +kernel)
  exact ⟨s, hs, hview, reached_listed hs⟩

/-! ### Listing a directory and looking names up in it -/

/-- The names of the entries that count. -/
def PidEnts.names (regs : PidEnts) : List String :=
  (regs.ents.take regs.nents).filterMap fun e => e.name.map Block.val

/-- A directory below `/proc`, with the array the kernel would serve it from. -/
structure ProcDir where
  name : String
  parent : String
  served : PidEnts

namespace ProcDir

/-- What `proc_pident_readdir` lists. -/
def listing (d : ProcDir) (locals : HandlerLocals) (T : Table Process) : List String :=
  (preHandlerReaddir d.name d.parent locals T d.served).names

/-- `proc_pident_lookup` succeeds. -/
def Finds (d : ProcDir) (locals : HandlerLocals) (T : Table Process) (name : String) : Prop :=
  name ∈ (preHandlerLookup name d.name locals T d.served).names

/-- No name is listed twice, and the names listed are those that are found. -/
def Agrees (d : ProcDir) (readdir : HandlerLocals) (lookup : String → HandlerLocals) (T : Table Process) : Prop :=
  (d.listing readdir T).Nodup ∧ ∀ name, name ∈ d.listing readdir T ↔ d.Finds (lookup name) T name

end ProcDir

/-- `/proc/<tgid>`. -/
def tgidDir (tgid : Int) (base : PidEnts) : ProcDir := ⟨toString tgid, "/", base⟩

/-- `/proc/<tgid>/fibers`, which borrows the operations of `attr`. -/
def fibersDir (tgid : Int) (attr : PidEnts) : ProcDir := ⟨"fibers", toString tgid, attr⟩

section probes

variable {nFib : Nat} {locals : HandlerLocals} {T : Table Process} {regs : PidEnts} {tgid : Int}

theorem toString_toList {k : Nat} : (toString (k : Int)).toList = Nat.toDigits 10 k := by
  simp [toString, Int.repr, Nat.toList_repr]

theorem pidOfName_toString (h0 : 0 ≤ tgid) (hmax : tgid ≤ pidMax) (garbage : Int) :
    pidOfName (toString tgid).toList garbage = tgid := by
  obtain ⟨k, rfl⟩ := Int.eq_ofNat_of_zero_le h0
  simp only [pidMax] at hmax
  rw [pidOfName, toString_toList, kstrtol_toDigits (by omega), Option.getD_some, pidOfLong]
  apply Int.bmod_eq_of_le <;> omega

theorem mem_entriesOf {b : Block Process} : b ∈ entriesOf tgid T ↔ b ∈ T ∧ b.val.id = tgid := by
  simp only [entriesOf, List.mem_filter, decide_eq_true_eq]
  constructor
  · rintro ⟨⟨hb, -⟩, hid⟩
    exact ⟨hb, hid⟩
  · rintro ⟨hb, hid⟩
    exact ⟨⟨hb, by rw [hid]⟩, hid⟩

theorem mem_names_addFibersEntry : "fibers" ∈ (addFibersEntry locals regs).names := by
  have hname : ∀ (l : List PidEntry) (entry : PidEntry), (l.foldl (fun entry e =>
      if e.named "attr" then { entry with iop := e.iop, fop := e.fop } else entry) entry).name = entry.name := by
    intro l
    induction l with
    | nil => exact fun _ => rfl
    | cons e l ih =>
      intro entry
      rw [List.foldl_cons, ih]
      split_ifs <;> rfl
  rw [PidEnts.names, addFibersEntry, List.take_of_length_le (by simp), List.filterMap_append, List.mem_append]
  right
  simp [hname]

/-- An entry of the process is enough for the directory to list `fibers`. -/
theorem fibers_listed {b : Block Process} (hb : b ∈ T) (h0 : 0 ≤ b.val.id) (hmax : b.val.id ≤ pidMax) :
    "fibers" ∈ (tgidDir b.val.id regs).listing locals T := by
  have hfold : ∀ (l : Table Process) (regs : PidEnts), l ≠ [] ∨ "fibers" ∈ regs.names →
      "fibers" ∈ (l.foldl (fun regs _ => addFibersEntry locals regs) regs).names := by
    intro l
    induction l with
    | nil => exact fun regs h => h.resolve_left (fun hne => hne rfl)
    | cons b l ih => exact fun regs _ => ih _ (.inr mem_names_addFibersEntry)
  have hname : toString b.val.id ≠ "fibers" := by
    obtain ⟨k, hk⟩ := Int.eq_ofNat_of_zero_le h0
    intro he
    have hlist := congrArg String.toList he
    rw [hk, toString_toList] at hlist
    have hf : 'f' ∈ Nat.toDigits 10 k := by
      rw [hlist]
      decide
    exact absurd (Nat.isDigit_of_mem_toDigits (by decide) (by decide) hf) (by decide)
  rw [ProcDir.listing, tgidDir, preHandlerReaddir, preHandler, if_neg hname, pidOfName_toString h0 hmax]
  exact hfold _ _ (.inl (List.ne_nil_of_mem (mem_entriesOf.mpr ⟨hb, rfl⟩)))

theorem Process.Filed.not_mem_names {p : Process} (h : p.Filed) {d : Block FiberStuff} (hd : d ∈ p.listafiberStuff) :
    "fibers" ∉ (PidEnts.mk d.val.fiberBaseStuff.val d.val.lenFiberStuff).names := by
  obtain ⟨-, -, a, stuff, hp, -, hnames⟩ := h
  rw [hp, List.mem_singleton] at hd
  subst hd
  rw [PidEnts.names, List.mem_filterMap]
  rintro ⟨e, he, hname⟩
  obtain ⟨i, hi⟩ := List.mem_iff_getElem?.mp he
  rw [List.getElem?_take] at hi
  split_ifs at hi with hlt
  obtain ⟨name, hentry⟩ := hnames i hlt
  rw [hentry, Option.some.injEq] at hi
  subst hi
  exact entryName_ne_fibers (i + 1) (Option.some.inj hname)

/-- A walk that assigns the same variables at every node leaves what it assigned at the last. -/
theorem exists_foldl_last {α β : Type} (g : α → β) {l : List α} (x : β) (hl : l ≠ []) :
    ∃ a ∈ l, l.foldl (fun _ a => g a) x = g a := by
  induction l generalizing x with
  | nil => exact absurd rfl hl
  | cons a l ih =>
    cases l with
    | nil => exact ⟨a, List.mem_cons_self, rfl⟩
    | cons b l =>
      obtain ⟨a', ha', he⟩ := ih (g a) (List.cons_ne_nil _ _)
      exact ⟨a', List.mem_cons_of_mem _ ha', he⟩

/-- The name `fibers` is looked up among the names of the process's fibers. -/
theorem fibers_not_found (hT : ∀ b ∈ T, b.val.Filed) {b : Block Process} (hb : b ∈ T) (h0 : 0 ≤ b.val.id)
    (hmax : b.val.id ≤ pidMax) : ¬ (tgidDir b.val.id regs).Finds locals T "fibers" := by
  have hentry : b ∈ entriesOf b.val.id T := mem_entriesOf.mpr ⟨hb, rfl⟩
  have hstuffs : (entriesOf b.val.id T).flatMap (fun b => b.val.listafiberStuff) ≠ [] := by
    obtain ⟨-, -, a, stuff, hp, -⟩ := hT b hb
    exact List.ne_nil_of_mem (List.mem_flatMap.mpr ⟨b, hentry, by rw [hp]; exact List.mem_singleton_self _⟩)
  obtain ⟨d, hd, he⟩ := exists_foldl_last (fun d : Block FiberStuff =>
    (PidEnts.mk d.val.fiberBaseStuff.val d.val.lenFiberStuff, (d.val.lenFiberStuff : Int)))
    (regs, locals.nFibers) hstuffs
  obtain ⟨b', hb', hd⟩ := List.mem_flatMap.mp hd
  have hnot := (hT b' (mem_entriesOf.mp hb').1).not_mem_names hd
  rw [ProcDir.Finds, tgidDir, preHandlerLookup, preHandler, if_pos rfl]
  simp only [pidOfName_toString h0 hmax, he]
  split_ifs with hn
  · simp [PidEnts.names]
  · exact hnot

end probes

/-- **The two probes disagree** about the directory of every registered process, whatever arrays the kernel
serves: `/proc/<tgid>` lists `fibers`, and looking it up searches the names of the fibers. -/
theorem listing_disagrees {nFib : Nat} {s : State} (h : Reached nFib s) {b : Block Process} (hb : b ∈ s.processi)
    (h0 : 0 ≤ b.val.id) (hmax : b.val.id ≤ pidMax) (base attr : PidEnts) (readdir readdir' : HandlerLocals)
    (lookup lookup' : String → HandlerLocals) :
    ¬ ((tgidDir b.val.id base).Agrees readdir lookup s.processi ∧
      (fibersDir b.val.id attr).Agrees readdir' lookup' s.processi) := by
  rintro ⟨⟨-, hagree⟩, -⟩
  exact fibers_not_found (reached_filed h) hb h0 hmax ((hagree "fibers").mp (fibers_listed hb h0 hmax))

/-- A base array of the one entry `attr`. -/
def attrOnly : PidEnts := ⟨[{ name := some ⟨0, "attr"⟩, len := 4 }], 1⟩

def zeroLocals : HandlerLocals := { parent := 0, myid := 0, nFibers := 0, iop := none, fop := none }

/-- Process 1 has opened the device. -/
theorem exists_registered (nFib : Nat) : ∃ s, Reached nFib s ∧ ∃ b ∈ s.processi, b.val.id = 1 := by
  have hopen : step nFib (.fibOpen ⟨1, 1⟩) empty = .ok (fibOpen nFib ⟨1, 1⟩ empty, some 0) := rfl
  exact ⟨_, (reached_empty nFib).next hopen, _, List.mem_cons_self, rfl⟩

/-- The directories of a registered process. -/
theorem listing_disagrees_registered : ∃ s, Reached nFib s ∧ ∃ b ∈ s.processi,
    b.val.id = 1 ∧ ¬ ((tgidDir b.val.id attrOnly).Agrees zeroLocals (fun _ => zeroLocals) s.processi ∧
      (fibersDir b.val.id attrOnly).Agrees zeroLocals (fun _ => zeroLocals) s.processi) := by
  obtain ⟨s, hs, b, hb, hid⟩ := exists_registered nFib
  have hmax : b.val.id ≤ pidMax := by
    rw [hid]
    decide
  exact ⟨s, hs, b, hb, hid, listing_disagrees hs hb (by omega) hmax _ _ _ _ _ _⟩

/-- `/proc/1` lists `fibers` after `attr` and finds no `fibers`. -/
theorem fibers_listed_not_found : ∃ s, Reached nFib s ∧ (∃ b ∈ s.processi, b.val.id = 1) ∧
    attrOnly.names = ["attr"] ∧ ∀ locals, "fibers" ∈ (tgidDir 1 attrOnly).listing locals s.processi ∧
      ¬ (tgidDir 1 attrOnly).Finds locals s.processi "fibers" := by
  obtain ⟨s, hs, b, hb, hid⟩ := exists_registered nFib
  have hmax : b.val.id ≤ pidMax := by
    rw [hid]
    decide
  have hdir : tgidDir 1 attrOnly = tgidDir b.val.id attrOnly := by rw [hid]
  refine ⟨s, hs, ⟨b, hb, hid⟩, rfl, fun locals => ?_⟩
  rw [hdir]
  exact ⟨fibers_listed hb (by omega) hmax, fibers_not_found (reached_filed hs) hb (by omega) hmax⟩

end LinuxFibers
