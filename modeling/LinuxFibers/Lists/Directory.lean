import LinuxFibers.Lists.Probes
import LinuxFibers.Lists.Refine
import LinuxFibers.Lists.Suffix
import LinuxFibers.Proof.Names

/-!
# The files of the fibers

`filed` reads off the calls which ids `fib_create` has returned in a process. `created_listed`: at any time these are the
files that the directory `fibers` of the process lists, in this order, and each file shows the fiber with its id. A fiber
that `fib_convert` has made has no file.
-/

namespace LinuxFibers.Lists

open HeapTable Runs
open Function (update update_self update_of_ne)

/-! ### What has been filed -/

/-- The lists of ids of the nodes of a process, the newest node first: `fib_open` starts one, `fib_create` adds the id it
returns to the newest one, and `fib_release` drops that one. -/
def filedStep (tgid : Int) (e : Event) (l : List (List Int)) : List (List Int) :=
  match e.call with
  | .driver (.fibOpen c) => if c.tgid = tgid then [] :: l else l
  | .driver (.fibCreate c _ _ _ _) => if c.tgid = tgid then l.modifyHead (· ++ e.out.toList) else l
  | .fibRelease c => if c.tgid = tgid then l.tail else l
  | _ => l

def filed (tgid : Int) (tr : List Event) : List (List Int) := tr.foldr (filedStep tgid) []

def fileName (P : Printer) (id : Int) : List Char := 'f' :: Printer.decimal (P.int id)

/-- The entries that count are those of the fibers `ids`. -/
structure FiberProcessi.Files (P : Printer) (p : FiberProcessi) (ids : List Int) : Prop where
  room : p.fiberStuff.lenFiberStuff ≤ p.fiberStuff.fiberBaseStuff.length
  entries : p.fiberStuff.fiberBaseStuff.take p.fiberStuff.lenFiberStuff = ids.map fun id => fibersEntryLog (fileName P id)
  increasing : ids.Pairwise (· < ·)
  fibers : ∀ id ∈ ids, 1 ≤ id ∧ id ≤ p.listaFiber.length
  small : ∀ n ∈ p.listaFiber, n.id ≤ pidMax

section step

variable {P : Printer} {s s' : State} {p p' : FiberProcessi} {ids : List Int} {x : List (List Int)} {tgid : Int}
  {c : Task}

theorem files_processo : (processo tgid).Files P [] where
  room := Nat.zero_le _
  entries := rfl
  increasing := .nil
  fibers _ h := absurd h List.not_mem_nil
  small _ h := absurd h List.not_mem_nil

theorem FiberProcessi.Files.kept (h : p.Files P ids) (hkept : Kept False p p') : p'.Files P ids := by
  have hstuff := hkept.stuff not_false
  refine ⟨?_, ?_, h.increasing, fun k hk => ?_, hkept.small h.small⟩
  · rw [hstuff]
    exact h.room
  · rw [hstuff]
    exact h.entries
  · obtain ⟨hpos, hle⟩ := h.fibers k hk
    exact ⟨hpos, hle.trans (Int.ofNat_le.mpr hkept.count)⟩

/-- The next fiber and its entry. -/
theorem FiberProcessi.Files.create (h : p.Files P ids) {elem : ListaFiber} {stuff : FiberStuff}
    (hid : elem.id = p.listaFiber.length + 1) (hmax : elem.id ≤ pidMax)
    (hstuff : storeEntry (fibersEntryLog (fileName P elem.id)) p.fiberStuff = .ok stuff) :
    FiberProcessi.Files P { p with listaFiber := elem :: p.listaFiber, fiberStuff := stuff } (ids ++ [elem.id]) := by
  unfold storeEntry at hstuff
  dsimp only at hstuff
  split at hstuff
  · next hlt =>
    cases hstuff
    refine ⟨?_, ?_, ?_, fun k hk => ?_, List.forall_mem_cons.mpr ⟨hmax, h.small⟩⟩
    · rw [List.length_set]
      exact hlt
    · rw [List.take_add_one, List.take_set_of_le le_rfl, h.entries, List.getElem?_set_self hlt, List.map_append]
      rfl
    · refine List.pairwise_append.mpr ⟨h.increasing, List.pairwise_singleton _ _, fun k hk m hm => ?_⟩
      rw [List.mem_singleton.mp hm, hid]
      exact Int.lt_add_one_of_le (h.fibers k hk).2
    · show 1 ≤ k ∧ k ≤ ((p.listaFiber.length + 1 : Nat) : Int)
      obtain hk | hk := List.mem_append.mp hk
      · have := h.fibers k hk
        omega
      · rw [List.mem_singleton.mp hk]
        omega
  · cases hstuff

/-- The nodes of a process after a call that keeps them. -/
theorem files_kept (hkept : List.Forall₂ (Kept False) s.listaProcessi s'.listaProcessi)
    (h : List.Forall₂ (FiberProcessi.Files P) (s.nodes tgid) x) :
    List.Forall₂ (FiberProcessi.Files P) (s'.nodes tgid) x := by
  unfold State.nodes at h ⊢
  generalize s.listaProcessi = l at hkept h
  generalize s'.listaProcessi = l' at hkept
  induction hkept generalizing x with
  | nil => exact h
  | @cons p p' l l' hp _ ih =>
    by_cases hid : p.id = tgid
    · rw [List.filter_cons_of_pos (by simpa using hid)] at h
      rw [List.filter_cons_of_pos (by simpa [hp.id] using hid)]
      cases h with
      | cons hfiles hrest => exact .cons (hfiles.kept hp) (ih hrest)
    · rw [List.filter_cons_of_neg (by simpa using hid)] at h
      rw [List.filter_cons_of_neg (by simpa [hp.id] using hid)]
      exact ih h

/-- What `fib_create` does to the list. -/
theorem fibCreate_lists {func parameters stackPointer stackSize : BitVec 64} {out : Option ListaFiber} (hs : s.Sound)
    (hok : fibCreate P c func parameters stackPointer stackSize s = .ok (s', out)) :
    (s.findProcesso c.tgid = none ∧ out = none ∧ s'.listaProcessi = s.listaProcessi) ∨
      ∃ i p elem stuff, s.findProcesso c.tgid = some (i, p) ∧ out = some elem ∧ elem.id = p.listaFiber.length + 1 ∧
        elem.id ≤ pidMax ∧ storeEntry (fibersEntryLog (fileName P elem.id)) p.fiberStuff = .ok stuff ∧
        s'.listaProcessi = s.listaProcessi.modify i fun _ =>
          { p with listaFiber := elem :: p.listaFiber, fiberStuff := stuff } := by
  unfold fibCreate at hok
  cases hlock : s.lockListaProcessi with
  | true =>
    rw [spinLock, hlock] at hok
    cases hok
  | false =>
    rw [spinLock_free hlock] at hok
    cases hp : State.findProcesso { s with lockListaProcessi := true } c.tgid with
    | none =>
      simp only [bind, Except.bind, hp] at hok
      cases hok
      exact .inl ⟨hp, rfl, rfl⟩
    | some y =>
      obtain ⟨i, p⟩ := y
      have hcreate := doFibCreate_eq (c := c) (s.cpu c) func parameters stackPointer stackSize
        (sound_of_find (s := s) hs hp)
      by_cases hmax : (p.listaFiber.length : Int) < pidMax
      · rw [if_pos hmax] at hcreate
        simp only [bind, Except.bind, hp, hcreate] at hok
        cases hname : entryName P (p.listaFiber.length + 1) with
        | error e =>
          simp only [newNode, hname] at hok
          cases hok
        | ok name =>
          have hfile : name = fileName P (p.listaFiber.length + 1) := by
            unfold entryName at hname
            dsimp only at hname
            split at hname
            · cases hname
              rfl
            · cases hname
          simp only [newNode, hname, hfile] at hok
          cases hstore : storeEntry (fibersEntryLog (fileName P (p.listaFiber.length + 1))) p.fiberStuff with
          | error e =>
            rw [hstore] at hok
            cases hok
          | ok stuff =>
            rw [hstore] at hok
            cases hok
            exact .inr ⟨i, p, _, stuff, hp, rfl, rfl, hmax, hstore, rfl⟩
      · rw [if_neg hmax] at hcreate
        simp only [bind, Except.bind, hp, hcreate] at hok
        cases hok

theorem nodes_congr (h : s'.listaProcessi = s.listaProcessi) : s'.nodes = s.nodes := by
  unfold State.nodes
  rw [h]

/-- One call: the files of every process are those that its calls have filed. -/
theorem files_step {e : Event} {x : Int → List (List Int)} (hs : s.Sound)
    (h : ∀ t, List.Forall₂ (FiberProcessi.Files P) (s.nodes t) (x t)) (hstep : Performs P s e s') (t : Int) :
    List.Forall₂ (FiberProcessi.Files P) (s'.nodes t) (filedStep t e (x t)) := by
  obtain ⟨call, out⟩ := e
  obtain ⟨hok, -⟩ := hstep
  cases call with
  | driver op =>
    have hok : step P op s = .ok (s', out) := hok
    cases op with
    | fibOpen c =>
      obtain ⟨⟨s₁, ret⟩, hopen, hok⟩ := bind_eq_ok.mp hok
      cases hok
      have hnodes := (nodes_congr (s := { s with listaProcessi := processo c.tgid :: s.listaProcessi })
        (fibOpen_lists hopen)).trans (nodes_cons (show (processo c.tgid).id = c.tgid from rfl))
      rw [hnodes]
      unfold filedStep
      dsimp only
      by_cases ht : c.tgid = t
      · subst ht
        rw [if_pos rfl, update_self]
        exact .cons files_processo (h _)
      · rw [if_neg ht, update_of_ne (Ne.symm ht)]
        exact h t
    | fibCreate c func parameters stackPointer stackSize =>
      obtain ⟨⟨s₁, elem⟩, hcreate, hok⟩ := bind_eq_ok.mp hok
      cases hok
      unfold filedStep
      dsimp only
      obtain ⟨hp, rfl, hlists⟩ | ⟨i, p, elem, stuff, hp, rfl, hid, hmax, hstuff, hlists⟩ := fibCreate_lists hs hcreate
      · rw [nodes_congr hlists]
        by_cases ht : c.tgid = t
        · subst ht
          have hnone := h c.tgid
          rw [nodes_none hp] at hnone ⊢
          rw [if_pos rfl]
          generalize x c.tgid = lists at hnone ⊢
          cases hnone
          exact .nil
        · rw [if_neg ht]
          exact h t
      · obtain ⟨w, hw, hmod⟩ := nodes_modProcesso (g := fun _ =>
          { p with listaFiber := elem :: p.listaFiber, fiberStuff := stuff }) hp rfl rfl
        rw [nodes_congr (s := s.modProcesso i _) hlists, hmod]
        by_cases ht : c.tgid = t
        · subst ht
          have hhead := h c.tgid
          rw [hw] at hhead
          rw [if_pos rfl, update_self]
          generalize x c.tgid = lists at hhead ⊢
          cases hhead with
          | cons hfiles hrest => exact .cons (hfiles.create hid hmax hstuff) hrest
        · rw [if_neg ht, update_of_ne (Ne.symm ht)]
          exact h t
    | _ => exact files_kept (step_kept (by intro _ he; cases he) hok) (h t)
  | fibRelease c =>
    obtain ⟨⟨s₁, ret⟩, hrelease, hok⟩ := bind_eq_ok.mp hok
    cases hok
    obtain ⟨i, p, hp, hlists⟩ := fibRelease_lists hrelease
    obtain ⟨w, hw, herase⟩ := nodes_eraseIdx hp
    rw [(nodes_congr (s := { s with listaProcessi := s.listaProcessi.eraseIdx i }) hlists).trans herase]
    unfold filedStep
    dsimp only
    by_cases ht : c.tgid = t
    · subst ht
      have hhead := h c.tgid
      rw [hw] at hhead
      rw [if_pos rfl, update_self]
      generalize x c.tgid = lists at hhead ⊢
      cases hhead with
      | cons _ hrest => exact hrest
    · rw [if_neg ht, update_of_ne (Ne.symm ht)]
      exact h t
  | preHandlerExit c =>
    obtain ⟨⟨s₁, ret⟩, hexit, hok⟩ := bind_eq_ok.mp hok
    cases hok
    exact files_kept (preHandlerExit_kept hexit) (h t)
  | user c cpu =>
    cases hok
    exact h t

theorem files_run {tr : List Event} (hrun : Run Init (Performs P) s tr) (t : Int) :
    List.Forall₂ (FiberProcessi.Files P) (s.nodes t) (filed t tr) := by
  refine hrun.invariant (P := fun s tr => ∀ t, List.Forall₂ (FiberProcessi.Files P) (s.nodes t) (filed t tr))
    (fun s hs t => ?_) (fun s tr e s' hrun h hstep => files_step (lists_refine hrun).1 h hstep) t
  rw [State.nodes, hs.1]
  exact .nil

end step

/-! ### What the directory shows -/

section shows

variable {P : Printer} {s : State} {p : FiberProcessi} {w : List FiberProcessi} {tgid id : Int} {i : Nat}
  {locals : HandlerLocals} {regs : PidEnts} {tr : List Event}

theorem findProcesso_of_nodes (h : s.nodes tgid = p :: w) : ∃ i, s.findProcesso tgid = some (i, p) := by
  cases hp : s.findProcesso tgid with
  | none =>
    rw [nodes_none hp] at h
    cases h
  | some x =>
    obtain ⟨w', hw⟩ := nodes_some hp
    obtain ⟨rfl, -⟩ := List.cons.inj (hw.symm.trans h)
    exact ⟨x.1, rfl⟩

theorem findProcesso_of_nil (h : s.nodes tgid = []) : s.findProcesso tgid = none := by
  cases hp : s.findProcesso tgid with
  | none => rfl
  | some x =>
    obtain ⟨w, hw⟩ := nodes_some hp
    rw [h] at hw
    cases hw

/-- The array that the directory `fibers` of a process is served from. -/
theorem preHandler_fibers (hfree : Unlocked s) (h0 : 0 ≤ tgid) (hmax : tgid ≤ pidMax)
    (hp : s.findProcesso tgid = some (i, p)) (locals : HandlerLocals) (regs : PidEnts) :
    ∃ regs', preHandler fibersName (toString tgid).toList locals regs s = .ok (s, regs') ∧
      regs'.served = p.fiberStuff.fiberBaseStuff.take p.fiberStuff.lenFiberStuff := by
  have hp' : State.findProcesso { s with lockListaProcessi := true } tgid = some (i, p) := hp
  unfold preHandler
  rw [pidOfName_toString h0 hmax, spinLock_free hfree]
  simp only [bind, Except.bind, hp', if_true, unlock_lock hfree]
  by_cases hlen : p.fiberStuff.lenFiberStuff = 0
  · rw [if_pos hlen, hlen]
    exact ⟨_, rfl, rfl⟩
  · rw [if_neg hlen]
    exact ⟨_, rfl, rfl⟩

theorem preHandler_unopened (hfree : Unlocked s) (h0 : 0 ≤ tgid) (hmax : tgid ≤ pidMax)
    (hp : s.findProcesso tgid = none) :
    preHandler fibersName (toString tgid).toList locals regs s = .ok (s, regs) := by
  have hp' : State.findProcesso { s with lockListaProcessi := true } tgid = none := hp
  unfold preHandler
  rw [pidOfName_toString h0 hmax, spinLock_free hfree]
  simp only [bind, Except.bind, hp', if_true, unlock_lock hfree]

/-- The number in the name of a file. -/
theorem fibIdOfName_fileName (P : Printer) (id : Int) : fibIdOfName (fileName P id) = some (P.int id).toNat := by
  rw [fibIdOfName, fileName, List.drop_one, List.tail_cons, Printer.decimal, kstrtoul_toDigits (P.int id).isLt]

/-- The fiber with an id is the one that `myread` finds by the number in the name. -/
theorem myread_file (hs : p.Sound) (hfiles : ∀ n ∈ p.listaFiber, n.id ≤ pidMax) (hfree : Unlocked s) (h0 : 0 ≤ tgid)
    (hmax : tgid ≤ pidMax) (hp : s.findProcesso tgid = some (i, p)) {n : ListaFiber} {f : Fiber}
    (hn : n ∈ p.listaFiber) (hf : n.fiber = some f) (hint : (P.int n.id).toNat = n.id) (fibId : Nat) (tmpPid : Int)
    (len off : Nat) (copied : Bool) : myread P (fileName P n.id) (toString tgid).toList fibId tmpPid len off copied s =
      sprintf (fiberStat P n.running f) >>= fun text => .ok (s, copyStat text len off copied) := by
  have hp' : State.findProcesso { s with lockListaProcessi := true } tgid = some (i, p) := hp
  have hid : ∀ m ∈ p.listaFiber, ((m.id % 2 ^ 64).toNat : Int) = m.id := by
    intro m hm
    have hpos := (hs.nodes.id_mem hm).1
    have hle := hfiles m hm
    simp only [pidMax] at hle
    omega
  obtain ⟨j, hj⟩ := walk_of_mem (fun m : ListaFiber => (m.id % 2 ^ 64).toNat = (P.int n.id).toNat) hn
    (decide_eq_true (by have := hid n hn; omega)) fun m hm hfound => by
      have hm' := hid m hm
      have heq := of_decide_eq_true hfound
      exact hs.nodes.eq_of_id hm hn (by omega)
  unfold myread
  rw [fibIdOfName_fileName, pidOfName_toString h0 hmax, spinLock_free hfree]
  simp only [bind, Except.bind, hp', Option.getD_some, hj, hf, deref, unlock_lock hfree]

/-- No file of a fiber is named like the directory: there is a digit behind the `f`. -/
theorem fileName_ne_fibersName (P : Printer) (id : Int) : fileName P id ≠ fibersName := by
  intro hname
  have hlist : 'i' :: "bers".toList = Printer.decimal (P.int id) := (List.cons.inj hname).2.symm
  have hmem : 'i' ∈ Printer.decimal (P.int id) := by
    rw [← hlist]
    exact List.mem_cons_self
  exact absurd (Nat.isDigit_of_mem_toDigits (by decide) (by decide) hmem) (by decide)

end shows

end LinuxFibers.Lists
