import LinuxFibers.Lists.Calls
import LinuxFibers.Lists.Nodes

/-!
# Operations on a part of the list

An operation looks for one process and stops at the first one it finds. So on a list it does what it does on the part
that is left when nodes of other processes are taken off the front (`step_behind`). It leaves the processes in their
places, and only `fib_create` touches a directory (`step_kept`).
-/

namespace LinuxFibers.Lists

/-- The process that the operation looks for. -/
def Op.tgid : Op → Int
  | .fibOpen c | .fibConvert c _ | .fibCreate c _ _ _ _ | .fibSwitchTo c _ _ | .flsAlloc c _ | .flsFree c _
  | .flsGetValue c _ | .flsSetValue c _ _ => c.tgid
  | .myread _ tgid _ tmpPid _ _ _ => pidOfName tgid tmpPid

namespace State

def ids (s : State) : List Int := s.listaProcessi.map FiberProcessi.id

/-- The nodes of `u` before the others. -/
def prepend (s : State) (u : List FiberProcessi) : State := { s with listaProcessi := u ++ s.listaProcessi }

end State

/-- The operation adds an entry to a directory. -/
def Op.Files : Op → Prop
  | .fibCreate _ _ _ _ _ => True
  | _ => False

/-- What is left of a process by an operation: no fiber goes away, no id exceeds a `pid_t`, and the directory is the
same, unless the operation adds to it. -/
structure Kept (files : Prop) (p p' : FiberProcessi) : Prop where
  id : p'.id = p.id
  count : p.listaFiber.length ≤ p'.listaFiber.length
  small : (∀ n ∈ p.listaFiber, n.id ≤ pidMax) → ∀ n ∈ p'.listaFiber, n.id ≤ pidMax
  stuff : ¬ files → p'.fiberStuff = p.fiberStuff

/-- `x` does behind the nodes `u` what `y` does without them, and `y` ends with what is kept of the processes `l`. -/
def Behind {α : Type} (files : Prop) (u l : List FiberProcessi) (x : Except Stop (State × α)) :
    Except Stop (State × α) → Prop
  | .ok (s, a) => x = .ok (s.prepend u, a) ∧ List.Forall₂ (Kept files) l s.listaProcessi
  | .error e => x = .error e

section kept

variable {files : Prop} {s : State} {tgid : Int} {i j : Nat} {p q : FiberProcessi} {g : FiberProcessi → FiberProcessi}
  {l l' : List FiberProcessi}

theorem Kept.refl (p : FiberProcessi) : Kept files p p := ⟨rfl, le_rfl, fun h => h, fun _ => rfl⟩

theorem Kept.modNode (h : Kept files p q) (j : Nat) (f : ListaFiber → ListaFiber) (hf : ∀ n, (f n).id = n.id) :
    Kept files p (q.modNode j f) := by
  refine ⟨h.id, h.count.trans (List.length_modify ..).ge, fun hsmall n hn => ?_, h.stuff⟩
  have hids : (q.modNode j f).listaFiber.map ListaFiber.id = q.listaFiber.map ListaFiber.id := by
    refine List.ext_getElem? fun k => ?_
    simp only [FiberProcessi.modNode, List.getElem?_map, List.getElem?_modify, Option.map_map, Option.map_eq_map]
    split
    · exact congrArg (fun g => Option.map g _) (funext hf)
    · rfl
  have hmem := List.mem_map_of_mem (f := ListaFiber.id) hn
  rw [hids] at hmem
  obtain ⟨m, hm, hid⟩ := List.mem_map.mp hmem
  rw [← hid]
  exact h.small hsmall m hm

theorem Kept.modFiber (h : Kept files p q) (j : Nat) (f : Fiber → Fiber) : Kept files p (q.modFiber j f) :=
  h.modNode j _ fun _ => rfl

theorem kept_refl (l : List FiberProcessi) : List.Forall₂ (Kept files) l l := List.forall₂_same.mpr fun p _ => .refl p

theorem kept_modProcesso (hp : s.findProcesso tgid = some (i, p)) (hg : Kept files p (g p)) :
    List.Forall₂ (Kept files) s.listaProcessi (s.modProcesso i g).listaProcessi := by
  obtain ⟨v, w, hl, rfl, -⟩ := walk_eq_some.mp hp
  show List.Forall₂ _ s.listaProcessi (s.listaProcessi.modify v.length g)
  rw [hl, modify_append_cons]
  exact List.rel_append (kept_refl v) (.cons hg (kept_refl w))

theorem ids_kept (h : List.Forall₂ (Kept files) l l') : l'.map FiberProcessi.id = l.map FiberProcessi.id := by
  induction h with
  | nil => rfl
  | cons hp _ ih => rw [List.map_cons, List.map_cons, hp.id, ih]

end kept

section rules

variable {α β : Type} {files : Prop} {u l : List FiberProcessi} {s : State} {tgid : Int} {i : Nat} {p : FiberProcessi}
  {a : α}

theorem findProcesso_prepend (hu : ∀ p ∈ u, p.id ≠ tgid) :
    (s.prepend u).findProcesso tgid = (s.findProcesso tgid).map fun x => (u.length + x.1, x.2) := by
  cases h : s.findProcesso tgid with
  | none =>
    refine walk_eq_none.mpr fun q hq => ?_
    obtain hq | hq := List.mem_append.mp hq
    · exact decide_eq_false (hu q hq)
    · exact walk_eq_none.mp h q hq
  | some x =>
    obtain ⟨i, p⟩ := x
    obtain ⟨v, w, hl, rfl, hp, hv⟩ := walk_eq_some.mp h
    refine walk_eq_some.mpr ⟨u ++ v, w, ?_, List.length_append, hp, fun q hq => ?_⟩
    · rw [State.prepend, hl, List.append_assoc]
    · obtain hq | hq := List.mem_append.mp hq
      · exact decide_eq_false (hu q hq)
      · exact hv q hq

theorem modify_append_right {γ : Type} (v l : List γ) (g : γ → γ) :
    (v ++ l).modify (v.length + i) g = v ++ l.modify i g := by
  induction v with
  | nil => rw [List.length_nil, Nat.zero_add, List.nil_append, List.nil_append]
  | cons b v ih =>
    rw [List.length_cons, Nat.add_right_comm]
    exact congrArg (List.cons b) ih

theorem modProcesso_prepend (g : FiberProcessi → FiberProcessi) :
    (s.prepend u).modProcesso (u.length + i) g = (s.modProcesso i g).prepend u :=
  congrArg (fun l => State.mk l _ _) (modify_append_right u s.listaProcessi g)

/-- What does not look at the list goes first. -/
theorem Behind.bind (m : Except Stop β) {k k' : β → Except Stop (State × α)}
    (hk : ∀ b, m = .ok b → Behind files u l (k b) (k' b)) : Behind files u l (m >>= k) (m >>= k') := by
  cases m with
  | error e => exact rfl
  | ok b => exact hk b rfl

/-- A return with nothing changed. -/
theorem Behind.returns (s : State) (a : α) :
    Behind files u s.listaProcessi (.ok (spinUnlock (s.prepend u), a)) (.ok (spinUnlock s, a)) := ⟨rfl, kept_refl _⟩

/-- The process that was found is assigned to. -/
theorem Behind.assigns {g : FiberProcessi → FiberProcessi} (hp : s.findProcesso tgid = some (i, p))
    (hg : Kept files p (g p)) (a : α) :
    Behind files u s.listaProcessi (.ok (spinUnlock ((s.prepend u).modProcesso (u.length + i) g), a))
      (.ok (spinUnlock (s.modProcesso i g), a)) := by
  rw [modProcesso_prepend]
  exact ⟨rfl, kept_modProcesso hp hg⟩

/-- The process that was found is assigned to, and the registers of the caller. -/
theorem Behind.assignsCpu {g : FiberProcessi → FiberProcessi} {c : Task} {cpu : Cpu}
    (hp : s.findProcesso tgid = some (i, p)) (hg : Kept files p (g p)) (a : α) :
    Behind files u s.listaProcessi (.ok (spinUnlock (((s.prepend u).modProcesso (u.length + i) g).setCpu c cpu), a))
      (.ok (spinUnlock ((s.modProcesso i g).setCpu c cpu), a)) := by
  rw [modProcesso_prepend]
  exact ⟨rfl, kept_modProcesso hp hg⟩

/-- The lock and the walk to the process. -/
theorem Behind.walks {k : State → Except Stop (State × α)} (hu : ∀ p ∈ u, p.id ≠ tgid)
    (hno : ∀ s : State, s.findProcesso tgid = none → (s.prepend u).findProcesso tgid = none →
      Behind files u s.listaProcessi (k (s.prepend u)) (k s))
    (hfound : ∀ (s : State) i p, s.findProcesso tgid = some (i, p) →
      (s.prepend u).findProcesso tgid = some (u.length + i, p) → Behind files u s.listaProcessi (k (s.prepend u)) (k s)) :
    Behind files u s.listaProcessi (spinLock (s.prepend u) >>= k) (spinLock s >>= k) := by
  cases hlock : s.lockListaProcessi with
  | true =>
    rw [spinLock, spinLock, show (s.prepend u).lockListaProcessi = true from hlock, hlock]
    exact rfl
  | false =>
    rw [spinLock_free hlock, spinLock_free (s := s.prepend u) hlock]
    obtain ⟨t, ht⟩ : ∃ t, { s with lockListaProcessi := true } = t := ⟨_, rfl⟩
    have hlista : s.listaProcessi = t.listaProcessi := by
      rw [← ht]
    show Behind files u s.listaProcessi (k (State.prepend { s with lockListaProcessi := true } u))
      (k { s with lockListaProcessi := true })
    rw [ht, hlista]
    have hwalk := findProcesso_prepend (s := t) hu
    cases hp : t.findProcesso tgid with
    | none =>
      rw [hp] at hwalk
      exact hno t hp hwalk
    | some x =>
      rw [hp] at hwalk
      exact hfound t x.1 x.2 hp hwalk

end rules

section operations

variable {P : Printer} {files : Prop} {u : List FiberProcessi} {s : State} {c : Task}

theorem nextId_le {p : FiberProcessi} {id : Int} (h : nextId p = .ok id) : id ≤ pidMax := by
  unfold nextId at h
  split at h
  · cases h
    decide
  · split at h
    · next hlt =>
      cases h
      exact hlt
    · cases h

theorem doFibCreate_kept {cpu : Cpu} {func parameters stackPointer stackSize : BitVec 64} {p : FiberProcessi}
    {x : ListaFiber × FiberProcessi} (h : doFibCreate c cpu func parameters stackPointer stackSize p = .ok x) :
    Kept files p x.2 := by
  unfold doFibCreate at h
  cases hid : nextId p with
  | error e =>
    rw [hid] at h
    cases h
  | ok id =>
    rw [hid] at h
    cases h
    exact ⟨rfl, Nat.le_succ _, fun hsmall => List.forall_mem_cons.mpr ⟨nextId_le hid, hsmall⟩, fun _ => rfl⟩

theorem exchange_kept (old new : Nat) (now : Timespec) (p : FiberProcessi) (cpu : Cpu) :
    Kept files p (exchange c old new now p cpu).1 :=
  (((((Kept.refl p).modFiber old _).modNode old _ (by intro _; rfl)).modNode new _ (by intro _; rfl)).modFiber new
    _).modFiber old _

theorem fibConvert_behind (hu : ∀ p ∈ u, p.id ≠ c.tgid) (now : Timespec) :
    Behind False u s.listaProcessi (fibConvert c now (s.prepend u)) (fibConvert c now s) := by
  unfold fibConvert
  refine .walks hu (fun s hp hp' => ?_) fun s i p hp hp' => ?_
  · simp only [hp, hp']
    exact .returns s _
  · simp only [hp, hp']
    cases p.findRunner c.pid with
    | some x => exact .returns s _
    | none => exact .bind _ fun x hx => .assigns hp (((doFibCreate_kept hx).modNode _ _ (by intro _; rfl)).modFiber _ _) _

theorem fibCreate_behind (hu : ∀ p ∈ u, p.id ≠ c.tgid) (func parameters stackPointer stackSize : BitVec 64) :
    Behind True u s.listaProcessi (fibCreate P c func parameters stackPointer stackSize (s.prepend u))
      (fibCreate P c func parameters stackPointer stackSize s) := by
  unfold fibCreate
  refine .walks hu (fun s hp hp' => ?_) fun s i p hp hp' => ?_
  · simp only [hp, hp']
    exact .returns s _
  · simp only [hp, hp']
    refine .bind _ fun x hx => ?_
    refine .bind _ fun name _ => ?_
    have hkept : Kept True p x.2 := doFibCreate_kept hx
    exact .bind _ fun stuff _ => .assigns hp ⟨hkept.id, hkept.count, hkept.small, fun h => absurd trivial h⟩ _

theorem fibSwitchTo_behind (hu : ∀ p ∈ u, p.id ≠ c.tgid) (id : Int) (now : Timespec) :
    Behind False u s.listaProcessi (fibSwitchTo c id now (s.prepend u)) (fibSwitchTo c id now s) := by
  unfold fibSwitchTo
  refine .walks hu (fun s hp hp' => ?_) fun s i p hp hp' => ?_
  · simp only [hp, hp']
    exact .returns s _
  · simp only [hp, hp']
    cases p.findRunner c.pid with
    | none => exact .returns s _
    | some old =>
      dsimp only
      cases p.findFiber id with
      | none => exact .returns s _
      | some new =>
        dsimp only
        split
        · exact .bind _ fun _ _ => .assigns hp ((Kept.refl p).modFiber _ _) _
        · refine .bind _ fun _ _ => ?_
          exact .bind _ fun _ _ => .assignsCpu hp (exchange_kept _ _ now p _) _

theorem flsAlloc_behind (hu : ∀ p ∈ u, p.id ≠ c.tgid) (index : Int) :
    Behind False u s.listaProcessi (flsAlloc c index (s.prepend u)) (flsAlloc c index s) := by
  unfold flsAlloc
  refine .walks hu (fun s hp hp' => ?_) fun s i p hp hp' => ?_
  · simp only [hp, hp']
    exact .returns s _
  · simp only [hp, hp']
    cases p.findRunner c.pid with
    | none => exact .returns s _
    | some x =>
      dsimp only
      split
      · exact .returns s _
      · refine .bind _ fun f _ => ?_
        split
        · exact .returns s _
        · -- the search is not to be run
          generalize foundIndex _ index = k
          split
          · exact .returns s _
          · exact .bind _ fun _ _ => .assigns hp ((Kept.refl p).modFiber _ _) _

theorem flsFree_behind (hu : ∀ p ∈ u, p.id ≠ c.tgid) (index : Int) :
    Behind False u s.listaProcessi (flsFree c index (s.prepend u)) (flsFree c index s) := by
  unfold flsFree
  refine .walks hu (fun s hp hp' => ?_) fun s i p hp hp' => ?_
  · simp only [hp, hp']
    exact .returns s _
  · simp only [hp, hp']
    cases p.findRunner c.pid with
    | none => exact .returns s _
    | some x =>
      dsimp only
      split
      · exact .returns s _
      · refine .bind _ fun f _ => ?_
        split
        · exact .returns s _
        · split
          · exact .returns s _
          · refine .bind _ fun bit _ => ?_
            split
            · exact .returns s _
            · exact .bind _ fun _ _ => .assigns hp ((Kept.refl p).modFiber _ _) _

theorem flsSetValue_behind (hu : ∀ p ∈ u, p.id ≠ c.tgid) (pos val : Int) :
    Behind False u s.listaProcessi (flsSetValue c pos val (s.prepend u)) (flsSetValue c pos val s) := by
  unfold flsSetValue
  refine .walks hu (fun s hp hp' => ?_) fun s i p hp hp' => ?_
  · simp only [hp, hp']
    exact .returns s _
  · simp only [hp, hp']
    cases p.findRunner c.pid with
    | none => exact .returns s _
    | some x =>
      dsimp only
      split
      · exact .returns s _
      · refine .bind _ fun f _ => ?_
        split
        · exact .returns s _
        · split
          · exact .returns s _
          · split
            · exact .returns s _
            · refine .bind _ fun bit _ => ?_
              split
              · exact .returns s _
              · exact .bind _ fun _ _ => .assigns hp ((Kept.refl p).modFiber _ _) _

theorem flsGetValue_behind (hu : ∀ p ∈ u, p.id ≠ c.tgid) (pos : Int) :
    Behind False u s.listaProcessi (flsGetValue c pos (s.prepend u)) (flsGetValue c pos s) := by
  unfold flsGetValue
  refine .walks hu (fun s hp hp' => ?_) fun s i p hp hp' => ?_
  · simp only [hp, hp']
    exact .returns s _
  · simp only [hp, hp']
    cases p.findRunner c.pid with
    | none => exact .returns s _
    | some x =>
      dsimp only
      split
      · exact .returns s _
      · refine .bind _ fun f _ => ?_
        split
        · exact .returns s _
        · split
          · exact .returns s _
          · split
            · exact ⟨rfl, kept_refl _⟩
            · refine .bind _ fun bit _ => ?_
              split
              · exact .returns s _
              · exact .bind _ fun _ _ => .returns s _

theorem myread_behind (name tgid : List Char) (fibId : Nat) (tmpPid : Int) (len off : Nat) (copied : Bool)
    (hu : ∀ p ∈ u, p.id ≠ pidOfName tgid tmpPid) :
    Behind False u s.listaProcessi (myread P name tgid fibId tmpPid len off copied (s.prepend u))
      (myread P name tgid fibId tmpPid len off copied s) := by
  unfold myread
  dsimp only
  refine .walks hu (fun s hp hp' => ?_) fun s i p hp hp' => ?_
  · simp only [hp, hp']
    exact .returns s _
  · simp only [hp, hp']
    cases walk (fun f : ListaFiber => (f.id % 2 ^ 64).toNat = (fibIdOfName name).getD fibId) p.listaFiber with
    | none => exact .returns s _
    | some x =>
      refine .bind _ fun f _ => ?_
      exact .bind _ fun text _ => .returns s _

/-- The value of a step says nothing about the list. -/
theorem Behind.out {α : Type} {l : List FiberProcessi} {x y : Except Stop (State × α)} {g : α → Option Int}
    (h : Behind files u l x y) :
    Behind files u l (do let (s, a) ← x; .ok (s, g a)) (do let (s, a) ← y; .ok (s, g a)) := by
  rcases y with e | ⟨s, a⟩
  · obtain rfl : x = .error e := h
    exact rfl
  · obtain ⟨rfl, hkept⟩ := h
    exact ⟨rfl, hkept⟩

/-- An operation behind nodes of other processes. -/
theorem step_behind {op : Op} (hop : ∀ c, op ≠ .fibOpen c) (hu : ∀ p ∈ u, p.id ≠ op.tgid) :
    Behind op.Files u s.listaProcessi (step P op (s.prepend u)) (step P op s) := by
  cases op with
  | fibOpen c => exact absurd rfl (hop c)
  | fibConvert c now => exact (fibConvert_behind hu now).out (g := some)
  | fibCreate c func parameters stackPointer stackSize =>
    exact (fibCreate_behind hu func parameters stackPointer stackSize).out
  | fibSwitchTo c id now => exact (fibSwitchTo_behind hu id now).out (g := some)
  | flsAlloc c index => exact (flsAlloc_behind hu index).out (g := some)
  | flsFree c index => exact (flsFree_behind hu index).out (g := fun ret : Bool => some (if ret then 1 else 0))
  | flsGetValue c pos => exact (flsGetValue_behind hu pos).out (g := some)
  | flsSetValue c pos val => exact (flsSetValue_behind hu pos val).out (g := fun _ => none)
  | myread name tgid fibId tmpPid len off copied =>
    exact (myread_behind name tgid fibId tmpPid len off copied hu).out
      (g := fun reply : Reader.Reply Char => some reply.ret)

variable {s' : State} {ret : Int}

theorem step_kept {op : Op} {out : Option Int} (hop : ∀ c, op ≠ .fibOpen c) (hok : step P op s = .ok (s', out)) :
    List.Forall₂ (Kept op.Files) s.listaProcessi s'.listaProcessi := by
  have hbehind := step_behind (P := P) (u := []) (s := s) hop fun p hp => absurd hp List.not_mem_nil
  rw [show s.prepend [] = s from rfl, hok] at hbehind
  exact hbehind.2

/-! ### The calls that link and unlink a node, and the exit of a thread -/

theorem fibOpen_lists (hok : fibOpen c s = .ok (s', ret)) : s'.listaProcessi = processo c.tgid :: s.listaProcessi := by
  unfold fibOpen at hok
  cases hlock : s.lockListaProcessi with
  | true =>
    rw [spinLock, hlock] at hok
    cases hok
  | false =>
    rw [spinLock_free hlock] at hok
    cases hok
    rfl

theorem fibRelease_lists (hok : fibRelease c s = .ok (s', ret)) : ∃ i p, s.findProcesso c.tgid = some (i, p) ∧
    s'.listaProcessi = s.listaProcessi.eraseIdx i := by
  unfold fibRelease at hok
  cases hlock : s.lockListaProcessi with
  | true =>
    rw [spinLock, hlock] at hok
    cases hok
  | false =>
    rw [spinLock_free hlock] at hok
    cases hp : State.findProcesso { s with lockListaProcessi := true } c.tgid with
    | none =>
      simp only [bind, Except.bind, hp, deref] at hok
      cases hok
    | some x =>
      simp only [bind, Except.bind, hp, deref] at hok
      cases hok
      exact ⟨x.1, x.2, hp, rfl⟩

theorem preHandlerExit_kept (hok : preHandlerExit c s = .ok (s', ret)) :
    List.Forall₂ (Kept False) s.listaProcessi s'.listaProcessi := by
  unfold preHandlerExit at hok
  cases hp : s.findProcesso c.tgid with
  | none =>
    rw [hp] at hok
    cases hok
    exact kept_refl _
  | some x =>
    rw [hp] at hok
    cases hj : x.2.findRunner c.pid with
    | none =>
      simp only [hj] at hok
      cases hok
      exact kept_refl _
    | some y =>
      simp only [hj] at hok
      cases hfiber : y.2.fiber with
      | none =>
        rw [hfiber] at hok
        cases hok
      | some f =>
        rw [hfiber] at hok
        cases hok
        exact kept_modProcesso (p := x.2) hp (((Kept.refl x.2).modFiber _ _).modNode _ _ (by intro _; rfl))

end operations

end LinuxFibers.Lists
