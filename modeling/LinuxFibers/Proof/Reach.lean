import LinuxFibers.Proof.Binding

/-!
# Invariants of reachable states

An invariant of entries is carried through the walks and the operations once and for all
(`EntryInvariant.step`); what is left for each invariant is to say how the five kinds of operation treat
one entry. `Process.Inv` comes with it.
-/

namespace LinuxFibers

open HeapTable Runs

/-! ### The walk over the entries of a process -/

section walk

variable {σ : Type} {tgid : Int} {body : Process → σ → Except Fault (Process × σ)} {T T' : Table Process}
  {x x' : σ}

/-- The bucket adds nothing to the comparison of the ids. -/
theorem forEachProcess_eq : forEachProcess tgid body T x = T.forEach (fun p => p.id = tgid) body x :=
  Table.forEach_guard fun p hp => by rw [hp]

theorem forEachProcess_none (hno : ∀ b ∈ T, b.val.id ≠ tgid) :
    forEachProcess tgid body T x = .ok (T, x) := by
  rw [forEachProcess_eq]
  exact Table.forEach_none hno

/-- With a single entry the walk is the body run on it. -/
theorem forEachProcess_single {b : Block Process} (hb : b.val.id = tgid) :
    forEachProcess tgid body [b] x = (do
      let (p, x) ← body b.val x
      .ok ([{ b with val := p }], x)) := by
  rw [forEachProcess_eq]
  exact Table.forEach_single hb

/-- The rule of the walk: the body re-establishes `P` for the entry it visits and leaves it alone on the
others. -/
theorem forEachProcess_induct {P : σ → Process → Prop}
    (hok : forEachProcess tgid body T x = .ok (T', x')) (hP : ∀ b ∈ T, P x b.val)
    (hbody : ∀ p x p' x', p.id = tgid → P x p → body p x = .ok (p', x') →
      P x' p' ∧ ∀ q, P x q → P x' q) : ∀ b ∈ T', P x' b.val := by
  rw [forEachProcess_eq] at hok
  refine (Table.forEach_induct (J := fun _ => True) ?_ trivial hP hok).2.1
  exact fun p y p' y' hid _ hp hrun => ⟨trivial, hbody p y p' y' hid hp hrun⟩

/-- A walk that keeps entries well formed and never hands an address out twice. -/
theorem forEachProcess_next (kmem : σ → Kmem)
    (hbody : ∀ p x p' x', p.Inv (kmem x).next → body p x = .ok (p', x') →
      p'.Inv (kmem x').next ∧ (kmem x).next ≤ (kmem x').next)
    (hT : ∀ b ∈ T, b.val.Inv (kmem x).next) (hok : forEachProcess tgid body T x = .ok (T', x')) :
    (kmem x).next ≤ (kmem x').next := by
  rw [forEachProcess_eq] at hok
  refine (Table.forEach_induct (J := fun y => (kmem x).next ≤ (kmem y).next)
    (P := fun y p => p.Inv (kmem y).next) ?_ (le_refl _) hT hok).1
  intro p y p' y' _ hle hp hrun
  obtain ⟨hp', hnext⟩ := hbody p y p' y' hp hrun
  exact ⟨hle.trans hnext, hp', fun q hq => hq.mono hnext⟩

/-- The walk returns when its body does on every entry of the process, whatever the loop's variables. -/
theorem forEachProcess_ok_iff (ok : Process → Prop)
    (hbody : ∀ b ∈ T, b.val.id = tgid → ∀ x, (∃ r, body b.val x = .ok r) ↔ ok b.val) (x : σ) :
    (∃ r, forEachProcess tgid body T x = .ok r) ↔ ∀ b ∈ T, b.val.id = tgid → ok b.val := by
  rw [forEachProcess_eq]
  exact Table.forEach_ok_iff ok hbody x

/-- A field that the body keeps reads the same in the whole table. -/
theorem forEachProcess_map {β : Type} {k : Process → β}
    (hbody : ∀ p x p' x', body p x = .ok (p', x') → k p' = k p)
    (hok : forEachProcess tgid body T x = .ok (T', x')) :
    T'.map (fun b => (b.addr, k b.val)) = T.map fun b => (b.addr, k b.val) := by
  rw [forEachProcess_eq] at hok
  exact Table.forEach_map (fun p y p' y' _ hrun => hbody p y p' y' hrun) hok

end walk

/-! ### What an operation does -/

/-- The operations on fibers are walks over the entries of the caller's process, the four on local storage one and
the same walk with another body. -/
inductive StepCase (nFib : Nat) (s : State) : Op → State → Prop
  | fibOpen (c : Task) : StepCase nFib s (.fibOpen c) (fibOpen nFib c s)
  | fibRelease (c : Task) : StepCase nFib s (.fibRelease c) (fibRelease c s)
  | fibConvert {c : Task} {now : Timespec} {T : Table Process} {x : ConvertVars}
      (hwalk : forEachProcess c.tgid (convertProcess c (s.cpu c) now) s.processi ⟨s.kmem, false, -1⟩ = .ok (T, x)) :
      StepCase nFib s (.fibConvert c now) { s with processi := T, kmem := x.kmem }
  | fibCreate {c : Task} {func parameters stackPointer stackSize : BitVec 64} {T : Table Process} {x : CreateVars}
      (hwalk : forEachProcess c.tgid (createProcess c (s.cpu c) func parameters stackPointer stackSize) s.processi
        ⟨s.kmem, none⟩ = .ok (T, x)) :
      StepCase nFib s (.fibCreate c func parameters stackPointer stackSize) { s with processi := T, kmem := x.kmem }
  | fibSwitchTo {c : Task} {id : Int} {now : Timespec} {T : Table Process} {x : SwitchVars}
      (hwalk : forEachProcess c.tgid (switchProcess c id now) s.processi ⟨s.kmem, s.cpu c, -1⟩ = .ok (T, x)) :
      StepCase nFib s (.fibSwitchTo c id now)
        { processi := T, kmem := x.kmem, cpu := Function.update s.cpu c x.cpu }
  | fls {op : Op} {σ : Type} {body : Fiber → σ → Except Fault (Fiber × σ)} {x x' : σ} {s' : State}
      (hbody : KeepsBinding body) (hrun : onRunner op.caller body s x = .ok (s', x')) : StepCase nFib s op s'
  | user (c : Task) (cpu : Cpu) : StepCase nFib s (.user c cpu) { s with cpu := Function.update s.cpu c cpu }

theorem step_cases {nFib : Nat} {op : Op} {s s' : State} {out : Option Int} (hok : step nFib op s = .ok (s', out)) :
    StepCase nFib s op s' := by
  cases op with
  | fibOpen c =>
    cases hok
    exact .fibOpen c
  | fibRelease c =>
    cases hok
    exact .fibRelease c
  | fibConvert c now =>
    obtain ⟨⟨s₁, ret⟩, hrun, hok⟩ := bind_eq_ok.mp hok
    obtain ⟨⟨T, y⟩, hwalk, hrun⟩ := bind_eq_ok.mp hrun
    cases hrun
    cases hok
    exact .fibConvert hwalk
  | fibCreate c func parameters stackPointer stackSize =>
    obtain ⟨⟨s₁, ret⟩, hrun, hok⟩ := bind_eq_ok.mp hok
    obtain ⟨⟨T, y⟩, hwalk, hrun⟩ := bind_eq_ok.mp hrun
    cases hrun
    cases hok
    exact .fibCreate hwalk
  | fibSwitchTo c id now =>
    obtain ⟨⟨s₁, ret⟩, hrun, hok⟩ := bind_eq_ok.mp hok
    obtain ⟨⟨T, y⟩, hwalk, hrun⟩ := bind_eq_ok.mp hrun
    cases hrun
    cases hok
    exact .fibSwitchTo hwalk
  | flsAlloc c =>
    obtain ⟨⟨s₁, ret⟩, hrun, hok⟩ := bind_eq_ok.mp hok
    cases hok
    exact .fls flsAllocFiber_keeps hrun
  | flsFree c index =>
    obtain ⟨⟨s₁, ret⟩, hrun, hok⟩ := bind_eq_ok.mp hok
    cases hok
    exact .fls (flsFreeFiber_keeps index) hrun
  | flsGetValue c pos =>
    obtain ⟨⟨s₁, ret⟩, hrun, hok⟩ := bind_eq_ok.mp hok
    cases hok
    exact .fls (flsGetValueFiber_keeps pos) hrun
  | flsSetValue c pos val =>
    obtain ⟨⟨s₁, ret⟩, hrun, hok⟩ := bind_eq_ok.mp hok
    cases hok
    exact .fls (flsSetValueFiber_keeps pos val) hrun
  | user c cpu =>
    cases hok
    exact .user c cpu

/-! ### Invariants of entries -/

/-- A property of entries that every operation keeps; `n` is the next address of the allocator. -/
structure EntryInvariant (nFib : Nat) (Q : Nat → Process → Prop) : Prop where
  mono : ∀ {n m : Nat} {p : Process}, n ≤ m → Q n p → Q m p
  opened : ∀ (n : Nat) (tgid : Int), Q (n + 3) (newProcess nFib tgid (n + 1) (n + 2))
  convert : ∀ {c : Task} {cpu : Cpu} {now : Timespec} {p p' : Process} {x x' : ConvertVars},
    p.Inv x.kmem.next → Q x.kmem.next p → convertProcess c cpu now p x = .ok (p', x') → Q x'.kmem.next p'
  create : ∀ {c : Task} {cpu : Cpu} {func parameters stackPointer stackSize : BitVec 64} {p p' : Process}
    {x x' : CreateVars}, p.Inv x.kmem.next → Q x.kmem.next p →
    createProcess c cpu func parameters stackPointer stackSize p x = .ok (p', x') → Q x'.kmem.next p'
  switch : ∀ {c : Task} {id : Int} {now : Timespec} {p p' : Process} {x x' : SwitchVars},
    p.Inv x.kmem.next → Q x.kmem.next p → switchProcess c id now p x = .ok (p', x') → Q x'.kmem.next p'
  fls : ∀ {σ : Type} {body : Fiber → σ → Except Fault (Fiber × σ)} {c : Task} {p p' : Process} {x x' : σ}
    {n : Nat}, KeepsBinding body → p.Inv n → Q n p →
    forEachThread c.pid (runnerThread body) p x = .ok (p', x') → Q n p'

theorem newProcess_inv (nFib n a b : Nat) (tgid : Int) : (newProcess nFib tgid a b).Inv n where
  threadIds := List.nodup_nil
  threadAddrs := List.nodup_nil
  fiberIds := List.nodup_nil
  fiberAddrs := List.nodup_nil
  runner _ _ h := by cases h
  selected _ _ _ h := by cases h
  threadBound _ h := by cases h
  fiberBound _ h := by cases h
  fiberId _ h := by cases h
  lastFibId := le_refl _

section step

variable {nFib : Nat} {Q : Nat → Process → Prop}

/-- The entries of a state, each with the invariant. -/
def Holds (Q : Nat → Process → Prop) (s : State) : Prop :=
  ∀ b ∈ s.processi, b.val.Inv s.kmem.next ∧ Q s.kmem.next b.val

/-- A walk whose loop variables hold the allocator's state. -/
theorem EntryInvariant.walk (hQ : EntryInvariant nFib Q) {σ : Type} {tgid : Int} (kmem : σ → Kmem)
    {body : Process → σ → Except Fault (Process × σ)} {s : State} {T : Table Process} {x x' : σ}
    (hbody : ∀ p x p' x', p.Inv (kmem x).next → Q (kmem x).next p → body p x = .ok (p', x') →
      p'.Inv (kmem x').next ∧ Q (kmem x').next p' ∧ (kmem x).next ≤ (kmem x').next)
    (h : Holds Q s) (hx : kmem x = s.kmem) (hok : forEachProcess tgid body s.processi x = .ok (T, x')) :
    ∀ b ∈ T, b.val.Inv (kmem x').next ∧ Q (kmem x').next b.val := by
  refine forEachProcess_induct (P := fun x p => p.Inv (kmem x).next ∧ Q (kmem x).next p) hok ?_ ?_
  · rw [hx]
    exact h
  · intro p x p' x' _ hp hrun
    obtain ⟨hinv, hq, hle⟩ := hbody p x p' x' hp.1 hp.2 hrun
    exact ⟨⟨hinv, hq⟩, fun q hq => ⟨hq.1.mono hle, hQ.mono hle hq.2⟩⟩

theorem EntryInvariant.onRunner (hQ : EntryInvariant nFib Q) {σ : Type}
    {body : Fiber → σ → Except Fault (Fiber × σ)} (hbody : KeepsBinding body) {c : Task} {s s' : State}
    {x x' : σ} (h : Holds Q s) (hok : onRunner c body s x = .ok (s', x')) : Holds Q s' := by
  obtain ⟨⟨T, y⟩, hwalk, hok⟩ := bind_eq_ok.mp hok
  cases hok
  refine forEachProcess_induct (P := fun _ p => p.Inv s.kmem.next ∧ Q s.kmem.next p) hwalk h ?_
  intro p x p' x' _ hp hrun
  exact ⟨⟨runnerProcess_inv hbody hp.1 hrun, hQ.fls hbody hp.1 hp.2 hrun⟩, fun _ hq => hq⟩

theorem foldl_next {α : Type} (free : Kmem → α → Kmem) (hfree : ∀ m a, (free m a).next = m.next)
    (l : List α) (m : Kmem) : (l.foldl free m).next = m.next := by
  induction l generalizing m with
  | nil => rfl
  | cons a l ih => rw [List.foldl_cons, ih, hfree]

theorem freeProcess_next (m : Kmem) (b : Block Process) : (freeProcess m b).next = m.next := by
  simp only [freeProcess, kfree]
  rw [foldl_next freeFiberStuff fun _ _ => rfl, foldl_next freeFiber fun _ _ => rfl,
    foldl_next freeThread fun _ _ => rfl]

theorem EntryInvariant.step (hQ : EntryInvariant nFib Q) {op : Op} {s s' : State} {out : Option Int}
    (h : Holds Q s) (hok : step nFib op s = .ok (s', out)) : Holds Q s' := by
  cases step_cases hok with
  | fibOpen c =>
    intro b hb
    rcases List.mem_cons.mp hb with rfl | hb
    · exact ⟨newProcess_inv .., hQ.opened ..⟩
    · have hle : s.kmem.next ≤ s.kmem.next + 3 := Nat.le_add_right ..
      exact ⟨(h b hb).1.mono hle, hQ.mono hle (h b hb).2⟩
  | fibRelease c =>
    intro b hb
    simp only [fibRelease, foldl_next freeProcess freeProcess_next]
    exact h b (List.mem_of_mem_filter hb)
  | fibConvert hwalk =>
    refine hQ.walk ConvertVars.kmem (fun p x p' x' hinv hq hrun => ?_) h rfl hwalk
    obtain ⟨hinv', hle⟩ := convertProcess_inv hinv hrun
    exact ⟨hinv', hQ.convert hinv hq hrun, hle⟩
  | fibCreate hwalk =>
    refine hQ.walk CreateVars.kmem (fun p x p' x' hinv hq hrun => ?_) h rfl hwalk
    obtain ⟨hinv', hle⟩ := createProcess_inv hinv hrun
    exact ⟨hinv', hQ.create hinv hq hrun, hle⟩
  | fibSwitchTo hwalk =>
    refine hQ.walk SwitchVars.kmem (fun p x p' x' hinv hq hrun => ?_) h rfl hwalk
    obtain ⟨hinv', hle⟩ := switchProcess_inv hinv hrun
    exact ⟨hinv'.mono hle, hQ.switch hinv hq hrun, hle⟩
  | fls hbody hrun => exact hQ.onRunner hbody h hrun
  | user c cpu => exact h

/-- An invariant of entries holds of every entry of every reachable state. -/
theorem EntryInvariant.reached (hQ : EntryInvariant nFib Q) {s : State} (h : Reached nFib s) : Holds Q s := by
  refine Reachable.invariant (P := Holds Q) ?_ (fun s e s' hs hstep => hQ.step hs hstep.1) h
  intro s hinit b hb
  rw [hinit.1] at hb
  cases hb

theorem entryInvariant_true : EntryInvariant nFib fun _ _ => True where
  mono _ _ := trivial
  opened _ _ := trivial
  convert _ _ _ := trivial
  create _ _ _ := trivial
  switch _ _ _ := trivial
  fls _ _ _ _ := trivial

theorem reached_inv {s : State} (h : Reached nFib s) : ∀ b ∈ s.processi, b.val.Inv s.kmem.next :=
  fun b hb => (entryInvariant_true.reached h b hb).1

end step

/-! ### The binding in every reachable state -/

/-- Threads and fibers of an entry are bound one to one, and both sides say so. -/
structure Process.Binding (p : Process) : Prop where
  threadIds : (p.listathread.map fun t => t.val.id).Nodup
  runner : ∀ t ∈ p.listathread, ∃ f ∈ p.listafiber,
    t.val.runner = some f.addr ∧ f.val.selectedThread = some t.addr
  selected : ∀ f ∈ p.listafiber, ∀ a, f.val.selectedThread = some a →
    ∃ t ∈ p.listathread, t.addr = a ∧ t.val.runner = some f.addr
  oneThread : ∀ t ∈ p.listathread, ∀ u ∈ p.listathread, t.val.runner = u.val.runner → t = u
  oneFiber : ∀ f ∈ p.listafiber, ∀ g ∈ p.listafiber, f.val.selectedThread ≠ none →
    f.val.selectedThread = g.val.selectedThread → f = g

theorem Process.Wf.binding {p : Process} (h : p.Wf) : p.Binding := by
  have hrunner : ∀ t ∈ p.listathread, ∃ f ∈ p.listafiber,
      t.val.runner = some f.addr ∧ f.val.selectedThread = some t.addr := by
    intro t ht
    obtain ⟨r, f, hr, hf, hs⟩ := h.runner _ _ (Table.deref_of_mem h.threadAddrs ht)
    exact ⟨⟨r, f⟩, Table.mem_of_deref hf, hr, hs⟩
  have hselected : ∀ f ∈ p.listafiber, ∀ a, f.val.selectedThread = some a →
      ∃ t ∈ p.listathread, t.addr = a ∧ t.val.runner = some f.addr := by
    intro f hf a hs
    obtain ⟨t, ht, hr⟩ := h.selected _ _ a (Table.deref_of_mem h.fiberAddrs hf) hs
    exact ⟨⟨a, t⟩, Table.mem_of_deref ht, rfl, hr⟩
  refine ⟨h.threadIds, hrunner, hselected, ?_, ?_⟩
  · intro t ht u hu he
    obtain ⟨f, hf, hrt, hst⟩ := hrunner t ht
    obtain ⟨g, hg, hru, hsu⟩ := hrunner u hu
    obtain rfl : f = g := by
      rw [hrt, hru, Option.some.injEq] at he
      exact Table.eq_of_addr h.fiberAddrs hf hg he
    rw [hst, Option.some.injEq] at hsu
    exact Table.eq_of_addr h.threadAddrs ht hu hsu
  · intro f hf g hg hne he
    obtain ⟨a, ha⟩ := Option.ne_none_iff_exists'.mp hne
    obtain ⟨t, ht, hta, hrf⟩ := hselected f hf a ha
    obtain ⟨u, hu, hua, hrg⟩ := hselected g hg a (he ▸ ha)
    obtain rfl : t = u := Table.eq_of_addr h.threadAddrs ht hu (hta.trans hua.symm)
    rw [hrf, Option.some.injEq] at hrg
    exact Table.eq_of_addr h.fiberAddrs hf hg hrg

/-- **Every entry of every reachable state** binds its threads and fibers one to one. A run ends with a fault: at an FLS
index outside the arrays, an `flsAlloc` for a fiber with all `flsSize` slots in use (the 129th), or a creation in a full
directory (the 1001st). -/
theorem reached_binding {nFib : Nat} {s : State} (h : Reached nFib s) :
    ∀ b ∈ s.processi, b.val.Binding := fun b hb => (reached_inv h b hb).binding

/-- A thread that has switched to its second fiber. -/
theorem reached_binding_switched : ∃ s, Reached 2 s ∧
    (s.processi.map fun b => b.val.listafiber.map fun f => (f.addr, f.val.selectedThread)) =
      [[(12, some 4), (5, none)]] ∧ ∀ b ∈ s.processi, b.val.Binding := by
  obtain ⟨s, hs, hview⟩ := exists_reached 2
    [.fibOpen ⟨1, 1⟩, .fibConvert ⟨1, 1⟩ ⟨0, 5⟩, .fibCreate ⟨1, 1⟩ 16 0 4096 4096,
      .fibSwitchTo ⟨1, 1⟩ 2 ⟨0, 9⟩]
    (fun s => s.processi.map fun b => b.val.listafiber.map fun f => (f.addr, f.val.selectedThread))
    (v := [[(12, some 4), (5, none)]]) (by decide)
  exact ⟨s, hs, hview, reached_binding hs⟩

end LinuxFibers
