import LinuxFibers.Proof.Reach

/-!
# Which FLS operations stay inside the arrays

The walk of the four operations visits the fibers `currentFibers c s` that the caller runs, one in each
entry of its process. An access outside `fls` or `bitmap_fls` is a fault, so an operation returns exactly
when all its accesses lie inside. `fls_safe_iff` says when the operations do what their guards promise:
the guard of free, get and set never rejects, and the search of `flsAlloc` writes at `-1` on a full fiber.
-/

namespace LinuxFibers

open HeapTable Runs

/-- The fiber that the thread `pid` runs. -/
def Process.runningFiber (p : Process) (pid : Int) : Option Fiber :=
  (p.listathread.lookup Thread.id pid).bind fun t => t.runner.bind p.listafiber.deref

/-- The fibers an operation of the caller reaches in a table, in the order of the walk. -/
def visited (c : Task) (T : Table Process) : List Fiber :=
  (T.filter fun b => b.val.id = c.tgid).filterMap fun b => b.val.runningFiber c.pid

/-- The fibers the caller runs. -/
def currentFibers (c : Task) (s : State) : List Fiber := visited c s.processi

theorem Process.runningFiber_none {p : Process} {pid : Int} (hno : ∀ t ∈ p.listathread, t.val.id ≠ pid) :
    p.runningFiber pid = none := by
  rw [runningFiber, Table.lookup_eq_none.mpr hno]
  rfl

theorem Process.Carries.runningFiber {p : Process} {pid : Int} {thread r : Nat} {f : Fiber}
    (h : p.Carries pid thread r f) (hwf : p.Wf) : p.runningFiber pid = some f := by
  have hfound : p.listathread.lookup Thread.id pid = some { runner := some r, id := pid } :=
    Table.lookup_of_mem hwf.threadIds (Table.mem_of_deref h.thread)
  rw [Process.runningFiber, hfound, Option.bind_some, Option.bind_some, h.fiber]

/-! ### The walk in terms of the fibers it visits -/

section walk

variable {σ : Type} {c : Task} {body : Fiber → σ → Except Fault (Fiber × σ)} {T : Table Process} {x : σ}

/-- The entries the walk of an FLS operation leaves behind. -/
abbrev flsWalk (c : Task) (body : Fiber → σ → Except Fault (Fiber × σ)) (T : Table Process) (x : σ) :
    Except Fault (Table Process × σ) :=
  forEachProcess c.tgid (forEachThread c.pid (runnerThread body)) T x

/-- One entry of the walk: it is passed over, or `body` runs on the fiber the caller runs there. -/
theorem flsWalk_cons (body : Fiber → σ → Except Fault (Fiber × σ)) {b : Block Process} (hwf : b.val.Wf) :
    (visited c (b :: T) = visited c T ∧ flsWalk c body (b :: T) x = (do
        let (T, x) ← flsWalk c body T x
        .ok (b :: T, x))) ∨
      ∃ f r, b.val.listafiber.deref r = some f ∧ visited c (b :: T) = f :: visited c T ∧
        flsWalk c body (b :: T) x = (do
        let (f, x) ← body f x
        let (T, x) ← flsWalk c body T x
        .ok ({ b with val := b.val.modFiber r fun _ => f } :: T, x)) := by
  simp only [flsWalk, forEachProcess_eq]
  by_cases hid : b.val.id = c.tgid
  · rcases hwf.carries_or c.pid with hno | ⟨thread, r, f, hc⟩
    · left
      refine ⟨?_, ?_⟩
      · rw [visited, List.filter_cons_of_pos (by simpa using hid), List.filterMap_cons,
          Process.runningFiber_none hno]
        rfl
      · rw [Table.forEach_cons, if_pos hid, runnerProcess_none hno]
        rfl
    · right
      refine ⟨f, r, hc.fiber, ?_, ?_⟩
      · rw [visited, List.filter_cons_of_pos (by simpa using hid), List.filterMap_cons,
          hc.runningFiber hwf]
        rfl
      · rw [Table.forEach_cons, if_pos hid, runnerProcess_eq hwf hc]
        cases body f x <;> rfl
  · left
    refine ⟨?_, ?_⟩
    · rw [visited, List.filter_cons_of_neg (by simpa using hid)]
      rfl
    · rw [Table.forEach_cons, if_neg hid]

theorem flsWalk_none (hwf : ∀ b ∈ T, b.val.Wf) (hno : visited c T = []) :
    flsWalk c body T x = .ok (T, x) := by
  induction T with
  | nil => rfl
  | cons b T ih =>
    rcases flsWalk_cons body (x := x) (hwf b List.mem_cons_self) with ⟨hv, hw⟩ | ⟨f, r, -, hv, -⟩
    · rw [hw, ih (fun d hd => hwf d (List.mem_cons_of_mem _ hd)) (hv ▸ hno)]
      rfl
    · rw [hv] at hno
      cases hno

/-- The walk faults when its body faults on the first fiber. -/
theorem flsWalk_error (hwf : ∀ b ∈ T, b.val.Wf) {f : Fiber} {l : List Fiber} (hv : visited c T = f :: l)
    {e : Fault} (he : body f x = .error e) : flsWalk c body T x = .error e := by
  induction T with
  | nil => cases hv
  | cons b T ih =>
    rcases flsWalk_cons body (x := x) (hwf b List.mem_cons_self) with ⟨hv', hw⟩ | ⟨g, r, -, hv', hw⟩
    · rw [hw, ih (fun d hd => hwf d (List.mem_cons_of_mem _ hd)) (hv' ▸ hv)]
      rfl
    · rw [hv', List.cons.injEq] at hv
      rw [hw, hv.1, he]
      rfl

theorem flsWalk_ok (hwf : ∀ b ∈ T, b.val.Wf)
    (hbody : ∀ f ∈ visited c T, ∀ x, ∃ f' x', body f x = .ok (f', x')) :
    ∃ T' x', flsWalk c body T x = .ok (T', x') := by
  induction T generalizing x with
  | nil => exact ⟨[], x, rfl⟩
  | cons b T ih =>
    have hT := fun d hd => hwf d (List.mem_cons_of_mem b hd)
    rcases flsWalk_cons body (x := x) (hwf b List.mem_cons_self) with ⟨hv, hw⟩ | ⟨f, r, -, hv, hw⟩
    · obtain ⟨T', x', hrest⟩ := ih (x := x) hT (hv ▸ hbody)
      exact ⟨b :: T', x', by rw [hw, hrest]; rfl⟩
    · rw [hv] at hbody
      obtain ⟨f', x₁, hf⟩ := hbody f List.mem_cons_self x
      obtain ⟨T', x', hrest⟩ := ih (x := x₁) hT fun g hg => hbody g (List.mem_cons_of_mem _ hg)
      refine ⟨{ b with val := b.val.modFiber r fun _ => f' } :: T', x', ?_⟩
      rw [hw, hf]
      simp only [bind, Except.bind, hrest]

/-- What the body establishes of the loop variable holds after a walk that visits a fiber. -/
theorem flsWalk_out {J : σ → Prop} (hbody : ∀ f x f' x', body f x = .ok (f', x') → J x')
    (hwf : ∀ b ∈ T, b.val.Wf) (hx : J x ∨ visited c T ≠ []) {T' : Table Process} {x' : σ}
    (hok : flsWalk c body T x = .ok (T', x')) : J x' := by
  induction T generalizing x T' with
  | nil =>
    cases hok
    exact hx.resolve_right fun h => h rfl
  | cons b T ih =>
    have hT := fun d hd => hwf d (List.mem_cons_of_mem b hd)
    rcases flsWalk_cons body (x := x) (hwf b List.mem_cons_self) with ⟨hv, hw⟩ | ⟨f, r, -, hv, hw⟩
    · rw [hw] at hok
      obtain ⟨⟨U, y⟩, hrest, hok⟩ := bind_eq_ok.mp hok
      cases hok
      exact ih hT (hv ▸ hx) hrest
    · rw [hw] at hok
      obtain ⟨⟨f', x₁⟩, hf, hok⟩ := bind_eq_ok.mp hok
      obtain ⟨⟨U, y⟩, hrest, hok⟩ := bind_eq_ok.mp hok
      cases hok
      exact ih hT (.inl (hbody _ _ _ _ hf)) hrest

end walk

/-! ### The guards -/

/-- An operation with a user-supplied index keeps inside the arrays and rejects an index outside them: it
returns without a fault, and then with the value `reject` and every entry as it was. -/
def IndexGuarded (nFib : Nat) (s : State) (op : Op) (i : Int) (reject : Option Int) : Prop :=
  ∃ s' out, step nFib op s = .ok (s', out) ∧ (¬ InRange i → out = reject ∧ s'.processi = s.processi)

/-- `flsAlloc` keeps inside the arrays, and returns `-1` with every entry as it was when a fiber it is
called on has all its slots in use. -/
def AllocGuarded (nFib : Nat) (s : State) (c : Task) : Prop :=
  ∃ s' out, step nFib (.flsAlloc c) s = .ok (s', out) ∧
    ((∃ f ∈ currentFibers c s, f.Full) → out = some (-1) ∧ s'.processi = s.processi)

theorem onRunner_ok {σ : Type} {c : Task} {body : Fiber → σ → Except Fault (Fiber × σ)} {s : State} {x : σ}
    {T : Table Process} {x' : σ} (h : flsWalk c body s.processi x = .ok (T, x')) :
    onRunner c body s x = .ok ({ s with processi := T }, x') := by
  simp only [flsWalk] at h
  rw [onRunner, h]
  rfl

theorem onRunner_error {σ : Type} {c : Task} {body : Fiber → σ → Except Fault (Fiber × σ)} {s : State} {x : σ}
    {e : Fault} (h : flsWalk c body s.processi x = .error e) : onRunner c body s x = .error e := by
  simp only [flsWalk] at h
  rw [onRunner, h]
  rfl

section guards

variable {nFib : Nat} {s : State} {c : Task}

/-- The argument shared by the three operations with an index: inside the arrays the body returns, outside
it faults at the first fiber, and without a fiber nothing is accessed. -/
theorem indexGuarded_iff {σ : Type} {op : Op} {i : Int} {reject : Option Int} (x : σ)
    (out : σ → Option Int) {body : Fiber → σ → Except Fault (Fiber × σ)} (hwf : ∀ b ∈ s.processi, b.val.Wf)
    (hop : step nFib op s = (do
      let (s, x) ← onRunner c body s x
      .ok (s, out x)))
    (hreject : out x = reject)
    (hin : InRange i → ∀ f x, ∃ f' x', body f x = .ok (f', x'))
    (hout : ¬ InRange i → ∀ f x, body f x = .error .outOfBounds) :
    IndexGuarded nFib s op i reject ↔ InRange i ∨ currentFibers c s = [] := by
  constructor
  · rintro ⟨s', o, hok, -⟩
    by_contra hcon
    push Not at hcon
    obtain ⟨f, l, hv⟩ := List.exists_cons_of_ne_nil hcon.2
    rw [hop, onRunner_error (flsWalk_error hwf hv (hout hcon.1 f x))] at hok
    cases hok
  · intro h
    by_cases hv : currentFibers c s = []
    · refine ⟨s, out x, ?_, fun _ => ⟨hreject, rfl⟩⟩
      rw [hop, onRunner_ok (flsWalk_none hwf hv)]
      rfl
    · have hi : InRange i := h.resolve_right hv
      obtain ⟨T, x', hwalk⟩ := flsWalk_ok (c := c) (x := x) hwf fun f _ x => hin hi f x
      refine ⟨{ s with processi := T }, out x', ?_, fun hno => absurd hi hno⟩
      rw [hop, onRunner_ok hwalk]
      rfl

theorem flsFree_guarded (hwf : ∀ b ∈ s.processi, b.val.Wf) (i : Int) :
    IndexGuarded nFib s (.flsFree c i) i (some 0) ↔ InRange i ∨ currentFibers c s = [] := by
  refine indexGuarded_iff false (fun ret => some (if ret then 1 else 0)) hwf rfl rfl (fun hi f ret => ?_)
    fun hi f ret => flsFreeFiber_out f hi ret
  obtain ⟨j, rfl⟩ := hi.exists_fin
  exact ⟨_, _, flsFreeFiber_eq f j ret⟩

theorem flsGetValue_guarded (hwf : ∀ b ∈ s.processi, b.val.Wf) (i : Int) :
    IndexGuarded nFib s (.flsGetValue c i) i (some (-1)) ↔ InRange i ∨ currentFibers c s = [] := by
  refine indexGuarded_iff (-1) some hwf rfl rfl (fun hi f ret => ?_)
    fun hi f ret => flsGetValueFiber_out f hi ret
  obtain ⟨j, rfl⟩ := hi.exists_fin
  exact ⟨_, _, flsGetValueFiber_eq f j ret⟩

theorem flsSetValue_guarded (hwf : ∀ b ∈ s.processi, b.val.Wf) (i val : Int) :
    IndexGuarded nFib s (.flsSetValue c i val) i none ↔ InRange i ∨ currentFibers c s = [] := by
  refine indexGuarded_iff () (fun _ => none) hwf rfl rfl (fun hi f ret => ?_)
    fun hi f ret => flsSetValueFiber_out f hi val ret
  obtain ⟨j, rfl⟩ := hi.exists_fin
  exact ⟨_, _, flsSetValueFiber_eq f j val ret⟩

/-- Whatever fiber it runs on, the search leaves an index that is not negative. -/
theorem flsAllocFiber_nonneg {f f' : Fiber} {index index' : Int}
    (hok : flsAllocFiber f index = .ok (f', index')) : 0 ≤ index' := by
  cases hfirst : firstClear f.bitmapFls.val with
  | some i =>
    rw [flsAllocFiber_some f hfirst] at hok
    cases hok
    exact (inRange_fin i).1
  | none =>
    have hfull : f.Full := firstClear_eq_none.mp hfirst
    by_contra hneg
    by_cases hindex : index < 0
    · rw [flsAllocFiber_full f hfull hindex] at hok
      cases hok
    · simp only [flsAllocFiber, hfirst] at hok
      split_ifs at hok
      · obtain ⟨bitmap, -, hok⟩ := bind_eq_ok.mp hok
        cases hok
        omega
      · cases hok
        omega

theorem flsAlloc_guarded (hwf : ∀ b ∈ s.processi, b.val.Wf) :
    AllocGuarded nFib s c ↔ ∀ f ∈ currentFibers c s, ¬ f.Full := by
  constructor
  · rintro ⟨s', out, hok, hfull⟩ f hf hff
    obtain ⟨rfl, -⟩ := hfull ⟨f, hf, hff⟩
    obtain ⟨⟨s₁, index⟩, hrun, hok⟩ := bind_eq_ok.mp hok
    obtain ⟨⟨T, y⟩, hwalk, hrun⟩ := bind_eq_ok.mp hrun
    cases hrun
    have hneg : index = -1 := by
      simp only [Except.ok.injEq, Prod.mk.injEq, Option.some.injEq] at hok
      exact hok.2
    have hpos : 0 ≤ index := by
      refine flsWalk_out (J := fun i => 0 ≤ i) (fun _ _ _ _ h => flsAllocFiber_nonneg h) hwf (.inr ?_) hwalk
      exact List.ne_nil_of_mem hf
    omega
  · intro hfree
    have hbody : ∀ f ∈ visited c s.processi, ∀ index, ∃ f' index', flsAllocFiber f index = .ok (f', index') := by
      intro f hf index
      cases hfirst : firstClear f.bitmapFls.val with
      | some i => exact ⟨_, _, flsAllocFiber_some f hfirst index⟩
      | none => exact absurd (firstClear_eq_none.mp hfirst) (hfree f hf)
    obtain ⟨T, index, hwalk⟩ := flsWalk_ok (x := (-1 : Int)) hwf hbody
    refine ⟨{ s with processi := T }, some index, ?_, fun ⟨f, hf, hff⟩ => absurd hff (hfree f hf)⟩
    simp only [step, flsAlloc, onRunner_ok hwalk]
    rfl

end guards

/-- **The FLS operations and the ends of their arrays.** In every reachable state and for every caller and
index: free, get and set keep inside the arrays and reject what lies outside exactly when the index lies
inside or the caller runs no fiber; `flsAlloc` keeps inside and answers `-1` to a full fiber exactly when
no fiber it is called on is full. -/
theorem fls_safe_iff {nFib : Nat} {s : State} (h : Reached nFib s) (c : Task) (i val : Int) :
    (IndexGuarded nFib s (.flsFree c i) i (some 0) ↔ InRange i ∨ currentFibers c s = []) ∧
    (IndexGuarded nFib s (.flsGetValue c i) i (some (-1)) ↔ InRange i ∨ currentFibers c s = []) ∧
    (IndexGuarded nFib s (.flsSetValue c i val) i none ↔ InRange i ∨ currentFibers c s = []) ∧
    (AllocGuarded nFib s c ↔ ∀ f ∈ currentFibers c s, ¬ f.Full) := by
  have hwf : ∀ b ∈ s.processi, b.val.Wf := fun b hb => (reached_inv h b hb).toWf
  exact ⟨flsFree_guarded hwf i, flsGetValue_guarded hwf i, flsSetValue_guarded hwf i val,
    flsAlloc_guarded hwf⟩

/-- After `fib_open` and `fib_convert` the caller's fiber has free slots and the index `3` is inside. -/
theorem fls_safe_iff_converted : ∃ s, Reached nFib s ∧ (currentFibers ⟨1, 1⟩ s).length = 1 ∧
    ((IndexGuarded nFib s (.flsFree ⟨1, 1⟩ 3) 3 (some 0) ↔ InRange 3 ∨ currentFibers ⟨1, 1⟩ s = []) ∧
    (IndexGuarded nFib s (.flsGetValue ⟨1, 1⟩ 3) 3 (some (-1)) ↔ InRange 3 ∨ currentFibers ⟨1, 1⟩ s = []) ∧
    (IndexGuarded nFib s (.flsSetValue ⟨1, 1⟩ 3 7) 3 none ↔ InRange 3 ∨ currentFibers ⟨1, 1⟩ s = []) ∧
    (AllocGuarded nFib s ⟨1, 1⟩ ↔ ∀ f ∈ currentFibers ⟨1, 1⟩ s, ¬ f.Full)) := by
  obtain ⟨s, hs, hview⟩ := exists_reached nFib [.fibOpen ⟨1, 1⟩, .fibConvert ⟨1, 1⟩ ⟨0, 5⟩]
    (fun s => (currentFibers ⟨1, 1⟩ s).length) (v := 1) (by decide +kernel)
  exact ⟨s, hs, hview, fls_safe_iff hs ⟨1, 1⟩ 3 7⟩

/-- `FIB_FLS_DEALLOC` with the index `FLS_SIZE` reads one past the end of `bitmap_fls`: not every index
outside the arrays is rejected. -/
theorem flsFree_past_the_end : ∃ s, Reached nFib s ∧
    step nFib (.flsFree ⟨1, 1⟩ flsSize) s = .error .outOfBounds ∧
    ¬ IndexGuarded nFib s (.flsFree ⟨1, 1⟩ flsSize) flsSize (some 0) := by
  obtain ⟨s, hs, hview⟩ := exists_reached nFib [.fibOpen ⟨1, 1⟩, .fibConvert ⟨1, 1⟩ ⟨0, 5⟩]
    (fun s => faultOf (step nFib (.flsFree ⟨1, 1⟩ flsSize) s)) (v := some .outOfBounds) (by decide +kernel)
  have hfault := faultOf_eq_some.mp hview
  refine ⟨s, hs, hfault, ?_⟩
  rintro ⟨s', out, hok, -⟩
  rw [hfault] at hok
  cases hok

end LinuxFibers
