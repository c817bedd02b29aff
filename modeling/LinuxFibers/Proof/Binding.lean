import LinuxFibers.Proof.Fls

/-!
# Threads and fibers are bound one to one

`Process.Inv` is what every operation keeps of an entry: it is well formed (`Process.Wf`), the addresses
of its nodes have been handed out, and fiber ids lie between `1` and `last_fib_id`. Each operation is
followed through one entry and then through the walk over the entries of the process, several of which
may carry one id. The theorem about every reachable state is `reached_binding`.
-/

namespace LinuxFibers

open HeapTable Runs

namespace Process

/-- What every operation keeps of an entry, `n` being the next address of the allocator. -/
structure Inv (n : Nat) (p : Process) : Prop extends p.Wf where
  threadBound : ∀ a ∈ p.listathread.addrs, a < n
  fiberBound : ∀ a ∈ p.listafiber.addrs, a < n
  fiberId : ∀ f ∈ p.listafiber, 1 ≤ f.val.id ∧ f.val.id ≤ p.lastFibId
  lastFibId : 0 ≤ p.lastFibId

variable {n m : Nat} {p : Process}

theorem Inv.mono (h : p.Inv n) (hnm : n ≤ m) : p.Inv m where
  toWf := h.toWf
  threadBound a ha := lt_of_lt_of_le (h.threadBound a ha) hnm
  fiberBound a ha := lt_of_lt_of_le (h.fiberBound a ha) hnm
  fiberId := h.fiberId
  lastFibId := h.lastFibId

/-- Looking a fiber up after an assignment to one fiber. -/
theorem deref_modFiber {a b : Nat} {g : Fiber → Fiber} : (p.modFiber a g).listafiber.deref b =
    if b = a then (p.listafiber.deref b).map g else p.listafiber.deref b := by
  rw [modFiber_listafiber]
  split_ifs with hb
  · rw [hb, Table.deref_update_self]
  · rw [Table.deref_update_ne hb]

theorem deref_modThread {a b : Nat} {g : Thread → Thread} : (p.modThread a g).listathread.deref b =
    if b = a then (p.listathread.deref b).map g else p.listathread.deref b := by
  rw [modThread_listathread]
  split_ifs with hb
  · rw [hb, Table.deref_update_self]
  · rw [Table.deref_update_ne hb]

/-- Replacing the fiber at an address by one with its id keeps every id. -/
theorem fiberIds_modFiber {a : Nat} {g : Fiber → Fiber}
    (hid : ∀ f, p.listafiber.deref a = some f → (g f).id = f.id) (hnd : p.listafiber.addrs.Nodup) :
    (p.modFiber a g).listafiber.map (fun f => f.val.id) = p.listafiber.map fun f => f.val.id := by
  simp only [modFiber_listafiber, Table.update, List.map_map]
  refine List.map_congr_left fun b hb => ?_
  simp only [Function.comp_apply]
  split_ifs with ha
  · exact hid b.val (ha ▸ Table.deref_of_mem hnd hb)
  · rfl

theorem fiberId_modFiber {a : Nat} {g : Fiber → Fiber} {lo hi : Int}
    (hid : ∀ f, p.listafiber.deref a = some f → (g f).id = f.id) (hnd : p.listafiber.addrs.Nodup)
    (h : ∀ f ∈ p.listafiber, lo ≤ f.val.id ∧ f.val.id ≤ hi) :
    ∀ f ∈ (p.modFiber a g).listafiber, lo ≤ f.val.id ∧ f.val.id ≤ hi := by
  intro f hf
  have hmem : f.val.id ∈ (p.modFiber a g).listafiber.map fun f => f.val.id := List.mem_map_of_mem hf
  rw [fiberIds_modFiber hid hnd] at hmem
  obtain ⟨f', hf', he⟩ := List.mem_map.mp hmem
  exact he ▸ h f' hf'

/-- An assignment to one fiber that leaves its id and its binding alone. -/
theorem Wf.modFiber {a : Nat} {g : Fiber → Fiber} (h : p.Wf)
    (hid : ∀ f, p.listafiber.deref a = some f → (g f).id = f.id)
    (hsel : ∀ f, p.listafiber.deref a = some f → (g f).selectedThread = f.selectedThread) :
    (p.modFiber a g).Wf where
  threadIds := h.threadIds
  threadAddrs := h.threadAddrs
  fiberIds := by rw [fiberIds_modFiber hid h.fiberAddrs]; exact h.fiberIds
  fiberAddrs := by rw [modFiber_listafiber, Table.addrs_update]; exact h.fiberAddrs
  runner b t ht := by
    obtain ⟨r, f, hr, hf, hs⟩ := h.runner b t ht
    refine ⟨r, if r = a then g f else f, hr, ?_, ?_⟩
    · rw [deref_modFiber, hf]
      split_ifs <;> rfl
    · split_ifs with hra
      · rw [hsel f (hra ▸ hf), hs]
      · exact hs
  selected r f b hf hs := by
    rw [deref_modFiber] at hf
    split_ifs at hf with hra
    · obtain ⟨f', hf', rfl⟩ := Option.map_eq_some_iff.mp hf
      rw [hsel f' (hra ▸ hf')] at hs
      exact h.selected r f' b hf' hs
    · exact h.selected r f b hf hs

theorem Inv.modFiber {a : Nat} {g : Fiber → Fiber} (h : p.Inv n)
    (hid : ∀ f, p.listafiber.deref a = some f → (g f).id = f.id)
    (hsel : ∀ f, p.listafiber.deref a = some f → (g f).selectedThread = f.selectedThread) :
    (p.modFiber a g).Inv n where
  toWf := h.toWf.modFiber hid hsel
  threadBound := h.threadBound
  fiberBound b hb := by
    rw [modFiber_listafiber, Table.addrs_update] at hb
    exact h.fiberBound b hb
  fiberId := fiberId_modFiber hid h.fiberAddrs h.fiberId
  lastFibId := h.lastFibId

/-! ### The exchange keeps the binding -/

section exchange

variable {pid : Int} {thread old new : Nat} {f g : Fiber} {now : Timespec} {cpu : Cpu}

theorem deref_exchanged_fiber (hne : old ≠ new) (r : Nat) :
    (exchanged thread old new now cpu p).listafiber.deref r =
      if r = old then (p.listafiber.deref r).map (leaveFiber cpu now)
      else if r = new then (p.listafiber.deref r).map (enterFiber thread now)
      else p.listafiber.deref r := by
  rw [exchanged, modThread_listafiber, deref_modFiber, deref_modFiber]
  by_cases ho : r = old
  · subst ho
    simp [hne]
  · simp [ho]

theorem deref_exchanged_thread (a : Nat) :
    (exchanged thread old new now cpu p).listathread.deref a =
      if a = thread then (p.listathread.deref a).map fun t => { t with runner := some new }
      else p.listathread.deref a := by
  rw [exchanged, deref_modThread]
  rfl

theorem fiberIds_exchanged :
    (exchanged thread old new now cpu p).listafiber.map (fun f => f.val.id) =
      p.listafiber.map fun f => f.val.id := by
  rw [exchanged, modThread_listafiber, modFiber_listafiber,
    Table.map_update (g := enterFiber thread now) Fiber.id (fun _ => rfl), modFiber_listafiber,
    Table.map_update (g := leaveFiber cpu now) Fiber.id (fun _ => rfl)]

theorem fiberAddrs_exchanged :
    (exchanged thread old new now cpu p).listafiber.addrs = p.listafiber.addrs := by
  simp [exchanged]

theorem threadIds_exchanged :
    (exchanged thread old new now cpu p).listathread.map (fun t => t.val.id) =
      p.listathread.map fun t => t.val.id := by
  rw [exchanged, modThread_listathread,
    Table.map_update (g := fun t => { t with runner := some new }) Thread.id (fun _ => rfl)]
  rfl

theorem threadAddrs_exchanged :
    (exchanged thread old new now cpu p).listathread.addrs = p.listathread.addrs := by
  simp [exchanged]

/-- The caller moves from the fiber it runs to a free one, and every other pair stays as it is: no other
thread runs `old`, which is bound to the caller, nor `new`, which is bound to nobody. -/
theorem Wf.exchanged (h : p.Wf) (hc : p.Carries pid thread old f) (hne : old ≠ new)
    (hg : p.listafiber.deref new = some g) (hsel : g.selectedThread = none) :
    (exchanged thread old new now cpu p).Wf where
  threadIds := by rw [threadIds_exchanged]; exact h.threadIds
  threadAddrs := by rw [threadAddrs_exchanged]; exact h.threadAddrs
  fiberIds := by rw [fiberIds_exchanged]; exact h.fiberIds
  fiberAddrs := by rw [fiberAddrs_exchanged]; exact h.fiberAddrs
  runner a t ht := by
    rw [deref_exchanged_thread] at ht
    split_ifs at ht with ha
    · -- the caller, which now runs `new`
      obtain ⟨t', -, rfl⟩ := Option.map_eq_some_iff.mp ht
      refine ⟨new, enterFiber thread now g, rfl, ?_, by rw [ha]; rfl⟩
      rw [deref_exchanged_fiber hne, if_neg hne.symm, if_pos rfl, hg]
      rfl
    · obtain ⟨r, f', hr, hf', hs⟩ := h.runner a t ht
      have hro : r ≠ old := by
        rintro rfl
        obtain rfl : f = f' := Option.some.inj (hc.fiber.symm.trans hf')
        rw [hc.selected h, Option.some.injEq] at hs
        exact ha hs.symm
      have hrn : r ≠ new := by
        rintro rfl
        obtain rfl : g = f' := Option.some.inj (hg.symm.trans hf')
        rw [hsel] at hs
        cases hs
      exact ⟨r, f', hr, by rw [deref_exchanged_fiber hne, if_neg hro, if_neg hrn, hf'], hs⟩
  selected r f' a hf' hs := by
    rw [deref_exchanged_fiber hne] at hf'
    rw [deref_exchanged_thread]
    split_ifs at hf' with hro hrn
    · obtain ⟨f'', -, rfl⟩ := Option.map_eq_some_iff.mp hf'
      cases hs
    · obtain ⟨f'', -, rfl⟩ := Option.map_eq_some_iff.mp hf'
      obtain rfl : thread = a := Option.some.inj hs
      rw [if_pos rfl, hc.thread, hrn]
      exact ⟨_, rfl, rfl⟩
    · obtain ⟨t, ht, hr⟩ := h.selected r f' a hf' hs
      have ha : a ≠ thread := by
        rintro rfl
        rw [hc.thread, Option.some.injEq] at ht
        subst ht
        exact hro (Option.some.inj hr).symm
      exact ⟨t, by rw [if_neg ha, ht], hr⟩

theorem Inv.exchanged (h : p.Inv n) (hc : p.Carries pid thread old f) (hne : old ≠ new)
    (hg : p.listafiber.deref new = some g) (hsel : g.selectedThread = none) :
    (exchanged thread old new now cpu p).Inv n where
  toWf := h.toWf.exchanged hc hne hg hsel
  threadBound := by rw [threadAddrs_exchanged]; exact h.threadBound
  fiberBound := by rw [fiberAddrs_exchanged]; exact h.fiberBound
  fiberId f' hf' := by
    have hmem : f'.val.id ∈ p.listafiber.map fun f => f.val.id := by
      rw [← fiberIds_exchanged]
      exact List.mem_map_of_mem hf'
    obtain ⟨f₀, hf₀, he⟩ := List.mem_map.mp hmem
    exact he ▸ h.fiberId f₀ hf₀
  lastFibId := h.lastFibId

end exchange

/-! ### Creation keeps the binding -/

/-- A new block takes its place among the fibers of the entry, with the next id. -/
theorem Inv.consFiber (h : p.Inv n) {f : Fiber} {a : Nat} (hna : n ≤ a) (ham : a < m) (hid : f.id = p.lastFibId + 1) :
    ((⟨a, f⟩ :: p.listafiber : Table Fiber).map fun b => b.val.id).Nodup ∧
      (Table.addrs (⟨a, f⟩ :: p.listafiber)).Nodup ∧ (∀ c ∈ Table.addrs (⟨a, f⟩ :: p.listafiber), c < m) ∧
      ∀ g ∈ (⟨a, f⟩ :: p.listafiber : Table Fiber), 1 ≤ g.val.id ∧ g.val.id ≤ p.lastFibId + 1 := by
  refine ⟨List.nodup_cons.mpr ⟨fun hmem => ?_, h.fiberIds⟩, List.nodup_cons.mpr ⟨fun hmem => ?_, h.fiberAddrs⟩,
    fun c hc => ?_, fun g hg => ?_⟩
  · obtain ⟨g, hg, he⟩ := List.mem_map.mp hmem
    have := (h.fiberId g hg).2
    simp only at he
    omega
  · have := h.fiberBound a hmem
    omega
  · rcases List.mem_cons.mp hc with rfl | hc
    · exact ham
    · have := h.fiberBound c hc
      omega
  · have h0 := h.lastFibId
    rcases List.mem_cons.mp hg with rfl | hg
    · simp only
      omega
    · have := h.fiberId g hg
      omega

/-- A fiber bound to nobody joins the entry. -/
theorem Inv.addFree (h : p.Inv n) {f : Fiber} {U : Table FiberStuff} {a : Nat} (hnm : n ≤ a) (ham : a < m)
    (hid : f.id = p.lastFibId + 1) (hsel : f.selectedThread = none) :
    (addFiber { p with lastFibId := p.lastFibId + 1, listafiberStuff := U } ⟨a, f⟩).Inv m where
  threadIds := h.threadIds
  threadAddrs := h.threadAddrs
  fiberIds := (h.consFiber hnm ham hid).1
  fiberAddrs := (h.consFiber hnm ham hid).2.1
  runner b t ht := by
    obtain ⟨r, g, hr, hg, hs⟩ := h.runner b t ht
    have hne : a ≠ r := by
      rintro rfl
      have := h.fiberBound a (Table.addr_mem_addrs (Table.mem_of_deref hg))
      omega
    refine ⟨r, g, hr, ?_, hs⟩
    rw [addFiber, Table.deref_cons, if_neg hne]
    exact hg
  selected r g b hg hs := by
    rw [addFiber, Table.deref_cons] at hg
    split_ifs at hg with ha
    · obtain rfl := Option.some.inj hg
      rw [hsel] at hs
      cases hs
    · exact h.selected r g b hg hs
  threadBound b hb := by
    have := h.threadBound b hb
    omega
  fiberBound := (h.consFiber hnm ham hid).2.2.1
  fiberId := (h.consFiber hnm ham hid).2.2.2
  lastFibId := by
    have h0 := h.lastFibId
    simp only [addFiber]
    omega

/-- A new thread and the fiber it runs join the entry. -/
theorem Inv.addBound (h : p.Inv n) {f : Fiber} {U : Table FiberStuff} {a b : Nat} {pid : Int}
    (hna : n ≤ a) (hnb : n ≤ b) (ham : a < m) (hbm : b < m) (hpid : ∀ t ∈ p.listathread, t.val.id ≠ pid)
    (hid : f.id = p.lastFibId + 1) (hsel : f.selectedThread = some a) :
    Inv m { p with
      listathread := ⟨a, { runner := some b, id := pid }⟩ :: p.listathread
      listafiber := ⟨b, f⟩ :: p.listafiber
      listafiberStuff := U
      lastFibId := p.lastFibId + 1 } where
  threadIds := by
    refine List.nodup_cons.mpr ⟨fun hmem => ?_, h.threadIds⟩
    obtain ⟨t, ht, he⟩ := List.mem_map.mp hmem
    exact hpid t ht he
  threadAddrs := by
    refine List.nodup_cons.mpr ⟨fun hmem => ?_, h.threadAddrs⟩
    have := h.threadBound a hmem
    omega
  fiberIds := (h.consFiber hnb hbm hid).1
  fiberAddrs := (h.consFiber hnb hbm hid).2.1
  runner c t ht := by
    rw [Table.deref_cons] at ht
    split_ifs at ht with hc
    · obtain rfl := Option.some.inj ht
      simp only at hc
      subst hc
      exact ⟨b, f, rfl, by rw [Table.deref_cons, if_pos rfl], hsel⟩
    · obtain ⟨r, g, hr, hg, hs⟩ := h.runner c t ht
      have hne : b ≠ r := by
        rintro rfl
        have := h.fiberBound b (Table.addr_mem_addrs (Table.mem_of_deref hg))
        omega
      exact ⟨r, g, hr, by rw [Table.deref_cons, if_neg hne, hg], hs⟩
  selected r g c hg hs := by
    rw [Table.deref_cons] at hg
    split_ifs at hg with hb
    · obtain rfl := Option.some.inj hg
      obtain rfl : a = c := Option.some.inj (hsel.symm.trans hs)
      exact ⟨_, by rw [Table.deref_cons, if_pos rfl], by rw [← hb]⟩
    · obtain ⟨t, ht, hr⟩ := h.selected r g c hg hs
      have hne : a ≠ c := by
        rintro rfl
        have := h.threadBound a (Table.addr_mem_addrs (Table.mem_of_deref ht))
        omega
      exact ⟨t, by rw [Table.deref_cons, if_neg hne, ht], hr⟩
  threadBound c hc := by
    rcases List.mem_cons.mp hc with rfl | hc
    · exact ham
    · have := h.threadBound c hc
      omega
  fiberBound := (h.consFiber hnb hbm hid).2.2.1
  fiberId := (h.consFiber hnb hbm hid).2.2.2
  lastFibId := by
    have h0 := h.lastFibId
    simp only
    omega

end Process

/-! ### The operations on one entry -/

theorem switchProcess_inv {c : Task} {id : Int} {now : Timespec} {p p' : Process} {x x' : SwitchVars} {n : Nat}
    (h : p.Inv n) (hok : switchProcess c id now p x = .ok (p', x')) :
    p'.Inv n ∧ x.kmem.next ≤ x'.kmem.next := by
  obtain ⟨q, y, hq, hcase⟩ := switchProcess_spec h.toWf c id now x
  rw [hok, Except.ok.injEq, Prod.mk.injEq] at hq
  obtain ⟨rfl, rfl⟩ := hq
  cases hcase with
  | notConverted hno => exact ⟨h, le_refl _⟩
  | self hc hid => exact ⟨h.modFiber (fun _ _ => rfl) fun _ _ => rfl, le_refl _⟩
  | absent hc hid hno => exact ⟨h, le_refl _⟩
  | busy hc hid hg hgid hsel => exact ⟨h.modFiber (fun _ _ => rfl) fun _ _ => rfl, le_refl _⟩
  | done hc hid hg hgid hsel =>
    exact ⟨h.exchanged hc (target_ne hc.fiber hg hid hgid) hg hsel, Nat.le_succ _⟩

theorem createProcess_inv {c : Task} {cpu : Cpu} {func parameters stackPointer stackSize : BitVec 64}
    {p p' : Process} {x x' : CreateVars} (h : p.Inv x.kmem.next)
    (hok : createProcess c cpu func parameters stackPointer stackSize p x = .ok (p', x')) :
    p'.Inv x'.kmem.next ∧ x.kmem.next ≤ x'.kmem.next := by
  obtain ⟨U, b, -, -, rfl, rfl, rfl⟩ := createProcess_ok hok
  refine ⟨h.addFree (le_refl _) ?_ rfl rfl, ?_⟩ <;> simp only <;> omega

theorem convertProcess_inv {c : Task} {cpu : Cpu} {now : Timespec} {p p' : Process} {x x' : ConvertVars}
    (h : p.Inv x.kmem.next) (hok : convertProcess c cpu now p x = .ok (p', x')) :
    p'.Inv x'.kmem.next ∧ x.kmem.next ≤ x'.kmem.next := by
  by_cases hkeep : x.flagControllo = true ∨ ∃ t ∈ p.listathread, t.val.id = c.pid
  · rw [convertProcess_keep hkeep, Except.ok.injEq, Prod.mk.injEq] at hok
    obtain ⟨rfl, rfl⟩ := hok
    exact ⟨h, le_refl _⟩
  · push Not at hkeep
    rw [convertProcess_new (by simpa using hkeep.1) hkeep.2] at hok
    obtain ⟨U, -, -, rfl, hkmem, -, -⟩ := convertThread_ok h.threadBound hok
    have hnext := congrArg Kmem.next hkmem
    simp only at hnext
    refine ⟨h.addBound (le_refl _) ?_ ?_ ?_ hkeep.2 rfl rfl, ?_⟩ <;> omega

theorem runnerProcess_inv {σ : Type} {body : Fiber → σ → Except Fault (Fiber × σ)} (hbody : KeepsBinding body)
    {c : Task} {p p' : Process} {x x' : σ} {n : Nat} (h : p.Inv n)
    (hok : forEachThread c.pid (runnerThread body) p x = .ok (p', x')) : p'.Inv n := by
  rcases h.carries_or c.pid with hno | ⟨thread, r, f, hc⟩
  · rw [runnerProcess_none hno, Except.ok.injEq, Prod.mk.injEq] at hok
    exact hok.1 ▸ h
  · rw [runnerProcess_eq h.toWf hc] at hok
    obtain ⟨⟨f', x₁⟩, hf, hok⟩ := bind_eq_ok.mp hok
    simp only [Except.ok.injEq, Prod.mk.injEq] at hok
    obtain ⟨rfl, -⟩ := hok
    obtain ⟨fls, bitmap, rfl⟩ := hbody _ _ _ _ hf
    refine h.modFiber (fun g hg => ?_) fun g hg => ?_
    · obtain rfl : f = g := Option.some.inj (hc.fiber.symm.trans hg)
      rfl
    · obtain rfl : f = g := Option.some.inj (hc.fiber.symm.trans hg)
      rfl

end LinuxFibers
