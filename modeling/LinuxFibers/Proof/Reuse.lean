import LinuxFibers.Proof.Context
import LinuxFibers.Proof.Storage

/-!
# Slots that are used again

Which indices of a fiber are handed out, what was last stored at them and which of them were never set since
their allocation is read off the events of a run. `fresh_zero` says that a slot reads as zero until it is set
in every run whose allocations find a zero there; no operation of the driver makes sure of that.
-/

namespace LinuxFibers

open HeapTable Runs

/-! ### What the events say -/

/-- The operation an event performs on the storage of a fiber. -/
def Event.flsOn (e : Event) (tr : List Event) (tgid id : Int) : Option FlsOp :=
  if e.op.caller.tgid = tgid ∧ lastFiber tr e.op.caller = some id then e.op.flsOp else none

/-- The index was handed out and not freed since. -/
def allocated : List Event → Int → Int → Int → Bool
  | [], _, _, _ => false
  | e :: tr, tgid, id, i =>
    match e.flsOn tr tgid id with
    | some .alloc => e.out = some i || allocated tr tgid id i
    | some (.free j) => j ≠ i && allocated tr tgid id i
    | _ => allocated tr tgid id i

/-- The value last stored at the index, whoever it was handed out to then. -/
def storedValue : List Event → Int → Int → Int → Int
  | [], _, _, _ => 0
  | e :: tr, tgid, id, i =>
    match e.flsOn tr tgid id with
    | some (.setValue j v) => if j = i ∧ allocated tr tgid id i = true then v else storedValue tr tgid id i
    | _ => storedValue tr tgid id i

/-- The index was handed out, and nobody asked to store at it since. -/
def fresh : List Event → Int → Int → Int → Bool
  | [], _, _, _ => false
  | e :: tr, tgid, id, i =>
    match e.flsOn tr tgid id with
    | some .alloc => e.out = some i || fresh tr tgid id i
    | some (.setValue j _) => j ≠ i && fresh tr tgid id i
    | _ => fresh tr tgid id i

/-- Between its allocation and the next `flsSetValue` every index reads as 0. -/
def FreshZero : List Event → Prop
  | [] => True
  | e :: tr => FreshZero tr ∧ ∀ tgid id i, e.flsOn tr tgid id = some (.getValue i) → fresh tr tgid id i = true →
      e.out = some 0

/-- Every allocation finds a zero at the least index that is free, and no index is read after it was freed
without being set. -/
def SlotsClean : List Event → Prop
  | [] => True
  | e :: tr => SlotsClean tr ∧
    (∀ tgid id, e.flsOn tr tgid id = some .alloc → ∀ i : Fin flsSize, allocated tr tgid id i = false →
      (∀ j < i, allocated tr tgid id j = true) → storedValue tr tgid id i = 0) ∧
    ∀ tgid id i, e.flsOn tr tgid id = some (.getValue i) → fresh tr tgid id i = true → allocated tr tgid id i = true

/-! ### The storages and their past -/

/-- The storages agree with their past. -/
structure Storages.Tells (a : Storages) (tr : List Event) : Prop where
  current : ∀ tgid pid, a.current tgid pid = lastFiber tr ⟨tgid, pid⟩
  live : ∀ tgid id (i : Fin flsSize), i ∈ (a.pair tgid id).live ↔ allocated tr tgid id i = true
  value : ∀ tgid id (i : Fin flsSize), (a.pair tgid id).value i = storedValue tr tgid id i

section cons

variable {e : Event} {tr : List Event} {c : Task} {tgid id i : Int}

theorem lastFiber_moved : lastFiber (e :: tr) c =
    e.moved.elim (lastFiber tr c) fun id => if e.op.caller = c then some id else lastFiber tr c := by
  obtain ⟨op, cpu, out⟩ := e
  cases op with
  | fibConvert d now =>
    cases out with
    | none => rfl
    | some id =>
      by_cases hid : id = -1
      · simp [lastFiber, Event.moved, hid]
      · by_cases hc : d = c <;> simp [lastFiber, Event.moved, hid, hc, Op.caller]
  | fibSwitchTo d id now =>
    by_cases hout : out = some 0
    · subst hout
      rfl
    · have hmoved : Event.moved ⟨.fibSwitchTo d id now, cpu, out⟩ = none := by
        unfold Event.moved
        split <;> simp_all
      rw [hmoved, lastFiber]
      split <;> simp_all
  | fibOpen | fibRelease | fibCreate | flsAlloc | flsFree | flsGetValue | flsSetValue | user => rfl

theorem lastFiber_fls {o : FlsOp} (h : e.op.flsOp = some o) : lastFiber (e :: tr) c = lastFiber tr c := by
  obtain ⟨op, cpu, out⟩ := e
  cases op <;> first | rfl | cases h

theorem allocated_none (h : e.flsOn tr tgid id = none) : allocated (e :: tr) tgid id i = allocated tr tgid id i := by
  rw [allocated, h]

theorem storedValue_none (h : e.flsOn tr tgid id = none) :
    storedValue (e :: tr) tgid id i = storedValue tr tgid id i := by
  rw [storedValue, h]

end cons

namespace Storages

variable {a a' : Storages} {tr : List Event} {e : Event}

theorem store_pair {tgid id t k : Int} {F : Fls} :
    (a.store tgid id F).pair t k = if t = tgid ∧ k = id then F else a.pair t k := by
  by_cases ht : t = tgid
  · subst ht
    by_cases hk : k = id
    · simp [store, hk]
    · simp [store, hk]
  · simp [store, ht]

theorem move_current {c : Task} {id tgid pid : Int} :
    (a.move c id).current tgid pid = if c = ⟨tgid, pid⟩ then some id else a.current tgid pid := by
  by_cases ht : tgid = c.tgid
  · subst ht
    by_cases hp : pid = c.pid
    · simp [move, hp]
    · have hne : c ≠ ⟨c.tgid, pid⟩ := fun he => hp (congrArg Task.pid he).symm
      simp [move, hp, hne]
  · have hne : c ≠ ⟨tgid, pid⟩ := fun he => ht (congrArg Task.tgid he).symm
    simp [move, ht, hne]

/-- An event that performs no operation on any storage. -/
theorem Tells.idle (h : a.Tells tr) (hnone : ∀ tgid id, e.flsOn tr tgid id = none)
    (hcurrent : ∀ tgid pid, a'.current tgid pid = lastFiber (e :: tr) ⟨tgid, pid⟩) (hpair : a'.pair = a.pair) :
    a'.Tells (e :: tr) where
  current := hcurrent
  live tgid id i := by rw [hpair, allocated_none (hnone tgid id), h.live]
  value tgid id i := by rw [hpair, storedValue_none (hnone tgid id), h.value]

/-- An operation on one storage and the past of that storage. -/
theorem Tells.fls (h : a.Tells tr) {o : FlsOp} {tgid id : Int} {F : Fls}
    (hon : e.flsOn tr tgid id = some o) (hstep : Fls.Step o (a.pair tgid id) e.out F) (i : Fin flsSize) :
    (i ∈ F.live ↔ allocated (e :: tr) tgid id i = true) ∧ F.value i = storedValue (e :: tr) tgid id i := by
  have hlive := h.live tgid id i
  have hvalue := h.value tgid id i
  rw [allocated, storedValue, hon]
  generalize hout : e.out = out at hstep
  cases hstep with
  | @alloc _ j hj hleast =>
    refine ⟨?_, hvalue⟩
    simp only [SlotStorage.Slots.mem_take, hlive, Bool.or_eq_true, decide_eq_true_eq, Option.some.injEq]
    rw [eq_comm, Int.natCast_inj, Fin.val_inj]
  | @free _ j hj =>
    refine ⟨?_, hvalue⟩
    simp only [SlotStorage.Slots.mem_drop, hlive, Bool.and_eq_true, decide_eq_true_eq, ne_eq, Int.natCast_inj, Fin.val_inj]
    rw [eq_comm (a := i)]
  | @freeDead _ j hj =>
    refine ⟨?_, hvalue⟩
    simp only [hlive, Bool.and_eq_true, decide_eq_true_eq, ne_eq, Int.natCast_inj, Fin.val_inj]
    refine ⟨fun hi => ⟨fun he => hj (he ▸ hlive.mpr hi), hi⟩, fun hi => hi.2⟩
  | getValue | getValueDead => exact ⟨hlive, hvalue⟩
  | @setValue _ j v hj =>
    refine ⟨hlive, ?_⟩
    simp only [Int.natCast_inj, Fin.val_inj]
    by_cases hi : j = i
    · subst hi
      simp [hlive.mp hj]
    · simp [hi, Ne.symm hi, hvalue]
  | @setValueDead _ j v hj =>
    refine ⟨hlive, ?_⟩
    simp only [Int.natCast_inj, Fin.val_inj]
    rw [if_neg]
    · exact hvalue
    · rintro ⟨rfl, hi⟩
      exact hj (hlive.mpr hi)

/-- Every step of the storages keeps them in agreement with their past. -/
theorem Tells.step (h : a.Tells tr) (hstep : Step a e a') : a'.Tells (e :: tr) := by
  have hidle : e.op.flsOp = none → ∀ tgid id, e.flsOn tr tgid id = none := by
    intro hop tgid id
    rw [Event.flsOn, hop, ite_self]
  cases hstep with
  | other hop hmoved =>
    refine h.idle (hidle hop) (fun tgid pid => ?_) rfl
    rw [lastFiber_moved, hmoved, Option.elim_none, h.current]
  | moved hop hmoved =>
    refine h.idle (hidle hop) (fun tgid pid => ?_) rfl
    rw [lastFiber_moved, hmoved, Option.elim_some, move_current, h.current]
  | @fls o id F hop hcur hfls =>
    have hlast : lastFiber tr e.op.caller = some id := (h.current _ _).symm.trans hcur
    have hon : e.flsOn tr e.op.caller.tgid id = some o := by
      rw [Event.flsOn, if_pos ⟨rfl, hlast⟩, hop]
    have hother : ∀ t k, ¬ (t = e.op.caller.tgid ∧ k = id) → e.flsOn tr t k = none := by
      intro t k hne
      rw [Event.flsOn, if_neg]
      rintro ⟨ht, hk⟩
      rw [hlast, Option.some.injEq] at hk
      exact hne ⟨ht.symm, hk.symm⟩
    refine ⟨fun t pid => ?_, fun t k i => ?_, fun t k i => ?_⟩
    · rw [lastFiber_fls hop]
      exact h.current t pid
    · rw [store_pair]
      split_ifs with hk
      · obtain ⟨rfl, rfl⟩ := hk
        exact (h.fls hon hfls i).1
      · rw [allocated_none (hother t k hk), h.live]
    · rw [store_pair]
      split_ifs with hk
      · obtain ⟨rfl, rfl⟩ := hk
        exact (h.fls hon hfls i).2
      · rw [storedValue_none (hother t k hk), h.value]
  | @flsRefused o hop hcur hout =>
    have hlast : lastFiber tr e.op.caller = none := (h.current _ _).symm.trans hcur
    refine h.idle (fun tgid id => ?_) (fun tgid pid => ?_) rfl
    · rw [Event.flsOn, if_neg]
      rw [hlast]
      rintro ⟨-, hid⟩
      cases hid
    · rw [lastFiber_fls hop, h.current]

/-- Every run of the storages agrees with its past. -/
theorem Tells.run (hrun : Run Init Step a tr) : a.Tells tr := by
  refine hrun.invariant (P := Tells) (fun a hinit => ?_) fun a tr e a' _ h hstep => h.step hstep
  refine ⟨hinit.1, fun tgid id i => ?_, fun tgid id i => ?_⟩
  · rw [hinit.2]
    simp [allocated]
  · rw [hinit.2]
    rfl

/-! ### Reading a slot that was never set -/

/-- A slot that nobody stored at since its allocation holds what it held then. -/
structure Zero (tr : List Event) : Prop where
  stored : ∀ tgid id i, fresh tr tgid id i = true → storedValue tr tgid id i = 0
  reads : FreshZero tr

/-- What is performed on a storage is a step of it. -/
theorem Tells.flsStep (h : a.Tells tr) (hstep : Step a e a') {tgid id : Int} {o : FlsOp}
    (hon : e.flsOn tr tgid id = some o) : ∃ F, Fls.Step o (a.pair tgid id) e.out F := by
  unfold Event.flsOn at hon
  split_ifs at hon with hcaller
  obtain ⟨rfl, hlast⟩ := hcaller
  cases hstep with
  | other hop | moved hop =>
    rw [hop] at hon
    cases hon
  | fls hop hcur hfls =>
    rw [hop, Option.some.injEq] at hon
    rw [h.current] at hcur
    obtain rfl := Option.some.inj (hlast.symm.trans hcur)
    exact ⟨_, hon ▸ hfls⟩
  | flsRefused hop hcur =>
    rw [h.current] at hcur
    cases hlast.symm.trans hcur

theorem Tells.zero (h : a.Tells tr) (hzero : Zero tr) (hclean : SlotsClean (e :: tr)) (hstep : Step a e a') :
    Zero (e :: tr) := by
  refine ⟨fun tgid id i hfresh => ?_, hzero.reads, fun tgid id i hon hfresh => ?_⟩
  · rw [fresh] at hfresh
    rw [storedValue]
    cases hon : e.flsOn tr tgid id with
    | none => exact hzero.stored tgid id i (by simpa only [hon] using hfresh)
    | some o =>
      cases o with
      | alloc =>
        simp only [hon, Bool.or_eq_true, decide_eq_true_eq] at hfresh
        rcases hfresh with hout | hfresh
        · -- the index just handed out
          obtain ⟨F, hfls⟩ := h.flsStep hstep hon
          rw [hout] at hfls
          cases hfls with
          | @alloc _ j hj hleast =>
            refine hclean.2.1 tgid id hon j ?_ fun k hk => (h.live tgid id k).mp (hleast k hk)
            rw [h.live, Bool.not_eq_true] at hj
            exact hj
        · exact hzero.stored tgid id i hfresh
      | setValue j v =>
        simp only [hon, Bool.and_eq_true, decide_eq_true_eq] at hfresh
        simp only [hfresh.1, false_and, if_false]
        exact hzero.stored tgid id i hfresh.2
      | free | getValue => exact hzero.stored tgid id i (by simpa only [hon] using hfresh)
  · obtain ⟨F, hfls⟩ := h.flsStep hstep hon
    have halloc := hclean.2.2 tgid id i hon hfresh
    have hstored := hzero.stored tgid id i hfresh
    generalize hout : e.out = out at hfls
    cases hfls with
    | getValue hi => rw [h.value, hstored]
    | getValueDead hi => exact absurd ((h.live tgid id _).mpr halloc) hi

end Storages

/-- **A new slot carries nothing** from an earlier owner in every run in which each process opens the device once,
every allocation finds a zero at the index it hands out, and no index is read after it was freed unset. -/
theorem fresh_zero {nFib : Nat} {s : State} {tr : List Event} (hrun : Run Init (Step nFib) s tr)
    (honce : OpensOnce tr) (hclean : SlotsClean tr) : FreshZero tr := by
  have hzero : SlotsClean tr → Storages.Zero tr := by
    refine (storages_refine hrun honce).1.invariant (P := fun _ tr => SlotsClean tr → Storages.Zero tr)
      (fun a _ _ => ?_) fun a tr e a' hr hzero hstep hclean => ?_
    · exact ⟨fun _ _ _ hfresh => (by cases hfresh), trivial⟩
    · exact (Storages.Tells.run hr).zero (hzero hclean.1) hclean hstep
  exact (hzero hclean).reads

theorem Fls.Step.getValue_live {F F' : Fls} {i : Fin flsSize} {out : Option Int}
    (h : Fls.Step (.getValue i) F out F') (hi : i ∈ F.live) : out = some (F.value i) := by
  generalize hk : (i : Int) = k at h
  cases h with
  | @getValue _ j hj =>
    rw [Int.natCast_inj, Fin.val_inj] at hk
    rw [hk]
  | @getValueDead _ j hj =>
    rw [Int.natCast_inj, Fin.val_inj] at hk
    exact absurd (hk ▸ hi) hj

/-- An allocation that finds another value is followed by a read of it, if the caller reads next. -/
theorem stale_read {nFib : Nat} {s : State} {e : Event} {tr : List Event} (hrun : Run Init (Step nFib) s (e :: tr))
    (honce : OpensOnce (e :: tr)) {tgid id : Int} {i : Fin flsSize} (hon : e.flsOn tr tgid id = some .alloc)
    (hout : e.out = some (i : Int)) (hstale : storedValue tr tgid id i ≠ 0) :
    ∃ s' v, step nFib (.flsGetValue e.op.caller i) s = .ok (s', some v) ∧ v ≠ 0 := by
  have hin : InRange (i : Int) := ⟨by omega, by omega⟩
  obtain ⟨s', out, hok⟩ := (storages_refine hrun honce).2 (.flsGetValue e.op.caller i) hin
  have hrun' := hrun.step (e := ⟨.flsGetValue e.op.caller i, s.cpu e.op.caller, out⟩) ⟨hok, rfl⟩
  have honce' : OpensOnce (⟨.flsGetValue e.op.caller i, s.cpu e.op.caller, out⟩ :: e :: tr) := by
    refine ⟨honce.openers, fun d hd c hop => ?_⟩
    rcases List.mem_cons.mp hd with rfl | hd
    · cases hop
    · exact honce.kept d hd c hop
  have hstorages := (storages_refine hrun' honce').1
  generalize s'.storages = a' at hstorages
  cases hstorages with
  | @step a _ _ _ hr hstep =>
    have htell := Storages.Tells.run hr
    have hcaller : e.op.caller.tgid = tgid ∧ lastFiber tr e.op.caller = some id := by
      unfold Event.flsOn at hon
      split_ifs at hon with hcaller
      exact hcaller
    have hop : e.op.flsOp = some .alloc := by
      rw [← hon, Event.flsOn, if_pos hcaller]
    have hget : Event.flsOn ⟨.flsGetValue e.op.caller i, s.cpu e.op.caller, out⟩ (e :: tr) tgid id =
        some (.getValue i) := by
      have hlast : lastFiber (e :: tr) e.op.caller = some id := (lastFiber_fls hop).trans hcaller.2
      exact if_pos ⟨hcaller.1, hlast⟩
    obtain ⟨F, hfls⟩ := htell.flsStep hstep hget
    have hlive : i ∈ (a.pair tgid id).live := by
      rw [htell.live, allocated, hon]
      simp [hout]
    have hvalue : (a.pair tgid id).value i = storedValue tr tgid id i := by
      rw [htell.value, storedValue, hon]
    have hresult : out = some (storedValue tr tgid id i) := hvalue ▸ hfls.getValue_live hlive
    exact ⟨s', _, hresult ▸ hok, hstale⟩

/-- While nothing is freed, a fiber hands out slots it never used. -/
theorem slotsClean_of_kept {tr : List Event} (hkept : ∀ e ∈ tr, ∀ c i, e.op ≠ .flsFree c i) : SlotsClean tr := by
  have hfree : ∀ e ∈ tr, ∀ tr' tgid id j, e.flsOn tr' tgid id ≠ some (.free j) := by
    intro e he tr' tgid id j hon
    unfold Event.flsOn at hon
    split_ifs at hon
    have hop := hkept e he
    cases hcase : e.op <;> simp_all [Op.flsOp]
  clear hkept
  suffices hall : SlotsClean tr ∧ ∀ tgid id i, (fresh tr tgid id i = true → allocated tr tgid id i = true) ∧
      (storedValue tr tgid id i ≠ 0 → allocated tr tgid id i = true) from hall.1
  induction tr with
  | nil => exact ⟨trivial, fun _ _ _ => ⟨fun h => (by cases h), fun h => absurd rfl h⟩⟩
  | cons e tr ih =>
    obtain ⟨hclean, hused⟩ := ih fun d hd => hfree d (List.mem_cons_of_mem _ hd)
    refine ⟨⟨hclean, fun tgid id _ i hdead _ => ?_, fun tgid id i _ hfresh => (hused tgid id i).1 hfresh⟩,
      fun tgid id i => ?_⟩
    · by_contra hstored
      rw [(hused tgid id i).2 hstored] at hdead
      cases hdead
    · obtain ⟨hfresh, hstored⟩ := hused tgid id i
      have hno := hfree e List.mem_cons_self tr tgid id
      rw [fresh, allocated, storedValue]
      cases hon : e.flsOn tr tgid id with
      | none => exact ⟨hfresh, hstored⟩
      | some o =>
        cases o with
        | alloc => grind
        | free j => exact absurd hon (hno j)
        | getValue j => exact ⟨hfresh, hstored⟩
        | setValue j v => grind

/-- A thread that allocates a slot, reads it, stores 42 and reads it again. -/
theorem fresh_zero_first : ∃ s tr, Run Init (Step nFib) s tr ∧
    tr.map Event.out = [some 42, none, some 0, some 0, some 1, some 0] ∧ FreshZero tr := by
  obtain ⟨s, tr, hrun, hops, hview⟩ := exists_run nFib
    [.fibOpen ⟨1, 1⟩, .fibConvert ⟨1, 1⟩ ⟨0, 5⟩, .flsAlloc ⟨1, 1⟩, .flsGetValue ⟨1, 1⟩ 0, .flsSetValue ⟨1, 1⟩ 0 42,
      .flsGetValue ⟨1, 1⟩ 0]
    (fun r => r.2.map Event.out) (v := [some 42, none, some 0, some 0, some 1, some 0]) (by decide +kernel)
  have honce : OpensOnce tr := opensOnce_of_ops hops (by decide) (by simp)
  have hkept : ∀ e ∈ tr, ∀ c i, e.op ≠ .flsFree c i := by
    intro e he c i hop
    have hmem : e.op ∈ tr.map Event.op := List.mem_map_of_mem he
    rw [hops, hop] at hmem
    simp at hmem
  exact ⟨s, tr, hrun, hview, fresh_zero hrun honce (slotsClean_of_kept hkept)⟩

/-- A slot that was freed with 42 in it is handed out again and read. -/
theorem stale_value : ∃ s e tr, Run Init (Step nFib) s (e :: tr) ∧ OpensOnce (e :: tr) ∧
    e.op = .flsGetValue ⟨1, 1⟩ 0 ∧ lastFiber tr ⟨1, 1⟩ = some 1 ∧ fresh tr 1 1 0 = true ∧
    allocated tr 1 1 0 = true ∧ e.out = some 42 := by
  obtain ⟨s, tr, hrun, hops, hview⟩ := exists_run nFib
    [.fibOpen ⟨1, 1⟩, .fibConvert ⟨1, 1⟩ ⟨0, 5⟩, .flsAlloc ⟨1, 1⟩, .flsSetValue ⟨1, 1⟩ 0 42, .flsFree ⟨1, 1⟩ 0,
      .flsAlloc ⟨1, 1⟩, .flsGetValue ⟨1, 1⟩ 0]
    (fun r => (r.2.map Event.out, lastFiber r.2.tail ⟨1, 1⟩, fresh r.2.tail 1 1 0, allocated r.2.tail 1 1 0))
    (v := ([some 42, some 0, some 1, none, some 0, some 1, some 0], some 1, true, true)) (by decide +kernel)
  have honce : OpensOnce tr := opensOnce_of_ops hops (by decide) (by simp)
  obtain ⟨e, tr, rfl, hop, -⟩ := List.map_eq_cons_iff.mp hops
  simp only [Prod.mk.injEq, List.map_cons, List.cons.injEq, List.tail_cons] at hview
  exact ⟨s, e, tr, hrun, honce, hop, hview.2.1, hview.2.2.1, hview.2.2.2, hview.1.1⟩

end LinuxFibers
