import LinuxFibers.Base.Log
import LinuxFibers.Conc.Creation

/-!
# Creations that keep apart

Two calls that update `last_fib_id` or a directory at the same time may take one id or one entry
(`create_same_id`). `CreatePc.conflicts` names the steps at which this begins. In a run without them the calls take
consecutive ids and entries: three logs, `taken` (ids, in the order of the stores of `last_fib_id`), `entered`
(directory entries) and `added` (fibers), each with the same items for every thread.
-/

namespace LinuxFibers

open HeapTable Runs ThreadLog

/-- The value loaded for `last_fib_id += 1`. -/
def CreatePc.loaded : CreatePc → Option Int
  | .storeLast _ _ last => some last
  | _ => none

/-- The directory entry being written. -/
def CreatePc.slot : CreatePc → Option Nat
  | .storeEntry _ _ _ i | .storeLen _ _ _ i => some i
  | _ => none

/-- The next step of the first call is a load or a store that must not fall into the second call's update. -/
def CreatePc.conflicts : CreatePc → CreatePc → Bool
  | .loadLast _ _, pc => pc.loaded.isSome
  | .storeLast _ _ _, .loadId _ _ => true
  | .loadLen _ _ _, pc => pc.slot.isSome
  | _, _ => false

/-- The next step of the thread conflicts with where another one is. -/
def Creation.Overlaps (cf : Creation) (t : Int) : Prop := ∃ u, u ≠ t ∧ (cf.pc t).conflicts (cf.pc u) = true

/-- The ids among the values returned. -/
def idsOf (rets : List Int) : List Int := rets.filter (0 < ·)

theorem idsOf_snoc {id : Int} (hid : 0 < id) (rets : List Int) : idsOf (rets ++ [id]) = idsOf rets ++ [id] := by
  simp [idsOf, hid]

theorem idsOf_refused (rets : List Int) : idsOf (rets ++ [-1]) = idsOf rets := by
  simp [idsOf]

/-- At most one thread is where `f` has a value. -/
def AtMostOne {α : Type} (f : CreatePc → Option α) (cf : Creation) : Prop :=
  ∀ t u, f (cf.pc t) ≠ none → f (cf.pc u) ≠ none → t = u

theorem AtMostOne.others {α : Type} {f : CreatePc → Option α} {cf : Creation} (h : AtMostOne f cf) {t : Int}
    (ht : f (cf.pc t) ≠ none) {u : Int} (hu : u ≠ t) : f (cf.pc u) = none := by
  by_contra hne
  exact hu (h u t hne ht)

/-- One thread moves, to where `f` has a value only if no other is there. -/
theorem AtMostOne.move {α : Type} {f : CreatePc → Option α} {cf cf' : Creation} (h : AtMostOne f cf) {t : Int}
    (hpc : ∀ u, u ≠ t → cf'.pc u = cf.pc u)
    (ht : f (cf'.pc t) ≠ none → ∀ u, u ≠ t → f (cf.pc u) = none) : AtMostOne f cf' := by
  have hone : ∀ u, u ≠ t → f (cf'.pc t) ≠ none → f (cf'.pc u) = none := by
    intro u hu hsome
    rw [hpc u hu]
    exact ht hsome u hu
  intro u v hu hv
  by_cases hut : u = t
  · subst hut
    by_contra hne
    exact hv (hone v (Ne.symm hne) hu)
  · by_cases hvt : v = t
    · subst hvt
      exact absurd (hone u hut hv) hu
    · rw [hpc u hut] at hu
      rw [hpc v hvt] at hv
      exact h u v hu hv

/-! ### Ids -/

/-- The id that a call has counted and not returned yet, where `last` is `last_fib_id`. -/
def CreatePc.taken (last : Int) : CreatePc → List Int
  | .loadId _ _ => [last]
  | .loadLen _ b _ | .storeEntry _ b _ _ | .storeLen _ b _ _ | .publish _ b => [b.val.id]
  | _ => []

/-- The ids are handed out one after another from `last₀` on. -/
structure Ids (last₀ : Int) (cf : Creation) (taken : List (Int × Int)) : Prop where
  last : cf.proc.lastFibId = last₀ + taken.length
  values : taken.map Prod.snd = (List.range taken.length).map fun j : Nat => last₀ + 1 + j
  byThread : ∀ t, ofThread t taken = idsOf (cf.rets t) ++ (cf.pc t).taken cf.proc.lastFibId
  loaded : ∀ t x, (cf.pc t).loaded = some x → x = cf.proc.lastFibId
  one : AtMostOne CreatePc.loaded cf

namespace Ids

variable {last₀ : Int} {cf cf' : Creation} {taken : List (Int × Int)} {t : Int}

/-- Every id taken is above those there were. -/
theorem lt_of_mem (h : Ids last₀ cf taken) {id : Int} (hid : id ∈ ofThread t taken) : last₀ < id := by
  have hmem : id ∈ taken.map Prod.snd := List.mem_map.mpr ⟨(t, id), mem_ofThread.mp hid, rfl⟩
  rw [h.values] at hmem
  obtain ⟨j, -, rfl⟩ := List.mem_map.mp hmem
  omega

theorem nodup (h : Ids last₀ cf taken) : (taken.map Prod.snd).Nodup := by
  rw [h.values]
  apply List.Nodup.map _ List.nodup_range
  intro i j hij
  simp only at hij
  omega

/-- A step that takes no id. -/
theorem keep (h : Ids last₀ cf taken) (hlast : cf'.proc.lastFibId = cf.proc.lastFibId)
    (hothers : ∀ u, u ≠ t → cf'.pc u = cf.pc u ∧ cf'.todo u = cf.todo u ∧ cf'.rets u = cf.rets u)
    (hids : idsOf (cf'.rets t) ++ (cf'.pc t).taken cf.proc.lastFibId =
      idsOf (cf.rets t) ++ (cf.pc t).taken cf.proc.lastFibId)
    (hloaded : ∀ x, (cf'.pc t).loaded = some x → x = cf.proc.lastFibId ∧
      ∀ u, u ≠ t → (cf.pc u).loaded = none) : Ids last₀ cf' taken := by
  have hpc : ∀ u, u ≠ t → cf'.pc u = cf.pc u := fun u hu => (hothers u hu).1
  have hone : AtMostOne CreatePc.loaded cf' := by
    refine h.one.move hpc fun hsome => ?_
    obtain ⟨x, hx⟩ := Option.ne_none_iff_exists'.mp hsome
    exact (hloaded x hx).2
  refine ⟨by rw [hlast, h.last], h.values, fun u => ?_, fun u x hx => ?_, hone⟩
  · rw [h.byThread, hlast]
    by_cases hu : u = t
    · rw [hu, hids]
    · rw [hpc u hu, (hothers u hu).2.2]
  · rw [hlast]
    by_cases hu : u = t
    · rw [hu] at hx
      exact (hloaded x hx).1
    · rw [hpc u hu] at hx
      exact h.loaded u x hx

/-- The store of `last_fib_id`, while no other call has still to read its id back. -/
theorem storedLast (h : Ids last₀ cf taken) {k : Caller} {b : Block Fiber} {last : Int}
    (hpc : cf.pc t = .storeLast k b last) (hfree : ¬ cf.Overlaps t) :
    Ids last₀ ((cf.setProc { cf.proc with lastFibId := last + 1 }).goto t (.loadId k b))
      (taken ++ [(t, last + 1)]) := by
  obtain rfl : last = cf.proc.lastFibId := h.loaded t last (by rw [hpc]; rfl)
  have hothers : ∀ u, u ≠ t → (cf.pc u).loaded = none := by
    intro u hu
    apply h.one.others (t := t) _ hu
    rw [hpc]
    exact Option.some_ne_none _
  have hback : ∀ u, u ≠ t → ∀ x, (cf.pc u).taken x = (cf.pc u).taken cf.proc.lastFibId := by
    intro u hu x
    cases hpcu : cf.pc u with
    | loadId k' b' =>
      refine absurd ⟨u, hu, ?_⟩ hfree
      rw [hpc, hpcu]
      rfl
    | _ => rfl
  have hpc' : ∀ u, ((cf.setProc { cf.proc with lastFibId := cf.proc.lastFibId + 1 }).goto t (.loadId k b)).pc u =
      Function.update cf.pc t (.loadId k b) u := fun _ => rfl
  refine ⟨?_, ?_, fun u => ?_, fun u x hx => ?_, ?_⟩
  · show cf.proc.lastFibId + 1 = _
    rw [h.last, List.length_append, List.length_singleton]
    omega
  · rw [List.map_append, h.values, List.length_append, List.length_singleton, List.range_succ, List.map_append]
    congr 1
    rw [List.map_singleton, List.map_singleton, h.last]
    congr 1
    omega
  · rw [hpc']
    by_cases hu : u = t
    · rw [hu, ofThread_snoc_self, h.byThread, hpc, Function.update_self]
      show idsOf (cf.rets t) ++ [] ++ [_] = _
      rw [List.append_nil]
      rfl
    · rw [ofThread_snoc_ne hu, h.byThread, Function.update_of_ne hu]
      exact congrArg _ (hback u hu _).symm
  · rw [hpc'] at hx
    by_cases hu : u = t
    · rw [hu, Function.update_self] at hx
      cases hx
    · rw [Function.update_of_ne hu, hothers u hu] at hx
      cases hx
  · exact h.one.move (fun u hu => Function.update_of_ne hu _ _) fun _ => hothers

/-- The id of a call that is about to return is above those there were. -/
theorem lt_of_publish (h : Ids last₀ cf taken) {k : Caller} {b : Block Fiber} (hpc : cf.pc t = .publish k b) :
    last₀ < b.val.id := by
  apply h.lt_of_mem (t := t)
  rw [h.byThread, hpc]
  exact List.mem_append_right _ (List.mem_singleton_self _)

theorem step (h : Ids last₀ cf taken) (h₀ : 0 ≤ last₀) (ht : cf.Taken t cf') (hfree : ¬ cf.Overlaps t) :
    ∃ taken', Ids last₀ cf' taken' := by
  have hothers := fun u (hu : u ≠ t) => ht.others hu
  cases ht with
  | created hpc htodo =>
    refine ⟨taken, h.keep rfl hothers ?_ ?_⟩
    · simp [Creation.goto, Creation.setTodo, Creation.setKmem, hpc, CreatePc.taken]
    · simp [Creation.goto, CreatePc.loaded]
  | converted hpc htodo hno =>
    refine ⟨taken, h.keep rfl hothers ?_ ?_⟩
    · simp [Creation.goto, Creation.setTodo, Creation.setProc, Creation.setKmem, hpc, CreatePc.taken]
    · simp [Creation.goto, CreatePc.loaded]
  | refused hpc htodo hyes =>
    refine ⟨taken, h.keep rfl hothers ?_ ?_⟩
    · simp [Creation.setTodo, Creation.returns, idsOf_refused]
    · simp [Creation.setTodo, Creation.returns, hpc, CreatePc.loaded]
  | @loadedLast k b hpc =>
    refine ⟨taken, h.keep rfl hothers ?_ fun x hx => ?_⟩
    · simp [Creation.goto, hpc, CreatePc.taken]
    · simp only [Creation.goto, Function.update_self] at hx
      refine ⟨(Option.some.inj hx).symm, fun u hu => ?_⟩
      by_contra hne
      refine hfree ⟨u, hu, ?_⟩
      rw [hpc]
      exact Option.isSome_iff_ne_none.mpr hne
  | storedLast hpc => exact ⟨_, h.storedLast hpc hfree⟩
  | loadedId hpc hid =>
    refine ⟨taken, h.keep rfl hothers ?_ ?_⟩
    · simp [Creation.goto, Creation.setKmem, hpc, CreatePc.taken, hid]
    · simp [Creation.goto, CreatePc.loaded]
  | loadedLen hpc hstuff =>
    refine ⟨taken, h.keep rfl hothers ?_ ?_⟩
    · simp [Creation.goto, hpc, CreatePc.taken]
    · simp [Creation.goto, CreatePc.loaded]
  | storedEntry hpc hstuff hi =>
    refine ⟨taken, h.keep rfl hothers ?_ ?_⟩
    · simp [Creation.goto, Creation.modStuff, hpc, CreatePc.taken]
    · simp [Creation.goto, CreatePc.loaded]
  | storedLen hpc =>
    refine ⟨taken, h.keep rfl hothers ?_ ?_⟩
    · simp [Creation.goto, Creation.modStuff, hpc, CreatePc.taken]
    · simp [Creation.goto, CreatePc.loaded]
  | @published k b hpc =>
    have hpos : 0 < b.val.id := by
      have := h.lt_of_publish hpc
      omega
    refine ⟨taken, h.keep publishFiber_lastFibId hothers ?_ ?_⟩
    · simp [Creation.goto, Creation.setProc, Creation.setKmem, Creation.returns, hpc, CreatePc.taken,
        idsOf_snoc hpos]
    · simp [Creation.goto, Creation.returns, CreatePc.loaded]

end Ids

/-! ### Directory entries -/

/-- The id of a call whose entry is counted, and that has not returned yet. -/
def CreatePc.entered : CreatePc → List Int
  | .publish _ b => [b.val.id]
  | _ => []

/-- The directory `stuff` has the entries of `stuff₀` and after them those of the log, one each. -/
structure Entered (stuff₀ : FiberStuff) (cf : Creation) (stuff : FiberStuff)
    (entered : List (Int × Int × Nat)) : Prop where
  here : cf.stuff = some stuff
  len : stuff.lenFiberStuff = stuff₀.lenFiberStuff + entered.length
  slots : stuff.fiberBaseStuff.val.take stuff.lenFiberStuff =
    stuff₀.fiberBaseStuff.val.take stuff₀.lenFiberStuff ++ entered.map fun x => fibersEntryLog x.2.2 x.2.1
  byThread : ∀ t, (ofThread t entered).map Prod.fst = idsOf (cf.rets t) ++ (cf.pc t).entered
  slot : ∀ t i, (cf.pc t).slot = some i → i = stuff.lenFiberStuff
  written : ∀ t k b name i, cf.pc t = .storeLen k b name i →
    stuff.fiberBaseStuff.val[i]? = some (fibersEntryLog name b.val.id)
  one : AtMostOne CreatePc.slot cf

namespace Entered

variable {stuff₀ stuff : FiberStuff} {cf cf' : Creation} {entered : List (Int × Int × Nat)} {t : Int}

/-- A step that stores nothing in the directory. -/
theorem keep (h : Entered stuff₀ cf stuff entered) (hstuff : cf'.stuff = cf.stuff)
    (hothers : ∀ u, u ≠ t → cf'.pc u = cf.pc u ∧ cf'.todo u = cf.todo u ∧ cf'.rets u = cf.rets u)
    (hids : idsOf (cf'.rets t) ++ (cf'.pc t).entered = idsOf (cf.rets t) ++ (cf.pc t).entered)
    (hslot : ∀ i, (cf'.pc t).slot = some i → i = stuff.lenFiberStuff ∧ ∀ u, u ≠ t → (cf.pc u).slot = none)
    (hwritten : ∀ k b name i, cf'.pc t ≠ .storeLen k b name i) : Entered stuff₀ cf' stuff entered := by
  have hpc : ∀ u, u ≠ t → cf'.pc u = cf.pc u := fun u hu => (hothers u hu).1
  have hone : AtMostOne CreatePc.slot cf' := by
    refine h.one.move hpc fun hsome => ?_
    obtain ⟨i, hi⟩ := Option.ne_none_iff_exists'.mp hsome
    exact (hslot i hi).2
  refine ⟨by rw [hstuff, h.here], h.len, h.slots, fun u => ?_, fun u i hi => ?_, fun u k b name i hu => ?_, hone⟩
  · rw [h.byThread]
    by_cases hu : u = t
    · rw [hu, hids]
    · rw [hpc u hu, (hothers u hu).2.2]
  · by_cases hu : u = t
    · rw [hu] at hi
      exact (hslot i hi).1
    · rw [hpc u hu] at hi
      exact h.slot u i hi
  · by_cases hut : u = t
    · rw [hut] at hu
      exact absurd hu (hwritten k b name i)
    · rw [hpc u hut] at hu
      exact h.written u k b name i hu

/-- The call that writes a slot is the only one that does. -/
theorem alone (h : Entered stuff₀ cf stuff entered) {i : Nat} (hi : (cf.pc t).slot = some i) :
    i = stuff.lenFiberStuff ∧ ∀ u, u ≠ t → (cf.pc u).slot = none := by
  refine ⟨h.slot t i hi, fun u hu => ?_⟩
  apply h.one.others (t := t) _ hu
  rw [hi]
  exact Option.some_ne_none i

theorem stuff_modStuff (h : cf.stuff = some stuff) (g : FiberStuff → FiberStuff) :
    (cf.modStuff g).stuff = some (g stuff) := by
  show (cf.proc.listafiberStuff.update cf.dir g).deref cf.dir = _
  have hderef : cf.proc.listafiberStuff.deref cf.dir = some stuff := h
  rw [Table.deref_update_self, hderef]
  rfl

/-- The store of `fiber_base_stuff[i]`, past the entries in use. -/
theorem storedEntry (h : Entered stuff₀ cf stuff entered) {k : Caller} {b : Block Fiber} {name i : Nat}
    (hpc : cf.pc t = .storeEntry k b name i) (hi : i < stuff.fiberBaseStuff.val.length) :
    Entered stuff₀ ((cf.modStuff fun stuff => { stuff with fiberBaseStuff := { stuff.fiberBaseStuff with
        val := stuff.fiberBaseStuff.val.set i (fibersEntryLog name b.val.id) } }).goto t (.storeLen k b name i))
      { stuff with fiberBaseStuff := { stuff.fiberBaseStuff with
        val := stuff.fiberBaseStuff.val.set i (fibersEntryLog name b.val.id) } } entered := by
  obtain ⟨hlen, hothers⟩ := h.alone (t := t) (by rw [hpc]; rfl)
  refine ⟨stuff_modStuff h.here _, h.len, ?_, fun u => ?_, fun u j hj => ?_, fun u k' b' name' j hu => ?_, ?_⟩
  · show List.take _ (List.set _ _ _) = _
    rw [List.take_set_of_le (Nat.le_of_eq hlen.symm), h.slots]
  · rw [h.byThread]
    by_cases hu : u = t
    · simp [hu, Creation.goto, Creation.modStuff, hpc, CreatePc.entered]
    · simp [hu, Creation.goto, Creation.modStuff]
  · by_cases hu : u = t
    · simp only [hu, Creation.goto, Function.update_self, CreatePc.slot, Option.some.injEq] at hj
      exact hj.symm.trans hlen
    · simp only [Creation.goto, Creation.modStuff, Function.update_of_ne hu, hothers u hu] at hj
      cases hj
  · by_cases hut : u = t
    · simp only [hut, Creation.goto, Function.update_self, CreatePc.storeLen.injEq] at hu
      obtain ⟨rfl, rfl, rfl, rfl⟩ := hu
      exact List.getElem?_set_self hi
    · simp only [Creation.goto, Creation.modStuff, Function.update_of_ne hut] at hu
      have hnone := hothers u hut
      rw [hu] at hnone
      cases hnone
  · exact h.one.move (fun u hu => Function.update_of_ne hu _ _) fun _ => hothers

/-- The store of `len_fiber_stuff`, which counts the entry stored. -/
theorem storedLen (h : Entered stuff₀ cf stuff entered) {k : Caller} {b : Block Fiber} {name i : Nat}
    (hpc : cf.pc t = .storeLen k b name i) :
    Entered stuff₀ ((cf.modStuff fun stuff => { stuff with lenFiberStuff := i + 1 }).goto t (.publish k b))
      { stuff with lenFiberStuff := i + 1 } (entered ++ [(t, b.val.id, name)]) := by
  obtain ⟨hlen, hothers⟩ := h.alone (t := t) (by rw [hpc]; rfl)
  have hentry := h.written t k b name i hpc
  subst hlen
  have hnone : ∀ u, (((cf.modStuff fun s => { s with lenFiberStuff := stuff.lenFiberStuff + 1 }).goto t
      (.publish k b)).pc u).slot = none := by
    intro u
    by_cases hu : u = t
    · simp [hu, Creation.goto, CreatePc.slot]
    · simp only [Creation.goto, Creation.modStuff, Function.update_of_ne hu]
      exact hothers u hu
  refine ⟨stuff_modStuff h.here _, ?_, ?_, fun u => ?_, fun u j hj => ?_, fun u k' b' name' j hu => ?_, ?_⟩
  · rw [List.length_append, List.length_singleton]
    have := h.len
    simp only
    omega
  · show List.take (stuff.lenFiberStuff + 1) _ = _
    rw [List.take_add_one, h.slots, hentry, List.map_append, List.append_assoc]
    rfl
  · by_cases hu : u = t
    · rw [hu, ofThread_snoc_self, List.map_append, h.byThread, hpc]
      simp [Creation.goto, Creation.modStuff, CreatePc.entered]
    · rw [ofThread_snoc_ne hu, h.byThread]
      simp [hu, Creation.goto, Creation.modStuff]
  · rw [hnone u] at hj
    cases hj
  · have := hnone u
    rw [hu] at this
    cases this
  · exact h.one.move (fun u hu => Function.update_of_ne hu _ _) fun _ => hothers

theorem step (h : Entered stuff₀ cf stuff entered) (ht : cf.Taken t cf') (hfree : ¬ cf.Overlaps t)
    (hpos : ∀ k b, cf.pc t = .publish k b → 0 < b.val.id) :
    ∃ stuff' entered', Entered stuff₀ cf' stuff' entered' := by
  have hothers := fun u (hu : u ≠ t) => ht.others hu
  cases ht with
  | created hpc htodo =>
    refine ⟨stuff, entered, h.keep rfl hothers ?_ ?_ ?_⟩
    · simp [Creation.goto, Creation.setTodo, Creation.setKmem, hpc, CreatePc.entered]
    · simp [Creation.goto, CreatePc.slot]
    · simp [Creation.goto]
  | converted hpc htodo hno =>
    refine ⟨stuff, entered, h.keep rfl hothers ?_ ?_ ?_⟩
    · simp [Creation.goto, Creation.setTodo, Creation.setProc, Creation.setKmem, hpc, CreatePc.entered]
    · simp [Creation.goto, CreatePc.slot]
    · simp [Creation.goto]
  | refused hpc htodo hyes =>
    refine ⟨stuff, entered, h.keep rfl hothers ?_ ?_ ?_⟩
    · simp [Creation.setTodo, Creation.returns, idsOf_refused]
    · simp [Creation.setTodo, Creation.returns, hpc, CreatePc.slot]
    · simp [Creation.setTodo, Creation.returns, hpc]
  | loadedLast hpc =>
    refine ⟨stuff, entered, h.keep rfl hothers ?_ ?_ ?_⟩
    · simp [Creation.goto, hpc, CreatePc.entered]
    · simp [Creation.goto, CreatePc.slot]
    · simp [Creation.goto]
  | storedLast hpc =>
    refine ⟨stuff, entered, h.keep rfl hothers ?_ ?_ ?_⟩
    · simp [Creation.goto, Creation.setProc, hpc, CreatePc.entered]
    · simp [Creation.goto, CreatePc.slot]
    · simp [Creation.goto]
  | loadedId hpc hid =>
    refine ⟨stuff, entered, h.keep rfl hothers ?_ ?_ ?_⟩
    · simp [Creation.goto, Creation.setKmem, hpc, CreatePc.entered]
    · simp [Creation.goto, CreatePc.slot]
    · simp [Creation.goto]
  | @loadedLen k b name stuff' hpc hstuff =>
    obtain rfl : stuff = stuff' := Option.some.inj (h.here.symm.trans hstuff)
    refine ⟨stuff, entered, h.keep rfl hothers ?_ (fun i hi => ?_) ?_⟩
    · simp [Creation.goto, hpc, CreatePc.entered]
    · simp only [Creation.goto, Function.update_self] at hi
      refine ⟨(Option.some.inj hi).symm, fun u hu => ?_⟩
      by_contra hne
      refine hfree ⟨u, hu, ?_⟩
      rw [hpc]
      exact Option.isSome_iff_ne_none.mpr hne
    · simp [Creation.goto]
  | @storedEntry k b name i stuff' hpc hstuff hi =>
    obtain rfl : stuff = stuff' := Option.some.inj (h.here.symm.trans hstuff)
    exact ⟨_, _, h.storedEntry hpc hi⟩
  | storedLen hpc => exact ⟨_, _, h.storedLen hpc⟩
  | @published k b hpc =>
    refine ⟨stuff, entered, h.keep ?_ hothers ?_ ?_ ?_⟩
    · show (publishFiber _ _ _ _).1.listafiberStuff.deref _ = _
      rw [publishFiber_listafiberStuff]
      rfl
    · simp [Creation.goto, Creation.setProc, Creation.setKmem, Creation.returns, hpc, CreatePc.entered,
        idsOf_snoc (hpos k b hpc)]
    · simp [Creation.goto, Creation.returns, CreatePc.slot]
    · simp [Creation.goto, Creation.returns]

end Entered

/-! ### Calls and fibers -/

/-- Which calls of a thread create a fiber: of its conversions only the first, if it is not converted yet. -/
def creates : Bool → List Request → List Bool
  | _, [] => []
  | known, .fibCreate _ _ _ _ :: calls => true :: creates known calls
  | known, .fibConvert _ :: calls => (!known) :: creates true calls

/-- The call that a thread is in. -/
def CreatePc.inside : CreatePc → List Bool
  | .idle => []
  | _ => [true]

/-- Every call that creates a fiber returns its id, and the others refuse. -/
def Counted (cf₀ cf : Creation) : Prop := ∀ t, creates (cf₀.proc.converted t) (cf₀.todo t) =
  (cf.rets t).map (fun ret => decide (0 < ret)) ++ (cf.pc t).inside ++
    creates (cf.proc.converted t) (cf.todo t)

/-- The fibers published. -/
structure Added (cf₀ cf : Creation) (added : List (Int × Int)) : Prop where
  fibers : (cf.proc.listafiber.map fun f => f.val.id) =
    (added.map Prod.snd).reverse ++ cf₀.proc.listafiber.map fun f => f.val.id
  byThread : ∀ t, ofThread t added = idsOf (cf.rets t)

section step

variable {cf₀ cf cf' : Creation} {added : List (Int × Int)} {t : Int}

theorem Counted.step (h : Counted cf₀ cf) (ht : cf.Taken t cf')
    (hpos : ∀ k b, cf.pc t = .publish k b → 0 < b.val.id) : Counted cf₀ cf' := by
  intro u
  rw [h u]
  have hkeep : cf'.rets u = cf.rets u → cf'.todo u = cf.todo u →
      cf'.proc.converted u = cf.proc.converted u → (cf'.pc u).inside = (cf.pc u).inside →
      (cf.rets u).map (fun ret => decide (0 < ret)) ++ (cf.pc u).inside ++
        creates (cf.proc.converted u) (cf.todo u) =
      (cf'.rets u).map (fun ret => decide (0 < ret)) ++ (cf'.pc u).inside ++
        creates (cf'.proc.converted u) (cf'.todo u) := by
    intro hrets htodo hconverted hinside
    rw [hrets, htodo, hconverted, hinside]
  by_cases hu : u = t
  · subst hu
    cases ht with
    | created hpc htodo =>
      simp [hpc, htodo, creates, CreatePc.inside, Creation.goto, Creation.setTodo, Creation.setKmem]
    | converted hpc htodo hno =>
      have hyes : (doThreadCreate cf.proc u cf.kmem).2.1.converted u = true :=
        converted_iff.mpr List.mem_cons_self
      simp [hpc, htodo, hno, hyes, creates, CreatePc.inside, Creation.goto, Creation.setTodo, Creation.setKmem,
        Creation.setProc]
    | refused hpc htodo hyes =>
      simp [hpc, htodo, hyes, creates, CreatePc.inside, Creation.setTodo, Creation.returns]
    | @published k b hpc =>
      have hsame : (publishFiber cf.proc cf.kmem b k).1.converted u = cf.proc.converted u := by
        rw [Bool.eq_iff_iff, converted_iff, converted_iff, publishFiber_threadIds]
      simp [hpc, hsame, hpos k b hpc, CreatePc.inside, Creation.goto, Creation.setKmem, Creation.setProc,
        Creation.returns]
    | loadedLast hpc | storedLast hpc | loadedId hpc | loadedLen hpc | storedEntry hpc | storedLen hpc =>
      exact hkeep rfl rfl rfl (by simp [hpc, CreatePc.inside, Creation.goto])
  · obtain ⟨hpc, htodo, hrets⟩ := ht.others hu
    exact hkeep hrets htodo (ht.converted_others hu) (by rw [hpc])

theorem Added.step (h : Added cf₀ cf added) (ht : cf.Taken t cf')
    (hpos : ∀ k b, cf.pc t = .publish k b → 0 < b.val.id) : ∃ added', Added cf₀ cf' added' := by
  have hothers := fun u (hu : u ≠ t) => ht.others hu
  have hkeep : (cf'.proc.listafiber = cf.proc.listafiber) → idsOf (cf'.rets t) = idsOf (cf.rets t) →
      ∃ added', Added cf₀ cf' added' := by
    intro hfibers hids
    refine ⟨added, by rw [hfibers, h.fibers], fun u => ?_⟩
    by_cases hu : u = t
    · rw [hu, hids, h.byThread]
    · rw [(hothers u hu).2.2, h.byThread]
  cases ht with
  | @published k b hpc =>
    refine ⟨added ++ [(t, b.val.id)], ?_, fun u => ?_⟩
    · show ((publishFiber _ _ _ _).1.listafiber.map _) = _
      rw [publishFiber_fiberIds, List.map_append, List.reverse_append]
      show b.val.id :: (cf.proc.listafiber.map _) = _
      rw [h.fibers]
      rfl
    · by_cases hu : u = t
      · rw [hu, ofThread_snoc_self, h.byThread]
        simp [Creation.goto, Creation.setKmem, Creation.setProc, Creation.returns, idsOf_snoc (hpos k b hpc)]
      · rw [ofThread_snoc_ne hu, h.byThread, (hothers u hu).2.2]
  | refused hpc htodo hyes => exact hkeep rfl (by simp [Creation.setTodo, Creation.returns, idsOf_refused])
  | _ => exact hkeep rfl rfl

end step

/-! ### Whole runs -/

namespace Creation.Start

variable {cf₀ : Creation} {stuff₀ : FiberStuff}

theorem ids (h : cf₀.Start stuff₀) : Ids cf₀.proc.lastFibId cf₀ [] where
  last := (add_zero _).symm
  values := rfl
  byThread t := by
    rw [h.idle, h.rets]
    rfl
  loaded t x hx := by
    rw [h.idle] at hx
    cases hx
  one t u ht := by
    rw [h.idle] at ht
    exact absurd rfl ht

theorem entered (h : cf₀.Start stuff₀) : Entered stuff₀ cf₀ stuff₀ [] where
  here := by
    rw [Creation.stuff, h.dir, Table.deref_cons, if_pos rfl]
  len := rfl
  slots := (List.append_nil _).symm
  byThread t := by
    rw [h.idle, h.rets]
    rfl
  slot t i hi := by
    rw [h.idle] at hi
    cases hi
  written t k b name i hpc := by
    rw [h.idle] at hpc
    cases hpc
  one t u ht := by
    rw [h.idle] at ht
    exact absurd rfl ht

theorem counted (h : cf₀.Start stuff₀) : Counted cf₀ cf₀ := by
  intro t
  rw [h.idle, h.rets]
  rfl

theorem added (h : cf₀.Start stuff₀) : Added cf₀ cf₀ [] where
  fibers := rfl
  byThread t := by
    rw [h.rets]
    rfl

end Creation.Start

/-- The calls of a run have taken one id, one directory entry and one node of `listafiber` each: `taken` lists
the ids with their threads, `entered` the entries. -/
structure Creation.OneEach (cf₀ cf : Creation) (stuff₀ : FiberStuff) (taken : List (Int × Int))
    (stuff : FiberStuff) (entered : List (Int × Int × Nat)) : Prop where
  calls : ∀ t, (cf.rets t).map (fun ret => decide (0 < ret)) = creates (cf₀.proc.converted t) (cf₀.todo t)
  returned : ∀ t, idsOf (cf.rets t) = ofThread t taken
  distinct : (taken.map Prod.snd).Nodup
  last : cf.proc.lastFibId = cf₀.proc.lastFibId + taken.length
  here : cf.stuff = some stuff
  len : stuff.lenFiberStuff = stuff₀.lenFiberStuff + taken.length
  slots : stuff.fiberBaseStuff.val.take stuff.lenFiberStuff =
    stuff₀.fiberBaseStuff.val.take stuff₀.lenFiberStuff ++ entered.map fun x => fibersEntryLog x.2.2 x.2.1
  entries : (entered.map fun x => (x.1, x.2.1)).Perm taken
  fibers : ∃ added : List (Int × Int), added.Perm taken ∧ (cf.proc.listafiber.map fun f => f.val.id) =
    (added.map Prod.snd).reverse ++ cf₀.proc.listafiber.map fun f => f.val.id

/-- **Creations that keep apart**: in a run none of whose steps falls into another call's update, once all
calls have returned, each has taken one id and one entry of its own. -/
theorem creations_apart {cf₀ cf : Creation} {stuff₀ : FiberStuff} {tr : List Int} (hstart : cf₀.Start stuff₀)
    (hrun : Run (· = cf₀) (Guarded (fun cf t => ¬ cf.Overlaps t) Creation.Next) cf tr)
    (hdone : cf.Complete) : ∃ taken stuff entered, cf₀.OneEach cf stuff₀ taken stuff entered := by
  have hinv : (∃ taken, Ids cf₀.proc.lastFibId cf taken) ∧ (∃ stuff entered, Entered stuff₀ cf stuff entered) ∧
      Counted cf₀ cf ∧ ∃ added, Added cf₀ cf added := by
    refine hrun.invariant (P := fun cf _ => (∃ taken, Ids cf₀.proc.lastFibId cf taken) ∧
      (∃ stuff entered, Entered stuff₀ cf stuff entered) ∧ Counted cf₀ cf ∧ ∃ added, Added cf₀ cf added) ?_ ?_
    · intro cf he
      rw [he]
      exact ⟨⟨[], hstart.ids⟩, ⟨stuff₀, [], hstart.entered⟩, hstart.counted, [], hstart.added⟩
    · intro cf tr t cf' _ ih hstep
      obtain ⟨⟨taken, hids⟩, ⟨stuff, entered, hentered⟩, hcounted, added, hadded⟩ := ih
      obtain ⟨hnext, hfree⟩ := hstep
      have ht := Creation.taken hnext
      have hpos : ∀ k b, cf.pc t = .publish k b → 0 < b.val.id := fun k b hpc =>
        lt_of_le_of_lt hstart.last (hids.lt_of_publish hpc)
      exact ⟨hids.step hstart.last ht hfree, hentered.step ht hfree hpos, hcounted.step ht hpos,
        hadded.step ht hpos⟩
  obtain ⟨⟨taken, hids⟩, ⟨stuff, entered, hentered⟩, hcounted, added, hadded⟩ := hinv
  have hreturned : ∀ t, idsOf (cf.rets t) = ofThread t taken := by
    intro t
    rw [hids.byThread, (hdone t).1]
    exact (List.append_nil _).symm
  have hentries : (entered.map fun x => (x.1, x.2.1)).Perm taken := by
    apply perm_of_ofThread
    intro t
    rw [ofThread_map Prod.fst t entered, hentered.byThread, (hdone t).1, ← hreturned]
    exact List.append_nil _
  refine ⟨taken, stuff, entered, fun t => ?_, hreturned, hids.nodup, hids.last, hentered.here, ?_, hentered.slots,
    hentries, added, ?_, hadded.fibers⟩
  · have hcalls := hcounted t
    rw [(hdone t).1, (hdone t).2] at hcalls
    rw [hcalls]
    simp [creates, CreatePc.inside]
  · rw [hentered.len, ← hentries.length_eq, List.length_map]
  · apply perm_of_ofThread
    intro t
    rw [hadded.byThread, hreturned]

end LinuxFibers
