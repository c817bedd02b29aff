import LinuxFibers.Lists.Processes

/-!
# The operations on the local storage

Each of them is a step of the machine on the storage of the fiber that the caller runs, or it refuses, or, with a position
outside the arrays, `flsGetValue` keeps the lock.
-/

namespace LinuxFibers.Lists

open Outcomes SlotStorage
open Function (update update_self update_of_ne)

/-! ### Bitmaps -/

section storage

variable {f : Fiber} {bitmap : Fin flsSize → BitVec 64} {fls : Fin flsSize → Int} {i k : Fin flsSize} {index v : Int}

theorem firstClear_some (h : firstClear bitmap = some i) : bitmap i = 0 ∧ ∀ j < i, bitmap j ≠ 0 := by
  obtain ⟨hi, hlt⟩ := find?_finRange.mp h
  exact ⟨of_decide_eq_true hi, fun j hj => of_decide_eq_false (hlt j hj)⟩

theorem firstClear_none (h : firstClear bitmap = none) (i : Fin flsSize) : bitmap i ≠ 0 := by
  have hi := List.find?_eq_none.mp h i (List.mem_finRange i)
  exact fun hzero => hi (decide_eq_true hzero)

theorem foundIndex_some (h : firstClear bitmap = some i) : foundIndex bitmap index = i := by
  delta foundIndex
  rw [h]

theorem foundIndex_none (h : firstClear bitmap = none) : foundIndex bitmap index = index := by
  delta foundIndex
  rw [h]

theorem storage_eq (hb : f.bitmapFls = some bitmap) (hf : f.fls = some fls) :
    f.storage = Slots.ofArrays bitmap fls := by
  rw [Fiber.storage, hb, hf]
  rfl

theorem mem_live (h : f.bitmapFls = some bitmap) : i ∈ f.storage.live ↔ bitmap i ≠ 0 := by
  rw [Fiber.storage, h]
  exact Slots.mem_ofArrays

theorem InRange.toFin_val (h : InRange index) : ((h.toFin : Fin flsSize) : Int) = index := by
  obtain ⟨h0, h1⟩ := h
  exact Int.toNat_of_nonneg h0

theorem inRange_fin (i : Fin flsSize) : InRange i := ⟨Int.natCast_nonneg _, by have := i.isLt; omega⟩

theorem toFin_fin (i : Fin flsSize) : (inRange_fin i).toFin = i := Fin.ext (Int.toNat_natCast _)

theorem readAt_in {α : Type} {a : Fin flsSize → α} (h : InRange index) : readAt a index = .ok (a h.toFin) := dif_pos h

theorem writeAt_in {α : Type} {a : Fin flsSize → α} {x : α} (h : InRange index) :
    writeAt a index x = .ok (update a h.toFin x) := dif_pos h

theorem writeAt_out {α : Type} {a : Fin flsSize → α} {x : α} (h : ¬ InRange index) :
    writeAt a index x = .error (.fault .outOfBounds) := dif_neg h

/-- The test of the source for a position outside. -/
theorem outside_iff : (index ≥ flsSize ∨ index < 0) ↔ ¬ InRange index := by
  unfold InRange
  omega

theorem storage_take (hb : f.bitmapFls = some bitmap) :
    Fiber.storage { f with bitmapFls := some (update bitmap k 1) } = f.storage.take k := by
  rw [Fiber.storage, Fiber.storage, hb]
  exact Slots.ofArrays_set (by decide)

theorem storage_drop (hb : f.bitmapFls = some bitmap) :
    Fiber.storage { f with bitmapFls := some (update bitmap k 0) } = f.storage.drop k := by
  rw [Fiber.storage, Fiber.storage, hb]
  exact Slots.ofArrays_clear

theorem storage_store (hf : f.fls = some fls) :
    Fiber.storage { f with fls := some (update fls k v) } = f.storage.store k v := by
  rw [Fiber.storage, Fiber.storage, hf]
  exact Slots.ofArrays_store

end storage

/-! ### The operations -/

theorem Fibers.setFiber_self {q : Fibers} {id : Int} {x : Coroutine} (h : q.fiber id = some x) : q.setFiber id x = q := by
  rw [Fibers.setFiber, ← h, Function.update_eq_self]

section operations

variable {P : Printer} {s : State} {c : Task} {i j : Nat} {p : FiberProcessi} {n : ListaFiber} {f : Fiber} {op : Op}
  {o : FlsOp} {out : Option Int} {cpu : Cpu} {pid : Int}

theorem coroutine_eq (hf : n.fiber = some f) : n.coroutine = some ⟨⟨f.regs, f.fpu⟩, !n.running, f.storage⟩ := by
  rw [ListaFiber.coroutine, hf]
  rfl

/-- An operation that leaves the storage of the running fiber as it was. -/
theorem fls_kept (hcur : p.fibers.current pid = some n.id) (hfiber : p.fibers.fiber n.id = n.coroutine)
    (hf : n.fiber = some f) (hop : op.flsOp = some o) (hstep : Storage.Step o f.storage out f.storage) :
    Fibers.Step pid (cpu, p.fibers) op out (cpu, p.fibers) := by
  rw [coroutine_eq hf] at hfiber
  have hfls : Fibers.Step pid (cpu, p.fibers) op out (cpu, p.fibers.setFiber n.id ⟨_, _, f.storage⟩) :=
    .fls hop hcur hfiber hstep
  rwa [Fibers.setFiber_self hfiber] at hfls

/-- An operation that assigns to the arrays of the running fiber. -/
theorem fls_acted (hs : s.Sound) (hfree : s.lockListaProcessi = false) (hcaller : op.caller = some c)
    (hp : s.findProcesso c.tgid = some (i, p)) (hj : p.findRunner c.pid = some (j, n)) (hpid : c.pid ≠ 0)
    (hf : n.fiber = some f) {g : Fiber → Fiber} (hg : (g f).regs = f.regs ∧ (g f).fpu = f.fpu)
    (hfls : (g f).fls ≠ none) (hbitmap : (g f).bitmapFls ≠ none) (hop : op.flsOp = some o)
    (hstep : Storage.Step o f.storage out (g f).storage) :
    Does s (.driver op) (spinUnlock (State.modFiber { s with lockListaProcessi := true } i j g)) out := by
  have hsound := sound_of_find hs hp
  obtain ⟨-, -, -, hcur, hfiber⟩ := findRunner_some hsound hj hpid
  obtain ⟨hsound', hfibers⟩ := modFiber_fibers (h := g) hsound hj hf hfls hbitmap
  refine acted' hs hfree hcaller hp rfl rfl hsound' ?_
  rw [coroutine_eq hf] at hfiber
  rw [hfibers, hg.1, hg.2]
  exact .fls hop hcur hfiber hstep

variable (hs : s.Sound) (hpid : c.pid ≠ 0)
include hs hpid

theorem flsAlloc_refines (index : Int) : Yields (Faults P s (.driver (.flsAlloc c index)))
    (fun r => Does s (.driver (.flsAlloc c index)) r.1 (some r.2)) (flsAlloc c index s) := by
  unfold flsAlloc
  refine yields_lock (fun h => .locked h trivial) fun hfree => ?_
  split
  · next hp => exact refused hs hfree rfl hp (fun _ => Op.noConfusion) rfl
  · next i p hp =>
    have hsound := sound_of_find hs hp
    split
    · next hj => exact kept hs hfree rfl hp (.flsRefused (o := .alloc) rfl (findRunner_none hj))
    · next j n hj =>
      obtain ⟨hn, -, hrunning, hcur, hfiber⟩ := findRunner_some hsound hj hpid
      obtain ⟨f, hf, hfls, hbitmap⟩ := hsound.nodes.whole n hn
      split
      · next hnot => exact absurd hrunning hnot
      · refine yields_deref hf ?_
        split
        · next hnone => exact absurd hnone hbitmap
        · next bitmap hb =>
          cases hclear : firstClear bitmap with
          | some k =>
            have hzero := (firstClear_some hclear).1
            have hleast := (firstClear_some hclear).2
            have hlt := k.isLt
            rw [foundIndex_some hclear, if_neg (by omega), writeAt_in (inRange_fin k), toFin_fin]
            refine fls_acted hs hfree rfl hp hj hpid hf ⟨rfl, rfl⟩ hfls (Option.some_ne_none _) rfl ?_
            rw [storage_take hb]
            refine .inside (.alloc (fun hlive => (mem_live hb).mp hlive hzero) fun j hj => ?_)
            exact (mem_live hb).mpr (hleast j hj)
          | none =>
            have hfull : ∀ k, k ∈ f.storage.live := fun k => (mem_live hb).mpr (firstClear_none hclear k)
            rw [foundIndex_none hclear]
            split
            · exact kept hs hfree rfl hp (fls_kept hcur hfiber hf rfl (.allocFull hfull))
            · next hsize =>
              by_cases hin : InRange index
              · rw [writeAt_in hin]
                refine fls_acted hs hfree rfl hp hj hpid hf ⟨rfl, rfl⟩ hfls (Option.some_ne_none _) rfl ?_
                rw [storage_take hb, Slots.take_eq_self (hfull _)]
                exact .allocFull hfull
              · rw [writeAt_out hin]
                exact .flsAlloc hfree hp hj hf hfull hin hsize

theorem flsFree_refines (index : Int) : Yields (Faults P s (.driver (.flsFree c index)))
    (fun r => Does s (.driver (.flsFree c index)) r.1 (some (if r.2 then 1 else 0))) (flsFree c index s) := by
  unfold flsFree
  refine yields_lock (fun h => .locked h trivial) fun hfree => ?_
  split
  · next hp => exact refused hs hfree rfl hp (fun _ => Op.noConfusion) rfl
  · next i p hp =>
    have hsound := sound_of_find hs hp
    split
    · next hj => exact kept hs hfree rfl hp (.flsRefused (o := .free index) rfl (findRunner_none hj))
    · next j n hj =>
      obtain ⟨hn, -, hrunning, hcur, hfiber⟩ := findRunner_some hsound hj hpid
      obtain ⟨f, hf, hfls, hbitmap⟩ := hsound.nodes.whole n hn
      split
      · next hnot => exact absurd hrunning hnot
      · refine yields_deref hf ?_
        split
        · next hnone => exact absurd hnone hbitmap
        · next bitmap hb =>
          split
          · next hout =>
            exact kept hs hfree rfl hp (fls_kept hcur hfiber hf rfl (.freeOutside (outside_iff.mp hout)))
          · next hin =>
            have hin := not_not.mp fun h => hin (outside_iff.mpr h)
            rw [readAt_in hin]
            show Yields _ _ (if bitmap hin.toFin = 0 then _ else _)
            split
            · next hzero =>
              have hdead : Fls.Step _ f.storage _ _ := .freeDead fun hlive => (mem_live hb).mp hlive hzero
              rw [hin.toFin_val] at hdead
              exact kept hs hfree rfl hp (fls_kept hcur hfiber hf rfl (.inside hdead))
            · next hset =>
              rw [writeAt_in hin]
              refine fls_acted hs hfree rfl hp hj hpid hf ⟨rfl, rfl⟩ hfls (Option.some_ne_none _) rfl ?_
              rw [storage_drop hb]
              have hdrop : Fls.Step _ f.storage _ _ := .free ((mem_live hb).mpr hset)
              rw [hin.toFin_val] at hdrop
              exact .inside hdrop

theorem flsSetValue_refines (pos val : Int) : Yields (Faults P s (.driver (.flsSetValue c pos val)))
    (fun r => Does s (.driver (.flsSetValue c pos val)) r.1 none) (flsSetValue c pos val s) := by
  unfold flsSetValue
  refine yields_lock (fun h => .locked h trivial) fun hfree => ?_
  split
  · next hp => exact refused hs hfree rfl hp (fun _ => Op.noConfusion) rfl
  · next i p hp =>
    have hsound := sound_of_find hs hp
    split
    · next hj => exact kept hs hfree rfl hp (.flsRefused (o := .setValue pos val) rfl (findRunner_none hj))
    · next j n hj =>
      obtain ⟨hn, -, hrunning, hcur, hfiber⟩ := findRunner_some hsound hj hpid
      obtain ⟨f, hf, hfls, hbitmap⟩ := hsound.nodes.whole n hn
      split
      · next hnot => exact absurd hrunning hnot
      · refine yields_deref hf ?_
        split
        · next hnone => exact absurd hnone hfls
        · next fls hvals =>
          split
          · next hnone => exact absurd hnone hbitmap
          · next bitmap hb =>
            split
            · next hout =>
              exact kept hs hfree rfl hp (fls_kept hcur hfiber hf rfl (.setValueOutside (outside_iff.mp hout)))
            · next hin =>
              have hin := not_not.mp fun h => hin (outside_iff.mpr h)
              rw [readAt_in hin]
              show Yields _ _ (if bitmap hin.toFin = 0 then _ else _)
              split
              · next hzero =>
                have hdead : Fls.Step (.setValue _ val) f.storage _ _ :=
                  .setValueDead fun hlive => (mem_live hb).mp hlive hzero
                rw [hin.toFin_val] at hdead
                exact kept hs hfree rfl hp (fls_kept hcur hfiber hf rfl (.inside hdead))
              · next hset =>
                rw [writeAt_in hin]
                refine fls_acted hs hfree rfl hp hj hpid hf ⟨rfl, rfl⟩ (Option.some_ne_none _) hbitmap rfl ?_
                rw [storage_store hvals]
                have hstore : Fls.Step (.setValue _ val) f.storage _ _ := .setValue ((mem_live hb).mpr hset)
                rw [hin.toFin_val] at hstore
                exact .inside hstore

/-- `flsGetValue` changes nothing but, at worst, the lock. -/
theorem flsGetValue_refines (pos : Int) : Yields (Faults P s (.driver (.flsGetValue c pos)))
    (fun r => Does s (.driver (.flsGetValue c pos)) r.1 (some r.2)) (flsGetValue c pos s) := by
  unfold flsGetValue
  refine yields_lock (fun h => .locked h trivial) fun hfree => ?_
  split
  · next hp => exact refused hs hfree rfl hp (fun _ => Op.noConfusion) rfl
  · next i p hp =>
    have hsound := sound_of_find hs hp
    split
    · next hj => exact kept hs hfree rfl hp (.flsRefused (o := .getValue pos) rfl (findRunner_none hj))
    · next j n hj =>
      obtain ⟨hn, -, hrunning, hcur, hfiber⟩ := findRunner_some hsound hj hpid
      obtain ⟨f, hf, hfls, hbitmap⟩ := hsound.nodes.whole n hn
      split
      · next hnot => exact absurd hrunning hnot
      · refine yields_deref hf ?_
        split
        · next hnone => exact absurd hnone hfls
        · next fls hvals =>
          split
          · next hnone => exact absurd hnone hbitmap
          · next bitmap hb =>
            split
            · next hout =>
              obtain ⟨rest, hrest⟩ := procs_some hp
              exact ⟨hs, .keepsLock hfree hrest hcur (outside_iff.mp hout)⟩
            · next hin =>
              have hin := not_not.mp fun h => hin (outside_iff.mpr h)
              rw [readAt_in hin]
              show Yields _ _ (if bitmap hin.toFin = 0 then _ else _)
              split
              · next hzero =>
                have hdead : Fls.Step _ f.storage _ _ := .getValueDead fun hlive => (mem_live hb).mp hlive hzero
                rw [hin.toFin_val] at hdead
                exact kept hs hfree rfl hp (fls_kept hcur hfiber hf rfl (.inside hdead))
              · next hset =>
                rw [readAt_in hin]
                have hvalue : f.storage.value hin.toFin = fls hin.toFin := by rw [storage_eq hb hvals]; rfl
                have hget : Fls.Step _ f.storage _ _ := .getValue ((mem_live hb).mpr hset)
                rw [hvalue, hin.toFin_val] at hget
                exact kept hs hfree rfl hp (fls_kept hcur hfiber hf rfl (.inside hget))

end operations

end LinuxFibers.Lists
