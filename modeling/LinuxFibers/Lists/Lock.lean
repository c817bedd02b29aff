import LinuxFibers.Base.Outcome
import LinuxFibers.Lists.Run

/-!
# The lock is given back

`lock_returned_iff`: of all returns of the nine operations one keeps the lock, that of `flsGetValue` on a position
outside the arrays. After it the next operation waits forever.
-/

namespace LinuxFibers.Lists

open Outcomes Runs

/-- The operation does not wait for the lock, and gives it back if it returns. -/
def Frees {α : Type} (x : Except Stop (State × α)) : Prop := Yields (fun e => e ≠ Stop.spins) (fun r => Unlocked r.1) x

/-- The caller runs a fiber with both arrays and asks for a position outside them. -/
def LeavesHeld (s : State) : Op → Prop
  | .flsGetValue c pos => ¬ InRange pos ∧ ∃ i p j node f, s.findProcesso c.tgid = some (i, p) ∧
      p.findRunner c.pid = some (j, node) ∧ node.running = true ∧ node.fiber = some f ∧ f.fls ≠ none ∧
      f.bitmapFls ≠ none
  | _ => False

section rules

variable {α β : Type} {s : State} {a : α}

theorem frees_unlock (s : State) (a : α) : Frees (.ok (spinUnlock s, a)) := rfl

/-- A computation that does not look at the lock. -/
def Silent (x : Except Stop β) : Prop := Yields (fun e => e ≠ Stop.spins) (fun _ => True) x

theorem silent_fault (f : Fault) : Silent (.error (.fault f) : Except Stop β) := Stop.noConfusion

theorem silent_ok (b : β) : Silent (.ok b) := trivial

theorem Silent.bind {x : Except Stop β} {k : β → Except Stop (State × α)} (hx : Silent x)
    (hk : ∀ b, Frees (k b)) : Frees (x >>= k) := Yields.bind hx fun b _ => hk b

/-- An operation that takes a free lock. -/
theorem frees_lock (h : Unlocked s) {k : State → Except Stop (State × α)}
    (hk : Frees (k { s with lockListaProcessi := true })) : Frees (spinLock s >>= k) := by
  rw [spinLock_free h]
  exact hk

theorem frees_deref {o : Option β} {k : β → Except Stop (State × α)} (hk : ∀ b, o = some b → Frees (k b)) :
    Frees (deref o >>= k) := by
  cases o with
  | none => exact Stop.noConfusion
  | some b => exact hk b rfl

theorem silent_readAt (v : Fin flsSize → β) (i : Int) : Silent (readAt v i) := by
  unfold readAt
  split_ifs
  · exact silent_ok _
  · exact silent_fault _

theorem silent_writeAt (v : Fin flsSize → β) (i : Int) (b : β) : Silent (writeAt v i b) := by
  unfold writeAt
  split_ifs
  · exact silent_ok _
  · exact silent_fault _

theorem silent_nextId (p : FiberProcessi) : Silent (nextId p) := by
  unfold nextId
  split
  · exact silent_ok _
  · split_ifs
    · exact silent_ok _
    · exact silent_fault _

theorem silent_doFibCreate (c : Task) (cpu : Cpu) (func parameters stackPointer stackSize : BitVec 64)
    (p : FiberProcessi) : Silent (doFibCreate c cpu func parameters stackPointer stackSize p) := by
  unfold doFibCreate
  exact Yields.bind (silent_nextId p) fun _ _ => silent_ok _

theorem silent_entryName (P : Printer) (id : Int) : Silent (entryName P id) := by
  unfold entryName
  dsimp only
  split_ifs
  · exact silent_ok _
  · exact silent_fault _

theorem silent_storeEntry (entry : PidEntry) (stuff : FiberStuff) : Silent (storeEntry entry stuff) := by
  unfold storeEntry
  dsimp only
  split_ifs
  · exact silent_ok _
  · exact silent_fault _

theorem silent_sprintf (text : List Char) : Silent (sprintf text) := by
  unfold sprintf
  split_ifs
  · exact silent_ok _
  · exact silent_fault _

/-- The value of a step says nothing about the lock. -/
theorem frees_out {x : Except Stop (State × α)} {g : α → Option Int} :
    Frees (do let (s, a) ← x; .ok (s, g a)) ↔ Frees x := by
  rcases x with e | ⟨s, a⟩
  · exact Iff.rfl
  · exact Iff.rfl

end rules

/-! ### The operations -/

section operations

variable {P : Printer} {c : Task} {s : State} (h : Unlocked s)
include h

theorem fibOpen_frees : Frees (fibOpen c s) := by
  unfold fibOpen
  exact frees_lock h (frees_unlock _ _)

theorem fibConvert_frees (now : Timespec) : Frees (fibConvert c now s) := by
  unfold fibConvert
  apply frees_lock h
  split
  · exact frees_unlock _ _
  · split
    · exact frees_unlock _ _
    · exact (silent_doFibCreate _ _ _ _ _ _ _).bind fun _ => frees_unlock _ _

theorem fibCreate_frees (func parameters stackPointer stackSize : BitVec 64) :
    Frees (fibCreate P c func parameters stackPointer stackSize s) := by
  unfold fibCreate
  apply frees_lock h
  split
  · exact frees_unlock _ _
  · refine (silent_doFibCreate _ _ _ _ _ _ _).bind fun _ => ?_
    refine (silent_entryName _ _).bind fun _ => ?_
    exact (silent_storeEntry _ _).bind fun _ => frees_unlock _ _

theorem fibSwitchTo_frees (id : Int) (now : Timespec) : Frees (fibSwitchTo c id now s) := by
  unfold fibSwitchTo
  apply frees_lock h
  split
  · exact frees_unlock _ _
  · split
    · exact frees_unlock _ _
    · split
      · exact frees_unlock _ _
      · split
        · exact frees_deref fun _ _ => frees_unlock _ _
        · refine frees_deref fun _ _ => ?_
          exact frees_deref fun _ _ => frees_unlock _ _

theorem flsAlloc_frees (index : Int) : Frees (flsAlloc c index s) := by
  unfold flsAlloc
  apply frees_lock h
  split
  · exact frees_unlock _ _
  · split
    · exact frees_unlock _ _
    · split
      · exact frees_unlock _ _
      · refine frees_deref fun f _ => ?_
        split
        · exact frees_unlock _ _
        · -- the search is not to be run
          generalize foundIndex _ index = k
          split
          · exact frees_unlock _ _
          · exact (silent_writeAt _ _ _).bind fun _ => frees_unlock _ _

theorem flsFree_frees (index : Int) : Frees (flsFree c index s) := by
  unfold flsFree
  apply frees_lock h
  split
  · exact frees_unlock _ _
  · split
    · exact frees_unlock _ _
    · split
      · exact frees_unlock _ _
      · refine frees_deref fun f _ => ?_
        split
        · exact frees_unlock _ _
        · split
          · exact frees_unlock _ _
          · refine (silent_readAt _ _).bind fun bit => ?_
            split
            · exact frees_unlock _ _
            · exact (silent_writeAt _ _ _).bind fun _ => frees_unlock _ _

theorem flsSetValue_frees (pos val : Int) : Frees (flsSetValue c pos val s) := by
  unfold flsSetValue
  apply frees_lock h
  split
  · exact frees_unlock _ _
  · split
    · exact frees_unlock _ _
    · split
      · exact frees_unlock _ _
      · refine frees_deref fun f _ => ?_
        split
        · exact frees_unlock _ _
        · split
          · exact frees_unlock _ _
          · split
            · exact frees_unlock _ _
            · refine (silent_readAt _ _).bind fun bit => ?_
              split
              · exact frees_unlock _ _
              · exact (silent_writeAt _ _ _).bind fun _ => frees_unlock _ _

theorem myread_frees (name tgid : List Char) (fibId : Nat) (tmpPid : Int) (len off : Nat) (copied : Bool) :
    Frees (myread P name tgid fibId tmpPid len off copied s) := by
  unfold myread
  apply frees_lock h
  split
  · exact frees_unlock _ _
  · split
    · exact frees_unlock _ _
    · refine frees_deref fun f _ => ?_
      exact (silent_sprintf _).bind fun _ => frees_unlock _ _

/-- The walks of `flsGetValue` and its tests, all passed but that of the position. -/
theorem flsGetValue_held {pos : Int} (hheld : LeavesHeld s (.flsGetValue c pos)) :
    flsGetValue c pos s = .ok ({ s with lockListaProcessi := true }, -1) := by
  obtain ⟨hpos, i, p, j, node, f, hp, hj, hrunning, hf, hfls, hbitmap⟩ := hheld
  obtain ⟨fls, hfls⟩ := Option.ne_none_iff_exists'.mp hfls
  obtain ⟨bitmap, hbitmap⟩ := Option.ne_none_iff_exists'.mp hbitmap
  have hout : pos ≥ flsSize ∨ pos < 0 := by
    simp only [InRange] at hpos
    omega
  have hp' : State.findProcesso { s with lockListaProcessi := true } c.tgid = some (i, p) := hp
  rw [flsGetValue, spinLock_free h]
  simp only [bind, Except.bind, hp', hj, hrunning, hf, deref, hfls, hbitmap, if_pos hout]
  rfl

theorem flsGetValue_frees {pos : Int} (hheld : ¬ LeavesHeld s (.flsGetValue c pos)) :
    Frees (flsGetValue c pos s) := by
  unfold flsGetValue
  apply frees_lock h
  split
  · exact frees_unlock _ _
  · next i p hp =>
    split
    · exact frees_unlock _ _
    · next j node hj =>
      split
      · exact frees_unlock _ _
      · next hrunning =>
        refine frees_deref fun f hf => ?_
        split
        · exact frees_unlock _ _
        · next fls hfls =>
          split
          · exact frees_unlock _ _
          · next bitmap hbitmap =>
            split
            · next hout =>
              refine absurd ⟨?_, i, p, j, node, f, hp, hj, ?_, hf, ?_, ?_⟩ hheld
              · unfold InRange
                omega
              · simpa using hrunning
              · rw [hfls]
                exact Option.some_ne_none fls
              · rw [hbitmap]
                exact Option.some_ne_none bitmap
            · refine (silent_readAt _ _).bind fun bit => ?_
              split
              · exact frees_unlock _ _
              · exact (silent_readAt _ _).bind fun _ => frees_unlock _ _

/-- What one operation does with a free lock. -/
theorem step_frees_iff (op : Op) : Frees (step P op s) ↔ ¬ LeavesHeld s op := by
  cases op with
  | flsGetValue c pos =>
    rw [step, frees_out (g := some)]
    refine ⟨fun hfrees hheld => ?_, flsGetValue_frees h⟩
    rw [flsGetValue_held h hheld] at hfrees
    cases hfrees
  | fibOpen c => exact iff_of_true (frees_out.mpr (fibOpen_frees h)) id
  | fibConvert c now => exact iff_of_true (frees_out.mpr (fibConvert_frees h now)) id
  | fibCreate c func parameters stackPointer stackSize =>
    exact iff_of_true (frees_out.mpr (fibCreate_frees h func parameters stackPointer stackSize)) id
  | fibSwitchTo c id now => exact iff_of_true (frees_out.mpr (fibSwitchTo_frees h id now)) fun hheld => hheld
  | flsAlloc c index => exact iff_of_true (frees_out.mpr (flsAlloc_frees h index)) id
  | flsFree c index =>
    have hfree := flsFree_frees (c := c) h index
    exact iff_of_true ((frees_out (g := fun ret : Bool => some (if ret then 1 else 0))).mpr hfree) id
  | flsSetValue c pos val =>
    exact iff_of_true ((frees_out (g := fun _ => none)).mpr (flsSetValue_frees h pos val)) id
  | myread name tgid fibId tmpPid len off copied =>
    have hread := myread_frees (P := P) h name tgid fibId tmpPid len off copied
    exact iff_of_true ((frees_out (g := fun reply : Reader.Reply Char => some reply.ret)).mpr hread) id

end operations

/-! ### Runs -/

section run

variable {P : Printer} {s s' : State} {op : Op} {tr : List Op}

/-- Every operation begins with the lock. -/
theorem step_held (h : s.lockListaProcessi = true) (op : Op) : step P op s = .error .spins := by
  have hspins : spinLock s = .error .spins := by
    rw [spinLock, h]
    rfl
  cases op with
  | fibOpen c => rw [step, fibOpen, hspins]; rfl
  | fibConvert c now => rw [step, fibConvert, hspins]; rfl
  | fibCreate c func parameters stackPointer stackSize => rw [step, fibCreate, hspins]; rfl
  | fibSwitchTo c id now => rw [step, fibSwitchTo, hspins]; rfl
  | flsAlloc c index => rw [step, flsAlloc, hspins]; rfl
  | flsFree c index => rw [step, flsFree, hspins]; rfl
  | flsGetValue c pos => rw [step, flsGetValue, hspins]; rfl
  | flsSetValue c pos val => rw [step, flsSetValue, hspins]; rfl
  | myread name tgid fibId tmpPid len off copied => rw [step, myread, hspins]; rfl

theorem LeavesHeld.step_eq (hheld : LeavesHeld s op) (h : Unlocked s) :
    step P op s = .ok ({ s with lockListaProcessi := true }, some (-1)) := by
  cases op with
  | flsGetValue c pos =>
    rw [step, flsGetValue_held h hheld]
    rfl
  | _ => cases hheld

/-- Whether an operation waits depends on the lock alone. -/
theorem spins_iff : (∀ op, step P op s ≠ .error .spins) ↔ Unlocked s := by
  constructor
  · intro hall
    by_contra h
    exact hall (.fibOpen ⟨0, 0⟩) (step_held (Bool.not_eq_false _ ▸ h) _)
  · intro h op hspins
    by_cases hheld : LeavesHeld s op
    · rw [hheld.step_eq h] at hspins
      cases hspins
    · exact ((step_frees_iff h op).mpr hheld).of_error hspins rfl

/-- A run ends with the lock free when no step of it kept it. -/
theorem unlocked_iff_guarded (hrun : Run Unlocked (Step P) s tr) :
    Unlocked s ↔ Run Unlocked (Guarded (fun s op => ¬ LeavesHeld s op) (Step P)) s tr := by
  constructor
  · intro h
    induction hrun with
    | start hs => exact .start hs
    | @step s s' tr op _ hstep ih =>
      obtain ⟨out, hok⟩ := hstep
      have hbefore : Unlocked s := by
        by_contra hlocked
        rw [step_held (Bool.not_eq_false _ ▸ hlocked) op] at hok
        cases hok
      refine (ih hbefore).step ⟨⟨out, hok⟩, fun hheld => ?_⟩
      rw [hheld.step_eq hbefore] at hok
      cases hok
      cases h
  · refine Run.invariant (P := fun s _ => Unlocked s) (fun s hs => hs) ?_
    rintro s tr op s' - h ⟨⟨out, hok⟩, hheld⟩
    exact ((step_frees_iff h op).mpr hheld).of_ok hok

end run

/-- **Which returns keep the lock.** An operation that finds the lock free gives it back on every return, unless it is
`flsGetValue` on a position outside the arrays of the fiber that the caller runs. A run leaves the lock to the next
operation, whichever it is, exactly when no step of it was of this kind. -/
theorem lock_returned_iff (P : Printer) :
    (∀ s op, Unlocked s → (Frees (step P op s) ↔ ¬ LeavesHeld s op)) ∧
      ∀ s tr, Run Unlocked (Step P) s tr → ((∀ op, step P op s ≠ .error .spins) ↔
        Run Unlocked (Guarded (fun s op => ¬ LeavesHeld s op) (Step P)) s tr) :=
  ⟨fun _ op h => step_frees_iff h op, fun _ _ hrun => spins_iff.trans (unlocked_iff_guarded hrun)⟩

/-- Process 1 opens the device and its thread becomes a fiber. -/
theorem run_converted : ∃ s i p j node f, Run Unlocked (Step ⟨fun _ => [], BitVec.ofInt 64⟩) s
    [.fibConvert ⟨1, 1⟩ ⟨0, 5⟩, .fibOpen ⟨1, 1⟩] ∧ Unlocked s ∧ s.findProcesso 1 = some (i, p) ∧
    p.findRunner 1 = some (j, node) ∧ node.running = true ∧ node.fiber = some f ∧ f.fls ≠ none ∧ f.bitmapFls ≠ none := by
  have hstart : Unlocked { listaProcessi := [], lockListaProcessi := false, cpu := fun _ => {} } := rfl
  have hopen : Run Unlocked (Step ⟨fun _ => [], BitVec.ofInt 64⟩) _ [.fibOpen ⟨1, 1⟩] :=
    (Run.start hstart).step ⟨some 0, rfl⟩
  have hrun := hopen.step (e := .fibConvert ⟨1, 1⟩ ⟨0, 5⟩) ⟨some 1, rfl⟩
  refine ⟨_, _, _, _, _, _, hrun, rfl, rfl, rfl, rfl, rfl, ?_, ?_⟩
  · exact Option.some_ne_none _
  · exact Option.some_ne_none _

/-- The fiber asks for its first position. -/
theorem lock_returned_iff_converted : ∃ s, Frees (step ⟨fun _ => [], BitVec.ofInt 64⟩ (.flsGetValue ⟨1, 1⟩ 0) s) ∧
    ∀ op, step ⟨fun _ => [], BitVec.ofInt 64⟩ op s ≠ .error .spins := by
  obtain ⟨s, -, -, -, -, -, hrun, hfree, -⟩ := run_converted
  obtain ⟨hstep, hruns⟩ := lock_returned_iff ⟨fun _ => [], BitVec.ofInt 64⟩
  refine ⟨s, (hstep s _ hfree).mpr fun hheld => hheld.1 (by decide), ?_⟩
  exact (hruns s _ hrun).mpr ((unlocked_iff_guarded hrun).mp hfree)

/-- The fiber asks for position 4096: the call returns -1 with the lock taken, and no operation after it gets it. -/
theorem get_keeps_lock : ∃ s s', Unlocked s ∧
    step ⟨fun _ => [], BitVec.ofInt 64⟩ (.flsGetValue ⟨1, 1⟩ 4096) s = .ok (s', some (-1)) ∧
    s'.lockListaProcessi = true ∧ (∀ op, step ⟨fun _ => [], BitVec.ofInt 64⟩ op s' = .error .spins) ∧
    ¬ Frees (step ⟨fun _ => [], BitVec.ofInt 64⟩ (.flsGetValue ⟨1, 1⟩ 4096) s) := by
  obtain ⟨s, i, p, j, node, f, -, hfree, hp, hj, hrunning, hf, hfls, hbitmap⟩ := run_converted
  have hheld : LeavesHeld s (.flsGetValue ⟨1, 1⟩ 4096) :=
    ⟨by decide, i, p, j, node, f, hp, hj, hrunning, hf, hfls, hbitmap⟩
  refine ⟨s, _, hfree, hheld.step_eq hfree, rfl, step_held rfl, ?_⟩
  rw [step_frees_iff hfree, not_not]
  exact hheld

end LinuxFibers.Lists
