import LinuxFibers.Proof.Directory
import LinuxFibers.Proof.FlsBounds

/-!
# The operations that do not return

No test of the source keeps a creation inside the directory, an FLS index inside the arrays or the search of `flsAlloc`
off a full fiber. `Faults` lists what comes of it, and `step_error_iff` says that an operation on a state without two
entries of one process returns in every other case: no walk ends at a missing node.
-/

namespace LinuxFibers

open HeapTable

/-- The index that an operation is given. -/
def Op.index : Op → Option Int
  | .flsFree _ i | .flsGetValue _ i | .flsSetValue _ i _ => some i
  | _ => none

/-- Why an operation does not return. -/
inductive Faults (s : State) : Op → Fault → Prop
  | creation {op : Op} {b : Block Process} {e : Fault} (hb : b ∈ creationEntries op s) (he : b.val.Overflows e) :
      Faults s op e
  | alloc {c : Task} {f : Fiber} (hf : f ∈ currentFibers c s) (hfull : f.Full) : Faults s (.flsAlloc c) .outOfBounds
  | index {op : Op} {i : Int} {f : Fiber} (hop : op.index = some i) (hf : f ∈ currentFibers op.caller s)
      (hi : ¬ InRange i) : Faults s op .outOfBounds

/-- An operation without an index that allocates nothing fails for its new fibers alone. -/
theorem faults_creation {s : State} {op : Op} {e : Fault} (hop : op.index = none) (halloc : ∀ c, op ≠ .flsAlloc c) :
    Faults s op e ↔ ∃ b ∈ creationEntries op s, b.val.Overflows e := by
  constructor
  · intro h
    cases h with
    | creation hb he => exact ⟨_, hb, he⟩
    | alloc hf hfull => exact absurd rfl (halloc _)
    | index hop' hf hi =>
      rw [hop] at hop'
      cases hop'
  · rintro ⟨b, hb, he⟩
    exact .creation hb he

/-- An operation with an index fails for its index alone. -/
theorem faults_index {s : State} {op : Op} {i : Int} {e : Fault} (hop : op.index = some i) :
    Faults s op e ↔ ∃ f ∈ currentFibers op.caller s, ¬ InRange i ∧ e = .outOfBounds := by
  constructor
  · intro h
    cases h with
    | creation hb he =>
      cases op with
      | flsFree | flsGetValue | flsSetValue => cases hb
      | _ => cases hop
    | alloc hf hfull => cases hop
    | index hop' hf hi =>
      obtain rfl := Option.some.inj (hop.symm.trans hop')
      exact ⟨_, hf, hi, rfl⟩
  · rintro ⟨f, hf, hi, rfl⟩
    exact .index hop hf hi

section entry

variable {s : State} {c : Task} {p : Process}

theorem filter_lookup_none (hp : s.processi.lookup Process.id c.tgid = none) :
    s.processi.filter (fun b => b.val.id = c.tgid) = [] :=
  List.filter_eq_nil_iff.mpr fun b hb => by simpa using Table.lookup_eq_none.mp hp b hb

variable (hkeys : (s.processi.map fun b => b.val.id).Nodup)
include hkeys

theorem filter_lookup (hp : s.processi.lookup Process.id c.tgid = some p) :
    ∃ b, b.val = p ∧ s.processi.filter (fun b => b.val.id = c.tgid) = [b] := by
  obtain ⟨b, hb, hval, hid⟩ := Table.exists_of_lookup hp
  exact ⟨b, hval, Table.filter_key (fun b => b.val.id) hkeys hb (hval ▸ hid)⟩

/-- The fiber that an operation reaches is the one that the caller runs in the entry of its process. -/
theorem mem_currentFibers {f : Fiber} : f ∈ currentFibers c s ↔
    ∃ p, s.processi.lookup Process.id c.tgid = some p ∧ p.runningFiber c.pid = some f := by
  rw [currentFibers, visited]
  cases hp : s.processi.lookup Process.id c.tgid with
  | none => simp [filter_lookup_none hp]
  | some p =>
    obtain ⟨b, rfl, hb⟩ := filter_lookup hkeys hp
    simp [hb]

theorem exists_creation {e : Fault} (func parameters stackPointer stackSize : BitVec 64) :
    (∃ b ∈ creationEntries (.fibCreate c func parameters stackPointer stackSize) s, b.val.Overflows e) ↔
      ∃ p, s.processi.lookup Process.id c.tgid = some p ∧ p.Overflows e := by
  rw [creationEntries]
  cases hp : s.processi.lookup Process.id c.tgid with
  | none => simp [filter_lookup_none hp]
  | some p =>
    obtain ⟨b, rfl, hb⟩ := filter_lookup hkeys hp
    simp [hb]

theorem exists_conversion {e : Fault} (now : Timespec) :
    (∃ b ∈ creationEntries (.fibConvert c now) s, b.val.Overflows e) ↔
      ∃ p, s.processi.lookup Process.id c.tgid = some p ∧ (∀ t ∈ p.listathread, t.val.id ≠ c.pid) ∧ p.Overflows e := by
  rw [creationEntries]
  cases hp : s.processi.lookup Process.id c.tgid with
  | none => simp [filter_lookup_none hp]
  | some p =>
    obtain ⟨b, rfl, hb⟩ := filter_lookup hkeys hp
    rw [hb]
    by_cases hno : ∀ t ∈ b.val.listathread, t.val.id ≠ c.pid
    · rw [List.takeWhile_cons_of_pos (by simpa using hno)]
      simpa using fun _ => hno
    · rw [List.takeWhile_cons_of_neg (by simpa using hno)]
      simp [hno]

end entry

/-! ### The operations one by one -/

section operations

variable {n : Nat} {s : State} {c : Task} {e : Fault} (h : Reached n s)
  (hkeys : (s.processi.map fun b => b.val.id).Nodup)
include h hkeys

theorem fibConvert_error (now : Timespec) :
    fibConvert c now s = .error e ↔ ∃ b ∈ creationEntries (.fibConvert c now) s, b.val.Overflows e := by
  rw [exists_conversion hkeys, fibConvert, bind_ok_eq_error fun r => ⟨_, rfl⟩, forEachProcess_eq,
    Table.forEach_lookup_error hkeys]
  refine exists_congr fun p => and_congr_right fun hp => ?_
  obtain ⟨b, hb, rfl, -⟩ := Table.exists_of_lookup hp
  by_cases hno : ∀ t ∈ b.val.listathread, t.val.id ≠ c.pid
  · rw [convertProcess_new rfl hno, convertThread_error (reached_dirInv h b hb)]
    exact (and_iff_right hno).symm
  · refine iff_of_false (fun herror => ?_) fun hover => hno hover.1
    push Not at hno
    rw [convertProcess_keep (.inr hno)] at herror
    cases herror

theorem fibCreate_error (func parameters stackPointer stackSize : BitVec 64) :
    fibCreate c func parameters stackPointer stackSize s = .error e ↔
      ∃ b ∈ creationEntries (.fibCreate c func parameters stackPointer stackSize) s, b.val.Overflows e := by
  rw [exists_creation hkeys, fibCreate, bind_ok_eq_error fun r => ⟨_, rfl⟩, forEachProcess_eq,
    Table.forEach_lookup_error hkeys]
  refine exists_congr fun p => and_congr_right fun hp => ?_
  obtain ⟨b, hb, rfl, -⟩ := Table.exists_of_lookup hp
  exact createProcess_error (reached_dirInv h b hb) _

theorem fibSwitchTo_returns (id : Int) (now : Timespec) : fibSwitchTo c id now s ≠ .error e := by
  rw [fibSwitchTo, ne_eq, bind_ok_eq_error fun r => ⟨_, rfl⟩, forEachProcess_eq, Table.forEach_lookup_error hkeys]
  rintro ⟨p, hp, herror⟩
  obtain ⟨b, hb, rfl, -⟩ := Table.exists_of_lookup hp
  obtain ⟨p', x', hok, -⟩ := switchProcess_spec (reached_inv h b hb).toWf c id now ⟨s.kmem, s.cpu c, -1⟩
  rw [hok] at herror
  cases herror

/-- An operation on the running fiber fails where its body does. -/
theorem onRunner_fails {σ : Type} {body : Fiber → σ → Except Fault (Fiber × σ)} {x : σ} :
    onRunner c body s x = .error e ↔ ∃ f ∈ currentFibers c s, body f x = .error e := by
  rw [onRunner, bind_ok_eq_error fun r => ⟨_, rfl⟩, forEachProcess_eq, Table.forEach_lookup_error hkeys]
  simp only [mem_currentFibers hkeys]
  constructor
  · rintro ⟨p, hp, herror⟩
    obtain ⟨b, hb, rfl, -⟩ := Table.exists_of_lookup hp
    have hwf := (reached_inv h b hb).toWf
    rcases hwf.carries_or c.pid with hno | ⟨thread, r, f, hc⟩
    · rw [runnerProcess_none hno] at herror
      cases herror
    · rw [runnerProcess_eq hwf hc, bind_ok_eq_error fun r => ⟨_, rfl⟩] at herror
      exact ⟨f, ⟨b.val, hp, hc.runningFiber hwf⟩, herror⟩
  · rintro ⟨f, ⟨p, hp, hf⟩, herror⟩
    obtain ⟨b, hb, rfl, -⟩ := Table.exists_of_lookup hp
    have hwf := (reached_inv h b hb).toWf
    refine ⟨b.val, hp, ?_⟩
    rcases hwf.carries_or c.pid with hno | ⟨thread, r, g, hc⟩
    · rw [Process.runningFiber_none hno] at hf
      cases hf
    · rw [hc.runningFiber hwf] at hf
      obtain rfl := Option.some.inj hf
      rw [runnerProcess_eq hwf hc, bind_ok_eq_error fun r => ⟨_, rfl⟩]
      exact herror

end operations

section fls

variable {f : Fiber} {index pos val : Int} {e : Fault}

theorem flsAllocFiber_error : flsAllocFiber f (-1) = .error e ↔ f.Full ∧ e = .outOfBounds := by
  by_cases hfull : f.Full
  · rw [flsAllocFiber_full f hfull (by decide)]
    simp [hfull, eq_comm]
  · cases hfirst : firstClear f.bitmapFls.val with
    | none => exact absurd (firstClear_eq_none.mp hfirst) hfull
    | some i =>
      rw [flsAllocFiber_some f hfirst]
      simp [hfull]

theorem flsFreeFiber_error {ret : Bool} : flsFreeFiber index f ret = .error e ↔ ¬ InRange index ∧ e = .outOfBounds := by
  by_cases hin : InRange index
  · obtain ⟨i, rfl⟩ := hin.exists_fin
    rw [flsFreeFiber_eq]
    simp [hin]
  · rw [flsFreeFiber_out f hin]
    simp [hin, eq_comm]

theorem flsGetValueFiber_error {ret : Int} :
    flsGetValueFiber pos f ret = .error e ↔ ¬ InRange pos ∧ e = .outOfBounds := by
  by_cases hin : InRange pos
  · obtain ⟨i, rfl⟩ := hin.exists_fin
    rw [flsGetValueFiber_eq]
    simp [hin]
  · rw [flsGetValueFiber_out f hin]
    simp [hin, eq_comm]

theorem flsSetValueFiber_error : flsSetValueFiber pos val f () = .error e ↔ ¬ InRange pos ∧ e = .outOfBounds := by
  by_cases hin : InRange pos
  · obtain ⟨i, rfl⟩ := hin.exists_fin
    rw [flsSetValueFiber_eq]
    simp [hin]
  · rw [flsSetValueFiber_out f hin]
    simp [hin, eq_comm]

end fls

/-- **The faults of the driver.** In a reachable state without two entries of one process an operation does not return
exactly for one of the reasons. -/
theorem step_error_iff {n : Nat} {s : State} (h : Reached n s) (hkeys : (s.processi.map fun b => b.val.id).Nodup)
    (op : Op) (e : Fault) : step n op s = .error e ↔ Faults s op e := by
  cases op with
  | fibOpen | fibRelease | user =>
    rw [faults_creation rfl (fun _ => Op.noConfusion)]
    simp [step, creationEntries]
  | fibConvert c now =>
    rw [step, bind_ok_eq_error fun r => ⟨_, rfl⟩, fibConvert_error h hkeys, faults_creation rfl (fun _ => Op.noConfusion)]
  | fibCreate c func parameters stackPointer stackSize =>
    rw [step, bind_ok_eq_error fun r => ⟨_, rfl⟩, fibCreate_error h hkeys, faults_creation rfl (fun _ => Op.noConfusion)]
  | fibSwitchTo c id now =>
    rw [step, bind_ok_eq_error fun r => ⟨_, rfl⟩, faults_creation rfl (fun _ => Op.noConfusion)]
    refine iff_of_false (fibSwitchTo_returns h hkeys id now) ?_
    rintro ⟨b, hb, -⟩
    exact List.not_mem_nil hb
  | flsAlloc c =>
    rw [step, bind_ok_eq_error fun r => ⟨_, rfl⟩, flsAlloc, onRunner_fails h hkeys]
    simp only [flsAllocFiber_error]
    constructor
    · rintro ⟨f, hf, hfull, rfl⟩
      exact .alloc hf hfull
    · intro hfault
      cases hfault with
      | creation hb he => cases hb
      | alloc hf hfull => exact ⟨_, hf, hfull, rfl⟩
      | index hop hf hi => cases hop
  | flsFree c index =>
    rw [step, bind_ok_eq_error fun r => ⟨_, rfl⟩, flsFree, onRunner_fails h hkeys, faults_index rfl]
    simp only [flsFreeFiber_error, Op.caller]
  | flsGetValue c pos =>
    rw [step, bind_ok_eq_error fun r => ⟨_, rfl⟩, flsGetValue, onRunner_fails h hkeys, faults_index rfl]
    simp only [flsGetValueFiber_error, Op.caller]
  | flsSetValue c pos val =>
    rw [step, bind_ok_eq_error fun r => ⟨_, rfl⟩, flsSetValue, onRunner_fails h hkeys, faults_index rfl]
    simp only [flsSetValueFiber_error, Op.caller]

end LinuxFibers
