import Mathlib.Data.Fintype.Card
import Mathlib.Algebra.BigOperators.Group.Finset.Piecewise
import Mathlib.Algebra.Order.BigOperators.Group.Finset
import Mathlib.Tactic.Ring
import LinuxFibers.Base.Run

/-!
# Compare-and-swap loops

Each thread replaces the value of a shared cell by a function of it: it loads the cell, computes, and swaps the new value
in if the cell still holds what was loaded; otherwise it starts again. Under every schedule the threads that have swapped
have applied the function one after another (`run_order`), and every run of finitely many threads ends after at most
`n * n + n` steps (`run_length`).
-/

namespace Cas

open Runs
open Function (update)

inductive Pc (α : Type)
  | ready
  | loaded (old : α)
  | done (value : α)

structure State (T α : Type) where
  cell : α
  pc : T → Pc α

inductive Event (T : Type)
  | load (t : T)
  | swap (t : T)
  | retry (t : T)

variable {T α : Type} [DecidableEq T]

inductive Step (f : α → α) : State T α → Event T → State T α → Prop
  | load {s : State T α} {t : T} (h : s.pc t = .ready) :
      Step f s (.load t) { s with pc := update s.pc t (.loaded s.cell) }
  | swap {s : State T α} {t : T} (h : s.pc t = .loaded s.cell) :
      Step f s (.swap t) { cell := f s.cell, pc := update s.pc t (.done (f s.cell)) }
  | retry {s : State T α} {t : T} {old : α} (h : s.pc t = .loaded old) (hne : old ≠ s.cell) :
      Step f s (.retry t) { s with pc := update s.pc t .ready }

def Start (c : α) (s : State T α) : Prop := s.cell = c ∧ ∀ t, s.pc t = .ready

/-- The thread that swaps. -/
def Event.swapper : Event T → Option T
  | .swap t => some t
  | _ => none

/-- The threads that have swapped, the last one first. -/
def swapped (tr : List (Event T)) : List T := tr.filterMap Event.swapper

variable {f : α → α} {c : α} {s s' : State T α} {e : Event T} {tr : List (Event T)}

/-! ### The order of the swaps -/

/-- The threads in `ts` have applied the function in turn, the last one first, and no other thread is done. -/
structure Order (f : α → α) (c : α) (s : State T α) (ts : List T) : Prop where
  cell : s.cell = f^[ts.length] c
  nodup : ts.Nodup
  value : ∀ us t vs, ts = us ++ t :: vs → s.pc t = .done (f^[vs.length + 1] c)
  mem : ∀ t v, s.pc t = .done v → t ∈ ts

/-- A step that ends no loop. -/
theorem Order.update {ts : List T} {t : T} {p : Pc α} (h : Order f c s ts) (hbefore : ∀ v, s.pc t ≠ .done v)
    (hafter : ∀ v, p ≠ .done v) : Order f c { s with pc := update s.pc t p } ts where
  cell := h.cell
  nodup := h.nodup
  value us u vs hts := by
    have hu := h.value us u vs hts
    have hne : u ≠ t := fun hut => hbefore _ (hut ▸ hu)
    rw [← hu]
    exact Function.update_of_ne hne _ _
  mem u v hu := by
    by_cases hut : u = t
    · subst hut
      simp only [Function.update_self] at hu
      exact absurd hu (hafter v)
    · simp only [Function.update_of_ne hut] at hu
      exact h.mem u v hu

theorem Order.swap {ts : List T} {t : T} (h : Order f c s ts) (ht : s.pc t = .loaded s.cell) :
    Order f c { cell := f s.cell, pc := Function.update s.pc t (.done (f s.cell)) } (t :: ts) := by
  have hcell : f s.cell = f^[ts.length + 1] c := by rw [h.cell, Function.iterate_succ_apply']
  have hnew : t ∉ ts := by
    intro hmem
    obtain ⟨us, vs, hts⟩ := List.append_of_mem hmem
    have hdone := h.value us t vs hts
    rw [ht] at hdone
    cases hdone
  refine ⟨hcell, List.nodup_cons.mpr ⟨hnew, h.nodup⟩, ?_, ?_⟩
  · intro us u vs hts
    cases us with
    | nil =>
      obtain ⟨rfl, rfl⟩ := List.cons.inj hts
      simp only [Function.update_self, hcell]
    | cons x us =>
      obtain ⟨-, rfl⟩ := List.cons.inj hts
      have hne : u ≠ t := fun hut => hnew (hut ▸ List.mem_append_right _ List.mem_cons_self)
      simp only [Function.update_of_ne hne]
      exact h.value us u vs rfl
  · intro u v hu
    by_cases hut : u = t
    · exact hut ▸ List.mem_cons_self
    · simp only [Function.update_of_ne hut] at hu
      exact List.mem_cons_of_mem _ (h.mem u v hu)

/-- **The loops take effect one after another**: in every run the cell and the values of the threads that are done are
those of applying the function in the order of the swaps. -/
theorem run_order (hrun : Run (Start c) (Step f) s tr) : Order f c s (swapped tr) := by
  refine hrun.invariant (P := fun s tr => Order f c s (swapped tr)) ?_ ?_
  · rintro s ⟨hcell, hready⟩
    refine ⟨hcell, List.nodup_nil, ?_, ?_⟩
    · intro us t vs hts
      exact absurd hts.symm (List.append_ne_nil_of_right_ne_nil us (List.cons_ne_nil t vs))
    · intro t v ht
      rw [hready t] at ht
      cases ht
  · intro s tr e s' _ h hstep
    cases hstep with
    | load ht => exact h.update (fun v hv => by rw [ht] at hv; cases hv) fun v hv => by cases hv
    | swap ht => exact h.swap ht
    | retry ht _ => exact h.update (fun v hv => by rw [ht] at hv; cases hv) fun v hv => by cases hv

omit [DecidableEq T] in
/-- The values of the threads that are done, in the order of the swaps. -/
theorem Order.map_value {ts : List T} (h : Order f c s ts) {g : T → α} (hg : ∀ t v, s.pc t = .done v → g t = v) :
    ts.reverse.map g = (List.range ts.length).map fun i => f^[i + 1] c := by
  have hsuffix : ∀ vs us, ts = us ++ vs → vs.reverse.map g = (List.range vs.length).map fun i => f^[i + 1] c := by
    intro vs
    induction vs with
    | nil => exact fun _ _ => rfl
    | cons t vs ih =>
      intro us hts
      rw [List.reverse_cons, List.map_append, ih (us ++ [t]) (by rw [hts, List.append_assoc]; rfl), List.length_cons,
        List.range_succ, List.map_append]
      exact congrArg _ (congrArg (fun v => [v]) (hg t _ (h.value us t vs hts)))
  exact hsuffix ts [] rfl

/-! ### Progress -/

def Pc.isDone : Pc α → Bool
  | .done _ => true
  | _ => false

section work

variable [Fintype T] [DecidableEq α]

/-- The steps a thread still takes if nobody else swaps. -/
def Pc.left (cell : α) : Pc α → Nat
  | .ready => 2
  | .loaded old => if old = cell then 1 else 3
  | .done _ => 0

/-- The number of threads that are not done. -/
def State.looping (s : State T α) : Nat := (Finset.univ.filter fun t => (s.pc t).isDone = false).card

/-- The steps all threads may still take: a swap costs every other thread that is not done two more. -/
def State.work (s : State T α) : Nat := ∑ t, (s.pc t).left s.cell + s.looping * (s.looping - 1)

/-- A step that leaves the cell. -/
theorem work_lt_of_update {t : T} {p : Pc α} (hdone : p.isDone = (s.pc t).isDone)
    (hleft : p.left s.cell < (s.pc t).left s.cell) : State.work { s with pc := update s.pc t p } < s.work := by
  have hlooping : State.looping { s with pc := update s.pc t p } = s.looping := by
    refine congrArg Finset.card (Finset.filter_congr fun u _ => ?_)
    by_cases hu : u = t
    · subst hu
      simp only [Function.update_self, hdone]
    · simp only [Function.update_of_ne hu]
  have hsum : ∑ u, (update s.pc t p u).left s.cell < ∑ u, (s.pc u).left s.cell := by
    apply Finset.sum_lt_sum
    · intro u _
      by_cases hu : u = t
      · subst hu
        rw [Function.update_self]
        exact hleft.le
      · rw [Function.update_of_ne hu]
    · refine ⟨t, Finset.mem_univ t, ?_⟩
      rw [Function.update_self]
      exact hleft
  unfold State.work
  rw [hlooping]
  exact Nat.add_lt_add_right hsum _

/-- A swap: one thread less, and two more steps for each of the others. -/
theorem work_lt_of_swap {t : T} {v : α} (ht : s.pc t = .loaded s.cell) :
    State.work { cell := v, pc := update s.pc t (.done v) } < s.work := by
  obtain ⟨P, hP⟩ : ∃ P : Finset T, P = Finset.univ.filter fun u => (s.pc u).isDone = false := ⟨_, rfl⟩
  have hmem : t ∈ P := by rw [hP, Finset.mem_filter, ht]; exact ⟨Finset.mem_univ t, rfl⟩
  have hlooping : s.looping = P.card := by rw [hP]; rfl
  have hlooping' : State.looping { cell := v, pc := update s.pc t (.done v) } = (P.erase t).card := by
    refine congrArg Finset.card (Finset.ext fun u => ?_)
    rw [Finset.mem_filter, Finset.mem_erase, hP, Finset.mem_filter]
    by_cases hu : u = t
    · subst hu
      simp [Pc.isDone]
    · simp [hu]
  have hleft : ∀ u, (update s.pc t (.done v) u).left v + (if u = t then 1 else 0) ≤
      (s.pc u).left s.cell + (if u ∈ P.erase t then 2 else 0) := by
    intro u
    by_cases hu : u = t
    · subst hu
      simp [ht, Pc.left]
    · rw [Function.update_of_ne hu, if_neg hu, Nat.add_zero]
      by_cases hdone : u ∈ P
      · rw [if_pos (Finset.mem_erase.mpr ⟨hu, hdone⟩)]
        cases s.pc u with
        | ready => exact Nat.le_add_right _ _
        | loaded old => simp only [Pc.left]; split_ifs <;> omega
        | done w => exact Nat.zero_le _
      · rw [if_neg fun h => hdone (Finset.mem_of_mem_erase h), Nat.add_zero]
        have hu' : (s.pc u).isDone = true := by
          rw [hP, Finset.mem_filter] at hdone
          simpa using hdone
        cases hpc : s.pc u with
        | ready => rw [hpc] at hu'; cases hu'
        | loaded old => rw [hpc] at hu'; cases hu'
        | done w => exact le_rfl
  have hsum := Finset.sum_le_sum (s := Finset.univ) fun u _ => hleft u
  rw [Finset.sum_add_distrib, Finset.sum_add_distrib, Finset.sum_ite_eq', if_pos (Finset.mem_univ t),
    Finset.sum_ite_mem, Finset.univ_inter, Finset.sum_const, Nat.nsmul_eq_mul] at hsum
  have hcard : P.card = (P.erase t).card + 1 := by
    rw [Finset.card_erase_of_mem hmem]
    have := Finset.card_pos.mpr ⟨t, hmem⟩
    omega
  unfold State.work
  rw [hlooping, hlooping', hcard]
  show ∑ u, (update s.pc t (.done v) u).left v + _ < _
  generalize (P.erase t).card = k at hsum ⊢
  have hpoly : k * (k - 1) + k * 2 = (k + 1) * (k + 1 - 1) := by
    cases k with
    | zero => rfl
    | succ k => simp only [Nat.add_sub_cancel]; ring
  omega

theorem Step.work_lt (h : Step f s e s') : s'.work < s.work := by
  cases h with
  | load ht => exact work_lt_of_update (by rw [ht]; rfl) (by rw [ht]; simp [Pc.left])
  | swap ht => exact work_lt_of_swap ht
  | retry ht hne => exact work_lt_of_update (by rw [ht]; rfl) (by rw [ht]; simp [Pc.left, hne])

/-- **Every schedule ends**: no thread can be made to loop forever. -/
theorem run_length (hrun : Run (Start c) (Step f) s tr) :
    tr.length ≤ Fintype.card T * Fintype.card T + Fintype.card T := by
  have hstart : ∀ s : State T α, Start c s → s.work ≤ Fintype.card T * Fintype.card T + Fintype.card T := by
    rintro s ⟨-, hready⟩
    have hlooping : s.looping = Fintype.card T := by
      refine congrArg Finset.card (Finset.filter_eq_self.mpr fun t _ => ?_)
      rw [hready t]
      rfl
    have hsum : ∑ t, (s.pc t).left s.cell = Fintype.card T * 2 := by
      simp only [hready, Pc.left, Finset.sum_const, Finset.card_univ, Nat.nsmul_eq_mul]
    rw [State.work, hlooping, hsum]
    cases Fintype.card T with
    | zero => rfl
    | succ k =>
      rw [Nat.add_sub_cancel]
      apply le_of_eq
      ring
  have h := hrun.length_add_le hstart fun s e s' => Step.work_lt
  omega

end work

end Cas
