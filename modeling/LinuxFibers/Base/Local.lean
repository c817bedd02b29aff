import Mathlib.Data.Set.Lattice
import Mathlib.Order.CompletePartialOrder
import Mathlib.Logic.Function.Basic

/-!
# Sequences of local actions

Threads that share a state made of cells, where each thread, while it runs a sequence of actions, is the only
one to touch the cells it owns. `Pending` relates the state to the one in which every sequence that has
begun is already complete: beginning a sequence is one atomic change of that second state, and the
actions themselves do not show in it.
-/

namespace LocalActions

variable {S ι T : Type} {V : ι → Type} (get : S → (i : ι) → V i)

/-- An action that changes and depends on no cell outside `C`. -/
structure IsLocal (C : Set ι) (f : S → S) : Prop where
  frame : ∀ s i, i ∉ C → get (f s) i = get s i
  congr : ∀ s s', (∀ i ∈ C, get s i = get s' i) → ∀ i ∈ C, get (f s) i = get (f s') i

/-- The actions one after another. -/
def exec : List (S → S) → S → S
  | [], s => s
  | f :: fs, s => exec fs (f s)

variable {get} {C D : Set ι} {f : S → S} {fs : List (S → S)}

theorem isLocal_exec (h : ∀ f ∈ fs, IsLocal get C f) : IsLocal get C (exec fs) := by
  induction fs with
  | nil => exact ⟨fun _ _ _ => rfl, fun _ _ hs => hs⟩
  | cons f fs ih =>
    have hf := h f List.mem_cons_self
    have hfs := ih fun g hg => h g (List.mem_cons_of_mem _ hg)
    refine ⟨fun s i hi => ?_, fun s s' hs => ?_⟩
    · rw [exec, hfs.frame _ i hi, hf.frame s i hi]
    · exact hfs.congr _ _ (hf.congr s s' hs)

variable (get)

/-- The state `s`, in which the thread `t` owns the cells `own t` and has still to run the actions `todo t`,
and the state `a` in which it has run them. -/
structure Pending (own : T → Set ι) (todo : T → List (S → S)) (s a : S) : Prop where
  isLocal : ∀ t, ∀ f ∈ todo t, IsLocal get (own t) f
  disjoint : ∀ t u, t ≠ u → Disjoint (own t) (own u)
  free : ∀ i, (∀ t, i ∉ own t) → get a i = get s i
  owned : ∀ t, ∀ i ∈ own t, get a i = get (exec (todo t) s) i

namespace Pending

variable {get} {own : T → Set ι} {todo : T → List (S → S)} {s a : S} {t : T}

/-- With nothing begun the two states are one. -/
theorem start (s : S) : Pending get (fun _ : T => ∅) (fun _ => []) s s where
  isLocal _ _ hf := absurd hf List.not_mem_nil
  disjoint _ _ _ := Set.disjoint_empty _
  free _ _ := rfl
  owned _ _ hi := hi.elim

/-- A cell of `C` that belongs to no thread, when `C` is disjoint from what the threads own. -/
theorem unowned (hC : ∀ u, Disjoint C (own u)) {i : ι} (hi : i ∈ C) (u : T) : i ∉ own u :=
  fun hu => Set.disjoint_left.mp (hC u) hi hu

/-- When every thread has given its cells back the two states agree everywhere. -/
theorem quiescent (h : Pending get own todo s a) (hown : ∀ t, own t = ∅) (i : ι) : get a i = get s i := by
  refine h.free i fun t hi => ?_
  rw [hown t] at hi
  exact hi

/-- One action on cells that nobody owns happens in both states. -/
theorem atomic (h : Pending get own todo s a) (hC : ∀ u, Disjoint C (own u)) (hf : IsLocal get C f) :
    Pending get own todo (f s) (f a) := by
  refine ⟨h.isLocal, h.disjoint, fun i hi => ?_, fun u i hi => ?_⟩
  · by_cases hiC : i ∈ C
    · exact hf.congr a s (fun j hj => h.free j (unowned hC hj)) i hiC
    · rw [hf.frame a i hiC, hf.frame s i hiC, h.free i hi]
  · rw [hf.frame a i fun hiC => Set.disjoint_left.mp (hC u) hiC hi, h.owned u i hi]
    refine (isLocal_exec (h.isLocal u)).congr _ _ (fun j hj => ?_) i hi
    exact (hf.frame s j fun hjC => Set.disjoint_left.mp (hC u) hjC hj).symm

variable [DecidableEq T]

/-- The next action of a sequence does not show. -/
theorem advance (h : Pending get own todo s a) (ht : todo t = f :: fs) :
    Pending get own (Function.update todo t fs) (f s) a := by
  have hf : IsLocal get (own t) f := h.isLocal t f (by simp [ht])
  refine ⟨fun u => ?_, h.disjoint, fun i hi => ?_, fun u i hi => ?_⟩
  · by_cases hu : u = t
    · subst hu
      rw [Function.update_self]
      exact fun g hg => h.isLocal u g (by simp [ht, hg])
    · rw [Function.update_of_ne hu]
      exact h.isLocal u
  · rw [h.free i hi, hf.frame s i (hi t)]
  · by_cases hu : u = t
    · subst hu
      rw [Function.update_self, h.owned u i hi, ht]
      rfl
    · -- the other sequences read nothing of what has changed
      rw [Function.update_of_ne hu, h.owned u i hi]
      refine (isLocal_exec (h.isLocal u)).congr _ _ (fun j hj => ?_) i hi
      exact (hf.frame s j fun hjt => Set.disjoint_left.mp (h.disjoint u t hu) hj hjt).symm

/-- A sequence begins on cells that nobody owns: it is complete at once in the second state. -/
theorem begin (h : Pending get own todo s a) (hown : own t = ∅) (hC : ∀ u, Disjoint C (own u))
    (hfs : ∀ f ∈ fs, IsLocal get C f) :
    Pending get (Function.update own t C) (Function.update todo t fs) s (exec fs a) := by
  have hlocal := isLocal_exec hfs
  have hagree : ∀ i ∈ C, get a i = get s i := fun i hi => h.free i (unowned hC hi)
  refine ⟨fun u => ?_, fun u v huv => ?_, fun i hi => ?_, fun u i hi => ?_⟩
  · by_cases hu : u = t
    · subst hu
      rw [Function.update_self, Function.update_self]
      exact hfs
    · rw [Function.update_of_ne hu, Function.update_of_ne hu]
      exact h.isLocal u
  · by_cases hu : u = t
    · subst hu
      rw [Function.update_self, Function.update_of_ne huv.symm]
      exact hC v
    · rw [Function.update_of_ne hu]
      by_cases hv : v = t
      · subst hv
        rw [Function.update_self]
        exact (hC u).symm
      · rw [Function.update_of_ne hv]
        exact h.disjoint u v huv
  · have hiC : i ∉ C := by
      have := hi t
      rwa [Function.update_self] at this
    rw [hlocal.frame a i hiC]
    refine h.free i fun u hiu => ?_
    by_cases hu : u = t
    · rw [hu, hown] at hiu
      exact hiu
    · have := hi u
      rw [Function.update_of_ne hu] at this
      exact this hiu
  · by_cases hu : u = t
    · subst hu
      rw [Function.update_self] at hi ⊢
      exact hlocal.congr a s hagree i hi
    · rw [Function.update_of_ne hu] at hi ⊢
      rw [hlocal.frame a i fun hiC => Set.disjoint_left.mp (hC u) hiC hi]
      exact h.owned u i hi

/-- A thread whose sequence is complete gives its cells back. -/
theorem finish (h : Pending get own todo s a) (ht : todo t = []) :
    Pending get (Function.update own t ∅) todo s a := by
  refine ⟨fun u => ?_, fun u v huv => ?_, fun i hi => ?_, fun u i hi => ?_⟩
  · by_cases hu : u = t
    · subst hu
      simp [ht]
    · rw [Function.update_of_ne hu]
      exact h.isLocal u
  · by_cases hu : u = t
    · subst hu
      rw [Function.update_self]
      exact Set.empty_disjoint _
    · rw [Function.update_of_ne hu]
      by_cases hv : v = t
      · subst hv
        rw [Function.update_self]
        exact Set.disjoint_empty _
      · rw [Function.update_of_ne hv]
        exact h.disjoint u v huv
  · by_cases hit : i ∈ own t
    · rw [h.owned t i hit, ht]
      rfl
    · refine h.free i fun u hiu => ?_
      by_cases hu : u = t
      · exact hit (hu ▸ hiu)
      · have := hi u
        rw [Function.update_of_ne hu] at this
        exact this hiu
  · by_cases hu : u = t
    · subst hu
      rw [Function.update_self] at hi
      exact hi.elim
    · rw [Function.update_of_ne hu] at hi
      exact h.owned u i hi

end Pending

end LocalActions
