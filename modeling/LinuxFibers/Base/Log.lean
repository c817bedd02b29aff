import Mathlib.Data.List.Count
import Mathlib.Data.List.Perm.Basic

/-!
# Logs of several threads

A log lists what threads have done, each item with its thread, oldest first. What each thread has done in
turn determines the log up to the order.
-/

namespace ThreadLog

variable {T α β : Type} [DecidableEq T]

/-- What belongs to the thread `t`. -/
def ofThread (t : T) (l : List (T × α)) : List α := (l.filter fun x => x.1 = t).map Prod.snd

theorem ofThread_append_self (t : T) (l : List (T × α)) (xs : List α) :
    ofThread t (l ++ xs.map (Prod.mk t)) = ofThread t l ++ xs := by
  have hall : (xs.map (Prod.mk t)).filter (fun x => x.1 = t) = xs.map (Prod.mk t) :=
    List.filter_eq_self.mpr fun x hx => by
      obtain ⟨y, -, rfl⟩ := List.mem_map.mp hx
      exact decide_eq_true rfl
  rw [ofThread, List.filter_append, hall, List.map_append, List.map_map]
  exact congrArg _ (List.map_id xs)

theorem ofThread_append_ne {t u : T} (hu : u ≠ t) (l : List (T × α)) (xs : List α) :
    ofThread u (l ++ xs.map (Prod.mk t)) = ofThread u l := by
  have hnone : (xs.map (Prod.mk t)).filter (fun x => x.1 = u) = [] :=
    List.filter_eq_nil_iff.mpr fun x hx => by
      obtain ⟨y, -, rfl⟩ := List.mem_map.mp hx
      simp [hu.symm]
  rw [ofThread, List.filter_append, hnone, List.append_nil]
  rfl

theorem ofThread_snoc_self (t : T) (l : List (T × α)) (x : α) :
    ofThread t (l ++ [(t, x)]) = ofThread t l ++ [x] :=
  ofThread_append_self t l [x]

theorem ofThread_snoc_ne {t u : T} (hu : u ≠ t) (l : List (T × α)) (x : α) :
    ofThread u (l ++ [(t, x)]) = ofThread u l :=
  ofThread_append_ne hu l [x]

theorem mem_ofThread {t : T} {l : List (T × α)} {x : α} : x ∈ ofThread t l ↔ (t, x) ∈ l := by
  simp [ofThread]

theorem ofThread_map (f : α → β) (t : T) (l : List (T × α)) :
    ofThread t (l.map fun x => (x.1, f x.2)) = (ofThread t l).map f := by
  simp only [ofThread, List.filter_map, List.map_map]
  rfl

theorem count_ofThread [DecidableEq α] (t : T) (x : α) (l : List (T × α)) :
    (ofThread t l).count x = l.count (t, x) := by
  induction l with
  | nil => rfl
  | cons y l ih =>
    obtain ⟨u, y⟩ := y
    rw [List.count_cons, ← ih]
    by_cases hu : u = t
    · subst hu
      simp [ofThread, List.count_cons]
    · have hne : ((u, y) == (t, x)) = false := by simp [hu]
      simp [ofThread, hu]

/-- Logs in which every thread has done the same are permutations of each other. -/
theorem perm_of_ofThread [DecidableEq α] {l l' : List (T × α)} (h : ∀ t, ofThread t l = ofThread t l') :
    l.Perm l' := by
  rw [List.perm_iff_count]
  intro ⟨t, x⟩
  rw [← count_ofThread, ← count_ofThread, h]

end ThreadLog
