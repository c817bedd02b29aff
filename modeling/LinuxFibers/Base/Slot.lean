import Mathlib.Data.Set.Insert
import Mathlib.Logic.Function.Basic

/-!
# References that are given back through one slot

References to objects are taken and given back, `taken` and `back` count them object by object. Only what one slot
remembers is ever given back: `owed` is the object it remembers, if any, and taking references again overwrites it.
The two counts stay apart by what is owed (`Exact`) as long as one reference is taken at a time, into an empty slot.
Once that fails a reference is lost, and the counts never meet again.
-/

namespace SlotReferences

variable {κ : Type} {taken back : κ → Nat} {owed : Set κ}

/-- No more has been given back, or will be, than was taken. -/
structure Bounded (taken back : κ → Nat) (owed : Set κ) : Prop where
  le : ∀ k, back k ≤ taken k
  lt : ∀ k ∈ owed, back k < taken k

/-- What has not been given back is owed. -/
structure Exact (taken back : κ → Nat) (owed : Set κ) : Prop where
  unsettled : ∀ k ∈ owed, taken k = back k + 1
  settled : ∀ k ∉ owed, taken k = back k

theorem exact_empty : Exact taken back ∅ ↔ ∀ k, taken k = back k := by
  constructor
  · intro h k
    exact h.settled k (Set.notMem_empty k)
  · intro h
    exact ⟨fun k hk => hk.elim, fun k _ => h k⟩

theorem bounded_zero : Bounded (fun _ : κ => 0) (fun _ => 0) ∅ where
  le _ := le_refl 0
  lt _ hk := hk.elim

variable [DecidableEq κ] {n : Nat} {k : κ}

/-- Taking references to `k`, which the slot remembers as one. -/
theorem Bounded.take (h : Bounded taken back owed) (hn : 0 < n) :
    Bounded (Function.update taken k (taken k + n)) back {k} := by
  have hk := h.le k
  refine ⟨fun j => ?_, fun j hj => ?_⟩
  · by_cases hjk : j = k
    · subst hjk
      rw [Function.update_self]
      omega
    · rw [Function.update_of_ne hjk]
      exact h.le j
  · obtain rfl := Set.mem_singleton_iff.mp hj
    rw [Function.update_self]
    omega

/-- Giving back what is owed. -/
theorem Bounded.give (h : Bounded taken back owed) (hk : k ∈ owed) :
    Bounded taken (Function.update back k (back k + 1)) ∅ := by
  have hlt := h.lt k hk
  refine ⟨fun j => ?_, fun j hj => hj.elim⟩
  by_cases hjk : j = k
  · subst hjk
    rw [Function.update_self]
    omega
  · rw [Function.update_of_ne hjk]
    exact h.le j

/-- Nothing is lost exactly if a single reference is taken into an empty slot. -/
theorem exact_take (h : Bounded taken back owed) (hn : 0 < n) :
    Exact (Function.update taken k (taken k + n)) back {k} ↔ Exact taken back owed ∧ n = 1 ∧ owed = ∅ := by
  constructor
  · intro hexact
    have hk := hexact.unsettled k (Set.mem_singleton k)
    rw [Function.update_self] at hk
    have hle := h.le k
    have hsettled : ∀ j, taken j = back j := by
      intro j
      by_cases hjk : j = k
      · subst hjk
        omega
      · have hj := hexact.settled j (by simpa using hjk)
        rwa [Function.update_of_ne hjk] at hj
    have hempty : owed = ∅ := by
      rw [Set.eq_empty_iff_forall_notMem]
      intro j hj
      have hlt := h.lt j hj
      have := hsettled j
      omega
    refine ⟨?_, by omega, hempty⟩
    rw [hempty]
    exact exact_empty.mpr hsettled
  · rintro ⟨hexact, rfl, rfl⟩
    have hsettled := exact_empty.mp hexact
    refine ⟨fun j hj => ?_, fun j hj => ?_⟩
    · obtain rfl := Set.mem_singleton_iff.mp hj
      rw [Function.update_self, hsettled j]
    · have hjk : j ≠ k := by simpa using hj
      rw [Function.update_of_ne hjk]
      exact hsettled j

/-- Giving back neither loses a reference nor makes up for one. -/
theorem exact_give : Exact taken (Function.update back k (back k + 1)) ∅ ↔ Exact taken back {k} := by
  rw [exact_empty]
  constructor
  · intro h
    refine ⟨fun j hj => ?_, fun j hj => ?_⟩
    · obtain rfl := Set.mem_singleton_iff.mp hj
      have hk := h j
      rwa [Function.update_self] at hk
    · have hjk : j ≠ k := by simpa using hj
      have hj' := h j
      rwa [Function.update_of_ne hjk] at hj'
  · intro h j
    by_cases hjk : j = k
    · subst hjk
      rw [Function.update_self]
      exact h.unsettled j (Set.mem_singleton j)
    · rw [Function.update_of_ne hjk]
      exact h.settled j (by simpa using hjk)

end SlotReferences
