import Mathlib.Logic.Function.Basic

/-!
# Variables in cells of their own

Variables that are kept in the cells of a shared array: each variable is given a cell at some time, and no cell is given
twice. Then whoever goes through the array sees variables that nobody else changes (`Private.take`, `Private.store`).
-/

namespace PrivateCells

variable {ν κ V : Type}

/-- The array `value` with the variables `x` in it; a cell that is not given holds `zero`, as does a variable that has
no cell. -/
structure Private (cell : ν → Option κ) (value : κ → V) (zero : V) (x : ν → V) : Prop where
  injective : ∀ a b k, cell a = some k → cell b = some k → a = b
  held : ∀ a k, cell a = some k → x a = value k
  free : ∀ k, (∀ a, cell a ≠ some k) → value k = zero
  unborn : ∀ a, cell a = none → x a = zero

variable {cell : ν → Option κ} {value : κ → V} {zero : V} {x : ν → V}

theorem Private.start (cell : ν → Option κ) (zero : V) (h : ∀ a, cell a = none) :
    Private cell (fun _ => zero) zero fun _ => zero where
  injective a _ k ha := by
    rw [h a] at ha
    cases ha
  held _ _ _ := rfl
  free _ _ := rfl
  unborn _ _ := rfl

variable [DecidableEq ν]

/-- A variable is given a cell that no variable has. -/
theorem Private.take (h : Private cell value zero x) {a : ν} {k : κ} (ha : cell a = none)
    (hk : ∀ b, cell b ≠ some k) : Private (Function.update cell a (some k)) value zero x := by
  have hother : ∀ b j, Function.update cell a (some k) b = some j → b ≠ a → cell b = some j := by
    intro b j hb hne
    rwa [Function.update_of_ne hne] at hb
  have hself : ∀ b j, Function.update cell a (some k) b = some j → b = a → j = k := by
    rintro b j hb rfl
    rw [Function.update_self] at hb
    exact (Option.some.inj hb).symm
  refine ⟨fun b c j hb hc => ?_, fun b j hb => ?_, fun j hj => ?_, fun b hb => ?_⟩
  · by_cases hba : b = a
    · by_cases hca : c = a
      · rw [hba, hca]
      · exact absurd (hself b j hb hba ▸ hother c j hc hca) (hk c)
    · by_cases hca : c = a
      · exact absurd (hself c j hc hca ▸ hother b j hb hba) (hk b)
      · exact h.injective b c j (hother b j hb hba) (hother c j hc hca)
  · by_cases hba : b = a
    · -- the cell has not been written yet
      rw [hself b j hb hba, h.free k hk, hba]
      exact h.unborn a ha
    · exact h.held b j (hother b j hb hba)
  · refine h.free j fun b hb => ?_
    have hne : b ≠ a := by
      rintro rfl
      rw [ha] at hb
      cases hb
    exact hj b (by rw [Function.update_of_ne hne]; exact hb)
  · have hne : b ≠ a := by
      rintro rfl
      rw [Function.update_self] at hb
      cases hb
    rw [Function.update_of_ne hne] at hb
    exact h.unborn b hb

/-- A variable is assigned through its cell. -/
theorem Private.store [DecidableEq κ] (h : Private cell value zero x) {a : ν} {k : κ} (ha : cell a = some k) (v : V) :
    Private cell (Function.update value k v) zero (Function.update x a v) := by
  refine ⟨h.injective, fun b j hb => ?_, fun j hj => ?_, fun b hb => ?_⟩
  · by_cases hba : b = a
    · subst hba
      obtain rfl := Option.some.inj (ha.symm.trans hb)
      rw [Function.update_self, Function.update_self]
    · have hjk : j ≠ k := fun hjk => hba (h.injective b a j hb (hjk ▸ ha))
      rw [Function.update_of_ne hba, Function.update_of_ne hjk]
      exact h.held b j hb
  · have hjk : j ≠ k := fun hjk => hj a (hjk ▸ ha)
    rw [Function.update_of_ne hjk]
    exact h.free j hj
  · have hba : b ≠ a := by
      rintro rfl
      rw [ha] at hb
      cases hb
    rw [Function.update_of_ne hba]
    exact h.unborn b hb

end PrivateCells
