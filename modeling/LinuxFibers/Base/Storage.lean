import Mathlib.Data.Finset.Insert
import Mathlib.Data.Fintype.Basic
import Mathlib.Data.List.FinRange

/-!
# Values with a word each

An array of values and an array of words: a value is in use while its word is not 0. `Slots` is what the two arrays
stand for, the indices in use and their values, and `ofArrays_set`, `ofArrays_clear` and `ofArrays_store` say what an
assignment to an element of either array does to it. An array is searched for a word from the front
(`find?_finRange`).
-/

namespace SlotStorage

/-- The indices in use and a value for every index. -/
structure Slots (n : Nat) (V : Type) where
  live : Finset (Fin n)
  value : Fin n → V

variable {n : Nat} {V B : Type}

namespace Slots

def empty [Zero V] : Slots n V := { live := ∅, value := fun _ => 0 }

def take (F : Slots n V) (i : Fin n) : Slots n V := { F with live := insert i F.live }

def drop (F : Slots n V) (i : Fin n) : Slots n V := { F with live := F.live.erase i }

def store (F : Slots n V) (i : Fin n) (v : V) : Slots n V := { F with value := Function.update F.value i v }

section update

variable {F : Slots n V} {i j : Fin n} {v : V}

@[simp] theorem mem_take : j ∈ (F.take i).live ↔ j = i ∨ j ∈ F.live := Finset.mem_insert

@[simp] theorem mem_drop : j ∈ (F.drop i).live ↔ j ≠ i ∧ j ∈ F.live := Finset.mem_erase

@[simp] theorem store_value_self : (F.store i v).value i = v := Function.update_self ..

@[simp] theorem store_value_ne (h : j ≠ i) : (F.store i v).value j = F.value j := Function.update_of_ne h ..

@[simp] theorem live_empty [Zero V] : (empty : Slots n V).live = ∅ := rfl

end update

/-- The two arrays. -/
def ofArrays [Zero B] [DecidableEq B] (word : Fin n → B) (value : Fin n → V) : Slots n V :=
  { live := Finset.univ.filter fun i => word i ≠ 0, value := value }

theorem take_eq_self {F : Slots n V} {i : Fin n} (h : i ∈ F.live) : F.take i = F := by
  rw [take, Finset.insert_eq_self.mpr h]

section arrays

variable [Zero B] [DecidableEq B] {word : Fin n → B} {value : Fin n → V} {i : Fin n} {b : B}

theorem mem_ofArrays : i ∈ (ofArrays word value).live ↔ word i ≠ 0 := by simp [ofArrays]

theorem ofArrays_zero [Zero V] : ofArrays (fun _ : Fin n => (0 : B)) (fun _ => (0 : V)) = empty := by
  simp [ofArrays, empty]

theorem ofArrays_set (hb : b ≠ 0) : ofArrays (Function.update word i b) value = (ofArrays word value).take i := by
  have hlive : (ofArrays (Function.update word i b) value).live = insert i (ofArrays word value).live := by
    ext j
    rw [mem_ofArrays, Finset.mem_insert, mem_ofArrays]
    by_cases hj : j = i
    · simp [hj, hb]
    · simp [hj]
  rw [take, ← hlive]
  rfl

theorem ofArrays_clear : ofArrays (Function.update word i 0) value = (ofArrays word value).drop i := by
  have hlive : (ofArrays (Function.update word i 0) value).live = (ofArrays word value).live.erase i := by
    ext j
    rw [mem_ofArrays, Finset.mem_erase, mem_ofArrays]
    by_cases hj : j = i
    · simp [hj]
    · simp [hj]
  rw [drop, ← hlive]
  rfl

theorem ofArrays_store {v : V} : ofArrays word (Function.update value i v) = (ofArrays word value).store i v := rfl

end arrays

end Slots

/-! ### The search from the front -/

theorem find?_finRange {p : Fin n → Bool} {i : Fin n} :
    (List.finRange n).find? p = some i ↔ p i = true ∧ ∀ j < i, p j = false := by
  rw [List.find?_eq_some_iff_getElem]
  constructor
  · rintro ⟨hi, k, hk, rfl, hlt⟩
    refine ⟨hi, fun j hj => ?_⟩
    have hjk : j.val < k := by simpa [Fin.lt_def] using hj
    simpa using hlt j.val hjk
  · rintro ⟨hi, hlt⟩
    refine ⟨hi, i.val, by simp, by simp, fun j hj => ?_⟩
    simpa using hlt ⟨j, by omega⟩ (by simpa [Fin.lt_def] using hj)

end SlotStorage
