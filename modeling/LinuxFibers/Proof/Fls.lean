import LinuxFibers.Base.Storage
import LinuxFibers.Proof.Entry

/-!
# The fiber-local storage of one fiber

What each of the four operations does to the record of one fiber. The guard
`index < FLS_SIZE || index >= 0` that three of them share is true of every index (`guard_true`), so an
index outside the arrays reaches them.
-/

namespace LinuxFibers

open HeapTable SlotStorage

theorem inRange_fin (i : Fin flsSize) : InRange i := ⟨by omega, by have := i.isLt; omega⟩

theorem InRange.exists_fin {i : Int} (h : InRange i) : ∃ j : Fin flsSize, i = j := by
  obtain ⟨h0, h1⟩ := h
  exact ⟨⟨i.toNat, by omega⟩, by simp only; omega⟩

section arrays

variable {α : Type} (a : Fin flsSize → α) (v : α)

@[simp] theorem readAt_fin (i : Fin flsSize) : readAt a i = .ok (a i) := by
  rw [readAt, dif_pos (inRange_fin i)]
  rfl

@[simp] theorem writeAt_fin (i : Fin flsSize) : writeAt a i v = .ok (Function.update a i v) := by
  rw [writeAt, dif_pos (inRange_fin i)]
  rfl

theorem readAt_out {i : Int} (h : ¬ InRange i) : readAt a i = .error .outOfBounds := dif_neg h

theorem writeAt_out {i : Int} (h : ¬ InRange i) : writeAt a i v = .error .outOfBounds := dif_neg h

end arrays

theorem guard_true (i : Int) : i < flsSize ∨ i ≥ 0 := by
  by_cases h : i ≥ 0
  · exact .inr h
  · refine .inl ?_
    simp only [flsSize]
    omega

/-! ### The search of `flsAlloc` -/

/-- All slots of the fiber are in use. -/
def Fiber.Full (f : Fiber) : Prop := ∀ i, f.bitmapFls.val i ≠ 0

instance (f : Fiber) : Decidable f.Full := inferInstanceAs (Decidable (∀ _, _))

theorem firstClear_eq_none {bitmap : Fin flsSize → BitVec 64} :
    firstClear bitmap = none ↔ ∀ i, bitmap i ≠ 0 := by
  simp [firstClear]

/-- The search stops at the least clear index. -/
theorem firstClear_eq_some {bitmap : Fin flsSize → BitVec 64} {i : Fin flsSize} :
    firstClear bitmap = some i ↔ bitmap i = 0 ∧ ∀ j < i, bitmap j ≠ 0 := by
  simp [firstClear, find?_finRange]

/-! ### The four operations on one fiber -/

def setBit (f : Fiber) (i : Fin flsSize) (bit : BitVec 64) : Fiber :=
  { f with bitmapFls := { f.bitmapFls with val := Function.update f.bitmapFls.val i bit } }

def setFls (f : Fiber) (i : Fin flsSize) (v : Int) : Fiber :=
  { f with fls := { f.fls with val := Function.update f.fls.val i v } }

section fiber

variable (f : Fiber) (i : Fin flsSize)

theorem flsAllocFiber_some {i : Fin flsSize} (h : firstClear f.bitmapFls.val = some i) (index : Int) :
    flsAllocFiber f index = .ok (setBit f i 1, i) := by
  have hlt := (inRange_fin i).2
  simp only [flsAllocFiber, h, if_pos hlt, writeAt_fin, bind, Except.bind, setBit]

theorem flsAllocFiber_full (h : f.Full) {index : Int} (hindex : index < 0) :
    flsAllocFiber f index = .error .outOfBounds := by
  have hout : ¬ InRange index := fun hin => by have := hin.1; omega
  have hlt : index < flsSize := by simp only [flsSize]; omega
  simp only [flsAllocFiber, firstClear_eq_none.mpr h, if_pos hlt, writeAt_out _ _ hout, bind, Except.bind]

theorem flsFreeFiber_eq (ret : Bool) : flsFreeFiber i f ret =
    .ok (if f.bitmapFls.val i ≠ 0 then (setBit f i 0, true) else (f, ret)) := by
  simp only [flsFreeFiber, if_pos (guard_true i), readAt_fin, bind, Except.bind, writeAt_fin, setBit]
  split_ifs <;> rfl

theorem flsFreeFiber_out {index : Int} (h : ¬ InRange index) (ret : Bool) :
    flsFreeFiber index f ret = .error .outOfBounds := by
  simp only [flsFreeFiber, if_pos (guard_true index), readAt_out _ h, bind, Except.bind]

theorem flsGetValueFiber_eq (ret : Int) : flsGetValueFiber i f ret =
    .ok (f, if f.bitmapFls.val i ≠ 0 then f.fls.val i else ret) := by
  simp only [flsGetValueFiber, if_pos (guard_true i), readAt_fin, bind, Except.bind]
  split_ifs <;> rfl

theorem flsGetValueFiber_out {pos : Int} (h : ¬ InRange pos) (ret : Int) :
    flsGetValueFiber pos f ret = .error .outOfBounds := by
  simp only [flsGetValueFiber, if_pos (guard_true pos), readAt_out _ h, bind, Except.bind]

theorem flsSetValueFiber_eq (val : Int) (x : Unit) : flsSetValueFiber i val f x =
    .ok (if f.bitmapFls.val i ≠ 0 then setFls f i val else f, x) := by
  simp only [flsSetValueFiber, if_pos (guard_true i), readAt_fin, bind, Except.bind, writeAt_fin, setFls]
  split_ifs <;> rfl

theorem flsSetValueFiber_out {pos : Int} (h : ¬ InRange pos) (val : Int) (x : Unit) :
    flsSetValueFiber pos val f x = .error .outOfBounds := by
  simp only [flsSetValueFiber, if_pos (guard_true pos), readAt_out _ h, bind, Except.bind]

end fiber

/-! ### What the operations leave alone -/

/-- A body that changes nothing of the fiber but its two arrays. -/
def KeepsBinding {σ : Type} (body : Fiber → σ → Except Fault (Fiber × σ)) : Prop :=
  ∀ f x f' x', body f x = .ok (f', x') →
    ∃ fls bitmap, f' = { f with
      fls := { f.fls with val := fls }
      bitmapFls := { f.bitmapFls with val := bitmap } }

theorem flsAllocFiber_keeps : KeepsBinding flsAllocFiber := by
  intro f x f' x' hok
  cases hclear : firstClear f.bitmapFls.val with
  | some i =>
    rw [flsAllocFiber_some f hclear] at hok
    cases hok
    exact ⟨f.fls.val, _, rfl⟩
  | none =>
    simp only [flsAllocFiber, hclear] at hok
    split_ifs at hok with hlt
    · obtain ⟨bitmap, -, hok⟩ := bind_eq_ok.mp hok
      cases hok
      exact ⟨f.fls.val, bitmap, rfl⟩
    · cases hok
      exact ⟨f.fls.val, f.bitmapFls.val, rfl⟩

theorem flsFreeFiber_keeps (index : Int) : KeepsBinding (flsFreeFiber index) := by
  intro f x f' x' hok
  by_cases hin : InRange index
  · obtain ⟨i, rfl⟩ := hin.exists_fin
    rw [flsFreeFiber_eq] at hok
    split_ifs at hok with hbit
    · cases hok
      exact ⟨f.fls.val, _, rfl⟩
    · cases hok
      exact ⟨f.fls.val, f.bitmapFls.val, rfl⟩
  · rw [flsFreeFiber_out f hin] at hok
    cases hok

theorem flsGetValueFiber_keeps (pos : Int) : KeepsBinding (flsGetValueFiber pos) := by
  intro f x f' x' hok
  by_cases hin : InRange pos
  · obtain ⟨i, rfl⟩ := hin.exists_fin
    rw [flsGetValueFiber_eq] at hok
    cases hok
    exact ⟨f.fls.val, f.bitmapFls.val, rfl⟩
  · rw [flsGetValueFiber_out f hin] at hok
    cases hok

theorem flsSetValueFiber_keeps (pos val : Int) : KeepsBinding (flsSetValueFiber pos val) := by
  intro f x f' x' hok
  by_cases hin : InRange pos
  · obtain ⟨i, rfl⟩ := hin.exists_fin
    rw [flsSetValueFiber_eq] at hok
    split_ifs at hok with hbit
    · cases hok
      exact ⟨_, f.bitmapFls.val, rfl⟩
    · cases hok
      exact ⟨f.fls.val, f.bitmapFls.val, rfl⟩
  · rw [flsSetValueFiber_out f hin] at hok
    cases hok

end LinuxFibers
