import Mathlib.Data.BitVec
import Mathlib.Data.List.Nodup
import Mathlib.Tactic.SplitIfs

/-!
# Bitmaps packed in words

Bit `i` of a list of `w`-bit words is bit `i % w` of word `i / w`. The operations are the usual ones with a mask; a set
and a reset change one bit (`test_set`, `test_reset`), and so one member of the list of the bits that are set.
-/

namespace Bitmap

variable {w : Nat}

def checkBit (b : BitVec w) (k : Nat) : Bool := b &&& (1#w <<< k) ≠ 0

def setBit (b : BitVec w) (k : Nat) : BitVec w := b ||| (1#w <<< k)

def resetBit (b : BitVec w) (k : Nat) : BitVec w := b &&& ~~~(1#w <<< k)

/-- A bit past the last word is clear. -/
def test (l : List (BitVec w)) (i : Nat) : Bool := (l[i / w]?.map fun b => checkBit b (i % w)).getD false

def set (l : List (BitVec w)) (i : Nat) : List (BitVec w) := l.modify (i / w) fun b => setBit b (i % w)

def reset (l : List (BitVec w)) (i : Nat) : List (BitVec w) := l.modify (i / w) fun b => resetBit b (i % w)

/-- The bits below `n` that are set. -/
def bits (n : Nat) (l : List (BitVec w)) : List Nat := (List.range n).filter fun i => test l i

/-! ### One word -/

section word

variable {b : BitVec w} {j k : Nat}

theorem checkBit_eq : checkBit b k = b.getLsbD k := by
  rw [checkBit, ← BitVec.twoPow_eq, BitVec.and_twoPow]
  cases hk : b.getLsbD k with
  | false => simp
  | true =>
    have hlt : k < w := BitVec.lt_of_getLsbD hk
    rw [if_pos rfl, decide_eq_true_iff]
    intro hzero
    have hbit := congrArg (fun x => BitVec.getLsbD x k) hzero
    simp [hlt] at hbit

theorem checkBit_setBit (hk : k < w) : checkBit (setBit b k) j = (checkBit b j || decide (j = k)) := by
  rw [checkBit_eq, checkBit_eq, setBit, ← BitVec.twoPow_eq, BitVec.getLsbD_or, BitVec.getLsbD_twoPow]
  simp [hk, eq_comm]

theorem checkBit_resetBit (hk : k < w) : checkBit (resetBit b k) j = (checkBit b j && decide (j ≠ k)) := by
  rw [checkBit_eq, checkBit_eq, resetBit, ← BitVec.twoPow_eq, BitVec.getLsbD_and, BitVec.getLsbD_not,
    BitVec.getLsbD_twoPow]
  by_cases hj : j < w
  · simp [hk, hj, eq_comm]
  · simp [BitVec.getLsbD_of_ge b j (by omega)]

end word

/-! ### All words -/

section words

variable {l : List (BitVec w)} {i j n : Nat}

@[simp] theorem length_set : (set l i).length = l.length := List.length_modify _ _ _

@[simp] theorem length_reset : (reset l i).length = l.length := List.length_modify _ _ _

/-- Two bits of one word are told apart by their place in it. -/
theorem eq_iff_mod (hword : j / w = i / w) : j = i ↔ j % w = i % w := by
  refine ⟨fun h => by rw [h], fun hmod => ?_⟩
  rw [← Nat.div_add_mod j w, ← Nat.div_add_mod i w, hword, hmod]

theorem test_set (hw : 0 < w) (hi : i / w < l.length) : test (set l i) j = (test l j || decide (j = i)) := by
  unfold test set
  by_cases hword : j / w = i / w
  · have hb : l[i / w]? = some l[i / w] := List.getElem?_eq_getElem hi
    rw [hword, List.getElem?_modify_eq, hb]
    simp only [Option.map_eq_map, Option.map_some, Option.getD_some, checkBit_setBit (Nat.mod_lt i hw), eq_iff_mod hword]
  · have hne : j ≠ i := fun h => hword (by rw [h])
    rw [List.getElem?_modify_ne _ _ (Ne.symm hword)]
    simp [hne]

theorem test_reset (hw : 0 < w) : test (reset l i) j = (test l j && decide (j ≠ i)) := by
  unfold test reset
  by_cases hword : j / w = i / w
  · rw [hword, List.getElem?_modify_eq]
    cases l[i / w]? with
    | none => rfl
    | some b =>
      simp only [Option.map_eq_map, Option.map_some, Option.getD_some, checkBit_resetBit (Nat.mod_lt i hw), ne_eq,
        eq_iff_mod hword]
  · have hne : j ≠ i := fun h => hword (by rw [h])
    rw [List.getElem?_modify_ne _ _ (Ne.symm hword)]
    simp [hne]

theorem mem_bits : i ∈ bits n l ↔ i < n ∧ test l i = true := by
  rw [bits, List.mem_filter, List.mem_range]

theorem nodup_bits : (bits n l).Nodup := List.nodup_range.filter _

/-- A bit that is set joins the list. -/
theorem bits_set (hw : 0 < w) (hword : i / w < l.length) (hi : i < n) (hclear : test l i = false) :
    (bits n (set l i)).Perm (i :: bits n l) := by
  have hnot : i ∉ bits n l := by
    rw [mem_bits, hclear]
    simp
  refine (List.perm_ext_iff_of_nodup nodup_bits (List.nodup_cons.mpr ⟨hnot, nodup_bits⟩)).mpr fun j => ?_
  rw [mem_bits, test_set hw hword, List.mem_cons, mem_bits]
  by_cases hj : j = i
  · simp [hj, hi]
  · simp [hj]

/-- A bit that is reset leaves it. -/
theorem bits_reset (hw : 0 < w) (hi : i ∈ bits n l) : (bits n l).Perm (i :: bits n (reset l i)) := by
  have hnot : i ∉ bits n (reset l i) := by
    rw [mem_bits, test_reset hw]
    simp
  refine (List.perm_ext_iff_of_nodup nodup_bits (List.nodup_cons.mpr ⟨hnot, nodup_bits⟩)).mpr fun j => ?_
  rw [List.mem_cons, mem_bits, mem_bits, test_reset hw]
  by_cases hj : j = i
  · simp [hj, mem_bits.mp hi]
  · simp [hj]

/-- One bit is clear as long as they are not all set. -/
theorem exists_clear (hlen : (bits n l).length < n) : ∃ i < n, test l i = false := by
  by_contra hall
  push Not at hall
  have hfull : bits n l = List.range n := by
    refine List.filter_eq_self.mpr fun i hi => ?_
    simpa using hall i (List.mem_range.mp hi)
  rw [hfull, List.length_range] at hlen
  exact lt_irrefl n hlen

end words

end Bitmap
