import Mathlib.Data.Nat.ModEq
import Mathlib.Data.ZMod.Basic
import Mathlib.Dynamics.PeriodicPts.Defs
import Mathlib.GroupTheory.OrderOfElement
import Mathlib.Tactic.Ring

/-!
# Multiply with carry

A generator that multiplies the low digit of its state by `a` and adds the high part, in base `b`. It divides by `b`
modulo `a * b - 1` (`mul_step`), so below that modulus it permutes the states, and where the modulus is a prime every
state but 0 lies on a cycle whose length is the order of `b` (`minimalPeriod_step`).
-/

namespace Mwc

open Function

variable {a b x : Nat}

/-- The next state. -/
def step (a b x : Nat) : Nat := a * (x % b) + x / b

theorem modulus_succ (ha : 0 < a) (hb : 0 < b) : a * b - 1 + 1 = a * b :=
  Nat.sub_add_cancel (Nat.mul_pos ha hb)

/-- **A step divides by the base.** -/
theorem mul_step (ha : 0 < a) (hb : 0 < b) (x : Nat) : b * step a b x ≡ x [MOD a * b - 1] := by
  have hsplit : b * step a b x = x + (a * b - 1) * (x % b) := by
    have hm := modulus_succ ha hb
    calc b * step a b x = a * b * (x % b) + b * (x / b) := by rw [step]; ring
      _ = (a * b - 1 + 1) * (x % b) + b * (x / b) := by rw [hm]
      _ = (x % b + b * (x / b)) + (a * b - 1) * (x % b) := by ring
      _ = x + (a * b - 1) * (x % b) := by rw [Nat.mod_add_div]
  rw [hsplit]
  exact Nat.add_mul_mod_self_left ..

/-- 0 is left by no step and entered by none. -/
theorem step_eq_zero (ha : 0 < a) : step a b x = 0 ↔ x = 0 := by
  constructor
  · intro h
    obtain ⟨hlow, hhigh⟩ := Nat.add_eq_zero_iff.mp h
    have hlow := (Nat.mul_eq_zero.mp hlow).resolve_left ha.ne'
    rw [← Nat.mod_add_div x b, hlow, hhigh, Nat.mul_zero]
  · intro h
    rw [h, step, Nat.zero_mod, Nat.zero_div, Nat.mul_zero]

/-- The states below the modulus stay below it. -/
theorem step_lt (ha : 0 < a) (hb : 0 < b) (hx : x < a * b - 1) : step a b x < a * b - 1 := by
  have hm := modulus_succ ha hb
  have hlow := Nat.mod_lt x hb
  have hhigh : x / b < a := (Nat.div_lt_iff_lt_mul hb).mpr (by omega)
  by_cases hmax : x % b = b - 1
  · -- with the largest low digit the high part is not the largest
    have hhigh' : x / b + 1 < a := by
      by_contra hge
      have hx' := Nat.mod_add_div x b
      rw [hmax, show x / b = a - 1 by omega, Nat.mul_sub, Nat.mul_one, Nat.mul_comm b a] at hx'
      have hle : b ≤ a * b := Nat.le_mul_of_pos_left b ha
      omega
    have hmul : a * (x % b) = a * b - a := by rw [hmax, Nat.mul_sub, Nat.mul_one]
    have hle : a ≤ a * b := Nat.le_mul_of_pos_right a hb
    rw [step, hmul]
    omega
  · have hmul : a * (x % b) + 2 * a ≤ a * b := by
      rw [Nat.mul_comm 2 a, ← Nat.mul_add]
      exact Nat.mul_le_mul_left a (by omega)
    rw [step]
    omega

theorem coprime_modulus (ha : 0 < a) (hb : 0 < b) : Nat.Coprime (a * b - 1) b := by
  have hdvd : b ∣ a * b - 1 + 1 := by
    rw [modulus_succ ha hb]
    exact Nat.dvd_mul_left b a
  exact Nat.Coprime.coprime_dvd_right hdvd (by simp)

/-- After `n` steps the state is divided by the base `n` times. -/
theorem mul_iterate (ha : 0 < a) (hb : 0 < b) (n x : Nat) : b ^ n * (step a b)^[n] x ≡ x [MOD a * b - 1] := by
  induction n generalizing x with
  | zero => rw [pow_zero, Nat.one_mul, iterate_zero_apply]
  | succ n ih =>
    rw [iterate_succ_apply, pow_succ, Nat.mul_right_comm]
    calc b ^ n * (step a b)^[n] (step a b x) * b ≡ step a b x * b [MOD a * b - 1] := (ih _).mul_right b
      _ ≡ x [MOD a * b - 1] := by
        rw [Nat.mul_comm (step a b x)]
        exact mul_step ha hb x

theorem iterate_lt (ha : 0 < a) (hb : 0 < b) (hx : x < a * b - 1) (n : Nat) : (step a b)^[n] x < a * b - 1 := by
  induction n generalizing x with
  | zero => exact hx
  | succ n ih => exact ih (step_lt ha hb hx)

/-- A state below the modulus comes back when the base, multiplied that often, does not change it. -/
theorem isPeriodicPt_iff (ha : 0 < a) (hb : 0 < b) (hx : x < a * b - 1) (n : Nat) :
    IsPeriodicPt (step a b) n x ↔ b ^ n * x ≡ x [MOD a * b - 1] := by
  have hiterate := mul_iterate ha hb n x
  constructor
  · intro h
    rwa [show (step a b)^[n] x = x from h] at hiterate
  · intro h
    have hcancel := Nat.ModEq.cancel_left_of_coprime ((coprime_modulus ha hb).pow_right n) (hiterate.trans h.symm)
    exact hcancel.eq_of_lt_of_lt (iterate_lt ha hb hx n) hx

/-- **The length of a cycle** below a prime modulus is the order of the base, whatever the state. -/
theorem minimalPeriod_step (ha : 0 < a) (hb : 0 < b) (hprime : (a * b - 1).Prime) (hpos : 0 < x)
    (hx : x < a * b - 1) : minimalPeriod (step a b) x = orderOf (b : ZMod (a * b - 1)) := by
  have hcop : Nat.Coprime (a * b - 1) x := (hprime.coprime_iff_not_dvd).mpr (Nat.not_dvd_of_pos_of_lt hpos hx)
  have hiff : ∀ n, IsPeriodicPt (step a b) n x ↔ (b : ZMod (a * b - 1)) ^ n = 1 := by
    intro n
    rw [isPeriodicPt_iff ha hb hx]
    have hone : b ^ n * x ≡ x [MOD a * b - 1] ↔ b ^ n ≡ 1 [MOD a * b - 1] := by
      constructor
      · intro h
        exact Nat.ModEq.cancel_right_of_coprime hcop (by rwa [Nat.one_mul])
      · intro h
        have h' := h.mul_right x
        rwa [Nat.one_mul] at h'
    rw [hone, ← ZMod.natCast_eq_natCast_iff, Nat.cast_pow, Nat.cast_one]
  apply Nat.dvd_antisymm
  · exact IsPeriodicPt.minimalPeriod_dvd ((hiff _).mpr (pow_orderOf_eq_one _))
  · exact orderOf_dvd_of_pow_eq_one ((hiff _).mp (isPeriodicPt_minimalPeriod _ _))

end Mwc
