import Mathlib.NumberTheory.LucasPrimality
import Mathlib.Tactic.NormNum.Prime
import Mathlib.Tactic.ReduceModChar
import Mathlib.Data.BitVec
import LinuxFibers.Base.Mwc
import LinuxFibers.Base.Run
import Mathlib.Tactic.Positivity
import Mathlib.Data.Rat.Lemmas
import Mathlib.Algebra.Order.Field.Basic
import Mathlib.Algebra.Order.Field.Rat

/-!
# The random numbers of the simulation

`Random` of `numerical.c`: two multiply-with-carry generators in the halves of a 64-bit seed, which each thread draws
from `random()` when it is 0. `random()` returns less than 2^31, so the second generator starts at 0 and stays there,
and all numbers come from the first one; `random_cycle` says how long it takes to repeat itself.

* A `double` is an exact rational, and the constant is the decimal in the source.
-/

namespace LinuxFibers.Numerical

open Runs Function

/-- `master_seed`. -/
abbrev Seed := BitVec 64

/-- `*seed1`, the next one. -/
def nextSeed1 (seed1 : BitVec 32) : BitVec 32 := 36969#32 * (seed1 &&& 0xFFFF#32) + (seed1 >>> 16)

/-- `*seed2`, the next one. -/
def nextSeed2 (seed2 : BitVec 32) : BitVec 32 := 18000#32 * (seed2 &&& 0xFFFF#32) + (seed2 >>> 16)

/-- `if(master_seed == 0) master_seed = random();` -/
def Seed.reseed (drawn : Nat) (seed : Seed) : Seed := if seed = 0 then BitVec.ofNat 64 drawn else seed

/-- `Random`, with what `random ()` would return. -/
def random (drawn : Nat) (seed : Seed) : ℚ × Seed :=
  let seed := seed.reseed drawn
  let seed1 := nextSeed1 (seed.setWidth 32)
  let seed2 := nextSeed2 ((seed >>> 32).setWidth 32)
  let mixed : BitVec 32 := (seed1 <<< 16) + (seed1 >>> 16) + seed2
  (((mixed.toNat + 1) * 2328306435454494 : Nat) / ((10 ^ 25 : Nat) : ℚ), seed2 ++ seed1)

/-- The result is strictly between 0 and 1. -/
theorem random_between (drawn : Nat) (seed : Seed) : 0 < (random drawn seed).1 ∧ (random drawn seed).1 < 1 := by
  have hden : (0 : ℚ) < ((10 ^ 25 : Nat) : ℚ) := by positivity
  unfold random
  refine ⟨?_, ?_⟩
  · exact div_pos (by positivity) hden
  · rw [div_lt_one hden, Nat.cast_lt]
    generalize (nextSeed1 _ <<< 16) + (nextSeed1 _ >>> 16) + nextSeed2 _ = mixed
    have := mixed.isLt
    omega

/-- The first generator is multiply with carry, without overflow. -/
theorem nextSeed1_eq (seed1 : BitVec 32) : (nextSeed1 seed1).toNat = Mwc.step 36969 65536 seed1.toNat := by
  have hand : (seed1 &&& 0xFFFF#32).toNat = seed1.toNat % 65536 := by
    rw [BitVec.toNat_and]
    exact Nat.and_two_pow_sub_one_eq_mod seed1.toNat 16
  have hlt := seed1.isLt
  rw [nextSeed1, BitVec.toNat_add, BitVec.toNat_mul, hand, BitVec.toNat_ushiftRight, Nat.shiftRight_eq_div_pow,
    Mwc.step]
  show (36969 * (seed1.toNat % 65536) % 2 ^ 32 + seed1.toNat / 2 ^ 16) % 2 ^ 32 = _
  omega

/-- The modulus of the first generator. -/
def modulus : Nat := 36969 * 65536 - 1

/-- A seed whose second half is 0 and whose first half is below the modulus. -/
def Seed.Low (seed : Seed) : Prop := seed.toNat < modulus

/-- The second generator stays at 0. -/
theorem random_low {drawn : Nat} {seed : Seed} (hlow : (seed.reseed drawn).Low) :
    (random drawn seed).2.toNat = Mwc.step 36969 65536 (seed.reseed drawn).toNat := by
  unfold random
  generalize seed.reseed drawn = seed at hlow
  have hsmall : seed.toNat < 2422800383 := hlow
  have hhigh : (seed >>> 32).setWidth 32 = (0 : BitVec 32) := by
    bv_omega
  have hseed1 : (seed.setWidth 32).toNat = seed.toNat := by
    rw [BitVec.toNat_setWidth]
    omega
  simp only [hhigh]
  rw [BitVec.toNat_append, show nextSeed2 0 = 0 by decide, nextSeed1_eq, hseed1]
  simp

/-! ### The cycle -/

/-- Half of the modulus, less one half. -/
def cycle : Nat := 36969 * 32768 - 1

theorem cycle_prime : cycle.Prime := by
  show Nat.Prime 1211400191
  refine lucas_primality 1211400191 7 (by reduce_mod_char) fun q hq hdvd => ?_
  have hfactors : 1211400191 - 1 = 2 * 5 * 7 * 11 * 13 * 121019 := by norm_num
  have hlast : Nat.Prime 121019 := by norm_num
  rw [hfactors, hq.dvd_mul, hq.dvd_mul, hq.dvd_mul, hq.dvd_mul, hq.dvd_mul,
    Nat.prime_dvd_prime_iff_eq hq Nat.prime_two, Nat.prime_dvd_prime_iff_eq hq (by norm_num),
    Nat.prime_dvd_prime_iff_eq hq (by norm_num), Nat.prime_dvd_prime_iff_eq hq (by norm_num),
    Nat.prime_dvd_prime_iff_eq hq (by norm_num), Nat.prime_dvd_prime_iff_eq hq hlast] at hdvd
  obtain ((((rfl | rfl) | rfl) | rfl) | rfl) | rfl := hdvd
  all_goals
    reduce_mod_char
    decide

theorem modulus_prime : modulus.Prime := by
  show Nat.Prime 2422800383
  refine lucas_primality 2422800383 5 (by reduce_mod_char) fun q hq hdvd => ?_
  have hfactors : 2422800383 - 1 = 2 * cycle := by decide
  rw [hfactors, hq.dvd_mul, Nat.prime_dvd_prime_iff_eq hq Nat.prime_two,
    Nat.prime_dvd_prime_iff_eq hq cycle_prime] at hdvd
  obtain rfl | rfl := hdvd
  · reduce_mod_char
    decide
  · show (5 : ZMod 2422800383) ^ ((2422800383 - 1) / 1211400191) ≠ 1
    reduce_mod_char
    decide

theorem orderOf_base : orderOf ((65536 : Nat) : ZMod modulus) = cycle := by
  have : Fact cycle.Prime := ⟨cycle_prime⟩
  apply orderOf_eq_prime
  · have hpow : (65536 : ZMod 2422800383) ^ 1211400191 = 1 := by reduce_mod_char
    rw [show ((65536 : Nat) : ZMod modulus) = (65536 : ZMod 2422800383) from Nat.cast_ofNat]
    exact hpow
  · show ((65536 : Nat) : ZMod 2422800383) ≠ 1
    decide

/-! ### Runs -/

/-- What is drawn from `random ()`, if it is, and the result. -/
abbrev Drawn := Nat × ℚ

def Seed.Step (seed : Seed) (e : Drawn) (seed' : Seed) : Prop := e.1 < 2 ^ 31 ∧ random e.1 seed = (e.2, seed')

/-- The seed after some more calls. -/
def Seed.after (seed : Seed) (draws : List Nat) : Seed := draws.foldl (fun seed drawn => (random drawn seed).2) seed

theorem reseed_low {drawn : Nat} {seed : Seed} (hdrawn : drawn < 2 ^ 31) (h : seed.Low) :
    (seed.reseed drawn).Low := by
  unfold Seed.reseed
  split
  · show (BitVec.ofNat 64 drawn).toNat < 2422800383
    rw [BitVec.toNat_ofNat]
    omega
  · exact h

theorem run_low {seed : Seed} {tr : List Drawn} (hrun : Run (· = 0) Seed.Step seed tr) : seed.Low := by
  refine hrun.invariant (P := fun seed _ => seed.Low) (fun seed h => ?_) fun seed _ e seed' _ h hstep => ?_
  · rw [h]
    show (0 : Nat) < 2422800383
    omega
  · obtain ⟨hdrawn, hrandom⟩ := hstep
    obtain rfl : (random e.1 seed).2 = seed' := congrArg Prod.snd hrandom
    have hlow := reseed_low hdrawn h
    show _ < _
    rw [random_low hlow]
    exact Mwc.step_lt (by decide) (by decide) hlow

/-- A seed that is not 0 is never drawn again: the calls step the first generator. -/
theorem after_low {seed : Seed} (hlow : seed.Low) (hne : seed ≠ 0) (draws : List Nat) :
    (seed.after draws).toNat = (Mwc.step 36969 65536)^[draws.length] seed.toNat := by
  induction draws generalizing seed with
  | nil => rfl
  | cons drawn draws ih =>
    have hkept : seed.reseed drawn = seed := if_neg hne
    have hstep : (random drawn seed).2.toNat = Mwc.step 36969 65536 seed.toNat := by
      rw [random_low (by rwa [hkept]), hkept]
    have hlow' : Seed.Low (random drawn seed).2 := by
      show _ < _
      rw [hstep]
      exact Mwc.step_lt (by decide) (by decide) hlow
    have hne' : (random drawn seed).2 ≠ 0 := by
      intro hzero
      rw [hzero] at hstep
      exact hne (BitVec.eq_of_toNat_eq ((Mwc.step_eq_zero (by decide)).mp hstep.symm))
    rw [List.length_cons, iterate_succ_apply, ← hstep]
    exact ih hlow' hne'

/-- **The numbers of a thread repeat themselves after 1211400191 calls and no earlier.** In every run of a thread, every
result lies strictly between 0 and 1 and the second generator stays at 0. Once the seed is not 0 `random()` plays no
part any more: after any further calls the seed is that of the first generator, on a cycle of a prime number of states
that 0 is not on. -/
theorem random_cycle {seed : Seed} {tr : List Drawn} (hrun : Run (· = 0) Seed.Step seed tr) :
    (∀ e ∈ tr, 0 < e.2 ∧ e.2 < 1) ∧ seed.toNat < 2 ^ 32 ∧
      (seed ≠ 0 → (∀ draws, (seed.after draws).toNat = (Mwc.step 36969 65536)^[draws.length] seed.toNat) ∧
        minimalPeriod (Mwc.step 36969 65536) seed.toNat = 1211400191) := by
  refine ⟨?_, ?_, fun hne => ⟨after_low (run_low hrun) hne, ?_⟩⟩
  · refine hrun.invariant (P := fun _ tr => ∀ e ∈ tr, 0 < e.2 ∧ e.2 < 1) (fun _ _ e he => by cases he) ?_
    intro seed tr e seed' _ ih hstep x hx
    obtain rfl | hx := List.mem_cons.mp hx
    · rw [← show (random x.1 seed).1 = x.2 from congrArg Prod.fst hstep.2]
      exact random_between x.1 seed
    · exact ih x hx
  · have hlow : seed.toNat < 2422800383 := run_low hrun
    omega
  · have hpos : 0 < seed.toNat := Nat.pos_of_ne_zero fun h => hne (BitVec.eq_of_toNat_eq h)
    rw [Mwc.minimalPeriod_step (by decide) (by decide) modulus_prime hpos (run_low hrun)]
    exact orderOf_base

theorem random_cycle_once : ∃ seed : Seed, seed ≠ 0 ∧
    minimalPeriod (Mwc.step 36969 65536) seed.toNat = 1211400191 := by
  have hstart : Run (· = 0) Seed.Step 0 [] := .start rfl
  have hrun : Run (· = 0) Seed.Step (random 1 0).2 [(1, (random 1 0).1)] := hstart.step ⟨by decide, rfl⟩
  exact ⟨_, by decide, ((random_cycle hrun).2.2 (by decide)).2⟩

end LinuxFibers.Numerical
