import Mathlib.Tactic.Ring
import LinuxFibers.Proof.Names

/-!
# The two hashes of a fiber id

`fib_create` and `fib_convert` insert a fiber under a key of type `pid_t`, and `myread` looks for it under a key of
type `unsigned long`. `statistics_found_iff` says for which ids the two buckets are the same, so that the statistics of
the fiber can be read. They are for every id up to 5322 (`sameBucket_of_le`) and for none above 8435332
(`SameBucket.le`): 99.8 % of the positive values of a `pid_t` are filed where `myread` does not look.
-/

namespace LinuxFibers

open HeapTable

/-- The constant for eight bytes is a little less than that for four, 32 bits up. -/
theorem golden_ratio : 0x61C8864680B583EB + 0x7F4A7C15 = 0x61C88647 * 2 ^ 32 := by
  decide

/-- What the eight-byte constant falls short of does not reach the upper ten bits of the product. -/
def SameBucket (k : Nat) : Prop := k * 0x7F4A7C15 ≤ k * 0x61C88647 % 2 ^ 22 * 2 ^ 32

instance : DecidablePred SameBucket := fun _ => inferInstanceAs (Decidable (_ ≤ _))

/-- The upper ten bits of a number that falls short of one whose upper bits are known. -/
theorem top_bits_iff {long short q h l : Nat} (hh : h < 2 ^ 10) (hl : l < 2 ^ 22) (hshort : short < 2 ^ 62)
    (hsum : long + short = q * 2 ^ 64 + h * 2 ^ 54 + l * 2 ^ 32) :
    long % 2 ^ 64 / 2 ^ 54 = h ↔ short ≤ l * 2 ^ 32 := by
  constructor
  · intro htop
    by_contra hlt
    omega
  · intro hle
    have hlong : long = q * 2 ^ 64 + (h * 2 ^ 54 + (l * 2 ^ 32 - short)) := by omega
    have hrest : l * 2 ^ 32 - short < 2 ^ 54 := by omega
    generalize l * 2 ^ 32 - short = rest at hlong hrest
    omega

/-- The longer product, from the parts of the shorter one. -/
theorem hashLong_eq {k q h l : Nat} (hk : k < 2 ^ 31) (hh : h < 2 ^ 10) (hl : l < 2 ^ 22)
    (hprod : k * 0x61C88647 = q * 2 ^ 32 + h * 2 ^ 22 + l) :
    hashLong k = h ↔ k * 0x7F4A7C15 ≤ l * 2 ^ 32 := by
  have hlong : k * 0x61C8864680B583EB + k * 0x7F4A7C15 = q * 2 ^ 64 + h * 2 ^ 54 + l * 2 ^ 32 := by
    calc k * 0x61C8864680B583EB + k * 0x7F4A7C15 = k * 0x61C88647 * 2 ^ 32 := by
          rw [← Nat.mul_add, golden_ratio, Nat.mul_assoc]
      _ = q * 2 ^ 64 + h * 2 ^ 54 + l * 2 ^ 32 := by
          rw [hprod]
          ring
  exact top_bits_iff hh hl (by omega) hlong

theorem hashMin_natCast {k : Nat} (hk : k < 2 ^ 31) : hashMin k = k * 0x61C88647 % 2 ^ 32 / 2 ^ 22 := by
  have hkey : ((k : Int) % 2 ^ 32).toNat = k := by omega
  rw [hashMin, hkey]

theorem hashMin_eq_hashLong_iff {k : Nat} (hk : k < 2 ^ 31) : hashMin k = hashLong k ↔ SameBucket k := by
  have hprod : k * 0x61C88647 = k * 0x61C88647 / 2 ^ 32 * 2 ^ 32 +
      k * 0x61C88647 % 2 ^ 32 / 2 ^ 22 * 2 ^ 22 + k * 0x61C88647 % 2 ^ 22 := by omega
  have hh : k * 0x61C88647 % 2 ^ 32 / 2 ^ 22 < 2 ^ 10 := by omega
  have hl : k * 0x61C88647 % 2 ^ 22 < 2 ^ 22 := Nat.mod_lt _ (by decide)
  rw [hashMin_natCast hk, eq_comm, hashLong_eq hk hh hl hprod, SameBucket]

/-- The buckets are the same for every id that the directory of a process has room for, and beyond. -/
theorem sameBucket_of_le {k : Nat} (hk : k ≤ 5322) : SameBucket k := by
  have hall : ∀ a < 167, ∀ b < 32, 32 * a + b ≤ 5322 → SameBucket (32 * a + b) := by decide +kernel
  have hk' : 32 * (k / 32) + k % 32 = k := Nat.div_add_mod k 32
  have hsame := hall (k / 32) (by omega) (k % 32) (by omega) (by omega)
  rwa [hk'] at hsame

/-- From some id on the two constants are too far apart. -/
theorem SameBucket.le {k : Nat} (h : SameBucket k) : k ≤ 8435332 := by
  have hlow : k * 0x61C88647 % 2 ^ 22 < 2 ^ 22 := Nat.mod_lt _ (by decide)
  have hprod : k * 0x7F4A7C15 ≤ k * 0x61C88647 % 2 ^ 22 * 2 ^ 32 := h
  omega

/-! ### What `myread` finds -/

section myread

variable {nFib : Nat} {s : State} {b : Block Process} {f : Block Fiber}

theorem fibIdOfName_entryName {k : Nat} (hk : k < 2 ^ 31) : fibIdOfName (entryName k).toList = some k := by
  rw [fibIdOfName, entryName_toList, List.drop_one, List.tail_cons, kstrtoul_toDigits (by omega)]

/-- The id of a fiber is a positive `pid_t`. -/
theorem fiberId_bounds (hs : Reached nFib s) (hb : b ∈ s.processi) (hf : f ∈ b.val.listafiber) :
    1 ≤ f.val.id ∧ f.val.id ≤ pidMax := by
  have hfiled := reached_filed hs b hb
  obtain ⟨hlow, hhigh⟩ := (hfiled.listed.ids f.val.id).mp ⟨f, hf, rfl⟩
  exact ⟨hlow, hhigh.trans hfiled.2.1.2⟩

/-- The statistics in the file of fiber `k` below the directory of `tgid`. -/
theorem mem_myread_iff {k : Nat} (hk : k < 2 ^ 31) {tgid : Int} (h0 : 0 ≤ tgid) (hmax : tgid ≤ pidMax)
    {garbage : Nat} {garbage' : Int} {stat : FiberStat} :
    stat ∈ myread (entryName k).toList (toString tgid).toList garbage garbage' s ↔
      ∃ b ∈ s.processi, b.val.id = tgid ∧ ∃ f ∈ b.val.listafiber, hashMin f.val.id = hashLong k ∧
        (f.val.id % 2 ^ 64).toNat = k ∧ fiberStat f.val = stat := by
  have hread : myread (entryName k).toList (toString tgid).toList garbage garbage' s =
      (entriesOf tgid s.processi).flatMap fun b =>
        ((b.val.listafiber.filter fun f => hashMin f.val.id = hashLong k).filter fun f =>
          (f.val.id % 2 ^ 64).toNat = k).map fun f => fiberStat f.val := by
    rw [myread, pidOfName_toString h0 hmax, fibIdOfName_entryName hk, Option.getD_some]
  rw [hread, List.mem_flatMap]
  simp only [mem_entriesOf, List.mem_map, List.mem_filter, decide_eq_true_eq, and_assoc]

end myread

/-- **Which statistics can be read.** For every id the bucket a fiber is filed in is the one `myread` searches exactly
when the two products agree in their upper bits, and it is then that the file of the fiber shows its statistics. -/
theorem statistics_found_iff {id : Int} (hpos : 1 ≤ id) (hid : id ≤ pidMax) :
    (hashMin id = hashLong id.toNat ↔ SameBucket id.toNat) ∧
    ∀ {nFib : Nat} {s : State}, Reached nFib s → ∀ b ∈ s.processi, 0 ≤ b.val.id → b.val.id ≤ pidMax →
      ∀ f ∈ b.val.listafiber, f.val.id = id → ∀ garbage garbage',
        (fiberStat f.val ∈ myread (entryName id).toList (toString b.val.id).toList garbage garbage' s ↔
          SameBucket id.toNat) := by
  obtain ⟨k, rfl⟩ := Int.eq_ofNat_of_zero_le (show 0 ≤ id by omega)
  have hk : k < 2 ^ 31 := by
    unfold pidMax at hid
    omega
  have hiff := hashMin_eq_hashLong_iff hk
  refine ⟨hiff, fun hs b hb h0 hmax f hf hfid garbage garbage' => ?_⟩
  rw [mem_myread_iff hk h0 hmax]
  constructor
  · rintro ⟨b', hb', -, g, hg, hbucket, hkey, -⟩
    obtain ⟨hlow, hhigh⟩ := fiberId_bounds hs hb' hg
    have hgid : g.val.id = k := by
      unfold pidMax at hhigh
      omega
    rw [hgid] at hbucket
    exact hiff.mp hbucket
  · intro hsame
    refine ⟨b, hb, rfl, f, hf, ?_, ?_, rfl⟩
    · rw [hfid]
      exact hiff.mpr hsame
    · rw [hfid]
      omega

/-- The fiber that was created second is found. -/
theorem statistics_found_created : ∃ s, Reached 2 s ∧ ∃ b ∈ s.processi, ∃ f ∈ b.val.listafiber, f.val.id = 2 ∧
    fiberStat f.val ∈ myread (entryName 2).toList (toString b.val.id).toList 0 0 s := by
  obtain ⟨s, hs, hview⟩ := exists_reached 2
    [.fibOpen ⟨1, 1⟩, .fibConvert ⟨1, 1⟩ ⟨0, 5⟩, .fibCreate ⟨1, 1⟩ 16 0 4096 4096]
    (fun s => s.processi.map fun b => (b.val.id, b.val.listafiber.map fun f => f.val.id)) (v := [(1, [2, 1])])
    (by decide +kernel)
  obtain ⟨b, hb, hids⟩ := List.mem_map.mp (hview ▸ List.mem_singleton_self (1, [2, 1]))
  obtain ⟨hid, hfibers⟩ := Prod.mk.inj hids
  obtain ⟨f, hf, hfid⟩ := List.mem_map.mp (hfibers ▸ List.mem_cons_self : (2 : Int) ∈ _)
  have hiff := (@statistics_found_iff 2 (by decide) (by decide)).2 hs b hb (by omega)
    (by rw [hid]; decide) f hf hfid 0 0
  exact ⟨s, hs, b, hb, f, hf, hfid, hiff.mpr (by decide)⟩

/-- Fiber 5323 is filed in bucket 210 and searched for in bucket 209. -/
theorem searched_elsewhere : ¬ ∀ id : Int, 1 ≤ id → id ≤ pidMax → hashMin id = hashLong id.toNat := by
  intro hall
  have hsame := hall 5323 (by decide) (by decide)
  have hfiled : hashMin 5323 = 210 := by decide
  have hsearched : hashLong (5323 : Int).toNat = 209 := by decide
  rw [hfiled, hsearched] at hsame
  exact absurd hsame (by decide)

end LinuxFibers
