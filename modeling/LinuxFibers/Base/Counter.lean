import Mathlib.Data.Int.Interval
import Mathlib.Logic.Function.Basic

/-!
# A counter that is counted up without a lock

Threads count a shared counter up, each by a load and a later store of the value loaded plus one; `n` is the
number of stores so far. While no load falls between another thread's load and its store, every store counts
(`Exact`). Once one does, a store is lost or will be (`Behind`), and the counter never catches up.
-/

namespace SharedCounter

variable {T : Type}

/-- No value is below the first one or above what the stores can have made it. -/
structure Bounded (v₀ v : Int) (loaded : T → Option Int) (n : Nat) : Prop where
  least : v₀ ≤ v
  moved : 0 < n → v₀ < v
  most : v ≤ v₀ + n
  held : ∀ t x, loaded t = some x → v₀ ≤ x ∧ x ≤ v₀ + n

/-- Every store has counted, and at most one thread is between its load and its store. -/
structure Exact (v₀ v : Int) (loaded : T → Option Int) (n : Nat) : Prop where
  value : v = v₀ + n
  held : ∀ t x, loaded t = some x → x = v
  one : ∀ t u, loaded t ≠ none → loaded u ≠ none → t = u

/-- A store is lost, or a value is loaded that will lose one, or two threads have loaded. -/
inductive Behind (v₀ v : Int) (loaded : T → Option Int) (n : Nat) : Prop
  | lost (hv : v < v₀ + n) (hloaded : ∀ t x, loaded t = some x → x < v₀ + n)
  | stale {t : T} {x : Int} (hx : loaded t = some x) (hlt : x < v₀ + n)
  | both {t u : T} (hne : t ≠ u) (ht : loaded t ≠ none) (hu : loaded u ≠ none)

/-- When no thread is between its load and its store, the counter is below what it should be. -/
theorem Behind.lt {v₀ v : Int} {loaded : T → Option Int} {n : Nat} (h : Behind v₀ v loaded n)
    (hidle : ∀ t, loaded t = none) : v < v₀ + n := by
  cases h with
  | lost hv hloaded => exact hv
  | @stale t x hx hlt =>
    rw [hidle t] at hx
    cases hx
  | @both t u hne ht hu => exact absurd (hidle t) ht

theorem Bounded.start {v : Int} {loaded : T → Option Int} (hidle : ∀ t, loaded t = none) :
    Bounded v v loaded 0 where
  least := le_rfl
  moved h := absurd h (lt_irrefl 0)
  most := by simp
  held t x hx := by
    rw [hidle t] at hx
    cases hx

variable [DecidableEq T]

/-- One step of the thread `t`, with the number of its stores: `loaded` says which threads are between their
load and their store, and with which value. -/
inductive Move (t : T) (v : Int) (loaded : T → Option Int) : Int → (T → Option Int) → Nat → Prop
  | skip : Move t v loaded v loaded 0
  | load (ht : loaded t = none) : Move t v loaded v (Function.update loaded t (some v)) 0
  | store {x : Int} (hx : loaded t = some x) : Move t v loaded (x + 1) (Function.update loaded t none) 1

variable {t : T} {v₀ v v' : Int} {loaded loaded' : T → Option Int} {n k : Nat}

/-- What is held after a load is what was loaded or was held before. -/
theorem held_update_some {u : T} {x : Int} (hx : Function.update loaded t (some v) u = some x) :
    x = v ∨ loaded u = some x := by
  by_cases hu : u = t
  · rw [hu, Function.update_self, Option.some.injEq] at hx
    exact .inl hx.symm
  · rw [Function.update_of_ne hu] at hx
    exact .inr hx

/-- What is held after a store was held before, by another thread. -/
theorem held_update_none {u : T} {x : Int} (hx : Function.update loaded t none u = some x) :
    u ≠ t ∧ loaded u = some x := by
  by_cases hu : u = t
  · rw [hu, Function.update_self] at hx
    cases hx
  · rw [Function.update_of_ne hu] at hx
    exact ⟨hu, hx⟩

theorem Bounded.step (h : Bounded v₀ v loaded n) (hs : Move t v loaded v' loaded' k) :
    Bounded v₀ v' loaded' (n + k) := by
  cases hs with
  | skip => exact h
  | load ht =>
    refine ⟨h.least, h.moved, h.most, fun u x hx => ?_⟩
    rcases held_update_some hx with rfl | hx
    · exact ⟨h.least, h.most⟩
    · exact h.held u x hx
  | @store y hy =>
    obtain ⟨hlow, hhigh⟩ := h.held t y hy
    refine ⟨by omega, fun _ => by omega, by push_cast; omega, fun u x hx => ?_⟩
    have hx' := h.held u x (held_update_none hx).2
    push_cast
    omega

/-- A load between another thread's load and its store. -/
theorem behind_of_load {u : T} (hne : u ≠ t) (hu : loaded u ≠ none) :
    Behind v₀ v (Function.update loaded t (some v)) n := by
  apply Behind.both hne
  · rw [Function.update_of_ne hne]
    exact hu
  · rw [Function.update_self]
    exact Option.some_ne_none v

/-- A step keeps the counter exact, or it is such a load. -/
theorem Exact.step (h : Exact v₀ v loaded n) (hs : Move t v loaded v' loaded' k) :
    Exact v₀ v' loaded' (n + k) ∨ Behind v₀ v' loaded' (n + k) := by
  cases hs with
  | skip => exact .inl h
  | load ht =>
    by_cases hfree : ∀ u, u ≠ t → loaded u = none
    · refine .inl ⟨h.value, fun u x hx => ?_, ?_⟩
      · rcases held_update_some hx with hx | hx
        · exact hx
        · exact h.held u x hx
      · have honly : ∀ u, Function.update loaded t (some v) u ≠ none → u = t := by
          intro u hu
          by_contra hne
          rw [Function.update_of_ne hne] at hu
          exact hu (hfree u hne)
        exact fun u w hu hw => (honly u hu).trans (honly w hw).symm
    · push Not at hfree
      obtain ⟨u, hne, hu⟩ := hfree
      exact .inr (behind_of_load hne hu)
  | @store y hy =>
    have hsome : loaded t ≠ none := by
      rw [hy]
      exact Option.some_ne_none y
    have hnone : ∀ u x, Function.update loaded t none u ≠ some x := by
      intro u x hx
      obtain ⟨hne, hx⟩ := held_update_none hx
      exact hne (h.one u t (by rw [hx]; exact Option.some_ne_none x) hsome)
    refine .inl ⟨?_, fun u x hx => absurd hx (hnone u x), fun u w hu => ?_⟩
    · rw [h.held t y hy, h.value]
      push_cast
      omega
    · obtain ⟨x, hx⟩ := Option.ne_none_iff_exists'.mp hu
      exact absurd hx (hnone u x)

/-- A counter that is behind stays behind. -/
theorem Behind.step (h : Behind v₀ v loaded n) (hb : Bounded v₀ v loaded n)
    (hs : Move t v loaded v' loaded' k) : Behind v₀ v' loaded' (n + k) := by
  cases hs with
  | skip => exact h
  | load ht =>
    have hkeep : ∀ u, loaded u ≠ none → Function.update loaded t (some v) u = loaded u := by
      intro u hu
      apply Function.update_of_ne
      rintro rfl
      exact hu ht
    cases h with
    | lost hv hloaded =>
      refine .lost hv fun u x hx => ?_
      rcases held_update_some hx with rfl | hx
      · exact hv
      · exact hloaded u x hx
    | @stale u x hx hlt =>
      refine .stale (t := u) ?_ hlt
      rw [hkeep u (by rw [hx]; exact Option.some_ne_none x), hx]
    | @both u w hne hu hw =>
      refine .both hne ?_ ?_
      · rw [hkeep u hu]
        exact hu
      · rw [hkeep w hw]
        exact hw
  | @store y hy =>
    -- what the other threads hold is one store short from here on
    have hstale : ∀ u, u ≠ t → loaded u ≠ none → Behind v₀ (y + 1) (Function.update loaded t none) (n + 1) := by
      intro u hut hu
      obtain ⟨x, hx⟩ := Option.ne_none_iff_exists'.mp hu
      have hle := hb.held u x hx
      refine .stale (t := u) (x := x) ?_ ?_
      · rw [Function.update_of_ne hut, hx]
      · push_cast
        omega
    have hlost : y < v₀ + n → Behind v₀ (y + 1) (Function.update loaded t none) (n + 1) := by
      intro hlt
      refine .lost (by push_cast; omega) fun u x hx => ?_
      have hle := hb.held u x (held_update_none hx).2
      push_cast
      omega
    cases h with
    | lost hv hloaded => exact hlost (hloaded t y hy)
    | @stale u x hx hlt =>
      by_cases hu : u = t
      · rw [hu, hy, Option.some.injEq] at hx
        rw [← hx] at hlt
        exact hlost hlt
      · exact hstale u hu (by rw [hx]; exact Option.some_ne_none x)
    | @both u w hne hu hw =>
      by_cases hut : u = t
      · exact hstale w (fun he => hne (hut.trans he.symm)) hw
      · exact hstale u hut hu

/-! ### Numbers handed out -/

section numbers

variable {l : List Int} {x : Int}

/-- Fewer than `n` numbers leave out one of the `n` above `v₀`. -/
theorem exists_unused (v₀ : Int) (hlen : l.length < n) : ∃ x, v₀ < x ∧ x ≤ v₀ + n ∧ x ∉ l := by
  have hcard : l.toFinset.card < (Finset.Ioc v₀ (v₀ + n)).card := by
    rw [Int.card_Ioc]
    have hle := List.toFinset_card_le l
    omega
  obtain ⟨x, hx, hno⟩ := Finset.exists_mem_notMem_of_card_lt_card hcard
  obtain ⟨hlow, hhigh⟩ := Finset.mem_Ioc.mp hx
  exact ⟨x, hlow, hhigh, fun hmem => hno (List.mem_toFinset.mpr hmem)⟩

/-- `n` different ones of the `n` numbers above `v₀` are all of them. -/
theorem mem_of_nodup (hnodup : l.Nodup) (hrange : ∀ y ∈ l, v₀ < y ∧ y ≤ v₀ + l.length) (hlow : v₀ < x)
    (hhigh : x ≤ v₀ + l.length) : x ∈ l := by
  have hsub : l.toFinset ⊆ Finset.Ioc v₀ (v₀ + l.length) := by
    intro y hy
    exact Finset.mem_Ioc.mpr (hrange y (List.mem_toFinset.mp hy))
  have hcard : (Finset.Ioc v₀ (v₀ + l.length)).card ≤ l.toFinset.card := by
    rw [Int.card_Ioc, List.toFinset_card_of_nodup hnodup]
    omega
  rw [← List.mem_toFinset, Finset.eq_of_subset_of_card_le hsub hcard]
  exact Finset.mem_Ioc.mpr ⟨hlow, hhigh⟩

end numbers

end SharedCounter
