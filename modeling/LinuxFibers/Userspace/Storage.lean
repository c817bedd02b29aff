import Mathlib.Algebra.BigOperators.Group.Finset.Piecewise
import Mathlib.Algebra.Order.BigOperators.Group.Finset
import Mathlib.Data.Fintype.Prod
import LinuxFibers.Base.Private
import LinuxFibers.Base.Run

/-!
# The storage of `ult.c` under the testbed

`fls_alloc` of `ult.c` hands out the indices of one array that all fibers share, and nothing keeps a fiber from the index
of another one. Each fiber of `main.c` allocates `q_idx` and `state_idx`, gives up if one of them is -1, and uses no other
index. `fls_local`: under every order of the calls the array is as good as two variables in each fiber.

* A call is one step. After its two allocations a fiber may read and assign its indices in any order.
-/

namespace LinuxFibers

namespace Userspace.Storage

open Runs PrivateCells
open Function (update update_self update_of_ne)

def maxFls : Nat := 4096

/-- The element of `fls` at an index, if there is one. -/
def slot (idx : Int) : Option (Fin maxFls) :=
  if h : 0 ≤ idx ∧ idx < maxFls then some ⟨idx.toNat, by omega⟩ else none

/-- The two indices of a fiber. -/
inductive Var
  | qIdx
  | stateIdx
  deriving DecidableEq

instance : Fintype Var := ⟨{.qIdx, .stateIdx}, fun v => by cases v <;> decide⟩

/-- Where `main_loop` is: before its first allocation, after one, after both, or past the check of both indices. -/
inductive Pc
  | start
  | one (qIdx : Int)
  | both (qIdx stateIdx : Int)
  | past (qIdx stateIdx : Int)

/-- The index that the fiber keeps in a variable, -1 before it is assigned. -/
def Pc.idx : Pc → Var → Int
  | .start, _ => -1
  | .one qIdx, .qIdx => qIdx
  | .one _, .stateIdx => -1
  | .both qIdx _, .qIdx | .past qIdx _, .qIdx => qIdx
  | .both _ stateIdx, .stateIdx | .past _ stateIdx, .stateIdx => stateIdx

structure State (numFibers : BitVec 32) where
  flsIdx : BitVec 64
  fls : Fin maxFls → BitVec 64
  pc : Fin numFibers.toNat → Pc
  exited : Bool

variable {numFibers : BitVec 32}

namespace State

def goto (s : State numFibers) (f : Fin numFibers.toNat) (p : Pc) : State numFibers :=
  { s with pc := update s.pc f p }

/-- `fls_alloc` -/
def flsAlloc (s : State numFibers) : Int × State numFibers :=
  let ret := s.flsIdx.toInt
  (if ret ≥ maxFls then -1 else ret, { s with flsIdx := s.flsIdx + 1 })

/-- `fls_get`; `none` outside the array. -/
def flsGet (s : State numFibers) (idx : Int) : Option (BitVec 64) := (slot idx).map s.fls

/-- `fls_set`; `none` outside the array. -/
def flsSet (s : State numFibers) (idx : Int) (value : BitVec 64) : Option (State numFibers) :=
  (slot idx).map fun k => { s with fls := update s.fls k value }

end State

inductive Event (numFibers : BitVec 32)
  | alloc (f : Fin numFibers.toNat) (ret : Int)
  | pass (f : Fin numFibers.toNat)
  | exit (f : Fin numFibers.toNat)
  | get (f : Fin numFibers.toNat) (var : Var) (value : BitVec 64)
  | set (f : Fin numFibers.toNat) (var : Var) (value : BitVec 64)

inductive Step : State numFibers → Event numFibers → State numFibers → Prop
  | allocQ {s : State numFibers} {f : Fin numFibers.toNat} (hrun : s.exited = false) (hf : s.pc f = .start) :
      Step s (.alloc f s.flsAlloc.1) (s.flsAlloc.2.goto f (.one s.flsAlloc.1))
  | allocState {s : State numFibers} {f : Fin numFibers.toNat} {q : Int} (hrun : s.exited = false)
      (hf : s.pc f = .one q) : Step s (.alloc f s.flsAlloc.1) (s.flsAlloc.2.goto f (.both q s.flsAlloc.1))
  /-- `exit(EXIT_FAILURE)` -/
  | exit {s : State numFibers} {f : Fin numFibers.toNat} {q st : Int} (hrun : s.exited = false)
      (hf : s.pc f = .both q st) (hfail : q = -1 ∨ st = -1) : Step s (.exit f) { s with exited := true }
  | pass {s : State numFibers} {f : Fin numFibers.toNat} {q st : Int} (hrun : s.exited = false)
      (hf : s.pc f = .both q st) (hq : q ≠ -1) (hst : st ≠ -1) : Step s (.pass f) (s.goto f (.past q st))
  | get {s : State numFibers} {f : Fin numFibers.toNat} {q st : Int} {var : Var} {value : BitVec 64}
      (hrun : s.exited = false) (hf : s.pc f = .past q st) (hget : s.flsGet ((s.pc f).idx var) = some value) :
      Step s (.get f var value) s
  | set {s s' : State numFibers} {f : Fin numFibers.toNat} {q st : Int} {var : Var} {value : BitVec 64}
      (hrun : s.exited = false) (hf : s.pc f = .past q st) (hset : s.flsSet ((s.pc f).idx var) value = some s') :
      Step s (.set f var value) s'

/-- `fls` and `fls_idx` are static. -/
def Start (s : State numFibers) : Prop :=
  s.flsIdx = 0 ∧ (∀ k, s.fls k = 0) ∧ (∀ f, s.pc f = .start) ∧ s.exited = false

/-! ### Two variables in each fiber -/

/-- The fibers as they would be with two variables each in place of the two indices. -/
inductive LocalStep : (Fin numFibers.toNat × Var → BitVec 64) → Event numFibers →
    (Fin numFibers.toNat × Var → BitVec 64) → Prop
  | alloc {x : Fin numFibers.toNat × Var → BitVec 64} {f : Fin numFibers.toNat} {ret : Int} : LocalStep x (.alloc f ret) x
  | pass {x : Fin numFibers.toNat × Var → BitVec 64} {f : Fin numFibers.toNat} : LocalStep x (.pass f) x
  | exit {x : Fin numFibers.toNat × Var → BitVec 64} {f : Fin numFibers.toNat} : LocalStep x (.exit f) x
  | get {x : Fin numFibers.toNat × Var → BitVec 64} {f : Fin numFibers.toNat} {var : Var} :
      LocalStep x (.get f var (x (f, var))) x
  | set {x : Fin numFibers.toNat × Var → BitVec 64} {f : Fin numFibers.toNat} {var : Var} {value : BitVec 64} :
      LocalStep x (.set f var value) (update x (f, var) value)

/-! ### The indices -/

/-- How many indices the fiber has asked for. -/
def Pc.allocs : Pc → Nat
  | .start => 0
  | .one _ => 1
  | .both _ _ | .past _ _ => 2

namespace State

def idx (s : State numFibers) (a : Fin numFibers.toNat × Var) : Int := (s.pc a.1).idx a.2

/-- The element that a variable of a fiber stands for. -/
def cell (s : State numFibers) (a : Fin numFibers.toNat × Var) : Option (Fin maxFls) := slot (s.idx a)

def allocs (s : State numFibers) : Nat := ∑ f, (s.pc f).allocs

end State

theorem slot_neg : slot (-1) = none := by decide

theorem slot_natCast {k : Nat} (h : k < maxFls) : slot k = some ⟨k, h⟩ := by
  rw [slot, dif_pos ⟨Int.natCast_nonneg k, by exact_mod_cast h⟩]
  rfl

structure Inv (s : State numFibers) (x : Fin numFibers.toNat × Var → BitVec 64) : Prop where
  flsIdx : s.flsIdx = BitVec.ofNat 64 s.allocs
  below : ∀ a k, s.cell a = some k → k.val < s.allocs
  idx : ∀ a, s.idx a = -1 ∨ (s.cell a).isSome
  past : ∀ f q st, s.pc f = .past q st → q ≠ -1 ∧ st ≠ -1
  cells : Private s.cell s.fls 0 x

variable {s s' : State numFibers} {x : Fin numFibers.toNat × Var → BitVec 64} {e : Event numFibers}
  {tr : List (Event numFibers)}

theorem allocs_le (s : State numFibers) : s.allocs ≤ 2 * numFibers.toNat := by
  have h := Finset.sum_le_card_nsmul Finset.univ (fun f => (s.pc f).allocs) 2 fun f _ => by
    cases s.pc f <;> simp [Pc.allocs]
  rw [Finset.card_univ, Fintype.card_fin, Nat.nsmul_eq_mul] at h
  unfold State.allocs
  omega

/-- The counter does not wrap around: no fiber asks for more than two indices. -/
theorem Inv.toInt (h : Inv s x) : s.flsIdx.toInt = s.allocs := by
  have hle := allocs_le s
  have hn := numFibers.isLt
  rw [h.flsIdx, BitVec.toInt_eq_toNat_of_lt] <;> rw [BitVec.toNat_ofNat, Nat.mod_eq_of_lt] <;> omega

theorem allocs_update {f : Fin numFibers.toNat} {p : Pc} (hp : p.allocs = (s.pc f).allocs + 1) :
    ∑ g, (update s.pc f p g).allocs = s.allocs + 1 := by
  have hcomp : (fun g => (update s.pc f p g).allocs) = update (fun g => (s.pc g).allocs) f ((s.pc f).allocs + 1) := by
    funext g
    by_cases hg : g = f
    · subst hg
      rw [update_self, update_self, hp]
    · rw [update_of_ne hg, update_of_ne hg]
  have hsum := Finset.add_sum_erase Finset.univ (fun g => (s.pc g).allocs) (Finset.mem_univ f)
  rw [hcomp, Finset.sum_update_of_mem (Finset.mem_univ f), Finset.sdiff_singleton_eq_erase, State.allocs]
  omega

/-- One variable of one fiber is assigned. -/
theorem idx_update {f : Fin numFibers.toNat} {p : Pc} {var : Var} {ret : Int} (hpc : s'.pc = update s.pc f p)
    (hp : p.idx = update (s.pc f).idx var ret) : s'.idx = update s.idx (f, var) ret := by
  funext a
  obtain ⟨g, v⟩ := a
  simp only [State.idx, hpc]
  by_cases hg : g = f
  · subst hg
    rw [update_self, hp]
    by_cases hv : v = var
    · subst hv
      rw [update_self, update_self]
    · rw [update_of_ne hv, update_of_ne fun h => hv (Prod.ext_iff.mp h).2]
      rfl
  · rw [update_of_ne hg, update_of_ne fun h => hg (Prod.ext_iff.mp h).1]
    rfl

/-- A fiber asks for one of its indices: it gets the next one, or -1 when the array is used up. -/
theorem Inv.alloc (h : Inv s x) {f : Fin numFibers.toNat} {p : Pc} (var : Var) (hbefore : (s.pc f).idx var = -1)
    (hp : p.idx = update (s.pc f).idx var s.flsAlloc.1) (hallocs : p.allocs = (s.pc f).allocs + 1)
    (hpast : ∀ q st, p ≠ .past q st) : Inv (s.flsAlloc.2.goto f p) x := by
  have hsum : (s.flsAlloc.2.goto f p).allocs = s.allocs + 1 := allocs_update hallocs
  have hidx : (s.flsAlloc.2.goto f p).idx = update s.idx (f, var) s.flsAlloc.1 := idx_update rfl hp
  have hflsIdx : (s.flsAlloc.2.goto f p).flsIdx = BitVec.ofNat 64 (s.flsAlloc.2.goto f p).allocs := by
    rw [hsum, BitVec.ofNat_add, ← h.flsIdx]
    rfl
  have hpast' : ∀ g q st, (s.flsAlloc.2.goto f p).pc g = .past q st → q ≠ -1 ∧ st ≠ -1 := by
    intro g q st hg
    by_cases hgf : g = f
    · subst hgf
      rw [show (s.flsAlloc.2.goto g p).pc g = p from update_self ..] at hg
      exact absurd hg (hpast q st)
    · rw [show (s.flsAlloc.2.goto f p).pc g = s.pc g from update_of_ne hgf ..] at hg
      exact h.past g q st hg
  have hret : s.flsAlloc.1 = if (s.allocs : Int) ≥ maxFls then -1 else (s.allocs : Int) := by
    rw [← h.toInt]
    rfl
  have hnone : s.cell (f, var) = none := by
    rw [State.cell, show s.idx (f, var) = -1 from hbefore]
    exact slot_neg
  by_cases hfull : (s.allocs : Int) ≥ maxFls
  · -- nothing is handed out
    rw [if_pos hfull] at hret
    have hsame : (s.flsAlloc.2.goto f p).idx = s.idx := by
      rw [hidx, hret, ← show s.idx (f, var) = -1 from hbefore]
      exact Function.update_eq_self ..
    have hcell : (s.flsAlloc.2.goto f p).cell = s.cell := by
      funext a
      rw [State.cell, hsame]
      rfl
    refine ⟨hflsIdx, fun a k hk => ?_, fun a => ?_, hpast', ?_⟩
    · rw [hcell] at hk
      have := h.below a k hk
      omega
    · rw [hsame, hcell]
      exact h.idx a
    · rw [hcell]
      exact h.cells
  · rw [if_neg hfull] at hret
    have hlt : s.allocs < maxFls := by omega
    have hcell : (s.flsAlloc.2.goto f p).cell = update s.cell (f, var) (some ⟨s.allocs, hlt⟩) := by
      funext a
      rw [State.cell, hidx, hret]
      by_cases ha : a = (f, var)
      · subst ha
        rw [update_self, update_self]
        exact slot_natCast hlt
      · rw [update_of_ne ha, update_of_ne ha]
        rfl
    have hfresh : ∀ b, s.cell b ≠ some ⟨s.allocs, hlt⟩ := fun b hb => lt_irrefl _ (h.below b _ hb)
    refine ⟨hflsIdx, fun a k hk => ?_, fun a => ?_, hpast', ?_⟩
    · rw [hcell] at hk
      by_cases ha : a = (f, var)
      · subst ha
        rw [update_self] at hk
        obtain rfl := Option.some.inj hk
        rw [hsum]
        exact Nat.lt_succ_self _
      · rw [update_of_ne ha] at hk
        have := h.below a k hk
        omega
    · rw [hcell, hidx]
      by_cases ha : a = (f, var)
      · subst ha
        rw [update_self, update_self]
        exact .inr rfl
      · rw [update_of_ne ha, update_of_ne ha]
        exact h.idx a
    · rw [hcell]
      exact h.cells.take hnone hfresh

/-- A fiber goes on with the indices it has. -/
theorem Inv.goto (h : Inv s x) {f : Fin numFibers.toNat} {p : Pc} (hp : p.idx = (s.pc f).idx)
    (hallocs : p.allocs = (s.pc f).allocs) (hpast : ∀ q st, p = .past q st → q ≠ -1 ∧ st ≠ -1) : Inv (s.goto f p) x := by
  have hidx : (s.goto f p).idx = s.idx := by
    funext a
    by_cases ha : a.1 = f
    · simp only [State.idx, State.goto, ha, update_self, hp]
    · simp only [State.idx, State.goto, update_of_ne ha]
  have hcell : (s.goto f p).cell = s.cell := by
    funext a
    rw [State.cell, hidx]
    rfl
  have hsum : (s.goto f p).allocs = s.allocs := by
    refine Finset.sum_congr rfl fun g _ => ?_
    by_cases hg : g = f
    · subst hg
      simp only [State.goto, update_self, hallocs]
    · simp only [State.goto, update_of_ne hg]
  refine ⟨?_, ?_, ?_, fun g q st hg => ?_, ?_⟩
  · rw [hsum]
    exact h.flsIdx
  · rw [hcell, hsum]
    exact h.below
  · rw [hidx, hcell]
    exact h.idx
  · by_cases hgf : g = f
    · subst hgf
      simp only [State.goto, update_self] at hg
      exact hpast q st hg
    · simp only [State.goto, update_of_ne hgf] at hg
      exact h.past g q st hg
  · rw [hcell]
    exact h.cells

/-- **One call**: what a fiber reads is what it assigned last. -/
theorem Inv.step (h : Inv s x) (hstep : Step s e s') : ∃ x', LocalStep x e x' ∧ Inv s' x' := by
  cases hstep with
  | @allocQ f hrun hf =>
    refine ⟨x, .alloc, h.alloc .qIdx (by rw [hf]; rfl) ?_ (by rw [hf]; rfl) fun _ _ => Pc.noConfusion⟩
    rw [hf]
    funext v
    cases v <;> rfl
  | @allocState f q hrun hf =>
    refine ⟨x, .alloc, h.alloc .stateIdx (by rw [hf]; rfl) ?_ (by rw [hf]; rfl) fun _ _ => Pc.noConfusion⟩
    rw [hf]
    funext v
    cases v <;> rfl
  | exit hrun hf hfail => exact ⟨x, .exit, h.flsIdx, h.below, h.idx, h.past, h.cells⟩
  | @pass f q st hrun hf hq hst =>
    refine ⟨x, .pass, h.goto ?_ (by rw [hf]; rfl) fun q' st' hp => ?_⟩
    · rw [hf]
      funext v
      cases v <;> rfl
    · obtain ⟨rfl, rfl⟩ := Pc.past.inj hp
      exact ⟨hq, hst⟩
  | @get f q st var value hrun hf hget =>
    obtain ⟨k, hk, rfl⟩ := Option.map_eq_some_iff.mp hget
    refine ⟨x, ?_, h⟩
    rw [← h.cells.held (f, var) k hk]
    exact .get
  | @set _ f q st var value hrun hf hset =>
    obtain ⟨k, hk, rfl⟩ := Option.map_eq_some_iff.mp hset
    exact ⟨_, .set, h.flsIdx, h.below, h.idx, h.past, h.cells.store (a := (f, var)) hk value⟩

theorem Inv.start (h : Start s) : Inv s fun _ => 0 := by
  obtain ⟨hflsIdx, hfls, hpc, -⟩ := h
  have hidx : ∀ a, s.idx a = -1 := by
    intro a
    rw [State.idx, hpc]
    rfl
  have hcell : ∀ a, s.cell a = none := by
    intro a
    rw [State.cell, hidx]
    exact slot_neg
  have hsum : s.allocs = 0 := Finset.sum_eq_zero fun f _ => by rw [hpc]; rfl
  refine ⟨by rw [hflsIdx, hsum]; rfl, fun a k hk => ?_, fun a => .inl (hidx a), fun f q st hf => ?_, ?_⟩
  · rw [hcell] at hk
    cases hk
  · rw [hpc] at hf
    cases hf
  · rw [show s.fls = fun _ => 0 from funext hfls]
    exact .start _ _ hcell

/-! ### Runs -/

def Pc.isPast : Pc → Bool
  | .past _ _ => true
  | _ => false

/-- The fibers past the check of their indices. -/
def State.working (s : State numFibers) : Finset (Fin numFibers.toNat) := Finset.univ.filter fun f => (s.pc f).isPast

/-- A fiber past the check has both its indices in the array. -/
theorem Inv.cell_isSome (h : Inv s x) {f : Fin numFibers.toNat} (hf : (s.pc f).isPast) (var : Var) :
    (s.cell (f, var)).isSome := by
  match hpc : s.pc f with
  | .past q st =>
    obtain ⟨hq, hst⟩ := h.past f q st hpc
    refine (h.idx (f, var)).resolve_left fun hidx => ?_
    rw [State.idx, hpc] at hidx
    cases var with
    | qIdx => exact hq hidx
    | stateIdx => exact hst hidx
  | .start | .one _ | .both _ _ =>
    rw [hpc] at hf
    cases hf

/-- Two elements of the array belong to each of them. -/
theorem Inv.working_card (h : Inv s x) : s.working.card * 2 ≤ maxFls := by
  have hcell : ∀ a ∈ s.working ×ˢ (Finset.univ : Finset Var), ∃ k, s.cell a = some k := by
    intro a ha
    obtain ⟨hwork, -⟩ := Finset.mem_product.mp ha
    exact Option.isSome_iff_exists.mp (h.cell_isSome (Finset.mem_filter.mp hwork).2 a.2)
  have hcard := Finset.card_le_card_of_injOn (s := s.working ×ˢ Finset.univ) (t := Finset.univ)
    (fun a => (s.cell a).getD ⟨0, by decide⟩) (fun _ _ => Finset.mem_coe.mpr (Finset.mem_univ _)) fun a ha b hb hab => by
      obtain ⟨k, hk⟩ := hcell a ha
      obtain ⟨j, hj⟩ := hcell b hb
      simp only [hk, hj, Option.getD_some] at hab
      exact h.cells.injective a b k hk (hab ▸ hj)
  rwa [Finset.card_product, Finset.card_univ, Finset.card_univ, Fintype.card_fin] at hcard

/-- **The storage of each fiber is its own.** Under every order of the calls the fibers read what they would read if
each had two variables in place of two indices of a shared array; a fiber past the check of its indices never leaves
the array, and no more than 2048 fibers ever pass. -/
theorem fls_local {numFibers : BitVec 32} {s : State numFibers} {tr : List (Event numFibers)}
    (hrun : Run Start Step s tr) :
    (∃ x, Run (fun x => x = fun _ => 0) LocalStep x tr) ∧
      (∀ f, (s.pc f).isPast → ∀ var, (s.flsGet ((s.pc f).idx var)).isSome) ∧ s.working.card ≤ 2048 := by
  have hinv : ∃ x, Inv s x ∧ Run (fun x => x = fun _ => 0) LocalStep x tr := by
    induction hrun with
    | start h => exact ⟨_, .start h, .start rfl⟩
    | step _ hstep ih =>
      obtain ⟨x, hinv, hlocal⟩ := ih
      obtain ⟨x', hx, hinv'⟩ := hinv.step hstep
      exact ⟨x', hinv', hlocal.step hx⟩
  obtain ⟨x, h, hlocal⟩ := hinv
  refine ⟨⟨x, hlocal⟩, fun f hf var => ?_, ?_⟩
  · rw [State.flsGet, Option.isSome_map]
    exact h.cell_isSome hf var
  · have hcard := h.working_card
    unfold maxFls at hcard
    omega

/-- The fibers of two. -/
def one : Fin (BitVec.toNat (2 : BitVec 32)) := ⟨0, by decide⟩

def two : Fin (BitVec.toNat (2 : BitVec 32)) := ⟨1, by decide⟩

/-- Both allocate, one index each in turn; the first assigns 5, the second 7, and the first reads 5. -/
theorem twoFibers_run : ∃ s : State 2, Run Start Step s [.get one .qIdx 5, .set two .qIdx 7, .set one .qIdx 5, .pass two,
    .pass one, .alloc two 3, .alloc one 2, .alloc two 1, .alloc one 0] ∧ s.pc one = .past 0 2 ∧ s.pc two = .past 1 3 := by
  have hstart : Run Start Step
      ({ flsIdx := 0, fls := fun _ => 0, pc := fun _ => .start, exited := false } : State 2) [] :=
    .start ⟨rfl, fun _ => rfl, fun _ => rfl, rfl⟩
  have hfirst := (hstart.step (.allocQ (f := one) rfl rfl)).step (.allocQ (f := two) rfl rfl)
  have hsecond := (hfirst.step (.allocState (f := one) rfl rfl)).step (.allocState (f := two) rfl rfl)
  have hpassed := (hsecond.step (.pass (f := one) rfl rfl (by decide) (by decide))).step
    (.pass (f := two) rfl rfl (by decide) (by decide))
  have hset := (hpassed.step (.set rfl rfl rfl : Step _ (.set one .qIdx 5) _)).step
    (.set rfl rfl rfl : Step _ (.set two .qIdx 7) _)
  exact ⟨_, hset.step (.get rfl rfl rfl : Step _ (.get one .qIdx 5) _), rfl, rfl⟩

theorem fls_local_two : ∃ s : State 2, s.pc one = .past 0 2 ∧ s.pc two = .past 1 3 ∧ s.working.card ≤ 2048 := by
  obtain ⟨s, hrun, h1, h2⟩ := twoFibers_run
  exact ⟨s, h1, h2, (fls_local hrun).2.2⟩

end Userspace.Storage

end LinuxFibers
