import Mathlib.Data.Multiset.AddSub
import Mathlib.Order.Lattice
import LinuxFibers.Base.Run

/-!
# Priority bags

A bag holds things that have a key. Anything may be taken out of it: what it holds and what was taken is what was
put (`contents`). A run that takes a least key every time, and puts in no key below the last one taken, takes the
keys in order (`removed_sorted`).
-/

namespace PriorityBag

open Runs

variable {ν κ : Type}

inductive Event (ν : Type)
  | put (x : ν)
  | get (out : Option ν)
  deriving DecidableEq

inductive Step : Multiset ν → Event ν → Multiset ν → Prop
  | put {B : Multiset ν} {x : ν} : Step B (.put x) (x ::ₘ B)
  | get {B : Multiset ν} {x : ν} : Step (x ::ₘ B) (.get (some x)) B
  | empty : Step 0 (.get none) 0

/-- What was taken out, newest first. -/
def removed (tr : List (Event ν)) : List ν := tr.filterMap fun e =>
  match e with
  | .put _ => none
  | .get out => out

/-- What was put in, newest first. -/
def puts (tr : List (Event ν)) : List ν := tr.filterMap fun e =>
  match e with
  | .put x => some x
  | .get _ => none

/-- Nothing is lost and nothing is delivered twice. -/
theorem contents {B : Multiset ν} {tr : List (Event ν)} (hrun : Run (· = 0) Step B tr) :
    B + (removed tr : Multiset ν) = (puts tr : Multiset ν) := by
  induction hrun with
  | start h =>
    rw [h]
    rfl
  | @step B B' tr e hr hs ih =>
    cases hs with
    | @put _ x =>
      show x ::ₘ B + (removed tr : Multiset ν) = ((x :: puts tr : List ν) : Multiset ν)
      rw [Multiset.cons_add, ih, Multiset.cons_coe]
    | @get _ x =>
      show B' + ((x :: removed tr : List ν) : Multiset ν) = (puts tr : Multiset ν)
      rw [← Multiset.cons_coe, Multiset.add_cons, ← Multiset.cons_add]
      exact ih
    | empty => exact ih

section order

variable [LinearOrder κ] (key : ν → κ)

/-- From a bag that is not empty, a get takes a least key. -/
def Least (B : Multiset ν) : Event ν → Prop
  | .put _ => True
  | .get out => B ≠ 0 → ∃ x, out = some x ∧ ∀ y ∈ B, key x ≤ key y

/-- Nothing is put below the last key taken. -/
def Forward : List (Event ν) → Prop
  | [] => True
  | .put y :: tr => (∀ x ∈ (removed tr).head?, key x ≤ key y) ∧ Forward tr
  | .get _ :: tr => Forward tr

variable {key}

theorem le_of_head {l : List ν} (hsorted : l.Pairwise fun a b => key b ≤ key a) {k : κ}
    (hhead : ∀ x ∈ l.head?, key x ≤ k) : ∀ x ∈ l, key x ≤ k := by
  cases l with
  | nil => exact fun x hx => by cases hx
  | cons a l =>
    intro x hx
    rcases List.mem_cons.mp hx with rfl | hx
    · exact hhead x rfl
    · exact ((List.pairwise_cons.mp hsorted).1 x hx).trans (hhead a rfl)

/-- **Keys are taken in order**, and what is left in the bag is not below them. -/
theorem removed_sorted {B : Multiset ν} {tr : List (Event ν)} (hrun : Run (· = 0) (Guarded (Least key) Step) B tr)
    (hforward : Forward key tr) :
    (removed tr).Pairwise (fun a b => key b ≤ key a) ∧ ∀ x ∈ removed tr, ∀ y ∈ B, key x ≤ key y := by
  induction hrun with
  | start h => exact ⟨List.Pairwise.nil, fun x hx => by cases hx⟩
  | @step B B' tr e hr hs ih =>
    obtain ⟨hstep, hleast⟩ := hs
    cases hstep with
    | put =>
      obtain ⟨hput, hforward⟩ := hforward
      obtain ⟨hsorted, hbelow⟩ := ih hforward
      refine ⟨hsorted, fun x hx y hy => ?_⟩
      rcases Multiset.mem_cons.mp hy with rfl | hy
      · exact le_of_head hsorted hput x hx
      · exact hbelow x hx y hy
    | @get _ z =>
      obtain ⟨hsorted, hbelow⟩ := ih hforward
      obtain ⟨x, hx, hmin⟩ := hleast (Multiset.cons_ne_zero)
      obtain rfl := Option.some.inj hx
      refine ⟨List.pairwise_cons.mpr ⟨fun w hw => hbelow w hw z (Multiset.mem_cons_self z _), hsorted⟩, ?_⟩
      intro w hw y hy
      rcases List.mem_cons.mp hw with rfl | hw
      · exact hmin y (Multiset.mem_cons_of_mem hy)
      · exact hbelow w hw y (Multiset.mem_cons_of_mem hy)
    | empty => exact ih hforward

end order

end PriorityBag
