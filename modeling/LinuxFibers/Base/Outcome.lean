import Mathlib.Logic.Basic

/-!
# Outcomes of computations that may fail

`Yields allowed post x` says that `x` returns a value with the postcondition or ends in a failure that is allowed, so
that one statement covers what is returned and which failures cannot happen. The rules follow the ways
computations are put together.
-/

namespace Outcomes

variable {ε α β : Type} {allowed : ε → Prop}

def Yields (allowed : ε → Prop) (post : α → Prop) : Except ε α → Prop
  | .ok a => post a
  | .error e => allowed e

variable {post post' : α → Prop} {x : Except ε α}

theorem Yields.of_ok (h : Yields allowed post x) {a : α} (hx : x = .ok a) : post a := by
  subst hx
  exact h

theorem Yields.of_error (h : Yields allowed post x) {e : ε} (hx : x = .error e) : allowed e := by
  subst hx
  exact h

theorem Yields.mono (h : Yields allowed post x) (hpost : ∀ a, post a → post' a) : Yields allowed post' x := by
  cases x with
  | ok a => exact hpost a h
  | error e => exact h

/-- Nothing is asked. -/
theorem Yields.any (x : Except ε α) : Yields (fun _ => True) (fun _ => True) x := by
  cases x <;> trivial

/-- The rule of a sequence. -/
theorem Yields.bind {f : α → Except ε β} {post'' : β → Prop} (h : Yields allowed post x)
    (hf : ∀ a, post a → Yields allowed post'' (f a)) : Yields allowed post'' (x >>= f) := by
  cases x with
  | ok a => exact hf a h
  | error e => exact h

/-- The rule of a loop over a list. The invariant speaks of what is left of the list. -/
theorem Yields.foldlM {f : β → α → Except ε β} {I : List α → β → Prop} {l : List α}
    (hstep : ∀ a rest b, I (a :: rest) b → Yields allowed (I rest) (f b a)) {b : β} (h : I l b) :
    Yields allowed (I []) (l.foldlM f b) := by
  induction l generalizing b with
  | nil => exact h
  | cons a rest ih =>
    rw [List.foldlM_cons]
    exact (hstep a rest b h).bind fun _ hb => ih hb

end Outcomes
