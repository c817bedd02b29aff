import LinuxFibers.Base.Run
import Mathlib.Logic.Function.Basic

/-!
# Things that are held or at rest

Each thing is made by a party that then holds it; who holds a thing may put it down with a value, and a thing that lies
there may be taken, with that value, by anybody. Where a thing is, is what the newest event about it says
(`Run.place`), and whoever holds a thing that has been taken has the value of the last time it was put down
(`Run.taken`).
-/

namespace Baton

open Runs
open Function (update update_self update_of_ne)

variable {T B V : Type} [DecidableEq B]

/-- Where a thing is: held, with the value it had when it was taken, or at rest with a value. -/
inductive Place (T V : Type)
  | held (t : T) (v : Option V)
  | rest (v : V)

inductive Event (T B V : Type)
  | make (t : T) (b : B)
  | put (t : T) (b : B) (v : V)
  | take (t : T) (b : B) (v : V)

abbrev Store (T B V : Type) := B → Option (Place T V)

inductive Step : Store T B V → Event T B V → Store T B V → Prop
  | make {s : Store T B V} {t : T} {b : B} : s b = none → Step s (.make t b) (update s b (some (.held t none)))
  | put {s : Store T B V} {t : T} {b : B} {v : V} {w : Option V} : s b = some (.held t w) →
      Step s (.put t b v) (update s b (some (.rest v)))
  | take {s : Store T B V} {t : T} {b : B} {v : V} : s b = some (.rest v) →
      Step s (.take t b v) (update s b (some (.held t (some v))))

/-- At the start nothing has been made. -/
def Start (s : Store T B V) : Prop := ∀ b, s b = none

/-- The place of a thing after the events of a log, newest first. -/
def place (b : B) : List (Event T B V) → Option (Place T V)
  | [] => none
  | .make t c :: es => if c = b then some (.held t none) else place b es
  | .put _ c v :: es => if c = b then some (.rest v) else place b es
  | .take t c v :: es => if c = b then some (.held t (some v)) else place b es

/-- The value a thing was last put down with. -/
def lastPut (b : B) : List (Event T B V) → Option V
  | [] => none
  | .make _ _ :: es => lastPut b es
  | .put _ c v :: es => if c = b then some v else lastPut b es
  | .take _ _ _ :: es => lastPut b es

/-- **The newest event about a thing says where it is.** -/
theorem Run.place {s : Store T B V} {es : List (Event T B V)} (h : Run Start Step s es) (b : B) :
    s b = place b es := by
  induction h with
  | start h => exact h b
  | step _ hs ih =>
    cases hs <;> rw [Baton.place] <;> split_ifs with hb
    · rw [hb, update_self]
    · rw [update_of_ne (Ne.symm hb), ih]
    · rw [hb, update_self]
    · rw [update_of_ne (Ne.symm hb), ih]
    · rw [hb, update_self]
    · rw [update_of_ne (Ne.symm hb), ih]

/-- The value a place carries. -/
def Place.value : Place T V → Option V
  | .held _ v => v
  | .rest v => some v

/-- **A thing carries the value it was last put down with**, at rest and after it has been taken. -/
theorem Run.value {s : Store T B V} {es : List (Event T B V)} (h : Run Start Step s es) (b : B) :
    (s b).bind Place.value = lastPut b es := by
  induction h with
  | start h =>
    rw [h b]
    rfl
  | step _ hs ih =>
    cases hs with
    | @make _ c hc =>
      by_cases hb : c = b
      · subst hb
        rw [update_self, lastPut, ← ih, hc]
        rfl
      · rw [update_of_ne (Ne.symm hb), lastPut, ih]
    | @put _ c v w hc =>
      by_cases hb : c = b
      · subst hb
        rw [update_self, lastPut, if_pos rfl]
        rfl
      · rw [update_of_ne (Ne.symm hb), lastPut, if_neg hb, ih]
    | @take _ c v hc =>
      by_cases hb : c = b
      · subst hb
        rw [update_self, lastPut, ← ih, hc]
        rfl
      · rw [update_of_ne (Ne.symm hb), lastPut, ih]

/-- Nobody takes what is not at rest: before a thing is taken, the newest event about it put it down. -/
theorem Run.taken {s : Store T B V} {es : List (Event T B V)} {t : T} {b : B} {v : V}
    (h : Run Start Step s (.take t b v :: es)) : Baton.place b es = some (.rest v) := by
  cases h with
  | step hr hs =>
    cases hs with
    | take hb => rw [← Run.place hr b, hb]

end Baton
