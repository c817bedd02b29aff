import LinuxFibers.Base.Baton

/-!
# The fibers of `ult.c`

Threads that convert themselves, create fibers and switch between them, all at once. A thread is somewhere in the
library or in the code of a fiber (`Pc`), and a step of the system is one access of one thread to what the threads share:
a `running` flag is tested and set or cleared, one register is stored to a context or loaded from it. Fibers are numbered
by `ult_id`.

* What a thread does to an object that no other thread knows yet is one step: a fiber is made, and locked, at once.
* Compiled code may change the registers at any time outside `_set_jmp` and `_long_jmp`.
* No signal arrives while a thread is in the library.
-/

namespace LinuxFibers

namespace Userspace

open Function (update)

/-- The call of `set_jmp` that a fiber is saved in: `context_switch(_, to)` or `context_switch_create(_, context)`. -/
inductive Frame
  | switch (target : Nat)
  | create (context : Nat)

/-- The fiber whose context the macro loads. -/
def Frame.target : Frame → Nat
  | .switch target => target
  | .create context => context

/-- Whether `long_jmp` is passed 1, and not the saved `rax`. -/
def Frame.one : Frame → Bool
  | .switch _ => false
  | .create _ => true

section

variable (T ι W : Type)

/-- Where a thread is. `ι` are the fields of `exec_context_t`, and `ι → W` what the registers hold. -/
inductive Pc
  /-- not yet converted to a fiber -/
  | thread (r : ι → W)
  /-- in the code of the fiber `f` -/
  | run (f : Nat) (r : ι → W)
  /-- the target's flag is set; at `set_jmp(f->context)` -/
  | locked (f : Nat) (frame : Frame) (r : ι → W)
  /-- in `_set_jmp`, called with `r`; the fields in `saved` are stored -/
  | save (f : Nat) (frame : Frame) (r : ι → W) (saved : List ι)
  /-- at `ult_unlock(f)` -/
  | unlock (f : Nat) (frame : Frame) (r : ι → W)
  /-- in `long_jmp(f->context, _)`, with what has been loaded -/
  | load (f : Nat) (one : Bool) (got : ι → Option W)
  /-- at `ult_lock(current)` in `context_create_boot` -/
  | boot (f : Nat) (r : ι → W)

/-- What the threads share, the thread-local `current` of each, and where each is. -/
structure Ult where
  ultId : Nat
  running : Nat → Bool
  context : Nat → ι → W
  frame : Nat → Option Frame
  current : T → Option Nat
  pc : T → Pc ι W

inductive Event
  | silent (t : T)
  | convert (t : T) (f : Nat)
  | create (t : T) (f : Nat)
  | lock (t : T) (f : Nat) (r : ι → W)
  | setJmp (t : T) (f : Nat) (r : ι → W)
  | unlock (t : T) (f : Nat) (r : ι → W)
  | resume (t : T) (f : Nat) (r : ι → W)

end

variable {T ι W : Type} [DecidableEq T] [DecidableEq ι]

/-- The fibers a thread has set the flag of. -/
def Pc.holds : Pc ι W → List Nat
  | .thread _ => []
  | .run f _ | .load f _ _ | .boot f _ => [f]
  | .locked f frame _ | .save f frame _ _ | .unlock f frame _ => [f, frame.target]

/-- Compiled code changes the registers. -/
def Pc.work (r : ι → W) : Pc ι W → Pc ι W
  | .thread _ => .thread r
  | .run f _ => .run f r
  | .locked f frame _ => .locked f frame r
  | .boot f _ => .boot f r
  | pc => pc

namespace Ult

def goto (s : Ult T ι W) (t : T) (pc : Pc ι W) : Ult T ι W := { s with pc := update s.pc t pc }

def setRunning (s : Ult T ι W) (f : Nat) (b : Bool) : Ult T ι W := { s with running := update s.running f b }

def setCurrent (s : Ult T ι W) (t : T) (f : Nat) : Ult T ι W := { s with current := update s.current t (some f) }

def setFrame (s : Ult T ι W) (f : Nat) (frame : Option Frame) : Ult T ι W := { s with frame := update s.frame f frame }

def setContext (s : Ult T ι W) (f : Nat) (r : ι → W) : Ult T ι W := { s with context := update s.context f r }

/-- A fiber allocated with `running` set and a context saved. -/
def newFiber (s : Ult T ι W) (r : ι → W) : Ult T ι W :=
  { ((s.setRunning s.ultId true).setContext s.ultId r).setFrame s.ultId none with ultId := s.ultId + 1 }

end Ult

/-- One access of one thread. `zero` is the test `(int) rax == 0`, and `val` the 1 that `long_jmp` is passed. -/
inductive Ult.Step (rax : ι) (zero : W → Bool) (val : W) : Ult T ι W → Event T ι W → Ult T ι W → Prop
  | work {s : Ult T ι W} (t : T) (r : ι → W) : Step rax zero val s (.silent t) (s.goto t ((s.pc t).work r))
  /-- `ult_convert` -/
  | convert {s : Ult T ι W} {t : T} {r : ι → W} : s.pc t = .thread r →
      Step rax zero val s (.convert t s.ultId) (((s.newFiber r).setCurrent t s.ultId).goto t (.run s.ultId r))
  /-- `ult_creat` up to `set_jmp`; the handler of `SIGUSR1` has saved `r₀` on the new stack -/
  | creat {s : Ult T ι W} {t : T} {f cur : Nat} {r : ι → W} (r₀ : ι → W) : s.pc t = .run f r →
      s.current t = some cur →
      Step rax zero val s (.create t s.ultId) ((s.newFiber r₀).goto t (.locked cur (.create s.ultId) r))
  /-- `ult_switch_to`: no target, or its flag is set -/
  | refused {s : Ult T ι W} {t : T} {f : Nat} {r : ι → W} (target : Option Nat) : s.pc t = .run f r →
      (∀ x ∈ target, x < s.ultId ∧ s.running x = true) → Step rax zero val s (.silent t) s
  /-- `ult_switch_to`: `ult_trylock` sets the flag -/
  | trylock {s : Ult T ι W} {t : T} {f cur target : Nat} {r : ι → W} : s.pc t = .run f r → s.current t = some cur →
      target < s.ultId → s.running target = false →
      Step rax zero val s (.lock t target (s.context target))
        (((s.setRunning target true).setCurrent t target).goto t (.locked cur (.switch target) r))
  /-- `context_create_boot`: `ult_lock(current)` finds the flag clear -/
  | lock {s : Ult T ι W} {t : T} {f cur : Nat} {r : ι → W} : s.pc t = .boot f r → s.current t = some cur →
      s.running cur = false →
      Step rax zero val s (.lock t cur (s.context cur)) ((s.setRunning cur true).goto t (.locked f (.switch cur) r))
  | setJmp {s : Ult T ι W} {t : T} {f : Nat} {frame : Frame} {r : ι → W} : s.pc t = .locked f frame r →
      Step rax zero val s (.setJmp t f r) ((s.setFrame f (some frame)).goto t (.save f frame r []))
  | store {s : Ult T ι W} {t : T} {f : Nat} {frame : Frame} {r : ι → W} {saved : List ι} {i : ι} :
      s.pc t = .save f frame r saved → i ∉ saved →
      Step rax zero val s (.silent t)
        ((s.setContext f (update (s.context f) i (r i))).goto t (.save f frame r (i :: saved)))
  | saved {s : Ult T ι W} {t : T} {f : Nat} {frame : Frame} {r : ι → W} {saved : List ι} :
      s.pc t = .save f frame r saved → (∀ i, i ∈ saved) →
      Step rax zero val s (.silent t) (s.goto t (.unlock f frame r))
  | unlock {s : Ult T ι W} {t : T} {f : Nat} {frame : Frame} {r : ι → W} : s.pc t = .unlock f frame r →
      Step rax zero val s (.unlock t f r)
        ((s.setRunning f false).goto t (.load frame.target frame.one fun _ => none))
  | fetch {s : Ult T ι W} {t : T} {f : Nat} {one : Bool} {got : ι → Option W} {i : ι} :
      s.pc t = .load f one got → got i = none →
      Step rax zero val s (.silent t) (s.goto t (.load f one (update got i (some (s.context f i)))))
  /-- `set_jmp` returns a value other than 0 in the handler: `context_create_boot` -/
  | boot {s : Ult T ι W} {t : T} {f : Nat} {one : Bool} {got : ι → Option W} {r : ι → W} :
      s.pc t = .load f one got → (∀ i, got i = some (r i)) → zero (if one then val else r rax) = false →
      s.frame f = none → Step rax zero val s (.silent t) (s.goto t (.boot f r))
  /-- `set_jmp` returns a value other than 0 in a switch: the fiber goes on -/
  | resume {s : Ult T ι W} {t : T} {f : Nat} {one : Bool} {got : ι → Option W} {r : ι → W} {frame : Frame} :
      s.pc t = .load f one got → (∀ i, got i = some (r i)) → zero (if one then val else r rax) = false →
      s.frame f = some frame →
      Step rax zero val s (.resume t f r) (s.goto t (.run f (update r rax (if one then val else r rax))))
  /-- `set_jmp` returns 0 once more: the branch of the switch is taken again -/
  | again {s : Ult T ι W} {t : T} {f : Nat} {one : Bool} {got : ι → Option W} {r : ι → W} {frame : Frame} :
      s.pc t = .load f one got → (∀ i, got i = some (r i)) → zero (if one then val else r rax) = true →
      s.frame f = some frame → Step rax zero val s (.silent t) (s.goto t (.unlock f frame r))

/-- Threads that have not called the library. -/
def Ult.Init (s : Ult T ι W) : Prop := s.ultId = 0 ∧ (∀ f, s.running f = false) ∧ ∀ t, ∃ r, s.pc t = .thread r

/-- No context is saved with an `rax` that `set_jmp` would return as 0. -/
def Event.nonzero (rax : ι) (zero : W → Bool) : Event T ι W → Prop
  | .setJmp _ _ r => zero (r rax) = false
  | _ => True

/-- What an event does to the fibers as things that are held by threads or lie with a context. -/
def Event.visible : Event T ι W → Option (Baton.Event T Nat (ι → W))
  | .silent _ | .setJmp _ _ _ | .resume _ _ _ => none
  | .convert t f | .create t f => some (.make t f)
  | .lock t f r => some (.take t f r)
  | .unlock t f r => some (.put t f r)

end Userspace

end LinuxFibers
