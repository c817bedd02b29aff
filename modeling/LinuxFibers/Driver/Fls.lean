import LinuxFibers.Driver.Types

/-!
# Fiber-local storage

`flsAlloc`, `flsFree`, `flsGetValue` and `flsSetValue` make the same walk to the fiber the calling
thread runs and differ in what they do with its two arrays.
-/

namespace LinuxFibers

open HeapTable

/-- A `long` that is an index of `fls` and `bitmap_fls`. -/
def InRange (i : Int) : Prop := 0 ≤ i ∧ i < flsSize

instance (i : Int) : Decidable (InRange i) := inferInstanceAs (Decidable (_ ∧ _))

def InRange.toFin {i : Int} (h : InRange i) : Fin flsSize :=
  ⟨i.toNat, by have := h.1; have := h.2; omega⟩

/-- `a[i]` for a `long` index. -/
def readAt {α : Type} (a : Fin flsSize → α) (i : Int) : Except Fault α :=
  if h : InRange i then .ok (a h.toFin) else .error .outOfBounds

/-- `a[i] = v` for a `long` index. -/
def writeAt {α : Type} (a : Fin flsSize → α) (i : Int) (v : α) : Except Fault (Fin flsSize → α) :=
  if h : InRange i then .ok (Function.update a h.toFin v) else .error .outOfBounds

/-- The body for the calling thread's `Thread`: `body` on the fiber it runs. -/
def runnerThread {σ : Type} (body : Fiber → σ → Except Fault (Fiber × σ)) (thread : Nat) (p : Process)
    (x : σ) : Except Fault (Process × σ) := do
  let t ← load p.listathread thread
  match t.runner with
  | none => .ok (p, x)
  | some runner => do
    let f ← load p.listafiber runner
    let (f, x) ← body f x
    .ok (p.modFiber runner fun _ => f, x)

/-- The walk to `lista_thread_iter->runner` in every entry of the process. -/
def onRunner {σ : Type} (c : Task) (body : Fiber → σ → Except Fault (Fiber × σ)) (s : State) (x : σ) :
    Except Fault (State × σ) := do
  let (T, x) ← forEachProcess c.tgid (forEachThread c.pid (runnerThread body)) s.processi x
  .ok ({ s with processi := T }, x)

/-- The search loop of `flsAlloc`: the first index whose bit is clear. -/
def firstClear (bitmap : Fin flsSize → BitVec 64) : Option (Fin flsSize) :=
  (List.finRange flsSize).find? fun i => bitmap i = 0

def flsAllocFiber (f : Fiber) (index : Int) : Except Fault (Fiber × Int) :=
  let index : Int := match firstClear f.bitmapFls.val with
    | some i => i.val
    | none => index
  if index < flsSize then do
    let bitmap ← writeAt f.bitmapFls.val index 1
    .ok ({ f with bitmapFls := { f.bitmapFls with val := bitmap } }, index)
  else .ok (f, index)

def flsFreeFiber (index : Int) (f : Fiber) (ret : Bool) : Except Fault (Fiber × Bool) :=
  if index < flsSize ∨ index ≥ 0 then do
    let bit ← readAt f.bitmapFls.val index
    if bit ≠ 0 then do
      let bitmap ← writeAt f.bitmapFls.val index 0
      .ok ({ f with bitmapFls := { f.bitmapFls with val := bitmap } }, true)
    else .ok (f, ret)
  else .ok (f, ret)

def flsGetValueFiber (pos : Int) (f : Fiber) (ret : Int) : Except Fault (Fiber × Int) :=
  if pos < flsSize ∨ pos ≥ 0 then do
    let bit ← readAt f.bitmapFls.val pos
    if bit ≠ 0 then do
      let v ← readAt f.fls.val pos
      .ok (f, v)
    else .ok (f, ret)
  else .ok (f, ret)

def flsSetValueFiber (pos val : Int) (f : Fiber) (x : Unit) : Except Fault (Fiber × Unit) :=
  if pos < flsSize ∨ pos ≥ 0 then do
    let bit ← readAt f.bitmapFls.val pos
    if bit ≠ 0 then do
      let fls ← writeAt f.fls.val pos val
      .ok ({ f with fls := { f.fls with val := fls } }, x)
    else .ok (f, x)
  else .ok (f, x)

def flsAlloc (c : Task) (s : State) : Except Fault (State × Int) := onRunner c flsAllocFiber s (-1)

def flsFree (c : Task) (index : Int) (s : State) : Except Fault (State × Bool) :=
  onRunner c (flsFreeFiber index) s false

def flsGetValue (c : Task) (pos : Int) (s : State) : Except Fault (State × Int) :=
  onRunner c (flsGetValueFiber pos) s (-1)

def flsSetValue (c : Task) (pos val : Int) (s : State) : Except Fault (State × Unit) :=
  onRunner c (flsSetValueFiber pos val) s ()

end LinuxFibers
