import LinuxFibers.Lists.Types

/-!
# Fiber-local storage of the lists

`flsAlloc`, `flsFree`, `flsGetValue` and `flsSetValue` walk to the fiber the calling thread runs and test their
argument under the lock.
-/

namespace LinuxFibers.Lists

/-- A `long` that is an index of `fls` and `bitmap_fls`. -/
def InRange (i : Int) : Prop := 0 ≤ i ∧ i < flsSize

instance (i : Int) : Decidable (InRange i) := inferInstanceAs (Decidable (_ ∧ _))

def InRange.toFin {i : Int} (h : InRange i) : Fin flsSize :=
  ⟨i.toNat, by have := h.1; have := h.2; omega⟩

/-- `a[i]` for a `long` index. -/
def readAt {α : Type} (a : Fin flsSize → α) (i : Int) : Except Stop α :=
  if h : InRange i then .ok (a h.toFin) else .error (.fault .outOfBounds)

/-- `a[i] = v` for a `long` index. -/
def writeAt {α : Type} (a : Fin flsSize → α) (i : Int) (v : α) : Except Stop (Fin flsSize → α) :=
  if h : InRange i then .ok (Function.update a h.toFin v) else .error (.fault .outOfBounds)

/-- The search loop of `flsAlloc`: the first index whose bit is clear. -/
def firstClear (bitmap : Fin flsSize → BitVec 64) : Option (Fin flsSize) :=
  (List.finRange flsSize).find? fun i => bitmap i = 0

/-- What `index` holds after the loop, having held `index` before it. -/
def foundIndex (bitmap : Fin flsSize → BitVec 64) (index : Int) : Int :=
  match firstClear bitmap with
  | some k => k.val
  | none => index

namespace State

def modFiber (s : State) (i j : Nat) (g : Fiber → Fiber) : State := s.modProcesso i fun p => p.modFiber j g

end State

/-- `index` is what the variable holds when it is declared. -/
def flsAlloc (c : Task) (index : Int) (s : State) : Except Stop (State × Int) := do
  let s ← spinLock s
  match s.findProcesso c.tgid with
  | none => .ok (spinUnlock s, -1)
  | some (i, p) =>
    match p.findRunner c.pid with
    | none => .ok (spinUnlock s, -1)
    | some (j, node) =>
      if ¬ node.running then .ok (spinUnlock s, -1)
      else do
        let f ← deref node.fiber
        match f.bitmapFls with
        | none => .ok (spinUnlock s, -1)
        | some bitmap =>
          if foundIndex bitmap index = flsSize then .ok (spinUnlock s, -1)
          else do
            let bitmap' ← writeAt bitmap (foundIndex bitmap index) 1
            .ok (spinUnlock (s.modFiber i j fun f => { f with bitmapFls := some bitmap' }), foundIndex bitmap index)

def flsFree (c : Task) (index : Int) (s : State) : Except Stop (State × Bool) := do
  let s ← spinLock s
  match s.findProcesso c.tgid with
  | none => .ok (spinUnlock s, false)
  | some (i, p) =>
    match p.findRunner c.pid with
    | none => .ok (spinUnlock s, false)
    | some (j, node) =>
      if ¬ node.running then .ok (spinUnlock s, false)
      else do
        let f ← deref node.fiber
        match f.bitmapFls with
        | none => .ok (spinUnlock s, false)
        | some bitmap =>
          if index ≥ flsSize ∨ index < 0 then .ok (spinUnlock s, false)
          else do
            let bit ← readAt bitmap index
            if bit = 0 then .ok (spinUnlock s, false)
            else do
              let bitmap ← writeAt bitmap index 0
              .ok (spinUnlock (s.modFiber i j fun f => { f with bitmapFls := some bitmap }), true)

def flsGetValue (c : Task) (pos : Int) (s : State) : Except Stop (State × Int) := do
  let s ← spinLock s
  match s.findProcesso c.tgid with
  | none => .ok (spinUnlock s, -1)
  | some (_, p) =>
    match p.findRunner c.pid with
    | none => .ok (spinUnlock s, -1)
    | some (_, node) =>
      if ¬ node.running then .ok (spinUnlock s, -1)
      else do
        let f ← deref node.fiber
        match f.fls with
        | none => .ok (spinUnlock s, -1)
        | some fls =>
          match f.bitmapFls with
          | none => .ok (spinUnlock s, -1)
          | some bitmap =>
            -- the only return that does not give the lock back
            if pos ≥ flsSize ∨ pos < 0 then .ok (s, -1)
            else do
              let bit ← readAt bitmap pos
              if bit = 0 then .ok (spinUnlock s, -1)
              else do
                let ret ← readAt fls pos
                .ok (spinUnlock s, ret)

def flsSetValue (c : Task) (pos val : Int) (s : State) : Except Stop (State × Unit) := do
  let s ← spinLock s
  match s.findProcesso c.tgid with
  | none => .ok (spinUnlock s, ())
  | some (i, p) =>
    match p.findRunner c.pid with
    | none => .ok (spinUnlock s, ())
    | some (j, node) =>
      if ¬ node.running then .ok (spinUnlock s, ())
      else do
        let f ← deref node.fiber
        match f.fls with
        | none => .ok (spinUnlock s, ())
        | some fls =>
          match f.bitmapFls with
          | none => .ok (spinUnlock s, ())
          | some bitmap =>
            if pos ≥ flsSize ∨ pos < 0 then .ok (spinUnlock s, ())
            else do
              let bit ← readAt bitmap pos
              if bit = 0 then .ok (spinUnlock s, ())
              else do
                let fls ← writeAt fls pos val
                .ok (spinUnlock (s.modFiber i j fun f => { f with fls := some fls }), ())

end LinuxFibers.Lists
