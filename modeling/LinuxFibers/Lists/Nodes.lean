import Mathlib.Data.List.Nodup
import Mathlib.Data.Fintype.Basic
import LinuxFibers.Lists.Machine

/-!
# The lists of fibers

What holds of a list of fibers between two operations (`Wf`): the ids count down to 1 from the head on, every node has
its fiber and its arrays, and no thread is the runner of two nodes. `FiberProcessi.fibers` reads the fibers of the machine
out of such a list, and the lemmas say what a new node or a change of one node does to them.
-/

namespace LinuxFibers.Lists

open SlotStorage
open Function (update update_self update_of_ne)

/-! ### Walks -/

section walk

variable {α : Type} {found : α → Bool} {l : List α} {i : Nat} {a : α}

theorem walk_eq_some : walk found l = some (i, a) ↔
    ∃ u w, l = u ++ a :: w ∧ u.length = i ∧ found a = true ∧ ∀ b ∈ u, found b = false := by
  induction l generalizing i with
  | nil =>
    constructor
    · intro h
      cases h
    · rintro ⟨u, w, h, -⟩
      exact absurd h.symm (List.append_ne_nil_of_right_ne_nil u (List.cons_ne_nil a w))
  | cons b l ih =>
    rw [walk]
    by_cases hb : found b = true
    · rw [if_pos hb]
      constructor
      · intro h
        obtain ⟨rfl, rfl⟩ := Prod.mk.inj (Option.some.inj h)
        exact ⟨[], l, rfl, rfl, hb, fun c hc => absurd hc List.not_mem_nil⟩
      · rintro ⟨u, w, h, rfl, -, hu⟩
        cases u with
        | nil =>
          obtain ⟨rfl, -⟩ := List.cons.inj h
          rfl
        | cons c u =>
          obtain ⟨rfl, -⟩ := List.cons.inj h
          rw [hu b List.mem_cons_self] at hb
          cases hb
    · rw [if_neg hb]
      constructor
      · intro h
        obtain ⟨⟨j, c⟩, hj, hjc⟩ := Option.map_eq_some_iff.mp h
        obtain ⟨rfl, rfl⟩ := Prod.mk.inj hjc
        obtain ⟨u, w, rfl, rfl, ha, hu⟩ := ih.mp hj
        refine ⟨b :: u, w, rfl, rfl, ha, fun d hd => ?_⟩
        obtain rfl | hd := List.mem_cons.mp hd
        · exact Bool.eq_false_iff.mpr hb
        · exact hu d hd
      · rintro ⟨u, w, h, rfl, ha, hu⟩
        cases u with
        | nil =>
          obtain ⟨rfl, -⟩ := List.cons.inj h
          exact absurd ha hb
        | cons c u =>
          obtain ⟨rfl, rfl⟩ := List.cons.inj h
          rw [ih.mpr ⟨u, w, rfl, rfl, ha, fun d hd => hu d (List.mem_cons_of_mem _ hd)⟩]
          rfl

theorem walk_eq_none : walk found l = none ↔ ∀ a ∈ l, found a = false := by
  induction l with
  | nil => exact iff_of_true rfl fun a ha => absurd ha List.not_mem_nil
  | cons b l ih =>
    rw [walk, List.forall_mem_cons]
    by_cases hb : found b = true
    · rw [if_pos hb]
      exact iff_of_false (Option.some_ne_none _) fun h => by rw [h.1] at hb; cases hb
    · rw [if_neg hb, Option.map_eq_none_iff, ih]
      exact ⟨fun h => ⟨Bool.eq_false_iff.mpr hb, h⟩, fun h => h.2⟩

/-- A walk to something that is there, and is the only one. -/
theorem walk_of_mem (found : α → Bool) (ha : a ∈ l) (hfound : found a = true) (hone : ∀ b ∈ l, found b = true → b = a) :
    ∃ i, walk found l = some (i, a) := by
  match h : walk found l with
  | none =>
    rw [walk_eq_none.mp h a ha] at hfound
    cases hfound
  | some (i, b) =>
    obtain ⟨u, w, rfl, -, hb, -⟩ := walk_eq_some.mp h
    exact ⟨i, by rw [hone b (by simp) hb]⟩

theorem modify_append_cons (u w : List α) (a : α) (g : α → α) : (u ++ a :: w).modify u.length g = u ++ g a :: w := by
  induction u with
  | nil => rfl
  | cons b u ih => exact congrArg (List.cons b) ih

theorem mem_middle {u w : List α} {a b : α} : b ∈ u ++ a :: w ↔ b = a ∨ b ∈ u ++ w := by
  simp only [List.mem_append, List.mem_cons]
  tauto

end walk

/-! ### What holds between two operations -/

/-- The ids from `n` down to 1. -/
def idsDown : Nat → List Int
  | 0 => []
  | n + 1 => ((n : Int) + 1) :: idsDown n

theorem mem_idsDown {n : Nat} {id : Int} : id ∈ idsDown n ↔ 1 ≤ id ∧ id ≤ n := by
  induction n with
  | zero =>
    refine iff_of_false List.not_mem_nil ?_
    omega
  | succ n ih =>
    rw [idsDown, List.mem_cons, ih]
    omega

theorem nodup_idsDown (n : Nat) : (idsDown n).Nodup := by
  induction n with
  | zero => exact List.nodup_nil
  | succ n ih =>
    refine List.nodup_cons.mpr ⟨fun h => ?_, ih⟩
    have := (mem_idsDown.mp h).2
    omega

/-- The fiber of a node is there, with both arrays. -/
def ListaFiber.Whole (n : ListaFiber) : Prop := ∃ f, n.fiber = some f ∧ f.fls ≠ none ∧ f.bitmapFls ≠ none

structure Wf (l : List ListaFiber) : Prop where
  ids : l.map ListaFiber.id = idsDown l.length
  whole : ∀ n ∈ l, n.Whole
  running : ∀ n ∈ l, n.runner ≠ 0 → n.running = true
  runners : l.Pairwise fun n m => n.runner = m.runner → n.runner = 0

namespace Wf

variable {l u w : List ListaFiber} {n n' m : ListaFiber}

theorem eq_of_id (h : Wf l) (hn : n ∈ l) (hm : m ∈ l) (hid : n.id = m.id) : n = m := by
  have hnodup : (l.map ListaFiber.id).Nodup := by
    rw [h.ids]
    exact nodup_idsDown _
  exact List.inj_on_of_nodup_map hnodup hn hm hid

theorem id_mem (h : Wf l) (hn : n ∈ l) : 1 ≤ n.id ∧ n.id ≤ l.length := by
  have hmem := List.mem_map_of_mem (f := ListaFiber.id) hn
  rw [h.ids] at hmem
  exact mem_idsDown.mp hmem

theorem symm_runners (h : n.runner = m.runner → n.runner = 0) (hmn : m.runner = n.runner) : m.runner = 0 :=
  hmn.trans (h hmn.symm)

theorem eq_of_runner (h : Wf l) (hn : n ∈ l) (hm : m ∈ l) (hrunner : n.runner = m.runner) (hzero : n.runner ≠ 0) :
    n = m := by
  by_contra hne
  exact hzero (List.Pairwise.forall_of_forall_of_flip (R := fun n m : ListaFiber => n.runner = m.runner → n ≠ m →
    n.runner = 0) (fun _ _ _ h => absurd rfl h) (h.runners.imp fun h hr _ => h hr)
    (h.runners.imp fun h hr _ => symm_runners h hr) hn hm hrunner hne)

theorem nil : Wf [] where
  ids := rfl
  whole _ hn := absurd hn List.not_mem_nil
  running _ hn := absurd hn List.not_mem_nil
  runners := List.Pairwise.nil

/-- The other nodes have other ids. -/
theorem id_ne (h : Wf (u ++ n :: w)) (hm : m ∈ u ++ w) : m.id ≠ n.id := by
  have hnodup : ((u ++ n :: w).map ListaFiber.id).Nodup := by
    rw [h.ids]
    exact nodup_idsDown _
  have hperm : ((u ++ n :: w).map ListaFiber.id).Perm ((n :: (u ++ w)).map ListaFiber.id) :=
    List.perm_middle.map _
  have hcons := List.nodup_cons.mp (hperm.nodup_iff.mp hnodup)
  exact fun hid => hcons.1 (hid ▸ List.mem_map_of_mem hm)

/-- One node is assigned to. -/
theorem replace (h : Wf (u ++ n :: w)) (hid : n'.id = n.id) (hwhole : n'.Whole)
    (hrunning : n'.runner ≠ 0 → n'.running = true)
    (hrunner : ∀ m ∈ u ++ w, n'.runner = m.runner → n'.runner = 0) : Wf (u ++ n' :: w) := by
  have hold : ∀ m ∈ u ++ w, m ∈ u ++ n :: w := fun m hm => mem_middle.mpr (.inr hm)
  refine ⟨?_, fun m hm => ?_, fun m hm => ?_, ?_⟩
  · have hids := h.ids
    simp only [List.map_append, List.map_cons, List.length_append, List.length_cons, hid] at hids ⊢
    exact hids
  · obtain rfl | hm := mem_middle.mp hm
    · exact hwhole
    · exact h.whole m (hold m hm)
  · obtain rfl | hm := mem_middle.mp hm
    · exact hrunning
    · exact h.running m (hold m hm)
  · have hrest := (List.pairwise_middle fun h => symm_runners h).mp h.runners
    refine (List.pairwise_middle fun h => symm_runners h).mpr (List.pairwise_cons.mpr ⟨hrunner, ?_⟩)
    exact (List.pairwise_cons.mp hrest).2

/-- A node is linked at the head. -/
theorem push (h : Wf l) (hid : n.id = l.length + 1) (hwhole : n.Whole) (hrunning : n.runner ≠ 0 → n.running = true)
    (hrunner : ∀ m ∈ l, n.runner = m.runner → n.runner = 0) : Wf (n :: l) where
  ids := by rw [List.map_cons, List.length_cons, idsDown, h.ids, hid]
  whole := List.forall_mem_cons.mpr ⟨hwhole, h.whole⟩
  running := List.forall_mem_cons.mpr ⟨hrunning, h.running⟩
  runners := List.pairwise_cons.mpr ⟨hrunner, h.runners⟩

end Wf

/-! ### The fibers in a list -/

/-- An index is handed out when its bit is set. -/
def Fiber.storage (f : Fiber) : Storage := Slots.ofArrays (f.bitmapFls.getD fun _ => 0) (f.fls.getD fun _ => 0)

def ListaFiber.coroutine (n : ListaFiber) : Option Coroutine :=
  n.fiber.map fun f => { saved := ⟨f.regs, f.fpu⟩, free := !n.running, fls := f.storage }

def fiberOf (l : List ListaFiber) (id : Int) : Option Coroutine :=
  (walk (fun n => n.id = id) l).bind fun x => x.2.coroutine

/-- No thread has the id 0, which stands for no runner. -/
def currentOf (l : List ListaFiber) (pid : Int) : Option Int :=
  if pid = 0 then none else (walk (fun n => n.runner = pid) l).map fun x => x.2.id

def fibersOf (l : List ListaFiber) : Fibers := { count := l.length, current := currentOf l, fiber := fiberOf l }

section view

variable {l u w : List ListaFiber} {n n' : ListaFiber} {id pid : Int} {x : Coroutine}

theorem fiberOf_mem (h : Wf l) (hn : n ∈ l) : fiberOf l n.id = n.coroutine := by
  obtain ⟨i, hi⟩ := walk_of_mem (fun m : ListaFiber => m.id = n.id) hn (decide_eq_true rfl) fun m hm hid =>
    h.eq_of_id hm hn (of_decide_eq_true hid)
  rw [fiberOf, hi]
  rfl

theorem fiberOf_none (h : ∀ n ∈ l, n.id ≠ id) : fiberOf l id = none := by
  rw [fiberOf, walk_eq_none.mpr fun n hn => decide_eq_false (h n hn)]
  rfl

theorem currentOf_zero : currentOf l 0 = none := if_pos rfl

theorem currentOf_mem (h : Wf l) (hn : n ∈ l) (hzero : n.runner ≠ 0) : currentOf l n.runner = some n.id := by
  obtain ⟨i, hi⟩ := walk_of_mem (fun m : ListaFiber => m.runner = n.runner) hn (decide_eq_true rfl) fun m hm hrunner =>
    h.eq_of_runner hm hn (of_decide_eq_true hrunner) (by rw [of_decide_eq_true hrunner]; exact hzero)
  rw [currentOf, if_neg hzero, hi]
  rfl

theorem currentOf_none (h : ∀ n ∈ l, n.runner ≠ pid) : currentOf l pid = none := by
  unfold currentOf
  split_ifs
  · rfl
  · rw [walk_eq_none.mpr fun n hn => decide_eq_false (h n hn)]
    rfl

/-- What the node `n'` in place of another one changes: its own fiber. -/
theorem fiberOf_replace (h : Wf (u ++ n :: w)) (h' : Wf (u ++ n' :: w)) (hid : n'.id = n.id)
    (hx : n'.coroutine = some x) : fiberOf (u ++ n' :: w) = update (fiberOf (u ++ n :: w)) n.id (some x) := by
  funext id
  by_cases hself : id = n.id
  · rw [hself, update_self, ← hid, ← hx]
    exact fiberOf_mem h' (by simp)
  · rw [update_of_ne hself]
    by_cases hother : ∃ m ∈ u ++ w, m.id = id
    · obtain ⟨m, hm, rfl⟩ := hother
      have hmem : m ∈ u ++ n :: w ∧ m ∈ u ++ n' :: w := ⟨mem_middle.mpr (.inr hm), mem_middle.mpr (.inr hm)⟩
      rw [fiberOf_mem h hmem.1, fiberOf_mem h' hmem.2]
    · have hnone : ∀ n₁, n₁.id = n.id → fiberOf (u ++ n₁ :: w) id = none := by
        intro n₁ h₁
        apply fiberOf_none
        intro m hm hmid
        obtain rfl | hm := mem_middle.mp hm
        · exact hself (hmid.symm.trans h₁)
        · exact hother ⟨m, hm, hmid⟩
      rw [hnone n rfl, hnone n' hid]

/-- The threads that neither node has for its runner run what they ran. -/
theorem currentOf_replace (h : Wf (u ++ n :: w)) (h' : Wf (u ++ n' :: w)) (hn : n.runner ≠ pid)
    (hn' : n'.runner ≠ pid) : currentOf (u ++ n' :: w) pid = currentOf (u ++ n :: w) pid := by
  by_cases hzero : pid = 0
  · rw [hzero, currentOf_zero, currentOf_zero]
  · by_cases hother : ∃ m ∈ u ++ w, m.runner = pid
    · obtain ⟨m, hm, rfl⟩ := hother
      have hmem : m ∈ u ++ n :: w ∧ m ∈ u ++ n' :: w := ⟨mem_middle.mpr (.inr hm), mem_middle.mpr (.inr hm)⟩
      rw [currentOf_mem h hmem.1 hzero, currentOf_mem h' hmem.2 hzero]
    · have hnone : ∀ n₁, n₁.runner ≠ pid → currentOf (u ++ n₁ :: w) pid = none := by
        intro n₁ h₁
        apply currentOf_none
        intro m hm hmrunner
        obtain rfl | hm := mem_middle.mp hm
        · exact h₁ hmrunner
        · exact hother ⟨m, hm, hmrunner⟩
      rw [hnone n hn, hnone n' hn']

/-- The node keeps its runner. -/
theorem currentOf_same (h : Wf (u ++ n :: w)) (h' : Wf (u ++ n' :: w)) (hid : n'.id = n.id)
    (hrunner : n'.runner = n.runner) : currentOf (u ++ n' :: w) = currentOf (u ++ n :: w) := by
  funext pid
  by_cases hself : n.runner = pid
  · subst hself
    by_cases hzero : n.runner = 0
    · rw [hzero, currentOf_zero, currentOf_zero]
    · rw [currentOf_mem h (by simp) hzero, ← hrunner, currentOf_mem h' (by simp) (by rw [hrunner]; exact hzero), hid]
  · exact currentOf_replace h h' hself (by rw [hrunner]; exact hself)

/-- The node's runner leaves it. -/
theorem currentOf_leave (h : Wf (u ++ n :: w)) (h' : Wf (u ++ n' :: w)) (hzero : n.runner ≠ 0)
    (hleft : n'.runner = 0) : currentOf (u ++ n' :: w) = update (currentOf (u ++ n :: w)) n.runner none := by
  funext pid
  by_cases hself : pid = n.runner
  · rw [hself, update_self]
    apply currentOf_none
    intro m hm hrunner
    obtain rfl | hm := mem_middle.mp hm
    · exact hzero (hrunner.symm.trans hleft)
    · have hmem : m ∈ u ++ n :: w := mem_middle.mpr (.inr hm)
      refine h.id_ne hm ?_
      rw [h.eq_of_runner hmem (by simp) hrunner (by rw [hrunner]; exact hzero)]
  · rw [update_of_ne hself]
    by_cases hpid : pid = 0
    · rw [hpid, currentOf_zero, currentOf_zero]
    · exact currentOf_replace h h' (Ne.symm hself) (by rw [hleft]; exact Ne.symm hpid)

/-- A thread enters the node, which had no runner. -/
theorem currentOf_enter (h : Wf (u ++ n :: w)) (h' : Wf (u ++ n' :: w)) (hid : n'.id = n.id) (hzero : n.runner = 0)
    (hpid : n'.runner ≠ 0) : currentOf (u ++ n' :: w) = update (currentOf (u ++ n :: w)) n'.runner (some n.id) := by
  funext pid
  by_cases hself : pid = n'.runner
  · rw [hself, update_self, currentOf_mem h' (by simp) hpid, hid]
  · rw [update_of_ne hself]
    by_cases hz : pid = 0
    · rw [hz, currentOf_zero, currentOf_zero]
    · exact currentOf_replace h h' (by rw [hzero]; exact Ne.symm hz) (Ne.symm hself)

/-- A node at the head adds its fiber. -/
theorem fiberOf_push (h : Wf l) (h' : Wf (n :: l)) (hx : n.coroutine = some x) :
    fiberOf (n :: l) = update (fiberOf l) (l.length + 1) (some x) := by
  have hid : n.id = l.length + 1 := (List.cons.inj h'.ids).1
  funext id
  by_cases hself : id = l.length + 1
  · rw [hself, update_self, ← hid, ← hx]
    exact fiberOf_mem h' List.mem_cons_self
  · rw [update_of_ne hself]
    by_cases hother : ∃ m ∈ l, m.id = id
    · obtain ⟨m, hm, rfl⟩ := hother
      rw [fiberOf_mem h hm, fiberOf_mem h' (List.mem_cons_of_mem _ hm)]
    · rw [fiberOf_none (l := l) fun m hm hmid => hother ⟨m, hm, hmid⟩]
      apply fiberOf_none
      intro m hm hmid
      obtain rfl | hm := List.mem_cons.mp hm
      · exact hself (hmid.symm.trans hid)
      · exact hother ⟨m, hm, hmid⟩

theorem currentOf_push (h : Wf l) (h' : Wf (n :: l)) (hpid : n.runner ≠ pid) :
    currentOf (n :: l) pid = currentOf l pid := by
  by_cases hzero : pid = 0
  · rw [hzero, currentOf_zero, currentOf_zero]
  · by_cases hother : ∃ m ∈ l, m.runner = pid
    · obtain ⟨m, hm, rfl⟩ := hother
      rw [currentOf_mem h hm hzero, currentOf_mem h' (List.mem_cons_of_mem _ hm) hzero]
    · rw [currentOf_none (l := l) fun m hm hmrunner => hother ⟨m, hm, hmrunner⟩]
      apply currentOf_none
      intro m hm hmrunner
      obtain rfl | hm := List.mem_cons.mp hm
      · exact hpid hmrunner
      · exact hother ⟨m, hm, hmrunner⟩

end view

end LinuxFibers.Lists
