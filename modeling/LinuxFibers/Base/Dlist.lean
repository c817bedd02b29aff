import Mathlib.Data.List.Perm.Subperm
import LinuxFibers.Base.Table

/-!
# Doubly linked lists

A node of a heap points to its two neighbours: `prev` leads away from the head of the list and `next` back to it.
`Seg T back l fwd` says that the blocks of `l`, in this order, form a segment of such a list, between the neighbours
`back` and `fwd`. A segment is cut and joined at any place (`seg_append`), which is what pushing a node in front, taking
one out and walking along come down to.
-/

namespace Dlist

open HeapTable

structure Node (α : Type) where
  data : α
  next : Option Nat
  prev : Option Nat

variable {α ε : Type}

/-- The first node of a segment, or what follows it. -/
def front : Table α → Option Nat → Option Nat
  | [], fwd => fwd
  | b :: _, _ => some b.addr

/-- The last node of a segment, or what precedes it. -/
def rear : Option Nat → Table α → Option Nat
  | back, [] => back
  | _, b :: l => rear (some b.addr) l

def Seg (T : Table (Node α)) : Option Nat → Table α → Option Nat → Prop
  | _, [], _ => True
  | back, b :: l, fwd => T.deref b.addr = some ⟨b.val, back, front l fwd⟩ ∧ Seg T (some b.addr) l fwd

/-- The list from `head` on, to its end. -/
structure Listed (T : Table (Node α)) (head : Option Nat) (l : Table α) : Prop where
  head : head = front l none
  seg : Seg T none l none
  nodup : l.addrs.Nodup

/-- `a->next = v`, unless `a` is the null pointer. -/
def setNext (a v : Option Nat) (T : Table (Node α)) : Table (Node α) :=
  match a with
  | none => T
  | some a => T.update a fun n => { n with next := v }

/-- `a->prev = v`, unless `a` is the null pointer. -/
def setPrev (a v : Option Nat) (T : Table (Node α)) : Table (Node α) :=
  match a with
  | none => T
  | some a => T.update a fun n => { n with prev := v }

/-- Follow `prev` to the first node that the loop stops at, at most `n` nodes far. -/
def walk (dangling spent : ε) (stop : α → Bool) (T : Table (Node α)) : Nat → Option Nat → Except ε (Option Nat)
  | _, none => .ok none
  | 0, some _ => .error spent
  | n + 1, some a =>
    match T.deref a with
    | none => .error dangling
    | some c => if stop c.data then .ok (some a) else walk dangling spent stop T n c.prev

section assign

variable {T : Table (Node α)} {a v y z : Option Nat} {b : Nat} {x : α}

theorem deref_setNext_self (h : T.deref b = some ⟨x, y, z⟩) : (setNext (some b) v T).deref b = some ⟨x, v, z⟩ := by
  unfold setNext
  rw [Table.deref_update_self, h, Option.map_some]

theorem deref_setPrev_self (h : T.deref b = some ⟨x, y, z⟩) : (setPrev (some b) v T).deref b = some ⟨x, y, v⟩ := by
  unfold setPrev
  rw [Table.deref_update_self, h, Option.map_some]

theorem deref_setNext_ne (h : a ≠ some b) : (setNext a v T).deref b = T.deref b := by
  cases a with
  | none => rfl
  | some a =>
    unfold setNext
    exact Table.deref_update_ne fun hb => h (congrArg some hb.symm)

theorem deref_setPrev_ne (h : a ≠ some b) : (setPrev a v T).deref b = T.deref b := by
  cases a with
  | none => rfl
  | some a =>
    unfold setPrev
    exact Table.deref_update_ne fun hb => h (congrArg some hb.symm)

@[simp] theorem addrs_setPrev : (setPrev a v T).addrs = T.addrs := by
  cases a with
  | none => rfl
  | some a =>
    unfold setPrev
    exact Table.addrs_update

end assign

section seg

variable {T T' : Table (Node α)} {l r u v : Table α} {c : Block α} {back fwd w : Option Nat} {a n : Nat}

theorem front_append : front (l ++ r) fwd = front l (front r fwd) := by
  cases l <;> rfl

theorem rear_append : rear back (l ++ r) = rear (rear back l) r := by
  induction l generalizing back with
  | nil => rfl
  | cons b l ih => exact ih

theorem front_mem (h : front l none = some a) : a ∈ l.addrs := by
  cases l with
  | nil => cases h
  | cons b l =>
    obtain rfl := Option.some.inj h
    exact List.mem_cons_self

theorem rear_mem (h : rear back l = some a) : back = some a ∨ a ∈ l.addrs := by
  induction l generalizing back with
  | nil => exact .inl h
  | cons b l ih =>
    rcases ih h with hb | ha
    · obtain rfl := Option.some.inj hb
      exact .inr List.mem_cons_self
    · exact .inr (List.mem_cons_of_mem _ ha)

/-- A list is cut anywhere. -/
theorem seg_append : Seg T back (l ++ r) fwd ↔ Seg T back l (front r fwd) ∧ Seg T (rear back l) r fwd := by
  induction l generalizing back with
  | nil => exact (iff_of_eq (true_and (Seg T back r fwd))).symm
  | cons b l ih =>
    rw [List.cons_append, Seg, Seg, ih, front_append, and_assoc]
    rfl

/-- A segment depends on its own nodes only. -/
theorem Seg.frame (h : Seg T back l fwd) (hT : ∀ a ∈ l.addrs, T'.deref a = T.deref a) : Seg T' back l fwd := by
  induction l generalizing back with
  | nil => trivial
  | cons b l ih =>
    refine ⟨?_, ih h.2 fun a ha => hT a (List.mem_cons_of_mem _ ha)⟩
    rw [hT b.addr List.mem_cons_self]
    exact h.1

theorem Seg.mem_addrs (h : Seg T back l fwd) : l.addrs ⊆ T.addrs := by
  induction l generalizing back with
  | nil => exact List.nil_subset _
  | cons b l ih => exact List.cons_subset.mpr ⟨Table.addr_mem_addrs (Table.mem_of_deref h.1), ih h.2⟩

/-- Another neighbour before the first node. -/
theorem Seg.setNext (h : Seg T back l fwd) (hnd : l.addrs.Nodup) : Seg (setNext (front l none) w T) w l fwd := by
  cases l with
  | nil => trivial
  | cons b l =>
    obtain ⟨hb, hrest⟩ := h
    obtain ⟨hnot, -⟩ := List.nodup_cons.mp hnd
    refine ⟨deref_setNext_self hb, hrest.frame fun a ha => deref_setNext_ne fun he => hnot ?_⟩
    rwa [Option.some.inj he]

/-- Another neighbour after the last node. -/
theorem Seg.setPrev (h : Seg T back l fwd) (hnd : l.addrs.Nodup) : Seg (setPrev (rear none l) w T) back l w := by
  rcases List.eq_nil_or_concat l with rfl | ⟨u, c, rfl⟩
  · trivial
  · rw [List.concat_eq_append] at h hnd ⊢
    have hlast : rear none (u ++ [c]) = some c.addr := rear_append
    obtain ⟨hu, hc, -⟩ := seg_append.mp h
    rw [hlast]
    refine seg_append.mpr ⟨hu.frame fun a ha => deref_setPrev_ne fun he => ?_, deref_setPrev_self hc, trivial⟩
    rw [Table.addrs, List.map_append] at hnd
    refine (List.nodup_append'.mp hnd).2.2 ha ?_
    rw [← Option.some.inj he]
    exact List.mem_cons_self

end seg

/-! ### The operations on a list -/

section operations

variable {T : Table (Node α)} {head : Option Nat} {l u v : Table α} {c : Block α} {a n : Nat} {x : α}

theorem Listed.length_le (h : Listed T head l) : l.length ≤ T.length := by
  have hsub := (h.nodup.subperm h.seg.mem_addrs).length_le
  rwa [Table.addrs, Table.addrs, List.length_map, List.length_map] at hsub

/-- A new node in front. -/
theorem Listed.push (h : Listed T head l) (ha : a ∉ T.addrs) :
    Listed (setNext head (some a) (⟨a, ⟨x, none, head⟩⟩ :: T)) (some a) (⟨a, x⟩ :: l) := by
  have hout : ∀ b ∈ l.addrs, b ≠ a := fun b hb he => ha (he ▸ h.seg.mem_addrs hb)
  have hframe : Seg (⟨a, ⟨x, none, head⟩⟩ :: T) none l none := by
    refine h.seg.frame fun b hb => ?_
    rw [Table.deref_cons, if_neg (hout b hb).symm]
  refine ⟨rfl, ⟨?_, ?_⟩, List.nodup_cons.mpr ⟨fun hmem => hout a hmem rfl, h.nodup⟩⟩
  · rw [deref_setNext_ne, Table.deref_cons, if_pos rfl, ← h.head]
    intro hhead
    exact hout a (front_mem (h.head.symm.trans hhead)) rfl
  · rw [h.head]
    rw [h.head] at hframe
    exact hframe.setNext h.nodup

/-- A node and its neighbours. -/
theorem Listed.node (h : Listed T head (u ++ c :: v)) :
    T.deref c.addr = some ⟨c.val, rear none u, front v none⟩ := (seg_append.mp h.seg).2.1

/-- A node is taken out, wherever it is. -/
theorem Listed.unlink (h : Listed T head (u ++ c :: v)) :
    Listed (setNext (front v none) (rear none u) (setPrev (rear none u) (front v none) T)) (front (u ++ v) none)
      (u ++ v) := by
  obtain ⟨hu, -, hv⟩ := seg_append.mp h.seg
  have hnd := h.nodup
  rw [Table.addrs, List.map_append] at hnd
  obtain ⟨hndu, hndv, hdisjoint⟩ := List.nodup_append'.mp hnd
  obtain ⟨hcv, hndv⟩ := List.nodup_cons.mp hndv
  refine ⟨rfl, seg_append.mpr ⟨?_, ?_⟩, ?_⟩
  · refine (hu.setPrev hndu).frame fun b hb => deref_setNext_ne fun he => ?_
    exact hdisjoint hb (List.mem_cons_of_mem _ (front_mem he))
  · refine (hv.frame fun b hb => deref_setPrev_ne fun he => ?_).setNext hndv
    exact hdisjoint ((rear_mem he).resolve_left (Option.some_ne_none b).symm) (List.mem_cons_of_mem _ hb)
  · rw [Table.addrs, List.map_append]
    exact List.nodup_append'.mpr ⟨hndu, hndv, fun _ hb hb' => hdisjoint hb (List.mem_cons_of_mem _ hb')⟩

/-- The heap may lose what is not on the list. -/
theorem Listed.remove (h : Listed T head l) (ha : a ∉ l.addrs) : Listed (T.remove a) head l :=
  ⟨h.head, h.seg.frame fun _ hb => Table.deref_remove_ne fun he => ha (he ▸ hb), h.nodup⟩

theorem Seg.walk {dangling spent : ε} {stop : α → Bool} {back : Option Nat} (h : Seg T back l none) (hn : l.length ≤ n) :
    walk dangling spent stop T n (front l none) = .ok ((l.find? fun b => stop b.val).map Block.addr) := by
  induction l generalizing back n with
  | nil => cases n <;> rfl
  | cons b l ih =>
    obtain ⟨n, rfl⟩ : ∃ k, n = k + 1 := ⟨n - 1, by simp only [List.length_cons] at hn; omega⟩
    rw [front, Dlist.walk, h.1, List.find?_cons]
    cases hstop : stop b.val with
    | true => simp [hstop]
    | false =>
      simp only [hstop, Bool.false_eq_true, if_false]
      exact ih h.2 (by simp only [List.length_cons] at hn; omega)

/-- A walk along the whole heap is long enough. -/
theorem Listed.walk {dangling spent : ε} {stop : α → Bool} (h : Listed T head l) :
    walk dangling spent stop T T.length head = .ok ((l.find? fun b => stop b.val).map Block.addr) := by
  rw [h.head]
  exact h.seg.walk h.length_le

end operations

end Dlist
