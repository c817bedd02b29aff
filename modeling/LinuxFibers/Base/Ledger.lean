import Mathlib.Data.List.Range
import Mathlib.Data.List.Perm.Basic
import LinuxFibers.Base.Table

/-!
# Ledgers of a heap

An allocator hands addresses out in order and a program keeps some of the blocks and gives others back. `HandsOut`
says of a piece of the program that each block handed out to it ends up in one of the two places, once. The
rules say how pieces compose, and `Table.forEach_handsOut` is the rule of a walk over a table.
-/

namespace HeapTable

/-- `l'` lists the blocks of `l` and those handed out between `n` and `n'`. -/
def HandsOut (n : Nat) (l : List Nat) (n' : Nat) (l' : List Nat) : Prop :=
  ∃ k, n' = n + k ∧ l'.Perm (List.range' n k ++ l)

namespace HandsOut

variable {n n₁ n' : Nat} {l l₁ l' r : List Nat}

theorem of_perm (h : l'.Perm l) : HandsOut n l n l' := ⟨0, rfl, h⟩

theorem trans (h : HandsOut n l n₁ l₁) (h' : HandsOut n₁ l₁ n' l') : HandsOut n l n' l' := by
  obtain ⟨k, rfl, hk⟩ := h
  obtain ⟨j, rfl, hj⟩ := h'
  refine ⟨k + j, Nat.add_assoc .., hj.trans ?_⟩
  have hrange : List.range' n (k + j) = List.range' n k ++ List.range' (n + k) j := List.range'_append_1.symm
  have hswap := (hk.append_left (List.range' (n + k) j)).trans (List.perm_append_comm_assoc _ _ _)
  rwa [hrange, List.append_assoc]

/-- What a piece of the program does not touch. -/
theorem frame (h : HandsOut n l n' l') (r : List Nat) : HandsOut n (l ++ r) n' (l' ++ r) := by
  obtain ⟨k, rfl, hk⟩ := h
  refine ⟨k, rfl, ?_⟩
  rw [← List.append_assoc]
  exact hk.append_right r

theorem congr (h : HandsOut n l n' l') (hl : l.Perm l₁) (hl' : l'.Perm r) : HandsOut n l₁ n' r := by
  obtain ⟨k, rfl, hk⟩ := h
  exact ⟨k, rfl, hl'.symm.trans (hk.trans (hl.append_left _))⟩

theorem le (h : HandsOut n l n' l') : n ≤ n' := by
  obtain ⟨k, rfl, -⟩ := h
  exact Nat.le_add_right n k

theorem mem_iff (h : HandsOut n l n' l') {a : Nat} : a ∈ l' ↔ n ≤ a ∧ a < n' ∨ a ∈ l := by
  obtain ⟨k, rfl, hk⟩ := h
  rw [hk.mem_iff, List.mem_append, List.mem_range'_1]

/-- Blocks handed out below `n`, each in one place. -/
theorem nodup (h : HandsOut n l n' l') (hnd : l.Nodup) (hbound : ∀ a ∈ l, a < n) :
    l'.Nodup ∧ ∀ a ∈ l', a < n' := by
  have hle := h.le
  refine ⟨?_, fun a ha => ?_⟩
  · obtain ⟨k, rfl, hk⟩ := h
    rw [hk.nodup_iff, List.nodup_append']
    refine ⟨List.nodup_range', hnd, fun a ha hal => ?_⟩
    have := (List.mem_range'_1.mp ha).1
    have := hbound a hal
    omega
  · rcases h.mem_iff.mp ha with ⟨-, hlt⟩ | hal
    · exact hlt
    · exact lt_of_lt_of_le (hbound a hal) hle

end HandsOut

namespace Table

variable {α σ ε : Type} {test : α → Prop} [DecidablePred test] {body : α → σ → Except ε (α × σ)} {T T' : Table α}
  {x x' : σ}

/-- The blocks that a walk does not visit stay as they are, and those that it does go on passing the test. -/
theorem forEach_filter_not (htest : ∀ v x v' x', test v → body v x = .ok (v', x') → test v')
    (hok : forEach test body T x = .ok (T', x')) :
    T'.filter (fun y => ¬ test y.val) = T.filter fun y => ¬ test y.val := by
  induction T generalizing x T' with
  | nil =>
    obtain ⟨rfl, -⟩ : [] = T' ∧ x = x' := by simpa using hok
    rfl
  | cons y T ih =>
    by_cases hy : test y.val
    · obtain ⟨v, x₁, U, hb, hr, rfl⟩ := forEach_cons_pos hy hok
      have hv := htest _ _ _ _ hy hb
      rw [List.filter_cons_of_neg (by simpa using hv), List.filter_cons_of_neg (by simpa using hy), ih hr]
    · obtain ⟨U, hr, rfl⟩ := forEach_cons_neg hy hok
      rw [List.filter_cons_of_pos (by simpa using hy), List.filter_cons_of_pos (by simpa using hy), ih hr]

/-- The nodes of the table that pass the test, with the blocks that hang off them. -/
def nodeBlocks (test : α → Prop) [DecidablePred test] (blocks : α → List Nat) (T : Table α) : List Nat :=
  (T.filter fun y => test y.val).flatMap fun y => y.addr :: blocks y.val

variable {blocks : α → List Nat}

theorem nodeBlocks_cons_pos {y : Block α} (hy : test y.val) :
    nodeBlocks test blocks (y :: T) = (y.addr :: blocks y.val) ++ nodeBlocks test blocks T := by
  rw [nodeBlocks, List.filter_cons_of_pos (by simpa using hy), List.flatMap_cons]
  rfl

theorem nodeBlocks_cons_neg {y : Block α} (hy : ¬ test y.val) :
    nodeBlocks test blocks (y :: T) = nodeBlocks test blocks T := by
  rw [nodeBlocks, List.filter_cons_of_neg (by simpa using hy)]
  rfl

/-- The rule of a walk: when the body loses no block, the walk loses none. `given` lists the blocks given back. -/
theorem forEach_handsOut {P : σ → α → Prop} (blocks : α → List Nat) (next : σ → Nat) (given : σ → List Nat)
    (htest : ∀ v x v' x', test v → body v x = .ok (v', x') → test v')
    (hbody : ∀ v x v' x', test v → P x v → body v x = .ok (v', x') → given x ⊆ given x' ∧
      HandsOut (next x) (given x ++ blocks v) (next x') (given x' ++ blocks v') ∧ ∀ w, P x w → P x' w)
    (hP : ∀ y ∈ T, P x y.val) (hok : forEach test body T x = .ok (T', x')) :
    given x ⊆ given x' ∧ HandsOut (next x) (given x ++ nodeBlocks test blocks T) (next x')
      (given x' ++ nodeBlocks test blocks T') := by
  induction T generalizing x T' with
  | nil =>
    obtain ⟨rfl, rfl⟩ : [] = T' ∧ x = x' := by simpa using hok
    exact ⟨List.Subset.refl _, .of_perm (List.Perm.refl _)⟩
  | cons y T ih =>
    have hPT : ∀ z ∈ T, P x z.val := fun z hz => hP z (List.mem_cons_of_mem _ hz)
    by_cases hy : test y.val
    · obtain ⟨v, x₁, U, hb, hr, rfl⟩ := forEach_cons_pos hy hok
      have hv := htest _ _ _ _ hy hb
      obtain ⟨hsub, hhead, hkeep⟩ := hbody _ _ _ _ hy (hP y List.mem_cons_self) hb
      obtain ⟨hsub', htail⟩ := ih (fun z hz => hkeep _ (hPT z hz)) hr
      refine ⟨fun a ha => hsub' (hsub ha), ?_⟩
      have hvisit := hhead.frame (y.addr :: nodeBlocks test blocks T)
      have hrest := htail.frame (y.addr :: blocks v)
      have hv' : nodeBlocks test blocks ({ y with val := v } :: U) =
          (y.addr :: blocks v) ++ nodeBlocks test blocks U := nodeBlocks_cons_pos hv
      rw [nodeBlocks_cons_pos hy, hv']
      have hbefore : ((given x ++ blocks y.val) ++ (y.addr :: nodeBlocks test blocks T)).Perm
          (given x ++ ((y.addr :: blocks y.val) ++ nodeBlocks test blocks T)) := by
        rw [List.append_assoc]
        exact List.Perm.append_left _ List.perm_middle
      have hswap : ((y.addr :: blocks v) ++ nodeBlocks test blocks T).Perm
          (nodeBlocks test blocks T ++ (y.addr :: blocks v)) := List.perm_append_comm
      have hbetween : ((given x₁ ++ blocks v) ++ (y.addr :: nodeBlocks test blocks T)).Perm
          ((given x₁ ++ nodeBlocks test blocks T) ++ (y.addr :: blocks v)) := by
        rw [List.append_assoc, List.append_assoc]
        exact List.Perm.append_left _ (List.perm_middle.trans hswap)
      have hafter : ((given x' ++ nodeBlocks test blocks U) ++ (y.addr :: blocks v)).Perm
          (given x' ++ ((y.addr :: blocks v) ++ nodeBlocks test blocks U)) := by
        rw [List.append_assoc]
        exact List.Perm.append_left _ List.perm_append_comm
      exact (hvisit.congr hbefore hbetween).trans (hrest.congr (List.Perm.refl _) hafter)
    · obtain ⟨U, hr, rfl⟩ := forEach_cons_neg hy hok
      rw [nodeBlocks_cons_neg hy, nodeBlocks_cons_neg hy]
      exact ih hPT hr

end Table

/-- A field filled in for the first time adds its blocks. -/
theorem filterMap_set_perm {α : Type} {f : α → Option Nat} {l : List α} {i a : Nat} {e x : α}
    (hi : l[i]? = some x) (hx : f x = none) (he : f e = some a) :
    ((l.set i e).filterMap f).Perm (a :: l.filterMap f) := by
  induction l generalizing i with
  | nil => simp at hi
  | cons y l ih =>
    cases i with
    | zero =>
      obtain rfl : y = x := by simpa using hi
      rw [List.set_cons_zero, List.filterMap_cons_some he, List.filterMap_cons_none hx]
    | succ i =>
      have htail := ih (i := i) (by simpa using hi)
      rw [List.set_cons_succ]
      cases hy : f y with
      | none => rwa [List.filterMap_cons_none hy, List.filterMap_cons_none hy]
      | some b =>
        rw [List.filterMap_cons_some hy, List.filterMap_cons_some hy]
        exact (htail.cons b).trans (List.Perm.swap a b _)

end HeapTable
