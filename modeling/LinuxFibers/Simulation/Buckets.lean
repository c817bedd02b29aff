import Mathlib.Algebra.BigOperators.Group.Finset.Basic
import Mathlib.Algebra.Order.BigOperators.Group.Finset
import Mathlib.Algebra.BigOperators.Group.Multiset.Basic
import Mathlib.Data.Multiset.Basic
import LinuxFibers.Base.Outcome
import LinuxFibers.Simulation.Calqueue

/-!
# The buckets of the calendar

`Shape` says that the buckets are sorted and hold what belongs to them, `nodes` is what the calendar holds. Putting a
node and taking one are followed through both, for any `resize` that they may call.
-/

namespace LinuxFibers

open Outcomes

/-- The failures that say that a width or a quotient is outside what the doubles are assumed to give. -/
def CalqueueFault.Excluded : CalqueueFault → Prop
  | .divisionByZero | .width | .intRange => True
  | .nullPointer | .outOfBounds | .reentered => False

namespace Calqueue

variable {α : Type} {q : Calqueue α} {x e : CalqueueNode α} {rest : List (CalqueueNode α)} {i : Nat} {top : ℚ}

/-- The virtual bucket of a priority. -/
def virtual (q : Calqueue α) (priority : ℚ≥0) : Nat := ⌊(priority : ℚ) / q.cwidth⌋₊

/-- The bucket of a priority. -/
def place (q : Calqueue α) (priority : ℚ≥0) : Nat := q.virtual priority % q.nbuckets

/-- What the calendar holds. -/
def nodes (q : Calqueue α) : Multiset (CalqueueNode α) :=
  ∑ i ∈ Finset.range q.nbuckets, (q.bucket i : Multiset (CalqueueNode α))

/-- The buckets are sorted by priority, and each holds the nodes that belong to it. -/
structure Shape (q : Calqueue α) : Prop where
  buckets : 0 < q.nbuckets
  width : 0 < q.cwidth
  sorted : ∀ i < q.nbuckets, (q.bucket i).Pairwise fun a b => a.priority ≤ b.priority
  placed : ∀ i < q.nbuckets, ∀ x ∈ q.bucket i, q.place x.priority = i
  size : q.qsize = q.nodes.card
  last : q.lastbucket < q.nbuckets

/-- The calendar is the same, whatever its buckets hold. -/
structure Like (q p : Calqueue α) : Prop where
  firstsub : p.firstsub = q.firstsub
  nbuckets : p.nbuckets = q.nbuckets
  cwidth : p.cwidth = q.cwidth
  topThreshold : p.topThreshold = q.topThreshold
  botThreshold : p.botThreshold = q.botThreshold
  resizeEnabled : p.resizeEnabled = q.resizeEnabled

theorem Like.refl (q : Calqueue α) : Like q q := ⟨rfl, rfl, rfl, rfl, rfl, rfl⟩

theorem Like.trans {p r : Calqueue α} (h : Like q p) (h' : Like p r) : Like q r where
  firstsub := h'.firstsub.trans h.firstsub
  nbuckets := h'.nbuckets.trans h.nbuckets
  cwidth := h'.cwidth.trans h.cwidth
  topThreshold := h'.topThreshold.trans h.topThreshold
  botThreshold := h'.botThreshold.trans h.botThreshold
  resizeEnabled := h'.resizeEnabled.trans h.resizeEnabled

/-! ### One bucket -/

theorem insertNode_perm (x : CalqueueNode α) (l : List (CalqueueNode α)) : (insertNode x l).Perm (x :: l) := by
  induction l with
  | nil => exact List.Perm.refl _
  | cons t l ih =>
    rw [insertNode]
    split_ifs
    · exact List.Perm.refl _
    · exact (ih.cons t).trans (List.Perm.swap x t l)

theorem insertNode_sorted {l : List (CalqueueNode α)} (h : l.Pairwise fun a b => a.priority ≤ b.priority) :
    (insertNode x l).Pairwise fun a b => a.priority ≤ b.priority := by
  induction l with
  | nil => exact List.pairwise_singleton _ _
  | cons t l ih =>
    obtain ⟨ht, hl⟩ := List.pairwise_cons.mp h
    rw [insertNode]
    split_ifs with hlt
    · refine List.pairwise_cons.mpr ⟨fun y hy => ?_, h⟩
      rcases List.mem_cons.mp hy with rfl | hy
      · exact hlt.le
      · exact hlt.le.trans (ht y hy)
    · refine List.pairwise_cons.mpr ⟨fun y hy => ?_, ih hl⟩
      rcases List.mem_cons.mp ((insertNode_perm x l).mem_iff.mp hy) with rfl | hy
      · exact not_lt.mp hlt
      · exact ht y hy

theorem nodes_split (q : Calqueue α) (hi : i < q.nbuckets) : q.nodes = (q.bucket i : Multiset (CalqueueNode α)) +
    ∑ j ∈ (Finset.range q.nbuckets).erase i, (q.bucket j : Multiset (CalqueueNode α)) :=
  (Finset.add_sum_erase _ _ (Finset.mem_range.mpr hi)).symm

theorem mem_nodes : x ∈ q.nodes ↔ ∃ i < q.nbuckets, x ∈ q.bucket i := by
  simp [nodes, Multiset.mem_sum]

theorem Shape.mem_bucket (h : q.Shape) (hx : x ∈ q.nodes) : x ∈ q.bucket (q.place x.priority) := by
  obtain ⟨i, hi, hmem⟩ := mem_nodes.mp hx
  rwa [h.placed i hi x hmem]

theorem place_lt (h : q.Shape) (priority : ℚ≥0) : q.place priority < q.nbuckets := Nat.mod_lt _ h.buckets

/-- The head of a bucket is the least of it. -/
theorem Shape.head_le (h : q.Shape) (hi : i < q.nbuckets) (he : e ∈ (q.bucket i).head?) (hx : x ∈ q.bucket i) :
    e.priority ≤ x.priority := by
  have hsorted := h.sorted i hi
  cases hb : q.bucket i with
  | nil =>
    rw [hb] at hx
    cases hx
  | cons t l =>
    rw [hb] at hx he hsorted
    obtain rfl : t = e := Option.some.inj he
    rcases List.mem_cons.mp hx with rfl | hx
    · exact le_refl _
    · exact (List.pairwise_cons.mp hsorted).1 x hx

/-- Another list in one bucket. -/
theorem nodes_update {p : Calqueue α} {l : List (CalqueueNode α)} (hn : p.nbuckets = q.nbuckets)
    (hb : p.bucket = Function.update q.bucket i l) (hi : i < q.nbuckets) :
    p.nodes + (q.bucket i : Multiset (CalqueueNode α)) = q.nodes + (l : Multiset (CalqueueNode α)) := by
  have hrest : ∑ j ∈ (Finset.range p.nbuckets).erase i, (p.bucket j : Multiset (CalqueueNode α)) =
      ∑ j ∈ (Finset.range q.nbuckets).erase i, (q.bucket j : Multiset (CalqueueNode α)) := by
    rw [hn]
    refine Finset.sum_congr rfl fun j hj => ?_
    rw [hb, Function.update_of_ne (Finset.ne_of_mem_erase hj)]
  rw [nodes_split p (hn ▸ hi), nodes_split q hi, hrest, hb, Function.update_self]
  abel

theorem bucket_update (q : Calqueue α) (i : Nat) (l : List (CalqueueNode α)) :
    (fun j => Function.update q.calq (q.firstsub + i) l (q.firstsub + j)) = Function.update q.bucket i l := by
  funext j
  by_cases hj : j = i
  · subst hj
    rw [Function.update_self, Function.update_self]
  · rw [Function.update_of_ne hj, Function.update_of_ne (by omega)]
    rfl

/-! ### Putting a node -/

theorem bucket_store : (q.store x i).bucket = Function.update q.bucket i (insertNode x (q.bucket i)) :=
  bucket_update q i _

theorem like_store : Like q (q.store x i) := ⟨rfl, rfl, rfl, rfl, rfl, rfl⟩

theorem nodes_store (hi : i < q.nbuckets) : (q.store x i).nodes = x ::ₘ q.nodes := by
  have h := nodes_update (q := q) (p := q.store x i) rfl bucket_store hi
  have hins : (insertNode x (q.bucket i) : Multiset (CalqueueNode α)) = x ::ₘ (q.bucket i : Multiset _) :=
    Multiset.coe_eq_coe.mpr (insertNode_perm x _)
  rw [hins, Multiset.add_cons, ← Multiset.cons_add] at h
  exact add_right_cancel h

theorem Shape.store (h : q.Shape) : (q.store x (q.place x.priority)).Shape where
  buckets := h.buckets
  width := h.width
  sorted j hj := by
    rw [bucket_store]
    by_cases hji : j = q.place x.priority
    · rw [hji, Function.update_self]
      exact insertNode_sorted (h.sorted _ (place_lt h _))
    · rw [Function.update_of_ne hji]
      exact h.sorted j hj
  placed j hj y hy := by
    rw [bucket_store] at hy
    by_cases hji : j = q.place x.priority
    · rw [hji, Function.update_self] at hy
      rw [hji]
      rcases List.mem_cons.mp ((insertNode_perm x _).mem_iff.mp hy) with rfl | hy
      · rfl
      · exact h.placed _ (place_lt h _) y hy
    · rw [Function.update_of_ne hji] at hy
      exact h.placed j hj y hy
  size := by
    rw [nodes_store (place_lt h _), Multiset.card_cons, ← h.size]
    rfl
  last := h.last

theorem quotient_yields {range : Nat} {priority : ℚ≥0} {width : ℚ} : Yields CalqueueFault.Excluded
    (· = ⌊(priority : ℚ) / width⌋₊) (quotient range priority width) := by
  show Yields _ _ (if _ then _ else _)
  split_ifs
  · exact rfl
  · exact trivial

/-- `put` stores the node in its bucket and goes on to what the threshold asks for. -/
theorem putWith_yields {resize : Resize α} {post : Calqueue α → Prop}
    (hfull : q.topThreshold < (q.qsize + 1 : Nat) → q.nbuckets < maxnbuckets →
      Yields CalqueueFault.Excluded post (resize (2 * q.nbuckets) (q.store x (q.place x.priority))))
    (hroom : ¬ (q.topThreshold < (q.qsize + 1 : Nat) ∧ q.nbuckets < maxnbuckets) →
      post (q.store x (q.place x.priority))) : Yields CalqueueFault.Excluded post (q.putWith resize x) := by
  have hquotient : Yields CalqueueFault.Excluded (· = q.virtual x.priority)
      (quotient (2 ^ 31) x.priority q.cwidth) := quotient_yields
  refine hquotient.bind ?_
  rintro _ rfl
  show Yields _ _ (if _ then _ else _)
  split_ifs with h
  · exact hfull h.1 h.2
  · exact hroom h

/-- Within `resize` a put only stores. -/
theorem putWith_inner (h : q.resizeEnabled = false ∨ ¬ (q.topThreshold < (q.qsize + 1 : Nat) ∧ q.nbuckets < maxnbuckets)) :
    Yields CalqueueFault.Excluded (· = q.store x (q.place x.priority)) (q.putWith inner x) := by
  refine putWith_yields (fun htop hmax => ?_) fun _ => rfl
  have hoff : (q.store x (q.place x.priority)).resizeEnabled = false := h.resolve_right fun hno => hno ⟨htop, hmax⟩
  rw [inner, hoff]
  exact rfl

/-! ### The search -/

/-- The bucket that the scan comes to after `k` others. -/
def slot (q : Calqueue α) (k : Nat) : Nat := (q.lastbucket + k) % q.nbuckets

/-- The top that it has there. -/
def level (q : Calqueue α) (k : Nat) : ℚ := q.buckettop + k * q.cwidth

/-- The scan stops there. -/
def Hit (q : Calqueue α) (k : Nat) : Prop := ∃ e ∈ (q.bucket (q.slot k)).head?, (e.priority : ℚ) < q.level k

/-- What the search comes to: the bucket, the top and the node. -/
inductive Search (q : Calqueue α) : Nat → ℚ → CalqueueNode α → Prop
  | scanned {k : Nat} {e : CalqueueNode α} (hk : k < q.nbuckets) (he : e ∈ (q.bucket (q.slot k)).head?)
      (hbelow : (e.priority : ℚ) < q.level k) (hbefore : ∀ l < k, ¬ q.Hit l) : Search q (q.slot k) (q.level k) e
  | direct {i : Nat} {e : CalqueueNode α} (hi : i < q.nbuckets) (he : e ∈ (q.bucket i).head?)
      (hnone : ∀ l < q.nbuckets, ¬ q.Hit l) (hleast : ∀ y ∈ q.nodes, e.priority ≤ y.priority) :
      Search q i (q.level q.nbuckets) e

theorem slot_lt (h : q.Shape) (k : Nat) : q.slot k < q.nbuckets := Nat.mod_lt _ h.buckets

theorem slot_zero (h : q.Shape) : q.slot 0 = q.lastbucket := Nat.mod_eq_of_lt h.last

theorem slot_succ (h : q.Shape) (k : Nat) :
    (if q.slot k + 1 = q.nbuckets then 0 else q.slot k + 1) = q.slot (k + 1) := by
  have hlt := slot_lt h k
  have hmod : q.slot (k + 1) = (q.slot k + 1) % q.nbuckets := by
    rw [slot, slot, ← Nat.add_assoc, Nat.mod_add_mod]
  rw [hmod]
  split_ifs with hwrap
  · rw [hwrap, Nat.mod_self]
  · exact (Nat.mod_eq_of_lt (by omega)).symm

theorem slot_eq_last_iff (h : q.Shape) {k : Nat} (hk : k < q.nbuckets) :
    q.slot (k + 1) = q.lastbucket ↔ k + 1 = q.nbuckets := by
  have hlast := h.last
  constructor
  · intro he
    by_contra hne
    rcases Nat.lt_or_ge (q.lastbucket + (k + 1)) q.nbuckets with hlt | hge
    · rw [slot, Nat.mod_eq_of_lt hlt] at he
      omega
    · rw [slot, Nat.mod_eq_sub_mod hge, Nat.mod_eq_of_lt (by omega)] at he
      omega
  · intro he
    rw [slot, he, Nat.add_mod_right, Nat.mod_eq_of_lt hlast]

theorem level_succ (q : Calqueue α) (k : Nat) : q.level k + q.cwidth = q.level (k + 1) := by
  rw [level, level]
  push_cast
  ring

theorem scan_hit {n k : Nat} (hhit : q.Hit k) :
    q.scan (n + 1) (q.slot k) (q.level k) = (some (q.slot k), q.level k) := if_pos hhit

theorem scan_miss (h : q.Shape) {n k : Nat} (hmiss : ¬ q.Hit k) : q.scan (n + 1) (q.slot k) (q.level k) =
    if q.slot (k + 1) = q.lastbucket then (none, q.level (k + 1))
    else q.scan n (q.slot (k + 1)) (q.level (k + 1)) := by
  refine (if_neg hmiss).trans ?_
  simp only [slot_succ h k, level_succ q k]

/-- From its `k`-th bucket on the scan stops at the first hit, or comes round. -/
theorem scan_spec (h : q.Shape) (n k : Nat) (hn : 0 < n) (hsum : n + k = q.nbuckets) :
    (∃ j, k ≤ j ∧ j < q.nbuckets ∧ q.Hit j ∧ (∀ l, k ≤ l → l < j → ¬ q.Hit l) ∧
        q.scan n (q.slot k) (q.level k) = (some (q.slot j), q.level j)) ∨
      (∀ l, k ≤ l → l < q.nbuckets → ¬ q.Hit l) ∧
        q.scan n (q.slot k) (q.level k) = (none, q.level q.nbuckets) := by
  induction n generalizing k with
  | zero => cases hn
  | succ n ih =>
    by_cases hhit : q.Hit k
    · rw [scan_hit hhit]
      exact .inl ⟨k, le_refl _, by omega, hhit, fun l hl hl' => absurd hl (by omega), rfl⟩
    · rw [scan_miss h hhit]
      have hfirst : ∀ l, k ≤ l → ¬ k + 1 ≤ l → ¬ q.Hit l := by
        intro l hl hl'
        rwa [show l = k by omega]
      by_cases hround : k + 1 = q.nbuckets
      · rw [if_pos ((slot_eq_last_iff h (by omega)).mpr hround), hround]
        exact .inr ⟨fun l hl hl' => hfirst l hl (by omega), rfl⟩
      · rw [if_neg fun he => hround ((slot_eq_last_iff h (by omega)).mp he)]
        rcases ih (k + 1) (by omega) (by omega) with ⟨j, hj, hjn, hhit', hbefore, heq⟩ | ⟨hnone, heq⟩
        · refine .inl ⟨j, by omega, hjn, hhit', fun l hl hl' => ?_, heq⟩
          by_cases hkl : k + 1 ≤ l
          · exact hbefore l hkl hl'
          · exact hfirst l hl hkl
        · refine .inr ⟨fun l hl hl' => ?_, heq⟩
          by_cases hkl : k + 1 ≤ l
          · exact hnone l hkl hl'
          · exact hfirst l hl hkl

/-- The direct search over the first `n` buckets finds the least of their heads. -/
theorem direct_spec (q : Calqueue α) (n : Nat) :
    ((List.range n).foldl q.lower none = none ∧ ∀ i < n, q.bucket i = []) ∨
      ∃ t e, (List.range n).foldl q.lower none = some (t, e.priority) ∧ t < n ∧ e ∈ (q.bucket t).head? ∧
        ∀ i < n, ∀ y ∈ (q.bucket i).head?, e.priority ≤ y.priority := by
  induction n with
  | zero => exact .inl ⟨rfl, fun i hi => absurd hi (Nat.not_lt_zero i)⟩
  | succ n ih =>
    rw [List.range_succ, List.foldl_append, List.foldl_cons, List.foldl_nil]
    have hlast : ∀ {P : Nat → Prop}, (∀ i < n, P i) → P n → ∀ i < n + 1, P i := by
      intro P hP hn i hi
      rcases Nat.lt_succ_iff_lt_or_eq.mp hi with hi | rfl
      · exact hP i hi
      · exact hn
    rcases ih with ⟨heq, hempty⟩ | ⟨t, e, heq, ht, he, hleast⟩
    · rw [heq]
      cases hb : q.bucket n with
      | nil => exact .inl ⟨by simp [lower, hb], hlast hempty hb⟩
      | cons y l =>
        refine .inr ⟨n, y, by simp [lower, hb], Nat.lt_succ_self n, by simp [hb], hlast ?_ ?_⟩
        · intro i hi z hz
          rw [hempty i hi] at hz
          cases hz
        · intro z hz
          rw [hb] at hz
          exact (congrArg CalqueueNode.priority (Option.some.inj hz)).le
    · rw [heq]
      cases hb : q.bucket n with
      | nil =>
        refine .inr ⟨t, e, by simp [lower, hb], by omega, he, hlast hleast fun z hz => ?_⟩
        rw [hb] at hz
        cases hz
      | cons y l =>
        by_cases hlt : y.priority < e.priority
        · refine .inr ⟨n, y, by simp [lower, hb, hlt], Nat.lt_succ_self n, by simp [hb], hlast ?_ ?_⟩
          · exact fun i hi z hz => hlt.le.trans (hleast i hi z hz)
          · intro z hz
            rw [hb] at hz
            exact (congrArg CalqueueNode.priority (Option.some.inj hz)).le
        · refine .inr ⟨t, e, by simp [lower, hb, hlt], by omega, he, hlast hleast fun z hz => ?_⟩
          rw [hb] at hz
          obtain rfl := Option.some.inj hz
          exact not_lt.mp hlt

/-- In a queue that is not empty the search comes to the head of a bucket. -/
theorem search_spec (h : q.Shape) (hne : q.nodes ≠ 0) : ∃ i top e rest, q.search = .ok (i, top) ∧
    i < q.nbuckets ∧ q.bucket i = e :: rest ∧ q.Search i top e := by
  have hcons : ∀ {i : Nat} {e : CalqueueNode α}, e ∈ (q.bucket i).head? → ∃ rest, q.bucket i = e :: rest := by
    intro i e he
    cases hb : q.bucket i with
    | nil =>
      rw [hb] at he
      cases he
    | cons y l =>
      rw [hb] at he
      exact ⟨l, by rw [Option.some.inj he]⟩
  have hscan := scan_spec h q.nbuckets 0 h.buckets rfl
  rw [slot_zero h, show q.level 0 = q.buckettop by rw [level]; simp] at hscan
  rcases hscan with ⟨k, -, hk, ⟨e, he, hbelow⟩, hbefore, heq⟩ | ⟨hnone, heq⟩
  · obtain ⟨rest, hrest⟩ := hcons he
    refine ⟨q.slot k, q.level k, e, rest, by rw [search, heq], slot_lt h k, hrest, ?_⟩
    exact .scanned hk he hbelow fun l hl => hbefore l (Nat.zero_le l) hl
  · rcases direct_spec q q.nbuckets with ⟨-, hempty⟩ | ⟨t, e, hdirect, ht, he, hleast⟩
    · obtain ⟨y, hy⟩ := Multiset.exists_mem_of_ne_zero hne
      obtain ⟨i, hi, hmem⟩ := mem_nodes.mp hy
      rw [hempty i hi] at hmem
      cases hmem
    · obtain ⟨rest, hrest⟩ := hcons he
      refine ⟨t, q.level q.nbuckets, e, rest, by rw [search, heq]; simp only [hdirect], ht, hrest, ?_⟩
      refine .direct ht he (fun l hl => hnone l (Nat.zero_le l) hl) fun y hy => ?_
      obtain ⟨i, hi, hmem⟩ := mem_nodes.mp hy
      cases hb : q.bucket i with
      | nil =>
        rw [hb] at hmem
        cases hmem
      | cons z l =>
        have hz : z ∈ (q.bucket i).head? := by rw [hb]; rfl
        exact (hleast i hi z hz).trans (h.head_le hi hz hmem)

/-! ### Taking a node -/

theorem bucket_take : (q.take i top e rest).bucket = Function.update q.bucket i rest := bucket_update q i _

theorem like_take : Like q (q.take i top e rest) := ⟨rfl, rfl, rfl, rfl, rfl, rfl⟩

theorem nodes_take (hi : i < q.nbuckets) (hb : q.bucket i = e :: rest) :
    q.nodes = e ::ₘ (q.take i top e rest).nodes := by
  have h := nodes_update (q := q) (p := q.take i top e rest) rfl bucket_take hi
  rw [hb, ← Multiset.cons_coe, Multiset.add_cons, ← Multiset.cons_add] at h
  exact (add_right_cancel h).symm

theorem Shape.take (h : q.Shape) (hi : i < q.nbuckets) (hb : q.bucket i = e :: rest) :
    (q.take i top e rest).Shape where
  buckets := h.buckets
  width := h.width
  sorted j hj := by
    rw [bucket_take]
    by_cases hji : j = i
    · have hsorted := h.sorted i hi
      rw [hb] at hsorted
      rw [hji, Function.update_self]
      exact (List.pairwise_cons.mp hsorted).2
    · rw [Function.update_of_ne hji]
      exact h.sorted j hj
  placed j hj y hy := by
    rw [bucket_take] at hy
    by_cases hji : j = i
    · rw [hji, Function.update_self] at hy
      rw [hji]
      exact h.placed i hi y (by rw [hb]; exact List.mem_cons_of_mem _ hy)
    · rw [Function.update_of_ne hji] at hy
      exact h.placed j hj y hy
  size := by
    have hcard := h.size
    rw [nodes_take hi hb, Multiset.card_cons] at hcard
    exact Nat.sub_eq_of_eq_add hcard
  last := hi

/-- `deq` takes what the search comes to and goes on to what the threshold asks for. -/
theorem deqWith_yields {resize : Resize α} {post : Option (CalqueueNode α) × Calqueue α → Prop} (h : q.Shape)
    (hempty : q.nodes = 0 → post (none, q))
    (htaken : ∀ i top e rest, i < q.nbuckets → q.bucket i = e :: rest → q.Search i top e →
      ((q.qsize - 1 : Nat) < q.botThreshold → Yields CalqueueFault.Excluded (fun p => post (some e, p))
        (resize (q.nbuckets / 2) (q.take i top e rest))) ∧
      (¬ (q.qsize - 1 : Nat) < q.botThreshold → post (some e, q.take i top e rest))) :
    Yields CalqueueFault.Excluded post (q.deqWith resize) := by
  rw [deqWith]
  by_cases hzero : q.qsize = 0
  · rw [if_pos hzero]
    exact hempty (Multiset.card_eq_zero.mp (h.size.symm.trans hzero))
  · rw [if_neg hzero]
    have hne : q.nodes ≠ 0 := fun hnone => hzero (by rw [h.size, hnone, Multiset.card_zero])
    obtain ⟨i, top, e, rest, hsearch, hi, hb, hfound⟩ := search_spec h hne
    obtain ⟨hsmall, hlarge⟩ := htaken i top e rest hi hb hfound
    simp only [hsearch, hb, bind, Except.bind]
    split_ifs with hbot
    · exact (hsmall hbot).bind fun p hp => hp
    · exact hlarge hbot

/-- Within `resize` a dequeue only takes. -/
theorem deqWith_inner (h : q.Shape) (hoff : q.resizeEnabled = false) (hne : q.nodes ≠ 0) :
    ∃ i top e rest, i < q.nbuckets ∧ q.bucket i = e :: rest ∧ q.Search i top e ∧
      q.deqWith inner = .ok (some e, q.take i top e rest) := by
  obtain ⟨i, top, e, rest, hsearch, hi, hb, hfound⟩ := search_spec h hne
  refine ⟨i, top, e, rest, hi, hb, hfound, ?_⟩
  have hzero : q.qsize ≠ 0 := fun hzero => hne (Multiset.card_eq_zero.mp (h.size.symm.trans hzero))
  have hinner : inner (q.nbuckets / 2) (q.take i top e rest) = .ok (q.take i top e rest) := by
    rw [inner]
    exact if_neg (by rw [show (q.take i top e rest).resizeEnabled = false from hoff]; exact Bool.false_ne_true)
  rw [deqWith, if_neg hzero]
  simp only [hsearch, hb, bind, Except.bind]
  split_ifs
  · rw [show (q.take i top e rest).nbuckets = q.nbuckets from rfl, hinner]
  · rfl

end Calqueue

end LinuxFibers
