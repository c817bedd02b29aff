import Mathlib.Data.List.Nodup
import Mathlib.Logic.Function.Basic

/-!
# Tables of heap blocks

A block is an address, a natural number, together with what is stored there, and a table is a list of blocks, the
newest one first, as a chained hash table keeps the nodes of a bucket. The lemmas say how looking
a block up (`deref`), changing it in place (`update`) and walking the blocks that satisfy a test
(`forEach`) compose. Nothing here knows what the blocks hold.
-/

namespace HeapTable

/-- A block of the heap: its address and what it holds. -/
structure Block (α : Type) where
  addr : Nat
  val : α
  deriving DecidableEq, Repr

abbrev Table (α : Type) := List (Block α)

/-- A sequence of steps returns when each of them does. -/
theorem bind_eq_ok {ε α β : Type} {x : Except ε α} {f : α → Except ε β} {r : β} :
    x >>= f = .ok r ↔ ∃ a, x = .ok a ∧ f a = .ok r := by
  cases x <;> simp [bind, Except.bind]

theorem bind_eq_error {ε α β : Type} {x : Except ε α} {f : α → Except ε β} {e : ε} :
    x >>= f = .error e ↔ x = .error e ∨ ∃ a, x = .ok a ∧ f a = .error e := by
  cases x <;> simp [bind, Except.bind]

theorem exists_ok_iff {ε α : Type} {x : Except ε α} : (∃ a, x = .ok a) ↔ ∀ e, x ≠ .error e := by
  cases x <;> simp

/-- A step that always returns adds no failure. -/
theorem bind_ok_eq_error {ε α β : Type} {x : Except ε α} {f : α → Except ε β} {e : ε} (hf : ∀ a, ∃ b, f a = .ok b) :
    x >>= f = .error e ↔ x = .error e := by
  rw [bind_eq_error]
  refine or_iff_left ?_
  rintro ⟨a, -, h⟩
  obtain ⟨b, hb⟩ := hf a
  rw [hb] at h
  cases h

namespace Table

variable {α β σ ε : Type} {T : Table α} {a b : Nat} {g h : α → α}

def addrs (T : Table α) : List Nat := T.map Block.addr

/-- What the block at address `a` holds, if the table has one. -/
def deref : Table α → Nat → Option α
  | [], _ => none
  | b :: T, a => if b.addr = a then some b.val else deref T a

/-- Change the block at address `a` in place. -/
def update (T : Table α) (a : Nat) (g : α → α) : Table α :=
  T.map fun b => if b.addr = a then { b with val := g b.val } else b

@[simp] theorem addrs_nil : addrs ([] : Table α) = [] := rfl

@[simp] theorem addrs_cons (x : Block α) : addrs (x :: T) = x.addr :: addrs T := rfl

@[simp] theorem deref_nil : deref ([] : Table α) a = none := rfl

theorem deref_cons (x : Block α) :
    deref (x :: T) a = if x.addr = a then some x.val else deref T a := rfl

theorem mem_addrs : a ∈ addrs T ↔ ∃ x ∈ T, x.addr = a := by simp [addrs]

theorem addr_mem_addrs {x : Block α} (hx : x ∈ T) : x.addr ∈ addrs T :=
  mem_addrs.mpr ⟨x, hx, rfl⟩

/-! ### Looking up -/

theorem mem_of_deref {v : α} (hv : deref T a = some v) : ⟨a, v⟩ ∈ T := by
  induction T with
  | nil => simp at hv
  | cons x T ih =>
    rw [deref_cons] at hv
    split_ifs at hv with ha
    · obtain rfl := Option.some.inj hv
      subst ha
      exact List.mem_cons_self
    · exact List.mem_cons_of_mem _ (ih hv)

theorem deref_of_mem (hnd : (addrs T).Nodup) {x : Block α} (hx : x ∈ T) :
    deref T x.addr = some x.val := by
  induction T with
  | nil => simp at hx
  | cons y T ih =>
    simp only [addrs_cons, List.nodup_cons] at hnd
    rcases List.mem_cons.mp hx with rfl | hx
    · simp [deref_cons]
    · rw [deref_cons, if_neg, ih hnd.2 hx]
      intro he
      exact hnd.1 (he ▸ addr_mem_addrs hx)

/-- Blocks with one address are one block. -/
theorem eq_of_addr (hnd : (addrs T).Nodup) {x y : Block α} (hx : x ∈ T) (hy : y ∈ T)
    (he : x.addr = y.addr) : x = y := by
  have h := deref_of_mem hnd hx
  rw [he, deref_of_mem hnd hy, Option.some.injEq] at h
  cases x
  cases y
  simp_all

/-- Two tables over the same addresses that agree at each of them are equal. -/
theorem ext_deref : ∀ {T U : Table α}, (addrs T).Nodup → addrs T = addrs U →
    (∀ a ∈ addrs T, deref T a = deref U a) → T = U
  | [], [], _, _, _ => rfl
  | [], _ :: _, _, he, _ => by simp at he
  | _ :: _, [], _, he, _ => by simp at he
  | x :: T, y :: U, hnd, he, hd => by
    simp only [addrs_cons, List.nodup_cons, List.cons.injEq] at hnd he
    have hxy : x = y := by
      have h := hd x.addr (by simp)
      simp only [deref_cons, he.1, if_true, Option.some.injEq] at h
      cases x
      cases y
      simp_all
    have htail : T = U := by
      refine ext_deref hnd.2 he.2 fun a ha => ?_
      have hne : x.addr ≠ a := fun h => hnd.1 (h ▸ ha)
      have h := hd a (by simp [ha])
      rwa [deref_cons, deref_cons, if_neg hne, if_neg (he.1 ▸ hne)] at h
    rw [hxy, htail]

/-! ### Changing a block in place -/

@[simp] theorem update_nil : update ([] : Table α) a g = [] := rfl

theorem update_cons (x : Block α) : update (x :: T) a g =
    (if x.addr = a then { x with val := g x.val } else x) :: update T a g := rfl

@[simp] theorem addrs_update : addrs (update T a g) = addrs T := by
  simp only [addrs, update, List.map_map]
  refine List.map_congr_left fun x _ => ?_
  simp only [Function.comp_apply]
  split <;> rfl

theorem deref_update_self : deref (update T a g) a = (deref T a).map g := by
  induction T with
  | nil => rfl
  | cons x T ih =>
    rw [update_cons]
    by_cases hx : x.addr = a
    · simp [deref_cons, hx]
    · simp [deref_cons, hx, ih]

theorem deref_update_ne (hne : b ≠ a) : deref (update T a g) b = deref T b := by
  induction T with
  | nil => rfl
  | cons x T ih =>
    rw [update_cons]
    by_cases hx : x.addr = a
    · simp [deref_cons, hx, Ne.symm hne, ih]
    · simp [deref_cons, hx, ih]

theorem update_update : update (update T a g) a h = update T a (h ∘ g) := by
  simp only [update, List.map_map]
  refine List.map_congr_left fun x _ => ?_
  by_cases hx : x.addr = a <;> simp [hx]

theorem update_comm (hne : a ≠ b) :
    update (update T a g) b h = update (update T b h) a g := by
  simp only [update, List.map_map]
  refine List.map_congr_left fun x _ => ?_
  by_cases hx : x.addr = a
  · simp [hx, hne]
  · by_cases hy : x.addr = b <;> simp [hx, hy, Ne.symm hne]

/-- A field that the change keeps reads the same in the whole table. -/
theorem map_update (k : α → β) (hk : ∀ x, k (g x) = k x) :
    (update T a g).map (fun x => k x.val) = T.map (fun x => k x.val) := by
  simp only [update, List.map_map]
  refine List.map_congr_left fun x _ => ?_
  by_cases hx : x.addr = a <;> simp [hx, hk]

theorem map_update_addr (k : α → β) (hk : ∀ x, k (g x) = k x) :
    (update T a g).map (fun x => (x.addr, k x.val)) = T.map fun x => (x.addr, k x.val) := by
  simp only [update, List.map_map]
  refine List.map_congr_left fun x _ => ?_
  by_cases hx : x.addr = a <;> simp [hx, hk]

theorem update_eq_self (ha : a ∉ addrs T) : update T a g = T := by
  refine (List.map_congr_left fun x hx => ?_).trans (List.map_id T)
  have hne : x.addr ≠ a := fun he => ha (he ▸ addr_mem_addrs hx)
  rw [if_neg hne, id]

/-- Storing what is there already. -/
theorem update_const (hnd : (addrs T).Nodup) {v : α} (hv : deref T a = some v) :
    update T a (fun _ => v) = T := by
  refine (List.map_congr_left fun x hx => ?_).trans (List.map_id T)
  by_cases hxa : x.addr = a
  · have hval := deref_of_mem hnd hx
    rw [hxa, hv, Option.some.injEq] at hval
    rw [if_pos hxa, hval, id]
  · rw [if_neg hxa, id]

/-! ### Taking a block out -/

/-- Take the block at address `a` out. -/
def remove (T : Table α) (a : Nat) : Table α := T.filter fun b => b.addr ≠ a

theorem deref_remove_ne (hne : b ≠ a) : deref (remove T a) b = deref T b := by
  induction T with
  | nil => rfl
  | cons x T ih =>
    by_cases hx : x.addr = a
    · have hxb : x.addr ≠ b := fun h => hne (h.symm.trans hx)
      rw [remove, List.filter_cons_of_neg (by simpa using hx), ← remove, ih, deref_cons, if_neg hxb]
    · rw [remove, List.filter_cons_of_pos (by simpa using hx), ← remove, deref_cons, deref_cons, ih]

/-! ### Walking the blocks that satisfy a test -/

/-- At most one block carries a key that no two blocks share. -/
theorem filter_key {κ : Type} [DecidableEq κ] (key : Block α → κ) (hnd : (T.map key).Nodup)
    {x : Block α} (hx : x ∈ T) {c : κ} (hc : key x = c) : T.filter (fun y => key y = c) = [x] := by
  subst hc
  induction T with
  | nil => simp at hx
  | cons y T ih =>
    simp only [List.map_cons, List.nodup_cons, List.mem_map, not_exists, not_and] at hnd
    rcases List.mem_cons.mp hx with rfl | hx
    · rw [List.filter_cons_of_pos (by simp), List.filter_eq_nil_iff.mpr]
      intro z hz
      simpa using hnd.1 z hz
    · rw [List.filter_cons_of_neg, ih hnd.2 hx]
      have := hnd.1 x hx
      simpa using fun he => this he.symm

theorem length_filter_key {κ : Type} [DecidableEq κ] (key : Block α → κ) (hnd : (T.map key).Nodup) (c : κ) :
    (T.filter fun y => key y = c).length ≤ 1 := by
  cases hall : T.filter fun y => key y = c with
  | nil => exact Nat.zero_le 1
  | cons x rest =>
    have hx : x ∈ T.filter fun y => key y = c := by
      rw [hall]
      exact List.mem_cons_self
    obtain ⟨hx, hc⟩ := List.mem_filter.mp hx
    have hsingle := filter_key key hnd hx (of_decide_eq_true hc)
    rw [hall] at hsingle
    rw [hsingle]
    exact Nat.le_refl 1

/-- Run `body` on the blocks that pass the test, newest first, threading the loop's variables; the
first failure ends the walk. -/
def forEach (test : α → Prop) [DecidablePred test] (body : α → σ → Except ε (α × σ)) :
    Table α → σ → Except ε (Table α × σ)
  | [], x => .ok ([], x)
  | b :: T, x =>
    if test b.val then do
      let (v, x) ← body b.val x
      let (T, x) ← forEach test body T x
      .ok ({ b with val := v } :: T, x)
    else do
      let (T, x) ← forEach test body T x
      .ok (b :: T, x)

variable {test : α → Prop} [DecidablePred test] {body : α → σ → Except ε (α × σ)} {x x' : σ}
  {T' : Table α}

@[simp] theorem forEach_nil : forEach test body [] x = .ok ([], x) := rfl

theorem forEach_cons (y : Block α) : forEach test body (y :: T) x = (if test y.val then do
    let (v, x) ← body y.val x
    let (T, x) ← forEach test body T x
    .ok ({ y with val := v } :: T, x)
  else do
    let (T, x) ← forEach test body T x
    .ok (y :: T, x)) := rfl

theorem forEach_cons_pos {y : Block α} (hy : test y.val) (hok : forEach test body (y :: T) x = .ok (T', x')) :
    ∃ v x₁ U, body y.val x = .ok (v, x₁) ∧ forEach test body T x₁ = .ok (U, x') ∧
      T' = { y with val := v } :: U := by
  rw [forEach_cons, if_pos hy, bind_eq_ok] at hok
  obtain ⟨⟨v, x₁⟩, hb, hok⟩ := hok
  obtain ⟨⟨U, x₂⟩, hr, hok⟩ := bind_eq_ok.mp hok
  simp only [Except.ok.injEq, Prod.mk.injEq] at hok
  exact ⟨v, x₁, U, hb, hok.2 ▸ hr, hok.1.symm⟩

theorem forEach_cons_neg {y : Block α} (hy : ¬ test y.val) (hok : forEach test body (y :: T) x = .ok (T', x')) :
    ∃ U, forEach test body T x = .ok (U, x') ∧ T' = y :: U := by
  rw [forEach_cons, if_neg hy, bind_eq_ok] at hok
  obtain ⟨⟨U, x₂⟩, hr, hok⟩ := hok
  simp only [Except.ok.injEq, Prod.mk.injEq] at hok
  exact ⟨U, hok.2 ▸ hr, hok.1.symm⟩

theorem forEach_none (hno : ∀ y ∈ T, ¬ test y.val) : forEach test body T x = .ok (T, x) := by
  induction T with
  | nil => rfl
  | cons y T ih =>
    rw [forEach_cons, if_neg (hno y List.mem_cons_self), ih fun z hz => hno z (List.mem_cons_of_mem _ hz)]
    rfl

/-- A walk fails where its body does. -/
theorem forEach_error {e : ε} (h : forEach test body T x = .error e) :
    ∃ y ∈ T, test y.val ∧ ∃ z, body y.val z = .error e := by
  induction T generalizing x with
  | nil => cases h
  | cons y T ih =>
    have hrest : ∀ {z}, forEach test body T z = .error e → ∃ y' ∈ y :: T, test y'.val ∧ ∃ z, body y'.val z = .error e := by
      intro z hz
      obtain ⟨y', hy', h'⟩ := ih hz
      exact ⟨y', List.mem_cons_of_mem _ hy', h'⟩
    by_cases hy : test y.val
    · rw [forEach_cons, if_pos hy] at h
      rcases bind_eq_error.mp h with hbody | ⟨r, -, h⟩
      · exact ⟨y, List.mem_cons_self, hy, x, hbody⟩
      · rcases bind_eq_error.mp h with htail | ⟨r', -, h⟩
        · exact hrest htail
        · cases h
    · rw [forEach_cons, if_neg hy] at h
      rcases bind_eq_error.mp h with htail | ⟨r', -, h⟩
      · exact hrest htail
      · cases h

/-- A walk over a single block is the body run on it. -/
theorem forEach_single {y : Block α} (hy : test y.val) :
    forEach test body [y] x = (do
      let (v, x) ← body y.val x
      .ok ([{ y with val := v }], x)) := by
  rw [forEach_cons, if_pos hy]
  cases body y.val x <;> rfl

/-- A walk whose body always returns, with a value that does not depend on the loop's variables. -/
theorem forEach_total {g : α → α} {h : α → σ → σ}
    (hbody : ∀ y ∈ T, test y.val → ∀ x, body y.val x = .ok (g y.val, h y.val x)) (x : σ) :
    forEach test body T x = .ok (T.map fun y => if test y.val then { y with val := g y.val } else y,
      (T.filter fun y => test y.val).foldl (fun x y => h y.val x) x) := by
  induction T generalizing x with
  | nil => rfl
  | cons y T ih =>
    have hrest := ih fun z hz => hbody z (List.mem_cons_of_mem _ hz)
    by_cases hy : test y.val
    · rw [forEach_cons, if_pos hy, hbody y List.mem_cons_self hy, List.map_cons, if_pos hy,
        List.filter_cons_of_pos (by simpa using hy), List.foldl_cons]
      change Except.bind (forEach test body T (h y.val x)) _ = _
      rw [hrest]
      rfl
    · rw [forEach_cons, if_neg hy, List.map_cons, if_neg hy, List.filter_cons_of_neg (by simpa using hy), hrest]
      rfl

/-- A walk over more blocks whose body skips the others. -/
theorem forEach_guard {only : α → Prop} [DecidablePred only] (hsub : ∀ v, only v → test v) :
    forEach test (fun v x => if only v then body v x else .ok (v, x)) T x = forEach only body T x := by
  induction T generalizing x with
  | nil => rfl
  | cons y T ih =>
    by_cases hy : only y.val
    · simp only [forEach_cons, if_pos hy, if_pos (hsub _ hy)]
      cases body y.val x with
      | error e => rfl
      | ok r => simp only [bind, Except.bind, ih]
    · simp only [forEach_cons, if_neg hy, ih]
      split_ifs <;> rfl

/-- The rule of the walk. `J` holds of the loop's variables, `P` of every block together with them; the
body re-establishes both, and leaves `P` alone on the blocks it does not visit. -/
theorem forEach_induct {P : σ → α → Prop} {J : σ → Prop}
    (hbody : ∀ v x v' x', test v → J x → P x v → body v x = .ok (v', x') →
      J x' ∧ P x' v' ∧ ∀ w, P x w → P x' w)
    (hJ : J x) (hP : ∀ y ∈ T, P x y.val) (hok : forEach test body T x = .ok (T', x')) :
    J x' ∧ (∀ y ∈ T', P x' y.val) ∧ ∀ w, P x w → P x' w := by
  induction T generalizing x T' with
  | nil =>
    obtain ⟨rfl, rfl⟩ : [] = T' ∧ x = x' := by simpa using hok
    exact ⟨hJ, hP, fun _ h => h⟩
  | cons y T ih =>
    have hPy := hP y List.mem_cons_self
    have hPT : ∀ z ∈ T, P x z.val := fun z hz => hP z (List.mem_cons_of_mem _ hz)
    by_cases hy : test y.val
    · obtain ⟨v, x₁, U, hb, hr, rfl⟩ := forEach_cons_pos hy hok
      obtain ⟨hJ₁, hPv, hkeep⟩ := hbody _ _ _ _ hy hJ hPy hb
      obtain ⟨hJ', hU, hkeep'⟩ := ih hJ₁ (fun z hz => hkeep _ (hPT z hz)) hr
      refine ⟨hJ', fun z hz => ?_, fun w hw => hkeep' w (hkeep w hw)⟩
      rcases List.mem_cons.mp hz with rfl | hz
      · exact hkeep' _ hPv
      · exact hU z hz
    · obtain ⟨U, hr, rfl⟩ := forEach_cons_neg hy hok
      obtain ⟨hJ', hU, hkeep⟩ := ih hJ hPT hr
      refine ⟨hJ', fun z hz => ?_, hkeep⟩
      rcases List.mem_cons.mp hz with rfl | hz
      · exact hkeep _ hPy
      · exact hU z hz

/-- A block of the result is one that the walk passed over, or what the body made of one that it visited. -/
theorem forEach_mem {y' : Block α} (hok : forEach test body T x = .ok (T', x')) (hy' : y' ∈ T') :
    ∃ y ∈ T, y.addr = y'.addr ∧
      (¬ test y.val ∧ y' = y ∨ test y.val ∧ ∃ z z', body y.val z = .ok (y'.val, z')) := by
  induction T generalizing x T' with
  | nil =>
    obtain ⟨rfl, -⟩ : [] = T' ∧ x = x' := by simpa using hok
    cases hy'
  | cons y T ih =>
    by_cases hy : test y.val
    · obtain ⟨v, x₁, U, hb, hr, rfl⟩ := forEach_cons_pos hy hok
      rcases List.mem_cons.mp hy' with rfl | hy'
      · exact ⟨y, List.mem_cons_self, rfl, .inr ⟨hy, _, _, hb⟩⟩
      · obtain ⟨z, hz, hrest⟩ := ih hr hy'
        exact ⟨z, List.mem_cons_of_mem _ hz, hrest⟩
    · obtain ⟨U, hr, rfl⟩ := forEach_cons_neg hy hok
      rcases List.mem_cons.mp hy' with rfl | hy'
      · exact ⟨y', List.mem_cons_self, rfl, .inl ⟨hy, rfl⟩⟩
      · obtain ⟨z, hz, hrest⟩ := ih hr hy'
        exact ⟨z, List.mem_cons_of_mem _ hz, hrest⟩

/-- A walk returns when its body does on every block it visits, whatever the loop's variables. -/
theorem forEach_ok_iff (ok : α → Prop)
    (hbody : ∀ y ∈ T, test y.val → ∀ x, (∃ r, body y.val x = .ok r) ↔ ok y.val) (x : σ) :
    (∃ r, forEach test body T x = .ok r) ↔ ∀ y ∈ T, test y.val → ok y.val := by
  induction T generalizing x with
  | nil => exact ⟨fun _ y hy => absurd hy List.not_mem_nil, fun _ => ⟨_, rfl⟩⟩
  | cons y T ih =>
    have hT := ih fun z hz => hbody z (List.mem_cons_of_mem _ hz)
    have hhead := hbody y List.mem_cons_self
    constructor
    · rintro ⟨⟨T', x'⟩, hok⟩ z hz hz'
      by_cases hy : test y.val
      · obtain ⟨v, x₁, U, hb, hr, -⟩ := forEach_cons_pos hy hok
        rcases List.mem_cons.mp hz with rfl | hz
        · exact (hhead hz' x).mp ⟨_, hb⟩
        · exact (hT x₁).mp ⟨_, hr⟩ z hz hz'
      · obtain ⟨U, hr, -⟩ := forEach_cons_neg hy hok
        rcases List.mem_cons.mp hz with rfl | hz
        · exact absurd hz' hy
        · exact (hT x).mp ⟨_, hr⟩ z hz hz'
    · intro h
      have hrest := fun x => (hT x).mpr fun z hz => h z (List.mem_cons_of_mem _ hz)
      by_cases hy : test y.val
      · obtain ⟨⟨v, x₁⟩, hb⟩ := (hhead hy x).mpr (h y List.mem_cons_self hy)
        obtain ⟨⟨U, x₂⟩, hr⟩ := hrest x₁
        exact ⟨({ y with val := v } :: U, x₂), by simp only [forEach_cons, if_pos hy, hb, hr, bind, Except.bind]⟩
      · obtain ⟨⟨U, x₂⟩, hr⟩ := hrest x
        exact ⟨(y :: U, x₂), by simp only [forEach_cons, if_neg hy, hr, bind, Except.bind]⟩

/-- A walk whose body keeps a field of every block keeps that field of the whole table, and keeps the
addresses. -/
theorem forEach_map {β : Type} {k : α → β}
    (hbody : ∀ v x v' x', test v → body v x = .ok (v', x') → k v' = k v)
    (hok : forEach test body T x = .ok (T', x')) :
    T'.map (fun y => (y.addr, k y.val)) = T.map (fun y => (y.addr, k y.val)) := by
  induction T generalizing x T' with
  | nil =>
    obtain ⟨rfl, -⟩ : [] = T' ∧ x = x' := by simpa using hok
    rfl
  | cons y T ih =>
    by_cases hy : test y.val
    · obtain ⟨v, x₁, U, hb, hr, rfl⟩ := forEach_cons_pos hy hok
      simp [ih hr, hbody _ _ _ _ hy hb]
    · obtain ⟨U, hr, rfl⟩ := forEach_cons_neg hy hok
      simp [ih hr]

/-! ### Finding a block by a key -/

section lookup

variable {κ : Type} [DecidableEq κ] (key : α → κ)

/-- What the first block with a key holds. -/
def lookup : Table α → κ → Option α
  | [], _ => none
  | b :: T, k => if key b.val = k then some b.val else lookup T k

@[simp] theorem lookup_nil (k : κ) : lookup key ([] : Table α) k = none := rfl

/-- The first block is looked at first. -/
theorem lookup_head (x : Block α) (k : κ) :
    lookup key (x :: T) k = if key x.val = k then some x.val else lookup key T k := rfl

theorem lookup_cons (x : Block α) :
    lookup key (x :: T) = Function.update (lookup key T) (key x.val) (some x.val) := by
  funext k
  by_cases hk : key x.val = k
  · simp [lookup_head, hk]
  · simp [lookup_head, hk, Ne.symm hk]

variable {key} {k : κ} {v w : α}

theorem lookup_eq_none : lookup key T k = none ↔ ∀ b ∈ T, key b.val ≠ k := by
  induction T with
  | nil => simp
  | cons b T ih =>
    rw [lookup_head, List.forall_mem_cons]
    by_cases hk : key b.val = k
    · simp [hk]
    · simp [hk, ih]

theorem exists_of_lookup (h : lookup key T k = some v) : ∃ b ∈ T, b.val = v ∧ key v = k := by
  induction T with
  | nil => simp at h
  | cons b T ih =>
    rw [lookup_head] at h
    split_ifs at h with hk
    · obtain rfl := Option.some.inj h
      exact ⟨b, List.mem_cons_self, rfl, hk⟩
    · obtain ⟨d, hd, hv⟩ := ih h
      exact ⟨d, List.mem_cons_of_mem _ hd, hv⟩

theorem lookup_of_mem (hnd : (T.map fun b => key b.val).Nodup) {b : Block α} (hb : b ∈ T) :
    lookup key T (key b.val) = some b.val := by
  induction T with
  | nil => simp at hb
  | cons d T ih =>
    rw [List.map_cons, List.nodup_cons] at hnd
    rw [lookup_head]
    rcases List.mem_cons.mp hb with rfl | hb
    · rw [if_pos rfl]
    · have hne : key d.val ≠ key b.val := by
        intro he
        exact hnd.1 (he ▸ List.mem_map_of_mem hb)
      rw [if_neg hne, ih hnd.2 hb]

/-- Changing a block in place changes what is found under its key and nothing else. -/
theorem lookup_update (hkeys : (T.map fun b => key b.val).Nodup) (haddrs : (addrs T).Nodup)
    (hv : deref T a = some v) (hkey : key (g v) = key v) :
    lookup key (update T a g) = Function.update (lookup key T) (key v) (some (g v)) := by
  induction T with
  | nil => simp at hv
  | cons x T ih =>
    rw [List.map_cons, List.nodup_cons] at hkeys
    rw [addrs_cons, List.nodup_cons] at haddrs
    rw [deref_cons] at hv
    rw [update_cons]
    by_cases hx : x.addr = a
    · rw [if_pos hx, Option.some.injEq] at hv
      have hgone : a ∉ addrs T := hx ▸ haddrs.1
      rw [if_pos hx, update_eq_self hgone, lookup_cons, lookup_cons, hv, hkey, Function.update_idem]
    · rw [if_neg hx] at hv
      have hne : key x.val ≠ key v := by
        intro he
        exact hkeys.1 (he ▸ List.mem_map_of_mem (mem_of_deref hv))
      rw [if_neg hx, lookup_cons, lookup_cons, ih hkeys.2 haddrs.2 hv, Function.update_comm hne]

/-- A walk over the one block with a key replaces it and leaves the others where they are. -/
theorem forEach_unique (hkeys : (T.map fun b => key b.val).Nodup)
    (hok : forEach (fun w => key w = k) body T x = .ok (T', x')) :
    ((∀ b ∈ T, key b.val ≠ k) ∧ T' = T ∧ x' = x) ∨ ∃ l b r v, T = l ++ b :: r ∧ key b.val = k ∧
      body b.val x = .ok (v, x') ∧ T' = l ++ { b with val := v } :: r := by
  induction T generalizing T' with
  | nil =>
    obtain ⟨rfl, rfl⟩ : [] = T' ∧ x = x' := by simpa using hok
    exact .inl ⟨fun b hb => absurd hb List.not_mem_nil, rfl, rfl⟩
  | cons b T ih =>
    rw [List.map_cons, List.nodup_cons] at hkeys
    by_cases hb : key b.val = k
    · obtain ⟨v, y, U, hbody, hrest, rfl⟩ := forEach_cons_pos hb hok
      have hno : ∀ d ∈ T, ¬ key d.val = k := by
        intro d hd he
        exact hkeys.1 (hb.trans he.symm ▸ List.mem_map_of_mem hd)
      rw [forEach_none hno] at hrest
      cases hrest
      exact .inr ⟨[], b, T, v, rfl, hb, hbody, rfl⟩
    · obtain ⟨U, hrest, rfl⟩ := forEach_cons_neg hb hok
      rcases ih hkeys.2 hrest with ⟨hno, rfl, rfl⟩ | ⟨l, d, r, v, rfl, hd, hbody, rfl⟩
      · exact .inl ⟨List.forall_mem_cons.mpr ⟨hb, hno⟩, rfl, rfl⟩
      · exact .inr ⟨b :: l, d, r, v, rfl, hd, hbody, rfl⟩

/-- A walk over the one block with a key fails where its body does there. -/
theorem forEach_lookup_error (hkeys : (T.map fun b => key b.val).Nodup) {e : ε} :
    forEach (fun w => key w = k) body T x = .error e ↔ ∃ v, lookup key T k = some v ∧ body v x = .error e := by
  induction T with
  | nil => simp
  | cons b T ih =>
    rw [List.map_cons, List.nodup_cons] at hkeys
    rw [forEach_cons, lookup_head]
    by_cases hb : key b.val = k
    · rw [if_pos hb, if_pos hb, bind_eq_error]
      have hno : ∀ d ∈ T, ¬ key d.val = k := by
        intro d hd he
        exact hkeys.1 (hb.trans he.symm ▸ List.mem_map_of_mem hd)
      constructor
      · rintro (hbody | ⟨⟨v, y⟩, -, hrest⟩)
        · exact ⟨b.val, rfl, hbody⟩
        · rcases bind_eq_error.mp hrest with htail | ⟨r, -, hend⟩
          · rw [forEach_none hno] at htail
            cases htail
          · cases hend
      · rintro ⟨v, hv, hbody⟩
        obtain rfl := Option.some.inj hv
        exact .inl hbody
    · rw [if_neg hb, if_neg hb, bind_eq_error, ih hkeys.2]
      refine ⟨?_, .inl⟩
      rintro (h | ⟨r, -, hrest⟩)
      · exact h
      · cases hrest

/-- A walk over the one block with a key runs its body there. -/
theorem forEach_lookup (hkeys : (T.map fun b => key b.val).Nodup) (hv : lookup key T k = some v)
    (hkey : ∀ w y, body v x = .ok (w, y) → key w = k)
    (hok : forEach (fun w => key w = k) body T x = .ok (T', x')) :
    ∃ w, body v x = .ok (w, x') ∧ lookup key T' = Function.update (lookup key T) k (some w) := by
  induction T generalizing T' with
  | nil => simp at hv
  | cons b T ih =>
    rw [List.map_cons, List.nodup_cons] at hkeys
    rw [lookup_head] at hv
    by_cases hb : key b.val = k
    · rw [if_pos hb, Option.some.injEq] at hv
      subst hv
      obtain ⟨w, y, U, hbody, hrest, rfl⟩ := forEach_cons_pos hb hok
      have hno : ∀ d ∈ T, ¬ key d.val = k := by
        intro d hd he
        exact hkeys.1 (hb.trans he.symm ▸ List.mem_map_of_mem hd)
      rw [forEach_none hno] at hrest
      cases hrest
      refine ⟨w, hbody, ?_⟩
      rw [lookup_cons, lookup_cons, hkey w _ hbody, hb, Function.update_idem]
    · rw [if_neg hb] at hv
      obtain ⟨U, hrest, rfl⟩ := forEach_cons_neg hb hok
      obtain ⟨w, hbody, hU⟩ := ih hkeys.2 hv hrest
      refine ⟨w, hbody, ?_⟩
      rw [lookup_cons, lookup_cons, hU, Function.update_comm hb]

end lookup

end Table

end HeapTable
