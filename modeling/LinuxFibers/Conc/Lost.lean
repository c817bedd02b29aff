import LinuxFibers.Base.Counter
import LinuxFibers.Conc.Apart

/-!
# Updates that are lost

The converse of `creations_apart`: once a call falls into another call's update, the calls do not come apart
again. Whatever the interleaving, `n` counts the stores of `last_fib_id`, the log `read` has the ids read back and
the log `filed` the entries counted in the directory. The first overlap leaves one of the two counters behind
(`SharedCounter.Behind`), or an id that no call reads back.
-/

namespace LinuxFibers

open HeapTable Runs ThreadLog SharedCounter

/-! ### The two counters -/

/-- The stores of `last_fib_id` in the next step. -/
def CreatePc.stores : CreatePc → Nat
  | .storeLast _ _ _ => 1
  | _ => 0

/-- The id read back in the next step, where `last` is `last_fib_id`. -/
def CreatePc.reads (last : Int) : CreatePc → List Int
  | .loadId _ _ => [last]
  | _ => []

/-- The id whose entry is counted in the next step. -/
def CreatePc.files : CreatePc → List Int
  | .storeLen _ b _ _ => [b.val.id]
  | _ => []

/-- The id that a call has read back and not returned yet. -/
def CreatePc.named : CreatePc → List Int
  | .loadLen _ b _ | .storeEntry _ b _ _ | .storeLen _ b _ _ | .publish _ b => [b.val.id]
  | _ => []

/-- The call has still to read its id back. -/
def CreatePc.unread : CreatePc → Bool
  | .loadId _ _ => true
  | _ => false

namespace Creation

/-- The values of `last_fib_id` loaded. -/
def ids (cf : Creation) (t : Int) : Option Int := (cf.pc t).loaded

/-- The calls that have still to read their ids back. -/
def Unread (cf : Creation) (s : Finset Int) : Prop := ∀ t, t ∈ s ↔ (cf.pc t).unread = true

/-- The values of `len_fiber_stuff` loaded. -/
def slots (cf : Creation) (t : Int) : Option Int := (cf.pc t).slot.map Nat.cast

variable {cf cf' : Creation} {t : Int}

theorem Taken.update {α : Type} (f : CreatePc → α) (h : cf.Taken t cf') :
    (fun u => f (cf'.pc u)) = Function.update (fun u => f (cf.pc u)) t (f (cf'.pc t)) := by
  funext u
  by_cases hu : u = t
  · rw [hu, Function.update_self]
  · rw [Function.update_of_ne hu, (h.others hu).1]

/-- `last_fib_id` is counted up by a load and a store. -/
theorem Taken.step_ids (h : cf.Taken t cf') :
    Move t cf.proc.lastFibId cf.ids cf'.proc.lastFibId cf'.ids (cf.pc t).stores := by
  have hids : cf'.ids = Function.update cf.ids t (cf'.pc t).loaded := h.update CreatePc.loaded
  have hskip : cf'.proc.lastFibId = cf.proc.lastFibId → (cf'.pc t).loaded = (cf.pc t).loaded →
      (cf.pc t).stores = 0 →
      Move t cf.proc.lastFibId cf.ids cf'.proc.lastFibId cf'.ids (cf.pc t).stores := by
    intro hlast hloaded hstores
    have hsame : Function.update cf.ids t (cf.pc t).loaded = cf.ids := Function.update_eq_self t cf.ids
    rw [hlast, hids, hloaded, hsame, hstores]
    exact .skip
  cases h with
  | loadedLast hpc =>
    rw [hids, hpc]
    simp only [goto, Function.update_self]
    exact .load (congrArg CreatePc.loaded hpc)
  | storedLast hpc =>
    rw [hids, hpc]
    simp only [goto, Function.update_self]
    exact .store (congrArg CreatePc.loaded hpc)
  | created hpc | converted hpc => exact hskip rfl (by simp [goto, hpc, CreatePc.loaded]) (by rw [hpc]; rfl)
  | refused hpc => exact hskip rfl rfl (by rw [hpc]; rfl)
  | published hpc =>
    exact hskip publishFiber_lastFibId (by simp [goto, returns, hpc, CreatePc.loaded]) (by rw [hpc]; rfl)
  | loadedId hpc | loadedLen hpc | storedEntry hpc | storedLen hpc =>
    exact hskip rfl (by simp [goto, hpc, CreatePc.loaded]) (by rw [hpc]; rfl)

/-- So is `len_fiber_stuff`. -/
theorem Taken.step_slots (h : cf.Taken t cf') {stuff : FiberStuff} (hstuff : cf.stuff = some stuff) :
    ∃ stuff', cf'.stuff = some stuff' ∧
      Move t stuff.lenFiberStuff cf.slots stuff'.lenFiberStuff cf'.slots (cf.pc t).files.length := by
  have hslots : cf'.slots = Function.update cf.slots t ((cf'.pc t).slot.map Nat.cast) :=
    h.update fun pc => pc.slot.map Nat.cast
  have hskip : ∀ stuff', cf'.stuff = some stuff' → stuff'.lenFiberStuff = stuff.lenFiberStuff →
      (cf'.pc t).slot = (cf.pc t).slot → (cf.pc t).files = [] →
      ∃ stuff', cf'.stuff = some stuff' ∧
        Move t stuff.lenFiberStuff cf.slots stuff'.lenFiberStuff cf'.slots (cf.pc t).files.length := by
    intro stuff' hstuff' hlen hslot hfiles
    have hsame : Function.update cf.slots t ((cf.pc t).slot.map Nat.cast) = cf.slots :=
      Function.update_eq_self t cf.slots
    refine ⟨stuff', hstuff', ?_⟩
    rw [hlen, hslots, hslot, hsame, hfiles]
    exact .skip
  cases h with
  | @loadedLen k b name stuff' hpc hstuff' =>
    obtain rfl : stuff = stuff' := Option.some.inj (hstuff.symm.trans hstuff')
    refine ⟨stuff, hstuff, ?_⟩
    rw [hslots, hpc]
    simp only [goto, Function.update_self]
    exact .load (by rw [slots, hpc]; rfl)
  | @storedLen k b name i hpc =>
    refine ⟨_, Entered.stuff_modStuff hstuff _, ?_⟩
    have hloaded : cf.slots t = some (i : Int) := by
      rw [slots, hpc]
      rfl
    rw [hslots, hpc]
    simp only [goto, Function.update_self]
    exact .store hloaded
  | storedEntry hpc =>
    exact hskip _ (Entered.stuff_modStuff hstuff _) rfl (by simp [goto, hpc, CreatePc.slot]) (by rw [hpc]; rfl)
  | @published k b hpc =>
    refine hskip stuff ?_ rfl (by simp [goto, returns, hpc, CreatePc.slot]) (by rw [hpc]; rfl)
    show (publishFiber _ _ _ _).1.listafiberStuff.deref _ = _
    rw [publishFiber_listafiberStuff]
    exact hstuff
  | refused hpc => exact hskip stuff hstuff rfl rfl (by rw [hpc]; rfl)
  | created hpc | converted hpc | loadedLast hpc | storedLast hpc | loadedId hpc =>
    exact hskip stuff hstuff rfl (by simp [goto, hpc, CreatePc.slot]) (by rw [hpc]; rfl)

end Creation

/-! ### Logs of any run -/

section logs

variable {cf cf' : Creation} {t : Int} {l : List (Int × Int)}

/-- A log that has, for every thread, the ids returned and those that `f` gives goes on with a step. -/
theorem byThread_step {f : CreatePc → List Int} (h : ∀ u, ofThread u l = idsOf (cf.rets u) ++ f (cf.pc u))
    (ht : cf.Taken t cf') {ids : List Int}
    (hids : idsOf (cf'.rets t) ++ f (cf'.pc t) = idsOf (cf.rets t) ++ f (cf.pc t) ++ ids) (u : Int) :
    ofThread u (l ++ ids.map (Prod.mk t)) = idsOf (cf'.rets u) ++ f (cf'.pc u) := by
  by_cases hu : u = t
  · rw [hu, ofThread_append_self, h, hids]
  · obtain ⟨hpc, -, hrets⟩ := ht.others hu
    rw [ofThread_append_ne hu, h, hpc, hrets]

/-- The ids of a process whose `last_fib_id` was `last₀` before, after `n` stores of it. -/
structure Drawn (last₀ : Int) (cf : Creation) (n : Nat) (read : List (Int × Int)) : Prop where
  bounded : Bounded last₀ cf.proc.lastFibId cf.ids n
  byThread : ∀ t, ofThread t read = idsOf (cf.rets t) ++ (cf.pc t).named
  range : ∀ x ∈ read, last₀ < x.2 ∧ x.2 ≤ last₀ + n
  unread : ∃ s, cf.Unread s ∧ n = read.length + s.card

/-- The entries of a directory that was `stuff₀` before. -/
structure Filed (stuff₀ : FiberStuff) (cf : Creation) (stuff : FiberStuff) (filed : List (Int × Int)) :
    Prop where
  here : cf.stuff = some stuff
  bounded : Bounded stuff₀.lenFiberStuff stuff.lenFiberStuff cf.slots filed.length
  byThread : ∀ t, ofThread t filed = idsOf (cf.rets t) ++ (cf.pc t).entered

namespace Drawn

variable {last₀ : Int} {n : Nat} {read : List (Int × Int)}

theorem lt_of_publish (h : Drawn last₀ cf n read) {k : Caller} {b : Block Fiber} (hpc : cf.pc t = .publish k b) :
    last₀ < b.val.id := by
  have hmem : b.val.id ∈ ofThread t read := by
    rw [h.byThread, hpc]
    exact List.mem_append_right _ (List.mem_singleton_self _)
  exact (h.range _ (mem_ofThread.mp hmem)).1

/-- A call that has still to read its id back has counted. -/
theorem lt_of_unread (h : Drawn last₀ cf n read) (ht : (cf.pc t).unread = true) : read.length < n := by
  obtain ⟨s, hs, hn⟩ := h.unread
  have hpos : 0 < s.card := Finset.card_pos.mpr ⟨t, (hs t).mpr ht⟩
  omega

theorem range_step (h : Drawn last₀ cf n read) :
    ∀ x ∈ read ++ ((cf.pc t).reads cf.proc.lastFibId).map (Prod.mk t), last₀ < x.2 ∧
      x.2 ≤ last₀ + (n + (cf.pc t).stores : Nat) := by
  intro x hx
  rcases List.mem_append.mp hx with hx | hx
  · have hx' := h.range x hx
    push_cast
    omega
  · cases hpc : cf.pc t with
    | loadId k b =>
      rw [hpc] at hx
      obtain rfl := List.mem_singleton.mp hx
      have hn := h.lt_of_unread (t := t) (by rw [hpc]; rfl)
      have hlow := h.bounded.moved (by omega)
      have hhigh := h.bounded.most
      exact ⟨hlow, hhigh⟩
    | _ =>
      rw [hpc] at hx
      cases hx

theorem unread_step (h : Drawn last₀ cf n read) (ht : cf.Taken t cf') :
    ∃ s, cf'.Unread s ∧ n + (cf.pc t).stores =
      (read ++ ((cf.pc t).reads cf.proc.lastFibId).map (Prod.mk t)).length + s.card := by
  obtain ⟨s, hs, hn⟩ := h.unread
  have hskip : (cf'.pc t).unread = (cf.pc t).unread → (cf.pc t).stores = 0 →
      (cf.pc t).reads cf.proc.lastFibId = [] → ∃ s, cf'.Unread s ∧ n + (cf.pc t).stores =
        (read ++ ((cf.pc t).reads cf.proc.lastFibId).map (Prod.mk t)).length + s.card := by
    intro hunread hstores hreads
    refine ⟨s, fun u => ?_, ?_⟩
    · by_cases hu : u = t
      · rw [hu, hs t, hunread]
      · rw [hs u, (ht.others hu).1]
    · rw [hstores, hreads, List.map_nil, List.append_nil]
      exact hn
  cases ht with
  | @storedLast k b last hpc =>
    refine ⟨insert t s, fun u => ?_, ?_⟩
    · by_cases hu : u = t
      · simp [hu, Creation.goto, CreatePc.unread]
      · simp [hu, Creation.goto, Creation.setProc, hs u]
    · have ht : t ∉ s := fun hmem => by simpa [hpc, CreatePc.unread] using (hs t).mp hmem
      rw [Finset.card_insert_of_notMem ht, hpc]
      simp only [CreatePc.stores, CreatePc.reads, List.map_nil, List.append_nil]
      omega
  | @loadedId k b b' name m hpc hid =>
    refine ⟨s.erase t, fun u => ?_, ?_⟩
    · by_cases hu : u = t
      · simp [hu, Creation.goto, CreatePc.unread]
      · simp [hu, Creation.goto, Creation.setKmem, hs u]
    · have ht : t ∈ s := (hs t).mpr (by rw [hpc]; rfl)
      have hpos : 0 < s.card := Finset.card_pos.mpr ⟨t, ht⟩
      rw [Finset.card_erase_of_mem ht, hpc]
      simp only [CreatePc.stores, CreatePc.reads, List.map_cons, List.map_nil, List.length_append,
        List.length_singleton]
      omega
  | refused hpc => exact hskip rfl (by rw [hpc]; rfl) (by rw [hpc]; rfl)
  | created hpc | converted hpc | loadedLast hpc | loadedLen hpc | storedEntry hpc | storedLen hpc =>
    exact hskip (by simp [Creation.goto, hpc, CreatePc.unread]) (by rw [hpc]; rfl) (by rw [hpc]; rfl)
  | published hpc =>
    exact hskip (by simp [Creation.goto, Creation.returns, hpc, CreatePc.unread]) (by rw [hpc]; rfl)
      (by rw [hpc]; rfl)

theorem step (h : Drawn last₀ cf n read) (h₀ : 0 ≤ last₀) (ht : cf.Taken t cf') :
    Drawn last₀ cf' (n + (cf.pc t).stores)
      (read ++ ((cf.pc t).reads cf.proc.lastFibId).map (Prod.mk t)) := by
  refine ⟨h.bounded.step ht.step_ids, byThread_step h.byThread ht ?_, h.range_step, h.unread_step ht⟩
  cases ht with
  | @published k b hpc =>
    have hpos : 0 < b.val.id := lt_of_le_of_lt h₀ (h.lt_of_publish hpc)
    simp [Creation.goto, Creation.setProc, Creation.setKmem, Creation.returns, hpc, CreatePc.named,
      CreatePc.reads, idsOf_snoc hpos]
  | refused hpc htodo hyes =>
    simp [Creation.setTodo, Creation.returns, hpc, CreatePc.named, CreatePc.reads, idsOf_refused]
  | loadedId hpc hid => simp [Creation.goto, Creation.setKmem, hpc, CreatePc.named, CreatePc.reads, hid]
  | created hpc | converted hpc | loadedLast hpc | storedLast hpc | loadedLen hpc | storedEntry hpc
  | storedLen hpc =>
    simp [Creation.goto, Creation.setTodo, Creation.setProc, Creation.setKmem, Creation.modStuff, hpc,
      CreatePc.named, CreatePc.reads]

end Drawn

theorem Filed.step {stuff₀ stuff stuff' : FiberStuff} {filed : List (Int × Int)}
    (h : Filed stuff₀ cf stuff filed) (ht : cf.Taken t cf')
    (hpos : ∀ k b, cf.pc t = .publish k b → 0 < b.val.id) (hstuff : cf'.stuff = some stuff')
    (hs : Move t stuff.lenFiberStuff cf.slots stuff'.lenFiberStuff cf'.slots (cf.pc t).files.length) :
    Filed stuff₀ cf' stuff' (filed ++ (cf.pc t).files.map (Prod.mk t)) := by
  refine ⟨hstuff, ?_, byThread_step h.byThread ht ?_⟩
  · rw [List.length_append, List.length_map]
    exact h.bounded.step hs
  cases ht with
  | @published k b hpc =>
    simp [Creation.goto, Creation.setProc, Creation.setKmem, Creation.returns, hpc, CreatePc.entered,
      CreatePc.files, idsOf_snoc (hpos k b hpc)]
  | refused hpc htodo hyes =>
    simp [Creation.setTodo, Creation.returns, hpc, CreatePc.entered, CreatePc.files, idsOf_refused]
  | created hpc | converted hpc | loadedLast hpc | storedLast hpc | loadedId hpc | loadedLen hpc
  | storedEntry hpc | storedLen hpc =>
    simp [Creation.goto, Creation.setTodo, Creation.setProc, Creation.setKmem, Creation.modStuff, hpc,
      CreatePc.entered, CreatePc.files]

end logs

/-! ### The first overlap -/

/-- One of the counters is behind, or an id is passed over. -/
inductive Spoiled (last₀ : Int) (stuff₀ : FiberStuff) (cf : Creation) (n : Nat) (read : List (Int × Int))
    (stuff : FiberStuff) (filed : List (Int × Int)) : Prop
  | ids (h : Behind last₀ cf.proc.lastFibId cf.ids n)
  | entries (h : Behind stuff₀.lenFiberStuff stuff.lenFiberStuff cf.slots filed.length)
  | skipped {id : Int} (h : Exact last₀ cf.proc.lastFibId cf.ids n) (hlow : last₀ < id)
      (hid : id < cf.proc.lastFibId) (hno : id ∉ read.map Prod.snd)

section overlap

variable {last₀ : Int} {stuff₀ stuff stuff' : FiberStuff} {cf cf' : Creation} {t : Int} {n : Nat}
  {read filed : List (Int × Int)}

/-- An id below `last_fib_id` that no call has read back stays so. -/
theorem not_mem_reads {id : Int} (hid : id < cf.proc.lastFibId) (hno : id ∉ read.map Prod.snd) :
    id ∉ (read ++ ((cf.pc t).reads cf.proc.lastFibId).map (Prod.mk t)).map Prod.snd := by
  rw [List.map_append, List.mem_append]
  rintro (hmem | hmem)
  · exact hno hmem
  · cases hpc : cf.pc t with
    | loadId k b =>
      rw [hpc] at hmem
      obtain rfl := List.mem_singleton.mp hmem
      exact lt_irrefl _ hid
    | _ =>
      rw [hpc] at hmem
      cases hmem

/-- The loads and stores after the first overlap mend nothing. -/
theorem Spoiled.step (h : Spoiled last₀ stuff₀ cf n read stuff filed) (hdrawn : Drawn last₀ cf n read)
    (hfiled : Filed stuff₀ cf stuff filed) (ht : cf.Taken t cf')
    (hs : Move t stuff.lenFiberStuff cf.slots stuff'.lenFiberStuff cf'.slots (cf.pc t).files.length) :
    Spoiled last₀ stuff₀ cf' (n + (cf.pc t).stores)
      (read ++ ((cf.pc t).reads cf.proc.lastFibId).map (Prod.mk t)) stuff'
      (filed ++ (cf.pc t).files.map (Prod.mk t)) := by
  cases h with
  | ids h => exact .ids (h.step hdrawn.bounded ht.step_ids)
  | entries h =>
    apply Spoiled.entries
    rw [List.length_append, List.length_map]
    exact h.step hfiled.bounded hs
  | skipped h hlow hid hno =>
    rcases h.step ht.step_ids with h' | h'
    · refine .skipped h' hlow ?_ (not_mem_reads hid hno)
      rw [h'.value]
      rw [h.value] at hid
      push_cast
      omega
    · exact .ids h'

/-- A step that falls into another call's update. -/
theorem spoiled_of_overlaps (h : Exact last₀ cf.proc.lastFibId cf.ids n) (hdrawn : Drawn last₀ cf n read)
    (hstuff : cf.stuff = some stuff) (ht : cf.Taken t cf') (hstuff' : cf'.stuff = some stuff')
    (hover : cf.Overlaps t) :
    Spoiled last₀ stuff₀ cf' (n + (cf.pc t).stores)
      (read ++ ((cf.pc t).reads cf.proc.lastFibId).map (Prod.mk t)) stuff'
      (filed ++ (cf.pc t).files.map (Prod.mk t)) := by
  obtain ⟨u, hu, hconflict⟩ := hover
  have hids : cf'.ids = Function.update cf.ids t (cf'.pc t).loaded := ht.update CreatePc.loaded
  have hslots : cf'.slots = Function.update cf.slots t ((cf'.pc t).slot.map Nat.cast) :=
    ht.update fun pc => pc.slot.map Nat.cast
  have hexact := h.step ht.step_ids
  cases ht with
  | @loadedLast k b hpc =>
    rw [hpc] at hconflict
    have hloaded : cf.ids u ≠ none := Option.isSome_iff_ne_none.mp hconflict
    apply Spoiled.ids
    rw [hids]
    simp only [Creation.goto, Function.update_self]
    exact behind_of_load hu hloaded
  | @storedLast k b last hpc =>
    rw [hpc] at hconflict
    have hunread : (cf.pc u).unread = true := by
      cases hpcu : cf.pc u with
      | loadId k' b' => rfl
      | _ =>
        rw [hpcu] at hconflict
        cases hconflict
    -- fewer ids are read back than counted, so one of them is passed over from here on
    obtain ⟨id, hlow, hhigh, hno⟩ := exists_unused (l := read.map Prod.snd) last₀
      (by rw [List.length_map]; exact hdrawn.lt_of_unread hunread)
    rw [← h.value] at hhigh
    have hlast : last = cf.proc.lastFibId := h.held t last (congrArg CreatePc.loaded hpc)
    rcases hexact with hexact | hbehind
    · refine .skipped hexact hlow ?_ ?_
      · show id < last + 1
        omega
      · rw [hpc]
        simp only [CreatePc.reads, List.map_nil, List.append_nil]
        exact hno
    · exact .ids hbehind
  | @loadedLen k b name stuff₁ hpc hstuff₁ =>
    obtain rfl : stuff = stuff₁ := Option.some.inj (hstuff.symm.trans hstuff₁)
    obtain rfl : stuff = stuff' := Option.some.inj (hstuff.symm.trans hstuff')
    rw [hpc] at hconflict
    have hloaded : cf.slots u ≠ none := by
      intro hnone
      have hslot := Option.map_eq_none_iff.mp hnone
      rw [CreatePc.conflicts, hslot] at hconflict
      cases hconflict
    apply Spoiled.entries
    rw [hslots]
    simp only [Creation.goto, Function.update_self]
    exact behind_of_load hu hloaded
  | created hpc | converted hpc | refused hpc | storedEntry hpc | storedLen hpc | loadedId hpc | published hpc =>
    rw [hpc] at hconflict
    cases hconflict

/-- Once all calls have returned, the spoiled ones have not taken one id and one entry each. -/
theorem Spoiled.not_oneEach {cf₀ : Creation} {stuff₁ : FiberStuff} {taken : List (Int × Int)}
    {entered : List (Int × Int × Nat)}
    (h : Spoiled cf₀.proc.lastFibId stuff₀ cf n read stuff filed) (hdrawn : Drawn cf₀.proc.lastFibId cf n read)
    (hfiled : Filed stuff₀ cf stuff filed) (hdone : cf.Complete) :
    ¬ cf₀.OneEach cf stuff₀ taken stuff₁ entered := by
  intro heach
  have hread : read.Perm taken := by
    apply perm_of_ofThread
    intro t
    rw [hdrawn.byThread, (hdone t).1, ← heach.returned]
    exact List.append_nil _
  have hfileds : filed.Perm taken := by
    apply perm_of_ofThread
    intro t
    rw [hfiled.byThread, (hdone t).1, ← heach.returned]
    exact List.append_nil _
  have hn : n = taken.length := by
    obtain ⟨s, hs, hn⟩ := hdrawn.unread
    have hempty : s = ∅ := by
      apply Finset.eq_empty_of_forall_notMem
      intro t ht
      rw [hs t, (hdone t).1] at ht
      cases ht
    rw [hn, hempty, Finset.card_empty, hread.length_eq, add_zero]
  have hlast := heach.last
  cases h with
  | ids h =>
    have hlt := h.lt fun t => by rw [Creation.ids, (hdone t).1]; rfl
    omega
  | entries h =>
    have hlt := h.lt fun t => by rw [Creation.slots, (hdone t).1]; rfl
    obtain rfl : stuff = stuff₁ := Option.some.inj (hfiled.here.symm.trans heach.here)
    have hlen := heach.len
    have hcount := hfileds.length_eq
    omega
  | @skipped id h hlow hid hno =>
    have hids : (read.map Prod.snd).Perm (taken.map Prod.snd) := hread.map Prod.snd
    have hcount : (read.map Prod.snd).length = n := by rw [hids.length_eq, List.length_map, hn]
    refine hno (mem_of_nodup (hids.nodup_iff.mpr heach.distinct) (fun y hy => ?_) hlow ?_)
    · obtain ⟨x, hx, rfl⟩ := List.mem_map.mp hy
      rw [hcount]
      exact hdrawn.range x hx
    · rw [hcount, ← h.value]
      exact hid.le

end overlap

/-! ### Whole runs -/

namespace Creation.Start

variable {cf₀ : Creation} {stuff₀ : FiberStuff}

theorem exact (h : cf₀.Start stuff₀) : Exact cf₀.proc.lastFibId cf₀.proc.lastFibId cf₀.ids 0 where
  value := by simp
  held t x hx := by
    rw [Creation.ids, h.idle] at hx
    cases hx
  one t u ht := by
    rw [Creation.ids, h.idle] at ht
    exact absurd rfl ht

theorem drawn (h : cf₀.Start stuff₀) : Drawn cf₀.proc.lastFibId cf₀ 0 [] where
  bounded := .start fun t => by rw [Creation.ids, h.idle]; rfl
  byThread t := by
    rw [h.idle, h.rets]
    rfl
  range x hx := absurd hx List.not_mem_nil
  unread := ⟨∅, fun t => by simp [h.idle t, CreatePc.unread], rfl⟩

theorem filed (h : cf₀.Start stuff₀) : Filed stuff₀ cf₀ stuff₀ [] where
  here := h.entered.here
  bounded := .start fun t => by rw [Creation.slots, h.idle]; rfl
  byThread := h.entered.byThread

end Creation.Start

/-- The logs of a run, which has kept apart so far or is spoiled. -/
theorem apart_or_spoiled {cf₀ cf : Creation} {stuff₀ : FiberStuff} {tr : List Int} (hstart : cf₀.Start stuff₀)
    (hrun : Run (· = cf₀) Creation.Next cf tr) : ∃ n read stuff filed,
      Drawn cf₀.proc.lastFibId cf n read ∧ Filed stuff₀ cf stuff filed ∧
      (Run (· = cf₀) (Guarded (fun cf t => ¬ cf.Overlaps t) Creation.Next) cf tr ∧
          Exact cf₀.proc.lastFibId cf.proc.lastFibId cf.ids n ∨
        Spoiled cf₀.proc.lastFibId stuff₀ cf n read stuff filed) := by
  refine hrun.invariant (P := fun cf tr => ∃ n read stuff filed,
    Drawn cf₀.proc.lastFibId cf n read ∧ Filed stuff₀ cf stuff filed ∧
      (Run (· = cf₀) (Guarded (fun cf t => ¬ cf.Overlaps t) Creation.Next) cf tr ∧
          Exact cf₀.proc.lastFibId cf.proc.lastFibId cf.ids n ∨
        Spoiled cf₀.proc.lastFibId stuff₀ cf n read stuff filed)) ?_ ?_
  · intro cf he
    rw [he]
    exact ⟨0, [], stuff₀, [], hstart.drawn, hstart.filed, .inl ⟨.start rfl, hstart.exact⟩⟩
  · intro cf tr t cf' _ ih hnext
    obtain ⟨n, read, stuff, filed, hdrawn, hfiled, hcase⟩ := ih
    have ht := Creation.taken hnext
    obtain ⟨stuff', hstuff', hslots⟩ := ht.step_slots hfiled.here
    have hpos : ∀ k b, cf.pc t = .publish k b → 0 < b.val.id := fun k b hpc =>
      lt_of_le_of_lt hstart.last (hdrawn.lt_of_publish hpc)
    refine ⟨_, _, stuff', _, hdrawn.step hstart.last ht, hfiled.step ht hpos hstuff' hslots, ?_⟩
    rcases hcase with ⟨hapart, hexact⟩ | hspoiled
    · by_cases hover : cf.Overlaps t
      · exact .inr (spoiled_of_overlaps hexact hdrawn hfiled.here ht hstuff' hover)
      · rcases hexact.step ht.step_ids with hexact' | hbehind
        · exact .inl ⟨hapart.step ⟨hnext, hover⟩, hexact'⟩
        · exact .inr (.ids hbehind)
    · exact .inr (hspoiled.step hdrawn hfiled ht hslots)

/-- **Creations and overlaps**: once all calls have returned, each that creates a fiber has taken one id and one
entry of its own exactly when no step of the run has fallen into another call's update. -/
theorem creations_apart_iff {cf₀ cf : Creation} {stuff₀ : FiberStuff} {tr : List Int}
    (hstart : cf₀.Start stuff₀) (hrun : Run (· = cf₀) Creation.Next cf tr) (hdone : cf.Complete) :
    (∃ taken stuff entered, cf₀.OneEach cf stuff₀ taken stuff entered) ↔
      Run (· = cf₀) (Guarded (fun cf t => ¬ cf.Overlaps t) Creation.Next) cf tr := by
  constructor
  · intro ⟨taken, stuff₁, entered, heach⟩
    obtain ⟨n, read, stuff, filed, hdrawn, hfiled, hcase⟩ := apart_or_spoiled hstart hrun
    rcases hcase with ⟨hapart, -⟩ | hspoiled
    · exact hapart
    · exact absurd heach (hspoiled.not_oneEach hdrawn hfiled hdone)
  · exact fun hapart => creations_apart hstart hapart hdone

theorem conflicts_idle (pc : CreatePc) : pc.conflicts .idle = false := by
  cases pc <;> rfl

/-- Two threads create a fiber each, one of them while the other is past its id. -/
theorem creations_apart_two : ∃ cf₀ cf stuff₀ tr, cf₀.Start stuff₀ ∧
    Run (· = cf₀) (Guarded (fun cf t => ¬ cf.Overlaps t) Creation.Next) cf tr ∧ cf.Complete ∧
    cf.rets 1 = [2] ∧ cf.rets 2 = [3] ∧ ∃ taken stuff entered, cf₀.OneEach cf stuff₀ taken stuff entered := by
  have hok : ∀ (cf₀ cf : Creation) (tr : List Int) (t : Int) (stuff : FiberStuff), cf₀.Start stuff →
      (cf₀.todo = fun t => if t = 1 ∨ t = 2 then [.fibCreate 16 0 4096 4096] else []) →
      Run (· = cf₀) Creation.Next cf tr →
      decide ((t = 1 ∨ (cf.pc t).conflicts (cf.pc 1) = false) ∧
        (t = 2 ∨ (cf.pc t).conflicts (cf.pc 2) = false)) = true → ¬ cf.Overlaps t := by
    intro cf₀ cf tr t stuff hstart htodo hrun hok ⟨u, hu, hconflict⟩
    rw [decide_eq_true_eq] at hok
    by_cases h₁ : u = 1
    · rw [h₁, hok.1.resolve_left fun ht => hu (h₁.trans ht.symm)] at hconflict
      cases hconflict
    by_cases h₂ : u = 2
    · rw [h₂, hok.2.resolve_left fun ht => hu (h₂.trans ht.symm)] at hconflict
      cases hconflict
    have hcalls : cf₀.todo u = [] := by
      rw [htodo]
      exact if_neg (not_or.mpr ⟨h₁, h₂⟩)
    rw [(Creation.run_idle hrun (hstart.idle u) hcalls).1, conflicts_idle] at hconflict
    cases hconflict
  obtain ⟨cf₀, cf, stuff₀, hstart, htodo, hrun, hview⟩ := Creation.exists_concurrent 9
    [.fibOpen ⟨1, 1⟩, .fibConvert ⟨1, 1⟩ ⟨0, 5⟩]
    (fun t => if t = 1 ∨ t = 2 then [.fibCreate 16 0 4096 4096] else [])
    ([1, 2, 1, 1, 1, 2, 1, 2, 1, 2, 1, 2, 1] ++ List.replicate 3 2) _ _ hok
    (fun _ cf => (cf.done 1, cf.done 2, cf.rets 1, cf.rets 2)) (v := (true, true, [2], [3])) (by decide)
  simp only [Prod.mk.injEq] at hview
  obtain ⟨hdone₁, hdone₂, hrets₁, hrets₂⟩ := hview
  have hdone : cf.Complete := by
    refine Creation.complete_of_two hrun.of_guarded hstart.idle (fun t h₁ h₂ => ?_) hdone₁ hdone₂
    rw [htodo]
    exact if_neg (not_or.mpr ⟨h₁, h₂⟩)
  exact ⟨cf₀, cf, stuff₀, _, hstart, hrun, hdone, hrets₁, hrets₂,
    (creations_apart_iff hstart hrun.of_guarded hdone).mpr hrun⟩

/-- Two threads create a fiber each at the same time: both fibers get one id and one directory entry. -/
theorem create_same_id : ∃ cf₀ cf stuff₀ tr, cf₀.Start stuff₀ ∧ Run (· = cf₀) Creation.Next cf tr ∧
    cf.Complete ∧ cf.rets 1 = [2] ∧ cf.rets 2 = [2] ∧
    cf.proc.lastFibId = cf₀.proc.lastFibId + 1 ∧
    cf.stuff.map FiberStuff.lenFiberStuff = cf₀.stuff.map (fun stuff => stuff.lenFiberStuff + 1) ∧
    ¬ ∃ taken stuff entered, cf₀.OneEach cf stuff₀ taken stuff entered := by
  obtain ⟨cf₀, cf, stuff₀, hstart, htodo, hrun, hview⟩ := Creation.exists_concurrent 9
    [.fibOpen ⟨1, 1⟩, .fibConvert ⟨1, 1⟩ ⟨0, 5⟩]
    (fun t => if t = 1 ∨ t = 2 then [.fibCreate 16 0 4096 4096] else [])
    [1, 2, 1, 2, 1, 2, 1, 2, 1, 2, 1, 2, 1, 2, 1, 2]
    (fun _ _ => true) (fun _ _ => True) (fun _ _ _ _ _ _ _ _ _ => trivial)
    (fun cf₀ cf => (cf.rets 1, cf.rets 2, decide (cf.done 1 = true ∧ cf.done 2 = true ∧
      cf.proc.lastFibId = cf₀.proc.lastFibId + 1 ∧
      cf.stuff.map FiberStuff.lenFiberStuff = cf₀.stuff.map fun stuff => stuff.lenFiberStuff + 1)))
    (v := ([2], [2], true)) (by decide)
  simp only [Prod.mk.injEq, decide_eq_true_eq] at hview
  obtain ⟨hrets₁, hrets₂, hdone₁, hdone₂, hlast, hlen⟩ := hview
  have hrun := hrun.of_guarded
  have hdone : cf.Complete := by
    refine Creation.complete_of_two hrun hstart.idle (fun t h₁ h₂ => ?_) hdone₁ hdone₂
    rw [htodo]
    exact if_neg (not_or.mpr ⟨h₁, h₂⟩)
  refine ⟨cf₀, cf, stuff₀, _, hstart, hrun, hdone, hrets₁, hrets₂, hlast, hlen, ?_⟩
  intro ⟨taken, stuff, entered, heach⟩
  have hmem : ∀ t, cf.rets t = [2] → (t, 2) ∈ taken := by
    intro t ht
    rw [← mem_ofThread, ← heach.returned, ht]
    exact List.mem_singleton_self 2
  have heq := List.inj_on_of_nodup_map heach.distinct (hmem 1 hrets₁) (hmem 2 hrets₂) rfl
  cases heq

end LinuxFibers
