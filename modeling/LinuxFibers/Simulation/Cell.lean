import LinuxFibers.Simulation.Model

/-!
# Four views of the channels in use

The counter, the bitmap, the list and the calls that are pending name one set of channels, whatever event comes next.
`Sound` says so, each event keeps it, and `cell_consistent` draws the conclusion for every run.
-/

namespace LinuxFibers.Cell

open HeapTable Dlist Runs

/-- The channels below `channels_per_cell` whose bit is set. -/
def LpState.busy (p : LpState) : List Nat := Bitmap.bits p.channelsPerCell.toNat p.channelState

/-- The channels that the pending calls hold. -/
def endCalls {τ : Type} (pending : Multiset (Msg τ)) : Multiset Int :=
  (pending.filter fun m => m.type = endCall).map Msg.channel

/-- How many new calls are pending. -/
def startCalls {τ : Type} (pending : Multiset (Msg τ)) : Nat := pending.countP fun m => m.type = startCall

/-! ### `allocation` and `deallocation` -/

/-- What the two functions rely on: `l` is the list of channels, newest first. -/
structure Wired (p : LpState) (heap : Heap) (l : Table Int) : Prop where
  perCell : p.channelsPerCell = channelsPerCell
  words : p.channelState.length = 64
  listed : Listed heap p.channels l

section wired

variable {p : LpState} {heap : Heap} {l : Table Int} {head a v : Option Nat} {c : Nat} {ch : Int}

theorem Wired.addressed (h : Wired p heap l) {i : Int} (hlo : 0 ≤ i) (hhi : i < channelsPerCell) : p.Addressed i := by
  refine ⟨hlo, ?_⟩
  rw [h.words]
  unfold channelsPerCell at hhi
  omega

theorem Wired.mem_busy (h : Wired p heap l) {i : Nat} :
    i ∈ p.busy ↔ i < channelsPerCell ∧ Bitmap.test p.channelState i = true := by
  rw [LpState.busy, h.perCell, Int.toNat_natCast, Bitmap.mem_bits]

/-- The search ends at a free channel if there is one ahead. -/
theorem findFree_spec {n : Nat} {i : Int} (hlo : 0 ≤ i) (haddr : ∀ k, i ≤ k → k < i + n → p.Addressed k)
    (hfree : ∃ k, i ≤ k ∧ k < i + n ∧ Bitmap.test p.channelState k.toNat = false) :
    ∃ k, findFree p n i = .ok k ∧ i ≤ k ∧ k < i + n ∧ Bitmap.test p.channelState k.toNat = false := by
  induction n generalizing i with
  | zero =>
    obtain ⟨k, hik, hkn, -⟩ := hfree
    omega
  | succ n ih =>
    have hcheck : p.checkChannel i = .ok (Bitmap.test p.channelState i.toNat) :=
      if_pos (haddr i (le_refl i) (by omega))
    rw [findFree, hcheck]
    cases hbit : Bitmap.test p.channelState i.toNat with
    | false => exact ⟨i, rfl, le_refl i, by omega, hbit⟩
    | true =>
      obtain ⟨k, hik, hkn, hclear⟩ := hfree
      have hne : k ≠ i := by
        rintro rfl
        rw [hbit] at hclear
        cases hclear
      obtain ⟨j, hj, hij, hjn, hclear⟩ := ih (i := i + 1) (by omega)
        (fun k hk hkn => haddr k (by omega) (by omega)) ⟨k, by omega, by omega, hclear⟩
      exact ⟨j, hj, by omega, by omega, hclear⟩

theorem follow_listed {stop : Int → Bool} (h : Listed heap head l) :
    follow stop heap head = .ok ((l.find? fun b => stop b.val).map Block.addr) := h.walk

theorem fadingRecheck_listed (h : Listed heap p.channels l) : fadingRecheck p heap = .ok () := by
  rw [fadingRecheck, follow_listed h]
  rfl

theorem assignNext_ok (h : ∀ b, a = some b → b ∈ heap.addrs) : assignNext a v heap = .ok (setNext a v heap) := if_pos h

theorem assignPrev_ok (h : ∀ b, a = some b → b ∈ heap.addrs) : assignPrev a v heap = .ok (setPrev a v heap) := if_pos h

theorem load_ok {x : Channel} (h : heap.deref c = some x) : load heap c = .ok x := by
  rw [load, h]

/-- A call finds a free channel, which joins the list at its head. -/
theorem allocation_spec (h : Wired p heap l) (hfree : p.busy.length < channelsPerCell) (hc : c ∉ heap.addrs) :
    ∃ (i : Nat) (heap' : Heap), i < channelsPerCell ∧ Bitmap.test p.channelState i = false ∧
      allocation p c heap = .ok (i, { p with
        channelState := Bitmap.set p.channelState i
        channels := some c }, heap') ∧ Listed heap' (some c) (⟨c, i⟩ :: l) := by
  have hn : p.channelsPerCell.toNat = channelsPerCell := by
    rw [h.perCell, Int.toNat_natCast]
  rw [LpState.busy, hn] at hfree
  obtain ⟨k, hk, hclear⟩ := Bitmap.exists_clear hfree
  obtain ⟨j, hj, hlo, hhi, hclear⟩ := findFree_spec (p := p) (n := channelsPerCell) (le_refl 0)
    (fun k hk hkn => h.addressed hk (by omega)) ⟨k, by omega, by omega, hclear⟩
  obtain ⟨i, rfl⟩ : ∃ i : Nat, (i : Int) = j := ⟨j.toNat, by omega⟩
  rw [Int.toNat_natCast] at hclear
  have hpush := h.listed.push (x := (i : Int)) hc
  have hset : p.setChannel i = .ok { p with channelState := Bitmap.set p.channelState i } :=
    if_pos (h.addressed hlo (by omega))
  have hassign : assignNext p.channels (some c) (⟨c, ⟨(i : Int), none, p.channels⟩⟩ :: heap) = _ :=
    assignNext_ok fun b hb =>
      List.mem_cons_of_mem _ (h.listed.seg.mem_addrs (front_mem (h.listed.head.symm.trans hb)))
  have hload := load_ok hpush.seg.1
  have hrest : follow (fun _ => false) (setNext p.channels (some c) (⟨c, ⟨(i : Int), none, p.channels⟩⟩ :: heap))
      (front l none) = .ok none := by
    refine (hpush.seg.2.walk ?_).trans ?_
    · have hle := hpush.length_le
      rw [List.length_cons] at hle
      omega
    · simp
  have hfading := fadingRecheck_listed (p := { p with
    channelState := Bitmap.set p.channelState i
    channels := some c }) hpush
  refine ⟨i, _, by omega, hclear, ?_, hpush⟩
  rw [allocation, hn, hj]
  simp only [bind, Except.bind]
  rw [if_pos (by omega), hset]
  simp only [hassign, hload, hrest, hfading]

/-- The two branches of the surgery do one thing: at the head there is nothing on the one side. -/
theorem unlink_spec {u w : Table Int} {b : Block Int} (h : Listed heap p.channels (u ++ b :: w)) :
    unlink p b.addr heap = .ok ({ p with channels := front (u ++ w) none },
      setNext (front w none) (rear none u) (setPrev (rear none u) (front w none) heap)) := by
  have hnode := load_ok h.node
  have hfront : ∀ a, front w none = some a → a ∈ heap.addrs :=
    fun a ha => (seg_append.mp h.seg).2.2.mem_addrs (front_mem ha)
  have hrear : ∀ a, rear none u = some a → a ∈ heap.addrs := fun a ha =>
    (seg_append.mp h.seg).1.mem_addrs ((rear_mem ha).resolve_left (Option.some_ne_none a).symm)
  have hnd := h.nodup
  rw [Table.addrs, List.map_append] at hnd
  have hout : b.addr ∉ Table.addrs u := fun hu => (List.nodup_append'.mp hnd).2.2 hu List.mem_cons_self
  rw [unlink, hnode, h.head]
  simp only [bind, Except.bind]
  cases u with
  | nil =>
    have hhead : some b.addr = front ([] ++ b :: w) none := rfl
    rw [if_pos hhead, assignNext_ok hfront]
    rfl
  | cons d u =>
    have hne : ¬ some b.addr = front (d :: u ++ b :: w) none := by
      intro he
      exact hout (Option.some.inj he ▸ List.mem_cons_self)
    have hprev : rear none (d :: u) ≠ some b.addr :=
      fun he => hout ((rear_mem he).resolve_left (Option.some_ne_none b.addr).symm)
    have hagain : load (setPrev (rear none (d :: u)) (front w none) heap) b.addr = _ :=
      load_ok ((deref_setPrev_ne hprev).trans h.node)
    rw [if_neg hne, assignPrev_ok hrear]
    simp only [hagain]
    rw [assignNext_ok fun a ha => addrs_setPrev.symm ▸ hfront a ha]
    have hhead : front (d :: u ++ w) none = p.channels := h.head.symm
    rw [hhead]

/-- A call in progress gives its channel back, wherever the list has it. -/
theorem deallocation_spec (h : Wired p heap l) (hmem : ch ∈ l.map Block.val) (haddr : p.Addressed ch) :
    ∃ (l' : Table Int) (heap' : Heap), (l.map Block.val).Perm (ch :: l'.map Block.val) ∧
      deallocation p ch heap = .ok ({ p with
        channelState := Bitmap.reset p.channelState ch.toNat
        channels := front l' none }, heap') ∧ Listed heap' (front l' none) l' := by
  obtain ⟨b, hfind⟩ : ∃ b, (l.find? fun b => decide (b.val = ch)) = some b := by
    obtain ⟨b, hb, hch⟩ := List.mem_map.mp hmem
    exact Option.isSome_iff_exists.mp (List.find?_isSome.mpr ⟨b, hb, decide_eq_true hch⟩)
  have hsearch : follow (fun id => decide (id = ch)) heap p.channels = _ := follow_listed h.listed
  rw [hfind, Option.map_some] at hsearch
  obtain ⟨hch, u, w, rfl, -⟩ := List.find?_eq_some_iff_append.mp hfind
  obtain rfl := of_decide_eq_true hch
  have hout : b.addr ∉ Table.addrs (u ++ w) := by
    have hnd := h.listed.nodup
    rw [Table.addrs, (List.perm_middle.map Block.addr).nodup_iff] at hnd
    exact (List.nodup_cons.mp hnd).1
  have hremove := h.listed.unlink.remove hout
  have hreset : LpState.resetChannel { p with channels := front (u ++ w) none } b.val = .ok { p with
      channelState := Bitmap.reset p.channelState b.val.toNat
      channels := front (u ++ w) none } := if_pos haddr
  have hfading := fadingRecheck_listed (p := { p with
    channelState := Bitmap.reset p.channelState b.val.toNat
    channels := front (u ++ w) none }) hremove
  refine ⟨u ++ w, _, ?_, ?_, hremove⟩
  · rw [List.map_append, List.map_append]
    exact List.perm_middle
  · rw [deallocation, hsearch]
    simp only [bind, Except.bind, unlink_spec h.listed, hreset, hfading]

end wired

/-! ### The pending events -/

section pending

variable {τ : Type} {m : Msg τ} {rest : Multiset (Msg τ)}

theorem start_ne_end : startCall ≠ endCall := by decide

theorem startCalls_cons_start (h : m.type = startCall) : startCalls (m ::ₘ rest) = startCalls rest + 1 :=
  Multiset.countP_cons_of_pos (p := fun m : Msg τ => m.type = startCall) rest h

theorem startCalls_cons (h : m.type ≠ startCall) : startCalls (m ::ₘ rest) = startCalls rest :=
  Multiset.countP_cons_of_neg (p := fun m : Msg τ => m.type = startCall) rest h

theorem endCalls_cons_end (h : m.type = endCall) : endCalls (m ::ₘ rest) = m.channel ::ₘ endCalls rest := by
  rw [endCalls, Multiset.filter_cons_of_pos (p := fun m : Msg τ => m.type = endCall) _ h, Multiset.map_cons]
  rfl

theorem endCalls_cons (h : m.type ≠ endCall) : endCalls (m ::ₘ rest) = endCalls rest := by
  rw [endCalls, Multiset.filter_cons_of_neg (p := fun m : Msg τ => m.type = endCall) _ h]
  rfl

end pending

/-! ### The invariant -/

/-- One set of channels, four times, and the counts of calls that go with it. -/
structure Sound {τ : Type} (id : Nat) (p : LpState) (heap : Heap) (l : Table Int) (pending : Multiset (Msg τ)) : Prop
    extends Wired p heap l where
  counter : p.channelCounter.toNat + p.busy.length = channelsPerCell
  ids : (l.map Block.val).Perm (p.busy.map Nat.cast)
  ends : endCalls pending = (l.map Block.val : List Int)
  start : startCalls pending = 1
  calls : p.arrivingCalls = p.completeCalls + p.blockedOnSetup + BitVec.ofNat 32 p.busy.length
  known : ∀ m ∈ pending, m.receiver = id ∧ (m.type = startCall ∨ m.type = endCall)

section sound

variable {τ : Type} {id : Nat} {p : LpState} {heap : Heap} {l : Table Int} {rest : Multiset (Msg τ)} {msg : Msg τ}
  {d : Draws τ}

/-- The word of a channel that the list has is one of `channel_state`. -/
theorem Sound.addressed (h : Sound id p heap l rest) {i : Int} (hi : i ∈ l.map Block.val) : p.Addressed i := by
  obtain ⟨n, hn, rfl⟩ := List.mem_map.mp (h.ids.mem_iff.mp hi)
  have hlt := (h.mem_busy.mp hn).1
  exact h.toWired.addressed (by omega) (by omega)

theorem newState_busy (garbage : Fin 32 → BitVec 32) : (newState garbage).busy = [] := by
  refine List.filter_eq_nil_iff.mpr fun i hi => ?_
  have hlt : i < 1000 := List.mem_range.mp hi
  have hword : i / 32 < channelsPerCell / 32 + 1 := by
    unfold channelsPerCell
    omega
  have hzero : (newChannelState garbage)[i / 32]? = some 0 := by
    rw [newChannelState, List.getElem?_append_left (by rwa [List.length_replicate]), List.getElem?_replicate,
      if_pos hword]
  simp [Bitmap.test, newState, hzero, Bitmap.checkBit_eq]

/-- The branch of `INIT`. -/
theorem newState_sound (garbage : Fin 32 → BitVec 32) (heap : Heap) (stamp : τ) :
    Sound id (newState garbage) heap [] {packEvent id startCall stamp (-1)} where
  perCell := rfl
  words := by simp [newState, newChannelState, channelsPerCell]
  listed := ⟨rfl, trivial, List.nodup_nil⟩
  counter := by
    rw [newState_busy]
    rfl
  ids := by
    rw [newState_busy]
    exact List.Perm.refl _
  ends := by
    rw [← Multiset.cons_zero, endCalls_cons start_ne_end]
    rfl
  start := by
    rw [← Multiset.cons_zero, startCalls_cons_start rfl]
    rfl
  calls := by
    rw [newState_busy]
    rfl
  known m hm := by
    rw [Multiset.mem_singleton.mp hm]
    exact ⟨rfl, .inl rfl⟩

/-- The number of executed events plays no part. -/
theorem Sound.executed (h : Sound id p heap l rest) (n : BitVec 32) :
    Sound id { p with executedEvents := n } heap l rest :=
  ⟨⟨h.perCell, h.words, h.listed⟩, h.counter, h.ids, h.ends, h.start, h.calls, h.known⟩

/-- What is pending when a `START_CALL` is replaced by the next one. -/
theorem Sound.restart (h : Sound id p heap l (msg ::ₘ rest)) (htype : msg.type = startCall) (stamp : τ) :
    endCalls rest = (l.map Block.val : List Int) ∧ startCalls rest + 1 = 1 ∧
      ∀ m ∈ packEvent id startCall stamp (-1) ::ₘ rest, m.receiver = id ∧ (m.type = startCall ∨ m.type = endCall) := by
  have hends := h.ends
  rw [endCalls_cons (htype ▸ start_ne_end)] at hends
  have hstart := h.start
  rw [startCalls_cons_start htype] at hstart
  refine ⟨hends, hstart, fun m hm => ?_⟩
  rcases Multiset.mem_cons.mp hm with rfl | hm
  · exact ⟨rfl, .inl rfl⟩
  · exact h.known m (Multiset.mem_cons_of_mem hm)

/-- The branch of `START_CALL` without a free channel: the call is blocked. -/
theorem processStart_blocks (h : Sound id p heap l (msg ::ₘ rest)) (htype : msg.type = startCall)
    (hfull : p.channelCounter = 0) : ∃ r l', processStart d id p heap = .ok r ∧
      Sound id r.state r.heap l' (r.put.foldr Multiset.cons rest) := by
  obtain ⟨hends, hstart, hknown⟩ := h.restart htype d.stampStart
  refine ⟨_, l, if_pos hfull, ⟨h.perCell, h.words, h.listed⟩, h.counter, h.ids, ?_, ?_, ?_, hknown⟩
  · exact (endCalls_cons start_ne_end).trans hends
  · exact (startCalls_cons_start rfl).trans hstart
  · show p.arrivingCalls + 1 = p.completeCalls + (p.blockedOnSetup + 1) + BitVec.ofNat 32 p.busy.length
    rw [h.calls]
    ac_rfl

/-- The branch of `START_CALL` with a free channel: the call is given one and ends later. -/
theorem processStart_connects (h : Sound id p heap l (msg ::ₘ rest)) (htype : msg.type = startCall)
    (hfull : p.channelCounter ≠ 0) (hfresh : d.address ∉ heap.addrs) : ∃ r l', processStart d id p heap = .ok r ∧
      Sound id r.state r.heap l' (r.put.foldr Multiset.cons rest) := by
  obtain ⟨hends, hstart, hknown⟩ := h.restart htype d.stampStart
  have hcounter := h.counter
  have hpos : (p.channelCounter - 1).toNat + 1 = p.channelCounter.toNat := by bv_omega
  have hwired : Wired { p with
      arrivingCalls := p.arrivingCalls + 1
      channelCounter := p.channelCounter - 1 } heap l := ⟨h.perCell, h.words, h.listed⟩
  obtain ⟨i, heap', hi, hclear, hok, hlisted⟩ := allocation_spec hwired (by
    show p.busy.length < channelsPerCell
    omega) hfresh
  have hbusy : (Bitmap.bits p.channelsPerCell.toNat (Bitmap.set p.channelState i)).Perm (i :: p.busy) := by
    refine Bitmap.bits_set (by decide) ?_ ?_ hclear
    · rw [h.words]
      unfold channelsPerCell at hi
      omega
    · rw [h.perCell, Int.toNat_natCast]
      exact hi
  have hrun : processStart d id p heap = .ok
      { state := { p with
          arrivingCalls := p.arrivingCalls + 1
          channelCounter := p.channelCounter - 1
          channelState := Bitmap.set p.channelState i
          channels := some d.address }
        heap := heap'
        put := [packEvent id endCall d.stampEnd i, packEvent id startCall d.stampStart (-1)]
        ret := 0 } := by
    rw [processStart, if_neg hfull]
    simp only [hok]
    rfl
  refine ⟨_, _, hrun, ⟨h.perCell, ?_, hlisted⟩, ?_, ?_, ?_, ?_, ?_, ?_⟩
  · exact Bitmap.length_set.trans h.words
  · show (p.channelCounter - 1).toNat + (Bitmap.bits p.channelsPerCell.toNat (Bitmap.set p.channelState i)).length = _
    rw [hbusy.length_eq, List.length_cons]
    omega
  · exact (h.ids.cons _).trans (hbusy.map Nat.cast).symm
  · show endCalls (packEvent id endCall d.stampEnd i ::ₘ packEvent id startCall d.stampStart (-1) ::ₘ rest) = _
    rw [endCalls_cons_end rfl, endCalls_cons start_ne_end, hends]
    rfl
  · show startCalls (packEvent id endCall d.stampEnd i ::ₘ packEvent id startCall d.stampStart (-1) ::ₘ rest) = _
    rw [startCalls_cons start_ne_end.symm, startCalls_cons_start rfl, hstart]
  · show p.arrivingCalls + 1 = p.completeCalls + p.blockedOnSetup +
      BitVec.ofNat 32 (Bitmap.bits p.channelsPerCell.toNat (Bitmap.set p.channelState i)).length
    rw [hbusy.length_eq, List.length_cons, BitVec.ofNat_add, h.calls]
    ac_rfl
  · intro m hm
    rcases Multiset.mem_cons.mp hm with rfl | hm
    · exact ⟨rfl, .inr rfl⟩
    · exact hknown m hm

theorem processStart_sound (h : Sound id p heap l (msg ::ₘ rest)) (htype : msg.type = startCall)
    (hfresh : d.address ∉ heap.addrs) : ∃ r l', processStart d id p heap = .ok r ∧
      Sound id r.state r.heap l' (r.put.foldr Multiset.cons rest) := by
  by_cases hfull : p.channelCounter = 0
  · exact processStart_blocks h htype hfull
  · exact processStart_connects h htype hfull hfresh

/-- The branch of `END_CALL`. -/
theorem processEnd_sound (h : Sound id p heap l (msg ::ₘ rest)) (htype : msg.type = endCall) :
    ∃ r l', processEnd msg.channel p heap = .ok r ∧
      Sound (τ := τ) id r.state r.heap l' (r.put.foldr Multiset.cons rest) := by
  have hends := h.ends
  rw [endCalls_cons_end htype] at hends
  have hstart := h.start
  rw [startCalls_cons (htype ▸ start_ne_end.symm)] at hstart
  have hmem : msg.channel ∈ l.map Block.val := by
    rw [← Multiset.mem_coe, ← hends]
    exact Multiset.mem_cons_self _ _
  have hwired : Wired { p with
      channelCounter := p.channelCounter + 1
      completeCalls := p.completeCalls + 1 } heap l := ⟨h.perCell, h.words, h.listed⟩
  obtain ⟨l', heap', hperm, hok, hlisted⟩ := deallocation_spec hwired hmem (h.addressed hmem)
  obtain ⟨n, hn, hch⟩ := List.mem_map.mp (h.ids.mem_iff.mp hmem)
  have hbusy : p.busy.Perm (n :: Bitmap.bits p.channelsPerCell.toNat (Bitmap.reset p.channelState n)) :=
    Bitmap.bits_reset (by decide) hn
  have hreset : msg.channel.toNat = n := by
    rw [← hch, Int.toNat_natCast]
  rw [hreset] at hok
  have hcounter := h.counter
  have hlength := hbusy.length_eq
  rw [List.length_cons] at hlength
  have hroom : (p.channelCounter + 1).toNat = p.channelCounter.toNat + 1 := by
    unfold channelsPerCell at hcounter
    bv_omega
  have hrun : processEnd (τ := τ) msg.channel p heap = .ok
      { state := { p with
          channelCounter := p.channelCounter + 1
          completeCalls := p.completeCalls + 1
          channelState := Bitmap.reset p.channelState n
          channels := front l' none }
        heap := heap'
        put := []
        ret := if p.completeCalls + 1 = enoughCalls then 1 else 0 } := by
    rw [processEnd, hok]
    rfl
  refine ⟨_, l', hrun, ⟨h.perCell, ?_, hlisted⟩, ?_, ?_, ?_, hstart, ?_, ?_⟩
  · exact Bitmap.length_reset.trans h.words
  · show (p.channelCounter + 1).toNat + (Bitmap.bits p.channelsPerCell.toNat (Bitmap.reset p.channelState n)).length = _
    omega
  · have hall := (hperm.symm.trans h.ids).trans (hbusy.map Nat.cast)
    rw [List.map_cons, hch] at hall
    exact hall.cons_inv
  · have hcons : (msg.channel ::ₘ endCalls rest : Multiset Int) = msg.channel ::ₘ ↑(l'.map Block.val) := by
      rw [hends, Multiset.cons_coe]
      exact Multiset.coe_eq_coe.mpr hperm
    exact Multiset.cons_inj_right _ |>.mp hcons
  · show p.arrivingCalls = p.completeCalls + 1 + p.blockedOnSetup +
      BitVec.ofNat 32 (Bitmap.bits p.channelsPerCell.toNat (Bitmap.reset p.channelState n)).length
    rw [h.calls, hlength, BitVec.ofNat_add]
    ac_rfl
  · exact fun m hm => h.known m (Multiset.mem_cons_of_mem hm)

/-- Every event that is pending is processed, and keeps the invariant. -/
theorem processEvent_sound (h : Sound id p heap l (msg ::ₘ rest)) (hfresh : d.address ∉ heap.addrs) :
    ∃ r l', processEvent d msg (some p) heap = .ok r ∧ Sound id r.state r.heap l' (r.put.foldr Multiset.cons rest) := by
  obtain ⟨hreceiver, htype⟩ := h.known msg (Multiset.mem_cons_self _ _)
  have hexecuted := h.executed (p.executedEvents + 1)
  subst hreceiver
  rcases htype with htype | htype
  · obtain ⟨r, l', hok, hsound⟩ := processStart_sound hexecuted htype hfresh
    refine ⟨r, l', ?_, hsound⟩
    have hne : msg.type ≠ init := htype ▸ by decide
    rw [processEvent, if_neg hne]
    exact (if_pos htype).trans hok
  · obtain ⟨r, l', hok, hsound⟩ := processEnd_sound hexecuted htype
    refine ⟨r, l', ?_, hsound⟩
    have hne : msg.type ≠ init := htype ▸ by decide
    have hne' : msg.type ≠ startCall := htype ▸ by decide
    rw [processEvent, if_neg hne]
    exact (if_neg hne').trans ((if_pos htype).trans hok)

end sound

/-! ### Runs -/

/-- What an observer sees after an event: the four views agree. -/
structure Consistent {τ : Type} (p : LpState) (heap : Heap) (pending : Multiset (Msg τ)) : Prop where
  counter : (p.channelCounter.toNat + p.busy.length : Int) = p.channelsPerCell
  list : ∃ l, Listed heap p.channels l ∧ (l.map Block.val).Nodup ∧
    (∀ i, i ∈ l.map Block.val ↔ ∃ n ∈ p.busy, (n : Int) = i) ∧ endCalls pending = (l.map Block.val : List Int)
  start : startCalls pending = 1
  calls : p.arrivingCalls = p.completeCalls + p.blockedOnSetup + BitVec.ofNat 32 p.busy.length

section run

variable {τ : Type} {id : Nat} {s : Loop τ} {tr : List (Msg τ)}

theorem Sound.consistent {p : LpState} {heap : Heap} {l : Table Int} {pending : Multiset (Msg τ)}
    (h : Sound id p heap l pending) : Consistent p heap pending where
  counter := by
    rw [h.perCell]
    exact_mod_cast h.counter
  list := by
    have hnodup : (p.busy.map (Nat.cast : Nat → Int)).Nodup := Bitmap.nodup_bits.map Nat.cast_injective
    refine ⟨l, h.listed, h.ids.nodup_iff.mpr hnodup, fun i => ?_, h.ends⟩
    rw [h.ids.mem_iff, List.mem_map]
  start := h.start
  calls := h.calls

/-- Before the first event only `INIT` is pending, and after it the views agree. -/
def Inv (id : Nat) (s : Loop τ) (tr : List (Msg τ)) : Prop :=
  (tr = [] ∧ Init id s) ∨ ∃ p l, s.state = some p ∧ Sound id p s.heap l s.pending

theorem processEvent_init {d : Draws τ} {msg : Msg τ} {heap : Heap} (htype : msg.type = init) :
    processEvent d msg none heap = .ok
      { state := newState d.garbage
        heap := heap
        put := [packEvent msg.receiver startCall d.stampStart (-1)]
        ret := 0 } := if_pos htype

theorem run_inv (hrun : Run (Init id) Step s tr) : Inv id s tr := by
  refine Run.invariant (P := fun s tr => Inv id s tr) (fun s hs => .inl ⟨rfl, hs⟩) ?_ hrun
  rintro ⟨state, heap, pending⟩ tr msg s' - hinv ⟨rest, d, r, hpending, hfresh, hok, rfl⟩
  rcases hinv with ⟨-, rfl, stamp, ch, hinit⟩ | ⟨p, l, rfl, hsound⟩
  · simp only at hpending hinit hok
    rw [hinit] at hpending
    obtain ⟨rfl, rfl⟩ := (Multiset.singleton_eq_cons_iff rest).mp hpending
    rw [processEvent_init rfl] at hok
    cases hok
    exact .inr ⟨_, [], rfl, newState_sound d.garbage heap d.stampStart⟩
  · simp only at hpending hsound hfresh hok
    subst hpending
    obtain ⟨r', l', hok', hsound'⟩ := processEvent_sound hsound hfresh
    obtain rfl := Except.ok.inj (hok.symm.trans hok')
    exact .inr ⟨_, l', rfl, hsound'⟩

/-- **The four views agree.** However the events of a run are ordered and whatever is drawn, after each of them the
counter, the bitmap, the list and the pending calls name the same channels and one new call is pending. So the queue is
never empty, and whichever event comes next is one of this cell and is processed: `ProcessEvent` does not abort, loop or
follow a wild pointer. -/
theorem cell_consistent (hrun : Run (Init id) Step s tr) :
    (tr ≠ [] → ∃ p, s.state = some p ∧ Consistent p s.heap s.pending) ∧ s.pending ≠ 0 ∧
      ∀ msg ∈ s.pending, msg.receiver = id ∧
        ∀ d : Draws τ, d.address ∉ s.heap.addrs → ∃ r, processEvent d msg s.state s.heap = .ok r := by
  rcases run_inv hrun with ⟨hstart, hnone, stamp, ch, hinit⟩ | ⟨p, l, hstate, hsound⟩
  · refine ⟨fun hne => absurd hstart hne, ?_, ?_⟩
    · rw [hinit]
      exact Multiset.singleton_ne_zero _
    · intro msg hmsg
      rw [hinit] at hmsg
      obtain rfl := Multiset.mem_singleton.mp hmsg
      rw [hnone]
      exact ⟨rfl, fun d _ => ⟨_, processEvent_init rfl⟩⟩
  · refine ⟨fun _ => ⟨p, hstate, hsound.consistent⟩, ?_, ?_⟩
    · intro hempty
      have hstart := hsound.start
      rw [hempty] at hstart
      cases hstart
    · intro msg hmsg
      obtain ⟨rest, hpending⟩ := Multiset.exists_cons_of_mem hmsg
      rw [hpending] at hsound
      refine ⟨(hsound.known msg (Multiset.mem_cons_self _ _)).1, fun d hfresh => ?_⟩
      obtain ⟨r, -, hok, -⟩ := processEvent_sound hsound hfresh
      rw [hstate]
      exact ⟨r, hok⟩

end run

/-- The first call of cell 1. -/
theorem cell_consistent_called : ∃ (s : Loop Nat) (p : LpState),
    Run (Init 1) Step s [packEvent 1 startCall 5 (-1), packEvent 1 init 0 0] ∧ s.state = some p ∧
      Consistent p s.heap s.pending ∧ s.pending ≠ 0 := by
  have hstart : Run (Init 1) (Step (τ := Nat)) ⟨none, [], {packEvent 1 init 0 0}⟩ [] := .start ⟨rfl, 0, 0, rfl⟩
  have hinit : Run (Init 1) Step ⟨some (newState fun _ => 0), [], {packEvent 1 startCall 5 (-1)}⟩ _ :=
    hstart.step ⟨0, ⟨9, 5, 1, fun _ => 0⟩, _, rfl, List.not_mem_nil, processEvent_init rfl, rfl⟩
  have hsound : Sound 1 (newState fun _ => 0) [] [] {packEvent 1 startCall 5 (-1)} := newState_sound _ [] 5
  obtain ⟨r, -, hok, -⟩ := processEvent_sound (d := ⟨9, 7, 1, fun _ => 0⟩) hsound List.not_mem_nil
  have hcall := hinit.step ⟨0, _, r, rfl, List.not_mem_nil, hok, rfl⟩
  obtain ⟨hviews, hpending, -⟩ := cell_consistent hcall
  obtain ⟨p, hp, hconsistent⟩ := hviews (List.cons_ne_nil _ _)
  exact ⟨_, p, hcall, hp, hconsistent, hpending⟩

end LinuxFibers.Cell
