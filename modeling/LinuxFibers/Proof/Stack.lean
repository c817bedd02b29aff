import LinuxFibers.Driver.Library
import LinuxFibers.Proof.Commands

/-!
# The stack of a created fiber

The library rounds the size it zeroes, sends the size it was given and allocates a third. `stack_fits_iff` says
for which sizes the three go together with the stack pointer that `do_fib_create` computes.
-/

namespace LinuxFibers

open HeapTable

/-- The bytes zeroed lie inside the block, and the stack pointer lies there with eight bytes above it, where the
calling convention wants it at the entry of a function. -/
structure StackFits (block zeroed sp : BitVec 64) : Prop where
  zeroed : zeroed.toNat ≤ Library.stackSize
  low : block.toNat ≤ sp.toNat
  high : sp.toNat + 8 ≤ block.toNat + Library.stackSize
  aligned : sp.toNat % 16 = 8

section arithmetic

variable {block size : BitVec 64}

theorem stackPointer_fits_iff (size : BitVec 64) (haligned : block.toNat % 16 = 0)
    (hblock : block.toNat + Library.stackSize ≤ 2 ^ 64) :
    (block.toNat ≤ (block + size - 8).toNat ∧ (block + size - 8).toNat + 8 ≤ block.toNat + Library.stackSize ∧
      (block + size - 8).toNat % 16 = 8) ↔ 0 < size.toNat ∧ 16 ∣ size.toNat ∧ size.toNat ≤ Library.stackSize := by
  have hsize := size.isLt
  have hsp : (block + size - 8).toNat = (2 ^ 64 - 8 + (block.toNat + size.toNat) % 2 ^ 64) % 2 ^ 64 := by
    rw [BitVec.toNat_sub, BitVec.toNat_add]
    rfl
  rw [hsp]
  simp only [Library.stackSize] at *
  omega

/-- A size that fits is rounded to one that fits. -/
theorem rounded_le (h : size.toNat ≤ Library.stackSize) :
    (if size % Library.pageSize ≠ 0 then size + (Library.pageSize - size % Library.pageSize) else size).toNat ≤
      Library.stackSize := by
  have hbound : size.toNat ≤ 8192 := h
  have hpage : Library.pageSize.toNat = 4096 := rfl
  have hmod : (size % Library.pageSize).toNat = size.toNat % 4096 := BitVec.toNat_umod
  have hrest : (Library.pageSize - size % Library.pageSize).toNat = 4096 - size.toNat % 4096 := by
    rw [BitVec.toNat_sub, hmod, hpage]
    omega
  show _ ≤ 8192
  split_ifs with hremainder
  · rw [BitVec.toNat_add, hrest]
    have hne : size.toNat % 4096 ≠ 0 := fun he => hremainder (BitVec.eq_of_toNat_eq (hmod.trans he))
    omega
  · exact hbound

end arithmetic

/-- The call reaches `ioctl` with a positive size. -/
theorem Library.fibCreate_some {func parameters size block : BitVec 64} {call : Library.CreateCall}
    (hcall : Library.fibCreate func parameters size (some block) = some call) :
    0 < size.toNat ∧ call.param.stackPointer = block ∧ call.param.stackSize = size ∧
      call.zeroed =
        if size % Library.pageSize ≠ 0 then size + (Library.pageSize - size % Library.pageSize) else size := by
  unfold Library.fibCreate at hcall
  split_ifs at hcall with hzero
  cases hcall
  refine ⟨?_, rfl, rfl, rfl⟩
  rw [Nat.pos_iff_ne_zero]
  exact fun h => hzero (BitVec.eq_of_toNat_eq h)

/-- What `FIB_CREATE` adds to every entry of the caller's process. -/
theorem fibIoctl_create_new {c : Task} {arg : UserArg} {fa out : FiberArguments} {now : Timespec} {s s' : State}
    (hok : fibIoctl c cmdCreate arg fa now s = .ok (s', 0, out)) {d' : Block Process} (hd' : d' ∈ s'.processi)
    (hid : d'.val.id = c.tgid) :
    ∃ d ∈ s.processi, d.addr = d'.addr ∧ ∃ b : Block Fiber, d'.val.listafiber = b :: d.val.listafiber ∧
      b.val.regs.val.sp = arg.value.stackPointer + arg.value.stackSize - 8 := by
  rw [fibIoctl_create] at hok
  rcases copyIn_cases hok with ⟨-, hret, -⟩ | ⟨-, -, hrest⟩
  · cases hret
  obtain ⟨⟨s₁, r⟩, hrun, hrest⟩ := bind_eq_ok.mp hrest
  cases r with
  | none => cases hrest
  | some b =>
    obtain ⟨rfl, -⟩ := copyOut_cases hrest
    obtain ⟨⟨T, x⟩, hwalk, hrun⟩ := bind_eq_ok.mp hrun
    obtain ⟨rfl, -⟩ := Prod.mk.inj (Except.ok.inj hrun)
    rw [forEachProcess_eq] at hwalk
    obtain ⟨d, hd, haddr, ⟨hno, rfl⟩ | ⟨-, y, y', hbody⟩⟩ := Table.forEach_mem hwalk hd'
    · exact absurd hid hno
    · obtain ⟨U, b', -, -, rfl, hp, -⟩ := createProcess_ok hbody
      refine ⟨d, hd, haddr, _, by rw [hp]; rfl, ?_⟩
      simp only [newFiber, startRegs, if_true]

/-- **The stack of a created fiber.** Whenever the library's `fib_create` is given a block and its `ioctl` returns 0,
the bytes it zeroes and the stack pointer of the new fiber fit the block exactly when the size is a multiple of 16
and no larger than the block. -/
theorem stack_fits_iff {func parameters size block : BitVec 64} {call : Library.CreateCall}
    (hcall : Library.fibCreate func parameters size (some block) = some call) (haligned : block.toNat % 16 = 0)
    (hblock : block.toNat + Library.stackSize ≤ 2 ^ 64) {c : Task} {arg : UserArg} (harg : arg.value = call.param)
    {fa out : FiberArguments} {now : Timespec} {s s' : State}
    (hok : fibIoctl c cmdCreate arg fa now s = .ok (s', 0, out)) {d' : Block Process} (hd' : d' ∈ s'.processi)
    (hid : d'.val.id = c.tgid) :
    ∃ d ∈ s.processi, d.addr = d'.addr ∧ ∃ b : Block Fiber, d'.val.listafiber = b :: d.val.listafiber ∧
      (StackFits block call.zeroed b.val.regs.val.sp ↔ 16 ∣ size.toNat ∧ size.toNat ≤ Library.stackSize) := by
  obtain ⟨hpos, hpointer, hsize, hzeroed⟩ := Library.fibCreate_some hcall
  obtain ⟨d, hd, haddr, b, hb, hsp⟩ := fibIoctl_create_new hok hd' hid
  rw [harg, hpointer, hsize] at hsp
  have hiff := stackPointer_fits_iff size haligned hblock
  refine ⟨d, hd, haddr, b, hb, ?_⟩
  rw [hsp]
  constructor
  · rintro ⟨-, hlow, hhigh, hmod⟩
    exact (hiff.mp ⟨hlow, hhigh, hmod⟩).2
  · rintro ⟨hdvd, hle⟩
    obtain ⟨hlow, hhigh, hmod⟩ := hiff.mpr ⟨hpos, hdvd, hle⟩
    exact ⟨hzeroed ▸ rounded_le hle, hlow, hhigh, hmod⟩

/-- The structure of a library call, in memory that can be read and written. -/
def callArg (call : Library.CreateCall) : UserArg :=
  { value := call.param, accessOk := true, copyFrom := true, copyToFails := none }

/-- The state after process 1 has opened the device. -/
def openedOnce : State := fibOpen nFib ⟨1, 1⟩ empty

/-- The stack pointers of the fibers of every entry. -/
def stackPointers (s : State) : List (Int × List Nat) :=
  s.processi.map fun d => (d.val.id, d.val.listafiber.map fun f => f.val.regs.val.sp.toNat)

/-- A call with a block at `0x10000` from process 1, which is evaluated. -/
theorem exists_create (size : BitVec 64) {v : Nat × Int × List (Int × List Nat)}
    (h : ((Library.fibCreate 16 0 size (some 0x10000)).bind fun call =>
      (fibIoctl ⟨1, 1⟩ cmdCreate (callArg call) zeroArg.value ⟨0, 9⟩ openedOnce).toOption.map fun r =>
        (call.zeroed.toNat, r.2.1, stackPointers r.1)) = some v) :
    ∃ call s' out, Library.fibCreate 16 0 size (some 0x10000) = some call ∧
      fibIoctl ⟨1, 1⟩ cmdCreate (callArg call) zeroArg.value ⟨0, 9⟩ openedOnce = .ok (s', v.2.1, out) ∧
      call.zeroed.toNat = v.1 ∧ stackPointers s' = v.2.2 := by
  obtain ⟨call, hcall, hrun⟩ := Option.bind_eq_some_iff.mp h
  obtain ⟨⟨s', ret, out⟩, hok, rfl⟩ := Option.map_eq_some_iff.mp hrun
  refine ⟨call, s', out, hcall, ?_, rfl, rfl⟩
  cases hr : fibIoctl ⟨1, 1⟩ cmdCreate (callArg call) zeroArg.value ⟨0, 9⟩ openedOnce with
  | error e =>
    rw [hr] at hok
    cases hok
  | ok r =>
    rw [hr] at hok
    exact congrArg Except.ok (Option.some.inj hok)

/-- A stack of one page. -/
theorem stack_fits_page : ∃ call s' out, Library.fibCreate 16 0 4096 (some 0x10000) = some call ∧
    fibIoctl ⟨1, 1⟩ cmdCreate (callArg call) zeroArg.value ⟨0, 9⟩ openedOnce = .ok (s', 0, out) ∧
    stackPointers s' = [(1, [0x10ff8])] ∧
    ∀ d' ∈ s'.processi, d'.val.id = 1 → ∃ d ∈ openedOnce.processi, d.addr = d'.addr ∧
      ∃ b : Block Fiber, d'.val.listafiber = b :: d.val.listafiber ∧
        (StackFits 0x10000 call.zeroed b.val.regs.val.sp ↔
          16 ∣ (4096 : BitVec 64).toNat ∧ (4096 : BitVec 64).toNat ≤ Library.stackSize) := by
  obtain ⟨call, s', out, hcall, hok, -, hpointers⟩ := exists_create 4096 (v := (4096, 0, [(1, [0x10ff8])]))
    (by decide +kernel)
  refine ⟨call, s', out, hcall, hok, hpointers, fun d' hd' hid => ?_⟩
  exact stack_fits_iff hcall (by decide) (by decide) rfl hok hd' hid

/-- With a size of 16384 the library zeroes twice the block, and the stack pointer lies above it; with a size of 100
the stack pointer is not aligned. -/
theorem stack_outside : (∃ call s' out, Library.fibCreate 16 0 16384 (some 0x10000) = some call ∧
      fibIoctl ⟨1, 1⟩ cmdCreate (callArg call) zeroArg.value ⟨0, 9⟩ openedOnce = .ok (s', 0, out) ∧
      call.zeroed.toNat = 2 * Library.stackSize ∧ stackPointers s' = [(1, [0x10000 + 16376])]) ∧
    ∃ call s' out, Library.fibCreate 16 0 100 (some 0x10000) = some call ∧
      fibIoctl ⟨1, 1⟩ cmdCreate (callArg call) zeroArg.value ⟨0, 9⟩ openedOnce = .ok (s', 0, out) ∧
      stackPointers s' = [(1, [0x10000 + 92])] := by
  constructor
  · obtain ⟨call, s', out, hcall, hok, hzeroed, hpointers⟩ := exists_create 16384
      (v := (16384, 0, [(1, [0x10000 + 16376])])) (by decide +kernel)
    exact ⟨call, s', out, hcall, hok, hzeroed, hpointers⟩
  · obtain ⟨call, s', out, hcall, hok, -, hpointers⟩ := exists_create 100
      (v := (4096, 0, [(1, [0x10000 + 92])])) (by decide +kernel)
    exact ⟨call, s', out, hcall, hok, hpointers⟩

end LinuxFibers
