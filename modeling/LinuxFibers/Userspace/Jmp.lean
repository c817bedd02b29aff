import LinuxFibers.Base.X86

/-!
# The context switch in user space

`_set_jmp` and `_long_jmp` as the machine runs them. The first stores every general purpose register, the status flags,
the x87 and SSE state and the place to continue at; the second, run later by any thread on any stack, gives all of them
back (`longJmp_setJmp`).
-/

namespace LinuxFibers

namespace Userspace

open X86
open Function (update update_self update_of_ne)

/-- `_set_jmp`. -/
def setJmp : List Instr :=
  [ .pushq .rax,
    .pushq .r11,
    .lahf,
    .seto,
    .pushq .rax,
    .movq (.r .rdi) (.r .rax),
    .movq (.at 16 .rsp) (.r .r11),
    .movq (.r .r11) (.at 0 .rax),
    .movq (.r .rdx) (.at 8 .rax),
    .movq (.r .rcx) (.at 16 .rax),
    .movq (.r .rbx) (.at 24 .rax),
    .movq (.r .rsp) (.at 32 .rax),
    .addq (.imm 16) (.at 32 .rax),
    .movq (.r .rbp) (.at 40 .rax),
    .movq (.r .rsi) (.at 48 .rax),
    .movq (.at 32 .rsp) (.r .r11),
    .movq (.r .r11) (.at 56 .rax),
    .movq (.r .r8) (.at 64 .rax),
    .movq (.r .r9) (.at 72 .rax),
    .movq (.r .r10) (.at 80 .rax),
    .movq (.at 8 .rsp) (.r .r11),
    .movq (.r .r11) (.at 88 .rax),
    .movq (.r .r12) (.at 96 .rax),
    .movq (.r .r13) (.at 104 .rax),
    .movq (.r .r14) (.at 112 .rax),
    .movq (.r .r15) (.at 120 .rax),
    .movq (.at 0 .rsp) (.r .rdx),
    .movq (.r .rdx) (.at 136 .rax),
    .movq (.at 24 .rsp) (.r .r11),
    .movq (.r .r11) (.at 128 .rax),
    .fxsave 144 .rax,
    .addq (.imm 24) (.r .rsp),
    .xorq (.r .rax) (.r .rax),
    .ret ]

/-- `_long_jmp`. -/
def longJmp : List Instr :=
  [ .movq (.r .rdi) (.r .rax),
    .movq (.at 128 .rax) (.r .r10),
    .movq (.at 32 .rax) (.r .r11),
    .movq (.r .r10) (.at 8 .r11),
    .movq (.r .rsi) (.at 0 .r11),
    .movq (.at 8 .rax) (.r .rdx),
    .movq (.at 16 .rax) (.r .rcx),
    .movq (.at 24 .rax) (.r .rbx),
    .movq (.at 32 .rax) (.r .rsp),
    .movq (.at 40 .rax) (.r .rbp),
    .movq (.at 48 .rax) (.r .rsi),
    .movq (.at 64 .rax) (.r .r8),
    .movq (.at 72 .rax) (.r .r9),
    .movq (.at 80 .rax) (.r .r10),
    .movq (.at 88 .rax) (.r .r11),
    .movq (.at 96 .rax) (.r .r12),
    .movq (.at 104 .rax) (.r .r13),
    .movq (.at 112 .rax) (.r .r14),
    .movq (.at 136 .rax) (.r .rax),
    .addb 0x7f,
    .sahf,
    .movq (.r .rdi) (.r .rax),
    .movq (.at 56 .rax) (.r .rdi),
    .movq (.at 120 .rax) (.r .r15),
    .fxrstor 144 .rax,
    .movq (.at 32 .rax) (.r .rsp),
    .popq .rax,
    .ret ]

/-- `exec_context_t`, with `others` in quadwords. -/
structure ExecContext where
  rax : Word
  rdx : Word
  rcx : Word
  rbx : Word
  rsp : Word
  rbp : Word
  rsi : Word
  rdi : Word
  r8 : Word
  r9 : Word
  r10 : Word
  r11 : Word
  r12 : Word
  r13 : Word
  r14 : Word
  r15 : Word
  rip : Word
  flags : Word
  others : Fin 64 → Word

/-- The context that memory holds at an address. -/
def ExecContext.at (m : Memory) (a : Word) : ExecContext where
  rax := m.read (a + 0)
  rdx := m.read (a + 8)
  rcx := m.read (a + 16)
  rbx := m.read (a + 24)
  rsp := m.read (a + 32)
  rbp := m.read (a + 40)
  rsi := m.read (a + 48)
  rdi := m.read (a + 56)
  r8 := m.read (a + 64)
  r9 := m.read (a + 72)
  r10 := m.read (a + 80)
  r11 := m.read (a + 88)
  r12 := m.read (a + 96)
  r13 := m.read (a + 104)
  r14 := m.read (a + 112)
  r15 := m.read (a + 120)
  rip := m.read (a + 128)
  flags := m.read (a + 136)
  others := fun k => m.read (a + 144 + BitVec.ofNat 64 (8 * k))

/-- The macro `set_jmp` up to the return of `_set_jmp`, which comes back to `ra`. -/
def setJmpMacro (env ra : Word) : List Instr :=
  [.pushq .rdi, .movq (.imm env) (.r .rdi), .call ra] ++ setJmp

/-- The registers of a context. -/
def ExecContext.reg (c : ExecContext) : Reg → Word
  | .rax => c.rax
  | .rdx => c.rdx
  | .rcx => c.rcx
  | .rbx => c.rbx
  | .rsp => c.rsp
  | .rbp => c.rbp
  | .rsi => c.rsi
  | .rdi => c.rdi
  | .r8 => c.r8
  | .r9 => c.r9
  | .r10 => c.r10
  | .r11 => c.r11
  | .r12 => c.r12
  | .r13 => c.r13
  | .r14 => c.r14
  | .r15 => c.r15

/-- The flags that `_long_jmp` makes of the saved word: `addb $0x7f` sets OF, `sahf` the others. -/
def ExecContext.status (c : ExecContext) : Flags := (Flags.add (low c.flags) 0x7f).load (high c.flags)

/-- What `set_jmp` saves of a state: the stack pointer lies three quadwords below the caller's, where `_long_jmp` puts
the value to return. -/
def ExecContext.capture (s : Processor) (ra : Word) : ExecContext where
  rax := s.reg .rax
  rdx := s.reg .rdx
  rcx := s.reg .rcx
  rbx := s.reg .rbx
  rsp := s.reg .rsp - 24
  rbp := s.reg .rbp
  rsi := s.reg .rsi
  rdi := s.reg .rdi
  r8 := s.reg .r8
  r9 := s.reg .r9
  r10 := s.reg .r10
  r11 := s.reg .r11
  r12 := s.reg .r12
  r13 := s.reg .r13
  r14 := s.reg .r14
  r15 := s.reg .r15
  rip := ra
  flags := setLow (setHigh (s.reg .rax) s.flags.status) (BitVec.ofBool s.flags.of |>.setWidth 8)
  others := s.fx

theorem ExecContext.status_capture (s : Processor) (ra : Word) : (capture s ra).status = s.flags := by
  unfold status capture
  rw [high_setLow, high_setHigh, low_setLow]
  exact Flags.load_status _ _ (Flags.add_seto _)

/-- A call of `set_jmp` that has returned: 0, the caller's registers but for the ones a call may change, the context
in memory, and no byte changed besides the context and five quadwords below the caller's stack pointer. -/
structure SetJmpDone (s s' : Processor) (env ra : Word) : Prop where
  rip : s'.rip = ra
  rax : s'.reg .rax = 0
  rsp : s'.reg .rsp = s.reg .rsp - 8
  kept : ∀ r, r ∉ [Reg.rax, .rdx, .rsp, .rdi, .r11] → s'.reg r = s.reg r
  fx : s'.fx = s.fx
  saved : ExecContext.at s'.mem env = .capture s ra
  frame : ∀ x, 656 ≤ (x - env).toNat → 40 ≤ (x - (s.reg .rsp - 40)).toNat → s'.mem x = s.mem x

/-- **`set_jmp` saves the state it is called in.** -/
theorem setJmp_spec (u : Bool) (s : Processor) (env ra : Word) (halign : env.toNat % 16 = 0)
    (hstack : Apart env 656 (s.reg .rsp - 40) 40) :
    ∃ s', run u (setJmpMacro env ra) s = some s' ∧ SetJmpDone s s' env ra := by
  obtain ⟨b, hb⟩ : ∃ b, b = s.reg .rsp - 40 := ⟨_, rfl⟩
  have hsp : s.reg .rsp = b + 40 := by rw [hb, sub_add_cancel]
  rw [← hb] at hstack
  have hf : (env + 144).toNat % 16 = 0 := by bv_omega
  refine ⟨?_, ?_, ?_⟩
  rotate_left
  · simp -implicitDefEqProofs (disch := decide) only [setJmpMacro, setJmp, List.cons_append, List.nil_append, run_cons,
      run_nil, exec, Processor.push, Processor.get, Processor.put, Processor.setReg, Option.bind_some, update_self,
      update_of_ne, hsp, hf, if_true, add_assoc, add_sub_assoc, BitVec.reduceAdd, BitVec.reduceSub, Memory.read_write_self,
      Memory.read_write_offsets, Memory.read_write_part hstack]
    rfl
  constructor
  · simp (disch := decide) only [Memory.read_fill_part hstack, Memory.read_write_part hstack, Memory.read_write_self,
      Memory.read_write_offsets]
  · simp (disch := decide) only [update_self, update_of_ne, BitVec.xor_self]
    rfl
  · simp only [update_self, add_sub_assoc, hsp, BitVec.reduceSub]
  · intro r hr
    simp only [List.mem_cons, List.not_mem_nil, or_false, not_or] at hr
    obtain ⟨h1, h2, h3, h4, h5⟩ := hr
    simp only [update_of_ne h1, update_of_ne h2, update_of_ne h3, update_of_ne h4, update_of_ne h5]
  · rfl
  · simp (disch := decide) only [ExecContext.at, ExecContext.capture, ExecContext.mk.injEq, Memory.read_fill_offsets,
      Memory.read_write_offsets, Memory.read_write_self, hsp, add_sub_assoc, BitVec.reduceSub, true_and]
    funext k
    rw [Memory.read_fill (by decide) k.isLt, dif_pos k.isLt]
  · intro x hx hx'
    rw [← hb] at hx'
    simp (disch := decide) only [Memory.fill_outside_part hx, Memory.write_outside hx, Memory.write_outside hx']

/-- **`_long_jmp` loads a context**: every register, the flags and the x87 and SSE state come from it, `rax` is the value
passed, and the two quadwords from the saved stack pointer on are the only bytes written. -/
theorem longJmp_spec (u : Bool) (t : Processor) (c : ExecContext) (hc : ExecContext.at t.mem (t.reg .rdi) = c)
    (halign : (t.reg .rdi).toNat % 16 = 0) (hstack : Apart (t.reg .rdi) 656 c.rsp 16) :
    run u longJmp t = some
      { reg := update (update c.reg .rax (t.reg .rsi)) .rsp (c.rsp + 16), flags := c.status, fx := c.others,
        mem := (t.mem.write (c.rsp + 8) c.rip).write (c.rsp + 0) (t.reg .rsi), rip := c.rip } := by
  obtain ⟨env, henv⟩ : ∃ env, t.reg .rdi = env := ⟨_, rfl⟩
  rw [henv] at hc halign hstack
  have hf : (env + 144).toNat % 16 = 0 := by bv_omega
  obtain ⟨sp, hsp⟩ : ∃ sp, t.mem.read (env + 32) = sp := ⟨_, rfl⟩
  have hcsp : c.rsp = sp := by rw [← hc]; exact hsp
  rw [hcsp] at hstack ⊢
  simp -implicitDefEqProofs (disch := decide) only [longJmp, run_cons, run_nil, exec, Processor.get, Processor.put,
    Processor.setReg, Option.bind_some, update_self, update_of_ne, henv, hf, if_true, hsp, add_assoc, BitVec.reduceAdd,
    Memory.read_write_self, Memory.read_write_offsets, Memory.read_write_part hstack.symm, high_setLow]
  subst hc
  refine congrArg some (Processor.mk.injEq .. ▸ ⟨?_, rfl, ?_, rfl, rfl⟩)
  · funext r
    cases r <;> simp (disch := decide) only [update_self, update_of_ne, ExecContext.reg, ExecContext.at]
    · rw [add_zero, Memory.read_write_self]
    · rfl
  · funext k
    have hk : (144 + BitVec.ofNat 64 (8 * k) : Word).toNat + 8 ≤ 656 := by
      have := k.isLt
      bv_omega
    rw [Memory.read_write_part hstack.symm (by decide) hk, Memory.read_write_part hstack.symm (by decide) hk, ← add_assoc]
    rfl

/-- **A context saved by `set_jmp` and later loaded by `_long_jmp` continues where it was saved**: whoever loads it, on
whatever stack and after whatever else has run, as long as the context has not been touched, gets back every register,
the flags and the x87 and SSE state of the moment of the save; `rax` carries the value passed, and the caller's stack is
as `set_jmp` had found it, the two quadwords below its top aside. -/
theorem longJmp_setJmp (u v : Bool) (s : Processor) (env ra : Word) (halign : env.toNat % 16 = 0)
    (hstack : Apart env 656 (s.reg .rsp - 40) 40) :
    ∃ s', run u (setJmpMacro env ra) s = some s' ∧ SetJmpDone s s' env ra ∧
      ∀ t : Processor, t.reg .rdi = env → ExecContext.at t.mem env = ExecContext.at s'.mem env →
        ∃ t', run v longJmp t = some t' ∧ t'.rip = ra ∧
          t'.reg = update (update s.reg .rax (t.reg .rsi)) .rsp (s.reg .rsp - 8) ∧ t'.flags = s.flags ∧ t'.fx = s.fx ∧
          ∀ x, 16 ≤ (x - (s.reg .rsp - 24)).toNat → t'.mem x = t.mem x := by
  obtain ⟨s', hs', hdone⟩ := setJmp_spec u s env ra halign hstack
  refine ⟨s', hs', hdone, ?_⟩
  intro t hrdi hctx
  rw [hdone.saved] at hctx
  have hpart : Apart env 656 (s.reg .rsp - 24) 16 := by
    have h := hstack.part (x := 0) (y := 16) (i := 656) (j := 16) (by decide) (by decide) (by decide) (by decide)
    rwa [add_zero, show s.reg .rsp - 40 + 16 = s.reg .rsp - 24 by bv_omega] at h
  refine ⟨_, longJmp_spec v t (.capture s ra) (by rw [hrdi]; exact hctx) (by rw [hrdi]; exact halign)
    (by rw [hrdi]; exact hpart), rfl, ?_, ExecContext.status_capture s ra, rfl, ?_⟩
  · have hrsp : (ExecContext.capture s ra).rsp + 16 = s.reg .rsp - 8 := by
      show s.reg .rsp - 24 + 16 = _
      bv_omega
    funext r
    rw [hrsp]
    cases r <;> simp (disch := decide) only [update_self, update_of_ne] <;> rfl
  · intro x hx
    show ((t.mem.write (s.reg .rsp - 24 + 8) ra).write (s.reg .rsp - 24 + 0) _) x = t.mem x
    rw [Memory.write_outside hx (by decide), Memory.write_outside hx (by decide)]

/-- A processor with its stack below 8192 and OF set. -/
def resting : Processor where
  reg := fun _ => 8192
  flags := { cf := false, pf := true, af := false, zf := true, sf := false, of := true }
  fx := fun _ => 0
  mem := fun _ => 0
  rip := 0

/-- A processor that has left every register but the two arguments at 0, about to call `long_jmp(4096, 1)`. -/
def leaving (mem : Memory) : Processor where
  reg := update (update (fun _ => 0) .rdi 4096) .rsi 1
  flags := { cf := true, pf := false, af := false, zf := false, sf := true, of := false }
  fx := fun _ => 5
  mem := mem
  rip := 512

theorem longJmp_setJmp_resting : ∃ s' t', run false (setJmpMacro 4096 256) resting = some s' ∧
    SetJmpDone resting s' 4096 256 ∧ run true longJmp (leaving s'.mem) = some t' ∧ t'.rip = 256 ∧
      t'.reg = update (update resting.reg .rax 1) .rsp (resting.reg .rsp - 8) ∧ t'.flags = resting.flags ∧
      t'.fx = resting.fx ∧ ∀ x, 16 ≤ (x - (resting.reg .rsp - 24)).toNat → t'.mem x = s'.mem x := by
  obtain ⟨s', hsave, hdone, hload⟩ := longJmp_setJmp false true resting 4096 256 (by decide) (by decide)
  obtain ⟨t', hjump, hafter⟩ := hload (leaving s'.mem) rfl rfl
  exact ⟨s', t', hsave, hdone, hjump, hafter⟩

end Userspace

end LinuxFibers
