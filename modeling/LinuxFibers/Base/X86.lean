import Mathlib.Data.BitVec
import Mathlib.Logic.Function.Basic

/-!
# A fragment of the x86-64 machine

Registers, status flags, the FXSAVE image of the x87 and SSE state and a byte memory, with the instructions that a
context switch in user space is written with. A block of instructions is run from top to bottom; `ret` is the only
instruction that moves `rip`. A load sees the last store to the same quadword and no store to a range apart from it
(`Memory.read_write_self`, `Memory.read_fill`, `Memory.read_fill_apart`).
-/

namespace X86

abbrev Byte := BitVec 8

abbrev Word := BitVec 64

/-! ### Memory -/

abbrev Memory := Word → Byte

/-- Byte `i` of a quadword, the least significant first. -/
def byteOf (w : Word) (i : Nat) : Byte := w.extractLsb' (8 * i) 8

/-- The quadword at an address, little endian. -/
def Memory.read (m : Memory) (a : Word) : Word :=
  m (a + 7) ++ m (a + 6) ++ m (a + 5) ++ m (a + 4) ++ m (a + 3) ++ m (a + 2) ++ m (a + 1) ++ m a

/-- Stores `n` consecutive quadwords from an address on. -/
def Memory.fill (m : Memory) (a : Word) (n : Nat) (f : Nat → Word) : Memory := fun x =>
  if (x - a).toNat < 8 * n then byteOf (f ((x - a).toNat / 8)) ((x - a).toNat % 8) else m x

/-- Stores one quadword. -/
def Memory.write (m : Memory) (a v : Word) : Memory := m.fill a 1 fun _ => v

/-- Two ranges of bytes without a common one; ranges wrap around the end of the address space. -/
def Apart (a : Word) (n : Nat) (b : Word) (k : Nat) : Prop := n ≤ (b - a).toNat ∧ k ≤ (a - b).toNat

instance (a : Word) (n : Nat) (b : Word) (k : Nat) : Decidable (Apart a n b k) :=
  inferInstanceAs (Decidable (_ ∧ _))

theorem Apart.symm {a b : Word} {n k : Nat} (h : Apart a n b k) : Apart b k a n := ⟨h.2, h.1⟩

theorem word_of_bytes (w : Word) :
    byteOf w 7 ++ byteOf w 6 ++ byteOf w 5 ++ byteOf w 4 ++ byteOf w 3 ++ byteOf w 2 ++ byteOf w 1 ++ byteOf w 0 = w := by
  apply BitVec.eq_of_getLsbD_eq
  intro i hi
  simp only [byteOf, BitVec.getLsbD_append, BitVec.getLsbD_extractLsb']
  grind

theorem Memory.read_eq {m : Memory} {a w : Word} (h : ∀ i < 8, m (a + BitVec.ofNat 64 i) = byteOf w i) :
    m.read a = w := by
  have h0 := h 0 (by decide)
  rw [show a + BitVec.ofNat 64 0 = a by simp] at h0
  unfold Memory.read
  rw [show m (a + 7) = _ from h 7 (by decide), show m (a + 6) = _ from h 6 (by decide),
    show m (a + 5) = _ from h 5 (by decide), show m (a + 4) = _ from h 4 (by decide),
    show m (a + 3) = _ from h 3 (by decide), show m (a + 2) = _ from h 2 (by decide),
    show m (a + 1) = _ from h 1 (by decide), h0]
  exact word_of_bytes w

theorem Memory.read_congr {m m' : Memory} {a : Word} (h : ∀ x, (x - a).toNat < 8 → m' x = m x) :
    m'.read a = m.read a := by
  have hbyte : ∀ i : Nat, i < 8 → m' (a + BitVec.ofNat 64 i) = m (a + BitVec.ofNat 64 i) := by
    intro i hi
    apply h
    rw [show a + BitVec.ofNat 64 i - a = BitVec.ofNat 64 i by rw [add_sub_cancel_left]]
    simp only [BitVec.toNat_ofNat]
    omega
  have h0 := hbyte 0 (by decide)
  rw [show a + BitVec.ofNat 64 0 = a by simp] at h0
  unfold Memory.read
  rw [show m' (a + 7) = _ from hbyte 7 (by decide), show m' (a + 6) = _ from hbyte 6 (by decide),
    show m' (a + 5) = _ from hbyte 5 (by decide), show m' (a + 4) = _ from hbyte 4 (by decide),
    show m' (a + 3) = _ from hbyte 3 (by decide), show m' (a + 2) = _ from hbyte 2 (by decide),
    show m' (a + 1) = _ from hbyte 1 (by decide), h0]
  rfl

/-- A store changes no byte outside its range. -/
theorem Memory.fill_outside {m : Memory} {a x : Word} {n : Nat} {f : Nat → Word} (h : 8 * n ≤ (x - a).toNat) :
    m.fill a n f x = m x := if_neg (by omega)

theorem Memory.read_fill_apart {m : Memory} {a b : Word} {n : Nat} {f : Nat → Word} (h : Apart a (8 * n) b 8) :
    (m.fill a n f).read b = m.read b := by
  apply Memory.read_congr
  intro x hx
  apply Memory.fill_outside
  obtain ⟨h1, h2⟩ := h
  bv_omega

theorem Memory.read_fill {m : Memory} {a : Word} {n k : Nat} {f : Nat → Word} (hn : 8 * n ≤ 2 ^ 64) (hk : k < n) :
    (m.fill a n f).read (a + BitVec.ofNat 64 (8 * k)) = f k := by
  apply Memory.read_eq
  intro i hi
  have hd : (a + BitVec.ofNat 64 (8 * k) + BitVec.ofNat 64 i - a).toNat = 8 * k + i := by
    rw [BitVec.add_assoc, add_sub_cancel_left, ← BitVec.ofNat_add, BitVec.toNat_ofNat]
    exact Nat.mod_eq_of_lt (by omega)
  unfold Memory.fill
  rw [hd, if_pos (by omega), show (8 * k + i) / 8 = k by omega, show (8 * k + i) % 8 = i by omega]

theorem Memory.read_write_apart {m : Memory} {a b v : Word} (h : Apart a 8 b 8) : (m.write a v).read b = m.read b :=
  Memory.read_fill_apart h

@[simp] theorem Memory.read_write_self (m : Memory) (a v : Word) : (m.write a v).read a = v := by
  have h := Memory.read_fill (m := m) (a := a) (f := fun _ => v) (by decide : 8 * 1 ≤ 2 ^ 64) Nat.zero_lt_one
  rw [show a + BitVec.ofNat 64 (8 * 0) = a by simp] at h
  exact h

/-- Ranges at two offsets of one address. -/
theorem apart_offsets (a : Word) {x y : Word} {n k : Nat} (h : Apart x n y k) : Apart (a + x) n (a + y) k := by
  unfold Apart
  rw [add_sub_add_left_eq_sub, add_sub_add_left_eq_sub]
  exact h

/-- Parts of two ranges without a common byte have none either. -/
theorem Apart.part {a b x y : Word} {n k i j : Nat} (h : Apart a n b k) (hx : x.toNat + i ≤ n) (hy : y.toNat + j ≤ k)
    (hi : 0 < i) (hj : 0 < j) : Apart (a + x) i (b + y) j := by
  obtain ⟨h1, h2⟩ := h
  unfold Apart
  constructor <;> bv_omega

/-- A byte outside a range is outside each part of it. -/
theorem outside_part {a x y : Word} {n i : Nat} (h : n ≤ (x - a).toNat) (hy : y.toNat + i ≤ n) :
    i ≤ (x - (a + y)).toNat := by
  bv_omega

/-- Stores and loads at two offsets of one address. -/
theorem Memory.read_write_offsets {m : Memory} {a x y v : Word} (h : Apart x 8 y 8) :
    (m.write (a + x) v).read (a + y) = m.read (a + y) :=
  Memory.read_write_apart (apart_offsets a h)

theorem Memory.read_fill_offsets {m : Memory} {a x y : Word} {n : Nat} {f : Nat → Word} (h : Apart x (8 * n) y 8) :
    (m.fill (a + x) n f).read (a + y) = m.read (a + y) :=
  Memory.read_fill_apart (apart_offsets a h)

/-- Stores in one of two ranges, loads in the other. -/
theorem Memory.read_write_part {a b : Word} {n k : Nat} (h : Apart a n b k) {m : Memory} {x y v : Word}
    (hx : x.toNat + 8 ≤ n) (hy : y.toNat + 8 ≤ k) : (m.write (a + x) v).read (b + y) = m.read (b + y) :=
  Memory.read_write_apart (h.part hx hy (by decide) (by decide))

theorem Memory.read_fill_part {a b : Word} {n k : Nat} (h : Apart a n b k) {m : Memory} {x y : Word} {j : Nat}
    {f : Nat → Word} (hx : x.toNat + 8 * j ≤ n) (hy : y.toNat + 8 ≤ k) (hj : 0 < 8 * j) :
    (m.fill (a + x) j f).read (b + y) = m.read (b + y) :=
  Memory.read_fill_apart (h.part hx hy hj (by decide))

/-- A store into a range changes no byte outside it. -/
theorem Memory.write_outside {a z : Word} {n : Nat} (h : n ≤ (z - a).toNat) {m : Memory} {x v : Word}
    (hx : x.toNat + 8 ≤ n) : (m.write (a + x) v) z = m z :=
  Memory.fill_outside (outside_part h hx)

theorem Memory.fill_outside_part {a z : Word} {n : Nat} (h : n ≤ (z - a).toNat) {m : Memory} {x : Word} {k : Nat}
    {f : Nat → Word} (hx : x.toNat + 8 * k ≤ n) : (m.fill (a + x) k f) z = m z :=
  Memory.fill_outside (outside_part h hx)

/-! ### Registers and flags -/

/-- The general purpose registers. -/
inductive Reg
  | rax | rdx | rcx | rbx | rsp | rbp | rsi | rdi | r8 | r9 | r10 | r11 | r12 | r13 | r14 | r15
  deriving DecidableEq, Repr

/-- The status flags. -/
structure Flags where
  cf : Bool
  pf : Bool
  af : Bool
  zf : Bool
  sf : Bool
  of : Bool
  deriving DecidableEq, Repr

/-- The low byte of a register. -/
def low (w : Word) : Byte := w.extractLsb' 0 8

/-- The second byte of a register. -/
def high (w : Word) : Byte := w.extractLsb' 8 8

def setLow (w : Word) (b : Byte) : Word := w.extractLsb' 8 56 ++ b

def setHigh (w : Word) (b : Byte) : Word := w.extractLsb' 16 48 ++ b ++ w.extractLsb' 0 8

@[simp] theorem low_setLow (w : Word) (b : Byte) : low (setLow w b) = b := by
  apply BitVec.eq_of_getLsbD_eq
  intro i hi
  simp only [low, setLow, BitVec.getLsbD_append, BitVec.getLsbD_extractLsb']
  grind

@[simp] theorem high_setLow (w : Word) (b : Byte) : high (setLow w b) = high w := by
  apply BitVec.eq_of_getLsbD_eq
  intro i hi
  simp only [high, setLow, BitVec.getLsbD_append, BitVec.getLsbD_extractLsb']
  grind

@[simp] theorem high_setHigh (w : Word) (b : Byte) : high (setHigh w b) = b := by
  apply BitVec.eq_of_getLsbD_eq
  intro i hi
  simp only [high, setHigh, BitVec.getLsbD_append, BitVec.getLsbD_extractLsb']
  grind

/-- The five flags `lahf` stores, from bit 7 down: SF, ZF, 0, AF, 0, PF, 1, CF. -/
def Flags.status (f : Flags) : Byte := BitVec.ofBoolListBE [f.sf, f.zf, false, f.af, false, f.pf, true, f.cf]

/-- `sahf` loads the same five flags and leaves OF. -/
def Flags.load (f : Flags) (b : Byte) : Flags :=
  { f with sf := b.getLsbD 7, zf := b.getLsbD 6, af := b.getLsbD 4, pf := b.getLsbD 2, cf := b.getLsbD 0 }

/-- The flags an addition sets. -/
def Flags.add {w : Nat} (x y : BitVec w) : Flags where
  cf := BitVec.uaddOverflow x y
  pf := ((x + y).setWidth 8).cpop % 2 == 0
  af := decide (16 ≤ x.toNat % 16 + y.toNat % 16)
  zf := x + y == 0
  sf := (x + y).msb
  of := BitVec.saddOverflow x y

/-- The flags of a bitwise operation; AF is undefined after it. -/
def Flags.logic (u : Bool) (v : Word) : Flags where
  cf := false
  pf := (v.setWidth 8).cpop % 2 == 0
  af := u
  zf := v == 0
  sf := v.msb
  of := false

/-- **The status byte, loaded over flags that agree on OF, gives the flags back.** -/
theorem Flags.load_status (f g : Flags) (h : g.of = f.of) : g.load f.status = f := by
  obtain ⟨cf, pf, af, zf, sf, of⟩ := f
  simp only at h
  unfold Flags.load Flags.status
  simp only [h]
  clear h
  revert cf pf af zf sf of
  decide

/-- OF as `seto` stores it: adding 0x7f to the byte overflows exactly when the flag was set. -/
theorem Flags.add_seto (b : Bool) : (Flags.add (BitVec.ofBool b |>.setWidth 8) (0x7f : Byte)).of = b := by
  cases b <;> decide

/-! ### Instructions -/

/-- The machine: registers, status flags, the FXSAVE image in quadwords, memory and the instruction pointer. -/
structure Processor where
  reg : Reg → Word
  flags : Flags
  fx : Fin 64 → Word
  mem : Memory
  rip : Word

/-- The operands of AT&T syntax: `%r`, `d(%r)` and `$v`. -/
inductive Operand
  | r (r : Reg)
  | at (d : Word) (r : Reg)
  | imm (v : Word)

/-- The instructions, source before destination as AT&T syntax has them. `call` pushes the address to return to; the
instructions of the function follow it in the block. -/
inductive Instr
  | call (ra : Word)
  | pushq (r : Reg)
  | popq (r : Reg)
  | movq (src dst : Operand)
  | addq (src dst : Operand)
  | addb (v : Byte)
  | xorq (src dst : Operand)
  | lahf
  | sahf
  | seto
  | fxsave (d : Word) (r : Reg)
  | fxrstor (d : Word) (r : Reg)
  | ret

open Function (update)

namespace Processor

/-- The value of an operand. -/
def get (s : Processor) : Operand → Word
  | .r r => s.reg r
  | .at d r => s.mem.read (s.reg r + d)
  | .imm v => v

def setReg (s : Processor) (r : Reg) (v : Word) : Processor := { s with reg := update s.reg r v }

/-- Stores to an operand; an immediate is no destination. -/
def put (s : Processor) (v : Word) : Operand → Option Processor
  | .r r => some (s.setReg r v)
  | .at d r => some { s with mem := s.mem.write (s.reg r + d) v }
  | .imm _ => none

def push (s : Processor) (v : Word) : Processor :=
  { s with reg := update s.reg .rsp (s.reg .rsp - 8), mem := s.mem.write (s.reg .rsp - 8) v }

end Processor

/-- One instruction; `none` is a general protection fault. `u` is what a bitwise operation leaves in AF. -/
def exec (u : Bool) (s : Processor) : Instr → Option Processor
  | .call ra => some (s.push ra)
  | .pushq r => some (s.push (s.reg r))
  | .popq r => some ((s.setReg .rsp (s.reg .rsp + 8)).setReg r (s.mem.read (s.reg .rsp)))
  | .movq src dst => s.put (s.get src) dst
  | .addq src dst => { s with flags := .add (s.get dst) (s.get src) }.put (s.get dst + s.get src) dst
  | .addb v =>
    some ({ s with flags := .add (low (s.reg .rax)) v }.setReg .rax (setLow (s.reg .rax) (low (s.reg .rax) + v)))
  | .xorq src dst => { s with flags := .logic u (s.get dst ^^^ s.get src) }.put (s.get dst ^^^ s.get src) dst
  | .lahf => some (s.setReg .rax (setHigh (s.reg .rax) s.flags.status))
  | .sahf => some { s with flags := s.flags.load (high (s.reg .rax)) }
  | .seto => some (s.setReg .rax (setLow (s.reg .rax) (BitVec.ofBool s.flags.of |>.setWidth 8)))
  | .fxsave d r =>
    if (s.reg r + d).toNat % 16 = 0 then
      some { s with mem := s.mem.fill (s.reg r + d) 64 fun k => if h : k < 64 then s.fx ⟨k, h⟩ else 0 }
    else none
  | .fxrstor d r =>
    if (s.reg r + d).toNat % 16 = 0 then
      some { s with fx := fun k => s.mem.read (s.reg r + d + BitVec.ofNat 64 (8 * k)) }
    else none
  | .ret => some { s.setReg .rsp (s.reg .rsp + 8) with rip := s.mem.read (s.reg .rsp) }

/-- A block of instructions, from top to bottom. -/
def run (u : Bool) (is : List Instr) (s : Processor) : Option Processor := is.foldlM (exec u) s

@[simp] theorem run_nil (u : Bool) (s : Processor) : run u [] s = some s := rfl

@[simp] theorem run_cons (u : Bool) (i : Instr) (is : List Instr) (s : Processor) :
    run u (i :: is) s = (exec u s i).bind (run u is) := rfl

end X86
