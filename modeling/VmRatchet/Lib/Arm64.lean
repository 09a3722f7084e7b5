import VmRatchet.Lib.Memory

/-!
# A fragment of AArch64: decoding and execution of eight instructions

The fragment is what a bare-metal memory-sweeping loop needs: 64-bit `ADD (immediate)`,
`ORR (shifted register)` (the `mov` alias), `SUBS (shifted register)` (the `cmp` alias),
`LDR`/`STR (immediate, unsigned offset)`, `B.cond`, `B` and `WFI`. Everything else decodes to
`none`.

* `decode w` — the instruction a 32-bit word encodes, from the architecture's bit fields.
* `exec ok i c m` — one instruction on a register file and a memory, where `ok a` says that the
  byte at address `a` may be accessed. A load or store that meets a forbidden byte raises a data
  abort at its address and changes nothing, the program counter included.

Register `31` is the zero register in every operand position of the fragment that admits it; the
`ADD (immediate)` forms that would read or write the stack pointer do not decode. Flags are kept
as four booleans. Accesses are little-endian and have no alignment requirement.
-/

namespace Arm64

open ByteMemory

/-! ## Registers -/

/-- A general-purpose register number. -/
abbrev Reg := BitVec 5

/-- The condition flags, which comparisons set and conditional branches read. -/
structure Flags where
  /-- Negative. -/
  n : Bool
  /-- Zero. -/
  z : Bool
  /-- Carry: for a subtraction, "no borrow". -/
  c : Bool
  /-- Overflow. -/
  v : Bool
  deriving DecidableEq

/-- The register file of one core. Entry `31` of `x` is never read. -/
structure Cpu where
  /-- General-purpose registers. -/
  x : Reg → BitVec 64
  /-- The program counter. -/
  pc : BitVec 64
  /-- The condition flags. -/
  flags : Flags

namespace Cpu

/-- Read a register; number `31` reads zero. -/
def get (c : Cpu) (r : Reg) : BitVec 64 := if r = 31 then 0 else c.x r

/-- Write a register; a write to number `31` is discarded. -/
def set (c : Cpu) (r : Reg) (v : BitVec 64) : Cpu :=
  if r = 31 then c else { c with x := fun q => if q = r then v else c.x q }

/-- Step over the current instruction. -/
def next (c : Cpu) : Cpu := { c with pc := c.pc + 4 }

/-- Going to the next instruction leaves the registers alone. -/
@[simp] theorem next_x (c : Cpu) : c.next.x = c.x := rfl

/-- The next instruction is four bytes on. -/
@[simp] theorem next_pc (c : Cpu) : c.next.pc = c.pc + 4 := rfl

/-- Going to the next instruction leaves the flags alone. -/
@[simp] theorem next_flags (c : Cpu) : c.next.flags = c.flags := rfl

/-- A write to a register leaves the program counter alone. -/
@[simp] theorem set_pc (c : Cpu) (r : Reg) (v : BitVec 64) : (c.set r v).pc = c.pc := by
  unfold set
  split_ifs <;> rfl

/-- A write to a register leaves the flags alone. -/
@[simp] theorem set_flags (c : Cpu) (r : Reg) (v : BitVec 64) :
    (c.set r v).flags = c.flags := by
  unfold set
  split_ifs <;> rfl

/-- A write to register `31` is discarded: it names the zero register here. -/
@[simp] theorem set_zero (c : Cpu) (v : BitVec 64) : c.set 31#5 v = c := if_pos rfl

/-- Register `31` reads zero. -/
@[simp] theorem get_zero (c : Cpu) : c.get 31#5 = 0 := if_pos rfl

/-- The register file after a write to an ordinary register. -/
theorem set_x {c : Cpu} {r : Reg} (h : r ≠ 31) (v : BitVec 64) (q : Reg) :
    (c.set r v).x q = if q = r then v else c.x q := by
  unfold set
  rw [if_neg h]

/-- A register other than `31` reads what it holds. -/
theorem get_of_ne {c : Cpu} {r : Reg} (h : r ≠ 31) : c.get r = c.x r := if_neg h

end Cpu

/-! ## Instructions -/

/-- The conditions of the fragment's conditional branch. -/
inductive Cond
  /-- Equal: `Z` set. -/
  | eq
  /-- Unsigned lower: `C` clear. -/
  | lo
  deriving DecidableEq

/-- Does a condition hold of the flags? The unsigned order is read off the carry alone. -/
def Cond.holds : Cond → Flags → Bool
  | .eq, f => f.z
  | .lo, f => !f.c

/-- The instructions of the fragment, operands decoded. -/
inductive Insn
  /-- `add rd, rn, #imm` (the shift already applied). -/
  | addImm (rd rn : Reg) (imm : BitVec 64)
  /-- `orr rd, rn, rm`. -/
  | orr (rd rn rm : Reg)
  /-- `subs rd, rn, rm`. -/
  | subs (rd rn rm : Reg)
  /-- `ldr rt, [rn, #off]`. -/
  | ldr (rt rn : Reg) (off : BitVec 64)
  /-- `str rt, [rn, #off]`. -/
  | str (rt rn : Reg) (off : BitVec 64)
  /-- `b.cond pc + off`. -/
  | bcond (cond : Cond) (off : BitVec 64)
  /-- `b pc + off`. -/
  | b (off : BitVec 64)
  /-- `wfi`. -/
  | wfi
  deriving DecidableEq

/-- Decode the condition field of a conditional branch; other conditions are outside the
fragment. -/
def decodeCond (f : BitVec 4) : Option Cond :=
  if f = 0b0000 then some .eq else if f = 0b0011 then some .lo else none

/-- Decode one instruction word, by its fixed bits; `none` for a word outside the fragment. -/
def decode (w : BitVec 32) : Option Insn :=
  let r0 : Reg := w.extractLsb' 0 5
  let r5 : Reg := w.extractLsb' 5 5
  let r16 : Reg := w.extractLsb' 16 5
  let imm12 : BitVec 64 := (w.extractLsb' 10 12).setWidth 64
  if w.extractLsb' 23 9 = 0b100100010 then
    -- ADD (immediate), 64-bit: bit 22 selects the shift by 12
    if r0 = 31 ∨ r5 = 31 then none
    else some (.addImm r0 r5 (if w.getLsbD 22 then imm12 <<< 12 else imm12))
  else if w.extractLsb' 21 11 = 0b10101010000 ∧ w.extractLsb' 10 6 = 0 then
    some (.orr r0 r5 r16)
  else if w.extractLsb' 21 11 = 0b11101011000 ∧ w.extractLsb' 10 6 = 0 then
    some (.subs r0 r5 r16)
  else if w.extractLsb' 22 10 = 0b1111100101 then
    if r5 = 31 then none else some (.ldr r0 r5 (imm12 <<< 3))
  else if w.extractLsb' 22 10 = 0b1111100100 then
    if r5 = 31 then none else some (.str r0 r5 (imm12 <<< 3))
  else if w.extractLsb' 24 8 = 0b01010100 ∧ w.getLsbD 4 = false then
    (decodeCond (w.extractLsb' 0 4)).map
      fun cond => .bcond cond ((w.extractLsb' 5 19).signExtend 64 <<< 2)
  else if w.extractLsb' 26 6 = 0b000101 then
    some (.b ((w.extractLsb' 0 26).signExtend 64 <<< 2))
  else if w = 0xD503207F then some .wfi
  else none

/-! ## Execution -/

/-- What one instruction does: it completes, is refused a load or store, or leaves the guest. -/
inductive Outcome
  /-- The instruction completed. -/
  | next (c : Cpu) (m : Mem)
  /-- A load or store was refused at this address; nothing changed. -/
  | dataAbort (addr : BitVec 64)
  /-- The core went to sleep waiting for an interrupt. -/
  | sleep

/-- The flags of the subtraction `a - b`, as a comparison sets them. -/
def subFlags (a b : BitVec 64) : Flags where
  n := (a - b).msb
  z := a == b
  c := decide (b.toNat ≤ a.toNat)
  v := (a.msb != b.msb) && ((a - b).msb != a.msb)

/-- May the eight bytes from `a` upwards be accessed? -/
def accessible (ok : ℕ → Bool) (a : BitVec 64) : Bool :=
  (List.range 8).all fun i => ok (a.toNat + i)

/-- Execute one decoded instruction; `ok` says at which addresses a load or store is let through. -/
def exec (ok : ℕ → Bool) (i : Insn) (c : Cpu) (m : Mem) : Outcome :=
  match i with
  | .addImm rd rn imm => .next (c.set rd (c.get rn + imm)).next m
  | .orr rd rn rm => .next (c.set rd (c.get rn ||| c.get rm)).next m
  | .subs rd rn rm =>
      .next { (c.set rd (c.get rn - c.get rm)).next with
        flags := subFlags (c.get rn) (c.get rm) } m
  | .ldr rt rn off =>
      let a := c.get rn + off
      if accessible ok a then .next (c.set rt (load64 m a.toNat)).next m else .dataAbort a
  | .str rt rn off =>
      let a := c.get rn + off
      if accessible ok a then .next c.next (store64 m a.toNat (c.get rt)) else .dataAbort a
  | .bcond cond off =>
      .next (if cond.holds c.flags then { c with pc := c.pc + off } else c.next) m
  | .b off => .next { c with pc := c.pc + off } m
  | .wfi => .sleep

/-- A word is accessible exactly if each of its eight bytes is. -/
theorem accessible_iff {ok : ℕ → Bool} {a : BitVec 64} :
    accessible ok a = true ↔ ∀ i < 8, ok (a.toNat + i) = true := by
  simp [accessible]

/-- An access is refused as soon as its first byte is. -/
theorem accessible_eq_false {ok : ℕ → Bool} {a : BitVec 64} (h : ok a.toNat = false) :
    accessible ok a = false := by
  rw [Bool.eq_false_iff]
  intro hacc
  have h0 := accessible_iff.mp hacc 0 (by omega)
  rw [Nat.add_zero, h] at h0
  cases h0

end Arm64
