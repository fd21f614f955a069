import ArmCompiler.Arm.Instruction
import Mathlib.Algebra.Order.Ring.Int

/-!
# The Machine

What the instructions do. The machine has sixteen registers, four condition flags and a memory of
bytes, all of 32-bit words, and executes one sequence of instructions. It stops where control
leaves the sequence: when the program counter is popped, and when code outside of it is called.

## Contents
- §1: words, flags and conditions
- §2: registers and memory
- §3: single instructions
- §4: sequences
-/

namespace ArmCompiler

/-! ## §1 Words, flags and conditions -/

abbrev Byte := BitVec 8

abbrev Word := BitVec 32

/-- The condition flags. -/
structure Flags where
  negative : Bool
  zero : Bool
  carry : Bool
  overflow : Bool
  deriving DecidableEq, Repr

/-- Whether a condition holds under the flags. -/
def Condition.holds (flags : Flags) : Condition → Bool
  | .eq => flags.zero
  | .ne => !flags.zero
  | .lt => flags.negative != flags.overflow
  | .le => flags.zero || flags.negative != flags.overflow
  | .gt => !flags.zero && flags.negative == flags.overflow
  | .ge => flags.negative == flags.overflow
  | .cs => flags.carry
  | .cc => !flags.carry
  | .vs => flags.overflow
  | .vc => !flags.overflow

/-- Exactly one of a condition and its inverse holds. -/
theorem Condition.holds_inverse (flags : Flags) (cond : Condition) :
    cond.inverse.holds flags = !cond.holds flags := by
  obtain ⟨n, z, c, v⟩ := flags
  cases cond <;> cases n <;> cases z <;> cases c <;> cases v <;> rfl

/-- The sum of two words and a carry, with the flags it sets: carry if the sum of the unsigned
values does not fit, overflow if that of the signed values does not. -/
def addWithCarry (x y : Word) (carry : Bool) : Word × Flags :=
  let unsigned := x.toNat + y.toNat + carry.toNat
  let signed := x.toInt + y.toInt + carry.toNat
  let result := BitVec.ofNat 32 unsigned
  (result, {
    negative := result.msb
    zero := result == 0
    carry := result.toNat != unsigned
    overflow := result.toInt != signed })

/-- The flags that comparing two words sets: those of their difference. -/
def compareFlags (x y : Word) : Flags := (addWithCarry x (~~~y) true).2

/-- The result of an arithmetic or logical operation and the flags it can set. Subtracting is
adding the complement and one. Logical operations on unshifted operands leave carry and overflow
alone. -/
def ArithOp.apply (flags : Flags) (x y : Word) : ArithOp → Word × Flags
  | .add => addWithCarry x y false
  | .sub => addWithCarry x (~~~y) true
  | .rsb => addWithCarry (~~~x) y true
  | .and => logical (x &&& y)
  | .orr => logical (x ||| y)
  | .eor => logical (x ^^^ y)
where
  logical (result : Word) : Word × Flags :=
    (result, { flags with negative := result.msb, zero := result == 0 })

/-! ## §2 Registers and memory -/

/-- The state of the machine, and the addresses that the labels have been given. -/
structure Machine where
  regs : Register → Word
  flags : Flags
  memory : Word → Byte
  symbols : String → Word

namespace Machine

/-- Writes a register. -/
def set (m : Machine) (r : Register) (w : Word) : Machine :=
  { m with regs := fun s => if s = r then w else m.regs s }

section Set

variable (m : Machine) (r s : Register) (w w' : Word)

@[simp] theorem regs_set_self : (m.set r w).regs r = w := by simp [set]

theorem regs_set_of_ne (h : s ≠ r) : (m.set r w).regs s = m.regs s := by simp [set, h]

@[simp] theorem memory_set : (m.set r w).memory = m.memory := rfl

@[simp] theorem flags_set : (m.set r w).flags = m.flags := rfl

@[simp] theorem set_regs_self : m.set r (m.regs r) = m := by
  simp only [set]
  congr
  funext s
  split <;> simp_all

@[simp] theorem set_set : (m.set r w).set r w' = m.set r w' := by
  simp only [set]
  congr
  funext s
  split <;> rfl

end Set

/-- The word at an address. The lowest byte comes first. -/
def loadWord (m : Machine) (a : Word) : Word :=
  m.memory (a + 3) ++ m.memory (a + 2) ++ m.memory (a + 1) ++ m.memory a

/-- Reads memory. A byte fills the rest of the word with zeros. -/
def load (m : Machine) : Width → Word → Word
  | .word, a => m.loadWord a
  | .byte, a => (m.memory a).setWidth 32

/-- Writes one byte. -/
def storeByte (m : Machine) (a : Word) (b : Byte) : Machine :=
  { m with memory := fun x => if x = a then b else m.memory x }

/-- Writes memory. Of a word that is stored as a byte the low bits are kept. -/
def store (m : Machine) (a w : Word) : Width → Machine
  | .word =>
    (((m.storeByte a (w.extractLsb' 0 8)).storeByte (a + 1) (w.extractLsb' 8 8)).storeByte
      (a + 2) (w.extractLsb' 16 8)).storeByte (a + 3) (w.extractLsb' 24 8)
  | .byte => m.storeByte a (w.setWidth 8)

@[simp] theorem regs_store (m : Machine) (a w : Word) (width : Width) :
    (m.store a w width).regs = m.regs := by
  cases width <;> rfl

end Machine

/-- The value of an operand. -/
def Operand.value (m : Machine) : Operand → Word
  | .imm value => BitVec.ofInt 32 value
  | .reg r => m.regs r
  | .shifted r (.lsl amount) => m.regs r <<< amount
  | .shifted r (.asr amount) => (m.regs r).sshiftRight amount

/-! ## §3 Single instructions -/

/-- What an instruction leads to. -/
inductive Effect where
  /-- Control passes to the instruction below. -/
  | next (m : Machine)
  /-- Control passes to a label of the sequence. -/
  | jump (target : String) (m : Machine)
  /-- Control passes to code that can come back. -/
  | call (target : String) (m : Machine)
  /-- The program counter was popped. -/
  | ret (m : Machine)
  /-- The instruction has no meaning here. -/
  | stuck

namespace Machine

/-- Writes a register other than the program counter and goes on. -/
def write (m : Machine) (r : Register) (w : Word) : Effect :=
  if r = .pc then .stuck else .next (m.set r w)

/-- An effect that depends on a condition. -/
def guard (m : Machine) (cond : Option Condition) (effect : Effect) : Effect :=
  if cond.all (·.holds m.flags) then effect else .next m

end Machine

/-- Executes an instruction. -/
def Instruction.exec (m : Machine) : Instruction → Effect
  | .label _ => .next m
  | .directive _ => .stuck
  | .mov cond dst src => m.guard cond (m.write dst (src.value m))
  | .push r =>
    let a := m.regs .sp - 4
    .next ((m.set .sp a).store a (m.regs r) .word)
  | .pop r =>
    let w := m.loadWord (m.regs .sp)
    let popped := (m.set .sp (m.regs .sp + 4)).set r w
    if r = .pc then .ret popped else .next popped
  | .ldr cond width dst src => m.guard cond <|
    match src with
    | .offset base displacement =>
      m.write dst (m.load width (m.regs base + BitVec.ofInt 32 displacement))
    | .preIndexed base displacement =>
      let a := m.regs base + BitVec.ofInt 32 displacement
      (m.set base a).write dst (m.load width a)
    | .constant value => m.write dst (BitVec.ofInt 32 value)
    | .label name => m.write dst (m.symbols name)
  | .str width src dst =>
    match dst with
    | .offset base displacement =>
      .next (m.store (m.regs base + BitVec.ofInt 32 displacement) (m.regs src) width)
    | .preIndexed base displacement =>
      let a := m.regs base + BitVec.ofInt 32 displacement
      .next ((m.set base a).store a (m.regs src) width)
    | .constant _ | .label _ => .stuck
  | .cmp lhs rhs => .next { m with flags := compareFlags (m.regs lhs) (rhs.value m) }
  | .branch link cond target =>
    m.guard cond (if link then .call target m else .jump target m)
  | .arith op setFlags dst lhs rhs =>
    let (result, flags) := op.apply m.flags (m.regs lhs) (rhs.value m)
    { m with flags := if setFlags then flags else m.flags }.write dst result
  | .smull lo hi lhs rhs =>
    let product := (m.regs lhs).signExtend 64 * (m.regs rhs).signExtend 64
    if lo = .pc then .stuck
    else (m.set lo (product.setWidth 32)).write hi ((product >>> 32).setWidth 32)

/-! ## §4 Sequences -/

/-- How control leaves a sequence. -/
inductive Halt where
  | returned (m : Machine)
  | called (target : String) (m : Machine)

/-- What follows a label in a sequence. -/
def resume (name : String) : List Instruction → Option (List Instruction)
  | [] => none
  | i :: rest => if i = .label name then some rest else resume name rest

/-- `Runs code rest m halt`: executed from the instructions `rest` of the sequence `code` on, the
machine `m` leaves the sequence as `halt` says. -/
inductive Runs (code : List Instruction) : List Instruction → Machine → Halt → Prop where
  | next {i : Instruction} {rest : List Instruction} {m m' : Machine} {halt : Halt} :
      i.exec m = .next m' → Runs code rest m' halt → Runs code (i :: rest) m halt
  | jump {i : Instruction} {rest rest' : List Instruction} {m m' : Machine} {halt : Halt}
      {target : String} :
      i.exec m = .jump target m' → resume target code = some rest' → Runs code rest' m' halt →
      Runs code (i :: rest) m halt
  | call {i : Instruction} {rest : List Instruction} {m m' : Machine} {target : String} :
      i.exec m = .call target m' → Runs code (i :: rest) m (.called target m')
  | ret {i : Instruction} {rest : List Instruction} {m m' : Machine} :
      i.exec m = .ret m' → Runs code (i :: rest) m (.returned m')

/-- The machine can leave a sequence in one way only. -/
theorem Runs.unique {code rest : List Instruction} {m : Machine} {halt halt' : Halt}
    (h : Runs code rest m halt) (h' : Runs code rest m halt') : halt = halt' := by
  -- An instruction has one effect, and the effect tells which rule applies; so a second run takes
  -- the same rule at every step.
  induction h with
  | next hexec _ ih =>
    cases h' with
    | next hexec' hrun =>
      cases hexec.symm.trans hexec'
      exact ih hrun
    | jump hexec' | call hexec' | ret hexec' => cases hexec.symm.trans hexec'
  | jump hexec hresume _ ih =>
    cases h' with
    | jump hexec' hresume' hrun =>
      cases hexec.symm.trans hexec'
      cases hresume.symm.trans hresume'
      exact ih hrun
    | next hexec' | call hexec' | ret hexec' => cases hexec.symm.trans hexec'
  | call hexec =>
    cases h' with
    | call hexec' =>
      cases hexec.symm.trans hexec'
      rfl
    | next hexec' | jump hexec' | ret hexec' => cases hexec.symm.trans hexec'
  | ret hexec =>
    cases h' with
    | ret hexec' =>
      cases hexec.symm.trans hexec'
      rfl
    | next hexec' | jump hexec' | call hexec' => cases hexec.symm.trans hexec'

end ArmCompiler
