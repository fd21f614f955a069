/-!
# ARM Instructions

The instructions and assembler directives that compiled programs are made of, as data. Their
text is given in `ArmCompiler.Arm.Printer`.

## Contents
- §1: registers, condition codes and operands
- §2: addresses
- §3: directives and instructions
- §4: common forms
-/

namespace ArmCompiler

/-! ## §1 Registers, condition codes and operands -/

/-- The core registers. -/
inductive Register where
  | r0
  | r1
  | r2
  | r3
  | r4
  | r5
  | r6
  | r7
  | r8
  | r9
  | r10
  | r11
  | r12
  | sp
  | lr
  | pc
  deriving DecidableEq, Repr

/-- The registers in which expressions are evaluated, in the order they are handed out. -/
def Register.general : List Register := [.r4, .r5, .r6, .r7, .r8, .r9, .r10, .r11]

/-- The conditions under which an instruction can be made to take effect. -/
inductive Condition where
  | eq
  | ne
  | lt
  | le
  | gt
  | ge
  /-- Carry set: unsigned higher or same. -/
  | cs
  /-- Carry clear: unsigned lower. -/
  | cc
  /-- Signed overflow. -/
  | vs
  /-- No signed overflow. -/
  | vc
  deriving DecidableEq, Repr

/-- The condition that holds exactly when the given one does not. -/
def Condition.inverse : Condition → Condition
  | .eq => .ne
  | .ne => .eq
  | .lt => .ge
  | .le => .gt
  | .gt => .le
  | .ge => .lt
  | .cs => .cc
  | .cc => .cs
  | .vs => .vc
  | .vc => .vs

@[simp] theorem Condition.inverse_inverse (c : Condition) : c.inverse.inverse = c := by
  cases c <;> rfl

/-- The shifts that can be applied to a register operand. -/
inductive Shift where
  | lsl (amount : Nat)
  | asr (amount : Nat)
  deriving DecidableEq, Repr

/-- The last operand of an arithmetic instruction. -/
inductive Operand where
  | imm (value : Int)
  | reg (r : Register)
  | shifted (r : Register) (shift : Shift)
  deriving DecidableEq, Repr

/-! ## §2 Addresses -/

/-- Where a load or store goes. -/
inductive Address where
  /-- A displacement from a base register. -/
  | offset (base : Register) (displacement : Int)
  /-- A displacement from a base register, which is moved to the address. -/
  | preIndexed (base : Register) (displacement : Int)
  /-- A constant, for loads only. -/
  | constant (value : Int)
  /-- The address of a label, for loads only. -/
  | label (name : String)
  deriving DecidableEq, Repr

/-- The address held in a register. -/
def Address.held (base : Register) : Address := .offset base 0

/-- How much a load or store moves. A byte that is loaded fills the rest of the register with
zeros. -/
inductive Width where
  | word
  | byte
  deriving DecidableEq, Repr

/-! ## §3 Directives and instructions -/

/-- Directives to the assembler. -/
inductive Directive where
  | textSection
  | dataSection
  | global (name : String)
  /-- Places the pending constants here. -/
  | ltorg
  | word (value : UInt32)
  /-- A string whose escapes are already written. -/
  | ascii (encoded : String)
  deriving DecidableEq, Repr

/-- Two-operand arithmetic. `rsb` subtracts its first operand from its second. -/
inductive ArithOp where
  | add
  | sub
  | rsb
  | and
  | orr
  | eor
  deriving DecidableEq, Repr

/-- One line of a program: a label, a directive or an instruction. -/
inductive Instruction where
  | label (name : String)
  | directive (d : Directive)
  | mov (cond : Option Condition) (dst : Register) (src : Operand)
  | push (r : Register)
  | pop (r : Register)
  | ldr (cond : Option Condition) (width : Width) (dst : Register) (src : Address)
  | str (width : Width) (src : Register) (dst : Address)
  | cmp (lhs : Register) (rhs : Operand)
  | branch (link : Bool) (cond : Option Condition) (target : String)
  | arith (op : ArithOp) (setFlags : Bool) (dst lhs : Register) (rhs : Operand)
  /-- The 64-bit signed product of two words. -/
  | smull (lo hi lhs rhs : Register)
  deriving DecidableEq, Repr

/-! ## §4 Common forms -/

namespace Instruction

/-- Copies a register. -/
def move (dst src : Register) : Instruction := .mov none dst (.reg src)

/-- Loads a word. -/
def load (dst : Register) (src : Address) : Instruction := .ldr none .word dst src

/-- Loads a constant. -/
def loadConst (dst : Register) (value : Int) : Instruction := load dst (.constant value)

/-- Loads the address of a label. -/
def loadLabel (dst : Register) (name : String) : Instruction := load dst (.label name)

/-- Loads the address of a label if a condition holds. -/
def loadLabelIf (cond : Condition) (dst : Register) (name : String) : Instruction :=
  .ldr (some cond) .word dst (.label name)

/-- Stores a word. -/
def store (src : Register) (dst : Address) : Instruction := .str .word src dst

/-- Jumps to a label. -/
def jump (target : String) : Instruction := .branch false none target

/-- Jumps to a label if a condition holds. -/
def jumpIf (cond : Condition) (target : String) : Instruction :=
  .branch false (some cond) target

/-- Calls the code at a label. -/
def call (target : String) : Instruction := .branch true none target

/-- Calls the code at a label if a condition holds. -/
def callIf (cond : Condition) (target : String) : Instruction :=
  .branch true (some cond) target

/-- Arithmetic that leaves the flags alone. -/
def op (op : ArithOp) (dst lhs : Register) (rhs : Operand) : Instruction :=
  .arith op false dst lhs rhs

/-- Arithmetic that sets the flags. -/
def opFlags (op : ArithOp) (dst lhs : Register) (rhs : Operand) : Instruction :=
  .arith op true dst lhs rhs

end Instruction

end ArmCompiler
