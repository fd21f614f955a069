import ArmCompiler.Lowering.Basic
import ArmCompiler.Literal.Integer
import ArmCompiler.Weight

/-!
# Lowering Expressions

The code that brings the value of an expression into a register. The value is a word:
characters and booleans are small numbers, strings, arrays and pairs are addresses.

## Contents
- §1: variables and their types in a frame
- §2: operators
- §3: expressions
-/

namespace ArmCompiler

open Instruction Lower

/-! ## §1 Variables and types -/

/-- How much storage a value of a type moves. -/
def Ty.width (t : Ty) : Width := if t.size = 1 then .byte else .word

/-- The distance from the stack pointer and the type of a variable. -/
def Frame.find (frame : Frame) (name : String) : Except CompileError (Int × Ty) :=
  match frame.lookup? name with
  | some found => .ok found
  | none => .error (.internal (.unknownVariable name))

/-- The type left after as many indices as `count` are applied to a type. -/
def Ty.elementAt (t : Ty) : (count : Nat) → Ty
  | 0 => t
  | count + 1 => t.element.elementAt count

/-- The type of an operator applied to an operand. -/
def UnaryOp.resultType : UnaryOp → Ty
  | .not => .bool
  | .neg | .len | .ord => .int
  | .chr => .char

/-- The type of an operator applied to two operands. -/
def BinaryOp.resultType : BinaryOp → Ty
  | .mul | .div | .mod | .add | .sub => .int
  | .gt | .ge | .lt | .le | .eq | .ne | .and | .or => .bool

/-- The type of an array element in a frame. -/
def Frame.elementType (frame : Frame) (name : String) (count : Nat) :
    Except CompileError Ty := do
  let (_, ty) ← frame.find name
  .ok (ty.elementAt count)

/-- The type of an expression in a frame. -/
def Expr.typeIn (frame : Frame) : Expr → Except CompileError Ty
  | .int .. => .ok .int
  | .bool .. => .ok .bool
  | .char .. => .ok .char
  | .str .. => .ok .string
  | .null .. => .ok .erasedPair
  | .ident _ name => do
    let (_, ty) ← frame.find name
    .ok ty
  | .elem _ name indices => frame.elementType name indices.length
  | .unary _ op _ => .ok op.resultType
  | .binary _ op _ _ => .ok op.resultType

/-- The type of one side of a pair in a frame. -/
def Expr.sideTypeIn (frame : Frame) (side : Side) (pair : Expr) : Except CompileError Ty := do
  let ty ← pair.typeIn frame
  match ty.side? side with
  | some sideTy => .ok sideTy
  | none => .error (.internal (.notPair ty))

namespace Lower

/-- The distance from the stack pointer and the type of a variable. -/
def lookup (name : String) : Lower (Int × Ty) := do
  let frame ← getFrame
  ofExcept (frame.find name)

/-- The type of an expression. -/
def typeOf (e : Expr) : Lower Ty := do
  let frame ← getFrame
  ofExcept (e.typeIn frame)

/-! ## §2 Operators -/

/-- Applies an operator to the value in a register, in place. -/
def unary (r : Register) : UnaryOp → Lower Unit
  | .not => emit (op .eor r r (.imm 1))
  | .neg => do
    emit (opFlags .rsb r r (.imm 0))
    callRoutineIf .vs .throwOverflow
  | .len => emit (load r (.held r))
  | .ord | .chr => pure ()

/-- Arithmetic on two registers that ends the program when the result does not fit. -/
def checkedArith (arith : ArithOp) (l r : Register) : Lower Unit := do
  emit (opFlags arith l l (.reg r))
  callRoutineIf .vs .throwOverflow

/-- Passes two registers to a library function for division and takes its result from the
register where the function leaves it. A zero divisor ends the program. -/
def divideWith (function : String) (result l r : Register) : Lower Unit := do
  emit (move .r0 l)
  emit (move .r1 r)
  callRoutine .checkDivideByZero
  emit (call function)
  emit (move l result)

/-- Sets a register to one if a comparison holds, to zero if not. -/
def compare (cond : Condition) (l r : Register) : Lower Unit := do
  emit (.cmp l (.reg r))
  emit (.mov (some cond) l (.imm 1))
  emit (.mov (some cond.inverse) l (.imm 0))

/-- Applies an operator to the values in two registers. The result takes the place of the
first; the second may be overwritten. -/
def binary (l r : Register) : BinaryOp → Lower Unit
  | .add => checkedArith .add l r
  | .sub => checkedArith .sub l r
  | .mul => do
    emit (.smull l r l r)
    -- The product fits a word when the high word is the sign extension of the low one.
    emit (.cmp r (.shifted l (.asr 31)))
    callRoutineIf .ne .throwOverflow
  | .div => divideWith "__aeabi_idiv" .r0 l r
  | .mod => divideWith "__aeabi_idivmod" .r1 l r
  | .gt => compare .gt l r
  | .ge => compare .ge l r
  | .lt => compare .lt l r
  | .le => compare .le l r
  | .eq => compare .eq l r
  | .ne => compare .ne l r
  | .and => emit (op .and l l (.reg r))
  | .or => emit (op .orr l l (.reg r))

/-- Turns the address of an array in one register into the address of the element whose index
is in another. An index out of bounds ends the program. -/
def index (array i : Register) (element : Ty) : Lower Unit := do
  emit (move .r0 i)
  emit (move .r1 array)
  callRoutine .checkArrayBounds
  emit (op .add array array (.imm slotBytes))
  emit (op .add array array (if element.size = 1 then .reg i else .shifted i (.lsl 2)))

/-- Loads a variable that holds an array. Gives the register and the variable's type. -/
def loadArray (name : String) : Lower (Register × Ty) := do
  let (offset, ty) ← lookup name
  let array ← acquire
  emit (load array (.offset .sp offset))
  pure (array, ty)

/-- Takes a register for a value and emits the instruction that puts the value there. -/
def intoFresh (instruction : Register → Pseudo) : Lower Register := do
  let r ← acquire
  emitAll [instruction r]
  pure r

end Lower

/-! ## §3 Expressions -/

mutual

/-- Brings the value of an expression into a free register. -/
def Expr.lower : Expr → Lower Register
  | .int _ text =>
    match Literal.intValue? text with
    | some value => intoFresh fun r => .instr (loadConst r value)
    | none => fail (.internal (.literalRange text))
  | .bool _ value => intoFresh fun r => .instr (.mov none r (.imm value.toInt))
  | .char _ value => intoFresh fun r => .instr (.mov none r (.imm value.toNat))
  | .str _ raw => intoFresh fun r => .message r (Escape.decode raw)
  | .null _ => intoFresh fun r => .instr (loadConst r 0)
  | .ident _ name => do
    let (offset, ty) ← lookup name
    intoFresh fun r => .instr (.ldr none ty.width r (.offset .sp offset))
  | .elem _ name indices => do
    let (array, ty) ← loadArray name
    let ty ← lowerIndices array ty indices
    emit (.ldr none ty.width array (.held array))
    pure array
  | .unary _ op operand => do
    let r ← operand.lower
    unary r op
    pure r
  | .binary _ op lhs rhs => do
    let (l, r) ← if leftFirst lhs rhs then do
        let l ← lhs.lower
        let r ← rhs.lower
        pure (l, r)
      else do
        let r ← rhs.lower
        let l ← lhs.lower
        pure (l, r)
    binary l r op
    release r
    pure l

/-- Turns the address of an array of type `ty` into the address of the element that indices
select, row by row. Gives the element's type. -/
def lowerIndices (array : Register) (ty : Ty) : List Expr → Lower Ty
  | [] => pure ty
  | i :: rest => do
    let r ← i.lower
    index array r ty.element
    release r
    -- A row of an array of arrays holds the address of the next one.
    unless rest.isEmpty do emit (load array (.held array))
    lowerIndices array ty.element rest

end

end ArmCompiler
