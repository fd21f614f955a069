import ArmCompiler.Lowering.Rhs

/-!
# Lowering Statements

Each statement starts and ends with all registers free and the stack pointer where the frame
says it is. A scope reserves its slots on the stack when it is entered and gives them back when
it is left.
-/

namespace ArmCompiler

open Instruction Lower

/-- The routine that prints a value of a type. -/
def Ty.printer (t : Ty) : Routine :=
  match t.kind, t.dims with
  | .base .string, 0 => .printString
  | .base .char, 1 => .printString
  | .base .int, 0 => .printInt
  | .base .bool, 0 => .printBool
  | .base .char, 0 => .printChar
  | _, _ => .printReference

namespace Lower

/-- Prints the value of an expression. -/
def printValue (e : Expr) : Lower Unit := do
  let ty ← typeOf e
  let r ← e.lower
  emit (move .r0 r)
  release r
  callRoutine ty.printer

/-- Compares a condition with a truth value. -/
def testCondition (cond : Expr) (value : Int) : Lower Unit := do
  let r ← cond.lower
  emit (.cmp r (.imm value))
  release r

/-- Goes back to the top of a loop while its condition holds. -/
def loopBack (cond : Expr) (top : String) : Lower Unit := do
  testCondition cond 1
  emit (jumpIf .eq top)

/-- A register that holds the address of a place. -/
def placeAddress : Place → Lower Register
  | .stack offset => intoFresh fun r => .instr (op .add r .sp (.imm offset))
  | .computed r => pure r

end Lower

namespace Stmt

/-- How many variables a statement declares in the scope it stands in. -/
def slots : Stmt → Nat
  | .declare .. => 1
  | .seq _ first second => first.slots + second.slots
  | _ => 0

/-- The code of a statement. -/
def lower (table : SymbolTable) : Stmt → Lower Unit
  | .skip _ => pure ()
  | .declare _ ty name rhs => do
    let value ← rhs.lower table ty
    let offset ← Lower.declare name ty
    emit (.str ty.width value (.offset .sp offset))
    release value
  | .assign _ target rhs => do
    let frame ← getFrame
    let ty ← ofExcept (target.typeIn frame)
    let value ← rhs.lower table ty
    let place ← target.place
    emit (.str (target.width ty) value place.address)
    place.release
    release value
  | .increment _ name => do
    let (offset, _) ← lookup name
    let r ← acquire
    emit (load r (.offset .sp offset))
    emit (opFlags .add r r (.imm 1))
    callRoutineIf .vs .throwOverflow
    emit (store r (.offset .sp offset))
    release r
  | .read _ target => do
    let frame ← getFrame
    let ty ← ofExcept (target.typeIn frame)
    let place ← target.place
    let r ← placeAddress place
    emit (move .r0 r)
    release r
    callRoutine (if ty = .char then .readChar else .readInt)
  | .free _ e => do
    let r ← e.lower
    emit (move .r0 r)
    release r
    callRoutine .freePair
  | .ret _ e => do
    let r ← e.lower
    let ret ← holdReturn
    emit (move ret r)
    release r
    let frame ← getFrame
    emitAll [.unreserve frame.depth.toNat]
    emit (.pop .pc)
    freeReturn
  | .exit _ e => do
    let r ← e.lower
    let ret ← holdReturn
    emit (move ret r)
    emit (call "exit")
    freeReturn
    release r
    emit (loadConst .r0 0)
  | .print _ e => printValue e
  | .println _ e => do
    printValue e
    callRoutine .printLn
  | .ifThen _ cond thenArm => do
    let done ← freshLabel
    testCondition cond 0
    emit (jumpIf .eq done)
    inScope thenArm.slots (thenArm.lower table)
    emit (.label done)
  | .ifElse _ cond thenArm elseArm => do
    let done ← freshLabel
    testCondition cond 0
    let otherwise ← freshLabel
    emit (jumpIf .eq otherwise)
    inScope thenArm.slots (thenArm.lower table)
    emit (jump done)
    emit (.label otherwise)
    inScope elseArm.slots (elseArm.lower table)
    emit (.label done)
  | .whileDo _ cond body => do
    let check ← freshLabel
    let top ← freshLabel
    emit (jump check)
    emit (.label top)
    inScope body.slots (body.lower table)
    emit (.label check)
    loopBack cond top
  | .doWhile _ body cond => do
    let top ← freshLabel
    emit (.label top)
    inScope body.slots (body.lower table)
    loopBack cond top
  | .forLoop _ init cond step body =>
    inScope init.slots do
      init.lower table
      let check ← freshLabel
      let top ← freshLabel
      emit (jump check)
      emit (.label top)
      inScope body.slots (body.lower table)
      step.lower table
      emit (.label check)
      loopBack cond top
  | .block _ body => inScope body.slots (body.lower table)
  | .seq _ first second => do
    first.lower table
    second.lower table

/-- How a sequence of statements is bracketed makes no difference. -/
theorem lower_seq_assoc (table : SymbolTable) (span span' : Span) (a b c : Stmt) :
    (Stmt.seq span (.seq span' a b) c).lower table =
      (Stmt.seq span' a (.seq span b c)).lower table := by
  simp only [lower, bind_assoc]

end Stmt

end ArmCompiler
