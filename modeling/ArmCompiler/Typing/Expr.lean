import ArmCompiler.Literal.Integer
import ArmCompiler.SymbolTable
import ArmCompiler.Typing.Report

/-!
# Typing Expressions

The types of expressions, assignment targets and right sides under a symbol table, with the
diagnostics that finding them produces. None of these checks changes the table.

A part that cannot be given a type gets the invalid type; the problem is noted where it is
found, and what contains the part does not complain again.

## Contents
- §1: variables, array elements and pair sides
- §2: operators
- §3: expressions
- §4: targets and right sides
-/

namespace ArmCompiler

open Report

/-! ## §1 Variables, array elements and pair sides -/

/-- The type of a variable that is used at a position. -/
def SymbolTable.useVariable (table : SymbolTable) (name : String) (span : Span) : Report Ty :=
  match table.typeOf? name with
  | some ty => pure ty
  | none => do
    note (if table.isFunction name then .functionAsValue name else .undefined name) span
    pure .invalid

/-- The type left after `count` indices are applied to the type `ty`, a part of the variable
type `whole`. Indexing stops at a wildcard. A scalar or a pair cannot be indexed, and then the
mismatch names the type of the whole variable. -/
def indexedType (whole : Ty) (span : Span) (ty : Ty) : (count : Nat) → Report Ty
  | 0 => pure ty
  | count + 1 =>
    if ty.isAny then
      pure ty
    else if ty.isArray then
      indexedType whole span ty.element count
    else do
      noteMismatch Ty.any.toArray whole span
      pure .invalid

/-- The type of an element of an array variable, given the variable's type. -/
def elementType (array : Ty) (span : Span) (count : Nat) : Report Ty :=
  if array.isValid then indexedType array span array count else pure array

/-- The type of one side of a value that should be a pair. -/
def sideType (side : Side) (pair : Ty) (span : Span) : Report Ty :=
  if pair.isValid then
    match pair.side? side with
    | some ty => pure ty
    | none => do
      noteMismatch .erasedPair pair span
      pure .invalid
  else
    pure pair

/-! ## §2 Operators -/

/-- The type of an operator applied to an operand of type `ty`. -/
def UnaryOp.check (op : UnaryOp) (ty : Ty) (span : Span) : Report Ty :=
  match op with
  | .not => do expect .bool ty span; pure .bool
  | .neg => do expect .int ty span; pure .int
  | .len => do
    if ty.isValid && !ty.isArray && !ty.isAny then noteMismatch Ty.any.toArray ty span
    pure .int
  | .ord => do expect .char ty span; pure .int
  | .chr => do expect .int ty span; pure .char

/-- An operand by its type and position. -/
structure BinaryOp.Operand where
  ty : Ty
  span : Span

/-- Notes a pair or an array on the left of an operator. -/
def BinaryOp.refuseReference (op : BinaryOp) (lhs : Ty) (span : Span) : Report Unit :=
  noteIf (lhs.isPair || lhs.isArray) (.operatorOnReference op.symbol) span

/-- The type of an operator applied to two operands. Equality takes anything; every other
operator refuses a pair or an array on its left and wants operands of its own types. -/
def BinaryOp.check (op : BinaryOp) (lhs rhs : BinaryOp.Operand) (span : Span) : Report Ty :=
  match op with
  | .eq | .ne => pure .bool
  | .mul | .div | .mod | .add | .sub => do
    op.refuseReference lhs.ty span
    expect .int lhs.ty lhs.span
    expect .int rhs.ty rhs.span
    pure .int
  | .gt | .ge | .lt | .le => do
    op.refuseReference lhs.ty span
    expect lhs.ty rhs.ty lhs.span
    pure .bool
  | .and | .or => do
    op.refuseReference lhs.ty span
    expect .bool lhs.ty lhs.span
    expect .bool rhs.ty rhs.span
    pure .bool

/-! ## §3 Expressions -/

/-- The largest code point that a character literal may have. -/
def charMax : Nat := 255

mutual

/-- The type of an expression. -/
def Expr.check (table : SymbolTable) : Expr → Report Ty
  | .int span text =>
    match Literal.intValue? text with
    | some _ => pure .int
    | none => do
      note (.integerRange text) span
      pure .invalid
  | .bool _ _ => pure .bool
  | .char span value => do
    noteIf (charMax < value.toNat) (.characterRange value) span
    pure .char
  | .str _ _ => pure .string
  | .null _ => pure .erasedPair
  | .ident span name => table.useVariable name span
  | .elem span name indices => do
    let array ← table.useVariable name span
    checkIndices table indices
    elementType array span indices.length
  | .unary span op operand => do
    let ty ← operand.check table
    op.check ty span
  | .binary span op lhs rhs => do
    let lhsTy ← lhs.check table
    let rhsTy ← rhs.check table
    op.check ⟨lhsTy, lhs.span⟩ ⟨rhsTy, rhs.span⟩ span

/-- Checks that indices are integers. -/
def checkIndices (table : SymbolTable) : List Expr → Report Unit
  | [] => pure ()
  | index :: rest => do
    let ty ← index.check table
    expect .int ty index.span
    checkIndices table rest

end

/-! ## §4 Targets and right sides -/

/-- The type of what can be stored in an assignment target. -/
def Target.check (table : SymbolTable) (span : Span) : Target → Report Ty
  | .ident name => table.useVariable name span
  | .elem name indices => do
    let array ← table.useVariable name span
    checkIndices table indices
    elementType array span indices.length
  | .side which pair => do
    let ty ← pair.check table
    sideType which ty span

/-- Checks that the elements after the first of an array literal have the first one's type. -/
def checkElements (table : SymbolTable) (first : Ty) : List Expr → Report Unit
  | [] => pure ()
  | elem :: rest => do
    let ty ← elem.check table
    noteIf (first.isValid && ty.isValid && !first.agrees ty) .mixedElements elem.span
    checkElements table first rest

/-- Checks arguments against the parameters in the same places. Surplus arguments are checked
on their own. -/
def checkArgs (table : SymbolTable) : List Param → List Expr → Report Unit
  | _, [] => pure ()
  | [], arg :: args => do
    let _ ← arg.check table
    checkArgs table [] args
  | param :: params, arg :: args => do
    let ty ← arg.check table
    expect param.ty ty arg.span
    checkArgs table params args

/-- The type of a right side. -/
def Rhs.check (table : SymbolTable) (span : Span) : Rhs → Report Ty
  | .expr e => e.check table
  | .array [] => pure Ty.any.toArray
  | .array (first :: rest) => do
    let ty ← first.check table
    checkElements table ty rest
    pure ty.toArray
  | .newPair fst snd => do
    let fstTy ← fst.check table
    let sndTy ← snd.check table
    pure (Ty.pairOf fstTy sndTy)
  | .side which pair => do
    let ty ← pair.check table
    sideType which ty span
  | .call name args =>
    match table.function? name with
    | none => do
      note (.undefined name) span
      checkArgs table [] args
      pure .invalid
    | some signature => do
      noteIf (args.length ≠ signature.params.length)
        (.argumentCount name signature.params.length args.length) span
      checkArgs table signature.params args
      pure signature.returnType

end ArmCompiler
