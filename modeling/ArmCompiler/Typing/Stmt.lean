import ArmCompiler.Typing.Expr

/-!
# Typing Statements

Checking a statement extends the symbol table by the variables it declares and finds the type
of the value that a return inside it hands back, if there is one. An `exit` counts as a return
of any type, since control does not come back from it.
-/

namespace ArmCompiler

open Report

/-- What checking a statement yields: the type returned inside it, if any, and the table for
what follows. -/
abbrev Checked := Report (Option Ty × SymbolTable)

/-- Runs a check in a scope of its own. -/
def SymbolTable.scoped (table : SymbolTable) (check : SymbolTable → Checked) : Checked := do
  let (ty, table) ← check table.openScope
  pure (ty, table.closeScope)

/-- Checks that a condition is a boolean. -/
def checkCondition (table : SymbolTable) (cond : Expr) : Report Unit := do
  let ty ← cond.check table
  expect .bool ty cond.span

/-- The type returned by a two-armed conditional, from the types returned by its arms. Arms
that do not agree, or of which only one returns, make it invalid. -/
def commonType : Option Ty → Option Ty → Option Ty
  | none, none => none
  | some a, some b =>
    if a.agrees b then (if a.isAny then some b else some a) else some .invalid
  | _, _ => some .invalid

namespace Stmt

/-- Whether the statement may open a `for` header. -/
def isForInit : Stmt → Bool
  | .declare .. | .assign .. => true
  | _ => false

/-- Whether the statement may close a `for` header. -/
def isForStep : Stmt → Bool
  | .assign .. | .increment .. => true
  | _ => false

/-- Checks a statement. Every part is visited once, except what directly follows a return and
the statements of a `for` header that may not stand there. -/
def check : Stmt → SymbolTable → Checked
  | .skip _, table => pure (none, table)
  | .declare span ty name rhs, table => do
    let actual ← rhs.check table span
    expect ty actual span
    match table.addVariable? name ty with
    | some table => pure (none, table)
    | none => do
      note (.variableRedeclared name) span
      pure (none, table)
  | .assign span target rhs, table => do
    let expected ← target.check table span
    let actual ← rhs.check table span
    expect expected actual span
    pure (none, table)
  | .increment span name, table => do
    match table.typeOf? name with
    | some ty => expect .int ty span
    | none => note (.undefined name) span
    pure (none, table)
  | .read span target, table => do
    let ty ← target.check table span
    noteIf (ty.isValid && !Ty.char.agrees ty && !Ty.int.agrees ty)
      (.mismatch .char (some .int) ty) span
    pure (none, table)
  | .free _ e, table => do
    let ty ← e.check table
    noteIf (ty.isValid && !ty.isPair && !ty.isAny) (.mismatch .erasedPair none ty) e.span
    pure (none, table)
  | .ret _ e, table => do
    let ty ← e.check table
    pure (some ty, table)
  | .exit _ e, table => do
    let ty ← e.check table
    expect .int ty e.span
    pure (some .any, table)
  | .print _ e, table | .println _ e, table => do
    let ty ← e.check table
    noteIf (!ty.isValid) .unprintable e.span
    pure (none, table)
  | .ifThen _ cond thenArm, table => do
    checkCondition table cond
    table.scoped thenArm.check
  | .ifElse _ cond thenArm elseArm, table => do
    checkCondition table cond
    let (thenTy, table) ← table.scoped thenArm.check
    let (elseTy, table) ← table.scoped elseArm.check
    pure (commonType thenTy elseTy, table)
  | .whileDo _ cond body, table => do
    checkCondition table cond
    table.scoped body.check
  | .doWhile _ body cond, table => do
    let (ty, table) ← table.scoped body.check
    checkCondition table cond
    pure (ty, table)
  | .forLoop _ init cond step body, table =>
    table.scoped fun table => do
      let table ← if init.isForInit then
          (·.2) <$> init.check table
        else do
          note .misplacedStatement init.span
          pure table
      checkCondition table cond
      let table ← if step.isForStep then
          (·.2) <$> step.check table
        else do
          note .misplacedStatement step.span
          pure table
      table.scoped body.check
  | .block _ body, table => table.scoped body.check
  | .seq _ first second, table => do
    let (ty, table) ← first.check table
    if first.isReturn then
      note .unreachable second.span
      pure (ty, table)
    else
      second.check table

end Stmt

end ArmCompiler
