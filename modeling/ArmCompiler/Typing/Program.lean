import ArmCompiler.Typing.Stmt

/-!
# Typing Programs

A program is checked in three steps: the signatures of all functions are made known, then each
function body is checked, then the main body. So a function may be called before it is defined.
-/

namespace ArmCompiler

open Report

namespace Function

/-- What a call needs to know of the function. -/
def signature (f : Function) : Signature :=
  { name := f.name, returnType := f.returnType, params := f.params }

/-- Makes the function known. Of two functions with one name the first counts. -/
def declare (table : SymbolTable) (f : Function) : Report SymbolTable :=
  match table.addFunction? f.signature with
  | some table => pure table
  | none => do
    note (.functionRedeclared f.name) f.span
    pure table

/-- Notes what is wrong with the type that a function body returns. A body whose returned type
is invalid is reported as missing a return and as returning the wrong type. -/
def checkReturn (f : Function) (returned : Option Ty) : Report Unit := do
  noteIf (!returned.any Ty.isValid) (.missingReturn f.name) f.span
  match returned with
  | some actual =>
    noteIf (!f.returnType.agrees actual) (.mismatch f.returnType none actual) f.span
  | none => pure ()

/-- Notes each parameter whose name an earlier one has. -/
def noteClashes (f : Function) : List String → Report Unit
  | [] => pure ()
  | name :: rest => do
    note (.variableRedeclared name) f.span
    f.noteClashes rest

/-- Checks a function body in a scope that holds the parameters. -/
def check (table : SymbolTable) (f : Function) : Report SymbolTable := do
  let (clashes, inner) := table.openScope.enterFunction f.name
  f.noteClashes clashes
  let (returned, inner) ← f.body.check inner
  f.checkReturn returned
  pure inner.closeScope.leaveFunction

end Function

/-- Checks a program. The value is the table that the program leaves behind: its main body's
own variables and the signatures of its functions. -/
def Program.check (p : Program) : Report SymbolTable := do
  let table ← p.functions.foldlM Function.declare {}
  let table ← p.functions.foldlM Function.check table
  let (_, table) ← p.body.check table
  pure table

end ArmCompiler
