import ArmCompiler.Syntax
import ArmCompiler.Text.Quoted

/-!
# Diagnostics

The problems that checking a program can find, each at the position it is reported for, and
the words they are reported with.
-/

namespace ArmCompiler

/-- What is wrong with a program at some place. -/
inductive Problem where
  /-- A second function of the same name. -/
  | functionRedeclared (name : String)
  /-- A second variable of the same name in one scope. -/
  | variableRedeclared (name : String)
  /-- A name that nothing in scope has. -/
  | undefined (name : String)
  /-- A type other than the one wanted, or the two wanted. -/
  | mismatch (expected : Ty) (alternative : Option Ty) (actual : Ty)
  /-- A function that can end without returning. -/
  | missingReturn (name : String)
  /-- A statement that directly follows a return. -/
  | unreachable
  /-- A call with too many or too few arguments. -/
  | argumentCount (name : String) (expected actual : Nat)
  /-- A function used where a variable is wanted. -/
  | functionAsValue (name : String)
  /-- An arithmetic, order or logical operator on a pair or an array. -/
  | operatorOnReference (symbol : String)
  /-- An array literal whose elements have different types. -/
  | mixedElements
  /-- An integer literal that no word holds. -/
  | integerRange (literal : String)
  /-- A character literal that no byte holds. -/
  | characterRange (literal : Char)
  /-- A statement in a loop header that is not allowed there. -/
  | misplacedStatement
  /-- A printed expression that has no type. -/
  | unprintable
  deriving DecidableEq, Repr

/-- A name between double quotes. -/
private def inQuotes (name : String) : String := "\"" ++ name ++ "\""

/-- The words for a problem. -/
def Problem.message : Problem → String
  | .functionRedeclared name => "function " ++ inQuotes name ++ " is already defined"
  | .variableRedeclared name =>
    "variable " ++ inQuotes name ++ " is already defined in this scope"
  | .undefined name => inQuotes name ++ " is not defined in this scope"
  | .mismatch expected none actual =>
    "incompatible type: expected " ++ expected.text ++ ", actual " ++ actual.text
  | .mismatch expected (some alternative) actual =>
    "incompatible type: expected " ++ expected.text ++ " or " ++ alternative.text ++
      ", actual " ++ actual.text
  | .missingReturn name => "function " ++ inQuotes name ++ " is missing a return statement"
  | .unreachable => "unreachable statement after return"
  | .argumentCount name expected actual =>
    "wrong number of arguments for " ++ inQuotes name ++ ": expected " ++
      expected.repr ++ ", actual " ++ actual.repr
  | .functionAsValue name => inQuotes name ++ " is a function and cannot be used as a value"
  | .operatorOnReference symbol =>
    "operator " ++ symbol ++ " cannot be applied to a pair or array"
  | .mixedElements => "array literal elements have incompatible types"
  | .integerRange literal => "integer literal " ++ literal ++ " does not fit in 32 bits"
  | .characterRange literal =>
    "character literal " ++ Text.quoted literal ++ " is out of range"
  | .misplacedStatement => "this statement is not allowed here"
  | .unprintable => "expression has no printable type"

/-- A problem and the position it is reported for. -/
structure Diagnostic where
  problem : Problem
  span : Span
  deriving DecidableEq, Repr

/-- A diagnostic as one line of text. -/
def Diagnostic.text (d : Diagnostic) : String :=
  "semantic error at " ++ d.span.line.repr ++ ":" ++ d.span.column.repr ++ ": " ++
    d.problem.message

end ArmCompiler
