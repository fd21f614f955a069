import ArmCompiler.Ty

/-!
# Abstract Syntax

Programs as trees: expressions, assignment targets and right sides, statements, functions.
Every expression and statement carries the source position at which problems with it are
reported. Integer literals keep the text they were written with, so that the checker can tell
one that is out of range; string literals keep their escapes.

## Contents
- §1: positions and operators
- §2: expressions
- §3: targets and right sides of assignments
- §4: statements
- §5: functions and programs
-/

namespace ArmCompiler

/-! ## §1 Positions and operators -/

/-- A source position. -/
structure Span where
  line : Nat := 0
  column : Nat := 0
  deriving DecidableEq, Repr

/-- Operators on one expression. -/
inductive UnaryOp where
  | not
  | neg
  | len
  | ord
  | chr
  deriving DecidableEq, Repr

/-- Operators on two expressions. -/
inductive BinaryOp where
  | mul
  | div
  | mod
  | add
  | sub
  | gt
  | ge
  | lt
  | le
  | eq
  | ne
  | and
  | or
  deriving DecidableEq, Repr

/-- How an operator on two expressions is written. -/
def BinaryOp.symbol : BinaryOp → String
  | .mul => "*"
  | .div => "/"
  | .mod => "%"
  | .add => "+"
  | .sub => "-"
  | .gt => ">"
  | .ge => ">="
  | .lt => "<"
  | .le => "<="
  | .eq => "=="
  | .ne => "!="
  | .and => "&&"
  | .or => "||"

/-! ## §2 Expressions -/

/-- Expressions. An array element is a variable with any number of indices, outermost
dimension first. -/
inductive Expr where
  | int (span : Span) (text : String)
  | bool (span : Span) (value : Bool)
  | char (span : Span) (value : Char)
  | str (span : Span) (raw : String)
  | null (span : Span)
  | ident (span : Span) (name : String)
  | elem (span : Span) (name : String) (indices : List Expr)
  | unary (span : Span) (op : UnaryOp) (operand : Expr)
  | binary (span : Span) (op : BinaryOp) (lhs rhs : Expr)
  deriving Repr

namespace Expr

/-- The position of the outermost node. -/
def span : Expr → Span
  | .int span _ | .bool span _ | .char span _ | .str span _ | .null span | .ident span _
  | .elem span _ _ | .unary span _ _ | .binary span _ _ _ => span

/-- The expression with its outermost node moved to `span`. -/
def withSpan (span : Span) : Expr → Expr
  | .int _ text => .int span text
  | .bool _ value => .bool span value
  | .char _ value => .char span value
  | .str _ raw => .str span raw
  | .null _ => .null span
  | .ident _ name => .ident span name
  | .elem _ name indices => .elem span name indices
  | .unary _ op operand => .unary span op operand
  | .binary _ op lhs rhs => .binary span op lhs rhs

@[simp] theorem span_withSpan (span : Span) (e : Expr) : (e.withSpan span).span = span := by
  cases e <;> rfl

end Expr

/-! ## §3 Assignments -/

/-- What can be assigned to or read into: a variable, an array element, a side of a pair. -/
inductive Target where
  | ident (name : String)
  | elem (name : String) (indices : List Expr)
  | side (side : Side) (pair : Expr)
  deriving Repr

/-- What can be assigned: the value of an expression, a new array or pair, a side of a pair,
the result of a call. -/
inductive Rhs where
  | expr (e : Expr)
  | array (elems : List Expr)
  | newPair (fst snd : Expr)
  | side (side : Side) (pair : Expr)
  | call (name : String) (args : List Expr)
  deriving Repr

/-! ## §4 Statements -/

/-- Statements. -/
inductive Stmt where
  | skip (span : Span)
  | declare (span : Span) (ty : Ty) (name : String) (rhs : Rhs)
  | assign (span : Span) (target : Target) (rhs : Rhs)
  | increment (span : Span) (name : String)
  | read (span : Span) (target : Target)
  | free (span : Span) (e : Expr)
  | ret (span : Span) (e : Expr)
  | exit (span : Span) (e : Expr)
  | print (span : Span) (e : Expr)
  | println (span : Span) (e : Expr)
  | ifThen (span : Span) (cond : Expr) (thenArm : Stmt)
  | ifElse (span : Span) (cond : Expr) (thenArm elseArm : Stmt)
  | whileDo (span : Span) (cond : Expr) (body : Stmt)
  | doWhile (span : Span) (body : Stmt) (cond : Expr)
  | forLoop (span : Span) (init : Stmt) (cond : Expr) (step body : Stmt)
  | block (span : Span) (body : Stmt)
  | seq (span : Span) (first second : Stmt)
  deriving Repr

namespace Stmt

/-- The position of the outermost node. -/
def span : Stmt → Span
  | .skip span | .declare span _ _ _ | .assign span _ _ | .increment span _ | .read span _
  | .free span _ | .ret span _ | .exit span _ | .print span _ | .println span _
  | .ifThen span _ _ | .ifElse span _ _ _ | .whileDo span _ _ | .doWhile span _ _
  | .forLoop span _ _ _ _ | .block span _ | .seq span _ _ => span

/-- The statement with its outermost node moved to `span`. -/
def withSpan (span : Span) : Stmt → Stmt
  | .skip _ => .skip span
  | .declare _ ty name rhs => .declare span ty name rhs
  | .assign _ target rhs => .assign span target rhs
  | .increment _ name => .increment span name
  | .read _ target => .read span target
  | .free _ e => .free span e
  | .ret _ e => .ret span e
  | .exit _ e => .exit span e
  | .print _ e => .print span e
  | .println _ e => .println span e
  | .ifThen _ cond thenArm => .ifThen span cond thenArm
  | .ifElse _ cond thenArm elseArm => .ifElse span cond thenArm elseArm
  | .whileDo _ cond body => .whileDo span cond body
  | .doWhile _ body cond => .doWhile span body cond
  | .forLoop _ init cond step body => .forLoop span init cond step body
  | .block _ body => .block span body
  | .seq _ first second => .seq span first second

@[simp] theorem span_withSpan (span : Span) (s : Stmt) : (s.withSpan span).span = span := by
  cases s <;> rfl

/-- Whether the statement itself is a return. A statement that merely contains one is not. -/
def isReturn : Stmt → Bool
  | .ret _ _ => true
  | _ => false

/-- The statements of a list one after the other, nested to the right. Each sequencing node
stands where its first statement does. -/
def ofList : List Stmt → Stmt
  | [] => .skip {}
  | [s] => s
  | s :: rest => .seq s.span s (ofList rest)

/-- The statements met along the right spine of sequencing nodes, outermost first. -/
def spine : Stmt → List Stmt
  | .seq span first second => .seq span first second :: spine second
  | s => [s]

end Stmt

/-! ## §5 Functions and programs -/

/-- A parameter of a function. -/
structure Param where
  name : String
  ty : Ty
  deriving DecidableEq, Repr

/-- A function definition. -/
structure Function where
  name : String
  returnType : Ty
  params : List Param := []
  body : Stmt
  span : Span := {}
  deriving Repr

/-- A program: its functions in source order and the body that is run. -/
structure Program where
  functions : List Function := []
  body : Stmt
  deriving Repr

end ArmCompiler
