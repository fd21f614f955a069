import ArmCompiler.Literal.Integer
import ArmCompiler.Syntax

/-!
# Reference Semantics

What a scalar program means: one without functions whose variables are integers, booleans and
characters, and which neither divides nor reads nor prints. Values are integers; booleans are zero
and one, characters their codes. Arithmetic that leaves the range of a word ends the program.

The semantics is a function. The number of rounds that each loop may take is an argument of it, so
a program means what it means for any number that is large enough.

## Contents
- §1: results
- §2: variables
- §3: expressions
- §4: statements
- §5: scalar programs
-/

namespace ArmCompiler

/-! ## §1 Results -/

/-- The ways in which a program can end before its last statement. -/
inductive Stop where
  | returned (value : Int)
  | exited (value : Int)
  | overflow
  deriving DecidableEq, Repr

/-- What running a part of a program yields: a value, or an early end. There is neither if the
part has no meaning, or if a loop takes more rounds than it may. -/
inductive Result (α : Type) where
  | done (a : α)
  | stopped (how : Stop)
  | stuck
  deriving DecidableEq, Repr

namespace Result

variable {α β : Type}

instance : Monad Result where
  pure := .done
  bind r f :=
    match r with
    | .done a => f a
    | .stopped how => .stopped how
    | .stuck => .stuck

@[simp] theorem done_bind (a : α) (f : α → Result β) : (done a >>= f) = f a := rfl

@[simp] theorem stopped_bind (how : Stop) (f : α → Result β) :
    (stopped how >>= f) = stopped how := rfl

@[simp] theorem stuck_bind (f : α → Result β) : (stuck >>= f) = stuck := rfl

@[simp] theorem pure_eq (a : α) : (pure a : Result α) = done a := rfl

/-- A result that is a value with a property, or an early end with one. -/
def Meets (value : α → Prop) (stop : Stop → Prop) : Result α → Prop
  | .done a => value a
  | .stopped how => stop how
  | .stuck => False

section Meets

variable {value : α → Prop} {stop : Stop → Prop}

@[simp] theorem meets_done {a : α} : (done a).Meets value stop ↔ value a := Iff.rfl

@[simp] theorem meets_stopped {how : Stop} : (stopped how).Meets value stop ↔ stop how := Iff.rfl

@[simp] theorem not_meets_stuck : ¬(stuck : Result α).Meets value stop := id

theorem meets_bind {value : β → Prop} {r : Result α} {f : α → Result β} :
    (r >>= f).Meets value stop ↔ r.Meets (fun a => (f a).Meets value stop) stop := by
  cases r <;> exact Iff.rfl

theorem Meets.imp {value' : α → Prop} {r : Result α} (h : r.Meets value stop)
    (himp : ∀ a, value a → value' a) : r.Meets value' stop := by
  cases r with
  | done a => exact himp a h
  | stopped how => exact h
  | stuck => exact h

/-- A value has two properties together. -/
theorem Meets.and {value' : α → Prop} {stop' : Stop → Prop} {r : Result α}
    (h : r.Meets value stop) (h' : r.Meets value' stop') :
    r.Meets (fun a => value a ∧ value' a) stop' := by
  cases r with
  | done a => exact ⟨h, h'⟩
  | stopped how => exact h'
  | stuck => exact h

end Meets

end Result

/-- A value, unless it leaves the range of a word. -/
def checked (n : Int) : Result Int :=
  if Literal.FitsWord n then .done n else .stopped .overflow

/-! ## §2 Variables -/

/-- A variable's type and value. -/
structure Variable where
  ty : Ty
  value : Int
  deriving DecidableEq, Repr

/-- What a variable keeps of a value: all of an integer, the low eight bits of a boolean or a
character. -/
def Ty.keep (ty : Ty) (n : Int) : Int := if ty = .bool ∨ ty = .char then n % 256 else n

/-- The variables in sight, latest first. -/
abbrev Store := List (String × Variable)

namespace Store

/-- The value of a variable. -/
def read (σ : Store) (name : String) : Result Int :=
  match σ.lookup name with
  | some v => .done v.value
  | none => .stuck

/-- Declares a variable. -/
def declare (σ : Store) (name : String) (ty : Ty) (n : Int) : Store :=
  (name, { ty, value := ty.keep n }) :: σ

/-- Changes the value of a variable. -/
def assign (name : String) (n : Int) : Store → Result Store
  | [] => .stuck
  | (other, v) :: rest =>
    if other = name then
      .done ((other, { v with value := v.ty.keep n }) :: rest)
    else do
      let rest ← assign name n rest
      return (other, v) :: rest

end Store

/-! ## §3 Expressions -/

/-- Applies an operator. -/
def UnaryOp.eval (n : Int) : UnaryOp → Result Int
  | .not => .done (n == 0).toInt
  | .neg => checked (-n)
  | .ord | .chr => .done n
  | .len => .stuck

/-- Applies an operator to two operands. -/
def BinaryOp.eval (a b : Int) : BinaryOp → Result Int
  | .mul => checked (a * b)
  | .add => checked (a + b)
  | .sub => checked (a - b)
  | .gt => .done (decide (a > b)).toInt
  | .ge => .done (decide (a ≥ b)).toInt
  | .lt => .done (decide (a < b)).toInt
  | .le => .done (decide (a ≤ b)).toInt
  | .eq => .done (a == b).toInt
  | .ne => .done (a != b).toInt
  | .and => .done (a != 0 && b != 0).toInt
  | .or => .done (a != 0 || b != 0).toInt
  | .div | .mod => .stuck

/-- The value of an expression. Both operands of an operator are evaluated, whatever the value of
one of them. -/
def Expr.eval (σ : Store) : Expr → Result Int
  | .int _ text =>
    match Literal.intValue? text with
    | some n => .done n
    | none => .stuck
  | .bool _ value => .done value.toInt
  | .char _ value => .done value.toNat
  | .ident _ name => σ.read name
  | .unary _ op operand => do
    let n ← operand.eval σ
    op.eval n
  | .binary _ op lhs rhs => do
    let a ← lhs.eval σ
    let b ← rhs.eval σ
    op.eval a b
  | .str .. | .null .. | .elem .. => .stuck

/-! ## §4 Statements -/

/-- Runs something in a scope of its own: the variables it declares are gone afterwards, what it
assigned to the others remains. -/
def Store.inScope (run : Store → Result Store) (σ : Store) : Result Store := do
  let σ' ← run σ
  return σ'.drop (σ'.length - σ.length)

/-- Runs rounds of a loop while a condition holds, fewer than the given number of them. -/
def iterate (cond : Expr) (round : Store → Result Store) : Nat → Store → Result Store
  | 0, _ => .stuck
  | rounds + 1, σ => do
    let n ← cond.eval σ
    if n = 0 then
      return σ
    else
      let σ ← round σ
      iterate cond round rounds σ

/-- Runs a statement. -/
def Stmt.exec (rounds : Nat) : Stmt → Store → Result Store
  | .skip _, σ => return σ
  | .declare _ ty name (.expr e), σ => do
    let n ← e.eval σ
    return σ.declare name ty n
  | .assign _ (.ident name) (.expr e), σ => do
    let n ← e.eval σ
    σ.assign name n
  | .increment _ name, σ => do
    let n ← σ.read name
    let n ← checked (n + 1)
    σ.assign name n
  | .ret _ e, σ => do
    let n ← e.eval σ
    .stopped (.returned n)
  | .exit _ e, σ => do
    let n ← e.eval σ
    .stopped (.exited n)
  | .ifThen _ cond thenArm, σ => do
    let n ← cond.eval σ
    if n = 0 then return σ else Store.inScope (thenArm.exec rounds) σ
  | .ifElse _ cond thenArm elseArm, σ => do
    let n ← cond.eval σ
    if n = 0 then Store.inScope (elseArm.exec rounds) σ else Store.inScope (thenArm.exec rounds) σ
  | .whileDo _ cond body, σ => iterate cond (Store.inScope (body.exec rounds)) rounds σ
  | .doWhile _ body cond, σ => do
    let σ ← Store.inScope (body.exec rounds) σ
    iterate cond (Store.inScope (body.exec rounds)) rounds σ
  | .forLoop _ init cond step body, σ =>
    Store.inScope (fun σ => do
      let σ ← init.exec rounds σ
      iterate cond (fun σ => do
        let σ ← Store.inScope (body.exec rounds) σ
        step.exec rounds σ) rounds σ) σ
  | .block _ body, σ => Store.inScope (body.exec rounds) σ
  | .seq _ first second, σ => do
    let σ ← first.exec rounds σ
    second.exec rounds σ
  | _, _ => .stuck

/-- How a program ends. -/
inductive Outcome where
  | finished
  | stopped (how : Stop)
  deriving DecidableEq, Repr

/-- Runs the main body of a program. -/
def Program.outcome? (rounds : Nat) (p : Program) : Option Outcome :=
  match p.body.exec rounds [] with
  | .done _ => some .finished
  | .stopped how => some (.stopped how)
  | .stuck => none

/-! ## §5 Scalar programs -/

/-- The types of scalar variables. -/
def Ty.isScalar (ty : Ty) : Bool := ty = .int || ty = .bool || ty = .char

/-- Expressions over scalars, without division. -/
def Expr.isScalar : Expr → Bool
  | .int .. | .bool .. | .char .. | .ident .. => true
  | .unary _ op operand => op ≠ .len && operand.isScalar
  | .binary _ op lhs rhs => op ≠ .div && op ≠ .mod && lhs.isScalar && rhs.isScalar
  | .str .. | .null .. | .elem .. => false

/-- Statements over scalars. -/
def Stmt.isScalar : Stmt → Bool
  | .skip _ | .increment .. => true
  | .declare _ ty _ (.expr e) => ty.isScalar && e.isScalar
  | .assign _ (.ident _) (.expr e) | .ret _ e | .exit _ e => e.isScalar
  | .ifThen _ cond body | .whileDo _ cond body | .doWhile _ body cond =>
    cond.isScalar && body.isScalar
  | .ifElse _ cond thenArm elseArm => cond.isScalar && thenArm.isScalar && elseArm.isScalar
  | .forLoop _ init cond step body =>
    init.isScalar && cond.isScalar && step.isScalar && body.isScalar
  | .block _ body => body.isScalar
  | .seq _ first second => first.isScalar && second.isScalar
  | _ => false

/-- Programs without functions whose main body is scalar. -/
def Program.isScalar (p : Program) : Bool := p.functions.isEmpty && p.body.isScalar

end ArmCompiler
