import ArmCompiler.Syntax

/-!
# Register Weight and Evaluation Order

The *weight* of an expression is the number of registers its evaluation keeps in use at once,
when of two operands the heavier one is evaluated first. Siblings are evaluated in that order,
those of equal weight from left to right.
-/

namespace ArmCompiler

/-- The number of registers that two operands need together. While the second is evaluated,
the value of the first takes up one register. -/
def combinedWeight (l r : Nat) : Nat := if l = r then l + 1 else max l r

mutual

/-- The number of registers that evaluating an expression needs. -/
def Expr.weight : Expr → Nat
  | .unary _ _ operand => operand.weight
  | .binary _ _ lhs rhs => combinedWeight lhs.weight rhs.weight
  -- The array stays in a register while each index is computed.
  | .elem _ _ indices => 1 + maxWeight indices
  | .int .. | .bool .. | .char .. | .str .. | .null .. | .ident .. => 1

/-- The largest weight in a list, zero if it is empty. -/
def maxWeight : List Expr → Nat
  | [] => 0
  | e :: rest => max e.weight (maxWeight rest)

end

/-- The positions of expressions in the order they are evaluated: by falling weight, and from
left to right where weights are equal. -/
def evaluationOrder (exprs : List Expr) : List Nat :=
  (exprs.zipIdx.mergeSort fun a b => b.1.weight ≤ a.1.weight).map (·.2)

/-- Whether the first of two siblings is evaluated first. -/
def leftFirst (lhs rhs : Expr) : Bool := rhs.weight ≤ lhs.weight

/-- For two siblings the evaluation order is decided by `leftFirst`. -/
theorem evaluationOrder_pair (lhs rhs : Expr) :
    evaluationOrder [lhs, rhs] = if leftFirst lhs rhs then [0, 1] else [1, 0] := by
  by_cases h : rhs.weight ≤ lhs.weight <;>
    simp [evaluationOrder, leftFirst, List.mergeSort, List.MergeSort.Internal.splitInTwo, h]

end ArmCompiler
