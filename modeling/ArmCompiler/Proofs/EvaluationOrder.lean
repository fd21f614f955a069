import ArmCompiler.Proofs.Visits

/-!
# The Order of Evaluation

Siblings are evaluated by falling weight. This module says what that order is and what it is good
for. It is the one arrangement of the siblings in which weights fall and siblings of equal weight
stay as they were written; and no other way of ordering the operands of an expression, not even one
that decides anew at each operator, gets by with fewer registers. Main statements:
`evaluationOrder_eq_iff` and `Expr.heavier_first_optimal`.

## Contents
- §1: the stable arrangement
- §2: choices of an order
- §3: the peak of a choice
- §4: the choice of the heavier operand
-/

namespace ArmCompiler

/-! ## §1 The stable arrangement -/

/-- The weight of the expression at a position, zero where there is none. -/
def weightAt (exprs : List Expr) (i : Nat) : Nat := (exprs[i]?.map Expr.weight).getD 0

/-- The position `i` is evaluated before the position `j`. -/
def Precedes (exprs : List Expr) (i j : Nat) : Prop :=
  weightAt exprs j < weightAt exprs i ∨ weightAt exprs j = weightAt exprs i ∧ i ≤ j

theorem Precedes.antisymm {exprs : List Expr} {i j : Nat} (h : Precedes exprs i j)
    (h' : Precedes exprs j i) : i = j := by
  unfold Precedes at h h'
  omega

theorem weightAt_of_mem {exprs : List Expr} {entry : Expr × Nat} (h : entry ∈ exprs.zipIdx) :
    weightAt exprs entry.2 = entry.1.weight := by
  rw [weightAt, List.mem_zipIdx_iff_getElem?.1 h]
  rfl

/-- Every position is evaluated once. -/
theorem evaluationOrder_perm (exprs : List Expr) :
    (evaluationOrder exprs).Perm (List.range exprs.length) := by
  have hsorted := (exprs.zipIdx.mergeSort_perm fun a b => b.1.weight ≤ a.1.weight).map Prod.snd
  rwa [List.zipIdx_map_snd, ← List.range_eq_range'] at hsorted

/-- Sorting numbers the numbered expressions once more, to break ties. An expression gets the same
number both times. -/
theorem number_eq_of_mem {exprs : List Expr} {entry : (Expr × Nat) × Nat}
    (h : entry ∈ exprs.zipIdx.zipIdx) : entry.1.2 = entry.2 := by
  have hentry := List.mem_zipIdx_iff_getElem?.1 h
  simp only [List.getElem?_zipIdx, Option.map_eq_some_iff] at hentry
  obtain ⟨e, _, hsame⟩ := hentry
  rw [← hsame]
  exact Nat.zero_add _

/-- Of two positions the one that comes first precedes the other. -/
theorem evaluationOrder_pairwise (exprs : List Expr) :
    (evaluationOrder exprs).Pairwise (Precedes exprs) := by
  -- A stable sort is a sort with ties broken by position.
  rw [evaluationOrder, ← List.mergeSort_zipIdx, List.map_map, List.pairwise_map]
  refine (List.pairwise_mergeSort (List.zipIdxLE_trans ?_) (List.zipIdxLE_total ?_) _).imp_of_mem ?_
  · intro a b c hab hbc
    simp only [decide_eq_true_eq] at hab hbc ⊢
    exact Nat.le_trans hbc hab
  · intro a b
    simp only [Bool.or_eq_true, decide_eq_true_eq]
    exact Nat.le_total _ _
  · intro a b ha hb hle
    replace ha := List.mem_mergeSort.1 ha
    replace hb := List.mem_mergeSort.1 hb
    have hwa := weightAt_of_mem (List.fst_mem_of_mem_zipIdx ha)
    have hwb := weightAt_of_mem (List.fst_mem_of_mem_zipIdx hb)
    have hia := number_eq_of_mem ha
    have hib := number_eq_of_mem hb
    simp only [List.zipIdxLE, decide_eq_true_eq] at hle
    simp only [Precedes, Function.comp_apply, hwa, hwb]
    split at hle
    · split at hle
      · simp only [decide_eq_true_eq] at hle
        omega
      · omega
    · cases hle

/-- The evaluation order is the stable arrangement of the positions by falling weight: it arranges
all positions so that weights never rise and positions of equal weight stay in their order, and no
other list of numbers does. -/
theorem evaluationOrder_eq_iff (exprs : List Expr) (order : List Nat) :
    order = evaluationOrder exprs ↔
      order.Perm (List.range exprs.length) ∧
      order.Pairwise (fun i j => weightAt exprs j ≤ weightAt exprs i) ∧
      order.Pairwise (fun i j => weightAt exprs i = weightAt exprs j → i < j) := by
  constructor
  · rintro rfl
    have hperm := evaluationOrder_perm exprs
    have hnodup : (evaluationOrder exprs).Nodup := hperm.nodup_iff.2 List.nodup_range
    have hboth := (evaluationOrder_pairwise exprs).and hnodup
    refine ⟨hperm, hboth.imp ?_, hboth.imp ?_⟩
    · rintro i j ⟨hprecedes, _⟩
      unfold Precedes at hprecedes
      omega
    · rintro i j ⟨hprecedes, hne⟩ hsame
      unfold Precedes at hprecedes
      omega
  · rintro ⟨hperm, hfalling, hstable⟩
    have hprecedes : order.Pairwise (Precedes exprs) := by
      refine (hfalling.and hstable).imp ?_
      rintro i j ⟨hle, hties⟩
      unfold Precedes
      omega
    -- Two positions that precede each other are one, so the arrangement has no freedom left.
    exact (hperm.trans (evaluationOrder_perm exprs).symm).eq_of_pairwise
      (fun _ _ _ _ => Precedes.antisymm) hprecedes (evaluationOrder_pairwise exprs)

/-! ## §2 Choices of an order -/

/-- For each node of an expression, whether its left operand is evaluated first. At a node that is
not an operator on two operands there is nothing to choose. -/
abbrev OrderChoice := Path → Bool

namespace OrderChoice

/-- The choices in one part of a node. -/
def under (choice : OrderChoice) (i : Nat) : OrderChoice := fun path => choice (i :: path)

/-- A choice for a node put together with choices for its parts. -/
def node (own : Bool) (parts : List OrderChoice) : OrderChoice
  | [] => own
  | i :: path =>
    match parts[i]? with
    | some part => part path
    | none => true

theorem under_node {own : Bool} {parts : List OrderChoice} {i : Nat} {part : OrderChoice}
    (h : parts[i]? = some part) : (node own parts).under i = part := by
  funext path
  simp [under, node, h]

end OrderChoice

/-! ## §3 The peak of a choice -/

/-- The registers that two operands need one after the other. The value of the first is kept while
the second is evaluated. -/
def peakInOrder (leftFirst : Bool) (l r : Nat) : Nat :=
  if leftFirst then max l (1 + r) else max r (1 + l)

mutual

/-- The largest number of registers in use at once, when each operator evaluates its operands in
the chosen order. -/
def Expr.peak : OrderChoice → Expr → Nat
  | choice, .unary _ _ operand => operand.peak (choice.under 0)
  | choice, .binary _ _ lhs rhs =>
    peakInOrder (choice []) (lhs.peak (choice.under 0)) (rhs.peak (choice.under 1))
  -- The array is kept while each index is evaluated.
  | choice, .elem _ _ indices => 1 + maxPeak (choice.under 0) indices
  | _, .int .. | _, .bool .. | _, .char .. | _, .str .. | _, .null .. | _, .ident .. => 1

/-- The largest peak in a list, zero if it is empty. -/
def maxPeak : OrderChoice → List Expr → Nat
  | _, [] => 0
  | choice, e :: rest => max (e.peak (choice.under 0)) (maxPeak (choice.under 1) rest)

end

/-- Neither order of two operands gets by with less than their weights together. -/
theorem combinedWeight_le_peakInOrder {l r peakL peakR : Nat} (hl : l ≤ peakL) (hr : r ≤ peakR)
    (leftFirst : Bool) : combinedWeight l r ≤ peakInOrder leftFirst peakL peakR := by
  unfold combinedWeight peakInOrder
  -- Operands of equal weight cost one more whichever goes first, all others at least the larger.
  split <;> split <;> omega

/-- With the heavier operand first, two operands need no more than their weights together. -/
theorem peakInOrder_heavier (l r : Nat) : peakInOrder (r ≤ l) l r = combinedWeight l r := by
  unfold combinedWeight peakInOrder
  by_cases hle : r ≤ l
  · simp only [hle, decide_true, if_true]
    split <;> omega
  · simp only [hle, decide_false, Bool.false_eq_true, if_false]
    split <;> omega

mutual

/-- No choice has a peak below the weight. -/
theorem Expr.weight_le_peak : (e : Expr) → (choice : OrderChoice) → e.weight ≤ e.peak choice
  | .unary _ _ operand, choice => by
    simp only [Expr.weight, Expr.peak]
    exact operand.weight_le_peak _
  | .binary _ _ lhs rhs, choice => by
    simp only [Expr.weight, Expr.peak]
    exact combinedWeight_le_peakInOrder (lhs.weight_le_peak _) (rhs.weight_le_peak _) _
  | .elem _ _ indices, choice => by
    simp only [Expr.weight, Expr.peak]
    exact Nat.add_le_add_left (maxWeight_le_maxPeak indices _) 1
  | .int .., _ | .bool .., _ | .char .., _ | .str .., _ | .null .., _ | .ident .., _ => by
    simp only [Expr.weight, Expr.peak, Nat.le_refl]

theorem maxWeight_le_maxPeak : (exprs : List Expr) → (choice : OrderChoice) →
    maxWeight exprs ≤ maxPeak choice exprs
  | [], _ => by simp only [maxWeight, maxPeak, Nat.le_refl]
  | e :: rest, choice => by
    have hfirst := e.weight_le_peak (choice.under 0)
    have hrest := maxWeight_le_maxPeak rest (choice.under 1)
    simp only [maxWeight, maxPeak]
    omega

end

/-! ## §4 The choice of the heavier operand -/

mutual

/-- The choice that the evaluation order makes: the left operand goes first if it comes first among
the two. -/
def Expr.evaluationChoice : Expr → OrderChoice
  | .unary _ _ operand => .node true [operand.evaluationChoice]
  | .binary _ _ lhs rhs =>
    .node ((evaluationOrder [lhs, rhs]).head? = some 0)
      [lhs.evaluationChoice, rhs.evaluationChoice]
  | .elem _ _ indices => .node true [evaluationChoices indices]
  | .int .. | .bool .. | .char .. | .str .. | .null .. | .ident .. => .node true []

def evaluationChoices : List Expr → OrderChoice
  | [] => .node true []
  | e :: rest => .node true [e.evaluationChoice, evaluationChoices rest]

end

theorem head_evaluationOrder_pair (lhs rhs : Expr) :
    decide ((evaluationOrder [lhs, rhs]).head? = some 0) = leftFirst lhs rhs := by
  rw [evaluationOrder_pair]
  cases leftFirst lhs rhs <;> rfl

mutual

/-- The choice of the evaluation order has the weight as its peak. -/
theorem Expr.peak_evaluationChoice : (e : Expr) → e.peak e.evaluationChoice = e.weight
  | .unary _ _ operand => by
    simp only [Expr.peak, Expr.evaluationChoice, Expr.weight]
    rw [OrderChoice.under_node rfl, operand.peak_evaluationChoice]
  | .binary _ _ lhs rhs => by
    simp only [Expr.peak, Expr.evaluationChoice, Expr.weight]
    rw [OrderChoice.under_node rfl, OrderChoice.under_node rfl, lhs.peak_evaluationChoice,
      rhs.peak_evaluationChoice, OrderChoice.node, head_evaluationOrder_pair]
    exact peakInOrder_heavier _ _
  | .elem _ _ indices => by
    simp only [Expr.peak, Expr.evaluationChoice, Expr.weight]
    rw [OrderChoice.under_node rfl, maxPeak_evaluationChoices indices]
  | .int .. | .bool .. | .char .. | .str .. | .null .. | .ident .. => by
    simp only [Expr.peak, Expr.weight]

theorem maxPeak_evaluationChoices : (exprs : List Expr) →
    maxPeak (evaluationChoices exprs) exprs = maxWeight exprs
  | [] => by simp only [maxPeak, maxWeight]
  | e :: rest => by
    simp only [maxPeak, evaluationChoices, maxWeight]
    rw [OrderChoice.under_node rfl, OrderChoice.under_node rfl, e.peak_evaluationChoice,
      maxPeak_evaluationChoices rest]

end

/-- Evaluating the heavier operand first is optimal. Whichever operand is chosen to go first at each
operator, an expression needs at least as many registers as it weighs; and with the choice that the
evaluation order makes it needs exactly that many. -/
theorem Expr.heavier_first_optimal (e : Expr) :
    (∀ choice : OrderChoice, e.weight ≤ e.peak choice) ∧ e.peak e.evaluationChoice = e.weight :=
  ⟨e.weight_le_peak, e.peak_evaluationChoice⟩

/-- In `a + (b + c)` the order as written takes a register more than the heavier operand first. -/
example :
    let e : Expr := .binary {} .add (.ident {} "a")
      (.binary {} .add (.ident {} "b") (.ident {} "c"))
    e.weight = 2 ∧ e.peak (fun _ => true) = 3 := by
  decide

end ArmCompiler
