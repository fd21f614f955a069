import ArmCompiler.Proofs.Agreement
import ArmCompiler.Proofs.Preservation.State

/-!
# Values of Checked Expressions

An expression over scalars that was checked without a diagnostic has a value of its type, or stops
the program with an overflow. In particular a condition is zero or one.

## Contents
- §1: scalar types
- §2: operators
- §3: expressions
-/

namespace ArmCompiler

open Literal Report

/-! ## §1 Scalar types -/

theorem Ty.eq_of_isScalar {ty : Ty} (h : ty.isScalar) : ty = .int ∨ ty = .bool ∨ ty = .char := by
  simpa [isScalar, or_assoc] using h

/-- Scalar types that agree are the same. -/
theorem expect_scalar {expected actual : Ty} {span : Span} (he : expected.isScalar)
    (ha : actual.isScalar) (h : (expect expected actual span).diagnostics = []) :
    expected = actual := by
  rcases Ty.eq_of_isScalar he with rfl | rfl | rfl <;>
    rcases Ty.eq_of_isScalar ha with rfl | rfl | rfl <;> first | rfl | cases h

theorem UnaryOp.isScalar_resultType (op : UnaryOp) : op.resultType.isScalar := by
  cases op <;> rfl

theorem BinaryOp.isScalar_resultType (op : BinaryOp) : op.resultType.isScalar := by
  cases op <;> rfl

/-! ## §2 Operators -/

/-- A result that is a value of a type or an overflow. -/
def Result.IsValue (ty : Ty) (r : Result Int) : Prop := r.Meets ty.Admits (· = .overflow)

theorem checked_isValue (n : Int) : (checked n).IsValue .int := by
  unfold checked
  split
  · rename_i hfits
    exact ⟨hfits, fun h => by cases h⟩
  · rfl

theorem Ty.admits_toInt (ty : Ty) (b : Bool) : ty.Admits b.toInt := by
  refine ⟨?_, fun _ => isBit_toInt b⟩
  cases b <;> decide

theorem UnaryOp.eval_isValue {op : UnaryOp} {n : Int} (hop : op ≠ .len) (hn : FitsWord n) :
    (op.eval n).IsValue op.resultType := by
  cases op with
  | not => exact Ty.admits_toInt _ _
  | neg => exact checked_isValue _
  | len => exact absurd rfl hop
  | ord | chr => exact ⟨hn, fun h => by cases h⟩

theorem BinaryOp.eval_isValue {op : BinaryOp} {a b : Int} (hdiv : op ≠ .div) (hmod : op ≠ .mod) :
    (op.eval a b).IsValue op.resultType := by
  cases op with
  | mul | add | sub => exact checked_isValue _
  | div => exact absurd rfl hdiv
  | mod => exact absurd rfl hmod
  | gt | ge | lt | le | eq | ne | and | or => exact Ty.admits_toInt _ _

/-- The operand of a negation is a truth value. -/
theorem UnaryOp.isBit_of_check {ty : Ty} {span : Span} {n : Int} (hty : ty.isScalar)
    (hn : ty.Admits n) (h : (UnaryOp.not.check ty span).diagnostics = []) : IsBit n := by
  simp only [UnaryOp.check, diagnostics_bind, List.append_eq_nil_iff] at h
  exact hn.2 (expect_scalar rfl hty h.1).symm

/-- The operands of a connective are truth values. -/
theorem BinaryOp.isBit_of_check {op : BinaryOp} {lhs rhs : Ty} {span span' span'' : Span}
    {a b : Int} (hop : op = .and ∨ op = .or) (hlhs : lhs.isScalar) (hrhs : rhs.isScalar)
    (ha : lhs.Admits a) (hb : rhs.Admits b)
    (h : (op.check ⟨lhs, span⟩ ⟨rhs, span'⟩ span'').diagnostics = []) : IsBit a ∧ IsBit b := by
  rcases hop with rfl | rfl <;>
    simp only [BinaryOp.check, diagnostics_bind, List.append_eq_nil_iff] at h <;>
    exact ⟨ha.2 (expect_scalar rfl hlhs h.2.1).symm, hb.2 (expect_scalar rfl hrhs h.2.2.1).symm⟩

/-! ## §3 Expressions -/

/-- A store that has a value of the right type for every variable of a table. -/
def Store.Fills (σ : Store) (table : SymbolTable) : Prop :=
  ∀ name ty, table.typeOf? name = some ty →
    ∃ v, σ.lookup name = some v ∧ ty.isScalar ∧ ty.Admits v.value

/-- A represented store fills the table that the frame matches. -/
theorem Represents.fills {top link : Word} {frame : Frame} {σ : Store} {m : Machine}
    {table : SymbolTable} (h : Represents top link frame σ m) (hmatch : Matches table frame) :
    σ.Fills table := by
  intro name ty hty
  obtain ⟨offset, hfind⟩ := hmatch.find hty
  obtain ⟨v, hv, _, hscalar, hadmits, _⟩ := h.read hfind
  exact ⟨v, hv, hscalar, hadmits⟩

/-- A checked expression over scalars has a scalar type, and a value of that type unless it
overflows. -/
theorem Expr.eval_isValue {table : SymbolTable} {σ : Store} (hfills : σ.Fills table) :
    (e : Expr) → e.isScalar → (e.check table).diagnostics = [] →
    (e.check table).value.isScalar ∧ (e.eval σ).IsValue (e.check table).value
  | .int span text, _, h => by
    unfold Expr.check at h ⊢
    cases hvalue : Literal.intValue? text with
    | none => simp [hvalue, note] at h
    | some n =>
      refine ⟨rfl, ?_⟩
      simp only [Expr.eval, hvalue]
      -- The check reads a literal only if its value fits.
      have hfits : FitsWord n := by
        unfold Literal.intValue? at hvalue
        simpa using (Option.filter_eq_some_iff.1 hvalue).2
      exact ⟨hfits, fun h => by cases h⟩
  | .bool _ value, _, _ => ⟨rfl, Ty.admits_toInt _ _⟩
  | .char _ value, _, h => by
    have hcode : value.toNat ≤ 255 := by
      simp only [Expr.check, diagnostics_bind, List.append_eq_nil_iff, noteIf, charMax] at h
      by_contra hlarge
      simp [not_le.1 hlarge, note] at h
    exact ⟨rfl, ⟨by omega, by omega⟩, fun h => by cases h⟩
  | .ident span name, _, h => by
    simp only [Expr.check] at h ⊢
    obtain ⟨v, hv, hscalar, hadmits⟩ := hfills name _ (useVariable_clean h)
    refine ⟨hscalar, ?_⟩
    simp only [Expr.eval, Store.read, hv]
    exact hadmits
  | .unary span op operand, hscalar, h => by
    simp only [Expr.isScalar, Bool.and_eq_true, decide_eq_true_eq] at hscalar
    simp only [Expr.check, diagnostics_bind, List.append_eq_nil_iff] at h
    obtain ⟨_, hoperand⟩ := operand.eval_isValue hfills hscalar.2 h.1
    simp only [Expr.check, value_bind, UnaryOp.value_check]
    refine ⟨op.isScalar_resultType, Result.meets_bind.2 ?_⟩
    exact hoperand.imp fun n hn => UnaryOp.eval_isValue hscalar.1 hn.1
  | .binary span op lhs rhs, hscalar, h => by
    simp only [Expr.isScalar, Bool.and_eq_true, decide_eq_true_eq] at hscalar
    obtain ⟨⟨⟨hdiv, hmod⟩, hl⟩, hr⟩ := hscalar
    simp only [Expr.check, diagnostics_bind, List.append_eq_nil_iff] at h
    obtain ⟨_, hlhs⟩ := lhs.eval_isValue hfills hl h.1
    obtain ⟨_, hrhs⟩ := rhs.eval_isValue hfills hr h.2.1
    simp only [Expr.check, value_bind, BinaryOp.value_check]
    refine ⟨op.isScalar_resultType, Result.meets_bind.2 ?_⟩
    refine hlhs.imp fun a _ => Result.meets_bind.2 ?_
    exact hrhs.imp fun b _ => BinaryOp.eval_isValue hdiv hmod

/-- The scalar type of a checked expression. -/
theorem Represents.isScalar_check {top link : Word} {frame : Frame} {σ : Store} {m : Machine}
    {table : SymbolTable} {e : Expr} (h : Represents top link frame σ m)
    (hmatch : Matches table frame) (hscalar : e.isScalar)
    (hclean : (e.check table).diagnostics = []) : (e.check table).value.isScalar :=
  (e.eval_isValue (h.fills hmatch) hscalar hclean).1

end ArmCompiler
