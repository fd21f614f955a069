import ArmCompiler.Proofs.Renaming.Syntax

/-!
# Renaming Variables: Checking

Where a renaming keeps different names different, the check of a renamed program *mirrors* the check
of the program: it notes problems at the same positions, and leaves the renamed table. The problems
may be others, as they name variables, and as a variable may now have the name of a function.

## Contents
- §1: mirrored reports
- §2: expressions, targets and right sides
- §3: statements
- §4: functions and programs
-/

namespace ArmCompiler

open Report

/-! ## §1 Mirrored reports -/

namespace Report

variable {α β : Type} {f : α → α} {g : β → β}

/-- A report that mirrors another notes problems at the same positions. A function relates the two
values. -/
structure Mirrors (r : Report α) (f : α → α) (r' : Report α) : Prop where
  value : r'.value = f r.value
  spans : r'.diagnostics.map (·.span) = r.diagnostics.map (·.span)

namespace Mirrors

theorem refl (r : Report α) : r.Mirrors id r := ⟨rfl, rfl⟩

theorem pure (a : α) : (Pure.pure a : Report α).Mirrors f (Pure.pure (f a)) := ⟨rfl, rfl⟩

theorem bind {r r' : Report α} {next next' : α → Report β} (h : r.Mirrors f r')
    (hnext : ∀ a, (next a).Mirrors g (next' (f a))) : (r >>= next).Mirrors g (r' >>= next') where
  value := by
    rw [value_bind, value_bind, h.value]
    exact (hnext r.value).value
  spans := by
    simp only [diagnostics_bind, List.map_append, h.spans, h.value, (hnext r.value).spans]

theorem andThen {r r' : Report α} {next next' : Report β} (h : r.Mirrors f r')
    (hnext : next.Mirrors g next') : (r >>= fun _ => next).Mirrors g (r' >>= fun _ => next') :=
  h.bind fun _ => hnext

theorem note (problem problem' : Problem) (span : Span) :
    (Report.note problem span).Mirrors id (Report.note problem' span) := ⟨rfl, rfl⟩

/-- What is noted where nothing was noted, and nowhere else. -/
theorem clean_iff {r r' : Report α} (h : r.Mirrors f r') :
    r'.diagnostics = [] ↔ r.diagnostics = [] := by
  rw [← List.map_eq_nil_iff, h.spans, List.map_eq_nil_iff]

end Mirrors

/-- Checks in a row mirror each other if each of them does. -/
theorem mirrors_foldlM {γ δ : Type} {check : α → γ → Report α} {check' : α → δ → Report α}
    {h : γ → δ} (hcheck : ∀ a c, (check a c).Mirrors f (check' (f a) (h c))) (list : List γ)
    (a : α) : (list.foldlM check a).Mirrors f ((list.map h).foldlM check' (f a)) := by
  induction list generalizing a with
  | nil => exact .pure a
  | cons c rest ih =>
    rw [List.map_cons, List.foldlM_cons, List.foldlM_cons]
    exact (hcheck a c).bind ih

end Report

section Mirrors

variable {ρ : String → String}

/-! ## §2 Expressions, targets and right sides -/

/-- A variable is used with the same type. If nothing has its name, that is noted either way. -/
theorem SymbolTable.useVariable_mirrors (hρ : ρ.Injective) (table : SymbolTable) (name : String)
    (span : Span) :
    (table.useVariable name span).Mirrors id ((table.rename ρ).useVariable (ρ name) span) := by
  unfold useVariable
  rw [typeOf?_rename hρ]
  cases table.typeOf? name with
  | some ty => exact .pure ty
  | none =>
    apply Mirrors.andThen (.note _ _ span)
    exact .pure Ty.invalid

mutual

theorem Expr.check_mirrors (hρ : ρ.Injective) (table : SymbolTable) : (e : Expr) →
    (e.check table).Mirrors id ((e.rename ρ).check (table.rename ρ))
  | .int .. | .bool .. | .char .. | .str .. | .null .. => by
    simp only [Expr.rename]
    exact .refl _
  | .ident span name => by
    simp only [Expr.rename, Expr.check]
    exact table.useVariable_mirrors hρ name span
  | .elem span name indices => by
    simp only [Expr.rename, Expr.check, length_renameAll]
    apply Mirrors.bind (table.useVariable_mirrors hρ name span)
    intro array
    apply Mirrors.andThen (checkIndices_mirrors hρ table indices)
    exact .refl _
  | .unary span op operand => by
    simp only [Expr.rename, Expr.check]
    apply Mirrors.bind (operand.check_mirrors hρ table)
    intro ty
    exact .refl _
  | .binary span op lhs rhs => by
    simp only [Expr.rename, Expr.check, Expr.span_rename]
    apply Mirrors.bind (lhs.check_mirrors hρ table)
    intro lhsTy
    apply Mirrors.bind (rhs.check_mirrors hρ table)
    intro rhsTy
    exact .refl _

theorem checkIndices_mirrors (hρ : ρ.Injective) (table : SymbolTable) : (indices : List Expr) →
    (checkIndices table indices).Mirrors id (checkIndices (table.rename ρ) (renameAll ρ indices))
  | [] => .refl _
  | index :: rest => by
    simp only [renameAll, checkIndices, Expr.span_rename]
    apply Mirrors.bind (index.check_mirrors hρ table)
    intro ty
    apply Mirrors.andThen (.refl _)
    exact checkIndices_mirrors hρ table rest

end

theorem checkCondition_mirrors (hρ : ρ.Injective) (table : SymbolTable) (cond : Expr) :
    (checkCondition table cond).Mirrors id (checkCondition (table.rename ρ) (cond.rename ρ)) := by
  simp only [checkCondition, Expr.span_rename]
  apply Mirrors.bind (cond.check_mirrors hρ table)
  intro ty
  exact .refl _

theorem Target.check_mirrors (hρ : ρ.Injective) (table : SymbolTable) (span : Span)
    (target : Target) :
    (target.check table span).Mirrors id ((target.rename ρ).check (table.rename ρ) span) := by
  cases target with
  | ident name => exact table.useVariable_mirrors hρ name span
  | elem name indices =>
    simp only [rename, check, length_renameAll]
    apply Mirrors.bind (table.useVariable_mirrors hρ name span)
    intro array
    apply Mirrors.andThen (checkIndices_mirrors hρ table indices)
    exact .refl _
  | side which pair =>
    apply Mirrors.bind (pair.check_mirrors hρ table)
    intro ty
    exact .refl _

theorem checkElements_mirrors (hρ : ρ.Injective) (table : SymbolTable) (first : Ty)
    (elems : List Expr) :
    (checkElements table first elems).Mirrors id
      (checkElements (table.rename ρ) first (renameAll ρ elems)) := by
  induction elems with
  | nil => exact .refl _
  | cons elem rest ih =>
    simp only [renameAll, checkElements, Expr.span_rename]
    apply Mirrors.bind (elem.check_mirrors hρ table)
    intro ty
    apply Mirrors.andThen (.refl _)
    exact ih

theorem checkArgs_mirrors (hρ : ρ.Injective) (table : SymbolTable) (params : List Param)
    (args : List Expr) :
    (checkArgs table params args).Mirrors id
      (checkArgs (table.rename ρ) (params.map (·.rename ρ)) (renameAll ρ args)) := by
  induction args generalizing params with
  | nil => cases params <;> exact .refl _
  | cons arg rest ih =>
    cases params with
    | nil =>
      simp only [renameAll, List.map_nil, checkArgs]
      apply Mirrors.andThen (arg.check_mirrors hρ table)
      exact ih []
    | cons param params =>
      simp only [renameAll, List.map_cons, checkArgs, Expr.span_rename]
      apply Mirrors.bind (arg.check_mirrors hρ table)
      intro ty
      apply Mirrors.andThen (.refl _)
      exact ih params

theorem Rhs.check_mirrors (hρ : ρ.Injective) (table : SymbolTable) (span : Span) (rhs : Rhs) :
    (rhs.check table span).Mirrors id ((rhs.rename ρ).check (table.rename ρ) span) := by
  cases rhs with
  | expr e => exact e.check_mirrors hρ table
  | array elems =>
    cases elems with
    | nil => exact .refl _
    | cons first rest =>
      simp only [rename, renameAll, check]
      apply Mirrors.bind (first.check_mirrors hρ table)
      intro ty
      apply Mirrors.andThen (checkElements_mirrors hρ table ty rest)
      exact .refl _
  | newPair fst snd =>
    apply Mirrors.bind (fst.check_mirrors hρ table)
    intro fstTy
    apply Mirrors.bind (snd.check_mirrors hρ table)
    intro sndTy
    exact .refl _
  | side which pair =>
    apply Mirrors.bind (pair.check_mirrors hρ table)
    intro ty
    exact .refl _
  | call name args =>
    -- A function is looked up apart from the variables, so a variable of its name is no obstacle.
    simp only [rename, check, SymbolTable.function?_rename]
    cases table.function? name with
    | none =>
      apply Mirrors.andThen (.refl _)
      apply Mirrors.andThen (checkArgs_mirrors hρ table [] args)
      exact .refl _
    | some signature =>
      simp only [Option.map_some, Signature.rename, length_renameAll, List.length_map]
      apply Mirrors.andThen (.refl _)
      apply Mirrors.andThen (checkArgs_mirrors hρ table signature.params args)
      exact .refl _

/-! ## §3 Statements -/

/-- What a check leaves, with the table renamed. -/
def renameChecked (ρ : String → String) (checked : Option Ty × SymbolTable) :
    Option Ty × SymbolTable :=
  (checked.1, checked.2.rename ρ)

theorem SymbolTable.scoped_mirrors {check check' : SymbolTable → Checked}
    (h : ∀ table, (check table).Mirrors (renameChecked ρ) (check' (table.rename ρ)))
    (table : SymbolTable) :
    (table.scoped check).Mirrors (renameChecked ρ) ((table.rename ρ).scoped check') := by
  apply Mirrors.bind (h table.openScope)
  rintro ⟨ty, inner⟩
  show (Pure.pure (ty, inner.closeScope) : Checked).Mirrors _
    (Pure.pure (ty, (inner.rename ρ).closeScope))
  rw [rename_closeScope]
  exact .pure (ty, inner.closeScope)

theorem Stmt.checkClause_mirrors (allowed : Bool) {s : Stmt}
    (h : ∀ table, (s.check table).Mirrors (renameChecked ρ) ((s.rename ρ).check (table.rename ρ)))
    (table : SymbolTable) :
    (checkClause allowed s table).Mirrors (SymbolTable.rename ρ)
      (checkClause allowed (s.rename ρ) (table.rename ρ)) := by
  cases allowed with
  | true =>
    apply Mirrors.bind (h table)
    rintro ⟨_, table⟩
    exact .pure table
  | false =>
    simp only [checkClause, span_rename]
    apply Mirrors.andThen (.refl _)
    exact .pure table

theorem Stmt.check_mirrors (hρ : ρ.Injective) (s : Stmt) (table : SymbolTable) :
    (s.check table).Mirrors (renameChecked ρ) ((s.rename ρ).check (table.rename ρ)) := by
  -- A statement that leaves the table as it is.
  have leave (table : SymbolTable) (ty : Option Ty) :
      (Pure.pure (ty, table) : Checked).Mirrors (renameChecked ρ)
        (Pure.pure (ty, table.rename ρ)) :=
    .pure (ty, table)
  -- By induction on the statement, for all tables, as a statement is checked in the table that the
  -- one before it leaves.
  induction s generalizing table with
  | skip span => exact leave table none
  | declare span ty name rhs =>
    -- Two declarations of a scope clash under the new names if and only if they did before.
    simp only [rename, check, SymbolTable.addVariable?_rename hρ]
    apply Mirrors.bind (rhs.check_mirrors hρ table span)
    intro actual
    apply Mirrors.andThen (.refl _)
    cases table.addVariable? name ty with
    | some added => exact leave added none
    | none =>
      apply Mirrors.andThen (.note _ _ span)
      exact leave table none
  | assign span target rhs =>
    apply Mirrors.bind (target.check_mirrors hρ table span)
    intro expected
    apply Mirrors.bind (rhs.check_mirrors hρ table span)
    intro actual
    apply Mirrors.andThen (.refl _)
    exact leave table none
  | increment span name =>
    simp only [rename, check, SymbolTable.typeOf?_rename hρ]
    cases table.typeOf? name with
    | some ty =>
      apply Mirrors.andThen (.refl _)
      exact leave table none
    | none =>
      apply Mirrors.andThen (.note _ _ span)
      exact leave table none
  | read span target =>
    apply Mirrors.bind (target.check_mirrors hρ table span)
    intro ty
    apply Mirrors.andThen (.refl _)
    exact leave table none
  | free span e | exit span e | print span e | println span e =>
    simp only [rename, check, Expr.span_rename]
    apply Mirrors.bind (e.check_mirrors hρ table)
    intro ty
    apply Mirrors.andThen (.refl _)
    exact leave table _
  | ret span e =>
    apply Mirrors.bind (e.check_mirrors hρ table)
    intro ty
    exact leave table (some ty)
  | ifThen span cond arm ih | whileDo span cond arm ih =>
    apply Mirrors.andThen (checkCondition_mirrors hρ table cond)
    exact SymbolTable.scoped_mirrors ih table
  | ifElse span cond thenArm elseArm ihThen ihElse =>
    apply Mirrors.andThen (checkCondition_mirrors hρ table cond)
    apply Mirrors.bind (SymbolTable.scoped_mirrors ihThen table)
    rintro ⟨thenTy, table⟩
    apply Mirrors.bind (SymbolTable.scoped_mirrors ihElse table)
    rintro ⟨elseTy, table⟩
    exact leave table _
  | doWhile span body cond ih =>
    apply Mirrors.bind (SymbolTable.scoped_mirrors ih table)
    rintro ⟨ty, table⟩
    apply Mirrors.andThen (checkCondition_mirrors hρ table cond)
    exact leave table ty
  | forLoop span init cond step body ihInit ihStep ihBody =>
    rw [rename, check_forLoop, check_forLoop]
    apply SymbolTable.scoped_mirrors
    intro table
    rw [checkFor_eq, checkFor_eq, isForInit_rename, isForStep_rename]
    apply Mirrors.bind (checkClause_mirrors _ ihInit table)
    intro table
    apply Mirrors.andThen (checkCondition_mirrors hρ table cond)
    apply Mirrors.bind (checkClause_mirrors _ ihStep table)
    intro table
    exact SymbolTable.scoped_mirrors ihBody table
  | block span body ih => exact SymbolTable.scoped_mirrors ih table
  | seq span first second ihFirst ihSecond =>
    simp only [rename, check, isReturn_rename, span_rename]
    apply Mirrors.bind (ihFirst table)
    rintro ⟨ty, table⟩
    cases first.isReturn with
    | true =>
      apply Mirrors.andThen (.note _ _ _)
      exact leave table ty
    | false => exact ihSecond table

/-! ## §4 Functions and programs -/

theorem Function.declare_mirrors (table : SymbolTable) (f : Function) :
    (f.declare table).Mirrors (SymbolTable.rename ρ) ((f.rename ρ).declare (table.rename ρ)) := by
  have hadd : (table.rename ρ).addFunction? (f.rename ρ).signature =
      (table.addFunction? f.signature).map (·.rename ρ) :=
    table.addFunction?_rename f.signature
  simp only [declare, hadd]
  cases table.addFunction? f.signature with
  | some added => exact .pure added
  | none =>
    apply Mirrors.andThen (.note _ _ _)
    exact .pure table

theorem Function.noteClashes_mirrors (f : Function) (clashes : List String) :
    (f.noteClashes clashes).Mirrors id ((f.rename ρ).noteClashes (clashes.map ρ)) := by
  induction clashes with
  | nil => exact .refl _
  | cons name rest ih =>
    apply Mirrors.andThen (.note _ _ _)
    exact ih

theorem Function.check_mirrors (hρ : ρ.Injective) (table : SymbolTable) (f : Function) :
    (f.check table).Mirrors (SymbolTable.rename ρ) ((f.rename ρ).check (table.rename ρ)) := by
  have henter : (table.rename ρ).openScope.enterFunction (f.rename ρ).name =
      ((table.openScope.enterFunction f.name).1.map ρ,
        (table.openScope.enterFunction f.name).2.rename ρ) :=
    SymbolTable.enterFunction_rename hρ table.openScope f.name
  rw [check, check, henter]
  apply Mirrors.andThen (f.noteClashes_mirrors _)
  apply Mirrors.bind (f.body.check_mirrors hρ _)
  rintro ⟨returned, inner⟩
  apply Mirrors.andThen (.refl _)
  show (Pure.pure inner.closeScope.leaveFunction : Report SymbolTable).Mirrors _
    (Pure.pure (inner.rename ρ).closeScope.leaveFunction)
  rw [SymbolTable.rename_closeScope]
  exact .pure inner.closeScope.leaveFunction

/-- The check of a renamed program notes problems at the same positions as the check of the program,
and leaves the renamed table. -/
theorem Program.check_mirrors (hρ : ρ.Injective) (p : Program) :
    p.check.Mirrors (SymbolTable.rename ρ) (p.rename ρ).check := by
  apply Mirrors.bind (mirrors_foldlM Function.declare_mirrors p.functions {})
  intro table
  apply Mirrors.bind (mirrors_foldlM (Function.check_mirrors hρ) p.functions table)
  intro table
  apply Mirrors.bind (p.body.check_mirrors hρ table)
  rintro ⟨_, table⟩
  exact .pure table

end Mirrors

end ArmCompiler
