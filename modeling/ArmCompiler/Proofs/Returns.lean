import ArmCompiler.Proofs.CheckedPrograms

/-!
# Which Returns Are Checked

The type that a return hands back is not compared where the return stands. Checking a statement
hands one type upward, and the function compares the type that reaches it. On the way types are
lost: a sequence hands on what its second half returns, and a conditional hands on what its first
arm returns, which may be a pair that says less about its sides than the second arm does. A return
that is lost may hand back a value of any type. Main statement: `Program.returns_agree_iff`.

## Contents
- §1: returns and lost returns
- §2: comparisons that cover others
- §3: returns that are not lost
- §4: programs
-/

namespace ArmCompiler

open Report

/-! ## §1 Returns and lost returns -/

/-- The types that the returns inside a statement hand back, as they are found where the returns
stand. -/
def Stmt.returnTypes : Stmt → SymbolTable → List Ty
  | .ret _ e, table => [(e.check table).value]
  | .ifThen _ _ body, table | .whileDo _ _ body, table | .doWhile _ body _, table
  | .block _ body, table => body.returnTypes table.openScope
  | .ifElse _ _ thenArm elseArm, table =>
    thenArm.returnTypes table.openScope ++ elseArm.returnTypes table.openScope
  | .forLoop _ init _ step body, table =>
    let inner := (init.check table.openScope).value.2
    init.returnTypes table.openScope ++ step.returnTypes inner ++
      body.returnTypes (step.check inner).value.2.openScope
  | .seq _ first second, table =>
    first.returnTypes table ++ second.returnTypes (first.check table).value.2
  | .skip .., _ | .declare .., _ | .assign .., _ | .increment .., _ | .read .., _ | .free .., _
  | .exit .., _ | .print .., _ | .println .., _ => []

/-- A comparison with `a` covers one with `b`: whatever agrees with `a` agrees with `b`. -/
def Ty.Covers (a b : Ty) : Prop :=
  ∀ d : Ty, d.agrees a → d.agrees b

/-- A return inside a statement hands back type `ty`, and the type that checking the statement
hands upward says nothing about it. -/
def Stmt.Loses : Stmt → SymbolTable → Ty → Prop
  | .ifThen _ _ body, table, ty | .whileDo _ _ body, table, ty | .doWhile _ body _, table, ty
  | .block _ body, table, ty => body.Loses table.openScope ty
  | .ifElse _ _ thenArm elseArm, table, ty =>
    thenArm.Loses table.openScope ty ∨ elseArm.Loses table.openScope ty ∨
      -- The type of the first arm stands for both, unless it is the wildcard.
      ty ∈ elseArm.returnTypes table.openScope ∧
        ∃ a, (thenArm.check table.openScope).value.1 = some a ∧ ¬ a.isAny ∧ ¬ a.Covers ty
  | .forLoop _ init _ step body, table, ty =>
    body.Loses (step.check (init.check table.openScope).value.2).value.2.openScope ty
  | .seq _ first second, table, ty =>
    -- Only the second half hands a type on.
    ty ∈ first.returnTypes table ∨ second.Loses (first.check table).value.2 ty
  | .skip .., _, _ | .declare .., _, _ | .assign .., _, _ | .increment .., _, _ | .read .., _, _
  | .free .., _, _ | .ret .., _, _ | .exit .., _, _ | .print .., _, _ | .println .., _, _ => False

/-- What is lost was returned. -/
theorem Stmt.Loses.mem_returnTypes {s : Stmt} {table : SymbolTable} {ty : Ty}
    (h : s.Loses table ty) : ty ∈ s.returnTypes table := by
  induction s generalizing table with
  | skip | declare | assign | increment | read | free | ret | exit | print | println => cases h
  | ifThen span cond body ih | whileDo span cond body ih | block span body ih => exact ih h
  | doWhile span body cond ih => exact ih h
  | ifElse span cond thenArm elseArm ihThen ihElse =>
    rw [returnTypes, List.mem_append]
    rcases h with h | h | ⟨h, _⟩
    · exact .inl (ihThen h)
    · exact .inr (ihElse h)
    · exact .inr h
  | forLoop span init cond step body _ _ ihBody => exact List.mem_append_right _ (ihBody h)
  | seq span first second _ ihSecond =>
    rw [returnTypes, List.mem_append]
    exact h.imp_right ihSecond

/-! ## §2 Comparisons that cover others -/

namespace Ty

variable {a b c : Ty}

theorem isValid_of_agrees (h : a.agrees b) : a.isValid ∧ b.isValid := by
  simp only [agrees, Bool.and_eq_true] at h
  exact h.1

theorem Covers.refl (a : Ty) : a.Covers a := fun _ h => h

theorem Covers.of_invalid (h : ¬ a.isValid) : a.Covers b :=
  fun _ hagrees => absurd (isValid_of_agrees hagrees).2 h

/-- Nothing is said by the wildcard, so every valid type covers what it covers. -/
theorem Covers.of_isAny (h : a.Covers c) (hany : a.isAny) (hvalid : a.isValid) : b.Covers c := by
  intro d hd
  apply h
  simp [agrees, hany, hvalid, isValid_of_agrees hd]

end Ty

/-- The common type of two arms covers what the type of the first one covers. -/
theorem commonType_covers_left {a ty : Ty} {elseTy : Option Ty} (h : a.Covers ty) :
    ∃ r, commonType (some a) elseTy = some r ∧ r.Covers ty := by
  cases elseTy with
  | none => exact ⟨_, rfl, .of_invalid (by decide)⟩
  | some b =>
    simp only [commonType]
    by_cases hagrees : a.agrees b
    · by_cases hany : a.isAny
      · exact ⟨b, by simp [hagrees, hany], h.of_isAny hany (Ty.isValid_of_agrees hagrees).1⟩
      · exact ⟨a, by simp [hagrees, hany], h⟩
    · exact ⟨.invalid, by simp [hagrees], .of_invalid (by decide)⟩

/-- The common type of two arms covers what the type of the second one covers, unless the first
arm speaks for both. -/
theorem commonType_covers_right {b ty : Ty} {thenTy : Option Ty} (h : b.Covers ty)
    (hfirst : ∀ a, thenTy = some a → ¬ a.isAny → a.Covers ty) :
    ∃ r, commonType thenTy (some b) = some r ∧ r.Covers ty := by
  cases thenTy with
  | none => exact ⟨_, rfl, .of_invalid (by decide)⟩
  | some a =>
    simp only [commonType]
    by_cases hagrees : a.agrees b
    · by_cases hany : a.isAny
      · exact ⟨b, by simp [hagrees, hany], h⟩
      · exact ⟨a, by simp [hagrees, hany], hfirst a rfl hany⟩
    · exact ⟨.invalid, by simp [hagrees], .of_invalid (by decide)⟩

/-! ## §3 Returns that are not lost -/

namespace Stmt

/-- The header of a `for` loop without a diagnostic returns nothing. -/
theorem returnTypes_of_isForInit {s : Stmt} (h : s.isForInit) (table : SymbolTable) :
    s.returnTypes table = [] := by
  cases s <;> simp_all [isForInit, returnTypes]

theorem returnTypes_of_isForStep {s : Stmt} (h : s.isForStep) (table : SymbolTable) :
    s.returnTypes table = [] := by
  cases s <;> simp_all [isForStep, returnTypes]

/-- A `for` loop without a diagnostic hands on what its body returns. -/
theorem checkFor_returns {init step body : Stmt} {cond : Expr} {table : SymbolTable}
    (h : (checkFor init cond step body table).diagnostics = []) :
    init.isForInit ∧ step.isForStep ∧
      (checkFor init cond step body table).value.1 = (body.check
        (step.check (init.check table).value.2).value.2.openScope).value.1 ∧
      (body.check (step.check (init.check table).value.2).value.2.openScope).diagnostics = [] := by
  unfold checkFor at h ⊢
  by_cases hinit : init.isForInit
  · by_cases hstep : step.isForStep
    · simp only [hinit, hstep, if_true, diagnostics_bind, diagnostics_map, value_map,
        List.append_eq_nil_iff, SymbolTable.diagnostics_scoped] at h
      simp only [hinit, hstep, if_true, value_bind, value_map]
      exact ⟨trivial, trivial, rfl, h.2.2.2⟩
    · simp [hinit, hstep, note] at h
  · simp [hinit, note] at h

/-- A return in a statement without a diagnostic is lost, or the type that is handed upward covers
the one it hands back. -/
theorem loses_or_covers (s : Stmt) {table : SymbolTable} {ty : Ty}
    (hclean : (s.check table).diagnostics = []) (hty : ty ∈ s.returnTypes table) :
    s.Loses table ty ∨ ∃ r, (s.check table).value.1 = some r ∧ r.Covers ty := by
  induction s generalizing table with
  | skip | declare | assign | increment | read | free | exit | print | println =>
    simp [returnTypes] at hty
  | ret span e =>
    obtain rfl : ty = (e.check table).value := by simpa [returnTypes] using hty
    exact .inr ⟨_, rfl, .refl _⟩
  | ifThen span cond body ih | whileDo span cond body ih =>
    simp only [check, diagnostics_bind, List.append_eq_nil_iff,
      SymbolTable.diagnostics_scoped] at hclean
    exact ih hclean.2 hty
  | doWhile span body cond ih =>
    simp only [check, diagnostics_bind, List.append_eq_nil_iff,
      SymbolTable.diagnostics_scoped] at hclean
    exact ih hclean.1 hty
  | block span body ih =>
    simp only [check, SymbolTable.diagnostics_scoped] at hclean
    exact ih hclean hty
  | ifElse span cond thenArm elseArm ihThen ihElse =>
    simp only [check, diagnostics_bind, List.append_eq_nil_iff, diagnostics_pure, and_true,
      SymbolTable.diagnostics_scoped, value_scoped_check] at hclean
    have hvalue : ((Stmt.ifElse span cond thenArm elseArm).check table).value.1 =
        commonType (thenArm.check table.openScope).value.1
          (elseArm.check table.openScope).value.1 := by
      simp only [check, value_bind, value_pure, value_scoped_check]
      rfl
    rw [hvalue]
    rw [returnTypes, List.mem_append] at hty
    rcases hty with hty | hty
    · rcases ihThen hclean.2.1 hty with hlost | ⟨a, hthen, hcovers⟩
      · exact .inl (.inl hlost)
      · rw [hthen]
        exact .inr (commonType_covers_left hcovers)
    · rcases ihElse hclean.2.2 hty with hlost | ⟨b, helse, hcovers⟩
      · exact .inl (.inr (.inl hlost))
      · rw [helse]
        -- Either the first arm's type says as much, or this return is lost here.
        by_cases hfirst : ∀ a, (thenArm.check table.openScope).value.1 = some a → ¬ a.isAny →
            a.Covers ty
        · exact .inr (commonType_covers_right hcovers hfirst)
        · push Not at hfirst
          obtain ⟨a, hthen, hany, hlost⟩ := hfirst
          exact .inl (.inr (.inr ⟨hty, a, hthen, by simpa using hany, hlost⟩))
  | forLoop span init cond step body _ _ ihBody =>
    simp only [check_forLoop, SymbolTable.diagnostics_scoped] at hclean
    obtain ⟨hinit, hstep, hvalue, hbody⟩ := checkFor_returns hclean
    simp only [returnTypes, returnTypes_of_isForInit hinit, returnTypes_of_isForStep hstep,
      List.nil_append] at hty
    rw [check_forLoop]
    refine (ihBody hbody hty).imp_right ?_
    rintro ⟨r, hr, hcovers⟩
    exact ⟨r, hvalue.trans hr, hcovers⟩
  | seq span first second _ ihSecond =>
    obtain ⟨_, hsecond, hvalue⟩ := check_seq_clean hclean
    rw [returnTypes, List.mem_append] at hty
    rcases hty with hty | hty
    -- Only the second statement of a sequence hands a type upward.
    · exact .inl (.inl hty)
    · rw [hvalue]
      exact (ihSecond hsecond hty).imp_left .inr

end Stmt

/-! ## §4 Programs -/

/-- A function about whose return nothing is noted returns a type that agrees with the declared
one. -/
theorem Function.checkReturn_clean {f : Function} {returned : Option Ty}
    (h : (f.checkReturn returned).diagnostics = []) :
    ∃ r, returned = some r ∧ f.returnType.agrees r := by
  cases returned with
  | none => simp [checkReturn, noteIf, note] at h
  | some r =>
    refine ⟨r, rfl, ?_⟩
    cases hagrees : f.returnType.agrees r with
    | true => rfl
    | false => simp [checkReturn, noteIf, note, hagrees] at h

namespace Program

/-- In a program that was checked without a diagnostic all returns of a function hand back what it
declares exactly if those do that are lost on the way up. -/
theorem returns_agree_iff {p : Program} {f : Function} (hclean : p.check.diagnostics = [])
    (hf : f ∈ p.functions) :
    (∀ ty ∈ f.body.returnTypes (p.functionTable.inFunction f), f.returnType.agrees ty) ↔
      ∀ ty, f.body.Loses (p.functionTable.inFunction f) ty → f.returnType.agrees ty := by
  have hcheck := check_clean hclean
  obtain ⟨r, hreturned, hagrees⟩ := Function.checkReturn_clean (hcheck.returns f hf)
  constructor
  · intro hall ty hlost
    exact hall ty hlost.mem_returnTypes
  · intro hlost ty hty
    rcases f.body.loses_or_covers (hcheck.functions f hf) hty with h | ⟨r', hr', hcovers⟩
    · exact hlost ty h
    · obtain rfl : r = r' := by simpa [hreturned] using hr'
      exact hcovers _ hagrees

/-- A function that declares an integer, and whose one return hands back a character. -/
def guarded : Function where
  name := "f"
  returnType := .int
  params := []
  body := .seq {} (.ifThen {} (.bool {} true) (.ret {} (.char {} 'c'))) (.exit {} (.int {} "0"))

/-- A program of this one function. -/
def guardedProgram : Program where
  functions := [guarded]
  body := .skip {}

/-- Nothing is noted about the character that is handed back. -/
theorem returns_differ_guarded : guardedProgram.check.diagnostics = [] ∧
    ¬ ∀ ty ∈ guarded.body.returnTypes (guardedProgram.functionTable.inFunction guarded),
      guarded.returnType.agrees ty := by
  have hclean : guardedProgram.check.diagnostics = [] := by decide
  refine ⟨hclean, fun hall => ?_⟩
  have hlost : guarded.body.Loses (guardedProgram.functionTable.inFunction guarded) .char :=
    .inl (by decide)
  have hagrees := (returns_agree_iff hclean (List.mem_singleton_self guarded)).1 hall .char hlost
  exact absurd hagrees (by decide)

end Program

end ArmCompiler
