import ArmCompiler.Proofs.Inspections
import Mathlib.Data.List.Perm.Basic

/-!
# Order of Functions

A check reads the known functions only by looking a name up. So each body is checked apart from all
others, and what is noted for it depends on the body and on the signatures of the program as a set.
The diagnostics of a program are those of its functions, one after the other, and then those of its
main body. Main statement: `Program.functions_in_any_order`.

## Contents
- §1: tables with other functions
- §2: expressions, targets and right sides
- §3: statements and functions
- §4: signatures as a set
- §5: programs
-/

namespace ArmCompiler

open Report

/-! ## §1 Tables with other functions -/

/-- Each name stands for the same function in both lists. -/
def SameFunctions (known known' : List Signature) : Prop :=
  ∀ name, known.find? (fun signature => signature.name == name) =
    known'.find? fun signature => signature.name == name

namespace SymbolTable

/-- The table with other known functions. -/
def withFunctions (table : SymbolTable) (known : List Signature) : SymbolTable :=
  { table with functions := known }

variable {table : SymbolTable} {known : List Signature}

@[simp] theorem openScope_withFunctions :
    (table.withFunctions known).openScope = table.openScope.withFunctions known := rfl

@[simp] theorem typeOf?_withFunctions (name : String) :
    (table.withFunctions known).typeOf? name = table.typeOf? name := rfl

@[simp] theorem closeScope_withFunctions :
    (table.withFunctions known).closeScope = table.closeScope.withFunctions known := by
  obtain ⟨innermost, outer, functions, current⟩ := table
  cases outer <;> rfl

@[simp] theorem addVariable?_withFunctions (name : String) (ty : Ty) :
    (table.withFunctions known).addVariable? name ty =
      (table.addVariable? name ty).map (·.withFunctions known) := by
  simp only [addVariable?, withFunctions]
  cases table.innermost.lookup name <;> rfl

theorem function?_withFunctions (h : SameFunctions known table.functions) (name : String) :
    (table.withFunctions known).function? name = table.function? name :=
  h name

theorem useVariable_withFunctions (h : SameFunctions known table.functions) (name : String)
    (span : Span) :
    (table.withFunctions known).useVariable name span = table.useVariable name span := by
  have hfunction : (table.withFunctions known).isFunction name = table.isFunction name :=
    congrArg Option.isSome (function?_withFunctions h name)
  unfold useVariable
  rw [typeOf?_withFunctions, hfunction]

/-- Binding parameters does not look at the functions. -/
theorem bindParams_withFunctions (table : SymbolTable) (params : List Param) :
    (table.withFunctions known).bindParams params =
      ((table.bindParams params).1, (table.bindParams params).2.withFunctions known) := by
  induction params generalizing table with
  | nil => rfl
  | cons param rest ih =>
    simp only [bindParams, addVariable?_withFunctions]
    cases table.addVariable? param.name param.ty with
    | some added => exact ih added
    | none => simp [ih]

end SymbolTable

/-! ## §2 Expressions, targets and right sides -/

section Phrases

variable {table : SymbolTable} {known : List Signature} {span : Span}

mutual

theorem Expr.check_withFunctions (h : SameFunctions known table.functions) :
    (e : Expr) → e.check (table.withFunctions known) = e.check table
  | .int .. | .bool .. | .char .. | .str .. | .null .. => rfl
  | .ident span name => table.useVariable_withFunctions h name span
  | .elem span name indices => by
    simp only [Expr.check, SymbolTable.useVariable_withFunctions h,
      checkIndices_withFunctions h indices]
  | .unary span op operand => by
    simp only [Expr.check, operand.check_withFunctions h]
  | .binary span op lhs rhs => by
    simp only [Expr.check, lhs.check_withFunctions h, rhs.check_withFunctions h]

theorem checkIndices_withFunctions (h : SameFunctions known table.functions) :
    (indices : List Expr) →
    checkIndices (table.withFunctions known) indices = checkIndices table indices
  | [] => rfl
  | index :: rest => by
    simp only [checkIndices, index.check_withFunctions h, checkIndices_withFunctions h rest]

end

theorem Target.check_withFunctions (h : SameFunctions known table.functions) (target : Target) :
    target.check (table.withFunctions known) span = target.check table span := by
  cases target with
  | ident name => exact table.useVariable_withFunctions h name span
  | elem name indices =>
    simp only [Target.check, SymbolTable.useVariable_withFunctions h, checkIndices_withFunctions h]
  | side which pair => simp only [Target.check, pair.check_withFunctions h]

theorem checkElements_withFunctions (h : SameFunctions known table.functions) (first : Ty)
    (elems : List Expr) :
    checkElements (table.withFunctions known) first elems = checkElements table first elems := by
  induction elems with
  | nil => rfl
  | cons elem rest ih => simp only [checkElements, elem.check_withFunctions h, ih]

theorem checkArgs_withFunctions (h : SameFunctions known table.functions) (params : List Param)
    (args : List Expr) :
    checkArgs (table.withFunctions known) params args = checkArgs table params args := by
  induction args generalizing params with
  | nil => cases params <;> rfl
  | cons arg rest ih => cases params <;> simp only [checkArgs, arg.check_withFunctions h, ih]

theorem Rhs.check_withFunctions (h : SameFunctions known table.functions) (rhs : Rhs) :
    rhs.check (table.withFunctions known) span = rhs.check table span := by
  cases rhs with
  | expr e => exact e.check_withFunctions h
  | array elems =>
    cases elems with
    | nil => rfl
    | cons first rest =>
      simp only [Rhs.check, first.check_withFunctions h, checkElements_withFunctions h]
  | newPair fst snd => simp only [Rhs.check, fst.check_withFunctions h, snd.check_withFunctions h]
  | side which pair => simp only [Rhs.check, pair.check_withFunctions h]
  | call name args =>
    simp only [Rhs.check, SymbolTable.function?_withFunctions h, checkArgs_withFunctions h]

theorem checkCondition_withFunctions (h : SameFunctions known table.functions) (cond : Expr) :
    checkCondition (table.withFunctions known) cond = checkCondition table cond := by
  simp only [checkCondition, cond.check_withFunctions h]

end Phrases

/-! ## §3 Statements and functions -/

/-- The outcome of a check with other functions in the table for what follows. -/
def Checked.withFunctions (known : List Signature) (r : Checked) : Checked :=
  (fun out => (out.1, out.2.withFunctions known)) <$> r

namespace Checked

@[simp] theorem diagnostics_withFunctions (known : List Signature) (r : Checked) :
    (r.withFunctions known).diagnostics = r.diagnostics := diagnostics_map _ r

@[simp] theorem value_withFunctions (known : List Signature) (r : Checked) :
    (r.withFunctions known).value = (r.value.1, r.value.2.withFunctions known) := rfl

end Checked

section Statements

variable {table : SymbolTable} {known : List Signature}

theorem SymbolTable.scoped_withFunctions {check : SymbolTable → Checked}
    (h : check (table.openScope.withFunctions known) =
      (check table.openScope).withFunctions known) :
    (table.withFunctions known).scoped check = (table.scoped check).withFunctions known := by
  unfold SymbolTable.scoped
  rw [openScope_withFunctions, h]
  apply Report.ext <;> simp

/-- A clause of a `for` header, if checking it does not depend on where functions are found. -/
theorem Stmt.checkClause_withFunctions {clause : Stmt} {allowed : Bool}
    (h : clause.check (table.withFunctions known) = (clause.check table).withFunctions known) :
    clause.checkClause allowed (table.withFunctions known) =
      (·.withFunctions known) <$> clause.checkClause allowed table := by
  cases allowed with
  | true =>
    simp only [checkClause, h, if_true]
    apply Report.ext <;> simp
  | false => rfl

/-- Checking a statement depends on the known functions only through what is found by name. -/
theorem Stmt.check_withFunctions (s : Stmt) (h : SameFunctions known table.functions) :
    s.check (table.withFunctions known) = (s.check table).withFunctions known := by
  induction s generalizing table with
  | skip => rfl
  | declare span ty name rhs =>
    simp only [check, rhs.check_withFunctions h, SymbolTable.addVariable?_withFunctions]
    cases table.addVariable? name ty <;> apply Report.ext <;> simp
  | assign span target rhs =>
    simp only [check, target.check_withFunctions h, rhs.check_withFunctions h]
    apply Report.ext <;> simp
  | increment span name =>
    simp only [check, SymbolTable.typeOf?_withFunctions]
    cases table.typeOf? name <;> apply Report.ext <;> simp
  | read span target =>
    simp only [check, target.check_withFunctions h]
    apply Report.ext <;> simp
  | free span e | ret span e | exit span e | print span e | println span e =>
    simp only [check, e.check_withFunctions h]
    apply Report.ext <;> simp
  | ifThen span cond body ih | whileDo span cond body ih =>
    simp only [check, checkCondition_withFunctions h, SymbolTable.scoped_withFunctions (ih h)]
    apply Report.ext <;> simp
  | ifElse span cond thenArm elseArm ihThen ihElse =>
    simp only [check, checkCondition_withFunctions h, SymbolTable.scoped_withFunctions (ihThen h)]
    apply Report.ext <;>
      simp [value_scoped_check, SymbolTable.scoped_withFunctions (ihElse h)]
  | doWhile span body cond ih =>
    simp only [check, SymbolTable.scoped_withFunctions (ih h)]
    apply Report.ext <;> simp [value_scoped_check, checkCondition_withFunctions h]
  | forLoop span init cond step body ihInit ihStep ihBody =>
    have hopened : SameFunctions known table.openScope.functions := h
    rw [check_forLoop, check_forLoop]
    apply SymbolTable.scoped_withFunctions
    rw [checkFor_eq, checkFor_eq, checkClause_withFunctions (ihInit hopened)]
    -- The first clause has changed no function.
    have hinit : SameFunctions known
        (init.checkClause init.isForInit table.openScope).value.functions := by
      unfold checkClause
      split
      · rw [value_map, (init.check_extends _).functions]
        exact hopened
      · exact hopened
    generalize init.checkClause init.isForInit table.openScope = opened at hinit
    apply Report.ext <;>
      simp [value_checkClause_step, checkCondition_withFunctions hinit,
        checkClause_withFunctions (ihStep hinit), SymbolTable.scoped_withFunctions (ihBody hinit)]
  | block span body ih => exact SymbolTable.scoped_withFunctions (ih h)
  | seq span first second ihFirst ihSecond =>
    -- A statement declares no function, so the next one finds the same.
    have hafter : SameFunctions known (first.check table).value.2.functions := by
      rw [(first.check_extends table).functions]
      exact h
    simp only [check, ihFirst h]
    by_cases hreturn : first.isReturn
    · apply Report.ext <;> simp [hreturn]
    · apply Report.ext <;> simp [hreturn, ihSecond hafter]

/-- The same for the body of a function, which starts with the parameters found under its name. -/
theorem Function.diagnostics_check_withFunctions (f : Function) (table : SymbolTable)
    (h : SameFunctions known table.functions) :
    (f.check (table.withFunctions known)).diagnostics = (f.check table).diagnostics := by
  have hentry : SameFunctions known (f.entry table).functions := by
    rw [Function.entry, (table.openScope.enterFunction_extends f.name).functions]
    exact h
  have hfound : (table.openScope.withFunctions known).function? f.name =
      table.openScope.function? f.name := SymbolTable.function?_withFunctions h f.name
  have henter : (table.withFunctions known).openScope.enterFunction f.name =
      ((table.openScope.enterFunction f.name).1, (f.entry table).withFunctions known) := by
    rw [SymbolTable.openScope_withFunctions, SymbolTable.enterFunction, SymbolTable.params, hfound]
    exact SymbolTable.bindParams_withFunctions { table.openScope with current := some f.name } _
  simp only [check, henter, f.body.check_withFunctions hentry, diagnostics_bind,
    Checked.diagnostics_withFunctions, Checked.value_withFunctions]
  rfl

end Statements

/-! ## §4 Signatures as a set -/

/-- A name that is free can be declared. -/
theorem declare_distinct {functions : List Function} {table : SymbolTable}
    (hdistinct : (functions.map (·.name)).Nodup)
    (hnew : ∀ f ∈ functions, table.function? f.name = none) :
    functions.foldlM Function.declare table =
      pure (table.withFunctions (table.functions ++ functions.map (·.signature))) := by
  induction functions generalizing table with
  | nil => simp [SymbolTable.withFunctions]
  | cons f rest ih =>
    have hname : f.signature.name = f.name := rfl
    rw [List.map_cons, List.nodup_cons] at hdistinct
    obtain ⟨hfirst, hrest⟩ := List.forall_mem_cons.1 hnew
    have hadd :
        f.declare table = pure (table.withFunctions (table.functions ++ [f.signature])) := by
      simp [Function.declare, SymbolTable.addFunction?, hname, hfirst, SymbolTable.withFunctions]
    have hothers : ∀ g ∈ rest,
        (table.withFunctions (table.functions ++ [f.signature])).function? g.name = none := by
      intro g hg
      have hne : f.name ≠ g.name := fun hsame => hdistinct.1 (hsame ▸ List.mem_map_of_mem hg)
      have hnone := hrest g hg
      simp only [SymbolTable.function?, SymbolTable.withFunctions, List.find?_append,
        List.find?_singleton, hname, beq_false_of_ne hne] at hnone ⊢
      simp [hnone]
    rw [List.foldlM_cons, hadd, pure_bind, ih hdistinct.2 hothers]
    simp [SymbolTable.withFunctions]

/-- Signatures with distinct names are found alike in any list that has the same ones. -/
theorem sameFunctions_of_mem_iff {known known' : List Signature}
    (hdistinct : (known'.map (·.name)).Nodup)
    (hmem : ∀ signature, signature ∈ known ↔ signature ∈ known') : SameFunctions known known' := by
  intro name
  cases hfound : known'.find? (fun signature => signature.name == name) with
  | none =>
    rw [List.find?_eq_none] at hfound ⊢
    exact fun signature hin => hfound signature ((hmem signature).1 hin)
  | some signature =>
    have hin := List.mem_of_find?_eq_some hfound
    have hname := List.find?_some hfound
    -- Some signature of that name is found, and there is only one.
    obtain ⟨other, hother⟩ : ∃ other, known.find? (fun signature => signature.name == name) =
        some other := by
      rw [← Option.isSome_iff_exists, List.find?_isSome]
      exact ⟨signature, (hmem signature).2 hin, hname⟩
    have hothername := List.find?_some hother
    have hsame : other.name = signature.name := by
      rw [beq_iff_eq.1 hothername, beq_iff_eq.1 hname]
    have hotherin := (hmem other).1 (List.mem_of_find?_eq_some hother)
    rw [hother, List.inj_on_of_nodup_map hdistinct hotherin hin hsame]

/-! ## §5 Programs -/

/-- What is noted for a function among functions with these signatures. -/
def Function.findings (signatures : List Signature) (f : Function) : List Diagnostic :=
  (f.check { functions := signatures }).diagnostics

/-- What is noted for a main body among functions with these signatures. -/
def Stmt.findings (signatures : List Signature) (body : Stmt) : List Diagnostic :=
  (body.check { functions := signatures }).diagnostics

section Findings

variable {known known' : List Signature}

theorem Function.findings_congr (h : SameFunctions known known') (f : Function) :
    f.findings known = f.findings known' :=
  f.diagnostics_check_withFunctions { functions := known' } h

theorem Stmt.findings_congr (h : SameFunctions known known') (body : Stmt) :
    body.findings known = body.findings known' := by
  have hcheck := body.check_withFunctions
    (show SameFunctions known ({ functions := known' } : SymbolTable).functions from h)
  exact (congrArg Report.diagnostics hcheck).trans (Checked.diagnostics_withFunctions known _)

end Findings

namespace Program

/-- The signatures of the functions, in order. -/
def signatures (p : Program) : List Signature := p.functions.map (·.signature)

variable {p : Program}

theorem declared_distinct (hdistinct : (p.functions.map (·.name)).Nodup) :
    p.functions.foldlM Function.declare {} = pure { functions := p.signatures } :=
  declare_distinct hdistinct (fun _ _ => rfl)

/-- The diagnostics of a program are those of its functions and then those of its main body. -/
theorem diagnostics_distinct (hdistinct : (p.functions.map (·.name)).Nodup) :
    p.check.diagnostics =
      p.functions.flatMap (Function.findings p.signatures) ++ p.body.findings p.signatures := by
  have hcurrent : ({ functions := p.signatures } : SymbolTable).current = none := rfl
  rw [check, declared_distinct hdistinct, pure_bind, diagnostics_bind, diagnostics_bind,
    value_checkFunctions p.functions hcurrent, diagnostics_checkFunctions p.functions hcurrent,
    diagnostics_pure, List.append_nil]
  rfl

theorem nodup_signatures (hdistinct : (p.functions.map (·.name)).Nodup) :
    (p.signatures.map (·.name)).Nodup := by
  simpa [signatures, Function.comp_def, Function.signature] using hdistinct

/-- The order of functions with distinct names does not matter to checking. The diagnostics are
those of each function, in program order, and then those of the main body. What is noted for a body
depends on that body and on the set of all signatures. So another order of the functions gives the
same diagnostics, position by position, in another order of the functions, and none exactly if there
was none before. Wherever a part of the program is checked, every function of the program is found
under its name, before or after its definition. -/
theorem functions_in_any_order (hdistinct : (p.functions.map (·.name)).Nodup) :
    p.check.diagnostics =
      p.functions.flatMap (Function.findings p.signatures) ++ p.body.findings p.signatures ∧
    (∀ known : List Signature, (∀ signature, signature ∈ known ↔ signature ∈ p.signatures) →
      (∀ f : Function, f.findings known = f.findings p.signatures) ∧
      ∀ body : Stmt, body.findings known = body.findings p.signatures) ∧
    (∀ q : Program, q.functions.Perm p.functions → q.body = p.body →
      q.check.diagnostics =
        q.functions.flatMap (Function.findings p.signatures) ++ p.body.findings p.signatures ∧
      q.check.diagnostics.Perm p.check.diagnostics ∧
      (q.check.diagnostics = [] ↔ p.check.diagnostics = [])) ∧
    ∀ i ∈ p.inspections, ∀ g ∈ p.functions, i.table.function? g.name = some g.signature := by
  have hset (known : List Signature)
      (hmem : ∀ signature, signature ∈ known ↔ signature ∈ p.signatures) :
      SameFunctions known p.signatures :=
    sameFunctions_of_mem_iff (nodup_signatures hdistinct) hmem
  refine ⟨diagnostics_distinct hdistinct, fun known hmem =>
    ⟨Function.findings_congr (hset known hmem), Stmt.findings_congr (hset known hmem)⟩,
    fun q hperm hbody => ?_, fun i hi g hg => ?_⟩
  · have hsame : SameFunctions q.signatures p.signatures :=
      hset q.signatures fun signature => (hperm.map Function.signature).mem_iff
    have hblocks : q.check.diagnostics =
        q.functions.flatMap (Function.findings p.signatures) ++ p.body.findings p.signatures := by
      rw [diagnostics_distinct ((hperm.map Function.name).nodup_iff.2 hdistinct), hbody,
        Stmt.findings_congr hsame, funext (Function.findings_congr hsame)]
    have hnoted : q.check.diagnostics.Perm p.check.diagnostics := by
      rw [hblocks, diagnostics_distinct hdistinct]
      exact (hperm.flatMap_right _).append_right _
    refine ⟨hblocks, hnoted, fun hnone => ?_, fun hnone => ?_⟩
    · exact (hnone ▸ hnoted).nil_eq.symm
    · exact (hnone ▸ hnoted.symm).nil_eq.symm
  · have hdeclared : p.declared = { functions := p.signatures } :=
      congrArg Report.value (declared_distinct hdistinct)
    -- No part of a check changes the functions.
    have hinv : SymbolTable.Invariant p.variableTypes (·.functions = p.signatures) :=
      ⟨fun h => h, fun _ hadd h => (SymbolTable.Extends.addVariable? hadd).functions.trans h⟩
    have hfunctions := (inspections_uphold hinv (by rw [hdeclared]) (fun f _ => by
      rw [Function.entry, (SymbolTable.enterFunction_extends _ _).functions, hdeclared]
      rfl) i hi).table
    rw [SymbolTable.function?, hfunctions]
    exact find_signature hdistinct hg

/-- Two functions that call each other, each with a mistake of its own. -/
def mutualProgram : Program where
  functions := [
    { name := "even", returnType := .bool, params := [⟨"n", .int⟩]
      body := .seq {} (.declare ⟨2, 1⟩ .bool "result" (.call "odd" [.ident ⟨2, 3⟩ "m"]))
        (.ret {} (.ident {} "result")) },
    { name := "odd", returnType := .bool, params := [⟨"n", .int⟩]
      body := .seq {} (.declare ⟨5, 1⟩ .bool "result" (.call "even" [.bool ⟨5, 3⟩ true]))
        (.ret {} (.ident {} "result")) }]
  body := .declare {} .bool "answer" (.call "even" [.int {} "7"])

/-- In either order the mistakes of both functions are found, and no others. -/
theorem mutualProgram_in_any_order : (mutualProgram.functions.map (·.name)).Nodup ∧
    mutualProgram.check.diagnostics.map (·.span) = [⟨2, 3⟩, ⟨5, 3⟩] ∧
    { mutualProgram with functions := mutualProgram.functions.reverse }.check.diagnostics.Perm
      mutualProgram.check.diagnostics := by
  have hdistinct : (mutualProgram.functions.map (·.name)).Nodup := by decide
  exact ⟨hdistinct, by decide, ((functions_in_any_order hdistinct).2.2.1
    { mutualProgram with functions := mutualProgram.functions.reverse }
    (List.reverse_perm _) rfl).2.1⟩

end Program

end ArmCompiler
