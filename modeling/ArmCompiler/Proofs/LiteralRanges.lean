import ArmCompiler.Proofs.Inspections

/-!
# Literals Out of Range

Checking carries on after a problem, so a literal that is out of range should be reported whatever
else is wrong around it. Every rule decides for itself which parts it still looks at: the arguments
of an unknown function, the indices of an unknown array, arguments that are too many, elements after
one of the wrong type. Here the expressions of a program are listed in the order of checking from
the syntax alone, without any table. The diagnostics about ranges are those of the literals in that
list, one for each and in the same order. Main statement: `Program.literals_reported`.

Two kinds of statements are passed over and are pruned first: what directly follows a return, and
the clauses of a `for` header that may not stand there.

## Contents
- §1: the expressions of a program
- §2: literals and diagnostics about them
- §3: checks that say nothing about ranges
- §4: expressions, targets and right sides
- §5: statements
- §6: each expression once
- §7: programs
-/

namespace ArmCompiler

open Report

/-! ## §1 The expressions of a program -/

/-- The expressions that stand in a target, in source order. -/
def Target.exprs : Target → List Expr
  | .ident _ => []
  | .elem _ indices => indices
  | .side _ pair => [pair]

/-- The expressions that stand in a right side, in source order. -/
def Rhs.exprs : Rhs → List Expr
  | .expr e | .side _ e => [e]
  | .array es | .call _ es => es
  | .newPair fst snd => [fst, snd]

namespace Stmt

/-- The expressions that stand in a statement: targets before right sides, the body of a `do` loop
before its condition, and in a `for` loop the clauses of the header before the body. -/
def exprs : Stmt → List Expr
  | .skip _ | .increment _ _ => []
  | .declare _ _ _ rhs => rhs.exprs
  | .assign _ target rhs => target.exprs ++ rhs.exprs
  | .read _ target => target.exprs
  | .free _ e | .ret _ e | .exit _ e | .print _ e | .println _ e => [e]
  | .ifThen _ cond body | .whileDo _ cond body => [cond] ++ body.exprs
  | .ifElse _ cond thenArm elseArm => [cond] ++ (thenArm.exprs ++ elseArm.exprs)
  | .doWhile _ body cond => body.exprs ++ [cond]
  | .forLoop _ init cond step body => init.exprs ++ ([cond] ++ (step.exprs ++ body.exprs))
  | .block _ body => body.exprs
  | .seq _ first second => first.exprs ++ second.exprs

/-- The statement with a `skip` for all that checking passes over. -/
def pruned : Stmt → Stmt
  | .seq span first second =>
    .seq span first.pruned (if first.isReturn then .skip second.span else second.pruned)
  | .forLoop span init cond step body =>
    .forLoop span (if init.isForInit then init.pruned else .skip init.span) cond
      (if step.isForStep then step.pruned else .skip step.span) body.pruned
  | .ifThen span cond body => .ifThen span cond body.pruned
  | .ifElse span cond thenArm elseArm => .ifElse span cond thenArm.pruned elseArm.pruned
  | .whileDo span cond body => .whileDo span cond body.pruned
  | .doWhile span body cond => .doWhile span body.pruned cond
  | .block span body => .block span body.pruned
  | s => s

end Stmt

namespace Program

/-- The expressions that stand in a program, the functions before the main body. -/
def exprs (p : Program) : List Expr := p.functions.flatMap (·.body.exprs) ++ p.body.exprs

/-- The program with a `skip` for all that checking passes over. -/
def pruned (p : Program) : Program where
  functions := p.functions.map fun f => { f with body := f.body.pruned }
  body := p.body.pruned

end Program

/-! ## §2 Literals and diagnostics about them -/

/-- The diagnostic that a literal deserves: an integer without a value, or a character that takes
more than a byte, at the position of the literal itself. -/
def Expr.rangeFault? : Expr → Option Diagnostic
  | .int span text =>
    if Literal.intValue? text = none then some ⟨.integerRange text, span⟩ else none
  | .char span value => if 255 < value.toNat then some ⟨.characterRange value, span⟩ else none
  | _ => none

/-- The faulty literals anywhere in some expressions. -/
def rangeFaults (es : List Expr) : List Diagnostic := (allSubterms es).filterMap Expr.rangeFault?

theorem allSubterms_append (es fs : List Expr) :
    allSubterms (es ++ fs) = allSubterms es ++ allSubterms fs := by
  induction es with
  | nil => rfl
  | cons e rest ih => simp [allSubterms, ih]

theorem allSubterms_singleton (e : Expr) : allSubterms [e] = e.subterms := by
  simp [allSubterms]

@[simp] theorem rangeFaults_nil : rangeFaults [] = [] := rfl

@[simp] theorem rangeFaults_append (es fs : List Expr) :
    rangeFaults (es ++ fs) = rangeFaults es ++ rangeFaults fs := by
  simp [rangeFaults, allSubterms_append]

theorem rangeFaults_cons (e : Expr) (es : List Expr) :
    rangeFaults (e :: es) = rangeFaults [e] ++ rangeFaults es :=
  rangeFaults_append [e] es

/-- The literals in an expression that is no literal itself are those in its parts. -/
theorem rangeFaults_of_parts {e : Expr} (parts : List Expr)
    (hparts : e.subterms = e :: allSubterms parts) (hnone : e.rangeFault? = none) :
    rangeFaults [e] = rangeFaults parts := by
  simp [rangeFaults, allSubterms_singleton, hparts, hnone]

/-- Whether a problem is that a literal is out of range. -/
def Problem.isRange : Problem → Bool
  | .integerRange _ | .characterRange _ => true
  | _ => false

/-- What a report says about ranges. -/
def Report.rangeNotes {α : Type} (r : Report α) : List Diagnostic :=
  r.diagnostics.filter (·.problem.isRange)

namespace Report

variable {α β : Type}

@[simp] theorem rangeNotes_pure (a : α) : (pure a : Report α).rangeNotes = [] := rfl

/-- Steps of a check note in order. -/
@[simp] theorem rangeNotes_bind (r : Report α) (f : α → Report β) :
    (r >>= f).rangeNotes = r.rangeNotes ++ (f r.value).rangeNotes := by
  simp [rangeNotes]

@[simp] theorem rangeNotes_map (f : α → β) (r : Report α) :
    (f <$> r).rangeNotes = r.rangeNotes := by
  simp [rangeNotes]

theorem rangeNotes_note (problem : Problem) (h : problem.isRange = false) (span : Span) :
    (note problem span).rangeNotes = [] := by
  simp [rangeNotes, note, h]

/-! ## §3 Checks that say nothing about ranges -/

theorem rangeNotes_noteIf (problem : Problem) (h : problem.isRange = false) (condition : Bool)
    (span : Span) : (noteIf condition problem span).rangeNotes = [] := by
  cases condition with
  | true => exact rangeNotes_note problem h span
  | false => rfl

@[simp] theorem rangeNotes_noteMismatch (expected actual : Ty) (span : Span) :
    (noteMismatch expected actual span).rangeNotes = [] := rfl

@[simp] theorem rangeNotes_expect (expected actual : Ty) (span : Span) :
    (expect expected actual span).rangeNotes = [] := by
  unfold expect
  split <;> rfl

end Report

@[simp] theorem SymbolTable.rangeNotes_useVariable (table : SymbolTable) (name : String)
    (span : Span) : (table.useVariable name span).rangeNotes = [] := by
  unfold useVariable
  split
  · rfl
  · simp only [rangeNotes_bind, rangeNotes_pure, List.append_nil]
    split <;> rfl

theorem rangeNotes_indexedType (whole : Ty) (span : Span) (ty : Ty) (count : Nat) :
    (indexedType whole span ty count).rangeNotes = [] := by
  induction count generalizing ty with
  | zero => rfl
  | succ count ih =>
    unfold indexedType
    split
    · rfl
    · split
      · exact ih _
      · rfl

@[simp] theorem rangeNotes_elementType (array : Ty) (span : Span) (count : Nat) :
    (elementType array span count).rangeNotes = [] := by
  unfold elementType
  split
  · exact rangeNotes_indexedType array span array count
  · rfl

@[simp] theorem rangeNotes_sideType (side : Side) (pair : Ty) (span : Span) :
    (sideType side pair span).rangeNotes = [] := by
  unfold sideType
  split
  · split <;> rfl
  · rfl

@[simp] theorem UnaryOp.rangeNotes_check (op : UnaryOp) (ty : Ty) (span : Span) :
    (op.check ty span).rangeNotes = [] := by
  cases op with
  | len =>
    simp only [UnaryOp.check]
    split <;> rfl
  | not | neg | ord | chr => simp [UnaryOp.check]

@[simp] theorem BinaryOp.rangeNotes_check (op : BinaryOp) (lhs rhs : BinaryOp.Operand)
    (span : Span) : (op.check lhs rhs span).rangeNotes = [] := by
  have hreference (ty : Ty) : (op.refuseReference ty span).rangeNotes = [] :=
    rangeNotes_noteIf _ rfl _ span
  cases op <;> simp [BinaryOp.check, hreference]

/-! ## §4 Expressions, targets and right sides -/

mutual

/-- Under every table an expression is reported for the faulty literals in it. -/
theorem Expr.rangeNotes_check (table : SymbolTable) :
    (e : Expr) → (e.check table).rangeNotes = rangeFaults [e]
  | .int span text => by
    simp only [Expr.check, rangeFaults, allSubterms_singleton, Expr.subterms]
    cases hvalue : Literal.intValue? text with
    | none => simp [Expr.rangeFault?, hvalue, rangeNotes, note, Problem.isRange]
    | some value => simp [Expr.rangeFault?, hvalue]
  | .char span value => by
    simp only [Expr.check, rangeFaults, allSubterms_singleton, Expr.subterms, charMax]
    by_cases hlarge : 255 < value.toNat
    · simp [Expr.rangeFault?, hlarge, noteIf, rangeNotes, note, Problem.isRange]
    · simp [Expr.rangeFault?, hlarge, noteIf]
  | .bool .. | .str .. | .null .. => rfl
  | .ident span name => table.rangeNotes_useVariable name span
  | .elem span name indices => by
    rw [rangeFaults_of_parts indices rfl rfl, ← checkIndices_rangeNotes table indices]
    simp [Expr.check]
  | .unary span op operand => by
    rw [rangeFaults_of_parts [operand] (by simp [Expr.subterms, allSubterms]) rfl,
      ← operand.rangeNotes_check table]
    simp [Expr.check]
  | .binary span op lhs rhs => by
    rw [rangeFaults_of_parts [lhs, rhs] (by simp [Expr.subterms, allSubterms]) rfl,
      rangeFaults_cons, ← lhs.rangeNotes_check table, ← rhs.rangeNotes_check table]
    simp [Expr.check]

theorem checkIndices_rangeNotes (table : SymbolTable) :
    (indices : List Expr) → (checkIndices table indices).rangeNotes = rangeFaults indices
  | [] => rfl
  | index :: rest => by
    rw [rangeFaults_cons, ← index.rangeNotes_check table, ← checkIndices_rangeNotes table rest]
    simp [checkIndices]

end

theorem checkElements_rangeNotes (table : SymbolTable) (first : Ty) (elems : List Expr) :
    (checkElements table first elems).rangeNotes = rangeFaults elems := by
  induction elems with
  | nil => rfl
  | cons elem rest ih =>
    have hmixed := rangeNotes_noteIf .mixedElements rfl
    rw [rangeFaults_cons, ← elem.rangeNotes_check table, ← ih]
    simp [checkElements, hmixed]

/-- Arguments are looked at whether or not there is a parameter for them. -/
theorem checkArgs_rangeNotes (table : SymbolTable) (params : List Param) (args : List Expr) :
    (checkArgs table params args).rangeNotes = rangeFaults args := by
  induction args generalizing params with
  | nil => rfl
  | cons arg rest ih =>
    rw [rangeFaults_cons, ← arg.rangeNotes_check table]
    cases params with
    | nil => simp [checkArgs, ih]
    | cons param params => simp [checkArgs, ih]

/-- A target is checked for the literals in it. -/
theorem Target.rangeNotes_check (table : SymbolTable) (span : Span) (target : Target) :
    (target.check table span).rangeNotes = rangeFaults target.exprs := by
  cases target with
  | ident name => exact table.rangeNotes_useVariable name span
  | elem name indices => simp [Target.check, exprs, checkIndices_rangeNotes]
  | side which pair => simp [Target.check, exprs, Expr.rangeNotes_check]

/-- A right side is checked for the literals in it. -/
theorem Rhs.rangeNotes_check (table : SymbolTable) (span : Span) (rhs : Rhs) :
    (rhs.check table span).rangeNotes = rangeFaults rhs.exprs := by
  cases rhs with
  | expr e => exact e.rangeNotes_check table
  | side which pair => simp [Rhs.check, exprs, Expr.rangeNotes_check]
  | newPair fst snd =>
    rw [exprs, rangeFaults_cons]
    simp [Rhs.check, Expr.rangeNotes_check]
  | array elems =>
    cases elems with
    | nil => rfl
    | cons first rest =>
      rw [exprs, rangeFaults_cons]
      simp [Rhs.check, Expr.rangeNotes_check, checkElements_rangeNotes]
  | call name args =>
    simp only [Rhs.check, exprs]
    split
    · have hunknown := rangeNotes_note (.undefined name) rfl span
      simp [hunknown, checkArgs_rangeNotes]
    · next signature _ =>
      have hcount := rangeNotes_noteIf
        (.argumentCount name signature.params.length args.length) rfl
      simp only [rangeNotes_bind, hcount, checkArgs_rangeNotes]
      simp

theorem checkCondition_rangeNotes (table : SymbolTable) (cond : Expr) :
    (checkCondition table cond).rangeNotes = rangeFaults [cond] := by
  simp [checkCondition, Expr.rangeNotes_check]

/-! ## §5 Statements -/

/-- A scope notes what the statement in it does. -/
theorem rangeNotes_scoped (table : SymbolTable) (s : Stmt) :
    (table.scoped s.check).rangeNotes = (s.check table.openScope).rangeNotes := by
  simp [Report.rangeNotes]

namespace Stmt

/-- A clause of a `for` header is looked at only if it may stand there. -/
theorem checkClause_rangeNotes {clause : Stmt} (allowed : Bool) {table : SymbolTable}
    (h : (clause.check table).rangeNotes = rangeFaults clause.pruned.exprs) :
    (clause.checkClause allowed table).rangeNotes =
      rangeFaults (if allowed then clause.pruned else .skip clause.span).exprs := by
  cases allowed with
  | true => simpa [checkClause] using h
  | false => rfl

/-- Under every table a statement is reported for the faulty literals that are left after pruning,
in their order. -/
theorem rangeNotes_check (s : Stmt) (table : SymbolTable) :
    (s.check table).rangeNotes = rangeFaults s.pruned.exprs := by
  -- For all tables at once: earlier statements change the table of later ones, but what a table
  -- holds decides about types only, never about which parts are looked at.
  induction s generalizing table with
  | skip => rfl
  | increment span name =>
    simp only [check, pruned, exprs, rangeFaults_nil]
    split
    · simp
    · rfl
  | declare span ty name rhs =>
    have hrhs := rhs.rangeNotes_check table span
    simp only [check, pruned, exprs, rangeNotes_bind, rangeNotes_expect, hrhs]
    split <;> simp [rangeNotes_note (.variableRedeclared name) rfl span]
  | assign span target rhs =>
    simp [check, pruned, exprs, target.rangeNotes_check, rhs.rangeNotes_check]
  | read span target =>
    have hmismatch (ty : Ty) := rangeNotes_noteIf (.mismatch .char (some .int) ty) rfl
    simp only [check, pruned, exprs, rangeNotes_bind, target.rangeNotes_check, hmismatch]
    simp
  | free span e =>
    have hmismatch (ty : Ty) := rangeNotes_noteIf (.mismatch .erasedPair none ty) rfl
    simp only [check, pruned, exprs, rangeNotes_bind, e.rangeNotes_check, hmismatch]
    simp
  | ret span e | exit span e => simp [check, pruned, exprs, e.rangeNotes_check]
  | print span e | println span e =>
    have hunprintable := rangeNotes_noteIf .unprintable rfl
    simp [check, pruned, exprs, e.rangeNotes_check, hunprintable]
  | ifThen span cond body ih | whileDo span cond body ih =>
    simp only [check, pruned, exprs, rangeNotes_bind, checkCondition_rangeNotes, rangeNotes_scoped,
      ih, rangeFaults_append]
  | ifElse span cond thenArm elseArm ihThen ihElse =>
    simp only [check, pruned, exprs, rangeNotes_bind, checkCondition_rangeNotes, rangeNotes_scoped,
      ihThen, ihElse, rangeFaults_append, rangeNotes_pure, List.append_nil]
  | doWhile span body cond ih =>
    simp [check, pruned, exprs, checkCondition_rangeNotes, rangeNotes_scoped, ih]
  | block span body ih => simp [check, pruned, exprs, rangeNotes_scoped, ih]
  | forLoop span init cond step body ihInit ihStep ihBody =>
    have hfor (inner : SymbolTable) : (checkFor init cond step body inner).rangeNotes =
        rangeFaults (Stmt.forLoop span init cond step body).pruned.exprs := by
      simp only [checkFor_eq, pruned, exprs, rangeNotes_bind, checkClause_rangeNotes _ (ihInit _),
        checkClause_rangeNotes _ (ihStep _), checkCondition_rangeNotes, rangeNotes_scoped, ihBody,
        rangeFaults_append]
    rw [check_forLoop, Report.rangeNotes, SymbolTable.diagnostics_scoped]
    exact hfor _
  | seq span first second ihFirst ihSecond =>
    simp only [check, pruned, exprs, rangeNotes_bind, rangeFaults_append, ihFirst]
    split
    · -- After a return there is only the note that the rest cannot be reached.
      rfl
    · rw [ihSecond]

end Stmt

/-! ## §6 Each expression once -/

/-- The expression that an inspection looks at, if it is one. -/
def Inspection.expr? (i : Inspection) : Option Expr :=
  match i.phrase with
  | .expr e => some e
  | .stmt _ | .target _ _ | .rhs _ _ => none

theorem expr?_inspectAll (table : SymbolTable) (es : List Expr) :
    (inspectAll table es).filterMap Inspection.expr? = es := by
  induction es with
  | nil => rfl
  | cons e rest ih => exact congrArg (e :: ·) ih

theorem Expr.expr?_inspections (e : Expr) (table : SymbolTable) :
    (e.inspections table).filterMap Inspection.expr? = allSubterms [e] := by
  rw [Expr.inspections, expr?_inspectAll, allSubterms_singleton]

theorem Target.expr?_inspections (target : Target) (table : SymbolTable) (span : Span) :
    (target.inspections table span).filterMap Inspection.expr? = allSubterms target.exprs := by
  cases target with
  | ident name => rfl
  | elem name indices => exact expr?_inspectAll table _
  | side which pair => exact pair.expr?_inspections table

theorem Rhs.expr?_inspections (rhs : Rhs) (table : SymbolTable) (span : Span) :
    (rhs.inspections table span).filterMap Inspection.expr? = allSubterms rhs.exprs := by
  cases rhs with
  | expr e | side which e => exact e.expr?_inspections table
  | array es | call name es => exact expr?_inspectAll table _
  | newPair fst snd =>
    have hboth : (fst.inspections table ++ snd.inspections table).filterMap Inspection.expr? =
        allSubterms ([fst] ++ [snd]) := by
      rw [List.filterMap_append, fst.expr?_inspections, snd.expr?_inspections, allSubterms_append]
    exact hboth

theorem expr?_cons_stmt (table : SymbolTable) (s : Stmt) (rest : List Inspection) :
    (⟨table, .stmt s⟩ :: rest).filterMap Inspection.expr? = rest.filterMap Inspection.expr? := rfl

/-- The inspected expressions of a statement are those that are left after pruning, with all that
is inside them. -/
theorem Stmt.expr?_inspections (s : Stmt) (table : SymbolTable) :
    (s.inspections table).filterMap Inspection.expr? = allSubterms s.pruned.exprs := by
  induction s generalizing table with
  | skip | increment => rfl
  | declare span ty name rhs => exact rhs.expr?_inspections table span
  | read span target => exact target.expr?_inspections table span
  | free span e | ret span e | exit span e | print span e | println span e =>
    exact e.expr?_inspections table
  | block span body ih => exact ih _
  | assign span target rhs =>
    simp only [inspections, expr?_cons_stmt, List.filterMap_append, target.expr?_inspections,
      rhs.expr?_inspections, pruned, exprs, allSubterms_append]
  | ifThen span cond body ih | whileDo span cond body ih | doWhile span body cond ih =>
    simp only [inspections, expr?_cons_stmt, List.filterMap_append, cond.expr?_inspections, ih,
      pruned, exprs, allSubterms_append]
  | ifElse span cond thenArm elseArm ihThen ihElse =>
    simp only [inspections, expr?_cons_stmt, List.filterMap_append, cond.expr?_inspections, ihThen,
      ihElse, pruned, exprs, allSubterms_append]
  | forLoop span init cond step body ihInit ihStep ihBody =>
    -- A clause that may not stand in the header is neither inspected nor left by pruning.
    have clause {clause : Stmt} (allowed : Bool) {is : List Inspection}
        (h : is.filterMap Inspection.expr? = allSubterms clause.pruned.exprs) :
        (if allowed then is else []).filterMap Inspection.expr? =
          allSubterms (if allowed then clause.pruned else .skip clause.span).exprs := by
      cases allowed with
      | true => exact h
      | false => rfl
    simp only [inspections, expr?_cons_stmt, List.filterMap_append, clause _ (ihInit _),
      cond.expr?_inspections, clause _ (ihStep _), ihBody, pruned, exprs, allSubterms_append]
  | seq span first second ihFirst ihSecond =>
    simp only [inspections, expr?_cons_stmt, List.filterMap_append, ihFirst, pruned, exprs,
      allSubterms_append]
    split
    · rfl
    · rw [ihSecond]

/-! ## §7 Programs -/

namespace Function

theorem rangeNotes_noteClashes (f : Function) (names : List String) :
    (f.noteClashes names).rangeNotes = [] := by
  induction names with
  | nil => rfl
  | cons name rest ih =>
    simp [noteClashes, rangeNotes_note (.variableRedeclared name) rfl f.span, ih]

theorem rangeNotes_checkReturn (f : Function) (returned : Option Ty) :
    (f.checkReturn returned).rangeNotes = [] := by
  have hmissing := rangeNotes_noteIf (.missingReturn f.name) rfl
  simp only [checkReturn, rangeNotes_bind, hmissing]
  cases returned with
  | none => rfl
  | some actual => exact rangeNotes_noteIf (.mismatch f.returnType none actual) rfl _ f.span

theorem rangeNotes_declare (f : Function) (table : SymbolTable) :
    (declare table f).rangeNotes = [] := by
  unfold declare
  split <;> rfl

theorem rangeNotes_check (f : Function) (table : SymbolTable) :
    (f.check table).rangeNotes = rangeFaults f.body.pruned.exprs := by
  simp [check, rangeNotes_noteClashes, rangeNotes_checkReturn, f.body.rangeNotes_check]

end Function

theorem rangeNotes_declareFunctions (functions : List Function) (table : SymbolTable) :
    (functions.foldlM Function.declare table).rangeNotes = [] := by
  induction functions generalizing table with
  | nil => rfl
  | cons f rest ih =>
    rw [List.foldlM_cons, rangeNotes_bind, f.rangeNotes_declare, ih, List.nil_append]

/-- The functions are checked one after the other. -/
theorem rangeNotes_checkFunctions (functions : List Function) (table : SymbolTable) :
    (functions.foldlM Function.check table).rangeNotes =
      rangeFaults (functions.flatMap (·.body.pruned.exprs)) := by
  induction functions generalizing table with
  | nil => rfl
  | cons f rest ih =>
    rw [List.foldlM_cons, rangeNotes_bind, f.rangeNotes_check, ih, List.flatMap_cons,
      rangeFaults_append]

namespace Program

/-- The expressions of the functions come before those of the main body. -/
theorem exprs_pruned (p : Program) : p.pruned.exprs =
    p.functions.flatMap (·.body.pruned.exprs) ++ p.body.pruned.exprs := by
  simp [exprs, pruned, List.flatMap_map]

theorem rangeNotes_check (p : Program) : p.check.rangeNotes = rangeFaults p.pruned.exprs := by
  simp [check, exprs_pruned, rangeNotes_declareFunctions, rangeNotes_checkFunctions,
    p.body.rangeNotes_check]

theorem expr?_inspections (p : Program) :
    p.inspections.filterMap Inspection.expr? = allSubterms p.pruned.exprs := by
  have hbodies (functions : List Function) :
      (functions.flatMap fun f => f.body.inspections (f.entry p.declared)).filterMap
        Inspection.expr? = allSubterms (functions.flatMap (·.body.pruned.exprs)) := by
    induction functions with
    | nil => rfl
    | cons f rest ih =>
      rw [List.flatMap_cons, List.filterMap_append, f.body.expr?_inspections, ih,
        List.flatMap_cons, allSubterms_append]
  rw [inspections, List.filterMap_append, hbodies, p.body.expr?_inspections, exprs_pruned,
    allSubterms_append]

/-- What a program is reported for about ranges is exactly one diagnostic for each integer literal
without a value and each character literal beyond 255, in the order of checking and at the position
of the literal, whatever else is wrong. Only what checking passes over is left out; every other
expression is inspected once. -/
theorem literals_reported (p : Program) :
    p.check.diagnostics.filter (·.problem.isRange) =
      (allSubterms p.pruned.exprs).filterMap Expr.rangeFault? ∧
    p.inspections.filterMap Inspection.expr? = allSubterms p.pruned.exprs :=
  ⟨p.rangeNotes_check, p.expr?_inspections⟩

-- An index of an unknown array and an argument of an unknown function.
example :
    (Program.check ⟨[], .assign {} (.elem "a" [.int ⟨1, 3⟩ "2147483648"])
      (.call "f" [.bool {} true, .unary {} .neg (.char ⟨1, 20⟩ 'λ')])⟩).rangeNotes =
      [⟨.integerRange "2147483648", ⟨1, 3⟩⟩, ⟨.characterRange 'λ', ⟨1, 20⟩⟩] := by decide

end Program

end ArmCompiler
