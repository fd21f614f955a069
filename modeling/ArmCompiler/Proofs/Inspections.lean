import ArmCompiler.Proofs.Instances
import ArmCompiler.Proofs.Scopes
import Mathlib.Data.List.Infix

/-!
# Inspected Phrases

A problem is noted once, where it is found, and what contains the faulty phrase keeps quiet about
it. That is safe only if an invalid type always has a diagnostic behind it. Here the phrases that a
check looks at are listed, each with the table it is looked at under, and two things are shown of
every one of them: a phrase of invalid type has a diagnostic of its own, and in a program without a
diagnostic the types at every phrase fit. Main statement: `Program.nothing_suppressed`.

## Contents
- §1: phrases and inspections
- §2: the inspections of a program
- §3: what an inspection notes is in the report
- §4: valid tables
- §5: tables along a check
- §6: invalid types are reported
- §7: types that fit
- §8: programs
-/

namespace ArmCompiler

open Report

/-! ## §1 Phrases and inspections -/

/-- What a check looks at. Targets and right sides have no position of their own; they are reported
at that of their statement. -/
inductive Phrase where
  | stmt (s : Stmt)
  | expr (e : Expr)
  | target (target : Target) (span : Span)
  | rhs (rhs : Rhs) (span : Span)

/-- A phrase and the table that it is checked under. -/
structure Inspection where
  table : SymbolTable
  phrase : Phrase

/-- What is noted while the phrase is checked. -/
def Inspection.diagnostics (i : Inspection) : List Diagnostic :=
  match i.phrase with
  | .stmt s => (s.check i.table).diagnostics
  | .expr e => (e.check i.table).diagnostics
  | .target target span => (target.check i.table span).diagnostics
  | .rhs rhs span => (rhs.check i.table span).diagnostics

/-- The type that the check finds for the phrase. A statement has none. -/
def Inspection.type? (i : Inspection) : Option Ty :=
  match i.phrase with
  | .stmt _ => none
  | .expr e => some (e.check i.table).value
  | .target target span => some (target.check i.table span).value
  | .rhs rhs span => some (rhs.check i.table span).value

/-- A value of type `actual` may stand where one of type `expected` is wanted, and neither type is
the mark of an error. -/
structure Ty.Meets (expected actual : Ty) : Prop where
  expected_valid : expected.isValid
  actual_valid : actual.isValid
  agrees : expected.agrees actual

/-- The table in which the condition of a `for` loop is checked. -/
def Stmt.forTable (init : Stmt) (table : SymbolTable) : SymbolTable :=
  (init.checkClause init.isForInit table.openScope).value

/-- The types at a statement itself fit: a stored value its place, a condition `bool`, an exit code
and an incremented variable `int`. -/
def Stmt.Fits (table : SymbolTable) : Stmt → Prop
  | .declare span ty _ rhs => ty.Meets (rhs.check table span).value
  | .assign span target rhs => (target.check table span).value.Meets (rhs.check table span).value
  | .increment _ name => ∃ ty, table.typeOf? name = some ty ∧ Ty.int.Meets ty
  | .exit _ e => Ty.int.Meets (e.check table).value
  | .ifThen _ cond _ | .ifElse _ cond _ _ | .whileDo _ cond _ | .doWhile _ _ cond =>
    Ty.bool.Meets (cond.check table).value
  | .forLoop _ init cond _ _ => Ty.bool.Meets (cond.check (init.forTable table)).value
  | .skip .. | .read .. | .free .. | .ret .. | .print .. | .println .. | .block .. | .seq .. => True

/-- The types at a phrase itself fit: those at a statement, indices `int`, and arguments the
parameters in their places, of which there are as many. -/
def Inspection.Fits (i : Inspection) : Prop :=
  match i.phrase with
  | .stmt s => s.Fits i.table
  | .expr (.elem _ _ indices) | .target (.elem _ indices) _ =>
    ∀ index ∈ indices, Ty.int.Meets (index.check i.table).value
  | .rhs (.call name args) _ => ∃ signature, i.table.function? name = some signature ∧
    List.Forall₂ (fun param arg => param.ty.Meets (arg.check i.table).value) signature.params args
  | .expr _ | .target _ _ | .rhs _ _ => True

/-! ## §2 The inspections of a program -/

mutual

/-- An expression and all expressions inside it. -/
def Expr.subterms : Expr → List Expr
  | .elem span name indices => .elem span name indices :: allSubterms indices
  | .unary span op operand => .unary span op operand :: operand.subterms
  | .binary span op lhs rhs => .binary span op lhs rhs :: (lhs.subterms ++ rhs.subterms)
  | .int span text => [.int span text]
  | .bool span value => [.bool span value]
  | .char span value => [.char span value]
  | .str span raw => [.str span raw]
  | .null span => [.null span]
  | .ident span name => [.ident span name]

def allSubterms : List Expr → List Expr
  | [] => []
  | e :: rest => e.subterms ++ allSubterms rest

end

/-- Expressions that are checked under one table. -/
def inspectAll (table : SymbolTable) (es : List Expr) : List Inspection :=
  es.map fun e => ⟨table, .expr e⟩

def Expr.inspections (table : SymbolTable) (e : Expr) : List Inspection :=
  inspectAll table e.subterms

def Target.inspections (table : SymbolTable) (span : Span) (target : Target) : List Inspection :=
  ⟨table, .target target span⟩ :: match target with
    | .ident _ => []
    | .elem _ indices => inspectAll table (allSubterms indices)
    | .side _ pair => pair.inspections table

def Rhs.inspections (table : SymbolTable) (span : Span) (rhs : Rhs) : List Inspection :=
  ⟨table, .rhs rhs span⟩ :: match rhs with
    | .expr e | .side _ e => e.inspections table
    | .array elems => inspectAll table (allSubterms elems)
    | .newPair fst snd => fst.inspections table ++ snd.inspections table
    | .call _ args => inspectAll table (allSubterms args)

/-- What is checked along with a statement, itself included. What directly follows a return is left
out, and so are the clauses of a `for` header that may not stand there. -/
def Stmt.inspections (table : SymbolTable) (s : Stmt) : List Inspection :=
  ⟨table, .stmt s⟩ :: match s with
    | .skip _ | .increment _ _ => []
    | .declare span _ _ rhs => rhs.inspections table span
    | .assign span target rhs => target.inspections table span ++ rhs.inspections table span
    | .read span target => target.inspections table span
    | .free _ e | .ret _ e | .exit _ e | .print _ e | .println _ e => e.inspections table
    | .ifThen _ cond body | .whileDo _ cond body =>
      cond.inspections table ++ body.inspections table.openScope
    | .ifElse _ cond thenArm elseArm =>
      cond.inspections table ++
        (thenArm.inspections table.openScope ++ elseArm.inspections table.openScope)
    | .doWhile _ body cond => body.inspections table.openScope ++ cond.inspections table
    | .forLoop _ init cond step body =>
      (if init.isForInit then init.inspections table.openScope else []) ++
        (cond.inspections (init.forTable table) ++
        ((if step.isForStep then step.inspections (init.forTable table) else []) ++
        body.inspections (init.forTable table).openScope))
    | .block _ body => body.inspections table.openScope
    | .seq _ first second =>
      first.inspections table ++
        if first.isReturn then [] else second.inspections (first.check table).value.2

/-- The table after the functions of a program are made known. -/
def Program.declared (p : Program) : SymbolTable := (p.functions.foldlM Function.declare {}).value

/-- The table at the start of a function body. -/
def Function.entry (table : SymbolTable) (f : Function) : SymbolTable :=
  (table.openScope.enterFunction f.name).2

/-- All that is checked in a program. -/
def Program.inspections (p : Program) : List Inspection :=
  p.functions.flatMap (fun f => f.body.inspections (f.entry p.declared)) ++
    p.body.inspections p.declared

/-! ## §3 What an inspection notes is in the report -/

/-- What each inspection notes is found, without a gap, among the diagnostics. -/
def Records (diagnostics : List Diagnostic) (inspections : List Inspection) : Prop :=
  ∀ i ∈ inspections, i.diagnostics <:+: diagnostics

namespace Records

variable {a b : List Diagnostic} {is js : List Inspection}

theorem nil (a : List Diagnostic) : Records a [] := by simp [Records]

theorem cons {i : Inspection} (hi : i.diagnostics = a) (h : Records a is) : Records a (i :: is) :=
  List.forall_mem_cons.2 ⟨hi ▸ List.infix_refl _, h⟩

theorem first (h : Records a is) : Records (a ++ b) is :=
  fun i hi => (h i hi).trans (List.prefix_append a b).isInfix

theorem next (h : Records b is) : Records (a ++ b) is :=
  fun i hi => (h i hi).trans (List.suffix_append a b).isInfix

theorem append (h : Records a is) (h' : Records a js) : Records a (is ++ js) :=
  List.forall_mem_append.2 ⟨h, h'⟩

/-- Two checks in a row. -/
theorem both (h : Records a is) (h' : Records b js) : Records (a ++ b) (is ++ js) :=
  h.first.append h'.next

end Records

mutual

/-- The check of an expression notes whatever the inspections of its parts find. -/
theorem Expr.check_records (table : SymbolTable) :
    (e : Expr) → Records (e.check table).diagnostics (e.inspections table)
  | .int .. | .bool .. | .char .. | .str .. | .null .. | .ident .. => .cons rfl (.nil _)
  | .elem span name indices => by
    refine .cons rfl ?_
    simp only [Expr.check, diagnostics_bind]
    exact (checkIndices_records table indices).first.next
  | .unary span op operand => by
    refine .cons rfl ?_
    simp only [Expr.check, diagnostics_bind]
    exact (operand.check_records table).first
  | .binary span op lhs rhs => by
    -- The subterms of the sides are listed one after the other, as the sides are checked.
    have hsub : (Expr.binary span op lhs rhs).inspections table =
        ⟨table, .expr (.binary span op lhs rhs)⟩ ::
          (lhs.inspections table ++ rhs.inspections table) := by
      simp [Expr.inspections, inspectAll, Expr.subterms]
    rw [hsub]
    refine .cons rfl ?_
    simp only [Expr.check, diagnostics_bind]
    exact (lhs.check_records table).both (rhs.check_records table).first

theorem checkIndices_records (table : SymbolTable) :
    (indices : List Expr) →
    Records (checkIndices table indices).diagnostics (inspectAll table (allSubterms indices))
  | [] => .nil _
  | index :: rest => by
    simp only [checkIndices, allSubterms, inspectAll, List.map_append, diagnostics_bind]
    exact (index.check_records table).both (checkIndices_records table rest).next

end

theorem checkElements_records (table : SymbolTable) (first : Ty) (elems : List Expr) :
    Records (checkElements table first elems).diagnostics
      (inspectAll table (allSubterms elems)) := by
  induction elems with
  | nil => exact .nil _
  | cons elem rest ih =>
    simp only [checkElements, allSubterms, inspectAll, List.map_append, diagnostics_bind]
    exact (elem.check_records table).both ih.next

theorem checkArgs_records (table : SymbolTable) (params : List Param) (args : List Expr) :
    Records (checkArgs table params args).diagnostics (inspectAll table (allSubterms args)) := by
  induction args generalizing params with
  | nil => exact .nil _
  | cons arg rest ih =>
    simp only [allSubterms, inspectAll, List.map_append]
    cases params with
    | nil =>
      simp only [checkArgs, diagnostics_bind]
      exact (arg.check_records table).both (ih [])
    | cons param params =>
      simp only [checkArgs, diagnostics_bind]
      exact (arg.check_records table).both (ih params).next

theorem Target.check_records (table : SymbolTable) (span : Span) (target : Target) :
    Records (target.check table span).diagnostics (target.inspections table span) := by
  cases target with
  | ident name => exact .cons rfl (.nil _)
  | elem name indices =>
    refine .cons rfl ?_
    simp only [Target.check, diagnostics_bind]
    exact (checkIndices_records table indices).first.next
  | side which pair =>
    refine .cons rfl ?_
    simp only [Target.check, diagnostics_bind]
    exact (pair.check_records table).first

theorem Rhs.check_records (table : SymbolTable) (span : Span) (rhs : Rhs) :
    Records (rhs.check table span).diagnostics (rhs.inspections table span) := by
  refine .cons rfl ?_
  cases rhs with
  | expr e => exact e.check_records table
  | array elems =>
    cases elems with
    | nil => exact .nil _
    | cons first rest =>
      simp only [Rhs.check, allSubterms, inspectAll, List.map_append, diagnostics_bind]
      exact (first.check_records table).both (checkElements_records table _ rest).first
  | newPair fst snd =>
    simp only [Rhs.check, diagnostics_bind]
    exact (fst.check_records table).both (snd.check_records table).first
  | side which pair =>
    simp only [Rhs.check, diagnostics_bind]
    exact (pair.check_records table).first
  | call name args =>
    simp only [Rhs.check]
    split
    · simp only [diagnostics_bind]
      exact (checkArgs_records table _ args).first.next
    · simp only [diagnostics_bind]
      exact (checkArgs_records table _ args).first.next

theorem checkCondition_records (table : SymbolTable) (cond : Expr) :
    Records (checkCondition table cond).diagnostics (cond.inspections table) := by
  simp only [checkCondition, diagnostics_bind]
  exact (cond.check_records table).first

/-- The clauses and the body of a `for` loop. -/
theorem Stmt.checkFor_records {init step body : Stmt} (cond : Expr) (table : SymbolTable)
    (hinit : ∀ table, Records (init.check table).diagnostics (init.inspections table))
    (hstep : ∀ table, Records (step.check table).diagnostics (step.inspections table))
    (hbody : ∀ table, Records (body.check table).diagnostics (body.inspections table)) :
    Records (checkFor init cond step body table.openScope).diagnostics
      ((if init.isForInit then init.inspections table.openScope else []) ++
        (cond.inspections (init.forTable table) ++
        ((if step.isForStep then step.inspections (init.forTable table) else []) ++
        body.inspections (init.forTable table).openScope))) := by
  -- A clause that may not stand in the header is not looked into.
  have clause {s : Stmt} {t : SymbolTable} (allowed : Bool)
      (hs : Records (s.check t).diagnostics (s.inspections t)) :
      Records (s.checkClause allowed t).diagnostics (if allowed then s.inspections t else []) := by
    cases allowed with
    | true => simpa [checkClause] using hs
    | false => exact .nil _
  simp only [checkFor_eq, diagnostics_bind, value_checkClause_step, SymbolTable.diagnostics_scoped]
  exact (clause _ (hinit _)).both ((checkCondition_records _ cond).both
    ((clause _ (hstep _)).both (hbody _)))

/-- Checking a statement notes what the inspections in it note. -/
theorem Stmt.check_records (s : Stmt) (table : SymbolTable) :
    Records (s.check table).diagnostics (s.inspections table) := by
  induction s generalizing table with
  | skip | increment => exact .cons rfl (.nil _)
  | declare span ty name rhs =>
    refine .cons rfl ?_
    simp only [check, diagnostics_bind]
    exact (rhs.check_records table span).first
  | assign span target rhs =>
    refine .cons rfl ?_
    simp only [check, diagnostics_bind]
    exact (target.check_records table span).both (rhs.check_records table span).first
  | read span target =>
    refine .cons rfl ?_
    simp only [check, diagnostics_bind]
    exact (target.check_records table span).first
  | free span e | ret span e | exit span e | print span e | println span e =>
    refine .cons rfl ?_
    simp only [check, diagnostics_bind]
    exact (e.check_records table).first
  | ifThen span cond body ih | whileDo span cond body ih =>
    refine .cons rfl ?_
    simp only [check, diagnostics_bind, SymbolTable.diagnostics_scoped]
    exact (checkCondition_records table cond).both (ih _)
  | ifElse span cond thenArm elseArm ihThen ihElse =>
    refine .cons rfl ?_
    simp only [check, diagnostics_bind, SymbolTable.diagnostics_scoped, value_scoped_check]
    exact (checkCondition_records table cond).both ((ihThen _).both (ihElse _).first)
  | doWhile span body cond ih =>
    refine .cons rfl ?_
    simp only [check, diagnostics_bind, SymbolTable.diagnostics_scoped, value_scoped_check]
    exact (ih _).both (checkCondition_records table cond).first
  | forLoop span init cond step body ihInit ihStep ihBody =>
    refine .cons rfl ?_
    rw [check_forLoop, SymbolTable.diagnostics_scoped]
    exact checkFor_records cond table ihInit ihStep ihBody
  | block span body ih =>
    refine .cons rfl ?_
    simp only [check, SymbolTable.diagnostics_scoped]
    exact ih _
  | seq span first second ihFirst ihSecond =>
    refine .cons rfl ?_
    simp only [check, diagnostics_bind]
    refine (ihFirst table).both ?_
    split
    · exact .nil _
    · exact ihSecond _

theorem Function.check_records (f : Function) (table : SymbolTable) :
    Records (f.check table).diagnostics (f.body.inspections (f.entry table)) := by
  simp only [check, diagnostics_bind]
  exact (f.body.check_records _).first.next

theorem checkFunctions_records (functions : List Function) {table : SymbolTable}
    (hcurrent : table.current = none) :
    Records (functions.foldlM Function.check table).diagnostics
      (functions.flatMap fun f => f.body.inspections (f.entry table)) := by
  induction functions with
  | nil => exact .nil _
  | cons f rest ih =>
    -- A function leaves the table as it found it, so all of them are checked in the same one.
    rw [List.foldlM_cons, diagnostics_bind, f.value_check, table.leaveFunction_eq hcurrent]
    exact (f.check_records table).both ih

namespace Program

/-- Nothing is current before the functions are checked. -/
theorem current_declared (p : Program) : p.declared.current = none :=
  (value_declareFunctions p.functions {}).2.2.1

/-- The report of a program has the report of every inspection in it. -/
theorem check_records (p : Program) : Records p.check.diagnostics p.inspections := by
  have hkept := value_checkFunctions p.functions p.current_declared
  simp only [check, diagnostics_bind, declared] at hkept ⊢
  rw [hkept]
  exact ((checkFunctions_records p.functions p.current_declared).both
    (p.body.check_records _).first).next

end Program

/-! ## §4 Valid tables -/

/-- A table without the mark of an error among the types of its variables and functions. -/
structure SymbolTable.Valid (table : SymbolTable) : Prop where
  scopes : ∀ scope ∈ table.scopes, ∀ entry ∈ scope, entry.2.isValid
  functions : ∀ signature ∈ table.functions,
    signature.returnType.isValid ∧ ∀ param ∈ signature.params, param.ty.isValid

namespace SymbolTable.Valid

variable {table : SymbolTable}

theorem typeOf (h : table.Valid) {name : String} {ty : Ty} (hty : table.typeOf? name = some ty) :
    ty.isValid := by
  obtain ⟨scope, hscope, hlookup⟩ := List.exists_of_findSome?_eq_some hty
  exact h.scopes scope hscope _ (Frame.mem_of_lookup hlookup)

theorem signature (h : table.Valid) {name : String} {signature : Signature}
    (hfound : table.function? name = some signature) :
    signature.returnType.isValid ∧ ∀ param ∈ signature.params, param.ty.isValid :=
  h.functions signature (List.mem_of_find?_eq_some hfound)

theorem openScope (h : table.Valid) : table.openScope.Valid :=
  ⟨List.forall_mem_cons.2 ⟨List.forall_mem_nil _, h.scopes⟩, h.functions⟩

theorem addVariable? {after : SymbolTable} {name : String} {ty : Ty} (h : table.Valid)
    (hty : ty.isValid) (hadd : table.addVariable? name ty = some after) : after.Valid := by
  unfold SymbolTable.addVariable? at hadd
  split at hadd
  · cases hadd
  · cases hadd
    have hscopes := List.forall_mem_cons.1 h.scopes
    exact ⟨List.forall_mem_cons.2 ⟨List.forall_mem_cons.2 ⟨hty, hscopes.1⟩, hscopes.2⟩, h.functions⟩

theorem bindParams (h : table.Valid) {params : List Param}
    (hparams : ∀ param ∈ params, param.ty.isValid) : (table.bindParams params).2.Valid := by
  induction params generalizing table with
  | nil => exact h
  | cons param rest ih =>
    obtain ⟨hparam, hrest⟩ := List.forall_mem_cons.1 hparams
    unfold SymbolTable.bindParams
    cases hadd : table.addVariable? param.name param.ty with
    | some added => exact ih (h.addVariable? hparam hadd) hrest
    | none => exact ih h hrest

/-- A function body starts with valid parameters, if its function has them. -/
theorem entry (h : table.Valid) (f : Function) : (f.entry table).Valid := by
  -- The parameters are those of the signature that the table has under the name.
  have hopened : { table.openScope with current := some f.name }.Valid :=
    ⟨h.openScope.scopes, h.functions⟩
  refine hopened.bindParams ?_
  unfold SymbolTable.params
  cases hfound : table.openScope.function? f.name with
  | none => simp
  | some signature => exact (h.openScope.signature hfound).2

end SymbolTable.Valid

/-- Making functions known with valid types keeps the table valid. -/
theorem declareFunctions_valid {functions : List Function} {table : SymbolTable} (h : table.Valid)
    (hreturns : ∀ f ∈ functions, f.returnType.isValid)
    (hparams : ∀ f ∈ functions, ∀ param ∈ f.params, param.ty.isValid) :
    (functions.foldlM Function.declare table).value.Valid := by
  induction functions generalizing table with
  | nil => exact h
  | cons f rest ih =>
    obtain ⟨hreturn, hreturns⟩ := List.forall_mem_cons.1 hreturns
    obtain ⟨hparam, hparams⟩ := List.forall_mem_cons.1 hparams
    rw [List.foldlM_cons, value_bind]
    refine ih ?_ hreturns hparams
    unfold Function.declare SymbolTable.addFunction?
    cases table.function? f.signature.name with
    | some known => exact h
    | none =>
      refine ⟨h.scopes, List.forall_mem_append.2 ⟨h.functions, ?_⟩⟩
      intro signature hmem
      obtain rfl := List.mem_singleton.1 hmem
      exact ⟨hreturn, hparam⟩

/-! ## §5 Tables along a check -/

/-- A property of tables that survives a new scope and a variable of one of the types. -/
structure SymbolTable.Invariant (types : List Ty) (Q : SymbolTable → Prop) : Prop where
  openScope : ∀ {table : SymbolTable}, Q table → Q table.openScope
  addVariable? : ∀ {table after : SymbolTable} {name : String} {ty : Ty}, ty ∈ types →
    table.addVariable? name ty = some after → Q table → Q after

theorem SymbolTable.invariant_valid {types : List Ty} (h : ∀ ty ∈ types, ty.isValid) :
    Invariant types Valid where
  openScope := Valid.openScope
  addVariable? := fun hmem hadd hvalid => hvalid.addVariable? (h _ hmem) hadd

/-- The types of the variables that a phrase declares. Only statements declare any. -/
def Phrase.variableTypes : Phrase → List Ty
  | .stmt s => s.variableTypes
  | .expr _ | .target _ _ | .rhs _ _ => []

section Invariant

variable {types : List Ty} {Q : SymbolTable → Prop} {table : SymbolTable}

/-- An inspection under a table with the property, of a phrase that declares such types only. -/
structure Inspection.Upholds (types : List Ty) (Q : SymbolTable → Prop) (i : Inspection) :
    Prop where
  table : Q i.table
  types : i.phrase.variableTypes ⊆ types

theorem Expr.inspections_uphold (e : Expr) (h : Q table) :
    ∀ i ∈ e.inspections table, i.Upholds types Q := by
  simpa [Expr.inspections, inspectAll] using fun e _ => ⟨h, List.nil_subset _⟩

theorem inspectAll_uphold (es : List Expr) (h : Q table) :
    ∀ i ∈ inspectAll table es, i.Upholds types Q := by
  simpa [inspectAll] using fun e _ => ⟨h, List.nil_subset _⟩

theorem Target.inspections_uphold (target : Target) (span : Span) (h : Q table) :
    ∀ i ∈ target.inspections table span, i.Upholds types Q := by
  refine List.forall_mem_cons.2 ⟨⟨h, List.nil_subset _⟩, ?_⟩
  cases target with
  | ident name => simp
  | elem name indices => exact inspectAll_uphold _ h
  | side which pair => exact pair.inspections_uphold h

theorem Rhs.inspections_uphold (rhs : Rhs) (span : Span) (h : Q table) :
    ∀ i ∈ rhs.inspections table span, i.Upholds types Q := by
  refine List.forall_mem_cons.2 ⟨⟨h, List.nil_subset _⟩, ?_⟩
  cases rhs with
  | expr e | side which e => exact e.inspections_uphold h
  | array es | call name es => exact inspectAll_uphold _ h
  | newPair fst snd =>
    exact List.forall_mem_append.2 ⟨fst.inspections_uphold h, snd.inspections_uphold h⟩

/-- An invariant holds of the table after a statement. -/
theorem SymbolTable.Invariant.check (hinv : Invariant types Q) {s : Stmt}
    (htypes : s.variableTypes ⊆ types) (h : Q table) : Q (s.check table).value.2 := by
  -- Only a declaration adds to the innermost scope, and only a sequence passes on what its parts
  -- have added.
  induction s generalizing table with
  | declare span ty name rhs =>
    simp only [Stmt.check, value_bind]
    cases hadd : table.addVariable? name ty with
    | some after => exact hinv.addVariable? (htypes (by simp [Stmt.variableTypes])) hadd h
    | none => exact h
  | seq span first second ihFirst ihSecond =>
    obtain ⟨hfirst, hsecond⟩ := List.append_subset.1 htypes
    simp only [Stmt.check, value_bind]
    split
    · exact ihFirst hfirst h
    · exact ihSecond hsecond (ihFirst hfirst h)
  | skip | assign | increment | read | free | ret | exit | print | println | ifThen | ifElse
  | whileDo | doWhile | forLoop | block =>
    rw [Stmt.check_of_slots rfl]
    exact h

theorem SymbolTable.Invariant.forTable (hinv : Invariant types Q) {init : Stmt}
    (htypes : init.variableTypes ⊆ types) (h : Q table) : Q (init.forTable table) := by
  unfold Stmt.forTable Stmt.checkClause
  split
  · exact hinv.check htypes (hinv.openScope h)
  · exact hinv.openScope h

/-- An invariant holds of every table that a statement is checked with. -/
theorem Stmt.inspections_uphold (hinv : SymbolTable.Invariant types Q) {s : Stmt}
    (htypes : s.variableTypes ⊆ types) (h : Q table) :
    ∀ i ∈ s.inspections table, i.Upholds types Q := by
  induction s generalizing table with
  | skip | increment => exact List.forall_mem_cons.2 ⟨⟨h, htypes⟩, by simp⟩
  | declare span ty name rhs =>
    exact List.forall_mem_cons.2 ⟨⟨h, htypes⟩, rhs.inspections_uphold span h⟩
  | assign span target rhs =>
    exact List.forall_mem_cons.2 ⟨⟨h, htypes⟩, List.forall_mem_append.2
      ⟨target.inspections_uphold span h, rhs.inspections_uphold span h⟩⟩
  | read span target =>
    exact List.forall_mem_cons.2 ⟨⟨h, htypes⟩, target.inspections_uphold span h⟩
  | free span e | ret span e | exit span e | print span e | println span e =>
    exact List.forall_mem_cons.2 ⟨⟨h, htypes⟩, e.inspections_uphold h⟩
  | ifThen span cond body ih | whileDo span cond body ih =>
    exact List.forall_mem_cons.2 ⟨⟨h, htypes⟩, List.forall_mem_append.2
      ⟨cond.inspections_uphold h, ih htypes (hinv.openScope h)⟩⟩
  | doWhile span body cond ih =>
    exact List.forall_mem_cons.2 ⟨⟨h, htypes⟩, List.forall_mem_append.2
      ⟨ih htypes (hinv.openScope h), cond.inspections_uphold h⟩⟩
  | ifElse span cond thenArm elseArm ihThen ihElse =>
    obtain ⟨hthen, helse⟩ := List.append_subset.1 htypes
    exact List.forall_mem_cons.2 ⟨⟨h, htypes⟩, List.forall_mem_append.2
      ⟨cond.inspections_uphold h, List.forall_mem_append.2
        ⟨ihThen hthen (hinv.openScope h), ihElse helse (hinv.openScope h)⟩⟩⟩
  | forLoop span init cond step body ihInit ihStep ihBody =>
    obtain ⟨hclauses, hbody⟩ := List.append_subset.1 htypes
    obtain ⟨hinit, hstep⟩ := List.append_subset.1 hclauses
    have htable := hinv.forTable hinit h
    -- What is not inspected need not be considered.
    have clause {allowed : Bool} {is : List Inspection} (his : ∀ i ∈ is, i.Upholds types Q) :
        ∀ i ∈ (if allowed then is else []), i.Upholds types Q := by
      cases allowed with
      | true => exact his
      | false => simp
    refine List.forall_mem_cons.2 ⟨⟨h, htypes⟩, List.forall_mem_append.2 ⟨?_,
      List.forall_mem_append.2 ⟨?_, List.forall_mem_append.2 ⟨?_, ?_⟩⟩⟩⟩
    · exact clause (ihInit hinit (hinv.openScope h))
    · exact cond.inspections_uphold htable
    · exact clause (ihStep hstep htable)
    · exact ihBody hbody (hinv.openScope htable)
  | block span body ih =>
    exact List.forall_mem_cons.2 ⟨⟨h, htypes⟩, ih htypes (hinv.openScope h)⟩
  | seq span first second ihFirst ihSecond =>
    obtain ⟨hfirst, hsecond⟩ := List.append_subset.1 htypes
    refine List.forall_mem_cons.2 ⟨⟨h, htypes⟩, List.forall_mem_append.2 ⟨ihFirst hfirst h, ?_⟩⟩
    split
    · simp
    · exact ihSecond hsecond (hinv.check hfirst h)

end Invariant

/-! ## §6 Invalid types are reported -/

section Reported

variable {table : SymbolTable} {span : Span}

theorem useVariable_valid {name : String} (hvalid : table.Valid)
    (h : (table.useVariable name span).diagnostics = []) :
    (table.useVariable name span).value.isValid :=
  hvalid.typeOf (useVariable_clean h)

theorem elementType_valid {array : Ty} {count : Nat} (hvalid : array.isValid)
    (h : (elementType array span count).diagnostics = []) :
    (elementType array span count).value.isValid := by
  simp only [elementType, hvalid, if_true] at h ⊢
  obtain ⟨hvalue, helement⟩ := indexedType_clean hvalid h
  rw [hvalue]
  exact helement

theorem Ty.kind_toArray (ty : Ty) : ty.toArray.kind = ty.kind := by
  unfold toArray
  split
  · rfl
  · split <;> rfl

theorem Ty.isValid_toArray {ty : Ty} (h : ty.isValid) : ty.toArray.isValid := by
  simpa [isValid, kind_toArray] using h

/-- An expression without a diagnostic has a valid type. -/
theorem Expr.check_valid {e : Expr} (hvalid : table.Valid)
    (h : (e.check table).diagnostics = []) : (e.check table).value.isValid := by
  cases e with
  | int span text =>
    unfold Expr.check at h ⊢
    cases hvalue : Literal.intValue? text with
    | none => simp [hvalue, note] at h
    | some value => rfl
  | bool | char | str | null => rfl
  | ident span name => exact useVariable_valid hvalid h
  | elem span name indices =>
    simp only [Expr.check, diagnostics_bind, List.append_eq_nil_iff] at h
    exact elementType_valid (useVariable_valid hvalid h.1) h.2.2
  | unary span op operand =>
    simp only [Expr.check, value_bind, UnaryOp.value_check]
    exact op.isValid_resultType
  | binary span op lhs rhs =>
    simp only [Expr.check, value_bind, BinaryOp.value_check]
    exact op.isValid_resultType

/-- The type of a target without a diagnostic is valid. -/
theorem Target.check_valid {target : Target} (hvalid : table.Valid)
    (h : (target.check table span).diagnostics = []) : (target.check table span).value.isValid := by
  cases target with
  | ident name => exact useVariable_valid hvalid h
  | elem name indices =>
    simp only [Target.check, diagnostics_bind, List.append_eq_nil_iff] at h
    exact elementType_valid (useVariable_valid hvalid h.1) h.2.2
  | side which pair =>
    simp only [Target.check, diagnostics_bind, List.append_eq_nil_iff] at h
    exact Ty.isValid_side (sideType_clean (Expr.check_valid hvalid h.1) h.2)

/-- The type of a right side without a diagnostic is valid. -/
theorem Rhs.check_valid {rhs : Rhs} (hvalid : table.Valid)
    (h : (rhs.check table span).diagnostics = []) : (rhs.check table span).value.isValid := by
  cases rhs with
  | expr e => exact Expr.check_valid hvalid h
  | array elems =>
    cases elems with
    | nil => rfl
    | cons first rest =>
      simp only [Rhs.check, diagnostics_bind, List.append_eq_nil_iff] at h
      exact Ty.isValid_toArray (Expr.check_valid hvalid h.1)
  | newPair fst snd =>
    simp only [Rhs.check, diagnostics_bind, List.append_eq_nil_iff] at h
    exact Ty.isValid_pairOf_iff.2 ⟨Expr.check_valid hvalid h.1, Expr.check_valid hvalid h.2.1⟩
  | side which pair =>
    simp only [Rhs.check, diagnostics_bind, List.append_eq_nil_iff] at h
    exact Ty.isValid_side (sideType_clean (Expr.check_valid hvalid h.1) h.2)
  | call name args =>
    simp only [Rhs.check] at h ⊢
    cases hfound : table.function? name with
    | none => simp [hfound, note] at h
    | some signature => exact (hvalid.signature hfound).1

/-- Whatever is inspected without a diagnostic has a valid type, if it has one. -/
theorem Inspection.valid_of_clean {i : Inspection} {ty : Ty} (hvalid : i.table.Valid)
    (h : i.diagnostics = []) (hty : i.type? = some ty) : ty.isValid := by
  obtain ⟨table, phrase⟩ := i
  cases phrase with
  | stmt s => cases hty
  | expr e =>
    cases hty
    exact Expr.check_valid hvalid h
  | target target span =>
    cases hty
    exact Target.check_valid hvalid h
  | rhs rhs span =>
    cases hty
    exact Rhs.check_valid hvalid h

end Reported

/-! ## §7 Types that fit -/

section Fits

variable {table : SymbolTable} {span : Span}

/-- Nothing is noted of two valid types only if they agree. -/
theorem Ty.Meets.of_expect {expected actual : Ty} (hexpected : expected.isValid)
    (hactual : actual.isValid) (h : (expect expected actual span).diagnostics = []) :
    expected.Meets actual := by
  refine ⟨hexpected, hactual, ?_⟩
  cases hagrees : expected.agrees actual with
  | true => rfl
  | false => simp [expect, hexpected, hactual, hagrees, noteMismatch, note] at h

/-- Indices without a diagnostic are integers. -/
theorem checkIndices_meets {indices : List Expr} (hvalid : table.Valid)
    (h : (checkIndices table indices).diagnostics = []) :
    ∀ index ∈ indices, Ty.int.Meets (index.check table).value := by
  induction indices with
  | nil => simp
  | cons index rest ih =>
    simp only [checkIndices, diagnostics_bind, List.append_eq_nil_iff] at h
    exact List.forall_mem_cons.2
      ⟨.of_expect rfl (Expr.check_valid hvalid h.1) h.2.1, ih h.2.2⟩

/-- Arguments without a diagnostic meet their parameters, one by one. -/
theorem checkArgs_meets {params : List Param} {args : List Expr} (hvalid : table.Valid)
    (hparams : ∀ param ∈ params, param.ty.isValid) (hlength : args.length = params.length)
    (h : (checkArgs table params args).diagnostics = []) :
    List.Forall₂ (fun param arg => param.ty.Meets (arg.check table).value) params args := by
  induction params generalizing args with
  | nil =>
    obtain rfl := List.eq_nil_of_length_eq_zero hlength
    exact .nil
  | cons param params ih =>
    obtain ⟨hparam, hparams⟩ := List.forall_mem_cons.1 hparams
    cases args with
    | nil => cases hlength
    | cons arg args =>
      simp only [checkArgs, diagnostics_bind, List.append_eq_nil_iff] at h
      exact .cons (.of_expect hparam (Expr.check_valid hvalid h.1) h.2.1)
        (ih hparams (Nat.succ.inj hlength) h.2.2)

/-- A condition without a diagnostic is a Boolean. -/
theorem checkCondition_meets {cond : Expr} (hvalid : table.Valid)
    (h : (checkCondition table cond).diagnostics = []) :
    Ty.bool.Meets (cond.check table).value := by
  simp only [checkCondition, diagnostics_bind, List.append_eq_nil_iff] at h
  exact .of_expect rfl (Expr.check_valid hvalid h.1) h.2

/-- The types at a statement without a diagnostic fit. -/
theorem Stmt.fits_of_clean {s : Stmt} (hvalid : table.Valid)
    (htypes : ∀ ty ∈ s.variableTypes, ty.isValid) (h : (s.check table).diagnostics = []) :
    s.Fits table := by
  cases s with
  | declare span ty name rhs =>
    simp only [check, diagnostics_bind, List.append_eq_nil_iff] at h
    exact .of_expect (htypes ty (by simp [variableTypes])) (Rhs.check_valid hvalid h.1) h.2.1
  | assign span target rhs =>
    simp only [check, diagnostics_bind, List.append_eq_nil_iff] at h
    exact .of_expect (Target.check_valid hvalid h.1) (Rhs.check_valid hvalid h.2.1) h.2.2.1
  | increment span name =>
    simp only [check] at h
    cases hty : table.typeOf? name with
    | none => simp [hty, note] at h
    | some ty =>
      simp only [hty, diagnostics_bind, List.append_eq_nil_iff] at h
      exact ⟨ty, hty, .of_expect rfl (hvalid.typeOf hty) h.1⟩
  | exit span e =>
    simp only [check, diagnostics_bind, List.append_eq_nil_iff] at h
    exact .of_expect rfl (Expr.check_valid hvalid h.1) h.2.1
  | ifThen span cond body | whileDo span cond body | ifElse span cond thenArm elseArm =>
    simp only [check, diagnostics_bind, List.append_eq_nil_iff] at h
    exact checkCondition_meets hvalid h.1
  | doWhile span body cond =>
    simp only [check, diagnostics_bind, List.append_eq_nil_iff, value_scoped_check] at h
    exact checkCondition_meets hvalid h.2.1
  | forLoop span init cond step body =>
    rw [check_forLoop, SymbolTable.diagnostics_scoped, checkFor_eq] at h
    simp only [diagnostics_bind, List.append_eq_nil_iff] at h
    -- The condition is checked after the first clause, which may have declared a variable.
    have htable : (init.forTable table).Valid := (SymbolTable.invariant_valid htypes).forTable
      (fun ty hty => List.mem_append_left _ (List.mem_append_left _ hty)) hvalid
    exact checkCondition_meets htable h.2.1
  | skip | read | free | ret | print | println | block | seq => trivial

/-- The types at an inspected phrase without a diagnostic fit. -/
theorem Inspection.fits_of_clean {i : Inspection} (hvalid : i.table.Valid)
    (htypes : ∀ ty ∈ i.phrase.variableTypes, ty.isValid) (h : i.diagnostics = []) : i.Fits := by
  obtain ⟨table, phrase⟩ := i
  cases phrase with
  | stmt s => exact Stmt.fits_of_clean hvalid htypes h
  | expr e =>
    cases e with
    | elem span name indices =>
      simp only [diagnostics, Expr.check, diagnostics_bind, List.append_eq_nil_iff] at h
      exact checkIndices_meets hvalid h.2.1
    | int | bool | char | str | null | ident | unary | binary => trivial
  | target target span =>
    cases target with
    | elem name indices =>
      simp only [diagnostics, Target.check, diagnostics_bind, List.append_eq_nil_iff] at h
      exact checkIndices_meets hvalid h.2.1
    | ident | side => trivial
  | rhs rhs span =>
    cases rhs with
    | call name args =>
      simp only [diagnostics, Rhs.check] at h
      cases hfound : table.function? name with
      | none => simp [hfound, note] at h
      | some signature =>
        simp only [hfound, diagnostics_bind, List.append_eq_nil_iff] at h
        -- A wrong number of arguments is noted.
        have hlength : args.length = signature.params.length := by
          by_contra hdiffer
          simp [noteIf, hdiffer, note] at h
        exact ⟨signature, hfound,
          checkArgs_meets hvalid (hvalid.signature hfound).2 hlength h.2.1⟩
    | expr | array | newPair | side => trivial

end Fits

/-! ## §8 Programs -/

namespace Program

/-- The invariants of a program's tables hold of every table that it is checked with. -/
theorem inspections_uphold {p : Program} {Q : SymbolTable → Prop}
    (hinv : SymbolTable.Invariant p.variableTypes Q) (hmain : Q p.declared)
    (hentry : ∀ f ∈ p.functions, Q (f.entry p.declared)) :
    ∀ i ∈ p.inspections, i.Upholds p.variableTypes Q := by
  intro i hi
  rcases List.mem_append.1 hi with hi | hi
  · obtain ⟨f, hf, hi⟩ := List.mem_flatMap.1 hi
    refine Stmt.inspections_uphold hinv (fun ty hty => ?_) (hentry f hf) i hi
    exact List.mem_append_left _ (List.mem_flatMap.2 ⟨f, hf, List.mem_append_right _ hty⟩)
  · exact Stmt.inspections_uphold hinv (List.subset_append_right _ _) hmain i hi

/-- A program with valid types is checked with valid tables only. -/
theorem inspections_valid {p : Program} (hreturns : ∀ f ∈ p.functions, f.returnType.isValid)
    (htypes : ∀ ty ∈ p.variableTypes, ty.isValid) :
    ∀ i ∈ p.inspections, i.Upholds p.variableTypes SymbolTable.Valid := by
  have hparams : ∀ f ∈ p.functions, ∀ param ∈ f.params, param.ty.isValid := fun f hf param hparam =>
    htypes _ (List.mem_append_left _ (List.mem_flatMap.2
      ⟨f, hf, List.mem_append_left _ (List.mem_map_of_mem hparam)⟩))
  have hdeclared : p.declared.Valid :=
    declareFunctions_valid ⟨by simp [SymbolTable.scopes], by simp⟩ hreturns hparams
  exact inspections_uphold (SymbolTable.invariant_valid htypes) hdeclared
    (fun f _ => hdeclared.entry f)

/-- No problem is lost because an invalid type keeps later checks quiet. In a program that declares
no variable, parameter or return type as invalid, every phrase of invalid type has a diagnostic of
its own, which is in the report of the program. So if nothing is reported, the types at every
inspected phrase fit and are valid. -/
theorem nothing_suppressed {p : Program}
    (hreturns : ∀ f ∈ p.functions, f.returnType.kind ≠ .invalid)
    (htypes : ∀ ty ∈ p.variableTypes, ty.kind ≠ .invalid) :
    (∀ i ∈ p.inspections, i.diagnostics <:+: p.check.diagnostics ∧
      ∀ ty, i.type? = some ty → ty.kind = .invalid → i.diagnostics ≠ []) ∧
    (p.check.diagnostics = [] → ∀ i ∈ p.inspections, i.Fits) := by
  have hvalid {ty : Ty} : ty.isValid ↔ ty.kind ≠ .invalid := by
    obtain ⟨kind, dims⟩ := ty
    cases kind <;> simp [Ty.isValid]
  simp only [← hvalid] at hreturns htypes
  have hupholds := inspections_valid hreturns htypes
  refine ⟨fun i hi => ⟨p.check_records i hi, fun ty hty hinvalid hnone => ?_⟩,
    fun hclean i hi => ?_⟩
  · exact hvalid.1 (Inspection.valid_of_clean (hupholds i hi).table hnone hty) hinvalid
  · have hnone : i.diagnostics = [] := List.eq_nil_of_infix_nil (hclean ▸ p.check_records i hi)
    exact Inspection.fits_of_clean (hupholds i hi).table
      (fun ty hty => htypes ty ((hupholds i hi).types hty)) hnone

/-- All 42 inspections of this program fit. -/
theorem nothing_suppressed_sumProgram :
    (∀ f ∈ sumProgram.functions, f.returnType.kind ≠ .invalid) ∧
    (∀ ty ∈ sumProgram.variableTypes, ty.kind ≠ .invalid) ∧ sumProgram.inspections.length = 42 ∧
    sumProgram.check.diagnostics = [] ∧ ∀ i ∈ sumProgram.inspections, i.Fits := by
  have hreturns : ∀ f ∈ sumProgram.functions, f.returnType.kind ≠ .invalid := by decide
  have htypes : ∀ ty ∈ sumProgram.variableTypes, ty.kind ≠ .invalid := by decide
  have hclean : sumProgram.check.diagnostics = [] := by decide
  exact ⟨hreturns, htypes, by decide, hclean, (nothing_suppressed hreturns htypes).2 hclean⟩

end Program

end ArmCompiler
