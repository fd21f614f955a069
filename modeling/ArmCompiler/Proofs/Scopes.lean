import ArmCompiler.Proofs.CheckedPrograms

/-!
# Scope Discipline

What checking does to the symbol table, whatever it finds wrong on the way. A statement binds the
variables that it declares directly, in the innermost scope, and leaves all else as it was. So every
function body is checked from the same table, and a program leaves behind one scope with the
variables of its main body and the signatures of its functions. Main statement: `scopes_kept`.

## Contents
- §1: direct declarations
- §2: tables that gain variables
- §3: statements
- §4: functions
- §5: programs
-/

namespace ArmCompiler

open Report

/-! ## §1 Direct declarations -/

/-- The variables that a statement declares in the scope it stands in, in order. What follows a
return directly is not looked at. -/
def Stmt.declarations : Stmt → List (String × Ty)
  | .declare _ ty name _ => [(name, ty)]
  | .seq _ first second =>
    first.declarations ++ if first.isReturn then [] else second.declarations
  | .skip .. | .assign .. | .increment .. | .read .. | .free .. | .ret .. | .exit .. | .print ..
  | .println .. | .ifThen .. | .ifElse .. | .whileDo .. | .doWhile .. | .forLoop .. | .block .. =>
    []

/-! ## §2 Tables that gain variables -/

/-- The table becomes `after` by declarations in the innermost scope. A name that the scope binds
already keeps its type, and of two declarations of one name the first counts. -/
structure SymbolTable.Gains (table : SymbolTable) (declared : List (String × Ty))
    (after : SymbolTable) : Prop where
  depth : after.depth = table.depth
  outer : after.outer = table.outer
  innermost : ∀ name,
    after.innermost.lookup name = (table.innermost.lookup name).or (declared.lookup name)
  functions : after.functions = table.functions
  current : after.current = table.current

namespace SymbolTable.Gains

variable {table mid after : SymbolTable} {a b : List (String × Ty)}

theorem nothing (table : SymbolTable) : table.Gains [] table where
  depth := rfl
  outer := rfl
  innermost := fun name => by simp
  functions := rfl
  current := rfl

/-- What is gained one after the other is gained together. -/
theorem trans (h : table.Gains a mid) (h' : mid.Gains b after) : table.Gains (a ++ b) after where
  depth := h'.depth.trans h.depth
  outer := h'.outer.trans h.outer
  innermost := fun name => by
    rw [h'.innermost, h.innermost, List.lookup_append, Option.or_assoc]
  functions := h'.functions.trans h.functions
  current := h'.current.trans h.current

/-- A variable that can be bound is gained. -/
theorem of_added {name : String} {ty : Ty} (h : table.addVariable? name ty = some after) :
    table.Gains [(name, ty)] after := by
  unfold addVariable? at h
  split at h
  · cases h
  · rename_i unbound
    cases h
    refine ⟨rfl, rfl, fun other => ?_, rfl, rfl⟩
    by_cases same : other = name
    · subst same
      simp [unbound]
    · simp [List.lookup_cons, beq_false_of_ne same]

/-- A variable that cannot be bound is bound already, and keeps its type. -/
theorem of_clash {name : String} {ty : Ty} (h : table.addVariable? name ty = none) :
    table.Gains [(name, ty)] table := by
  rw [addVariable?_eq_none_iff] at h
  obtain ⟨bound, hbound⟩ := Option.isSome_iff_exists.1 h
  refine ⟨rfl, rfl, fun other => ?_, rfl, rfl⟩
  by_cases same : other = name
  · subst same
    simp [hbound]
  · simp [List.lookup_cons, beq_false_of_ne same]

end SymbolTable.Gains

/-! ## §3 Statements -/

/-- A statement without a slot of its own leaves the table alone. -/
theorem Stmt.check_gains_nothing {s : Stmt} (hslots : s.slots = 0) (hnone : s.declarations = [])
    (table : SymbolTable) : table.Gains s.declarations (s.check table).value.2 := by
  rw [check_of_slots hslots, hnone]
  exact .nothing table

/-- Checking a statement adds the variables that it declares directly, and nothing else. -/
theorem Stmt.check_gains (s : Stmt) (table : SymbolTable) :
    table.Gains s.declarations (s.check table).value.2 := by
  induction s generalizing table with
  | declare span ty name rhs =>
    simp only [check, value_bind]
    cases hadd : table.addVariable? name ty with
    | some after => exact .of_added hadd
    | none => exact .of_clash hadd
  | seq span first second ihFirst ihSecond =>
    simp only [check, value_bind, declarations]
    by_cases hreturn : first.isReturn
    · simpa [hreturn] using ihFirst table
    · simpa [hreturn] using (ihFirst table).trans (ihSecond _)
  -- Only declarations and sequences of them reach the innermost scope.
  | skip | assign | increment | read | free | ret | exit | print | println | ifThen | ifElse
  | whileDo | doWhile | forLoop | block => exact check_gains_nothing rfl rfl table

/-- A clause of a `for` header is checked if it may stand there, and passed over if not. -/
def Stmt.checkClause (allowed : Bool) (clause : Stmt) (table : SymbolTable) : Report SymbolTable :=
  if allowed then
    (·.2) <$> clause.check table
  else do
    note .misplacedStatement clause.span
    pure table

/-- The check of a `for` loop, clause by clause. -/
theorem Stmt.checkFor_eq (init : Stmt) (cond : Expr) (step body : Stmt) (table : SymbolTable) :
    checkFor init cond step body table = (do
      let table ← init.checkClause init.isForInit table
      checkCondition table cond
      let table ← step.checkClause step.isForStep table
      table.scoped body.check) := by
  unfold checkFor checkClause
  by_cases hinit : init.isForInit <;> by_cases hstep : step.isForStep <;> simp [hinit, hstep]

/-- The last clause declares nothing. -/
theorem Stmt.value_checkClause_step (step : Stmt) (table : SymbolTable) :
    (step.checkClause step.isForStep table).value = table := by
  unfold checkClause
  split
  · rename_i hstep
    exact check_of_slots (slots_of_isForStep hstep) table
  · rfl

/-! ## §4 Functions -/

/-- Binding parameters adds variables to the innermost scope and changes nothing else. -/
theorem SymbolTable.bindParams_extends (table : SymbolTable) (params : List Param) :
    (table.bindParams params).2.Extends table := by
  induction params generalizing table with
  | nil => exact .refl table
  | cons param rest ih =>
    unfold bindParams
    cases hadd : table.addVariable? param.name param.ty with
    | some added => exact (ih added).trans (.addVariable? hadd)
    | none => exact ih table

/-- Entering a function changes the current function and the innermost scope. -/
theorem SymbolTable.enterFunction_extends (table : SymbolTable) (name : String) :
    (table.enterFunction name).2.Extends { table with current := some name } :=
  bindParams_extends _ _

/-- Checking a function leaves the table as it was, outside of any function. -/
theorem Function.value_check (f : Function) (table : SymbolTable) :
    (f.check table).value = table.leaveFunction := by
  have hextends := (f.body.check_extends _).trans (table.openScope.enterFunction_extends f.name)
  simp only [check, value_bind, value_pure]
  generalize (f.body.check (table.openScope.enterFunction f.name).2).value.2 = after at hextends
  obtain ⟨innermost, outer, functions, current⟩ := after
  obtain ⟨rfl, rfl, rfl⟩ := hextends
  rfl

/-- Outside of any function there is none to leave. -/
theorem SymbolTable.leaveFunction_eq (table : SymbolTable) (hcurrent : table.current = none) :
    table.leaveFunction = table := by
  rw [leaveFunction, ← hcurrent]

/-- Outside of any function the table stays as it is while functions are checked. -/
theorem value_checkFunctions (functions : List Function) {table : SymbolTable}
    (hcurrent : table.current = none) :
    (functions.foldlM Function.check table).value = table := by
  induction functions with
  | nil => rfl
  | cons f rest ih =>
    rw [List.foldlM_cons, value_bind, f.value_check, table.leaveFunction_eq hcurrent, ih]

/-- Functions that are checked in a row are each checked under the same table. -/
theorem diagnostics_checkFunctions (functions : List Function) {table : SymbolTable}
    (hcurrent : table.current = none) :
    (functions.foldlM Function.check table).diagnostics =
      functions.flatMap fun f => (f.check table).diagnostics := by
  induction functions with
  | nil => rfl
  | cons f rest ih =>
    rw [List.foldlM_cons, diagnostics_bind, f.value_check, table.leaveFunction_eq hcurrent, ih,
      List.flatMap_cons]

/-- Functions that are made known one after the other leave the variables alone. A name stands for
the function that was known before, or else for the first one of that name. -/
theorem value_declareFunctions (functions : List Function) (table : SymbolTable) :
    (functions.foldlM Function.declare table).value.innermost = table.innermost ∧
      (functions.foldlM Function.declare table).value.outer = table.outer ∧
      (functions.foldlM Function.declare table).value.current = table.current ∧
      ∀ name, (functions.foldlM Function.declare table).value.function? name =
        (table.function? name).or
          ((functions.find? fun f => f.name == name).map Function.signature) := by
  induction functions generalizing table with
  | nil => simp
  | cons f rest ih =>
    rw [List.foldlM_cons, value_bind]
    cases hknown : table.function? f.name with
    | some known =>
      have hsame : (f.declare table).value = table := by
        simp [Function.declare, SymbolTable.addFunction?, Function.signature, hknown]
      rw [hsame]
      obtain ⟨hinner, houter, hcurrent, hfunctions⟩ := ih table
      refine ⟨hinner, houter, hcurrent, fun name => ?_⟩
      rw [hfunctions, List.find?_cons]
      by_cases hname : f.name = name
      · simp [← hname, hknown]
      · simp [beq_false_of_ne hname]
    | none =>
      have hadd : (f.declare table).value =
          { table with functions := table.functions ++ [f.signature] } := by
        simp [Function.declare, SymbolTable.addFunction?, Function.signature, hknown]
      rw [hadd]
      obtain ⟨hinner, houter, hcurrent, hfunctions⟩ :=
        ih { table with functions := table.functions ++ [f.signature] }
      refine ⟨hinner, houter, hcurrent, fun name => ?_⟩
      have hsignature : f.signature.name = f.name := rfl
      rw [hfunctions, List.find?_cons]
      simp only [SymbolTable.function?, List.find?_append, List.find?_singleton, hsignature]
        at hknown ⊢
      by_cases hname : f.name = name
      · simp [← hname, hknown]
      · simp [beq_false_of_ne hname]

/-! ## §5 Programs -/

/-- Checking keeps to its scopes. The state of a check is a table and the diagnostics noted so far.
Whatever the state and whatever is wrong with the statement, checking a statement keeps the number
of scopes, all scopes but the innermost, the signatures and the current function; the innermost
scope gains the direct declarations; and what was noted before stays in front. So a program, with or
without problems, leaves one scope that binds the direct declarations of its main body, no current
function, and under each name the signature of the first function of that name. -/
theorem scopes_kept :
    (∀ (s : Stmt) (state : Report SymbolTable),
      state.value.Gains s.declarations (state >>= s.check).value.2 ∧
        state.diagnostics <+: (state >>= s.check).diagnostics) ∧
    ∀ p : Program, p.check.value.depth = 1 ∧ p.check.value.current = none ∧
      (∀ name, p.check.value.innermost.lookup name = p.body.declarations.lookup name) ∧
      ∀ name, p.check.value.function? name =
        (p.functions.find? fun f => f.name == name).map Function.signature := by
  refine ⟨fun s state => ⟨s.check_gains state.value, List.prefix_append _ _⟩, fun p => ?_⟩
  obtain ⟨hinner, houter, hcurrent, hfunctions⟩ := value_declareFunctions p.functions {}
  -- The main body starts from the table of the functions, in the outermost scope.
  have hvalue : p.check.value =
      (p.body.check (p.functions.foldlM Function.declare {}).value).value.2 := by
    simp only [Program.check, value_bind, value_pure]
    rw [value_checkFunctions p.functions hcurrent]
  have hgains := p.body.check_gains (p.functions.foldlM Function.declare {}).value
  rw [hvalue]
  refine ⟨?_, hgains.current.trans hcurrent, fun name => ?_, fun name => ?_⟩
  · rw [hgains.depth]
    simp [SymbolTable.depth, SymbolTable.scopes, houter]
  · rw [hgains.innermost, hinner]
    rfl
  · rw [SymbolTable.function?, hgains.functions]
    exact hfunctions name

end ArmCompiler
