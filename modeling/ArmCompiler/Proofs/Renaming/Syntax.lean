import ArmCompiler.Proofs.Scopes

/-!
# Renaming Variables

A renaming gives every variable of a program another name, parameters and locals and all their uses
alike. Function names stay. The renaming of a table renames the variables in its scopes and in the
signatures of its functions.

## Contents
- §1: renaming syntax
- §2: renaming tables
-/

namespace ArmCompiler

/-! ## §1 Renaming syntax -/

mutual

/-- The expression with its variables renamed. -/
def Expr.rename (ρ : String → String) : Expr → Expr
  | .ident span name => .ident span (ρ name)
  | .elem span name indices => .elem span (ρ name) (renameAll ρ indices)
  | .unary span op operand => .unary span op (operand.rename ρ)
  | .binary span op lhs rhs => .binary span op (lhs.rename ρ) (rhs.rename ρ)
  | .int span text => .int span text
  | .bool span value => .bool span value
  | .char span value => .char span value
  | .str span raw => .str span raw
  | .null span => .null span

/-- The expressions of a list with their variables renamed. -/
def renameAll (ρ : String → String) : List Expr → List Expr
  | [] => []
  | e :: rest => e.rename ρ :: renameAll ρ rest

end

/-- The target with its variables renamed. -/
def Target.rename (ρ : String → String) : Target → Target
  | .ident name => .ident (ρ name)
  | .elem name indices => .elem (ρ name) (renameAll ρ indices)
  | .side which pair => .side which (pair.rename ρ)

/-- The right side with its variables renamed. A called function keeps its name. -/
def Rhs.rename (ρ : String → String) : Rhs → Rhs
  | .expr e => .expr (e.rename ρ)
  | .array elems => .array (renameAll ρ elems)
  | .newPair fst snd => .newPair (fst.rename ρ) (snd.rename ρ)
  | .side which pair => .side which (pair.rename ρ)
  | .call name args => .call name (renameAll ρ args)

/-- The statement with its variables renamed. -/
def Stmt.rename (ρ : String → String) : Stmt → Stmt
  | .skip span => .skip span
  | .declare span ty name rhs => .declare span ty (ρ name) (rhs.rename ρ)
  | .assign span target rhs => .assign span (target.rename ρ) (rhs.rename ρ)
  | .increment span name => .increment span (ρ name)
  | .read span target => .read span (target.rename ρ)
  | .free span e => .free span (e.rename ρ)
  | .ret span e => .ret span (e.rename ρ)
  | .exit span e => .exit span (e.rename ρ)
  | .print span e => .print span (e.rename ρ)
  | .println span e => .println span (e.rename ρ)
  | .ifThen span cond thenArm => .ifThen span (cond.rename ρ) (thenArm.rename ρ)
  | .ifElse span cond thenArm elseArm =>
    .ifElse span (cond.rename ρ) (thenArm.rename ρ) (elseArm.rename ρ)
  | .whileDo span cond body => .whileDo span (cond.rename ρ) (body.rename ρ)
  | .doWhile span body cond => .doWhile span (body.rename ρ) (cond.rename ρ)
  | .forLoop span init cond step body =>
    .forLoop span (init.rename ρ) (cond.rename ρ) (step.rename ρ) (body.rename ρ)
  | .block span body => .block span (body.rename ρ)
  | .seq span first second => .seq span (first.rename ρ) (second.rename ρ)

/-- The parameter under its new name. -/
def Param.rename (ρ : String → String) (param : Param) : Param :=
  { param with name := ρ param.name }

/-- The function with its parameters and variables renamed. -/
def Function.rename (ρ : String → String) (f : Function) : Function :=
  { f with params := f.params.map (·.rename ρ), body := f.body.rename ρ }

/-- The program with all its variables renamed. -/
def Program.rename (ρ : String → String) (p : Program) : Program :=
  { functions := p.functions.map (·.rename ρ), body := p.body.rename ρ }

section Shape

variable {ρ : String → String}

@[simp] theorem Expr.span_rename (e : Expr) : (e.rename ρ).span = e.span := by
  cases e <;> simp only [rename, span]

@[simp] theorem length_renameAll (elems : List Expr) :
    (renameAll ρ elems).length = elems.length := by
  induction elems with
  | nil => rfl
  | cons e rest ih => simp [renameAll, ih]

@[simp] theorem Stmt.span_rename (s : Stmt) : (s.rename ρ).span = s.span := by
  cases s <;> rfl

@[simp] theorem Stmt.isReturn_rename (s : Stmt) : (s.rename ρ).isReturn = s.isReturn := by
  cases s <;> rfl

@[simp] theorem Stmt.isForInit_rename (s : Stmt) : (s.rename ρ).isForInit = s.isForInit := by
  cases s <;> rfl

@[simp] theorem Stmt.isForStep_rename (s : Stmt) : (s.rename ρ).isForStep = s.isForStep := by
  cases s <;> rfl

end Shape

/-! ## §2 Renaming tables -/

/-- Entries under their new names. -/
def renameKeys {α : Type} (ρ : String → String) (entries : List (String × α)) :
    List (String × α) :=
  entries.map fun entry => (ρ entry.1, entry.2)

/-- Where different names stay different, an entry is found under its new name. -/
theorem lookup_renameKeys {α : Type} {ρ : String → String} (hρ : ρ.Injective)
    (entries : List (String × α)) (name : String) :
    (renameKeys ρ entries).lookup (ρ name) = entries.lookup name := by
  induction entries with
  | nil => rfl
  | cons entry rest ih =>
    -- The search stops at the same entry, since no other name is renamed to this one.
    have hsame : (ρ name == ρ entry.1) = (name == entry.1) := by
      rw [Bool.eq_iff_iff, beq_iff_eq, beq_iff_eq]
      exact hρ.eq_iff
    rw [renameKeys, List.map_cons, List.lookup_cons, List.lookup_cons, hsame]
    cases name == entry.1
    · exact ih
    · rfl

/-- The signature with its parameters renamed. -/
def Signature.rename (ρ : String → String) (signature : Signature) : Signature :=
  { signature with params := signature.params.map (·.rename ρ) }

namespace SymbolTable

/-- The table with its variables renamed. -/
def rename (ρ : String → String) (table : SymbolTable) : SymbolTable where
  innermost := renameKeys ρ table.innermost
  outer := table.outer.map (renameKeys ρ)
  functions := table.functions.map (·.rename ρ)
  current := table.current

variable {ρ : String → String}

@[simp] theorem rename_closeScope (table : SymbolTable) :
    (table.rename ρ).closeScope = table.closeScope.rename ρ := by
  obtain ⟨innermost, outer, functions, current⟩ := table
  cases outer <;> rfl

/-- Functions keep their names. -/
@[simp] theorem function?_rename (table : SymbolTable) (name : String) :
    (table.rename ρ).function? name = (table.function? name).map (·.rename ρ) := by
  simp only [function?, rename, List.find?_map]
  rfl

@[simp] theorem params_rename (table : SymbolTable) (name : String) :
    (table.rename ρ).params name = (table.params name).map (·.rename ρ) := by
  simp only [params, function?_rename]
  cases table.function? name <;> rfl

theorem addFunction?_rename (table : SymbolTable) (signature : Signature) :
    (table.rename ρ).addFunction? (signature.rename ρ) =
      (table.addFunction? signature).map (·.rename ρ) := by
  have hname : (signature.rename ρ).name = signature.name := rfl
  simp only [addFunction?, hname, function?_rename]
  cases table.function? signature.name with
  | none => simp [rename]
  | some known => rfl

section Injective

variable (hρ : ρ.Injective)
include hρ

theorem typeOf?_rename (table : SymbolTable) (name : String) :
    (table.rename ρ).typeOf? (ρ name) = table.typeOf? name := by
  have hscopes : (table.rename ρ).scopes = table.scopes.map (renameKeys ρ) := rfl
  simp only [typeOf?, hscopes, List.findSome?_map, Function.comp_def, lookup_renameKeys hρ]

theorem addVariable?_rename (table : SymbolTable) (name : String) (ty : Ty) :
    (table.rename ρ).addVariable? (ρ name) ty =
      (table.addVariable? name ty).map (·.rename ρ) := by
  have hinnermost : (table.rename ρ).innermost = renameKeys ρ table.innermost := rfl
  simp only [addVariable?, hinnermost, lookup_renameKeys hρ]
  cases table.innermost.lookup name <;> rfl

/-- The same parameters are bound, and the same ones clash. -/
theorem bindParams_rename (table : SymbolTable) (params : List Param) :
    (table.rename ρ).bindParams (params.map (·.rename ρ)) =
      ((table.bindParams params).1.map ρ, (table.bindParams params).2.rename ρ) := by
  induction params generalizing table with
  | nil => rfl
  | cons param rest ih =>
    -- A parameter clashes under its new name exactly if it did before, so both runs go on with
    -- mirrored tables.
    have hadd : (table.rename ρ).addVariable? (param.rename ρ).name (param.rename ρ).ty =
        (table.addVariable? param.name param.ty).map (·.rename ρ) :=
      addVariable?_rename hρ table param.name param.ty
    rw [List.map_cons, bindParams, bindParams, hadd]
    cases table.addVariable? param.name param.ty with
    | some added => exact ih added
    | none =>
      simp only [Option.map_none, ih]
      rfl

theorem enterFunction_rename (table : SymbolTable) (name : String) :
    (table.rename ρ).enterFunction name =
      ((table.enterFunction name).1.map ρ, (table.enterFunction name).2.rename ρ) := by
  rw [enterFunction, params_rename]
  exact bindParams_rename hρ { table with current := some name } (table.params name)

end Injective

end SymbolTable

end ArmCompiler
