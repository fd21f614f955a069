import ArmCompiler.Syntax

/-!
# Symbol Tables

What the checker knows at a point of a program: the variables of the open scopes, the
signatures of all functions, and the function whose body is being checked.

There is always an outermost scope. A name is bound at most once in a scope; an inner binding
hides an outer one until its scope is closed.

## Contents
- §1: scopes, signatures and tables
- §2: scopes and variables
- §3: functions
-/

namespace ArmCompiler

/-! ## §1 Scopes, signatures and tables -/

/-- The variables bound in one scope, latest first. -/
abbrev Scope := List (String × Ty)

/-- What a call needs to know of a function. -/
structure Signature where
  name : String
  returnType : Ty
  params : List Param := []
  deriving DecidableEq, Repr

/-- The signature with one more parameter, after those it has. -/
def Signature.addParam (signature : Signature) (param : Param) : Signature :=
  { signature with params := signature.params ++ [param] }

/-- A symbol table. The innermost scope is kept apart from the scopes around it, so that there
is always one. -/
structure SymbolTable where
  innermost : Scope := []
  outer : List Scope := []
  functions : List Signature := []
  current : Option String := none
  deriving DecidableEq, Repr

namespace SymbolTable

/-! ## §2 Scopes and variables -/

/-- The open scopes, innermost first. -/
def scopes (table : SymbolTable) : List Scope := table.innermost :: table.outer

/-- The number of open scopes. -/
def depth (table : SymbolTable) : Nat := table.scopes.length

theorem depth_pos (table : SymbolTable) : 0 < table.depth := Nat.succ_pos _

/-- Opens an empty scope. -/
def openScope (table : SymbolTable) : SymbolTable :=
  { table with innermost := [], outer := table.innermost :: table.outer }

/-- Closes the innermost scope. The outermost scope stays. -/
def closeScope (table : SymbolTable) : SymbolTable :=
  match table.outer with
  | [] => table
  | scope :: rest => { table with innermost := scope, outer := rest }

@[simp] theorem scopes_openScope (table : SymbolTable) :
    table.openScope.scopes = [] :: table.scopes := rfl

@[simp] theorem closeScope_openScope (table : SymbolTable) :
    table.openScope.closeScope = table := rfl

/-- The type of a variable, as its innermost binding gives it. -/
def typeOf? (table : SymbolTable) (name : String) : Option Ty :=
  table.scopes.findSome? fun scope => scope.lookup name

@[simp] theorem typeOf?_openScope (table : SymbolTable) (name : String) :
    table.openScope.typeOf? name = table.typeOf? name := rfl

/-- Binds a variable in the innermost scope, unless that scope binds the name already. -/
def addVariable? (table : SymbolTable) (name : String) (ty : Ty) : Option SymbolTable :=
  match table.innermost.lookup name with
  | some _ => none
  | none => some { table with innermost := (name, ty) :: table.innermost }

theorem addVariable?_eq_none_iff (table : SymbolTable) (name : String) (ty : Ty) :
    table.addVariable? name ty = none ↔ (table.innermost.lookup name).isSome := by
  unfold addVariable?
  cases table.innermost.lookup name <;> simp

/-- A variable that could be bound is found with its type, and no other variable changes. -/
theorem typeOf?_of_addVariable? {table table' : SymbolTable} {name : String} {ty : Ty}
    (added : table.addVariable? name ty = some table') (other : String) :
    table'.typeOf? other = if other = name then some ty else table.typeOf? other := by
  unfold addVariable? at added
  split at added
  · cases added
  · cases added
    by_cases same : other = name
    · simp [typeOf?, scopes, same]
    · simp [typeOf?, scopes, same, List.findSome?_cons, List.lookup_cons, beq_false_of_ne same]

/-! ## §3 Functions -/

/-- The signature of a function. -/
def function? (table : SymbolTable) (name : String) : Option Signature :=
  table.functions.find? fun signature => signature.name == name

/-- Whether a function of this name is known. -/
def isFunction (table : SymbolTable) (name : String) : Bool := (table.function? name).isSome

/-- The type that a call of the function has; invalid for an unknown function. -/
def returnType (table : SymbolTable) (name : String) : Ty :=
  ((table.function? name).map (·.returnType)).getD .invalid

/-- The parameters of a function; none for an unknown function. -/
def params (table : SymbolTable) (name : String) : List Param :=
  ((table.function? name).map (·.params)).getD []

/-- The type of the parameter at an index; invalid where there is none. -/
def paramType (table : SymbolTable) (name : String) (index : Nat) : Ty :=
  ((table.params name)[index]?.map (·.ty)).getD .invalid

/-- Makes a function known, unless one of that name is. -/
def addFunction? (table : SymbolTable) (signature : Signature) : Option SymbolTable :=
  match table.function? signature.name with
  | some _ => none
  | none => some { table with functions := table.functions ++ [signature] }

/-- Gives a known function one more parameter, after those it has. -/
def addParam? (table : SymbolTable) (name : String) (param : Param) : Option SymbolTable :=
  match table.function? name with
  | none => none
  | some _ =>
    some { table with
      functions := table.functions.map fun signature =>
        if signature.name = name then signature.addParam param else signature }

/-- Binds parameters as variables of the innermost scope, in order. Gives the names that could
not be bound because they were bound already. -/
def bindParams (table : SymbolTable) : List Param → List String × SymbolTable
  | [] => ([], table)
  | param :: rest =>
    match table.addVariable? param.name param.ty with
    | some table => table.bindParams rest
    | none =>
      let (clashes, table) := table.bindParams rest
      (param.name :: clashes, table)

/-- Makes a function the current one and binds its parameters in the innermost scope. Gives
the names of the parameters that could not be bound. -/
def enterFunction (table : SymbolTable) (name : String) : List String × SymbolTable :=
  { table with current := some name }.bindParams (table.params name)

/-- Leaves the current function. -/
def leaveFunction (table : SymbolTable) : SymbolTable := { table with current := none }

end SymbolTable

end ArmCompiler
