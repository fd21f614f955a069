import ArmCompiler.Config
import ArmCompiler.Lowering.Stmt
import ArmCompiler.Typing.Program

/-!
# Compiling Programs

A program is checked, and if nothing is wrong with it, its functions and its main body are
lowered one after the other into one listing.
-/

namespace ArmCompiler

/-- A listing and the resources that the code still to come can use. -/
structure Assembly where
  resources : Resources
  listing : Listing := {}

namespace Assembly

/-- Nothing assembled yet. -/
def start (config : Config) : Assembly :=
  { resources := { pool := .ofCount config.generalRegisters } }

/-- Adds a sequence that starts with a frame of its own. -/
def add (config : Config) (label : String) (frame : Frame) (body : Lower Unit)
    (assembly : Assembly) : Except CompileError Assembly := do
  let listing ← assembly.listing.start label true
  let lowered ← body.run { assembly.resources with frame }
  let (code, listing) ← listing.expandAll config.stackChunk lowered.code
  let listing ← (listing.emitAll code).finish .userRet
  return { resources := lowered.resources, listing }

end Assembly

/-- The code of a function or main body, in a scope of its own. -/
def Stmt.lowerBody (table : SymbolTable) (body : Stmt) : Lower Unit :=
  Lower.inScope body.slots (body.lower table)

/-- Adds the code of a function. -/
def Function.assemble (table : SymbolTable) (config : Config) (assembly : Assembly)
    (f : Function) : Except CompileError Assembly :=
  assembly.add config (Lower.functionLabel f.name) (.ofParams f.params)
    (f.body.lowerBody table)

/-- Adds the code of the main body, which ends with result zero. -/
def Stmt.assembleMain (table : SymbolTable) (config : Config) (assembly : Assembly)
    (body : Stmt) : Except CompileError Assembly :=
  assembly.add config "main" {} do
    body.lowerBody table
    Lower.emit (.loadConst .r0 0)

namespace Program

/-- The listing of a program, given the signatures of the functions it calls. -/
def assemble (table : SymbolTable) (config : Config) (p : Program) :
    Except CompileError Listing := do
  config.validate
  let assembly ← p.functions.foldlM (Function.assemble table config) (.start config)
  let assembly ← p.body.assembleMain table config assembly
  return assembly.listing

/-- The assembly text of a program, given the signatures of the functions it calls. The
program is taken as it is, whether checking it would find problems or not. -/
def generate (table : SymbolTable) (config : Config) (p : Program) :
    Except CompileError String := do
  let listing ← p.assemble table config
  return listing.render

/-- The symbol table of a program without problems. -/
def checked (p : Program) : Except CompileError SymbolTable :=
  match p.check with
  | { value := table, diagnostics := [] } => .ok table
  | { diagnostics, .. } => .error (.semantic diagnostics)

/-- Checks a program and gives its assembly text. -/
def compile (p : Program) (config : Config := {}) : Except CompileError String := do
  config.validate
  let table ← p.checked
  p.generate table config

end Program

end ArmCompiler
