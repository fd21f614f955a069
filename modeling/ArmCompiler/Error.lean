import ArmCompiler.Diagnostic

/-!
# Compile Errors

Why a compilation gives no program. A program with diagnostics is refused before code is
generated; after that only running out of registers can happen to a checked program. The
remaining causes need a program that was not checked, or a wrong configuration.
-/

namespace ArmCompiler

/-- A setting out of its range. -/
inductive ConfigFault where
  | generalRegisters (count : Nat)
  | stackChunk (bytes : Nat)
  deriving DecidableEq, Repr

/-- The words for a setting out of its range. -/
def ConfigFault.message : ConfigFault → String
  | .generalRegisters count =>
    "general_registers must be between 1 and 8, got " ++ count.repr
  | .stackChunk bytes =>
    "stack_chunk must be a multiple of 4 between 4 and 1024, got " ++ bytes.repr

/-- What code generation stumbles on in a program that checking would have refused, or in a
listing that is used out of order. -/
inductive Fault where
  | unknownVariable (name : String)
  | unknownFunction (name : String)
  | literalRange (text : String)
  | noSlotLeft (name : String)
  | notPair (ty : Ty)
  | duplicateSequence (name : String)
  | noOpenSequence
  deriving DecidableEq, Repr

/-- The words for a fault. -/
def Fault.message : Fault → String
  | .unknownVariable name => "unknown variable " ++ name
  | .unknownFunction name => "unknown function " ++ name
  | .literalRange text => "integer literal " ++ text ++ " out of range"
  | .noSlotLeft name => "no stack slot left for " ++ name
  | .notPair ty => ty.text ++ " is not a pair"
  | .duplicateSequence name => "function " ++ name ++ " emitted twice"
  | .noOpenSequence => "no function is open"

/-- The reasons for giving no program. -/
inductive CompileError where
  | semantic (diagnostics : List Diagnostic)
  | registersExhausted (available : Nat)
  | config (fault : ConfigFault)
  | internal (fault : Fault)
  deriving DecidableEq, Repr

namespace CompileError

/-- The words for an error, on one line. -/
def message : CompileError → String
  | .semantic diagnostics =>
    "semantic analysis failed with " ++ diagnostics.length.repr ++ " error(s)"
  | .registersExhausted available =>
    "expression needs more than the " ++ available.repr ++ " available registers"
  | .config fault => "invalid compiler configuration: " ++ fault.message
  | .internal fault => "internal error: " ++ fault.message

/-- The words for an error, with each diagnostic on a line of its own. -/
def report : CompileError → String
  | .semantic diagnostics =>
    message (.semantic diagnostics) ++
      String.join (diagnostics.map fun d => "\n  " ++ d.text)
  | e => e.message

end CompileError

end ArmCompiler
