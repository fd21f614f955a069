import ArmCompiler.Error

/-!
# Configuration

How many registers expressions may use, and how far the stack pointer may be moved by one
instruction.
-/

namespace ArmCompiler

/-- The settings of a compilation. -/
structure Config where
  /-- How many of the general registers expressions are evaluated in. -/
  generalRegisters : Nat := 8
  /-- The largest number of bytes by which one instruction moves the stack pointer. -/
  stackChunk : Nat := 1024
  deriving DecidableEq, Repr

namespace Config

/-- The first setting that is out of its range. -/
def fault? (config : Config) : Option ConfigFault :=
  if ¬(1 ≤ config.generalRegisters ∧ config.generalRegisters ≤ 8) then
    some (.generalRegisters config.generalRegisters)
  else if ¬(4 ≤ config.stackChunk ∧ config.stackChunk ≤ 1024 ∧ config.stackChunk % 4 = 0) then
    some (.stackChunk config.stackChunk)
  else
    none

/-- Refuses settings out of their range. -/
def validate (config : Config) : Except CompileError Unit :=
  match config.fault? with
  | some fault => .error (.config fault)
  | none => .ok ()

end Config

end ArmCompiler
