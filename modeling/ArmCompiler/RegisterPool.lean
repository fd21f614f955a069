import ArmCompiler.Arm.Instruction
import ArmCompiler.Error

/-!
# The Register Pool

Expressions are evaluated in the first few general registers. The pool knows which of them are
held and hands out the lowest one that is not. Nothing is ever spilled to memory: when all
registers are held, the expression cannot be compiled.

The register for return values is outside the pool. The pool only notes whether it is in use.
-/

namespace ArmCompiler

/-- A pool over the first `capacity` general registers. -/
structure RegisterPool where
  capacity : Nat
  /-- The registers in use, latest first. -/
  held : List Register := []
  /-- Whether the return register is in use. -/
  returnHeld : Bool := false
  deriving DecidableEq, Repr

namespace RegisterPool

/-- A pool with all of its registers free. There are no more than the general registers. -/
def ofCount (count : Nat) : RegisterPool :=
  { capacity := min count Register.general.length }

/-- The registers that belong to the pool. -/
def registers (pool : RegisterPool) : List Register := Register.general.take pool.capacity

/-- The registers that can be handed out, lowest first. -/
def free (pool : RegisterPool) : List Register :=
  pool.registers.filter fun r => r ∉ pool.held

/-- Hands out the lowest free register. -/
def acquire (pool : RegisterPool) : Except CompileError (Register × RegisterPool) :=
  match pool.free with
  | r :: _ => .ok (r, { pool with held := r :: pool.held })
  | [] => .error (.registersExhausted pool.capacity)

/-- Takes a register back. Registers that are not held are ignored. -/
def release (pool : RegisterPool) (r : Register) : RegisterPool :=
  { pool with held := pool.held.erase r }

/-- Giving back the register that was handed out last restores the pool. -/
theorem release_of_acquire {pool pool' : RegisterPool} {r : Register}
    (acquired : pool.acquire = .ok (r, pool')) : pool'.release r = pool := by
  unfold acquire at acquired
  split at acquired <;> cases acquired
  simp [release]

/-- The register in which results are returned. -/
def returnRegister : Register := .r0

/-- Marks the return register as used. -/
def holdReturn (pool : RegisterPool) : RegisterPool := { pool with returnHeld := true }

/-- Marks the return register as unused. -/
def freeReturn (pool : RegisterPool) : RegisterPool := { pool with returnHeld := false }

/-- How many registers can be handed out. -/
def available (pool : RegisterPool) : Nat := pool.free.length

/-- Whether no register is held. -/
def allFree (pool : RegisterPool) : Bool := pool.available == pool.capacity

end RegisterPool

end ArmCompiler
