import ArmCompiler.Frame
import ArmCompiler.Pseudo
import ArmCompiler.RegisterPool

/-!
# Lowering Steps

Code generation is a sequence of steps. A step uses up and gives back *resources* (registers,
stack slots, label numbers), emits pseudo-instructions, and may fail. Steps form a monad: the
second step continues with the resources that the first one left, and its code follows the
first one's.

## Contents
- §1: resources and steps
- §2: the monad
- §3: basic steps
-/

namespace ArmCompiler

/-! ## §1 Resources and steps -/

/-- What code generation uses up and gives back. -/
structure Resources where
  pool : RegisterPool
  frame : Frame := {}
  /-- The number of the next local label. -/
  nextLabel : Nat := 0
  deriving DecidableEq, Repr

/-- What a step leaves behind: its value, the resources after it, and the code it emitted. -/
structure Lowered (α : Type) where
  value : α
  resources : Resources
  code : List Pseudo := []

/-- A step of code generation. -/
def Lower (α : Type) : Type := Resources → Except CompileError (Lowered α)

namespace Lower

variable {α β : Type}

/-- Runs a step. -/
def run (step : Lower α) (resources : Resources) : Except CompileError (Lowered α) :=
  step resources

@[ext] theorem ext {s t : Lower α} (h : ∀ resources, s.run resources = t.run resources) :
    s = t :=
  funext h

/-! ## §2 The monad -/

instance : Monad Lower where
  pure a := fun resources => .ok { value := a, resources }
  bind step next := fun resources =>
    match step resources with
    | .error e => .error e
    | .ok first =>
      match next first.value first.resources with
      | .error e => .error e
      | .ok second => .ok { second with code := first.code ++ second.code }

@[simp] theorem run_pure (a : α) (resources : Resources) :
    (pure a : Lower α).run resources = .ok { value := a, resources } := rfl

theorem run_bind (step : Lower α) (next : α → Lower β) (resources : Resources) :
    (step >>= next).run resources =
      match step.run resources with
      | .error e => .error e
      | .ok first =>
        match (next first.value).run first.resources with
        | .error e => .error e
        | .ok second => .ok { second with code := first.code ++ second.code } := rfl

/-- Two steps succeed together when each of them does, the second where the first left off. -/
theorem run_bind_eq_ok {step : Lower α} {next : α → Lower β} {resources : Resources}
    {out : Lowered β} :
    (step >>= next).run resources = .ok out ↔
      ∃ first second, step.run resources = .ok first ∧
        (next first.value).run first.resources = .ok second ∧
        out = { second with code := first.code ++ second.code } := by
  rw [run_bind]
  cases step.run resources with
  | error e => simp
  | ok first =>
    cases h : (next first.value).run first.resources with
    | error e => simp [h]
    | ok second => simp [h, eq_comm]

instance : LawfulMonad Lower := LawfulMonad.mk' _
  (fun step => by
    ext resources
    change (step >>= fun a => pure a).run resources = step.run resources
    rw [run_bind]
    cases h : step.run resources <;> simp)
  (fun a next => by
    ext resources
    rw [run_bind]
    cases h : (next a).run resources <;> simp [h])
  (fun step next last => by
    ext resources
    simp only [run_bind]
    cases step.run resources with
    | error e => rfl
    | ok first =>
      cases h : (next first.value).run first.resources with
      | error e => simp [h]
      | ok second =>
        cases h' : (last second.value).run second.resources <;> simp [h, h'])

/-! ## §3 Basic steps -/

/-- Fails. -/
def fail (e : CompileError) : Lower α := fun _ => .error e

/-- Continues with the value of a computation that can fail. -/
def ofExcept (x : Except CompileError α) : Lower α := fun resources =>
  match x with
  | .ok a => .ok { value := a, resources }
  | .error e => .error e

/-- Emits pseudo-instructions. -/
def emitAll (code : List Pseudo) : Lower Unit := fun resources =>
  .ok { value := (), resources, code }

/-- Emits one plain instruction. -/
def emit (i : Instruction) : Lower Unit := emitAll [.instr i]

/-- Calls a support routine. -/
def callRoutine (r : Routine) : Lower Unit := emitAll [.routine none r]

/-- Calls a support routine if a condition holds. -/
def callRoutineIf (cond : Condition) (r : Routine) : Lower Unit :=
  emitAll [.routine (some cond) r]

/-- Takes the lowest free register. -/
def acquire : Lower Register := fun resources =>
  match resources.pool.acquire with
  | .ok (r, pool) => .ok { value := r, resources := { resources with pool } }
  | .error e => .error e

/-- Changes the register pool. -/
def modifyPool (f : RegisterPool → RegisterPool) : Lower Unit := fun resources =>
  .ok { value := (), resources := { resources with pool := f resources.pool } }

/-- Gives a register back. -/
def release (r : Register) : Lower Unit := modifyPool (·.release r)

/-- Takes the return register into use. -/
def holdReturn : Lower Register := do
  modifyPool (·.holdReturn)
  pure RegisterPool.returnRegister

/-- Marks the return register as unused. -/
def freeReturn : Lower Unit := modifyPool (·.freeReturn)

/-- The current frame. -/
def getFrame : Lower Frame := fun resources => .ok { value := resources.frame, resources }

/-- Changes the frame. -/
def modifyFrame (f : Frame → Frame) : Lower Unit := fun resources =>
  .ok { value := (), resources := { resources with frame := f resources.frame } }

/-- Gives a variable the next slot of the innermost scope. The value is its distance from the
stack pointer. -/
def declare (name : String) (ty : Ty) : Lower Int := fun resources =>
  match resources.frame.declare name ty with
  | .ok (offset, frame) => .ok { value := offset, resources := { resources with frame } }
  | .error e => .error e

/-- A local label that was not used before. -/
def freshLabel : Lower String := fun resources =>
  .ok {
    value := "L" ++ resources.nextLabel.repr
    resources := { resources with nextLabel := resources.nextLabel + 1 } }

/-- Runs a step in a scope of its own, with room for `slots` variables. -/
def inScope (slots : Nat) (step : Lower Unit) : Lower Unit := do
  modifyFrame (·.openScope slots)
  emitAll [.reserve (slotBytes * slots)]
  step
  let frame ← getFrame
  modifyFrame (·.closeScope)
  emitAll [.unreserve frame.scopeBytes.toNat]

end Lower

end ArmCompiler
