import ArmCompiler.Proofs.BasicSteps

/-!
# Renaming Variables: Generating Code

A frame finds a variable by its name and by nothing else, so lowering a renamed statement in a
renamed frame *mirrors* lowering the statement: the code is the same, and the frame afterwards is
the renamed one. Should a name not be found, the error has the new name in it.

## Contents
- §1: renaming frames
- §2: mirrored steps
-/

namespace ArmCompiler

open Lower

/-! ## §1 Renaming frames -/

namespace Frame

/-- The scope with its variables renamed. -/
def Scope.rename (ρ : String → String) (scope : Scope) : Scope :=
  { scope with locals := renameKeys ρ scope.locals }

/-- The frame with its variables renamed. -/
def rename (ρ : String → String) (frame : Frame) : Frame :=
  { frame with
    params := renameKeys ρ frame.params
    scopes := frame.scopes.map (Scope.rename ρ) }

variable {ρ : String → String}

@[simp] theorem scopeBytes_rename (frame : Frame) :
    (frame.rename ρ).scopeBytes = frame.scopeBytes := by
  obtain ⟨params, scopes, depth⟩ := frame
  cases scopes <;> rfl

theorem rename_closeScope (frame : Frame) :
    (frame.rename ρ).closeScope = frame.closeScope.rename ρ := by
  rw [closeScope, scopeBytes_rename]
  simp [closeScope, rename]

/-- A variable gets the same slot under its new name. -/
theorem declare_rename (frame : Frame) (name : String) (ty : Ty) :
    (frame.rename ρ).declare (ρ name) ty =
      match frame.declare name ty with
      | .ok (offset, frame') => .ok (offset, frame'.rename ρ)
      | .error e => .error (e.rename ρ) := by
  obtain ⟨params, scopes, depth⟩ := frame
  cases scopes with
  | nil => rfl
  | cons scope outer =>
    by_cases hroom : (scope.locals.length : Int) < scope.slots <;>
      simp [declare, rename, Scope.rename, renameKeys, offset, hroom, CompileError.rename]

/-- The frame of renamed parameters. -/
theorem ofParams_rename (params : List Param) :
    ofParams (params.map (·.rename ρ)) = (ofParams params).rename ρ := by
  simp only [ofParams, rename, renameKeys, List.map_nil, List.map_reverse]
  congr 2
  -- The place of a parameter follows from its number, so the lists are compared entry by entry.
  apply List.ext_getElem?
  intro i
  simp [Param.rename, paramLocal, Function.comp_def]

/-- A variable is found in the same place under its new name. -/
theorem local?_rename (hρ : ρ.Injective) (frame : Frame) (name : String) :
    (frame.rename ρ).local? (ρ name) = frame.local? name := by
  simp only [local?, rename, List.findSome?_map, Function.comp_def, Scope.rename,
    lookup_renameKeys hρ]

theorem find_rename (hρ : ρ.Injective) (frame : Frame) (name : String) :
    (frame.rename ρ).find (ρ name) = (frame.find name).mapError (·.rename ρ) := by
  simp only [find, lookup?, local?_rename hρ]
  cases frame.local? name <;> rfl

end Frame

/-- The resources with the variables of the frame renamed. -/
def Resources.rename (ρ : String → String) (resources : Resources) : Resources :=
  { resources with frame := resources.frame.rename ρ }

/-! ## §2 Mirrored steps -/

namespace Lower

variable {α β : Type} {ρ : String → String}

/-- What a step that mirrors another ends with. -/
def mirror (ρ : String → String) :
    Except CompileError (Lowered α) → Except CompileError (Lowered α)
  | .ok out => .ok { out with resources := out.resources.rename ρ }
  | .error e => .error (e.rename ρ)

/-- A step that mirrors another, in the renamed frame, has the same value, emits the same code and
leaves the renamed frame. If one of the steps fails, so does the other. -/
def Mirrors (step : Lower α) (ρ : String → String) (step' : Lower α) : Prop :=
  ∀ start : Resources, step'.run (start.rename ρ) = mirror ρ (step.run start)

namespace Mirrors

theorem bind {step step' : Lower α} {next next' : α → Lower β} (h : step.Mirrors ρ step')
    (hnext : ∀ a, (next a).Mirrors ρ (next' a)) :
    (step >>= next).Mirrors ρ (step' >>= next') := by
  intro start
  -- The second steps start in mirrored resources again, from the same value.
  rw [run_bind, run_bind, h start]
  cases step.run start with
  | error e => rfl
  | ok first =>
    simp only [mirror, hnext first.value first.resources]
    cases (next first.value).run first.resources <;> rfl

theorem acquire : Lower.acquire.Mirrors ρ Lower.acquire := by
  intro start
  have hsame : (start.rename ρ).pool = start.pool := rfl
  simp only [Lower.run, Lower.acquire, hsame]
  cases hpool : start.pool.acquire with
  | ok taken => rfl
  | error e =>
    -- The error says how many registers there are, and renaming keeps it.
    obtain ⟨_, rfl⟩ := RegisterPool.acquire_eq_error.1 hpool
    rfl

theorem declare (name : String) (ty : Ty) :
    (Lower.declare name ty).Mirrors ρ (Lower.declare (ρ name) ty) := by
  intro start
  simp only [run, Lower.declare, Resources.rename, Frame.declare_rename]
  cases start.frame.declare name ty <;> rfl

theorem lookup (hρ : ρ.Injective) (name : String) :
    (Lower.lookup name).Mirrors ρ (Lower.lookup (ρ name)) := by
  intro start
  have hfind : (start.rename ρ).frame.find (ρ name) =
      (start.frame.find name).mapError (·.rename ρ) :=
    start.frame.find_rename hρ name
  rw [run_lookup, run_lookup, hfind]
  cases start.frame.find name <;> rfl

theorem inScope (slots : Nat) {step step' : Lower Unit} (h : step.Mirrors ρ step') :
    (Lower.inScope slots step).Mirrors ρ (Lower.inScope slots step') := by
  intro start
  have hopen : step'.run { start.rename ρ with frame := (start.rename ρ).frame.openScope slots } =
      mirror ρ (step.run { start with frame := start.frame.openScope slots }) :=
    h { start with frame := start.frame.openScope slots }
  rw [run_inScope, run_inScope, hopen]
  cases step.run { start with frame := start.frame.openScope slots } with
  | error e => rfl
  | ok inner =>
    -- The bytes to give back are those of the scope, whatever its variables are called.
    simp only [mirror, Except.map, closed, Resources.rename, Frame.scopeBytes_rename,
      Frame.rename_closeScope]

end Mirrors

/-- Parallel steps mirror each other, where different names stay different. -/
theorem Parallel.mirrors (hρ : ρ.Injective) {step step' : Lower α} (h : step.Parallel ρ step') :
    step.Mirrors ρ step' := by
  induction h with
  | bind _ _ ih ihNext => exact ih.bind ihNext
  | fail hsame =>
    intro start
    rw [run_fail, run_fail, mirror, hsame]
  | acquire => exact .acquire
  | lookup name => exact .lookup hρ name
  | declare name ty => exact .declare name ty
  | inScope slots _ ih => exact ih.inScope slots
  | pure | emitAll | modifyPool | freshLabel | push | unpush | unwind => exact fun _ => rfl

end Lower

end ArmCompiler
