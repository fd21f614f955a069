import ArmCompiler.Lowering.Stmt

/-!
# What Lowering Steps Leave Behind

Equations and inversion lemmas for the basic lowering steps. A step that cannot fail has an
equation for its run; a step that can has one lemma for its success and one for its failure.
Later proofs take a lowering apart with these and never unfold a basic step.

## Contents
- §1: holding registers
- §2: sequencing
- §3: basic steps
- §4: registers, labels and scopes
-/

namespace ArmCompiler

/-! ## §1 Holding registers -/

/-- The pool with one more register in use. -/
def RegisterPool.hold (pool : RegisterPool) (r : Register) : RegisterPool :=
  { pool with held := r :: pool.held }

/-- The resources with one more register in use. -/
def Resources.hold (resources : Resources) (r : Register) : Resources :=
  { resources with pool := resources.pool.hold r }

namespace RegisterPool

@[simp] theorem capacity_hold (pool : RegisterPool) (r : Register) :
    (pool.hold r).capacity = pool.capacity := rfl

@[simp] theorem returnHeld_hold (pool : RegisterPool) (r : Register) :
    (pool.hold r).returnHeld = pool.returnHeld := rfl

@[simp] theorem held_hold (pool : RegisterPool) (r : Register) :
    (pool.hold r).held = r :: pool.held := rfl

theorem mem_free {pool : RegisterPool} {r : Register} :
    r ∈ pool.free ↔ r ∈ pool.registers ∧ r ∉ pool.held := by
  simp [free]

/-- Only general registers are handed out. -/
theorem general_of_mem_free {pool : RegisterPool} {r : Register} (hr : r ∈ pool.free) :
    r ∈ Register.general :=
  List.mem_of_mem_take (mem_free.1 hr).1

/-- What is free while a register is held was free before, and is another register. -/
theorem mem_free_hold {pool : RegisterPool} {r s : Register} :
    s ∈ (pool.hold r).free ↔ s ∈ pool.free ∧ s ≠ r := by
  simp only [mem_free, held_hold, List.mem_cons, not_or]
  constructor
  · rintro ⟨hs, hne, hheld⟩
    exact ⟨⟨hs, hheld⟩, hne⟩
  · rintro ⟨⟨hs, hheld⟩, hne⟩
    exact ⟨hs, hne, hheld⟩

@[simp] theorem release_hold (pool : RegisterPool) (r : Register) :
    (pool.hold r).release r = pool := by
  simp [hold, release]

/-- Of two registers in use the one taken first can be given back first. -/
theorem release_hold_of_ne {pool : RegisterPool} {r s : Register} (hne : s ≠ r) :
    ((pool.hold r).hold s).release r = pool.hold s := by
  have herase : (s :: r :: pool.held).erase r = s :: pool.held := by
    rw [List.erase_cons_tail (by simpa using hne), List.erase_cons_head]
  simp [hold, release, herase]

/-- Taking the return register into use and giving it back changes nothing but the mark. -/
@[simp] theorem freeReturn_holdReturn (pool : RegisterPool) :
    pool.holdReturn.freeReturn = pool.freeReturn := rfl

theorem acquire_eq_ok {pool : RegisterPool} {out : Register × RegisterPool} :
    pool.acquire = .ok out ↔ pool.free.head? = some out.1 ∧ out.2 = pool.hold out.1 := by
  obtain ⟨r, pool'⟩ := out
  unfold acquire
  cases pool.free with
  | nil => simp
  | cons first rest =>
    simp only [Except.ok.injEq, Prod.mk.injEq, List.head?_cons, Option.some.injEq, hold]
    constructor
    · rintro ⟨rfl, rfl⟩
      exact ⟨rfl, rfl⟩
    · rintro ⟨rfl, rfl⟩
      exact ⟨rfl, rfl⟩

theorem acquire_eq_error {pool : RegisterPool} {e : CompileError} :
    pool.acquire = .error e ↔ pool.free = [] ∧ e = .registersExhausted pool.capacity := by
  unfold acquire
  cases pool.free with
  | nil => simp [eq_comm]
  | cons first rest => simp

end RegisterPool

namespace Resources

@[simp] theorem pool_hold (resources : Resources) (r : Register) :
    (resources.hold r).pool = resources.pool.hold r := rfl

@[simp] theorem frame_hold (resources : Resources) (r : Register) :
    (resources.hold r).frame = resources.frame := rfl

@[simp] theorem nextLabel_hold (resources : Resources) (r : Register) :
    (resources.hold r).nextLabel = resources.nextLabel := rfl

end Resources

/-! ## §2 Sequencing -/

/-- Errors of two computations in a row can be translated one after the other. -/
theorem mapError_bind {ε ε' α β : Type} (translate : ε → ε') (x : Except ε α)
    (next : α → Except ε β) :
    (x >>= next).mapError translate =
      x.mapError translate >>= fun a => (next a).mapError translate := by
  cases x <;> rfl

namespace Lower

variable {α β : Type}

/-- Two steps fail together when the first does, or when the second does where the first left
off. -/
theorem run_bind_eq_error {step : Lower α} {next : α → Lower β} {resources : Resources}
    {e : CompileError} :
    (step >>= next).run resources = .error e ↔
      step.run resources = .error e ∨
        ∃ first, step.run resources = .ok first ∧
          (next first.value).run first.resources = .error e := by
  rw [run_bind]
  cases step.run resources with
  | error e' => simp
  | ok first =>
    cases h : (next first.value).run first.resources with
    | error e' => simp [h]
    | ok second => simp [h]

/-! ## §3 Basic steps -/

@[simp] theorem run_fail (e : CompileError) (resources : Resources) :
    (fail e : Lower α).run resources = .error e := rfl

@[simp] theorem run_ofExcept_ok (a : α) (resources : Resources) :
    (ofExcept (.ok a)).run resources = .ok { value := a, resources } := rfl

@[simp] theorem run_ofExcept_error (e : CompileError) (resources : Resources) :
    (ofExcept (.error e : Except CompileError α)).run resources = .error e := rfl

theorem run_ofExcept_eq_ok {x : Except CompileError α} {resources : Resources}
    {out : Lowered α} :
    (ofExcept x).run resources = .ok out ↔
      ∃ a, x = .ok a ∧ out = { value := a, resources } := by
  cases x with
  | error e => simp
  | ok a => simp [eq_comm]

theorem run_ofExcept_eq_error {x : Except CompileError α} {resources : Resources}
    {e : CompileError} : (ofExcept x).run resources = .error e ↔ x = .error e := by
  cases x <;> simp

@[simp] theorem run_emitAll (code : List Pseudo) (resources : Resources) :
    (emitAll code).run resources = .ok { value := (), resources, code } := rfl

@[simp] theorem run_emit (i : Instruction) (resources : Resources) :
    (emit i).run resources = .ok { value := (), resources, code := [.instr i] } := rfl

@[simp] theorem run_callRoutine (r : Routine) (resources : Resources) :
    (callRoutine r).run resources = .ok { value := (), resources, code := [.routine none r] } :=
  rfl

@[simp] theorem run_callRoutineIf (cond : Condition) (r : Routine) (resources : Resources) :
    (callRoutineIf cond r).run resources =
      .ok { value := (), resources, code := [.routine (some cond) r] } := rfl

@[simp] theorem run_modifyPool (f : RegisterPool → RegisterPool) (resources : Resources) :
    (modifyPool f).run resources =
      .ok { value := (), resources := { resources with pool := f resources.pool } } := rfl

@[simp] theorem run_release (r : Register) (resources : Resources) :
    (release r).run resources =
      .ok { value := (), resources := { resources with pool := resources.pool.release r } } := rfl

@[simp] theorem run_holdReturn (resources : Resources) :
    holdReturn.run resources =
      .ok { value := .r0, resources := { resources with pool := resources.pool.holdReturn } } :=
  rfl

@[simp] theorem run_freeReturn (resources : Resources) :
    freeReturn.run resources =
      .ok { value := (), resources := { resources with pool := resources.pool.freeReturn } } :=
  rfl

@[simp] theorem run_getFrame (resources : Resources) :
    getFrame.run resources = .ok { value := resources.frame, resources } := rfl

@[simp] theorem run_modifyFrame (f : Frame → Frame) (resources : Resources) :
    (modifyFrame f).run resources =
      .ok { value := (), resources := { resources with frame := f resources.frame } } := rfl

/-! ## §4 Registers, labels and scopes -/

/-- The local label of a number. -/
def localLabel (n : Nat) : String := "L" ++ n.repr

@[simp] theorem run_freshLabel (resources : Resources) :
    freshLabel.run resources =
      .ok {
        value := localLabel resources.nextLabel
        resources := { resources with nextLabel := resources.nextLabel + 1 } } := rfl

theorem run_acquire_eq_ok {resources : Resources} {out : Lowered Register} :
    acquire.run resources = .ok out ↔
      ∃ r, resources.pool.free.head? = some r ∧
        out = { value := r, resources := resources.hold r } := by
  simp only [run, acquire]
  cases h : resources.pool.acquire with
  | error e =>
    have hempty := (RegisterPool.acquire_eq_error.1 h).1
    simp [hempty]
  | ok taken =>
    obtain ⟨hhead, hpool⟩ := RegisterPool.acquire_eq_ok.1 h
    simp only [Except.ok.injEq, hhead, Option.some.injEq, hpool, exists_eq_left']
    exact eq_comm

theorem run_acquire_eq_error {resources : Resources} {e : CompileError} :
    acquire.run resources = .error e ↔
      resources.pool.free = [] ∧ e = .registersExhausted resources.pool.capacity := by
  rw [← RegisterPool.acquire_eq_error]
  simp only [run, acquire]
  cases resources.pool.acquire <;> simp

/-- A value is put into the lowest free register. -/
theorem run_intoFresh_eq_ok {instruction : Register → Pseudo} {resources : Resources}
    {out : Lowered Register} :
    (intoFresh instruction).run resources = .ok out ↔
      ∃ r, resources.pool.free.head? = some r ∧
        out = { value := r, resources := resources.hold r, code := [instruction r] } := by
  simp only [intoFresh, run_bind_eq_ok, run_acquire_eq_ok, run_emitAll, run_pure]
  constructor
  · rintro ⟨_, _, ⟨r, hhead, rfl⟩, ⟨_, _, ⟨rfl⟩, ⟨rfl⟩, rfl⟩, rfl⟩
    exact ⟨r, hhead, rfl⟩
  · rintro ⟨r, hhead, rfl⟩
    exact ⟨_, _, ⟨r, hhead, rfl⟩, ⟨_, _, rfl, rfl, rfl⟩, rfl⟩

theorem run_intoFresh_eq_error {instruction : Register → Pseudo} {resources : Resources}
    {e : CompileError} :
    (intoFresh instruction).run resources = .error e ↔
      resources.pool.free = [] ∧ e = .registersExhausted resources.pool.capacity := by
  simp only [intoFresh, run_bind_eq_error, run_acquire_eq_error, run_emitAll, run_pure,
    reduceCtorEq, and_false, exists_false, or_false]

theorem run_declare_eq_ok {name : String} {ty : Ty} {resources : Resources}
    {out : Lowered Int} :
    (declare name ty).run resources = .ok out ↔
      ∃ offset frame, resources.frame.declare name ty = .ok (offset, frame) ∧
        out = { value := offset, resources := { resources with frame } } := by
  simp only [run, declare]
  cases h : resources.frame.declare name ty with
  | error e => simp
  | ok declared =>
    simp only [Except.ok.injEq]
    constructor
    · rintro rfl
      exact ⟨_, _, rfl, rfl⟩
    · rintro ⟨offset, frame, rfl, rfl⟩
      rfl

theorem run_declare_eq_error {name : String} {ty : Ty} {resources : Resources}
    {e : CompileError} :
    (declare name ty).run resources = .error e ↔
      resources.frame.declare name ty = .error e := by
  simp only [run, declare]
  cases resources.frame.declare name ty <;> simp

/-- A scope is opened before the step and closed after it. -/
theorem run_inScope_eq_ok {slots : Nat} {step : Lower Unit} {resources : Resources}
    {out : Lowered Unit} :
    (inScope slots step).run resources = .ok out ↔
      ∃ inner, step.run { resources with frame := resources.frame.openScope slots } = .ok inner ∧
        out = {
          value := ()
          resources :=
            { inner.resources with frame := inner.resources.frame.closeScope }
          code := .reserve (slotBytes * slots) ::
            (inner.code ++ [.unreserve inner.resources.frame.scopeBytes.toNat]) } := by
  -- The frame after the step decides how much is given back; it is read before it is closed.
  simp only [inScope, run_bind_eq_ok, run_modifyFrame, run_emitAll, run_getFrame,
    Except.ok.injEq]
  constructor
  · rintro ⟨_, _, rfl, ⟨_, _, rfl, ⟨inner, _, hinner, ⟨_, _, rfl, ⟨_, _, rfl, rfl, rfl⟩, rfl⟩, rfl⟩,
      rfl⟩, rfl⟩
    exact ⟨inner, hinner, rfl⟩
  · rintro ⟨inner, hinner, rfl⟩
    exact ⟨_, _, rfl, ⟨_, _, rfl, ⟨inner, _, hinner, ⟨_, _, rfl, ⟨_, _, rfl, rfl, rfl⟩, rfl⟩, rfl⟩,
      rfl⟩, rfl⟩

theorem run_inScope_eq_error {slots : Nat} {step : Lower Unit} {resources : Resources}
    {e : CompileError} :
    (inScope slots step).run resources = .error e ↔
      step.run { resources with frame := resources.frame.openScope slots } = .error e := by
  simp [inScope, run_bind_eq_error]

/-- What is left of a scope when it is closed. -/
def closed (slots : Nat) (inner : Lowered Unit) : Lowered Unit where
  value := ()
  resources := { inner.resources with frame := inner.resources.frame.closeScope }
  code := .reserve (slotBytes * slots) ::
    (inner.code ++ [.unreserve inner.resources.frame.scopeBytes.toNat])

theorem run_inScope (slots : Nat) (step : Lower Unit) (start : Resources) :
    (inScope slots step).run start =
      (step.run { start with frame := start.frame.openScope slots }).map (closed slots) := by
  cases hinner : step.run { start with frame := start.frame.openScope slots } with
  | error e => exact run_inScope_eq_error.2 hinner
  | ok inner => exact run_inScope_eq_ok.2 ⟨inner, hinner, rfl⟩

/-- A variable is found, or the lowering fails, by the frame alone. -/
theorem run_lookup (name : String) (resources : Resources) :
    (lookup name).run resources = (ofExcept (resources.frame.find name)).run resources := by
  simp only [lookup, run_bind, run_getFrame]
  cases resources.frame.find name <;> simp

/-- An expression is typed, or the lowering fails, by the frame alone. -/
theorem run_typeOf (e : Expr) (resources : Resources) :
    (typeOf e).run resources = (ofExcept (e.typeIn resources.frame)).run resources := by
  simp only [typeOf, run_bind, run_getFrame]
  cases e.typeIn resources.frame <;> simp

end Lower

end ArmCompiler
