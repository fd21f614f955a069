import ArmCompiler.Proofs.WrittenRegisters

/-!
# Observed Lowering

Some facts about lowering are not seen in the code: which occurrences of expressions it comes past,
which registers are in use at a call, and whether an assertion would hold on the way. To state them,
lowering is *observed*. An observer has a monad of its own and says what becomes of a plain step in
it, of the parts of a statement that are evaluated, typed or placed, and of whole statements.
`Stmt.observe` is the one lowering of statements in the monad of an observer.

An observer that *simulates* lowering on the steps simulates it on all statements. Main statement:
`Observer.Simulation.stmt`.

## Contents
- §1: observers
- §2: observed statements
- §3: steps that keep the registers
- §4: simulation
-/

namespace ArmCompiler

open Instruction Lower

/-! ## §1 Observers -/

/-- The type of what a target stores. -/
def Target.lowerType (t : Target) : Lower Ty := do
  let frame ← getFrame
  ofExcept (t.typeIn frame)

/-- What a statement asks for on its way, other than a right side. -/
inductive Part : Type → Type where
  /-- The value of a condition. -/
  | value (e : Expr) : Part Register
  /-- The type of a target. -/
  | type (t : Target) : Part Ty
  /-- The place of a target. -/
  | place (t : Target) : Part Place

/-- The step that brings what is asked for. -/
def Part.lower {α : Type} : Part α → Lower α
  | .value e => e.lower
  | .type t => t.lowerType
  | .place t => t.place

/-- What becomes of the lowering of statements in a monad. Where nothing else is said, every step is
taken as it is. -/
structure Observer (table : SymbolTable) (m : Type → Type) where
  /-- A step in which there is nothing to observe. -/
  step {α : Type} : Lower α → m α
  /-- What is done in a part of the syntax tree, which has a number at its node. -/
  under {α : Type} (i : Nat) (inner : m α) : m α := inner
  /-- A part of a statement. -/
  part {α : Type} (p : Part α) : m α := step p.lower
  /-- The right side of a declaration or an assignment. -/
  rhs (target : Ty) (rhs : Rhs) : m Register := step (rhs.lower table target)
  /-- A statement that has neither statements in it nor a right side. -/
  simple (s : Stmt) : m Unit := step (s.lower table)
  /-- A statement as a whole. -/
  statement (whole : m Unit) : m Unit := whole

/-! ## §2 Observed statements -/

section Observed

variable {m : Type → Type} [Monad m] {table : SymbolTable}

namespace Observer

variable (o : Observer table m)

/-- Runs a step in a scope of its own, with room for `slots` variables. -/
def inScope (slots : Nat) (inner : m Unit) : m Unit := do
  o.step (modifyFrame (·.openScope slots))
  o.step (emitAll [.reserve (slotBytes * slots)])
  inner
  o.step do
    let frame ← getFrame
    modifyFrame (·.closeScope)
    emitAll [.unreserve frame.scopeBytes.toNat]

/-- Compares a condition with a truth value. -/
def testCondition (cond : Expr) (value : Int) : m Unit := do
  let r ← o.part (.value cond)
  o.step do
    emit (.cmp r (.imm value))
    release r

/-- Goes back to the top of a loop while its condition holds. -/
def loopBack (cond : Expr) (top : String) : m Unit := do
  o.testCondition cond 1
  o.step (emit (jumpIf .eq top))

end Observer

/-- Lowers a statement as an observer sees it. -/
def Stmt.observe (o : Observer table m) : Stmt → m Unit
  | .declare _ ty name rhs => o.statement do
    let value ← o.under 0 (o.rhs ty rhs)
    o.step do
      let offset ← Lower.declare name ty
      emit (.str ty.width value (.offset .sp offset))
      release value
  | .assign _ target rhs => o.statement do
    -- The target is come past twice: it is typed before the right side, and placed after it.
    let ty ← o.under 0 (o.part (.type target))
    let value ← o.under 1 (o.rhs ty rhs)
    let place ← o.under 0 (o.part (.place target))
    o.step do
      emit (.str (target.width ty) value place.address)
      place.release
      release value
  | .ifThen _ cond thenArm => o.statement do
    let done ← o.step freshLabel
    o.under 0 (o.testCondition cond 0)
    o.step (emit (jumpIf .eq done))
    o.inScope thenArm.slots (o.under 1 (thenArm.observe o))
    o.step (emit (.label done))
  | .ifElse _ cond thenArm elseArm => o.statement do
    let done ← o.step freshLabel
    o.under 0 (o.testCondition cond 0)
    let otherwise ← o.step freshLabel
    o.step (emit (jumpIf .eq otherwise))
    o.inScope thenArm.slots (o.under 1 (thenArm.observe o))
    o.step (emit (jump done))
    o.step (emit (.label otherwise))
    o.inScope elseArm.slots (o.under 2 (elseArm.observe o))
    o.step (emit (.label done))
  | .whileDo _ cond body => o.statement do
    let check ← o.step freshLabel
    let top ← o.step freshLabel
    o.step (emit (jump check))
    o.step (emit (.label top))
    o.inScope body.slots (o.under 1 (body.observe o))
    o.step (emit (.label check))
    o.under 0 (o.loopBack cond top)
  | .doWhile _ body cond => o.statement do
    let top ← o.step freshLabel
    o.step (emit (.label top))
    o.inScope body.slots (o.under 0 (body.observe o))
    o.under 1 (o.loopBack cond top)
  | .forLoop _ init cond step body => o.statement do
    o.inScope init.slots do
      -- The parts are numbered as they are written and come past as they are lowered.
      o.under 0 (init.observe o)
      let check ← o.step freshLabel
      let top ← o.step freshLabel
      o.step (emit (jump check))
      o.step (emit (.label top))
      o.inScope body.slots (o.under 3 (body.observe o))
      o.under 2 (step.observe o)
      o.step (emit (.label check))
      o.under 1 (o.loopBack cond top)
  | .block _ body => o.statement (o.inScope body.slots (o.under 0 (body.observe o)))
  | .seq _ first second => o.statement do
    o.under 0 (first.observe o)
    o.under 1 (second.observe o)
  | s => o.statement (o.simple s)

end Observed

/-! ## §3 Steps that keep the registers -/

/-- The same registers are in use. The return register may have come out of use. -/
structure RegisterPool.Kept (pool after : RegisterPool) : Prop where
  held : after.held = pool.held
  capacity : after.capacity = pool.capacity
  returnHeld : after.returnHeld = true → pool.returnHeld = true

@[simp] theorem RegisterPool.Kept.refl (pool : RegisterPool) : pool.Kept pool := ⟨rfl, rfl, id⟩

theorem Resources.Settled.kept {start after : Resources} {count : Nat}
    (h : start.Settled count after) : start.pool.Kept after.pool :=
  ⟨h.held, h.capacity, h.returnHeld⟩

namespace Lower

variable {α : Type}

/-- A step that leaves the registers in use that it finds in use. -/
def KeepsPool (step : Lower α) : Prop :=
  ∀ start, step.Ends start fun _ after => start.pool.Kept after.pool

/-- A step that calls no function of the program. -/
def CallsNone (step : Lower α) : Prop :=
  step.Confined (fun _ => True) (fun _ => False) fun _ => True

theorem testCondition_keepsPool (cond : Expr) (value : Int) :
    (testCondition cond value).KeepsPool := by
  intro start
  refine (testCondition_ends cond value).imp ?_
  rintro _ _ rfl
  exact .refl _

end Lower

theorem Target.lowerType_keepsPool (t : Target) : t.lowerType.KeepsPool := by
  simp [KeepsPool, lowerType]

theorem Stmt.lower_keepsPool (table : SymbolTable) (s : Stmt) : (s.lower table).KeepsPool :=
  fun start => (s.lower_settles table start).imp fun _ _ hsettled => hsettled.kept

theorem Stmt.lowerBody_keepsPool (table : SymbolTable) (body : Stmt) :
    (body.lowerBody table).KeepsPool :=
  fun _ => (inScope_settles (body.lower_settles table)).imp fun _ _ hsettled => hsettled.kept

theorem Part.lower_callsNone {α : Type} (p : Part α) : p.lower.CallsNone := by
  cases p with
  | value e => exact e.lower_confined
  | type t => exact Confined.getFrame.andThen fun _ => .ofExcept
  | place t =>
    intro start out hfree hrun
    obtain ⟨hcode, hend, _⟩ := t.place_confined start out hfree hrun
    exact ⟨hcode, hend, trivial⟩

/-! ## §4 Simulation -/

namespace Observer

variable {m : Type → Type} [Monad m] {table : SymbolTable} {o : Observer table m} {α β : Type}

/-- In which way the steps of an observer do what the plain steps do: in every state, or where the
registers are in use that are in use between statements. The second is enough for right sides and
for statements. -/
structure Simulation (o : Observer table m) where
  Always {α : Type} : m α → Lower α → Prop
  Rested {α : Type} : m α → Lower α → Prop
  step {α : Type} {plain : Lower α} : plain.CallsNone → Always (o.step plain) plain
  part {α : Type} (p : Part α) : Always (o.part p) p.lower
  simple {s : Stmt} : s.isSimple = true → Always (o.simple s) (s.lower table)
  under_always {α : Type} {x : m α} {plain : Lower α} (i : Nat) :
    Always x plain → Always (o.under i x) plain
  bind {α β : Type} {x : m α} {plain : Lower α} {next : α → m β} {next' : α → Lower β} :
    Always x plain → (∀ a, Always (next a) (next' a)) → Always (x >>= next) (plain >>= next')
  rested {α : Type} {x : m α} {plain : Lower α} : Always x plain → Rested x plain
  rhs (target : Ty) (rhs : Rhs) : Rested (o.rhs target rhs) (rhs.lower table target)
  statement {x : m Unit} {plain : Lower Unit} :
    plain.KeepsPool → Rested x plain → Rested (o.statement x) plain
  under {α : Type} {x : m α} {plain : Lower α} (i : Nat) :
    Rested x plain → Rested (o.under i x) plain
  /-- What is simulated in every state may follow anything. -/
  bind_always {α β : Type} {x : m α} {plain : Lower α} {next : α → m β} {next' : α → Lower β} :
    Rested x plain → (∀ a, Always (next a) (next' a)) → Rested (x >>= next) (plain >>= next')
  /-- What else is simulated may follow what keeps the registers. -/
  bind_rested {α β : Type} {x : m α} {plain : Lower α} {next : α → m β} {next' : α → Lower β} :
    Rested x plain → plain.KeepsPool → (∀ a, Rested (next a) (next' a)) →
      Rested (x >>= next) (plain >>= next')

namespace Simulation

variable (sim : o.Simulation)

/-- What follows a step. -/
theorem after {plain : Lower α} {next : α → m β} {next' : α → Lower β} (hcalls : plain.CallsNone)
    (hkeeps : plain.KeepsPool) (hnext : ∀ a, sim.Rested (next a) (next' a)) :
    sim.Rested (o.step plain >>= next) (plain >>= next') :=
  sim.bind_rested (sim.rested (sim.step hcalls)) hkeeps hnext

theorem freshLabel {next : String → m β} {next' : String → Lower β}
    (hnext : ∀ label, sim.Rested (next label) (next' label)) :
    sim.Rested (o.step Lower.freshLabel >>= next) (Lower.freshLabel >>= next') :=
  sim.after .freshLabel (by simp [KeepsPool]) hnext

theorem emit {i : Instruction} {next : Unit → m β} {next' : Unit → Lower β}
    (h : i.Confined (fun _ => True) fun _ => False) (hnext : sim.Rested (next ()) (next' ())) :
    sim.Rested (o.step (Lower.emit i) >>= next) (Lower.emit i >>= next') :=
  sim.after (.emit h) (by simp [KeepsPool]) fun _ => hnext

theorem label (name : String) :
    sim.Always (o.step (Lower.emit (.label name))) (Lower.emit (.label name)) :=
  sim.step (.emit (by simp))

theorem testCondition (cond : Expr) (value : Int) :
    sim.Always (o.testCondition cond value) (Lower.testCondition cond value) := by
  refine sim.bind (sim.part (.value cond)) fun r => sim.step ?_
  exact (Confined.emit (by simp)).andThen fun _ => .release trivial

theorem loopBack (cond : Expr) (top : String) :
    sim.Always (o.loopBack cond top) (Lower.loopBack cond top) := by
  refine sim.bind (sim.testCondition cond 1) fun _ => sim.step ?_
  exact .emit (by simp [jumpIf])

/-- What follows the test of a condition. -/
theorem afterTest (i : Nat) (cond : Expr) (value : Int) {next : Unit → m β}
    {next' : Unit → Lower β} (hnext : sim.Rested (next ()) (next' ())) :
    sim.Rested (o.under i (o.testCondition cond value) >>= next)
      (Lower.testCondition cond value >>= next') :=
  sim.bind_rested (sim.rested (sim.under_always i (sim.testCondition cond value)))
    (testCondition_keepsPool cond value) fun _ => hnext

theorem inScope {inner : m Unit} {plain : Lower Unit} (h : sim.Rested inner plain) (slots : Nat) :
    sim.Rested (o.inScope slots inner) (Lower.inScope slots plain) := by
  apply sim.after .modifyFrame (by simp [KeepsPool])
  intro _
  apply sim.after (.emitAll (by simp)) (by simp [KeepsPool])
  intro _
  refine sim.bind_always h fun _ => sim.step ?_
  refine Confined.getFrame.andThen fun frame => ?_
  exact Confined.modifyFrame.andThen fun _ => .emitAll (by simp)

/-- Statements are simulated if the steps are. -/
theorem stmt (s : Stmt) : sim.Rested (s.observe o) (s.lower table) := by
  have whole {s : Stmt} {x : m Unit} (h : sim.Rested x (s.lower table)) :
      sim.Rested (o.statement x) (s.lower table) :=
    sim.statement (s.lower_keepsPool table) h
  have own {body : Stmt} (i : Nat) (ih : sim.Rested (body.observe o) (body.lower table)) :
      sim.Rested (o.inScope body.slots (o.under i (body.observe o))) (body.lowerBody table) :=
    sim.inScope (sim.under i ih) body.slots
  -- A part with statements in it is simulated where the registers are as between statements. So
  -- what comes before it has to keep them, and what comes after the last one may be anything.
  induction s with
  | skip | increment | read | free | ret | exit | print | println =>
    exact whole (sim.rested (sim.simple rfl))
  | declare span ty name rhs =>
    apply whole
    refine sim.bind_always (sim.under 0 (sim.rhs ty rhs)) fun value => sim.step ?_
    refine Confined.declare.andThen fun offset => ?_
    exact (Confined.emit (by simp [Address.written])).andThen fun _ => .release trivial
  | assign span target rhs =>
    apply whole
    have hlower : Stmt.lower table (.assign span target rhs) = (do
        let ty ← target.lowerType
        let value ← rhs.lower table ty
        let place ← target.place
        Lower.emit (.str (target.width ty) value place.address)
        place.release
        release value) := by
      simp [Stmt.lower, Target.lowerType]
    rw [hlower]
    apply sim.bind_rested (sim.rested (sim.under_always 0 (sim.part (.type target))))
      target.lowerType_keepsPool
    intro ty
    apply sim.bind_always (sim.under 1 (sim.rhs ty rhs))
    intro value
    refine sim.bind (sim.under_always 0 (sim.part (.place target))) fun place => sim.step ?_
    refine (Confined.emit Place.store_confined).andThen fun _ => ?_
    exact (Place.release_confined fun _ _ => trivial).andThen fun _ => .release trivial
  | ifThen span cond thenArm ih =>
    apply whole
    apply sim.freshLabel
    intro done
    apply sim.afterTest 0 cond 0
    apply sim.emit (by simp [jumpIf])
    exact sim.bind_always (own 1 ih) fun _ => sim.label done
  | ifElse span cond thenArm elseArm ihThen ihElse =>
    apply whole
    apply sim.freshLabel
    intro done
    apply sim.afterTest 0 cond 0
    apply sim.freshLabel
    intro otherwise
    apply sim.emit (by simp [jumpIf])
    apply sim.bind_rested (own 1 ihThen) (thenArm.lowerBody_keepsPool table)
    intro _
    apply sim.emit (by simp [jump])
    apply sim.emit (by simp)
    exact sim.bind_always (own 2 ihElse) fun _ => sim.label done
  | whileDo span cond body ih =>
    apply whole
    apply sim.freshLabel
    intro check
    apply sim.freshLabel
    intro top
    apply sim.emit (by simp [jump])
    apply sim.emit (by simp)
    apply sim.bind_always (own 1 ih)
    intro _
    exact sim.bind (sim.label check) fun _ => sim.under_always 0 (sim.loopBack cond top)
  | doWhile span body cond ih =>
    apply whole
    apply sim.freshLabel
    intro top
    apply sim.emit (by simp)
    exact sim.bind_always (own 0 ih) fun _ => sim.under_always 1 (sim.loopBack cond top)
  | forLoop span init cond step body ihInit ihStep ihBody =>
    apply whole
    rw [Stmt.lower_forLoop]
    apply sim.inScope
    apply sim.bind_rested (sim.under 0 ihInit) (init.lower_keepsPool table)
    intro _
    apply sim.freshLabel
    intro check
    apply sim.freshLabel
    intro top
    apply sim.emit (by simp [jump])
    apply sim.emit (by simp)
    apply sim.bind_rested (own 3 ihBody) (body.lowerBody_keepsPool table)
    intro _
    apply sim.bind_always (sim.under 2 ihStep)
    intro _
    exact sim.bind (sim.label check) fun _ => sim.under_always 1 (sim.loopBack cond top)
  | block span body ih => exact whole (own 0 ih)
  | seq span first second ihFirst ihSecond =>
    apply whole
    exact sim.bind_rested (sim.under 0 ihFirst) (first.lower_keepsPool table)
      fun _ => sim.under 1 ihSecond

/-- A body is simulated in its scope. -/
theorem body (s : Stmt) : sim.Rested (o.inScope s.slots (s.observe o)) (s.lowerBody table) :=
  sim.inScope (sim.stmt s) s.slots

end Simulation

end Observer

end ArmCompiler
