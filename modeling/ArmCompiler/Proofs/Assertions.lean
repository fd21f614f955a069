import ArmCompiler.Proofs.DirectGeneration
import ArmCompiler.Proofs.Observers
import ArmCompiler.Proofs.RegisterDemand
import ArmCompiler.Proofs.Scopes

/-!
# Assertions

Checking and generating code rest on facts that can be asserted on the way. A check in a scope of
its own leaves as many scopes open as it found. A statement leaves as many sequences open as it
found, and no register in use. A call finds the return register out of use. The *guarded* checker
and generator are the plain ones with these assertions built in, and stop where one of them is
broken. Main statement: `assertions_hold`. None is ever broken, so that the guarded forms do what
the plain forms do.

## Contents
- §1: the guarded checker
- §2: the guarded generator
- §3: idle registers
- §4: guarded statements
- §5: guarded programs
- §6: what expressions, right sides and statements leave
-/

namespace ArmCompiler

open Instruction Lower

/-! ## §1 The guarded checker -/

/-- A check that stops where an assertion is broken. -/
abbrev GuardedReport := OptionT Report

/-- Runs a check in a scope of its own, and asserts that the depth is the same again. -/
def SymbolTable.guardedScoped (table : SymbolTable)
    (check : SymbolTable → GuardedReport (Option Ty × SymbolTable)) :
    GuardedReport (Option Ty × SymbolTable) := do
  let (ty, inner) ← check table.openScope
  guard (inner.closeScope.depth = table.depth)
  pure (ty, inner.closeScope)

/-- Checks a statement and asserts the depth after each scope in it. -/
def Stmt.guardedCheck : Stmt → SymbolTable → GuardedReport (Option Ty × SymbolTable)
  | .ifThen _ cond thenArm, table => do
    OptionT.lift (checkCondition table cond)
    table.guardedScoped thenArm.guardedCheck
  | .ifElse _ cond thenArm elseArm, table => do
    OptionT.lift (checkCondition table cond)
    let (thenTy, table) ← table.guardedScoped thenArm.guardedCheck
    let (elseTy, table) ← table.guardedScoped elseArm.guardedCheck
    pure (commonType thenTy elseTy, table)
  | .whileDo _ cond body, table => do
    OptionT.lift (checkCondition table cond)
    table.guardedScoped body.guardedCheck
  | .doWhile _ body cond, table => do
    let (ty, table) ← table.guardedScoped body.guardedCheck
    OptionT.lift (checkCondition table cond)
    pure (ty, table)
  | .forLoop _ init cond step body, table =>
    table.guardedScoped fun table => do
      let table ← if init.isForInit then
          (·.2) <$> init.guardedCheck table
        else do
          OptionT.lift (Report.note .misplacedStatement init.span)
          pure table
      OptionT.lift (checkCondition table cond)
      let table ← if step.isForStep then
          (·.2) <$> step.guardedCheck table
        else do
          OptionT.lift (Report.note .misplacedStatement step.span)
          pure table
      table.guardedScoped body.guardedCheck
  | .block _ body, table => table.guardedScoped body.guardedCheck
  | .seq _ first second, table => do
    let (ty, table) ← first.guardedCheck table
    if first.isReturn then
      OptionT.lift (Report.note .unreachable second.span)
      pure (ty, table)
    else
      second.guardedCheck table
  | s, table => OptionT.lift (s.check table)

/-- Checks a function body in a scope that holds the parameters, and asserts the depth after it. -/
def Function.guardedCheck (table : SymbolTable) (f : Function) : GuardedReport SymbolTable := do
  let (returned, closed) ← table.guardedScoped fun table => do
    let (clashes, inner) := table.enterFunction f.name
    OptionT.lift (f.noteClashes clashes)
    f.body.guardedCheck inner
  OptionT.lift (f.checkReturn returned)
  pure closed.leaveFunction

/-- Checks a program with all assertions. -/
def Program.guardedCheck (p : Program) : GuardedReport SymbolTable := do
  let table ← OptionT.lift (p.functions.foldlM Function.declare {})
  let table ← p.functions.foldlM Function.guardedCheck table
  let (_, table) ← p.body.guardedCheck table
  pure table

section Checker

variable {α β : Type}

theorem lift_bind (r : Report α) (f : α → Report β) :
    (OptionT.lift (r >>= f) : GuardedReport β) =
      OptionT.lift r >>= fun a => OptionT.lift (f a) := by
  apply OptionT.ext
  simp

theorem lift_pure (a : α) : (OptionT.lift (pure a) : GuardedReport α) = pure a := by
  apply OptionT.ext
  simp

theorem lift_map (f : α → β) (r : Report α) :
    (OptionT.lift (f <$> r) : GuardedReport β) = f <$> OptionT.lift r := by
  apply OptionT.ext
  simp

/-- What follows a report depends on its value only. -/
theorem lift_bind_congr {r : Report α} {f g : α → GuardedReport β} (h : f r.value = g r.value) :
    OptionT.lift r >>= f = OptionT.lift r >>= g := by
  have hrun : (r >>= fun a => (f a).run) = (r >>= fun a => (g a).run) := by
    ext1 <;> simp [h]
  apply OptionT.ext
  simpa using hrun

/-- A check in a scope of its own passes its assertion if it leaves the scopes around it alone. -/
theorem SymbolTable.guardedScoped_lift {table : SymbolTable} {check : SymbolTable → Checked}
    (h : (check table.openScope).value.2.outer = table.openScope.outer) :
    table.guardedScoped (fun table => OptionT.lift (check table)) =
      OptionT.lift (table.scoped check) := by
  have hdepth : (check table.openScope).value.2.closeScope.depth = table.depth := by
    rw [closeScope, h]
    rfl
  rw [guardedScoped, SymbolTable.scoped, lift_bind]
  apply lift_bind_congr
  simp [guard, hdepth]

/-- The guarded check of a statement is its check. -/
theorem Stmt.guardedCheck_eq (s : Stmt) (table : SymbolTable) :
    s.guardedCheck table = OptionT.lift (s.check table) := by
  have own {body : Stmt} (ih : ∀ table, body.guardedCheck table = OptionT.lift (body.check table))
      (table : SymbolTable) :
      table.guardedScoped body.guardedCheck = OptionT.lift (table.scoped body.check) := by
    rw [funext ih]
    exact SymbolTable.guardedScoped_lift (body.check_extends _).outer
  induction s generalizing table with
  | ifThen span cond arm ih =>
    simp only [guardedCheck, check, lift_bind, own ih]
  | ifElse span cond thenArm elseArm ihThen ihElse =>
    simp only [guardedCheck, check, lift_bind, lift_pure, own ihThen, own ihElse]
  | whileDo span cond body ih =>
    simp only [guardedCheck, check, lift_bind, own ih]
  | doWhile span body cond ih =>
    simp only [guardedCheck, check, lift_bind, lift_pure, own ih]
  | forLoop span init cond step body ihInit ihStep ihBody =>
    have houter : (checkFor init cond step body table.openScope).value.2.outer =
        table.openScope.outer :=
      (checkFor_extends init.check_extends step.check_extends body.value_scoped_check _).outer
    rw [check_forLoop, ← SymbolTable.guardedScoped_lift houter, guardedCheck]
    congr 1
    funext table
    -- A clause that may not stand in the header is not checked, and so has no assertions.
    unfold checkFor
    by_cases hfirst : init.isForInit <;> by_cases hlast : step.isForStep <;>
      simp only [hfirst, hlast, if_true, Bool.false_eq_true, if_false, lift_bind, lift_pure,
        lift_map, ihInit, ihStep, own ihBody]
  | block span body ih => simp only [guardedCheck, check, own ih]
  | seq span first second ihFirst ihSecond =>
    simp only [guardedCheck, check, lift_bind, ihFirst]
    cases first.isReturn <;>
      simp only [if_true, Bool.false_eq_true, if_false, lift_bind, lift_pure, ihSecond]
  | skip | declare | assign | increment | read | free | ret | exit | print | println => rfl

/-- The guarded check of a function is its check. -/
theorem Function.guardedCheck_eq (table : SymbolTable) (f : Function) :
    f.guardedCheck table = OptionT.lift (f.check table) := by
  let inside (table : SymbolTable) : Checked := do
    f.noteClashes (table.enterFunction f.name).1
    f.body.check (table.enterFunction f.name).2
  have hinside : (inside table.openScope).value.2.outer = table.openScope.outer :=
    (f.body.check_extends _).outer.trans (table.openScope.enterFunction_extends f.name).outer
  have hcheck : f.check table = (do
      let (returned, closed) ← table.scoped inside
      f.checkReturn returned
      pure closed.leaveFunction) := by
    simp [check, SymbolTable.scoped, inside]
  rw [hcheck, lift_bind, ← SymbolTable.guardedScoped_lift hinside, guardedCheck]
  simp only [inside, lift_bind, lift_pure, Stmt.guardedCheck_eq]

theorem guardedCheck_functions (functions : List Function) (table : SymbolTable) :
    functions.foldlM Function.guardedCheck table =
      (OptionT.lift (functions.foldlM Function.check table) : GuardedReport SymbolTable) := by
  induction functions generalizing table with
  | nil => exact (lift_pure table).symm
  | cons f rest ih =>
    rw [List.foldlM_cons, List.foldlM_cons, lift_bind, f.guardedCheck_eq]
    exact congrArg _ (funext ih)

/-- No assertion of the checker is broken. -/
theorem Program.guardedCheck_eq (p : Program) : p.guardedCheck = OptionT.lift p.check := by
  simp only [guardedCheck, check, lift_bind, lift_pure, guardedCheck_functions,
    Stmt.guardedCheck_eq]

end Checker

/-! ## §2 The guarded generator -/

namespace Direct

/-- Stops with an interrupt where a condition does not hold. -/
def assert (interrupt : Interrupt) (holds : Assembly → Bool) : Direct Unit := fun assembly =>
  if holds assembly then .ok ((), assembly) else .error interrupt

/-- Generates a statement, and asserts that as many sequences are open as before it and that all
registers are free. -/
def asserted (kind : Direct Unit) : Direct Unit := do
  let before ← get
  kind
  assert .sequencesOpen fun after => after.listing.opened.length == before.listing.opened.length
  assert .registersHeld fun after => after.resources.pool.allFree

section Assert

variable {α : Type} {interrupt : Interrupt} {holds : Assembly → Bool} {assembly : Assembly}

/-- A condition that holds is passed. -/
theorem assert_bind (h : holds assembly = true) (next : Unit → Direct α) :
    (assert interrupt holds >>= next) assembly = next () assembly := by
  show (assert interrupt holds assembly >>= fun result => next result.1 result.2) = _
  rw [assert, if_pos h]
  rfl

/-- A condition that does not hold ends the generation. -/
theorem assert_bind_error (h : holds assembly = false) (next : Unit → Direct α) :
    (assert interrupt holds >>= next) assembly = .error interrupt := by
  show (assert interrupt holds assembly >>= fun result => next result.1 result.2) = _
  rw [assert, if_neg (by simp [h])]
  rfl

end Assert

-- A step that keeps a register breaks the assertion.
example : (asserted (discard (acquire.direct 8)) (.start {})).isOk = false := by decide

end Direct

open Direct

/-- Generates a right side. A call asserts that the return register is not in use. -/
def Rhs.guarded (limit : Nat) (table : SymbolTable) (target : Ty) (rhs : Rhs) :
    Direct Register := do
  if rhs.isCall then
    Direct.assert .returnHeld fun assembly => !assembly.resources.pool.returnHeld
  (rhs.lower table target).direct limit

/-- The observer that makes the assertions, and puts the code into the listing. -/
def Direct.observer (limit : Nat) (table : SymbolTable) : Observer table Direct where
  step plain := plain.direct limit
  rhs target rhs := rhs.guarded limit table target
  statement := asserted

/-- Generates a statement with all assertions about it and about the statements in it. -/
def Stmt.guarded (limit : Nat) (table : SymbolTable) (s : Stmt) : Direct Unit :=
  s.observe (Direct.observer limit table)

/-- Generates a body, in a scope of its own, with all assertions. -/
def Stmt.guardedBody (limit : Nat) (table : SymbolTable) (body : Stmt) : Direct Unit :=
  (Direct.observer limit table).inScope body.slots (body.guarded limit table)

/-- Adds the code of a function with all assertions. -/
def Function.assembleGuarded (table : SymbolTable) (config : Config) (assembly : Assembly)
    (f : Function) : Except Interrupt Assembly :=
  assembly.addDirect (functionLabel f.name) (.ofParams f.params)
    (f.body.guardedBody config.stackChunk table)

/-- Adds the code of the main body with all assertions. -/
def Stmt.assembleMainGuarded (table : SymbolTable) (config : Config) (assembly : Assembly)
    (body : Stmt) : Except Interrupt Assembly :=
  assembly.addDirect "main" {} do
    body.guardedBody config.stackChunk table
    Lower.direct config.stackChunk (emit (.loadConst .r0 0))

/-- The listing of a program, generated with all assertions. -/
def Program.assembleGuarded (table : SymbolTable) (config : Config) (p : Program) :
    Except Interrupt Listing := do
  config.validate.mapError .refused
  let assembly ← p.functions.foldlM (Function.assembleGuarded table config) (.start config)
  let assembly ← p.body.assembleMainGuarded table config assembly
  return assembly.listing

/-! ## §3 Idle registers -/

/-- Between statements no register is in use, the return register included. -/
structure RegisterPool.Idle (pool : RegisterPool) : Prop where
  allFree : pool.allFree = true
  returnHeld : pool.returnHeld = false

theorem RegisterPool.idle_ofCount (count : Nat) : (ofCount count).Idle where
  allFree := by rw [RegisterPool.allFree, available_ofCount, beq_self_eq_true]
  returnHeld := rfl

/-- What is free while a register is held. -/
theorem RegisterPool.free_hold (pool : RegisterPool) (r : Register) :
    (pool.hold r).free = pool.free.erase r := by
  rw [pool.nodup_free.erase_eq_filter]
  simp only [free, hold, registers, List.filter_filter]
  apply List.filter_congr
  intro s _
  by_cases hs : s = r <;> simp [hs]

namespace RegisterPool.Kept

variable {pool after : RegisterPool}

theorem allFree_eq (h : pool.Kept after) : after.allFree = pool.allFree := by
  simp only [allFree, available, free, registers, h.held, h.capacity]

theorem idle (h : pool.Kept after) (hidle : pool.Idle) : after.Idle where
  allFree := h.allFree_eq.trans hidle.allFree
  returnHeld := by
    cases hheld : after.returnHeld with
    | false => rfl
    | true => exact absurd (h.returnHeld hheld) (by simp [hidle.returnHeld])

end RegisterPool.Kept

/-! ## §4 Guarded statements -/

/-- Where the registers are idle, guarded generation does what direct generation does. -/
def Direct.Follows {α : Type} (limit : Nat) (guarded : Direct α) (step : Lower α) : Prop :=
  ∀ assembly : Assembly, assembly.resources.pool.Idle →
    guarded assembly = step.direct limit assembly

namespace Direct.Follows

variable {α β : Type} {limit : Nat}

/-- After a step that leaves the registers idle, guards are passed again. -/
theorem bind {guarded : Direct α} {step : Lower α} {next : α → Direct β} {next' : α → Lower β}
    (h : Follows limit guarded step) (hkeeps : step.KeepsPool)
    (hnext : ∀ a, Follows limit (next a) (next' a)) :
    Follows limit (guarded >>= next) (step >>= next') := by
  intro assembly hassembly
  rw [direct_bind]
  show (guarded assembly >>= fun result => next result.1 result.2) =
    (step.direct limit assembly >>= fun result => (next' result.1).direct limit result.2)
  rw [h assembly hassembly]
  cases hstep : step.direct limit assembly with
  | error => rfl
  | ok result =>
    obtain ⟨out, hrun, _, hresources, _⟩ := direct_eq_ok hstep
    apply hnext
    rw [hresources]
    exact (hkeeps _ out hrun).idle hassembly

/-- What is not guarded may follow in any case. -/
theorem bind_direct {guarded : Direct α} {step : Lower α} (h : Follows limit guarded step)
    (next : α → Lower β) :
    Follows limit (guarded >>= fun a => (next a).direct limit) (step >>= next) := by
  intro assembly hassembly
  rw [direct_bind]
  show (guarded assembly >>= _) = (step.direct limit assembly >>= _)
  rw [h assembly hassembly]

/-- The assertions about a statement hold. -/
theorem asserted {guarded : Direct Unit} {step : Lower Unit} (h : Follows limit guarded step)
    (hkeeps : step.KeepsPool) : Follows limit (Direct.asserted guarded) step := by
  intro assembly hassembly
  show (guarded assembly >>= _) = _
  rw [h assembly hassembly]
  cases hstep : step.direct limit assembly with
  | error => rfl
  | ok result =>
    obtain ⟨out, hrun, _, hresources, hopened⟩ := direct_eq_ok hstep
    have hfree : result.2.resources.pool.allFree = true :=
      hresources ▸ ((hkeeps _ out hrun).idle hassembly).allFree
    show (assert _ _ >>= fun _ => assert _ _) result.2 = _
    rw [assert_bind (by simp [hopened]), assert, if_pos hfree]

end Direct.Follows

theorem Rhs.guarded_follows (limit : Nat) (table : SymbolTable) (target : Ty) (rhs : Rhs) :
    Follows limit (rhs.guarded limit table target) (rhs.lower table target) := by
  intro assembly hassembly
  unfold guarded
  cases rhs.isCall with
  | false => rfl
  | true =>
    rw [if_pos rfl]
    apply assert_bind
    simp [hassembly.returnHeld]

/-- Where the registers are idle, the guarded steps do what the direct steps do. -/
def Direct.simulation (limit : Nat) (table : SymbolTable) :
    (Direct.observer limit table).Simulation where
  Always guarded plain := guarded = plain.direct limit
  Rested guarded plain := Follows limit guarded plain
  step _ := rfl
  part _ := rfl
  simple _ := rfl
  under_always _ h := h
  bind h hnext := by rw [direct_bind, h, funext hnext]
  rested h := fun _ _ => by rw [h]
  rhs target rhs := rhs.guarded_follows limit table target
  statement hkeeps h := h.asserted hkeeps
  under _ h := h
  bind_always h hnext := by
    rw [funext hnext]
    exact h.bind_direct _
  bind_rested h hkeeps hnext := h.bind hkeeps hnext

/-- Where the registers are idle, no assertion about a statement or in it is broken. -/
theorem Stmt.guarded_follows (limit : Nat) (table : SymbolTable) (s : Stmt) :
    Follows limit (s.guarded limit table) (s.lower table) :=
  (Direct.simulation limit table).stmt s

theorem Stmt.guardedBody_follows (limit : Nat) (table : SymbolTable) (body : Stmt) :
    Follows limit (body.guardedBody limit table) (body.lowerBody table) :=
  (Direct.simulation limit table).body body

/-! ## §5 Guarded programs -/

namespace Assembly

variable {config : Config} {assembly : Assembly} {label : String} {frame : Frame}

/-- A guarded body that follows a step is added as the step is. -/
theorem addDirect_follows {guarded : Direct Unit} {step : Lower Unit}
    (h : Follows config.stackChunk guarded step) (hidle : assembly.resources.pool.Idle) :
    assembly.addDirect label frame guarded =
      (assembly.add config label frame step).mapError .refused := by
  rw [← addDirect_direct]
  unfold addDirect
  congr 1
  funext listing
  have hsame := h { resources := { assembly.resources with frame }, listing } hidle
  rw [hsame]

/-- Adding a body leaves the registers idle. -/
theorem add_idle {step : Lower Unit} {after : Assembly} (hstep : step.KeepsPool)
    (hidle : assembly.resources.pool.Idle)
    (hadd : assembly.add config label frame step = .ok after) : after.resources.pool.Idle := by
  obtain ⟨opened, _, hadd⟩ := bind_eq_ok.1 hadd
  obtain ⟨lowered, hlowered, hadd⟩ := bind_eq_ok.1 hadd
  obtain ⟨⟨code, filled⟩, _, hadd⟩ := bind_eq_ok.1 hadd
  obtain ⟨closed, _, hadd⟩ := bind_eq_ok.1 hadd
  cases hadd
  exact (hstep { assembly.resources with frame } lowered hlowered).idle hidle

end Assembly

/-- Adding functions with all assertions, where the registers are idle at first. -/
theorem assembleGuarded_functions (table : SymbolTable) (config : Config)
    (functions : List Function) {assembly : Assembly} (hidle : assembly.resources.pool.Idle) :
    functions.foldlM (Function.assembleGuarded table config) assembly =
        (functions.foldlM (Function.assemble table config) assembly).mapError .refused ∧
      ∀ after, functions.foldlM (Function.assemble table config) assembly = .ok after →
        after.resources.pool.Idle := by
  induction functions generalizing assembly with
  | nil =>
    refine ⟨rfl, ?_⟩
    rintro _ ⟨⟩
    exact hidle
  | cons f rest ih =>
    have hbody := f.body.lowerBody_keepsPool table
    have hadd : f.assembleGuarded table config assembly =
        (f.assemble table config assembly).mapError .refused :=
      Assembly.addDirect_follows (f.body.guardedBody_follows _ table) hidle
    simp only [List.foldlM_cons, hadd, mapError_bind]
    cases hfirst : f.assemble table config assembly with
    | error e => exact ⟨rfl, fun _ hafter => by cases hafter⟩
    | ok mid => exact ih (Assembly.add_idle hbody hidle hfirst)

/-- No assertion of the generator is broken. -/
theorem Program.assembleGuarded_eq (table : SymbolTable) (config : Config) (p : Program) :
    p.assembleGuarded table config = (p.assemble table config).mapError .refused := by
  have hstart : (Assembly.start config).resources.pool.Idle := RegisterPool.idle_ofCount _
  obtain ⟨hfunctions, hidle⟩ := assembleGuarded_functions table config p.functions hstart
  simp only [assembleGuarded, assemble, mapError_bind, hfunctions]
  congr 1
  funext _
  cases hbuilt : p.functions.foldlM (Function.assemble table config) (.start config) with
  | error e => rfl
  | ok built =>
    have hbody := p.body.guardedBody_follows config.stackChunk table
    have hmain : p.body.assembleMainGuarded table config built =
        (p.body.assembleMain table config built).mapError .refused :=
      Assembly.addDirect_follows (hbody.bind_direct _) (hidle built hbuilt)
    show (p.body.assembleMainGuarded table config built >>= _) = _
    rw [hmain]
    rfl

/-! ## §6 What expressions, right sides and statements leave -/

/-- One register that was free is in use. The open sequences, the frame and the return register are
as they were. -/
structure Assembly.Takes (before : Assembly) (r : Register) (after : Assembly) : Prop where
  free_before : r ∈ before.resources.pool.free
  free_after : after.resources.pool.free = before.resources.pool.free.erase r
  capacity : after.resources.pool.capacity = before.resources.pool.capacity
  returnHeld : after.resources.pool.returnHeld = before.resources.pool.returnHeld
  frame : after.resources.frame = before.resources.frame
  opened : after.listing.opened = before.listing.opened

/-- All registers are free if they were before. The open sequences are the same, and so are the
number of scopes and the depth of the frame. -/
structure Assembly.Restores (before after : Assembly) : Prop where
  allFree : after.resources.pool.allFree = before.resources.pool.allFree
  opened : after.listing.opened = before.listing.opened
  scopes : after.resources.frame.scopes.length = before.resources.frame.scopes.length
  depth : after.resources.frame.depth = before.resources.frame.depth

section Left

variable {limit : Nat} {before after : Assembly}

theorem Lower.direct_takes {step : Lower Register} {r : Register}
    (h : step.Ends before.resources before.resources.Took)
    (hstep : step.direct limit before = .ok (r, after)) : before.Takes r after := by
  obtain ⟨out, hrun, rfl, hresources, hopened⟩ := direct_eq_ok hstep
  obtain ⟨hfree, hheld⟩ := h out hrun
  rw [hheld] at hresources
  have hpool : after.resources.pool = before.resources.pool.hold out.value := by
    rw [hresources, Resources.hold]
  exact {
    free_before := hfree
    free_after := by rw [hpool, RegisterPool.free_hold]
    capacity := by rw [hpool, RegisterPool.hold]
    returnHeld := by rw [hpool, RegisterPool.hold]
    frame := by rw [hresources, Resources.hold]
    opened := hopened }

theorem Rhs.guarded_takes {table : SymbolTable} {target : Ty} {rhs : Rhs} {r : Register}
    (h : rhs.guarded limit table target before = .ok (r, after)) : before.Takes r after := by
  have hreturn : rhs.isCall = true → before.resources.pool.returnHeld = false := by
    intro hcall
    cases hheld : before.resources.pool.returnHeld with
    | false => rfl
    | true =>
      have hstop : rhs.guarded limit table target before = .error .returnHeld := by
        rw [guarded, if_pos hcall]
        apply assert_bind_error
        simp [hheld]
      rw [hstop] at h
      cases h
  have hdirect : (rhs.lower table target).direct limit before = .ok (r, after) := by
    rw [← h, guarded]
    cases hcall : rhs.isCall with
    | false => rfl
    | true =>
      rw [if_pos rfl]
      symm
      apply assert_bind
      simp [hreturn hcall]
  exact direct_takes (lower_takes table target hreturn) hdirect

theorem Stmt.direct_restores {table : SymbolTable} {s : Stmt}
    (h : (s.lower table).direct limit before = .ok ((), after)) : before.Restores after := by
  obtain ⟨out, hrun, _, hresources, hopened⟩ := direct_eq_ok h
  have hsettled : before.resources.Settled s.slots after.resources :=
    hresources ▸ s.lower_settles table _ out hrun
  exact ⟨hsettled.kept.allFree_eq, hopened, hsettled.frame_eq.1, hsettled.frame_eq.2⟩

end Left

/-- The assertions of the checker and of the generator always hold, whatever the program, the table
and the settings are. In particular every call finds the return register out of use. An expression
or right side takes one free register, and a statement that finds all registers free leaves them
free. -/
theorem assertions_hold :
    (∀ p : Program, p.guardedCheck = OptionT.lift p.check) ∧
    (∀ (p : Program) (table : SymbolTable) (config : Config),
      p.assembleGuarded table config = (p.assemble table config).mapError .refused) ∧
    (∀ (limit : Nat) (e : Expr) (before after : Assembly) (r : Register),
      e.lower.direct limit before = .ok (r, after) → before.Takes r after) ∧
    (∀ (limit : Nat) (table : SymbolTable) (target : Ty) (rhs : Rhs) (before after : Assembly)
      (r : Register), rhs.guarded limit table target before = .ok (r, after) →
      before.Takes r after) ∧
    (∀ (limit : Nat) (table : SymbolTable) (s : Stmt) (before : Assembly),
      before.resources.pool.Idle →
      s.guarded limit table before = (s.lower table).direct limit before) ∧
    ∀ (limit : Nat) (table : SymbolTable) (s : Stmt) (before after : Assembly),
      before.resources.pool.allFree → (s.lower table).direct limit before = .ok ((), after) →
      after.resources.pool.allFree ∧ before.Restores after := by
  refine ⟨Program.guardedCheck_eq, fun p table config => p.assembleGuarded_eq table config, ?_, ?_,
    ?_, ?_⟩
  · intro limit e before after r hdirect
    exact direct_takes (e.lower_takes _) hdirect
  · intro limit table target rhs before after r hguarded
    exact Rhs.guarded_takes hguarded
  · intro limit table s before hidle
    exact s.guarded_follows limit table before hidle
  · intro limit table s before after hfree hdirect
    have hrestores := Stmt.direct_restores hdirect
    exact ⟨hrestores.allFree.trans hfree, hrestores⟩

/-- A main body about to declare a variable. -/
def openedMain : Assembly where
  resources := { pool := .ofCount 8, frame := ({} : Frame).openScope 1 }
  listing := { sequences := [{ name := "main", code := [] }], opened := ["main"] }

/-- A constant, a call of a function and a declaration, each in an opened main body. -/
theorem assertions_hold_openedMain :
    let table : SymbolTable := { functions := [⟨"id", .bool, [⟨"b", .bool⟩]⟩] }
    let call : Rhs := .call "id" [.bool {} true]
    let s : Stmt := .declare {} .bool "b" call
    (∃ after, (Expr.bool {} true).lower.direct 1024 openedMain = .ok (.r4, after) ∧
      openedMain.Takes .r4 after) ∧
    (∃ after, call.guarded 1024 table .bool openedMain = .ok (.r4, after) ∧
      openedMain.Takes .r4 after) ∧
    openedMain.resources.pool.Idle ∧
    ∃ after, s.guarded 1024 table openedMain = .ok ((), after) ∧
      after.resources.pool.allFree ∧ openedMain.Restores after := by
  intro table call s
  obtain ⟨_, _, hexpr, hrhs, hguarded, hstmt⟩ := assertions_hold
  have hidle : openedMain.resources.pool.Idle := RegisterPool.idle_ofCount 8
  obtain ⟨taken, htaken⟩ :
      ∃ after, (Expr.bool {} true).lower.direct 1024 openedMain = .ok (.r4, after) := ⟨_, rfl⟩
  obtain ⟨called, hcalled⟩ :
      ∃ after, call.guarded 1024 table .bool openedMain = .ok (.r4, after) := ⟨_, rfl⟩
  obtain ⟨after, hafter⟩ :
      ∃ after, (s.lower table).direct 1024 openedMain = .ok ((), after) := ⟨_, rfl⟩
  refine ⟨⟨taken, htaken, hexpr _ _ _ _ _ htaken⟩, ⟨called, hcalled, hrhs _ _ _ _ _ _ _ hcalled⟩,
    hidle, after, ?_, hstmt 1024 table s _ _ hidle.allFree hafter⟩
  exact (hguarded 1024 table s _ hidle).trans hafter

end ArmCompiler
