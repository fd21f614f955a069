import ArmCompiler.Proofs.Balance.Stmt

/-!
# The Resources That Steps Leave

A calculus for the resources that a lowering step leaves behind when it succeeds. `step.Ends start
post` says that whatever the step ends with, run from `start`, satisfies `post`. Each basic step has
an equivalence that computes the condition before it from the condition after it, so a lowering is
followed step by step.

With it the use of registers is settled for every state, whatever the frame holds and however many
registers are in use: an expression takes one free register and changes nothing else, and a
statement gives back all it took and leaves the scopes of the frame as they were, but for the
variables that it declares.

## Contents
- §1: conditions on what a step leaves
- §2: basic steps
- §3: taking a register
- §4: expressions, right sides and targets
- §5: statements
-/

namespace ArmCompiler

open Instruction Lower

namespace Lower

variable {α β : Type} {start : Resources}

/-! ## §1 Conditions on what a step leaves -/

/-- Whenever the step succeeds, its value and the resources it leaves meet a condition. -/
def Ends (step : Lower α) (start : Resources) (post : α → Resources → Prop) : Prop :=
  ∀ out, step.run start = .ok out → post out.value out.resources

/-- A condition on the end can be weakened. -/
theorem Ends.imp {step : Lower α} {post post' : α → Resources → Prop} (h : step.Ends start post)
    (himp : ∀ a after, post a after → post' a after) : step.Ends start post' :=
  fun out hrun => himp _ _ (h out hrun)

/-- Two steps end well if the first ends where the second ends well. -/
@[simp] theorem ends_bind {step : Lower α} {next : α → Lower β} {post : β → Resources → Prop} :
    (step >>= next).Ends start post ↔ step.Ends start fun a mid => (next a).Ends mid post := by
  constructor
  · intro h first hfirst second hsecond
    exact h { second with code := first.code ++ second.code }
      (run_bind_eq_ok.2 ⟨first, second, hfirst, hsecond, rfl⟩)
  · intro h out hrun
    obtain ⟨first, second, hfirst, hsecond, rfl⟩ := run_bind_eq_ok.1 hrun
    exact h first hfirst second hsecond

/-! ## §2 Basic steps -/

/-- A step that cannot fail. -/
theorem ends_of_run {step : Lower α} {out : Lowered α} (hrun : step.run start = .ok out)
    {post : α → Resources → Prop} : step.Ends start post ↔ post out.value out.resources := by
  constructor
  · intro h
    exact h out hrun
  · intro h out' hrun'
    rw [hrun, Except.ok.injEq] at hrun'
    exact hrun' ▸ h

section Basic

variable {post : Unit → Resources → Prop}

@[simp] theorem ends_pure {a : α} {post : α → Resources → Prop} :
    (pure a : Lower α).Ends start post ↔ post a start :=
  ends_of_run (run_pure a start)

@[simp] theorem ends_map {step : Lower α} {f : α → β} {post : β → Resources → Prop} :
    (f <$> step).Ends start post ↔ step.Ends start fun a after => post (f a) after := by
  rw [map_eq_pure_bind, ends_bind]
  simp

@[simp] theorem ends_fail {e : CompileError} {post : α → Resources → Prop} :
    (fail e : Lower α).Ends start post :=
  fun _ hrun => by cases hrun

@[simp] theorem ends_ofExcept {x : Except CompileError α} {post : α → Resources → Prop} :
    (ofExcept x).Ends start post ↔ ∀ a, x = .ok a → post a start := by
  cases x with
  | error e => simp [Ends]
  | ok a => simpa using ends_of_run (run_ofExcept_ok a start)

@[simp] theorem ends_emitAll {code : List Pseudo} :
    (emitAll code).Ends start post ↔ post () start :=
  ends_of_run (run_emitAll code start)

@[simp] theorem ends_emit {i : Instruction} : (emit i).Ends start post ↔ post () start :=
  ends_of_run (run_emit i start)

@[simp] theorem ends_callRoutine {r : Routine} :
    (callRoutine r).Ends start post ↔ post () start :=
  ends_of_run (run_callRoutine r start)

@[simp] theorem ends_callRoutineIf {cond : Condition} {r : Routine} :
    (callRoutineIf cond r).Ends start post ↔ post () start :=
  ends_of_run (run_callRoutineIf cond r start)

@[simp] theorem ends_release {r : Register} :
    (release r).Ends start post ↔ post () { start with pool := start.pool.release r } :=
  ends_of_run (run_release r start)

@[simp] theorem ends_holdReturn {post : Register → Resources → Prop} :
    holdReturn.Ends start post ↔ post .r0 { start with pool := start.pool.holdReturn } :=
  ends_of_run (run_holdReturn start)

@[simp] theorem ends_freeReturn :
    freeReturn.Ends start post ↔ post () { start with pool := start.pool.freeReturn } :=
  ends_of_run (run_freeReturn start)

@[simp] theorem ends_getFrame {post : Frame → Resources → Prop} :
    getFrame.Ends start post ↔ post start.frame start :=
  ends_of_run (run_getFrame start)

@[simp] theorem ends_modifyFrame {f : Frame → Frame} :
    (modifyFrame f).Ends start post ↔ post () { start with frame := f start.frame } :=
  ends_of_run (run_modifyFrame f start)

@[simp] theorem ends_freshLabel {post : String → Resources → Prop} :
    freshLabel.Ends start post ↔
      post (localLabel start.nextLabel) { start with nextLabel := start.nextLabel + 1 } :=
  ends_of_run (run_freshLabel start)

@[simp] theorem ends_lookup {name : String} {post : Int × Ty → Resources → Prop} :
    (lookup name).Ends start post ↔
      ∀ found, start.frame.find name = .ok found → post found start := by
  rw [Ends, run_lookup]
  exact ends_ofExcept

@[simp] theorem ends_typeOf {e : Expr} {post : Ty → Resources → Prop} :
    (typeOf e).Ends start post ↔ ∀ ty, e.typeIn start.frame = .ok ty → post ty start := by
  rw [Ends, run_typeOf]
  exact ends_ofExcept

@[simp] theorem ends_declare {name : String} {ty : Ty} {post : Int → Resources → Prop} :
    (declare name ty).Ends start post ↔ ∀ offset frame,
      start.frame.declare name ty = .ok (offset, frame) → post offset { start with frame } := by
  constructor
  · intro h offset frame hdeclare
    exact h _ (run_declare_eq_ok.2 ⟨offset, frame, hdeclare, rfl⟩)
  · intro h out hrun
    obtain ⟨offset, frame, hdeclare, rfl⟩ := run_declare_eq_ok.1 hrun
    exact h offset frame hdeclare

/-- A step in a scope ends with the scope closed. -/
@[simp] theorem ends_inScope {slots : Nat} {step : Lower Unit} :
    (inScope slots step).Ends start post ↔
      step.Ends { start with frame := start.frame.openScope slots } fun _ inner =>
        post () { inner with frame := inner.frame.closeScope } := by
  simp [inScope]

end Basic

end Lower

/-! ## §3 Taking a register -/

/-- One register that was free is in use, and nothing else has changed. -/
def Resources.Took (start : Resources) (r : Register) (after : Resources) : Prop :=
  r ∈ start.pool.free ∧ after = start.hold r

namespace Lower

variable {start : Resources} {post : Unit → Resources → Prop}

/-- What is taken was free before. -/
theorem acquire_takes : acquire.Ends start start.Took := by
  intro out hrun
  obtain ⟨r, hhead, rfl⟩ := run_acquire_eq_ok.1 hrun
  exact ⟨List.mem_of_mem_head? hhead, rfl⟩

theorem intoFresh_takes {instruction : Register → Pseudo} :
    (intoFresh instruction).Ends start start.Took := by
  simpa [intoFresh] using acquire_takes

@[simp] theorem ends_index {array i : Register} {element : Ty} :
    (index array i element).Ends start post ↔ post () start := by
  simp [index]

end Lower

/-- What was taken is given back. -/
theorem Resources.release_hold (start : Resources) (r : Register) :
    { start.hold r with pool := (start.hold r).pool.release r } = start := by
  simp [hold]

/-! ## §4 Expressions, right sides and targets -/

theorem Fetches.took {W : Register → Prop} {start : Resources} {out : Lowered Register}
    (h : Fetches W start out) : start.Took out.value out.resources :=
  ⟨h.free, h.holds⟩

/-- An expression takes one free register for its value and leaves all else as it was. -/
theorem Expr.lower_takes (e : Expr) (start : Resources) : e.lower.Ends start start.Took :=
  fun _ hrun => (e.lower_fetches hrun (.any _)).took

namespace Lower

variable {start : Resources}

theorem loadArray_takes {name : String} :
    (loadArray name).Ends start fun found after => start.Took found.1 after :=
  fun _ hrun => (loadArray_fetches (.any _) hrun).took

theorem sideAddress_takes (side : Side) (pair : Expr) :
    (sideAddress side pair).Ends start start.Took :=
  fun _ hrun => (sideAddress_fetches hrun (.any _)).took

theorem allocate_takes {bytes : Int32} : (allocate bytes).Ends start start.Took :=
  fun _ hrun => (allocate_fetches hrun (.any _)).took

/-- Two steps that take a register each take two. -/
theorem inOrder_takes {left : Bool} {a b : Lower Register} (ha : ∀ start, a.Ends start start.Took)
    (hb : ∀ start, b.Ends start start.Took) :
    (inOrder left a b).Ends start fun both after =>
      FetchesBoth (fun _ => True) start { value := both, resources := after } := by
  cases left with
  | true =>
    simp only [inOrder, if_true, ends_bind, ends_pure]
    refine (ha start).imp ?_
    rintro x _ ⟨hx, rfl⟩
    refine (hb _).imp ?_
    rintro y _ ⟨hy, rfl⟩
    obtain ⟨hfree, hne⟩ := RegisterPool.mem_free_hold.1 hy
    exact ⟨hx, hfree, hne.symm, .inl rfl, .nil⟩
  | false =>
    simp only [inOrder, Bool.false_eq_true, if_false, ends_bind, ends_pure]
    refine (hb start).imp ?_
    rintro y _ ⟨hy, rfl⟩
    refine (ha _).imp ?_
    rintro x _ ⟨hx, rfl⟩
    obtain ⟨hfree, hne⟩ := RegisterPool.mem_free_hold.1 hx
    exact ⟨hfree, hy, hne, .inr rfl, .nil⟩

/-- All that remains of arguments is the depth. -/
theorem pushArgs_ends (params : List Param) (args : List Expr) :
    (pushArgs params args).Ends start fun _ after => after =
      { start with frame := start.frame.pushTemp (slotBytes * args.length : Nat) } :=
  fun _ hrun => (pushArgs_eq_ok hrun (.any _)).1

end Lower

/-- The resources with the return register not in use. -/
def Resources.returned (start : Resources) : Resources :=
  { start with pool := start.pool.freeReturn }

theorem Resources.returned_of_free {start : Resources} (h : start.pool.returnHeld = false) :
    start.returned = start := by
  obtain ⟨⟨capacity, held, returnHeld⟩, frame, nextLabel⟩ := start
  cases h
  rfl

/-- A call takes one register for its result, and leaves the return register free. -/
theorem Lower.callFunction_takes {start : Resources} (table : SymbolTable) (name : String)
    (args : List Expr) : (callFunction table name args).Ends start start.returned.Took := by
  intro out hrun
  obtain ⟨signature, pushed, _, hpushed, hhead, hout, _⟩ := callFunction_eq_ok hrun
  rw [pushArgs_ends _ _ _ hpushed] at hhead hout
  refine ⟨List.mem_of_mem_head? hhead, ?_⟩
  simp [hout, Resources.hold, Resources.returned, RegisterPool.hold, RegisterPool.freeReturn,
    RegisterPool.holdReturn]

/-- Whether a right side is a call. -/
def Rhs.isCall : Rhs → Bool
  | .call .. => true
  | .expr _ | .array _ | .newPair .. | .side .. => false

/-- A right side takes one free register for its value and leaves all else as it was. A call counts
on the return register not being in use. -/
theorem Rhs.lower_takes (table : SymbolTable) (target : Ty) {rhs : Rhs} {start : Resources}
    (hreturn : rhs.isCall = true → start.pool.returnHeld = false) :
    (rhs.lower table target).Ends start start.Took := by
  cases rhs with
  | call name args =>
    have hcall : (callFunction table name args).Ends start start.returned.Took :=
      callFunction_takes table name args
    rwa [Resources.returned_of_free (hreturn rfl)] at hcall
  | expr | array | newPair | side =>
    exact fun _ hrun => (Rhs.lower_fetches hrun (fun _ _ h => by cases h) (.any _)).took

/-- A right side takes one free register in any case. -/
theorem Rhs.lower_ends (table : SymbolTable) (target : Ty) (rhs : Rhs) (start : Resources) :
    (rhs.lower table target).Ends start fun r after =>
      start.Took r after ∨ start.returned.Took r after := by
  cases rhs with
  | call name args => exact (callFunction_takes table name args).imp fun _ _ => .inr
  | expr | array | newPair | side =>
    exact (Rhs.lower_takes table target fun hcall => by cases hcall).imp fun _ _ => .inl

/-- What finding a place has taken: nothing for a variable, a register for a computed address. -/
def Place.Taken (start : Resources) (place : Place) (after : Resources) : Prop :=
  match place with
  | .stack _ => after = start
  | .computed r => start.Took r after

@[simp] theorem Place.taken_stack {start after : Resources} {offset : Int} :
    (Place.stack offset).Taken start after ↔ after = start := .rfl

@[simp] theorem Place.taken_computed {start after : Resources} {r : Register} :
    (Place.computed r).Taken start after ↔ start.Took r after := .rfl

/-- A target takes the register that its place is in, if it is in one. -/
theorem Target.place_ends (target : Target) (start : Resources) :
    target.place.Ends start fun place after => place.Taken start after := by
  intro out hrun
  cases Target.place_finds hrun (.any _) with
  | stack => rfl
  | computed hfetch => exact hfetch.took

namespace Place.Taken

variable {start mid : Resources} {place : Place}

/-- Giving a place back leaves what was there before it was found. -/
theorem release_ends (h : place.Taken start mid) :
    place.release.Ends mid fun _ after => after = start := by
  cases place with
  | stack offset => simpa [Place.release] using h
  | computed r =>
    obtain ⟨_, rfl⟩ := h
    rw [Place.release, ends_release]
    exact start.release_hold r

/-- The address of a place takes one register. -/
theorem placeAddress_takes (h : place.Taken start mid) :
    (placeAddress place).Ends mid start.Took := by
  cases place with
  | stack offset =>
    cases h
    exact intoFresh_takes
  | computed r => simpa [placeAddress] using h

end Place.Taken

/-! ## §5 Statements -/

/-- Declarations open and close no scope. -/
theorem Frame.Declared.scopes_length {frame frame' : Frame} {count : Nat}
    (h : frame.Declared count frame') : frame'.scopes.length = frame.scopes.length := by
  induction h with
  | none => rfl
  | next _ hdeclare ih =>
    obtain ⟨scope, outer, hscopes, _, _, rfl⟩ := Frame.declare_eq_ok.1 hdeclare
    simpa [hscopes] using ih

/-- What a statement that declares `count` variables may change: the innermost scope, by these
variables, and the next label. The return register may come out of use. -/
structure Resources.Settled (start : Resources) (count : Nat) (after : Resources) : Prop where
  held : after.pool.held = start.pool.held
  capacity : after.pool.capacity = start.pool.capacity
  returnHeld : after.pool.returnHeld = true → start.pool.returnHeld = true
  frame : start.frame.Declared count after.frame

namespace Resources.Settled

variable {start mid after : Resources} {count more : Nat}

theorem refl (start : Resources) : Settled start 0 start := ⟨rfl, rfl, id, .none _⟩

theorem trans (h : Settled start count mid) (h' : Settled mid more after) :
    Settled start (count + more) after :=
  ⟨h'.held.trans h.held, h'.capacity.trans h.capacity,
    fun hafter => h.returnHeld (h'.returnHeld hafter), h.frame.trans h'.frame⟩

theorem withLabel (h : Settled start count mid) (n : Nat) :
    Settled start count { mid with nextLabel := n } :=
  ⟨h.held, h.capacity, h.returnHeld, h.frame⟩

theorem returned (h : Settled start count mid) : Settled start count mid.returned :=
  ⟨h.held, h.capacity, fun hheld => absurd hheld Bool.false_ne_true, h.frame⟩

/-- Closing the scope that was opened before brings the frame back. -/
theorem closeScope {slots : Nat}
    (h : Settled { start with frame := start.frame.openScope slots } count after) :
    Settled start 0 { after with frame := after.frame.closeScope } := by
  refine ⟨h.held, h.capacity, h.returnHeld, ?_⟩
  show start.frame.Declared 0 after.frame.closeScope
  rw [h.frame.closeScope]
  exact .none _

/-- The scopes of the frame and its depth are as before. -/
theorem frame_eq (h : Settled start count after) :
    after.frame.scopes.length = start.frame.scopes.length ∧
      after.frame.depth = start.frame.depth :=
  ⟨h.frame.scopes_length, h.frame.keeps.1⟩

end Resources.Settled

/-- Taking a register for a right side and giving it back. -/
theorem Resources.Settled.release {start mid : Resources} {r : Register}
    (h : start.Took r mid ∨ start.returned.Took r mid) :
    Settled start 0 { mid with pool := mid.pool.release r } := by
  rcases h with ⟨_, rfl⟩ | ⟨_, rfl⟩
  · rw [Resources.release_hold]
    exact .refl start
  · rw [Resources.release_hold]
    exact (Settled.refl start).returned

namespace Lower

variable {start : Resources}

theorem testCondition_ends (cond : Expr) (value : Int) :
    (testCondition cond value).Ends start fun _ after => after = start :=
  fun _ hrun => (testCondition_quiet hrun (.any _)).unchanged

theorem printValue_ends (e : Expr) :
    (printValue e).Ends start fun _ after => after = start :=
  fun _ hrun => (printValue_quiet hrun (.any _)).unchanged

theorem loopBack_ends (cond : Expr) (top : String) :
    (loopBack cond top).Ends start fun _ after => after = start := by
  simpa [loopBack] using testCondition_ends cond 1

/-- The declarations in a scope are gone after it. -/
theorem inScope_settles {slots count : Nat} {step : Lower Unit}
    (hstep : ∀ start, step.Ends start fun _ after => start.Settled count after) :
    (inScope slots step).Ends start fun _ after => start.Settled 0 after := by
  rw [ends_inScope]
  exact (hstep _).imp fun _ _ h => h.closeScope

end Lower

/-- A statement gives back every register that it took, and leaves the scopes of the frame as they
were, but for the variables that it declares. -/
theorem Stmt.lower_settles (table : SymbolTable) (s : Stmt) (start : Resources) :
    (s.lower table).Ends start fun _ after => start.Settled s.slots after := by
  induction s generalizing start with
  | skip span => simpa [lower] using .refl start
  | declare span ty name rhs =>
    simp only [lower, ends_bind, ends_declare, ends_emit, ends_release]
    refine (rhs.lower_ends table ty start).imp ?_
    intro value mid htook offset frame hdeclare
    -- Declaring and giving back the register can be done in either order.
    have hdeclared : Resources.Settled { mid with pool := mid.pool.release value } 1
        { mid with pool := mid.pool.release value, frame } :=
      ⟨rfl, rfl, id, .one hdeclare⟩
    exact (Resources.Settled.release htook).trans hdeclared
  | assign span target rhs =>
    simp only [lower, ends_bind, ends_getFrame, ends_ofExcept, ends_emit, ends_release]
    intro ty _
    refine (rhs.lower_ends table ty start).imp ?_
    intro r mid htook
    refine (target.place_ends mid).imp ?_
    intro place taken hplace
    refine hplace.release_ends.imp ?_
    rintro _ _ rfl
    exact Resources.Settled.release htook
  | increment span name =>
    simp only [lower, ends_bind, ends_lookup, ends_emit, ends_callRoutineIf, ends_release]
    intro found _
    exact acquire_takes.imp fun r _ htook => Resources.Settled.release (.inl htook)
  | read span target =>
    simp only [lower, ends_bind, ends_getFrame, ends_ofExcept, ends_emit, ends_release,
      ends_callRoutine]
    intro ty _
    refine (target.place_ends start).imp ?_
    intro place mid hplace
    exact hplace.placeAddress_takes.imp fun r _ htook => Resources.Settled.release (.inl htook)
  | free span e =>
    simp only [lower, ends_bind, ends_emit, ends_release, ends_callRoutine]
    exact (e.lower_takes start).imp fun r _ htook => Resources.Settled.release (.inl htook)
  | ret span e =>
    simp only [lower, ends_bind, ends_holdReturn, ends_emit, ends_release, ends_getFrame,
      ends_emitAll, ends_freeReturn]
    refine (e.lower_takes start).imp ?_
    intro r mid htook
    exact (Resources.Settled.release (.inl htook)).returned
  | exit span e =>
    simp only [lower, ends_bind, ends_holdReturn, ends_emit, ends_release, ends_freeReturn]
    refine (e.lower_takes start).imp ?_
    intro r mid htook
    exact (Resources.Settled.release (.inl htook)).returned
  | print span e =>
    refine (printValue_ends e).imp ?_
    rintro _ _ rfl
    exact .refl _
  | println span e =>
    simp only [lower, ends_bind, ends_callRoutine]
    refine (printValue_ends e).imp ?_
    rintro _ _ rfl
    exact .refl _
  | ifThen span cond arm ih =>
    simp only [lower, ends_bind, ends_freshLabel, ends_emit]
    refine (testCondition_ends cond 0).imp ?_
    rintro _ _ rfl
    -- The variables of the arm are gone with its scope.
    exact (inScope_settles ih).imp fun _ _ h => ((Resources.Settled.refl start).withLabel _).trans h
  | ifElse span cond thenArm elseArm ihThen ihElse =>
    simp only [lower, ends_bind, ends_freshLabel, ends_emit]
    refine (testCondition_ends cond 0).imp ?_
    rintro _ _ rfl
    refine (inScope_settles ihThen).imp ?_
    intro _ mid hthen
    refine (inScope_settles ihElse).imp ?_
    intro _ after helse
    exact (((Resources.Settled.refl start).withLabel _).trans hthen).trans helse
  | whileDo span cond body ih =>
    simp only [lower, ends_bind, ends_freshLabel, ends_emit]
    refine (inScope_settles ih).imp ?_
    intro _ mid hbody
    refine (loopBack_ends cond _).imp ?_
    rintro _ _ rfl
    exact ((Resources.Settled.refl start).withLabel _).trans hbody
  | doWhile span body cond ih =>
    simp only [lower, ends_bind, ends_freshLabel, ends_emit]
    refine (inScope_settles ih).imp ?_
    intro _ mid hbody
    refine (loopBack_ends cond _).imp ?_
    rintro _ _ rfl
    exact ((Resources.Settled.refl start).withLabel _).trans hbody
  | forLoop span init cond step body ihInit ihStep ihBody =>
    rw [lower_forLoop]
    apply inScope_settles
    intro start
    simp only [lowerFor, ends_bind, ends_freshLabel, ends_emit]
    refine (ihInit start).imp ?_
    intro _ first hfirst
    refine (inScope_settles ihBody).imp ?_
    intro _ round hround
    refine (ihStep round).imp ?_
    intro _ last hlast
    refine (loopBack_ends cond _).imp ?_
    rintro _ _ rfl
    exact ((hfirst.withLabel _).trans hround).trans hlast
  | block span body ih => exact inScope_settles ih
  | seq span first second ihFirst ihSecond =>
    simp only [lower, ends_bind]
    refine (ihFirst start).imp ?_
    intro _ mid hfirst
    exact (ihSecond mid).imp fun _ _ hsecond => hfirst.trans hsecond

end ArmCompiler
