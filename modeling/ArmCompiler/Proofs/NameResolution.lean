import ArmCompiler.Proofs.CheckedPrograms
import ArmCompiler.Proofs.Outcomes

/-!
# Names in Checked Programs

Checking without a diagnostic settles all names of a program, whatever the types of its variables
are. A frame *covers* a table if it has a place for every variable that the table knows. Lowering
keeps the frame of a checked statement covering, so every name is found and every declaration has a
slot. What can still go wrong has no name in it: registers run out, or a side is taken of a value
whose type is not that of a pair. Main statement: `Program.error_of_checked`.

The types matter for the second of the two only. Where all of them are valid it cannot happen, and
`Program.compile_of_clean` says so.

## Contents
- §1: covering frames
- §2: errors of steps
- §3: statements
- §4: programs
-/

namespace ArmCompiler

open Instruction Lower Report

/-! ## §1 Covering frames -/

/-- A variable stays bound when others are declared. -/
theorem Frame.Declared.binds {frame frame' : Frame} {count : Nat} {name : String}
    (h : frame.Declared count frame') (hname : frame.Binds name) : frame'.Binds name := by
  induction h with
  | none => exact hname
  | next _ hdeclare ih =>
    obtain ⟨l, _, hlocal⟩ := Frame.local?_of_declare hdeclare name
    rw [Binds, hlocal]
    split
    · rfl
    · exact ih

namespace Frame.Covers

variable {frame frame' : Frame} {table table' : SymbolTable}

theorem openScope (h : frame.Covers table) (slots : Int) :
    (frame.openScope slots).Covers table.openScope :=
  h

theorem declared (h : frame.Covers table) {count : Nat} (hdeclared : frame.Declared count frame') :
    frame'.Covers table :=
  fun name hname => hdeclared.binds (h name hname)

/-- A variable that the table gains is declared in the frame. -/
theorem declare (h : frame.Covers table) {name : String} {ty : Ty} {offset : Int}
    (htable : table.addVariable? name ty = some table')
    (hframe : frame.declare name ty = .ok (offset, frame')) : frame'.Covers table' := by
  intro other hother
  rw [SymbolTable.typeOf?_of_addVariable? htable] at hother
  by_cases hsame : other = name
  · obtain ⟨l, _, hlocal⟩ := Frame.local?_of_declare hframe other
    rw [Binds, hlocal, if_pos hsame]
    rfl
  · rw [if_neg hsame] at hother
    exact (Declared.one hframe).binds (h other hother)

end Frame.Covers

/-! ## §2 Errors of steps -/

/-- The errors without a name in them that lowering can end with. -/
inductive CompileError.Nameless : CompileError → Prop where
  | registers (available : Nat) : Nameless (.registersExhausted available)
  | notPair (ty : Ty) : Nameless (.internal (.notPair ty))

namespace Lower

variable {α β : Type} {start : Resources}

/-- Whatever a step fails with has no name in it. -/
def Anonymous (step : Lower α) (start : Resources) : Prop :=
  ∀ e, step.run start = .error e → e.Nameless

/-- Two steps fail without a name if the first does, and the second where the first ends. -/
@[simp] theorem anonymous_bind {step : Lower α} {next : α → Lower β} :
    (step >>= next).Anonymous start ↔
      step.Anonymous start ∧ step.Ends start fun a mid => (next a).Anonymous mid := by
  simp only [Anonymous, Ends, run_bind_eq_error]
  constructor
  · intro h
    exact ⟨fun e he => h e (.inl he), fun out hout e he => h e (.inr ⟨out, hout, he⟩)⟩
  · rintro ⟨hfirst, hsecond⟩ e (he | ⟨out, hout, he⟩)
    · exact hfirst e he
    · exact hsecond out hout e he

theorem anonymous_of_run {step : Lower α} {out : Lowered α} (hrun : step.run start = .ok out) :
    step.Anonymous start := by
  intro e he
  rw [hrun] at he
  cases he

@[simp] theorem ends_trivial {step : Lower α} : step.Ends start fun _ _ => True :=
  fun _ _ => trivial

@[simp] theorem anonymous_pure {a : α} : (pure a : Lower α).Anonymous start :=
  anonymous_of_run (run_pure a start)

@[simp] theorem anonymous_emitAll {code : List Pseudo} : (emitAll code).Anonymous start :=
  anonymous_of_run (run_emitAll code start)

@[simp] theorem anonymous_emit {i : Instruction} : (emit i).Anonymous start :=
  anonymous_of_run (run_emit i start)

@[simp] theorem anonymous_callRoutine {r : Routine} : (callRoutine r).Anonymous start :=
  anonymous_of_run (run_callRoutine r start)

@[simp] theorem anonymous_callRoutineIf {cond : Condition} {r : Routine} :
    (callRoutineIf cond r).Anonymous start :=
  anonymous_of_run (run_callRoutineIf cond r start)

@[simp] theorem anonymous_release {r : Register} : (release r).Anonymous start :=
  anonymous_of_run (run_release r start)

@[simp] theorem anonymous_holdReturn : holdReturn.Anonymous start :=
  anonymous_of_run (run_holdReturn start)

@[simp] theorem anonymous_freeReturn : freeReturn.Anonymous start :=
  anonymous_of_run (run_freeReturn start)

@[simp] theorem anonymous_getFrame : getFrame.Anonymous start :=
  anonymous_of_run (run_getFrame start)

@[simp] theorem anonymous_freshLabel : freshLabel.Anonymous start :=
  anonymous_of_run (run_freshLabel start)

/-- Registers can run out. -/
@[simp] theorem anonymous_acquire : acquire.Anonymous start := by
  intro e he
  obtain ⟨_, rfl⟩ := run_acquire_eq_error.1 he
  exact .registers _

@[simp] theorem anonymous_intoFresh {instruction : Register → Pseudo} :
    (intoFresh instruction).Anonymous start := by
  intro e he
  obtain ⟨_, rfl⟩ := run_intoFresh_eq_error.1 he
  exact .registers _

@[simp] theorem anonymous_ofExcept {x : Except CompileError α} :
    (ofExcept x).Anonymous start ↔ ∀ e, x = .error e → e.Nameless := by
  simp only [Anonymous, run_ofExcept_eq_error]

@[simp] theorem anonymous_inScope {slots : Nat} {step : Lower Unit} :
    (inScope slots step).Anonymous start ↔
      step.Anonymous { start with frame := start.frame.openScope slots } := by
  simp only [Anonymous, run_inScope_eq_error]

/-- A bound name is found. -/
theorem anonymous_lookup {name : String} (h : start.frame.Binds name) :
    (lookup name).Anonymous start := by
  intro e he
  rw [run_lookup, run_ofExcept_eq_error] at he
  obtain ⟨hnone, _⟩ := Frame.find_eq_error.1 he
  simp [Frame.Binds, hnone] at h

/-- A variable is declared where there is room. -/
theorem anonymous_declare {name : String} {ty : Ty} (h : 0 < start.frame.room) :
    (declare name ty).Anonymous start := by
  intro e he
  obtain ⟨hfull, _⟩ := Frame.declare_eq_error.1 (run_declare_eq_error.1 he)
  omega

end Lower

section Phrases

variable {start : Resources}

/-- A resolved expression fails by the lack of registers only. -/
theorem Expr.lower_anonymous {e : Expr} (h : e.Resolved start.frame.Binds) :
    e.lower.Anonymous start := by
  intro err herr
  rw [(e.lower_needs h).error herr]
  exact .registers _

/-- So does a resolved right side. -/
theorem Rhs.lower_anonymous {table : SymbolTable} {target : Ty} {rhs : Rhs}
    (h : rhs.Resolved start.frame.Binds table.Knows) :
    (rhs.lower table target).Anonymous start := by
  intro err herr
  rw [(Rhs.lower_needs h).error herr]
  exact .registers _

/-- So does the place of a resolved target. -/
theorem Target.place_anonymous {target : Target} (h : target.Resolved start.frame.Binds) :
    target.place.Anonymous start := by
  intro err herr
  rw [(Target.place_needs h).error herr]
  exact .registers _

/-- The type of a resolved target is missing only where the side of a non-pair is taken. -/
theorem Target.typeIn_nameless {frame : Frame} {target : Target}
    (h : target.Resolved frame.Binds) {e : CompileError} (he : target.typeIn frame = .error e) :
    e.Nameless := by
  -- A name that is bound is found.
  have hfind {name : String} (hname : frame.Binds name) : ∃ found, frame.find name = .ok found := by
    obtain ⟨l, hl⟩ := Option.isSome_iff_exists.1 hname
    exact ⟨_, Frame.find_eq_ok.2 ⟨l, hl, rfl, rfl⟩⟩
  cases target with
  | ident name =>
    obtain ⟨found, hfound⟩ := hfind h
    simp [Target.typeIn, hfound, bind, Except.bind] at he
  | elem name indices =>
    obtain ⟨found, hfound⟩ := hfind h.1
    simp [Target.typeIn, Frame.elementType, hfound, bind, Except.bind] at he
  | side which pair =>
    -- The checker lets a side of an invalid type pass, so this error cannot be ruled out here.
    rw [Target.typeIn, Expr.sideTypeIn] at he
    cases hty : pair.typeIn frame with
    | error e' => exact absurd hty (Expr.Resolved.typeIn_ne_error h)
    | ok ty =>
      cases hside : ty.side? which with
      | some sideTy => simp [hty, hside, bind, Except.bind] at he
      | none =>
        obtain rfl : .internal (.notPair ty) = e := by
          simpa [hty, hside, bind, Except.bind] using he
        exact .notPair ty

end Phrases

/-! ## §3 Statements -/

theorem Resources.frame_of_took {start mid : Resources} {r : Register}
    (h : start.Took r mid ∨ start.returned.Took r mid) : mid.frame = start.frame := by
  rcases h with ⟨_, rfl⟩ | ⟨_, rfl⟩ <;> rfl

/-- What lowering a checked statement counts on, as far as names go: the functions that the table
knows, a place for each of its variables, and a frame in order. -/
structure Named (known table : SymbolTable) (start : Resources) : Prop where
  functions : known.functions = table.functions
  covers : start.frame.Covers table
  laid : start.frame.Laid

namespace Named

variable {known table : SymbolTable} {start after : Resources}

theorem knows (h : Named known table start) : table.Knows = known.Knows := by
  funext name
  simp [SymbolTable.Knows, SymbolTable.function?, h.functions]

theorem withLabel (h : Named known table start) (n : Nat) :
    Named known table { start with nextLabel := n } :=
  ⟨h.functions, h.covers, h.laid⟩

theorem openScope (h : Named known table start) (slots : Nat) :
    Named known table.openScope { start with frame := start.frame.openScope slots } :=
  ⟨h.functions, h.covers.openScope slots, h.laid.openScope slots⟩

theorem declared (h : Named known table start) {count : Nat}
    (hdeclared : start.frame.Declared count after.frame) : Named known table after :=
  ⟨h.functions, h.covers.declared hdeclared, h.laid.declared hdeclared⟩

/-- What a checked statement leaves is what the next one counts on. -/
theorem lower (h : Named known table start) {s : Stmt}
    (hclean : (s.check table).diagnostics = []) :
    (s.lower known).Ends start fun _ after => Named known (s.check table).value.2 after := by
  -- Only declarations and sequences of them change the table.
  have unchanged {s : Stmt} {table : SymbolTable} {start : Resources}
      (h : Named known table start) (hslots : s.slots = 0) :
      (s.lower known).Ends start fun _ after => Named known (s.check table).value.2 after := by
    rw [Stmt.check_of_slots hslots]
    exact (s.lower_settles known start).imp fun _ _ hsettled => h.declared hsettled.frame
  induction s generalizing table start with
  | declare span ty name rhs =>
    obtain ⟨_, hadd⟩ := Stmt.check_declare_clean hclean
    simp only [Stmt.lower, ends_bind, ends_declare, ends_emit, ends_release]
    refine (rhs.lower_ends known ty start).imp ?_
    intro value mid htook offset frame hdeclare
    rw [Resources.frame_of_took htook] at hdeclare
    refine ⟨?_, h.covers.declare hadd hdeclare, h.laid.declare hdeclare⟩
    exact h.functions.trans (SymbolTable.Extends.addVariable? hadd).functions.symm
  | seq span first second ihFirst ihSecond =>
    obtain ⟨hfirst, hsecond, hvalue⟩ := Stmt.check_seq_clean hclean
    simp only [Stmt.lower, ends_bind]
    refine (ihFirst h hfirst).imp ?_
    intro _ mid hmid
    rw [hvalue]
    exact ihSecond hmid hsecond
  | skip | assign | increment | read | free | ret | exit | print | println | ifThen | ifElse
  | whileDo | doWhile | forLoop | block => exact unchanged h rfl

/-- A statement in a scope of its own leaves what it counts on. -/
theorem inScope (h : Named known table start) (s : Stmt) :
    (Lower.inScope s.slots (s.lower known)).Ends start fun _ after => Named known table after :=
  (inScope_settles (s.lower_settles known)).imp fun _ _ hsettled => h.declared hsettled.frame

theorem testCondition (h : Named known table start) {cond : Expr} (value : Int)
    (hclean : (checkCondition table cond).diagnostics = []) :
    (Lower.testCondition cond value).Anonymous start := by
  have hcond := Expr.lower_anonymous (checkCondition_resolved h.covers hclean)
  simpa [Lower.testCondition] using hcond

theorem printValue (h : Named known table start) {e : Expr}
    (hclean : (e.check table).diagnostics = []) : (Lower.printValue e).Anonymous start := by
  intro err herr
  rw [(printValue_needs (e.check_resolved h.covers hclean)).error herr]
  exact .registers _

end Named

/-- Lowering a checked statement fails without a name, as long as its scope has room for its
variables. -/
theorem Stmt.lower_anonymous (s : Stmt) {known table : SymbolTable} {start : Resources}
    (hclean : (s.check table).diagnostics = []) (hnamed : Named known table start)
    (hroom : s.slots ≤ start.frame.room) : (s.lower known).Anonymous start := by
  -- By induction on the statement. Parts are lowered in what the parts before them leave, and that
  -- is known from where those end.
  induction s generalizing table start with
  | skip span => exact anonymous_pure
  | declare span ty name rhs =>
    obtain ⟨hrhs, _⟩ := check_declare_clean hclean
    have hresolved := Rhs.check_resolved hnamed.covers hrhs
    rw [hnamed.knows] at hresolved
    simp only [lower, anonymous_bind, anonymous_emit, anonymous_release, ends_trivial, and_true]
    refine ⟨Rhs.lower_anonymous hresolved, ?_⟩
    refine (rhs.lower_ends known ty start).imp ?_
    intro value mid htook
    apply anonymous_declare
    rw [Resources.frame_of_took htook]
    simp only [slots] at hroom
    omega
  | assign span target rhs =>
    simp only [check, diagnostics_bind, List.append_eq_nil_iff] at hclean
    have htarget := Target.check_resolved hnamed.covers hclean.1
    have hresolved := Rhs.check_resolved hnamed.covers hclean.2.1
    rw [hnamed.knows] at hresolved
    simp only [lower, anonymous_bind, anonymous_getFrame, ends_getFrame, anonymous_ofExcept,
      ends_ofExcept, anonymous_emit, anonymous_release, ends_emit, ends_trivial, and_true,
      true_and]
    refine ⟨fun e he => Target.typeIn_nameless htarget he, ?_⟩
    intro ty _
    refine ⟨Rhs.lower_anonymous hresolved, ?_⟩
    refine (rhs.lower_ends known ty start).imp ?_
    intro value mid htook
    -- The right side took a register, and left the frame in which the target is resolved.
    have hframe := Resources.frame_of_took htook
    refine ⟨Target.place_anonymous (hframe ▸ htarget), ?_⟩
    refine (target.place_ends mid).imp ?_
    intro place _ _
    cases place <;> simp [Place.release]
  | increment span name =>
    have hbound : start.frame.Binds name := by
      apply hnamed.covers
      simp only [check] at hclean
      cases hty : table.typeOf? name with
      | none => simp [hty, note] at hclean
      | some ty => rfl
    simpa [lower] using anonymous_lookup hbound
  | read span target =>
    simp only [check, diagnostics_bind, List.append_eq_nil_iff] at hclean
    have htarget := Target.check_resolved hnamed.covers hclean.1
    simp only [lower, anonymous_bind, anonymous_getFrame, ends_getFrame, anonymous_ofExcept,
      ends_ofExcept, anonymous_emit, anonymous_release, anonymous_callRoutine, ends_trivial,
      and_true, true_and]
    refine ⟨fun e he => Target.typeIn_nameless htarget he, ?_⟩
    intro ty _
    refine ⟨Target.place_anonymous htarget, ?_⟩
    refine (target.place_ends start).imp ?_
    intro place _ _
    cases place <;> simp [placeAddress]
  | free span e | exit span e | ret span e =>
    simp only [check, diagnostics_bind, List.append_eq_nil_iff] at hclean
    have he := Expr.lower_anonymous (e.check_resolved hnamed.covers hclean.1)
    simpa [lower] using he
  | print span e =>
    simp only [check, diagnostics_bind, List.append_eq_nil_iff] at hclean
    exact hnamed.printValue hclean.1
  | println span e =>
    simp only [check, diagnostics_bind, List.append_eq_nil_iff] at hclean
    simpa [lower] using hnamed.printValue hclean.1
  | ifThen span cond arm ih =>
    simp only [check, diagnostics_bind, List.append_eq_nil_iff,
      SymbolTable.diagnostics_scoped] at hclean
    simp only [lower, anonymous_bind, anonymous_freshLabel, ends_freshLabel, anonymous_emit,
      anonymous_inScope, ends_emit, ends_trivial, and_true, true_and]
    have hnext := hnamed.withLabel (start.nextLabel + 1)
    refine ⟨hnext.testCondition 0 hclean.1, ?_⟩
    refine (testCondition_ends cond 0).imp ?_
    rintro _ _ rfl
    exact ih hclean.2 (hnext.openScope _) (by simp)
  | ifElse span cond thenArm elseArm ihThen ihElse =>
    simp only [check, diagnostics_bind, List.append_eq_nil_iff, diagnostics_pure, and_true,
      SymbolTable.diagnostics_scoped, value_scoped_check] at hclean
    simp only [lower, anonymous_bind, anonymous_freshLabel, ends_freshLabel, anonymous_emit,
      anonymous_inScope, ends_emit, ends_trivial, and_true, true_and]
    have hfirst := hnamed.withLabel (start.nextLabel + 1)
    refine ⟨hfirst.testCondition 0 hclean.1, ?_⟩
    refine (testCondition_ends cond 0).imp ?_
    rintro _ _ rfl
    have hnext := hnamed.withLabel (start.nextLabel + 1 + 1)
    refine ⟨ihThen hclean.2.1 (hnext.openScope _) (by simp), ?_⟩
    refine (hnext.inScope thenArm).imp ?_
    intro _ mid hmid
    exact ihElse hclean.2.2 (hmid.openScope _) (by simp)
  | whileDo span cond body ih =>
    simp only [check, diagnostics_bind, List.append_eq_nil_iff,
      SymbolTable.diagnostics_scoped] at hclean
    simp only [lower, loopBack, anonymous_bind, anonymous_freshLabel, ends_freshLabel,
      anonymous_emit, anonymous_inScope, ends_emit, ends_trivial, and_true, true_and]
    have hnext := hnamed.withLabel (start.nextLabel + 1 + 1)
    refine ⟨ih hclean.2 (hnext.openScope _) (by simp), ?_⟩
    exact (hnext.inScope body).imp fun _ mid hmid => hmid.testCondition 1 hclean.1
  | doWhile span body cond ih =>
    simp only [check, diagnostics_bind, List.append_eq_nil_iff, diagnostics_pure, and_true,
      SymbolTable.diagnostics_scoped, value_scoped_check] at hclean
    simp only [lower, loopBack, anonymous_bind, anonymous_freshLabel, ends_freshLabel,
      anonymous_emit, anonymous_inScope, ends_emit, ends_trivial, and_true, true_and]
    have hnext := hnamed.withLabel (start.nextLabel + 1)
    refine ⟨ih hclean.1 (hnext.openScope _) (by simp), ?_⟩
    exact (hnext.inScope body).imp fun _ mid hmid => hmid.testCondition 1 hclean.2
  | forLoop span init cond step body ihInit ihStep ihBody =>
    simp only [check_forLoop, SymbolTable.diagnostics_scoped] at hclean
    obtain ⟨hfirst, hcond, hslots, hlast, hbody⟩ := checkFor_clean hclean
    simp only [lower_forLoop, anonymous_inScope, lowerFor, loopBack, anonymous_bind,
      anonymous_freshLabel, ends_freshLabel, anonymous_emit, ends_emit, ends_trivial, and_true,
      true_and]
    have hopen := hnamed.openScope init.slots
    refine ⟨ihInit hfirst hopen (by simp), ?_⟩
    refine (hopen.lower hfirst).imp ?_
    intro _ first hinit
    have hnext := hinit.withLabel (first.nextLabel + 1 + 1)
    refine ⟨ihBody hbody (hnext.openScope _) (by simp), ?_⟩
    refine (hnext.inScope body).imp ?_
    intro _ round hround
    -- The step may not declare, so it needs no room in the scope of the loop.
    have hroom' : (step.slots : Int) ≤ round.frame.room := by
      rw [hslots]
      exact hround.laid.room_nonneg
    refine ⟨ihStep hlast hround hroom', ?_⟩
    refine (hround.lower hlast).imp ?_
    intro _ last hstep
    rw [check_of_slots hslots] at hstep
    exact hstep.testCondition 1 hcond
  | block span body ih =>
    simp only [check, SymbolTable.diagnostics_scoped] at hclean
    simp only [lower, anonymous_inScope]
    exact ih hclean (hnamed.openScope _) (by simp)
  | seq span first second ihFirst ihSecond =>
    obtain ⟨hfirst, hsecond, _⟩ := check_seq_clean hclean
    simp only [slots] at hroom
    simp only [lower, anonymous_bind]
    refine ⟨ihFirst hfirst hnamed (by omega), ?_⟩
    intro out hrun
    -- The first statement used as many slots as it declares, so the second still has its own.
    have hleft := (first.lower_settles known start out hrun).frame.keeps.2.2.2.2
    exact ihSecond hsecond (hnamed.lower hfirst out hrun) (by omega)

/-! ## §4 Programs -/

/-- A body's scope is opened in the frame, but has no scope of its own in the table. -/
theorem Stmt.lowerBody_anonymous {known table : SymbolTable} {body : Stmt} {start : Resources}
    (hclean : (body.check table).diagnostics = []) (hnamed : Named known table start) :
    (body.lowerBody known).Anonymous start := by
  rw [Stmt.lowerBody, anonymous_inScope]
  apply body.lower_anonymous hclean
  · exact ⟨hnamed.functions, hnamed.covers, hnamed.laid.openScope body.slots⟩
  · simp

namespace Program

/-- The bodies of a checked program fail without a name. -/
theorem Clean.body_anonymous {p : Program} (h : p.Clean) {body : Body} {start : Resources}
    (hbody : body ∈ p.bodies p.check.value) (hframe : start.frame = body.frame) :
    body.step.Anonymous start := by
  simp only [bodies, List.mem_append, List.mem_map, List.mem_singleton] at hbody
  -- A function starts with its parameters in table and frame, the main body with nothing in either.
  rcases hbody with ⟨f, hf, rfl⟩ | rfl
  · apply Stmt.lowerBody_anonymous (h.functions f hf)
    refine ⟨h.functions_eq, ?_, ?_⟩
    · intro name hname
      rw [hframe]
      rwa [typeOf?_inFunction rfl rfl, Option.isSome_map] at hname
    · rw [hframe]
      exact Frame.laid_ofParams f.params
  · have hmain : (p.body.lowerBody p.check.value).Anonymous start := by
      apply Stmt.lowerBody_anonymous h.main
      refine ⟨h.functions_eq, ?_, ?_⟩
      · intro name hname
        simp [SymbolTable.typeOf?, SymbolTable.scopes, functionTable] at hname
      · rw [hframe]
        exact Frame.laid_ofParams []
    simpa [Stmt.toMain] using hmain

/-- Compiling a program that checking finds nothing wrong with can fail for two reasons only, and
neither has a name in it. -/
theorem error_of_checked {p : Program} {config : Config} {e : CompileError}
    (hvalid : config.fault? = none) (hclean : p.check.diagnostics = [])
    (h : p.compile config = .error e) : e.Nameless := by
  have hcheck := check_clean hclean
  rw [compile_of_checked hvalid hclean, generate] at h
  cases hassemble : p.assemble p.check.value config with
  | ok listing => simp [hassemble, bind, Except.bind, pure, Except.pure] at h
  | error e' =>
    obtain rfl : e' = e := by simpa [hassemble, bind, Except.bind] using h
    obtain ⟨body, hbody, start, hframe, _, hrun⟩ :=
      assemble_error hvalid (hcheck.labels_nodup _) hassemble
    exact hcheck.body_anonymous hbody hframe e' hrun

end Program

end ArmCompiler
