import ArmCompiler.Proofs.Assembling
import ArmCompiler.Proofs.Exhaustion
import Mathlib.Data.List.Nodup

/-!
# Compiling Checked Programs

A program that was checked without a diagnostic is compiled, unless an expression in it needs
more registers than there are. Main statement: `Program.compile_of_clean`.

## Contents
- §1: declared functions
- §2: parameters
- §3: bodies of a checked program
- §4: checked programs
-/

namespace ArmCompiler

open Lower Report

/-! ## §1 Declared functions -/

/-- Functions that were declared without a diagnostic are known in their order, and no two of
them share a name. -/
theorem declare_clean {functions : List Function} {table : SymbolTable}
    (h : (functions.foldlM Function.declare table).diagnostics = []) :
    (functions.foldlM Function.declare table).value =
        { table with functions := table.functions ++ functions.map (·.signature) } ∧
      (functions.map (·.name)).Nodup ∧ ∀ f ∈ functions, table.function? f.name = none := by
  induction functions generalizing table with
  | nil => simp
  | cons f rest ih =>
    have hname : f.signature.name = f.name := rfl
    simp only [List.foldlM_cons, diagnostics_bind, value_bind, List.append_eq_nil_iff] at h ⊢
    cases hknown : table.function? f.name with
    | some signature =>
      simp [Function.declare, SymbolTable.addFunction?, hname, hknown, note] at h
    | none =>
      have hadd : f.declare table =
          pure { table with functions := table.functions ++ [f.signature] } := by
        simp [Function.declare, SymbolTable.addFunction?, hname, hknown]
      simp only [hadd, value_pure] at h ⊢
      obtain ⟨hvalue, hnodup, hothers⟩ := ih h.2
      -- The rest was declared in a table that has `f`, so none of it is called like `f`.
      simp only [SymbolTable.function?, List.find?_append, Option.or_eq_none_iff,
        List.find?_singleton, hname] at hothers
      refine ⟨by simp [hvalue], ?_, ?_⟩
      · rw [List.map_cons, List.nodup_cons]
        refine ⟨?_, hnodup⟩
        intro hmem
        obtain ⟨g, hg, hsame⟩ := List.mem_map.1 hmem
        have hnone := (hothers g hg).2
        simp [hsame] at hnone
      · intro g hg
        rcases List.mem_cons.1 hg with rfl | hg
        · exact hknown
        · exact (hothers g hg).1

/-- Among functions with distinct names each is found under its name. -/
theorem find_signature {functions : List Function} (hnodup : (functions.map (·.name)).Nodup)
    {f : Function} (hf : f ∈ functions) :
    (functions.map (·.signature)).find? (fun signature => signature.name == f.name) =
      some f.signature := by
  induction functions with
  | nil => cases hf
  | cons g rest ih =>
    rw [List.map_cons, List.nodup_cons] at hnodup
    rw [List.map_cons, List.find?_cons]
    rcases List.mem_cons.1 hf with rfl | hf
    · simp [Function.signature]
    · have hne : g.name ≠ f.name := fun hsame =>
        hnodup.1 (hsame ▸ List.mem_map_of_mem hf)
      simp only [Function.signature, beq_false_of_ne hne]
      exact ih hnodup.2 hf

/-! ## §2 Parameters -/

/-- Parameters without a clash are all bound, the last one first. -/
theorem bindParams_clean {params : List Param} {table : SymbolTable}
    (h : (table.bindParams params).1 = []) :
    (table.bindParams params).2 = { table with
      innermost := (params.map fun param => (param.name, param.ty)).reverse ++ table.innermost } := by
  induction params generalizing table with
  | nil => rfl
  | cons param rest ih =>
    unfold SymbolTable.bindParams at h ⊢
    cases hadd : table.addVariable? param.name param.ty with
    | none => simp [hadd] at h
    | some table' =>
      simp only [hadd] at h ⊢
      -- Each parameter is put in front of those before it.
      rw [ih h]
      unfold SymbolTable.addVariable? at hadd
      split at hadd
      · cases hadd
      · cases hadd
        simp

/-- Parameters without a clash have distinct names. -/
theorem nodup_of_bindParams {params : List Param} {table : SymbolTable}
    (h : (table.bindParams params).1 = []) :
    (params.map (·.name)).Nodup ∧ ∀ param ∈ params, table.innermost.lookup param.name = none := by
  induction params generalizing table with
  | nil => simp
  | cons param rest ih =>
    unfold SymbolTable.bindParams at h
    unfold SymbolTable.addVariable? at h
    cases hlookup : table.innermost.lookup param.name with
    | some ty => simp [hlookup] at h
    | none =>
      simp only [hlookup] at h
      obtain ⟨hnodup, hothers⟩ := ih h
      -- A later parameter is looked up in a scope that already has this one.
      have hkept : ∀ other ∈ rest, other.name ≠ param.name ∧
          table.innermost.lookup other.name = none := by
        intro other hother
        have hnone := hothers other hother
        by_cases hsame : other.name = param.name
        · simp [hsame] at hnone
        · refine ⟨hsame, ?_⟩
          simpa [List.lookup_cons, beq_false_of_ne hsame] using hnone
      rw [List.map_cons, List.nodup_cons]
      refine ⟨⟨?_, hnodup⟩, ?_⟩
      · intro hmem
        obtain ⟨other, hother, hsame⟩ := List.mem_map.1 hmem
        exact (hkept other hother).1 hsame
      · intro other hother
        rcases List.mem_cons.1 hother with rfl | hother
        · exact hlookup
        · exact (hkept other hother).2

theorem noteClashes_clean {f : Function} {clashes : List String}
    (h : (f.noteClashes clashes).diagnostics = []) : clashes = [] := by
  cases clashes with
  | nil => rfl
  | cons name rest => simp [Function.noteClashes, note] at h

/-- The frame of a function's parameters has their types. -/
theorem ofParams_types (params : List Param) (name : String) :
    ((Frame.ofParams params).local? name).map (·.ty) =
      (params.map fun param => (param.name, param.ty)).reverse.lookup name := by
  -- Types can be looked up before or after the places are forgotten.
  have hlookup (entries : List (String × Frame.Local)) :
      (entries.lookup name).map (·.ty) =
        (entries.map fun entry => (entry.1, entry.2.ty)).lookup name := by
    induction entries with
    | nil => rfl
    | cons entry rest ih =>
      obtain ⟨other, l⟩ := entry
      simp only [List.map_cons, List.lookup_cons]
      cases name == other
      · exact ih
      · rfl
  have hparams : (Frame.ofParams params).local? name = (Frame.ofParams params).params.lookup name :=
    rfl
  have htypes : (params.mapIdx fun index param => (param.name, Frame.paramLocal index param)).map
      (fun entry => (entry.1, entry.2.ty)) = params.map fun param => (param.name, param.ty) := by
    apply List.ext_getElem?
    intro i
    simp [Frame.paramLocal, Function.comp_def]
  rw [hparams, hlookup, Frame.ofParams, List.map_reverse, htypes]

/-! ## §3 Bodies of a checked program -/

/-- A body's scope is opened in the frame, but has no scope of its own in the table. -/
theorem Ready.openBody {known table : SymbolTable} {resources : Resources}
    (h : Ready known table resources) (slots : Nat) :
    Ready known table { resources with frame := resources.frame.openScope slots } :=
  ⟨h.functions, ⟨h.frame.types, h.frame.valid⟩, h.laid.openScope _, h.returnFree⟩

/-- A checked body needs as many registers as it demands. -/
theorem Stmt.lowerBody_needs {known table : SymbolTable} {body : Stmt} {resources : Resources}
    (hclean : (body.check table).diagnostics = [])
    (htypes : ∀ ty ∈ body.variableTypes, ty.isValid) (hready : Ready known table resources) :
    (body.lowerBody known).Needs resources resources.pool body.demand :=
  needs_inScope (body.lower_needs hclean htypes (hready.openBody _) (by simp))

/-- The table in which a function body is checked. -/
def SymbolTable.inFunction (table : SymbolTable) (f : Function) : SymbolTable :=
  { table with
    innermost := (f.params.map fun param => (param.name, param.ty)).reverse
    outer := table.innermost :: table.outer
    current := some f.name }

/-- At the top of a program a function sees its parameters and nothing else. -/
theorem typeOf?_inFunction {table : SymbolTable} {f : Function} (hinnermost : table.innermost = [])
    (houter : table.outer = []) (name : String) :
    (table.inFunction f).typeOf? name = ((Frame.ofParams f.params).local? name).map (·.ty) := by
  rw [ofParams_types]
  simp only [SymbolTable.typeOf?, SymbolTable.scopes, SymbolTable.inFunction, hinnermost, houter,
    List.findSome?_cons, List.lookup_nil, List.findSome?_nil]
  cases (f.params.map fun param => (param.name, param.ty)).reverse.lookup name <;> rfl

theorem matches_inFunction {table : SymbolTable} {f : Function} (hinnermost : table.innermost = [])
    (houter : table.outer = []) (hvalid : ∀ param ∈ f.params, param.ty.isValid) :
    Matches (table.inFunction f) (.ofParams f.params) := by
  have htypes := typeOf?_inFunction (f := f) hinnermost houter
  refine ⟨htypes, ?_⟩
  intro name ty hty
  rw [htypes, ofParams_types] at hty
  have hmem := Frame.mem_of_lookup hty
  simp only [List.mem_reverse, List.mem_map, Prod.mk.injEq] at hmem
  obtain ⟨param, hparam, _, rfl⟩ := hmem
  exact hvalid param hparam

/-- The body of a function without a diagnostic is checked with its parameters in sight. -/
theorem Function.enter_clean {f : Function} {table : SymbolTable}
    (hfound : table.function? f.name = some f.signature) (h : (f.check table).diagnostics = []) :
    (table.openScope.enterFunction f.name).2 = table.inFunction f := by
  have hparams : table.openScope.params f.name = f.params := by
    have hfound' : table.openScope.function? f.name = some f.signature := hfound
    simp [SymbolTable.params, hfound', Function.signature]
  simp only [Function.check, SymbolTable.enterFunction, hparams, diagnostics_bind,
    List.append_eq_nil_iff] at h ⊢
  rw [bindParams_clean (noteClashes_clean h.1)]
  simp [SymbolTable.inFunction, SymbolTable.openScope]

/-- A function that was checked without a diagnostic: its body was checked without one, nothing is
wrong with the type that the body returns, and the table is as it was before. -/
theorem Function.check_clean {f : Function} {table : SymbolTable}
    (hfound : table.function? f.name = some f.signature) (hcurrent : table.current = none)
    (h : (f.check table).diagnostics = []) :
    (f.check table).value = table ∧ (f.body.check (table.inFunction f)).diagnostics = [] ∧
      (f.checkReturn (f.body.check (table.inFunction f)).value.1).diagnostics = [] := by
  have hinner := Function.enter_clean hfound h
  simp only [Function.check, diagnostics_bind, List.append_eq_nil_iff, value_bind, hinner] at h ⊢
  obtain ⟨_, hbody, hreturn, _⟩ := h
  refine ⟨?_, hbody, hreturn⟩
  -- The body can only have added variables to the scope that is closed after it.
  have hextends := f.body.check_extends (table.inFunction f)
  generalize (f.body.check (table.inFunction f)).value.2 = after at hextends
  obtain ⟨innermost, outer, functions, current⟩ := after
  obtain ⟨rfl, rfl, rfl⟩ := hextends
  simp [SymbolTable.leaveFunction, SymbolTable.closeScope, SymbolTable.inFunction, ← hcurrent]

/-- Checking functions without a diagnostic leaves the table as it was. -/
theorem checkFunctions_clean {functions : List Function} {table : SymbolTable}
    (hfound : ∀ f ∈ functions, table.function? f.name = some f.signature)
    (hcurrent : table.current = none)
    (h : (functions.foldlM Function.check table).diagnostics = []) :
    (functions.foldlM Function.check table).value = table ∧
      ∀ f ∈ functions, (f.body.check (table.inFunction f)).diagnostics = [] ∧
        (f.checkReturn (f.body.check (table.inFunction f)).value.1).diagnostics = [] := by
  induction functions with
  | nil => simp
  | cons f rest ih =>
    simp only [List.foldlM_cons, diagnostics_bind, value_bind, List.append_eq_nil_iff] at h ⊢
    obtain ⟨hvalue, hbody⟩ := Function.check_clean (hfound f (by simp)) hcurrent h.1
    rw [hvalue] at h ⊢
    obtain ⟨hrest, hbodies⟩ := ih (fun g hg => hfound g (List.mem_cons_of_mem _ hg)) h.2
    refine ⟨hrest, ?_⟩
    intro g hg
    rcases List.mem_cons.1 hg with rfl | hg
    · exact hbody
    · exact hbodies g hg

/-! ## §4 Checked programs -/

namespace Program

/-- The table that holds the functions of a program and nothing else. -/
def functionTable (p : Program) : SymbolTable :=
  { functions := p.functions.map (·.signature) }

/-- The types of the parameters and declared variables of a program. -/
def variableTypes (p : Program) : List Ty :=
  p.functions.flatMap (fun f => f.params.map (·.ty) ++ f.body.variableTypes) ++
    p.body.variableTypes

/-- What a check without a diagnostic says of a program: its functions have distinct names, and
every body was checked under the table of its functions. -/
structure Clean (p : Program) : Prop where
  distinct : (p.functions.map (·.name)).Nodup
  functions : ∀ f ∈ p.functions, (f.body.check (p.functionTable.inFunction f)).diagnostics = []
  returns : ∀ f ∈ p.functions,
    (f.checkReturn (f.body.check (p.functionTable.inFunction f)).value.1).diagnostics = []
  main : (p.body.check p.functionTable).diagnostics = []
  table : p.check.value = (p.body.check p.functionTable).value.2

/-- Declaring the functions of a program without a diagnostic gives their table, and checking them
leaves it as it is. -/
theorem tables_clean {p : Program} (h : p.check.diagnostics = []) :
    (p.functions.foldlM Function.declare {}).value = p.functionTable ∧
      (p.functions.map (·.name)).Nodup ∧
      (p.functions.foldlM Function.check p.functionTable).diagnostics = [] ∧
      (p.functions.foldlM Function.check p.functionTable).value = p.functionTable ∧
      (∀ f ∈ p.functions, p.functionTable.function? f.name = some f.signature) ∧
      (p.body.check p.functionTable).diagnostics = [] := by
  simp only [check, diagnostics_bind, List.append_eq_nil_iff] at h
  obtain ⟨hdeclare, hfunctions, hbody, _⟩ := h
  obtain ⟨hvalue, hdistinct, _⟩ := declare_clean hdeclare
  have htable : (p.functions.foldlM Function.declare {}).value = p.functionTable := by
    simpa [functionTable] using hvalue
  rw [htable] at hfunctions hbody
  have hfound : ∀ f ∈ p.functions, p.functionTable.function? f.name = some f.signature :=
    fun f hf => find_signature hdistinct hf
  -- The main body is checked in the table that the functions leave behind, and they leave it as it
  -- was.
  obtain ⟨hkept, _⟩ := checkFunctions_clean hfound rfl hfunctions
  rw [hkept] at hbody
  exact ⟨htable, hdistinct, hfunctions, hkept, hfound, hbody⟩

theorem check_clean {p : Program} (h : p.check.diagnostics = []) : p.Clean := by
  obtain ⟨htable, hdistinct, hfunctions, hkept, hfound, hbody⟩ := tables_clean h
  obtain ⟨_, hbodies⟩ := checkFunctions_clean hfound rfl hfunctions
  refine ⟨hdistinct, fun f hf => (hbodies f hf).1, fun f hf => (hbodies f hf).2, hbody, ?_⟩
  simp only [check, value_bind, htable, hkept, value_pure]

/-- The functions that a checked program's table knows are those of the program. -/
theorem Clean.functions_eq {p : Program} (h : p.Clean) :
    p.check.value.functions = p.functionTable.functions := by
  rw [h.table]
  exact (p.body.check_extends _).functions

theorem functionLabel_injective : Function.Injective functionLabel := by
  intro a b h
  simpa [functionLabel] using h

/-- The bodies of a checked program have distinct labels. -/
theorem Clean.labels_nodup {p : Program} (h : p.Clean) (table : SymbolTable) :
    ((p.bodies table).map (·.label)).Nodup := by
  have hlabels : (p.bodies table).map (·.label) =
      (p.functions.map (·.name)).map functionLabel ++ ["main"] := by
    simp [bodies, Function.toBody, Stmt.toMain, Function.comp_def]
  rw [hlabels, List.nodup_append]
  refine ⟨List.Nodup.map functionLabel_injective h.distinct, by simp, ?_⟩
  intro a ha b hb
  obtain ⟨name, _, rfl⟩ := List.mem_map.1 ha
  obtain rfl : b = "main" := by simpa using hb
  -- The label of a function starts with another letter.
  intro heq
  have hchars := congrArg String.toList heq
  simp [functionLabel, String.toList_append] at hchars

/-- A pool never has more registers than a valid setting asks for, nor fewer. -/
theorem capacity_of_valid {config : Config} (hvalid : config.fault? = none) :
    (RegisterPool.ofCount config.generalRegisters).capacity = config.generalRegisters := by
  have hle : config.generalRegisters ≤ 8 := by
    unfold Config.fault? at hvalid
    split at hvalid
    · cases hvalid
    · omega
  exact Nat.min_eq_left hle

/-- Only the invalid kind makes a type invalid. -/
theorem isValid_of_kind {p : Program} (h : ∀ ty ∈ p.variableTypes, ty.kind ≠ .invalid) :
    ∀ ty ∈ p.variableTypes, ty.isValid := by
  intro ty hty
  have hkind := h ty hty
  unfold Ty.isValid
  split <;> simp_all

/-- The types of the variables that a function declares in its body are among the program's. -/
theorem mem_variableTypes_of_body {p : Program} {f : Function} (hf : f ∈ p.functions) {ty : Ty}
    (hty : ty ∈ f.body.variableTypes) : ty ∈ p.variableTypes := by
  simp only [variableTypes, List.mem_append, List.mem_flatMap]
  exact .inl ⟨f, hf, .inr hty⟩

/-- A function's body is lowered from what its check started from. -/
theorem Clean.ready_function {p : Program} (h : p.Clean) {f : Function} {resources : Resources}
    (htypes : ∀ ty ∈ p.variableTypes, ty.isValid) (hf : f ∈ p.functions)
    (hframe : resources.frame = .ofParams f.params)
    (hreturn : resources.pool.returnHeld = false) :
    Ready p.check.value (p.functionTable.inFunction f) resources := by
  have hparams : ∀ param ∈ f.params, param.ty.isValid := by
    intro param hparam
    apply htypes
    simp only [variableTypes, List.mem_append, List.mem_flatMap, List.mem_map]
    exact .inl ⟨f, hf, .inl ⟨param, hparam, rfl⟩⟩
  refine ⟨h.functions_eq, ?_, ?_, hreturn⟩
  · rw [hframe]
    exact matches_inFunction rfl rfl hparams
  · rw [hframe]
    exact Frame.laid_ofParams f.params

/-- The main body is lowered from what its check started from: no variables at all. -/
theorem Clean.ready_main {p : Program} (h : p.Clean) {resources : Resources}
    (hframe : resources.frame = {}) (hreturn : resources.pool.returnHeld = false) :
    Ready p.check.value p.functionTable resources := by
  refine ⟨h.functions_eq, ?_, ?_, hreturn⟩
  · rw [hframe]
    refine ⟨fun name => ?_, fun {name ty} hty => ?_⟩
    · simp [SymbolTable.typeOf?, SymbolTable.scopes, functionTable, Frame.local?]
    · simp [SymbolTable.typeOf?, SymbolTable.scopes, functionTable] at hty
  · rw [hframe]
    exact Frame.laid_ofParams []

/-- The body of a function of a checked program needs as many registers as it demands. -/
theorem Clean.function_needs {p : Program} (h : p.Clean) {f : Function} {resources : Resources}
    (htypes : ∀ ty ∈ p.variableTypes, ty.isValid) (hf : f ∈ p.functions)
    (hframe : resources.frame = .ofParams f.params)
    (hreturn : resources.pool.returnHeld = false) :
    (f.toBody p.check.value).step.Needs resources resources.pool f.body.demand :=
  Stmt.lowerBody_needs (h.functions f hf)
    (fun ty hty => htypes ty (mem_variableTypes_of_body hf hty))
    (h.ready_function htypes hf hframe hreturn)

/-- The main body of a checked program needs as many registers as it demands. -/
theorem Clean.main_needs {p : Program} (h : p.Clean) {resources : Resources}
    (htypes : ∀ ty ∈ p.variableTypes, ty.isValid) (hframe : resources.frame = {})
    (hreturn : resources.pool.returnHeld = false) :
    (p.body.toMain p.check.value).step.Needs resources resources.pool p.body.demand := by
  have hbody := Stmt.lowerBody_needs h.main
    (fun ty hty => htypes ty (List.mem_append_right _ hty)) (h.ready_main hframe hreturn)
  exact hbody.bind_total fun _ => ⟨_, rfl⟩

/-- Only a lack of registers keeps the bodies of a checked program from being lowered. -/
theorem Clean.body_error {p : Program} (h : p.Clean) {config : Config} {body : Body}
    {resources : Resources} {e : CompileError} (hvalid : config.fault? = none)
    (htypes : ∀ ty ∈ p.variableTypes, ty.isValid) (hbody : body ∈ p.bodies p.check.value)
    (hframe : resources.frame = body.frame)
    (hpool : resources.pool = .ofCount config.generalRegisters)
    (hrun : body.step.run resources = .error e) :
    e = .registersExhausted config.generalRegisters := by
  have hcapacity : resources.pool.capacity = config.generalRegisters := by
    rw [hpool, capacity_of_valid hvalid]
  have hreturn : resources.pool.returnHeld = false := by rw [hpool]; rfl
  rw [← hcapacity]
  simp only [bodies, List.mem_append, List.mem_map, List.mem_singleton] at hbody
  rcases hbody with ⟨f, hf, rfl⟩ | rfl
  · exact (h.function_needs htypes hf hframe hreturn).error hrun
  · exact (h.main_needs htypes hframe hreturn).error hrun

theorem checked_of_clean {p : Program} (hclean : p.check.diagnostics = []) :
    p.checked = .ok p.check.value := by
  unfold checked
  split
  · rename_i heq
    rw [heq]
  · simp_all

/-- Compiling a program without problems under valid settings is generating its text. -/
theorem compile_of_checked {p : Program} {config : Config} (hvalid : config.fault? = none)
    (hclean : p.check.diagnostics = []) :
    p.compile config = p.generate p.check.value config := by
  simp [compile, Config.validate, hvalid, checked_of_clean hclean, bind, Except.bind]

/-- A program without problems is compiled if it can be assembled. -/
theorem compile_of_assemble {p : Program} {config : Config} (hvalid : config.fault? = none)
    (hclean : p.check.diagnostics = []) (hassemble : (p.assemble p.check.value config).isOk) :
    ∃ text, p.compile config = .ok text := by
  rw [compile_of_checked hvalid hclean]
  exact generate_of_assemble hassemble

/-- A program that was compiled was checked without a diagnostic and assembled. -/
theorem compile_eq_ok {p : Program} {config : Config} {text : String}
    (h : p.compile config = .ok text) :
    p.check.diagnostics = [] ∧ ∃ listing, p.assemble p.check.value config = .ok listing ∧
      text = listing.render := by
  have hclean : p.check.diagnostics = [] := by
    unfold compile checked at h
    split at h
    · rename_i heq
      rw [heq]
    · cases hvalidate : config.validate <;> simp [hvalidate, bind, Except.bind] at h
  have hvalid : config.fault? = none := by
    cases hfault : config.fault? with
    | none => rfl
    | some fault => simp [compile, Config.validate, hfault, bind, Except.bind] at h
  rw [compile_of_checked hvalid hclean] at h
  exact ⟨hclean, generate_eq_ok.1 h⟩

/-- Under valid settings a program in which no variable has the invalid type, and in which
checking finds nothing wrong, is compiled, or one of its expressions needs more registers than
there are. -/
theorem compile_of_clean {p : Program} {config : Config} (hvalid : config.fault? = none)
    (htypes : ∀ ty ∈ p.variableTypes, ty.kind ≠ .invalid) (hclean : p.check.diagnostics = []) :
    (∃ text, p.compile config = .ok text) ∨
      p.compile config = .error (.registersExhausted config.generalRegisters) := by
  have hcheck := check_clean hclean
  rw [compile_of_checked hvalid hclean]
  cases hassemble : p.assemble p.check.value config with
  | ok listing => exact .inl ⟨listing.render, generate_eq_ok.2 ⟨listing, hassemble, rfl⟩⟩
  | error e =>
    obtain ⟨body, hbody, resources, hframe, hpool, hrun⟩ :=
      assemble_error hvalid (hcheck.labels_nodup _) hassemble
    obtain rfl := hcheck.body_error hvalid (isValid_of_kind htypes) hbody hframe hpool hrun
    exact .inr (by simp [generate, hassemble, bind, Except.bind])

/-- A function that adds up a pair's first side in a loop, and a main body that hides the variable
it passes. -/
def sumProgram : Program where
  functions := [{
    name := "sum"
    returnType := .int
    params := [⟨"p", .pairOf .int .bool⟩, ⟨"n", .int⟩]
    body := .seq {} (.declare {} .int "total" (.expr (.int {} "0"))) (.seq {}
      (.forLoop {} (.declare {} .int "i" (.expr (.int {} "0")))
        (.binary {} .lt (.ident {} "i") (.ident {} "n")) (.increment {} "i")
        (.seq {} (.declare {} .int "side" (.side .fst (.ident {} "p")))
          (.assign {} (.ident "total")
            (.expr (.binary {} .add (.ident {} "total") (.ident {} "side"))))))
      (.ret {} (.ident {} "total"))) }]
  body := .seq {} (.declare {} (.pairOf .int .bool) "n" (.newPair (.int {} "7") (.bool {} true)))
    (.block {} (.seq {} (.declare {} .int "total" (.call "sum" [.ident {} "n", .int {} "3"]))
      (.seq {} (.declare {} .int "n" (.expr (.ident {} "total"))) (.println {} (.ident {} "n")))))

/-- A program with a function, a loop, a pair and a hidden variable is compiled. -/
theorem compile_sumProgram : ({} : Config).fault? = none ∧
    (∀ ty ∈ sumProgram.variableTypes, ty.kind ≠ .invalid) ∧ sumProgram.check.diagnostics = [] ∧
    ((∃ text, sumProgram.compile {} = .ok text) ∨
      sumProgram.compile {} = .error (.registersExhausted 8)) := by
  have hvalid : ({} : Config).fault? = none := by decide
  have htypes : ∀ ty ∈ sumProgram.variableTypes, ty.kind ≠ .invalid := by decide
  have hclean : sumProgram.check.diagnostics = [] := by decide
  exact ⟨hvalid, htypes, hclean, compile_of_clean hvalid htypes hclean⟩

end Program

end ArmCompiler
