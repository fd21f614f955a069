import ArmCompiler.Proofs.DirectGeneration
import ArmCompiler.Proofs.NameResolution
import ArmCompiler.Proofs.Renaming.Checking
import ArmCompiler.Proofs.Renaming.Lowering
import Mathlib.SetTheory.Cardinal.Arithmetic

/-!
# Renaming Variables: Programs

Compiling a renamed program mirrors compiling the program, and a program that was checked without a
diagnostic has no error with a variable in it. So the names of variables leave no trace in what is
compiled: the renamed program gives the very same text, or fails for the very same reason. Main
statement: `Program.variable_names_leave_no_trace`.

A renaming need only tell apart the names that occur in the program. It then agrees on them with a
renaming that tells apart all names.

## Contents
- §1: assembling renamed programs
- §2: compiling renamed programs
- §3: the variables of a program
- §4: renamings of the variables that occur
-/

namespace ArmCompiler

open Lower

variable {ρ σ : String → String}

/-! ## §1 Assembling renamed programs -/

/-- The assembly with the variables of its frame renamed. The listing has no variables in it. -/
def Assembly.rename (ρ : String → String) (assembly : Assembly) : Assembly :=
  { assembly with resources := assembly.resources.rename ρ }

/-- What is assembled of a renamed program, given what is assembled of the program. -/
def Assembly.mirror (ρ : String → String) :
    Except CompileError Assembly → Except CompileError Assembly
  | .ok assembly => .ok (assembly.rename ρ)
  | .error e => .error (e.rename ρ)

/-- Mirrored bodies are added to mirrored assemblies. The listing can refuse a sequence only for its
own name, which is no variable. -/
theorem Assembly.add_rename {config : Config} {label : String} {frame : Frame}
    {body body' : Lower Unit} (h : body.Mirrors ρ body') (assembly : Assembly) :
    (assembly.rename ρ).add config label (frame.rename ρ) body' =
      mirror ρ (assembly.add config label frame body) := by
  have hrun : body'.run { (assembly.rename ρ).resources with frame := frame.rename ρ } =
      Lower.mirror ρ (body.run { assembly.resources with frame }) :=
    h { assembly.resources with frame }
  unfold add
  rw [hrun]
  show (assembly.listing.start label true >>= _) =
    mirror ρ (assembly.listing.start label true >>= _)
  by_cases hthere : label ∈ assembly.listing.names
  · rw [Listing.start_of_mem true hthere]
    rfl
  · rw [Listing.start_of_new true hthere]
    simp only [bind, Except.bind]
    cases body.run { assembly.resources with frame } with
    | error e => rfl
    | ok out =>
      -- The code is the same, so the listing grows alike on both sides.
      simp only [Lower.mirror]
      generalize Listing.mk _ _ _ _ = opened
      obtain ⟨plain, after, hexpand⟩ := Listing.expandAll_ok config.stackChunk out.code opened
      rw [hexpand]
      dsimp only
      unfold Listing.finish
      cases (after.emitAll plain).opened <;> rfl

theorem Function.assemble_rename (hρ : ρ.Injective) (table : SymbolTable) (config : Config)
    (assembly : Assembly) (f : Function) :
    (f.rename ρ).assemble (table.rename ρ) config (assembly.rename ρ) =
      Assembly.mirror ρ (f.assemble table config assembly) := by
  have hframe : Frame.ofParams (f.rename ρ).params = (Frame.ofParams f.params).rename ρ :=
    Frame.ofParams_rename f.params
  rw [assemble, hframe]
  exact Assembly.add_rename ((f.body.lowerBody_parallel table).mirrors hρ) assembly

theorem Stmt.assembleMain_rename (hρ : ρ.Injective) (table : SymbolTable) (config : Config)
    (assembly : Assembly) (body : Stmt) :
    (body.rename ρ).assembleMain (table.rename ρ) config (assembly.rename ρ) =
      Assembly.mirror ρ (body.assembleMain table config assembly) := by
  show (assembly.rename ρ).add config "main" (({} : Frame).rename ρ) _ = _
  apply Assembly.add_rename
  exact ((body.lowerBody_parallel table).andThen (.emit _)).mirrors hρ

theorem assembleFunctions_rename (hρ : ρ.Injective) (table : SymbolTable) (config : Config)
    (functions : List Function) (assembly : Assembly) :
    (functions.map (·.rename ρ)).foldlM (Function.assemble (table.rename ρ) config)
        (assembly.rename ρ) =
      Assembly.mirror ρ (functions.foldlM (Function.assemble table config) assembly) := by
  induction functions generalizing assembly with
  | nil => rfl
  | cons f rest ih =>
    rw [List.map_cons, List.foldlM_cons, List.foldlM_cons, f.assemble_rename hρ]
    cases f.assemble table config assembly with
    | error e => rfl
    | ok after => exact ih after

theorem CompileError.Nameless.rename_eq {e : CompileError} (h : e.Nameless) : e.rename ρ = e := by
  cases h <;> rfl

namespace Program

/-- A renamed program has the listing of the program. -/
theorem assemble_rename (hρ : ρ.Injective) (table : SymbolTable) (config : Config) (p : Program) :
    (p.rename ρ).assemble (table.rename ρ) config =
      (p.assemble table config).mapError (·.rename ρ) := by
  -- Nothing is declared yet at the start, so there is nothing to rename.
  have hstart : (Assembly.start config).rename ρ = .start config := rfl
  have hfunctions := assembleFunctions_rename hρ table config p.functions (.start config)
  rw [hstart] at hfunctions
  unfold assemble Config.validate
  cases config.fault? with
  | some fault => rfl
  | none =>
    simp only [rename, hfunctions]
    cases p.functions.foldlM (Function.assemble table config) (.start config) with
    | error e => rfl
    | ok built =>
      show ((p.body.rename ρ).assembleMain (table.rename ρ) config (built.rename ρ) >>= _) =
        (p.body.assembleMain table config built >>= _).mapError _
      rw [p.body.assembleMain_rename hρ]
      cases p.body.assembleMain table config built <;> rfl

/-! ## §2 Compiling renamed programs -/

/-- A program is checked without a diagnostic under any names of its variables, or under none. -/
theorem clean_rename_iff (hρ : ρ.Injective) (p : Program) :
    (p.rename ρ).check.diagnostics = [] ↔ p.check.diagnostics = [] :=
  (p.check_mirrors hρ).clean_iff

/-- A program that checking finds nothing wrong with is compiled alike under all names. -/
theorem compile_rename (hρ : ρ.Injective) (p : Program) (config : Config)
    (hclean : p.check.diagnostics = []) : (p.rename ρ).compile config = p.compile config := by
  cases hfault : config.fault? with
  | some fault => simp [compile, Config.validate, hfault, bind, Except.bind]
  | none =>
    -- Both programs pass the check, so what is left is to generate their code.
    have hmirror : (p.rename ρ).compile config = (p.compile config).mapError (·.rename ρ) := by
      rw [compile_of_checked hfault hclean,
        compile_of_checked hfault ((p.clean_rename_iff hρ).2 hclean), (p.check_mirrors hρ).value,
        generate, generate, p.assemble_rename hρ]
      cases p.assemble p.check.value config <;> rfl
    rw [hmirror]
    cases hcompile : p.compile config with
    | ok text => rfl
    | error e =>
      -- The error has no variable in it that could be renamed.
      show Except.error (e.rename ρ) = .error e
      rw [(error_of_checked hfault hclean hcompile).rename_eq]

end Program

/-! ## §3 The variables of a program -/

mutual

/-- The variables that occur in an expression. -/
def Expr.variableNames : Expr → List String
  | .ident _ name => [name]
  | .elem _ name indices => name :: variableNamesOf indices
  | .unary _ _ operand => operand.variableNames
  | .binary _ _ lhs rhs => lhs.variableNames ++ rhs.variableNames
  | .int .. | .bool .. | .char .. | .str .. | .null .. => []

/-- The variables that occur in a list of expressions. -/
def variableNamesOf : List Expr → List String
  | [] => []
  | e :: rest => e.variableNames ++ variableNamesOf rest

end

/-- The variables that occur in a target. -/
def Target.variableNames : Target → List String
  | .ident name => [name]
  | .elem name indices => name :: variableNamesOf indices
  | .side _ pair => pair.variableNames

/-- The variables that occur in a right side. -/
def Rhs.variableNames : Rhs → List String
  | .expr e => e.variableNames
  | .array elems => variableNamesOf elems
  | .newPair fst snd => fst.variableNames ++ snd.variableNames
  | .side _ pair => pair.variableNames
  | .call _ args => variableNamesOf args

/-- The variables that a statement declares or uses. -/
def Stmt.variableNames : Stmt → List String
  | .skip _ => []
  | .declare _ _ name rhs => name :: rhs.variableNames
  | .assign _ target rhs => target.variableNames ++ rhs.variableNames
  | .increment _ name => [name]
  | .read _ target => target.variableNames
  | .free _ e | .ret _ e | .exit _ e | .print _ e | .println _ e => e.variableNames
  | .ifThen _ cond body | .whileDo _ cond body | .doWhile _ body cond =>
    cond.variableNames ++ body.variableNames
  | .ifElse _ cond thenArm elseArm =>
    cond.variableNames ++ thenArm.variableNames ++ elseArm.variableNames
  | .forLoop _ init cond step body =>
    init.variableNames ++ cond.variableNames ++ step.variableNames ++ body.variableNames
  | .block _ body => body.variableNames
  | .seq _ first second => first.variableNames ++ second.variableNames

/-- The parameters of a function, and the variables of its body. -/
def Function.variableNames (f : Function) : List String :=
  f.params.map (·.name) ++ f.body.variableNames

/-- The variables that occur in a program. -/
def Program.variableNames (p : Program) : List String :=
  p.functions.flatMap (·.variableNames) ++ p.body.variableNames

/-! ## §4 Renamings of the variables that occur -/

/-- Two renamings that give the same names to some variables. -/
def SameNames (ρ σ : String → String) (names : List String) : Prop :=
  ∀ name ∈ names, ρ name = σ name

@[simp] theorem sameNames_cons {name : String} {names : List String} :
    SameNames ρ σ (name :: names) ↔ ρ name = σ name ∧ SameNames ρ σ names := by
  simp [SameNames]

@[simp] theorem sameNames_append {a b : List String} :
    SameNames ρ σ (a ++ b) ↔ SameNames ρ σ a ∧ SameNames ρ σ b := by
  simp [SameNames, or_imp, forall_and]

mutual

theorem Expr.rename_congr : (e : Expr) → SameNames ρ σ e.variableNames → e.rename ρ = e.rename σ
  | .ident span name, h => by
    simp only [Expr.variableNames, sameNames_cons] at h
    simp only [Expr.rename, h.1]
  | .elem span name indices, h => by
    simp only [Expr.variableNames, sameNames_cons] at h
    simp only [Expr.rename, h.1, renameAll_congr indices h.2]
  | .unary span op operand, h => by
    simp only [Expr.variableNames] at h
    simp only [Expr.rename, operand.rename_congr h]
  | .binary span op lhs rhs, h => by
    simp only [Expr.variableNames, sameNames_append] at h
    simp only [Expr.rename, lhs.rename_congr h.1, rhs.rename_congr h.2]
  | .int .., _ | .bool .., _ | .char .., _ | .str .., _ | .null .., _ => by
    simp only [Expr.rename]

theorem renameAll_congr : (elems : List Expr) → SameNames ρ σ (variableNamesOf elems) →
    renameAll ρ elems = renameAll σ elems
  | [], _ => rfl
  | e :: rest, h => by
    simp only [variableNamesOf, sameNames_append] at h
    simp only [renameAll, e.rename_congr h.1, renameAll_congr rest h.2]

end

theorem Target.rename_congr {target : Target} (h : SameNames ρ σ target.variableNames) :
    target.rename ρ = target.rename σ := by
  cases target with
  | ident name =>
    simp only [variableNames, sameNames_cons] at h
    rw [rename, rename, h.1]
  | elem name indices =>
    simp only [variableNames, sameNames_cons] at h
    rw [rename, rename, h.1, renameAll_congr indices h.2]
  | side which pair => rw [rename, rename, pair.rename_congr h]

theorem Rhs.rename_congr {rhs : Rhs} (h : SameNames ρ σ rhs.variableNames) :
    rhs.rename ρ = rhs.rename σ := by
  cases rhs with
  | expr e => rw [rename, rename, e.rename_congr h]
  | array elems => rw [rename, rename, renameAll_congr elems h]
  | newPair fst snd =>
    simp only [variableNames, sameNames_append] at h
    rw [rename, rename, fst.rename_congr h.1, snd.rename_congr h.2]
  | side which pair => rw [rename, rename, pair.rename_congr h]
  | call name args => rw [rename, rename, renameAll_congr args h]

theorem Stmt.rename_congr {s : Stmt} (h : SameNames ρ σ s.variableNames) :
    s.rename ρ = s.rename σ := by
  induction s with
  | skip span => rfl
  | declare span ty name rhs =>
    simp only [variableNames, sameNames_cons] at h
    rw [rename, rename, h.1, Rhs.rename_congr h.2]
  | assign span target rhs =>
    simp only [variableNames, sameNames_append] at h
    rw [rename, rename, Target.rename_congr h.1, Rhs.rename_congr h.2]
  | increment span name =>
    simp only [variableNames, sameNames_cons] at h
    rw [rename, rename, h.1]
  | read span target => rw [rename, rename, Target.rename_congr h]
  | free span e | ret span e | exit span e | print span e | println span e =>
    rw [rename, rename, e.rename_congr h]
  | ifThen span cond body ih | whileDo span cond body ih | doWhile span body cond ih =>
    simp only [variableNames, sameNames_append] at h
    rw [rename, rename, cond.rename_congr h.1, ih h.2]
  | ifElse span cond thenArm elseArm ihThen ihElse =>
    simp only [variableNames, sameNames_append] at h
    rw [rename, rename, cond.rename_congr h.1.1, ihThen h.1.2, ihElse h.2]
  | forLoop span init cond step body ihInit ihStep ihBody =>
    simp only [variableNames, sameNames_append] at h
    obtain ⟨⟨⟨hinit, hcond⟩, hstep⟩, hbody⟩ := h
    rw [rename, rename, ihInit hinit, cond.rename_congr hcond, ihStep hstep, ihBody hbody]
  | block span body ih => rw [rename, rename, ih h]
  | seq span first second ihFirst ihSecond =>
    simp only [variableNames, sameNames_append] at h
    rw [rename, rename, ihFirst h.1, ihSecond h.2]

theorem Function.rename_congr {f : Function} (h : SameNames ρ σ f.variableNames) :
    f.rename ρ = f.rename σ := by
  simp only [variableNames, sameNames_append] at h
  have hparams : f.params.map (·.rename ρ) = f.params.map (·.rename σ) := by
    apply List.map_congr_left
    intro param hparam
    rw [Param.rename, Param.rename, h.1 param.name (List.mem_map_of_mem hparam)]
  rw [rename, rename, hparams, Stmt.rename_congr h.2]

namespace Program

/-- Renaming a program depends on the variables that occur in it only. -/
theorem rename_congr {p : Program} (h : SameNames ρ σ p.variableNames) :
    p.rename ρ = p.rename σ := by
  simp only [variableNames, sameNames_append] at h
  have hfunctions : p.functions.map (·.rename ρ) = p.functions.map (·.rename σ) := by
    apply List.map_congr_left
    intro f hf
    apply Function.rename_congr
    intro name hname
    exact h.1 name (List.mem_flatMap.2 ⟨f, hf, hname⟩)
  rw [rename, rename, hfunctions, Stmt.rename_congr h.2]

end Program

/-- A renaming that tells finitely many names apart agrees on them with one that tells all names
apart: there are as many names left on either side. -/
theorem exists_injective_sameNames {names : List String}
    (h : Set.InjOn ρ { name | name ∈ names }) :
    ∃ σ, Function.Injective σ ∧ SameNames ρ σ names := by
  let chosen : { name | name ∈ names } ↪ String := ⟨fun name => ρ name, h.injective⟩
  -- Finitely many names are fixed, and infinitely many are left.
  have hfew : Cardinal.mk { name | name ∈ names } < Cardinal.mk String := by
    exact (List.finite_toSet names).lt_aleph0.trans_le (Cardinal.aleph0_le_mk String)
  obtain ⟨σ, hσ⟩ := Cardinal.extend_function_of_lt chosen hfew ⟨Equiv.refl String⟩
  refine ⟨σ, σ.injective, ?_⟩
  intro name hname
  exact (hσ ⟨name, hname⟩).symm

namespace Program

/-- The names of variables leave no trace. Let a renaming tell apart the variables of a program that
checking finds nothing wrong with. Then it finds nothing wrong with the renamed program either, and
compiling the two gives the same text, or fails with the same error. A variable may get the name of
a function. -/
theorem variable_names_leave_no_trace (p : Program) (config : Config) (ρ : String → String)
    (hρ : Set.InjOn ρ { name | name ∈ p.variableNames }) (hclean : p.check.diagnostics = []) :
    (p.rename ρ).check.diagnostics = [] ∧ (p.rename ρ).compile config = p.compile config := by
  obtain ⟨σ, hσ, hagree⟩ := exists_injective_sameNames hρ
  rw [rename_congr hagree]
  exact ⟨(p.clean_rename_iff hσ).2 hclean, p.compile_rename hσ config hclean⟩

/-- New names for the variables of `sumProgram`: those of its function, of the main body, of the
label of the function, and of another variable. -/
def hidingNames : String → String
  | "p" => "sum"
  | "n" => "main"
  | "total" => "f_sum"
  | "i" => "n"
  | name => name

/-- Variables may be called like a function, its label or the main body. -/
theorem variable_names_leave_no_trace_sumProgram :
    Set.InjOn hidingNames { name | name ∈ sumProgram.variableNames } ∧
    (sumProgram.rename hidingNames).check.diagnostics = [] ∧
    ∃ text, sumProgram.compile = .ok text ∧ (sumProgram.rename hidingNames).compile = .ok text := by
  have hapart : ∀ a ∈ sumProgram.variableNames, ∀ b ∈ sumProgram.variableNames,
      hidingNames a = hidingNames b → a = b := by decide
  have hinj : Set.InjOn hidingNames { name | name ∈ sumProgram.variableNames } :=
    fun a ha b hb hsame => hapart a ha b hb hsame
  have hclean : sumProgram.check.diagnostics = [] := by decide
  have hassemble : (sumProgram.assemble sumProgram.check.value {}).isOk := by decide +kernel
  obtain ⟨text, htext⟩ := compile_of_assemble (by decide) hclean hassemble
  obtain ⟨hrenamed, hsame⟩ := variable_names_leave_no_trace sumProgram {} hidingNames hinj hclean
  exact ⟨hinj, hrenamed, text, htext, hsame.trans htext⟩

end Program

end ArmCompiler
