import ArmCompiler.Proofs.Inspections

/-!
# Array Literals

An array literal with elements has an array type, so where nothing is reported it is stored in an
array, or in a side of a pair about which nothing is known. This depends on wildcards: one that was
the type of a variable would take the literal whatever its dimensions are. So it is shown first that
wildcards come from nowhere but declarations and the sides of pairs.

The empty literal is itself a wildcard, and fits every type. Main statement:
`Program.array_literals_stored`.

## Contents
- §1: types of variables
- §2: where wildcards come from
- §3: stored literals
- §4: checked statements
- §5: programs
-/

namespace ArmCompiler

open Report

/-! ## §1 Types of variables -/

/-- Every variable has one of the types. -/
def SymbolTable.Draws (types : List Ty) (table : SymbolTable) : Prop :=
  ∀ name ty, table.typeOf? name = some ty → ty ∈ types

theorem SymbolTable.invariant_draws (types : List Ty) : Invariant types (Draws types) where
  openScope := id
  addVariable? := by
    intro table after name ty hmem hadd hdraws other found hfound
    rw [typeOf?_of_addVariable? hadd] at hfound
    split at hfound
    · cases hfound
      exact hmem
    · exact hdraws other found hfound

/-- An invariant survives parameters of the types. -/
theorem SymbolTable.Invariant.bindParams {types : List Ty} {Q : SymbolTable → Prop}
    (hinv : Invariant types Q) {params : List Param} (hparams : ∀ param ∈ params, param.ty ∈ types)
    {table : SymbolTable} (h : Q table) : Q (table.bindParams params).2 := by
  induction params generalizing table with
  | nil => exact h
  | cons param rest ih =>
    obtain ⟨hparam, hrest⟩ := List.forall_mem_cons.1 hparams
    unfold SymbolTable.bindParams
    cases hadd : table.addVariable? param.name param.ty with
    | some added => exact ih hrest (hinv.addVariable? hparam hadd h)
    | none => exact ih hrest h

namespace Program

/-- Before a body is checked no variable is known. -/
theorem typeOf?_declared (p : Program) (name : String) : p.declared.typeOf? name = none := by
  obtain ⟨hinner, houter, -, -⟩ := value_declareFunctions p.functions {}
  simp only [SymbolTable.typeOf?, SymbolTable.scopes, declared, hinner, houter]
  rfl

/-- The parameters that a body starts with are those of a function of the program. -/
theorem params_declared {p : Program} {name : String} {param : Param}
    (h : param ∈ p.declared.openScope.params name) : param.ty ∈ p.variableTypes := by
  have hfunctions := (value_declareFunctions p.functions {}).2.2.2 name
  have hknown : p.declared.openScope.function? name =
      (p.functions.find? fun f => f.name == name).map Function.signature := hfunctions
  unfold SymbolTable.params at h
  rw [hknown] at h
  cases hfind : p.functions.find? fun f => f.name == name with
  | none => simp [hfind] at h
  | some f =>
    have hparam : param ∈ f.params := by simpa [hfind, Function.signature] using h
    exact List.mem_append_left _ (List.mem_flatMap.2 ⟨f, List.mem_of_find?_eq_some hfind,
      List.mem_append_left _ (List.mem_map_of_mem hparam)⟩)

/-- Wherever a program is checked, the variables have types that it declares. -/
theorem inspections_draw (p : Program) :
    ∀ i ∈ p.inspections, i.table.Draws p.variableTypes := by
  have hinv := SymbolTable.invariant_draws p.variableTypes
  have hmain : p.declared.Draws p.variableTypes := by
    intro name ty hty
    simp [p.typeOf?_declared] at hty
  have hentry (f : Function) : (f.entry p.declared).Draws p.variableTypes :=
    hinv.bindParams (fun _ => params_declared) (hinv.openScope hmain)
  exact fun i hi => (inspections_uphold hinv hmain (fun f _ => hentry f) i hi).table

end Program

/-! ## §2 Where wildcards come from -/

/-- No variable is a wildcard. -/
def SymbolTable.Told (table : SymbolTable) : Prop :=
  ∀ name ty, table.typeOf? name = some ty → ty.isAny = false

section Told

variable {table : SymbolTable} {span : Span}

theorem useVariable_told (h : table.Told) (name : String) :
    (table.useVariable name span).value.isAny = false := by
  unfold SymbolTable.useVariable
  cases hty : table.typeOf? name with
  | some ty => exact h name ty hty
  | none => rfl

theorem Ty.isAny_element {ty : Ty} (h : ty.isAny = false) : ty.element.isAny = false := by
  obtain ⟨kind, dims⟩ := ty
  cases kind with
  | any => cases h
  | base | pair | invalid => cases dims <;> rfl

theorem indexedType_told {whole ty : Ty} (h : ty.isAny = false) (count : Nat) :
    (indexedType whole span ty count).value.isAny = false := by
  induction count generalizing ty with
  | zero => exact h
  | succ count ih =>
    simp only [indexedType, h, Bool.false_eq_true, if_false]
    split
    · exact ih (Ty.isAny_element h)
    · rfl

theorem elementType_told {array : Ty} (h : array.isAny = false) (count : Nat) :
    (elementType array span count).value.isAny = false := by
  unfold elementType
  split
  · exact indexedType_told h count
  · exact h

/-- No expression is a wildcard. -/
theorem Expr.check_told (h : table.Told) (e : Expr) : (e.check table).value.isAny = false := by
  cases e with
  | int span text =>
    unfold Expr.check
    split <;> rfl
  | bool | char | str | null => rfl
  | ident span name => exact useVariable_told h name
  | elem span name indices => exact elementType_told (useVariable_told h name) _
  | unary span op operand =>
    simp only [Expr.check, value_bind, UnaryOp.value_check]
    cases op <;> rfl
  | binary span op lhs rhs =>
    simp only [Expr.check, value_bind, BinaryOp.value_check]
    cases op <;> rfl

/-- A side about which nothing is known: of an erased pair, or one whose slot has no base. -/
def Target.Untold (table : SymbolTable) : Target → Prop
  | .side which pair =>
    (pair.check table).value = .erasedPair ∨
      ∃ fst snd, (pair.check table).value = ⟨.pair fst snd, 0⟩ ∧ (which.pick fst snd).base = none
  | .ident _ | .elem _ _ => False

/-- The type of a side is a wildcard only if nothing is known about the side. -/
theorem sideType_untold {which : Side} {pair : Ty} (hpair : pair.isAny = false)
    (h : (sideType which pair span).value.isAny) :
    (pair = .erasedPair ∨
        ∃ fst snd, pair = ⟨.pair fst snd, 0⟩ ∧ (which.pick fst snd).base = none) ∧
      (sideType which pair span).value = .any := by
  obtain ⟨kind, dims⟩ := pair
  -- All that is no pair has sides of the invalid type, and so has an array of pairs.
  match kind, dims with
  | .base .pair, 0 => exact ⟨.inl rfl, rfl⟩
  | .pair fst snd, 0 =>
    have hvalue : (sideType which ⟨.pair fst snd, 0⟩ span).value = (which.pick fst snd).toTy := rfl
    rw [hvalue] at h ⊢
    cases hbase : (which.pick fst snd).base with
    | none => exact ⟨.inr ⟨fst, snd, rfl, hbase⟩, by simp [Slot.toTy, hbase]⟩
    | some b => simp [Slot.toTy, hbase, Ty.isAny] at h
  | .any, _ => cases hpair
  | .base .int, 0 | .base .bool, 0 | .base .char, 0 | .base .string, 0 | .invalid, _
  | .base _, _ + 1 | .pair _ _, _ + 1 => cases h

/-- Only a side about which nothing is known is a wildcard to be stored in. -/
theorem Target.untold_of_isAny {target : Target} (htold : table.Told)
    (h : (target.check table span).value.isAny) :
    target.Untold table ∧ (target.check table span).value = .any := by
  cases target with
  | ident name => simp [Target.check, useVariable_told htold] at h
  | elem name indices =>
    simp [Target.check, elementType_told (useVariable_told htold name)] at h
  | side which pair => exact sideType_untold (pair.check_told htold) h

end Told

/-! ## §3 Stored literals -/

/-- The array literal that a statement stores, and the type of the place that it is stored in. -/
def Stmt.literal? (table : SymbolTable) : Stmt → Option (List Expr × Ty)
  | .declare _ ty _ (.array elems) => some (elems, ty)
  | .assign span target (.array elems) => some (elems, (target.check table span).value)
  | _ => none

/-- The statement stores in a side about which nothing is known. -/
def Stmt.StoresUntold (table : SymbolTable) : Stmt → Prop
  | .assign _ target _ => target.Untold table
  | _ => False

theorem Ty.isArray_toArray {ty : Ty} (h : ty.isValid) : ty.toArray.isArray := by
  obtain ⟨kind, dims⟩ := ty
  cases kind with
  | invalid => cases h
  | base | pair | any =>
    simp only [toArray, isArray]
    split
    · simp
    · rename_i hfull
      simp only [maxDims] at hfull
      exact decide_eq_true (show 0 < dims by omega)

/-- A type that takes an array literal with elements is an array or a wildcard. -/
theorem Ty.Meets.isArray_or_isAny {table : SymbolTable} {span : Span} {expected : Ty} {first : Expr}
    {rest : List Expr} (htold : table.Told)
    (h : expected.Meets ((Rhs.array (first :: rest)).check table span).value) :
    expected.isArray ∨ expected.isAny := by
  have hvalue : ((Rhs.array (first :: rest)).check table span).value =
      (first.check table).value.toArray := rfl
  rw [hvalue] at h
  have hany : (first.check table).value.toArray.isAny = false := by
    simpa [Ty.isAny, Ty.kind_toArray] using first.check_told htold
  have harray : (first.check table).value.toArray.isArray :=
    Ty.isArray_toArray (by simpa [Ty.isValid, Ty.kind_toArray] using h.actual_valid)
  have hagrees := h.agrees
  simp only [Ty.agrees, hany, Bool.and_eq_true, Bool.or_eq_true, Bool.false_eq_true, or_false,
    beq_iff_eq] at hagrees
  -- Two types agree if one is a wildcard, which the literal is not, or if their dimensions do.
  rcases hagrees.2 with hwild | ⟨hdims, -⟩
  · exact .inr hwild
  · rw [Ty.isArray, ← hdims, ← Ty.isArray] at harray
    exact .inl harray

/-- The empty array literal fits every valid type, whatever its dimensions are. -/
theorem Ty.agrees_emptyLiteral (table : SymbolTable) (span : Span) {ty : Ty} (h : ty.isValid) :
    ty.agrees ((Rhs.array []).check table span).value := by
  have hany : ((Rhs.array []).check table span).value.isAny := rfl
  have hvalid : ((Rhs.array []).check table span).value.isValid := rfl
  simp [Ty.agrees, h, hany, hvalid]

/-- A statement whose types fit stores a literal with elements in an array, or where nothing is
known. -/
theorem Stmt.Fits.literal_stored {table : SymbolTable} {s : Stmt} (hfits : s.Fits table)
    (htold : table.Told) (hdeclared : ∀ ty ∈ s.variableTypes, ty.isAny = false) {elems : List Expr}
    {ty : Ty} (h : s.literal? table = some (elems, ty)) (helems : elems ≠ []) :
    ty.isArray ∨ s.StoresUntold table ∧ ty = .any := by
  obtain ⟨first, rest, rfl⟩ := List.exists_cons_of_ne_nil helems
  unfold Stmt.literal? at h
  split at h
  · cases h
    -- The type of a declaration is one of those that are no wildcards.
    rcases Ty.Meets.isArray_or_isAny htold hfits with harray | hwild
    · exact .inl harray
    · simp [hdeclared ty (by simp [Stmt.variableTypes])] at hwild
  · cases h
    rcases Ty.Meets.isArray_or_isAny htold hfits with harray | hwild
    · exact .inl harray
    · exact .inr (Target.untold_of_isAny htold hwild)
  · cases h

/-! ## §4 Checked statements -/

/-- A statement and all statements inside it. -/
def Stmt.parts (s : Stmt) : List Stmt :=
  s :: match s with
    | .skip .. | .declare .. | .assign .. | .increment .. | .read .. | .free .. | .ret .. | .exit ..
    | .print .. | .println .. => []
    | .ifThen _ _ body | .whileDo _ _ body | .doWhile _ body _ | .block _ body => body.parts
    | .ifElse _ _ thenArm elseArm => thenArm.parts ++ elseArm.parts
    | .forLoop _ init _ step body => init.parts ++ (step.parts ++ body.parts)
    | .seq _ first second => first.parts ++ second.parts

/-- All statements of a program. -/
def Program.parts (p : Program) : List Stmt :=
  p.functions.flatMap (fun f => f.body.parts) ++ p.body.parts

/-- The statement that is inspected, if it is one. -/
def Inspection.stmt? (i : Inspection) : Option Stmt :=
  match i.phrase with
  | .stmt s => some s
  | .expr _ | .target _ _ | .rhs _ _ => none

section Statements

variable (table : SymbolTable) (span : Span)

@[simp] theorem filterMap_inspectAll (es : List Expr) :
    (inspectAll table es).filterMap Inspection.stmt? = [] := by
  simp [inspectAll, List.filterMap_map, Function.comp_def, Inspection.stmt?]

@[simp] theorem Expr.filterMap_inspections (e : Expr) :
    (e.inspections table).filterMap Inspection.stmt? = [] :=
  filterMap_inspectAll table e.subterms

@[simp] theorem Target.filterMap_inspections (target : Target) :
    (target.inspections table span).filterMap Inspection.stmt? = [] := by
  refine (List.filterMap_cons_none rfl).trans ?_
  cases target with
  | ident name => rfl
  | elem name indices => exact filterMap_inspectAll table _
  | side which pair => exact pair.filterMap_inspections table

@[simp] theorem Rhs.filterMap_inspections (rhs : Rhs) :
    (rhs.inspections table span).filterMap Inspection.stmt? = [] := by
  refine (List.filterMap_cons_none rfl).trans ?_
  cases rhs with
  | expr e | side which e => exact e.filterMap_inspections table
  | array es | call name es => exact filterMap_inspectAll table _
  | newPair fst snd =>
    rw [List.filterMap_append, fst.filterMap_inspections, snd.filterMap_inspections]
    rfl

end Statements

theorem Stmt.allowed_of_clean {allowed : Bool} {clause : Stmt} {table : SymbolTable}
    (h : (clause.checkClause allowed table).diagnostics = []) :
    allowed = true ∧ (clause.check table).diagnostics = [] := by
  unfold checkClause at h
  cases allowed with
  | true => exact ⟨rfl, by simpa using h⟩
  | false => simp [note] at h

theorem Stmt.mem_inspections_self (s : Stmt) (table : SymbolTable) :
    ⟨table, .stmt s⟩ ∈ s.inspections table := by
  unfold inspections
  exact List.mem_cons_self

/-- Where nothing is reported no statement is passed over. -/
theorem Stmt.parts_inspected {s : Stmt} {table : SymbolTable}
    (h : (s.check table).diagnostics = []) :
    (s.inspections table).filterMap Inspection.stmt? = s.parts := by
  have itself (s : Stmt) (table : SymbolTable) :
      Inspection.stmt? ⟨table, .stmt s⟩ = some s := rfl
  induction s generalizing table with
  | skip | declare | assign | increment | read | free | ret | exit | print | println =>
    simp [inspections, parts, itself]
  | ifThen span cond body ih | whileDo span cond body ih =>
    simp only [check, diagnostics_bind, List.append_eq_nil_iff, SymbolTable.diagnostics_scoped] at h
    simp [inspections, parts, itself, ih h.2]
  | ifElse span cond thenArm elseArm ihThen ihElse =>
    simp only [check, diagnostics_bind, List.append_eq_nil_iff, SymbolTable.diagnostics_scoped,
      value_scoped_check] at h
    simp [inspections, parts, itself, ihThen h.2.1, ihElse h.2.2.1]
  | doWhile span body cond ih =>
    simp only [check, diagnostics_bind, List.append_eq_nil_iff, SymbolTable.diagnostics_scoped] at h
    simp [inspections, parts, itself, ih h.1]
  | forLoop span init cond step body ihInit ihStep ihBody =>
    rw [check_forLoop, SymbolTable.diagnostics_scoped, checkFor_eq] at h
    simp only [diagnostics_bind, List.append_eq_nil_iff, SymbolTable.diagnostics_scoped,
      value_checkClause_step] at h
    -- A clause that is not allowed is passed over, but then it is reported.
    obtain ⟨hinit, hinitClean⟩ := allowed_of_clean h.1
    obtain ⟨hstep, hstepClean⟩ := allowed_of_clean h.2.2.1
    have hbody := ihBody h.2.2.2
    simp only [inspections, hinit, hstep, if_true, parts, List.filterMap_cons, itself,
      List.filterMap_append, Expr.filterMap_inspections, List.nil_append, ihInit hinitClean]
    rw [← forTable] at hstepClean hbody
    rw [ihStep hstepClean, hbody]
  | block span body ih =>
    simp only [check, SymbolTable.diagnostics_scoped] at h
    simp [inspections, parts, itself, ih h]
  | seq span first second ihFirst ihSecond =>
    simp only [check, diagnostics_bind, List.append_eq_nil_iff] at h
    -- So is all that follows a return.
    by_cases hreturn : first.isReturn
    · simp [hreturn, note] at h
    · simp only [hreturn, Bool.false_eq_true, if_false] at h
      simp [inspections, parts, itself, hreturn, ihFirst h.1, ihSecond h.2]

/-! ## §5 Programs -/

namespace Program

/-- In a program without a diagnostic every statement was looked at, in its order. -/
theorem parts_inspected {p : Program} (h : p.check.diagnostics = []) :
    p.inspections.filterMap Inspection.stmt? = p.parts := by
  have hbody {table : SymbolTable} {s : Stmt} (hi : ⟨table, .stmt s⟩ ∈ p.inspections) :
      (s.inspections table).filterMap Inspection.stmt? = s.parts :=
    Stmt.parts_inspected (List.eq_nil_of_infix_nil (h ▸ p.check_records _ hi))
  have hmain := hbody (List.mem_append_right _ (p.body.mem_inspections_self p.declared))
  rw [inspections, List.filterMap_append, hmain, List.filterMap_flatMap, parts]
  congr 1
  refine List.flatMap_congr fun f hf => ?_
  exact hbody (List.mem_append_left _ (List.mem_flatMap.2 ⟨f, hf, f.body.mem_inspections_self _⟩))

/-- Array literals with elements go only into arrays. In a program without a diagnostic that
declares no wildcard and no invalid type, every statement was checked, and where a statement stores
such a literal, the place has an array type or is a side about which nothing is known. The empty
literal fits every valid type. -/
theorem array_literals_stored {p : Program} (hclean : p.check.diagnostics = [])
    (hreturns : ∀ f ∈ p.functions, f.returnType.isValid ∧ f.returnType.isAny = false)
    (htypes : ∀ ty ∈ p.variableTypes, ty.isValid ∧ ty.isAny = false) :
    p.inspections.filterMap Inspection.stmt? = p.parts ∧
    (∀ table s, ⟨table, .stmt s⟩ ∈ p.inspections → ∀ elems ty,
      s.literal? table = some (elems, ty) → elems ≠ [] →
        ty.isArray ∨ s.StoresUntold table ∧ ty = .any) ∧
    ∀ table span (ty : Ty), ty.isValid → ty.agrees ((Rhs.array []).check table span).value := by
  refine ⟨parts_inspected hclean, fun table s hi elems ty hliteral helems => ?_,
    fun table span ty hvalid => Ty.agrees_emptyLiteral table span hvalid⟩
  have hupholds := inspections_valid (fun f hf => (hreturns f hf).1)
    (fun ty hty => (htypes ty hty).1) _ hi
  have hnone : Inspection.diagnostics ⟨table, .stmt s⟩ = [] :=
    List.eq_nil_of_infix_nil (hclean ▸ p.check_records _ hi)
  -- No wildcard is declared, so no variable in sight is one.
  have htold : table.Told := fun name found hfound =>
    (htypes found (p.inspections_draw _ hi name found hfound)).2
  have hfits : s.Fits table := Stmt.fits_of_clean hupholds.table
    (fun found hfound => (htypes found (hupholds.types hfound)).1) hnone
  exact hfits.literal_stored htold
    (fun found hfound => (htypes found (hupholds.types hfound)).2) hliteral helems

/-- A program that stores literals in variables, in an element and in a side of an erased pair. -/
def literalProgram : Program where
  functions := [{
    name := "fill"
    returnType := .int
    params := [⟨"p", .erasedPair⟩]
    body := .seq {} (.assign {} (.side .fst (.ident {} "p")) (.array [.int {} "1", .int {} "2"]))
      (.ret {} (.int {} "0")) }]
  body := .seq {} (.declare {} ⟨.base .int, 1⟩ "row" (.array [.int {} "1", .int {} "2"]))
    (.seq {} (.declare {} ⟨.base .int, 2⟩ "rows" (.array [.ident {} "row"]))
      (.seq {} (.assign {} (.elem "rows" [.int {} "0"]) (.array [.int {} "3"]))
        (.assign {} (.ident "row") (.array []))))

/-- A program that meets the conditions and has a literal of each kind. -/
theorem array_literals_stored_literalProgram :
    literalProgram.check.diagnostics = [] ∧
    (∀ f ∈ literalProgram.functions, f.returnType.isValid ∧ f.returnType.isAny = false) ∧
    (∀ ty ∈ literalProgram.variableTypes, ty.isValid ∧ ty.isAny = false) ∧
    literalProgram.parts.length = 10 ∧
    ∀ table s, ⟨table, .stmt s⟩ ∈ literalProgram.inspections → ∀ elems ty,
      s.literal? table = some (elems, ty) → elems ≠ [] →
        ty.isArray ∨ s.StoresUntold table ∧ ty = .any := by
  have hclean : literalProgram.check.diagnostics = [] := by decide
  have hreturns : ∀ f ∈ literalProgram.functions,
      f.returnType.isValid ∧ f.returnType.isAny = false := by decide
  have htypes : ∀ ty ∈ literalProgram.variableTypes, ty.isValid ∧ ty.isAny = false := by decide
  exact ⟨hclean, hreturns, htypes, by decide,
    (array_literals_stored hclean hreturns htypes).2.1⟩

/-- A program that stores the empty literal in a variable that is no array. -/
def emptyLiteralProgram : Program :=
  { functions := [], body := .declare {} .int "x" (.array []) }

/-- With the empty literal included the same cannot be said: it may be stored in an integer. -/
theorem empty_literal_in_integer :
    ¬ ∀ p : Program, p.check.diagnostics = [] →
      (∀ f ∈ p.functions, f.returnType.isValid ∧ f.returnType.isAny = false) →
      (∀ ty ∈ p.variableTypes, ty.isValid ∧ ty.isAny = false) →
      ∀ table s, ⟨table, .stmt s⟩ ∈ p.inspections → ∀ elems ty,
        s.literal? table = some (elems, ty) → ty.isArray ∨ s.StoresUntold table ∧ ty = .any := by
  intro h
  have hstored := h emptyLiteralProgram (by decide) (by decide) (by decide) {}
    emptyLiteralProgram.body (emptyLiteralProgram.body.mem_inspections_self {}) [] .int rfl
  rcases hstored with harray | ⟨hfalse, -⟩
  · cases harray
  · exact hfalse

end Program

end ArmCompiler
