import ArmCompiler.Compile
import ArmCompiler.Proofs.Balance.Stmt

/-!
# Agreement of Tables and Frames

Checking and lowering keep separate records of the variables in sight: the symbol table and the
frame. The two *match* when they know the same variables with the same types. Where they match,
what was checked without a diagnostic is *resolved*, so lowering finds every name it looks up,
and both give it the same type.

## Contents
- §1: matching tables and frames
- §2: resolved expressions, targets and right sides
- §3: types of indexed values and of sides
- §4: what a clean check says
- §5: tables after a statement
- §6: matching along a statement
-/

namespace ArmCompiler

open Lower Report

/-! ## §1 Matching tables and frames -/

/-- The variables that a frame has a place for. -/
def Frame.Binds (frame : Frame) (name : String) : Prop := (frame.local? name).isSome

/-- Every variable that the table knows has a place in the frame. -/
def Frame.Covers (frame : Frame) (table : SymbolTable) : Prop :=
  ∀ name, (table.typeOf? name).isSome → frame.Binds name

/-- A table and a frame that know the same variables with the same types, all of them valid. -/
structure Matches (table : SymbolTable) (frame : Frame) : Prop where
  types : ∀ name, table.typeOf? name = (frame.local? name).map (·.ty)
  valid : ∀ {name ty}, table.typeOf? name = some ty → ty.isValid

namespace Matches

variable {table : SymbolTable} {frame : Frame}

theorem find (h : Matches table frame) {name : String} {ty : Ty}
    (hty : table.typeOf? name = some ty) : ∃ offset, frame.find name = .ok (offset, ty) := by
  rw [h.types, Option.map_eq_some_iff] at hty
  obtain ⟨l, hl, rfl⟩ := hty
  exact ⟨_, Frame.find_eq_ok.2 ⟨l, hl, rfl, rfl⟩⟩

theorem binds (h : Matches table frame) {name : String} {ty : Ty}
    (hty : table.typeOf? name = some ty) : frame.Binds name := by
  rw [h.types, Option.map_eq_some_iff] at hty
  obtain ⟨l, hl, _⟩ := hty
  simp [Frame.Binds, hl]

theorem covers (h : Matches table frame) : frame.Covers table := by
  intro name hname
  obtain ⟨ty, hty⟩ := Option.isSome_iff_exists.1 hname
  exact h.binds hty

theorem openScope (h : Matches table frame) (slots : Int) :
    Matches table.openScope (frame.openScope slots) where
  types := by simpa using h.types
  valid := fun hty => h.valid (by simpa using hty)

/-- A declaration that both can make keeps them matched. -/
theorem declare (h : Matches table frame) {table' : SymbolTable} {frame' : Frame} {name : String}
    {ty : Ty} {offset : Int} (htable : table.addVariable? name ty = some table')
    (hframe : frame.declare name ty = .ok (offset, frame')) (hvalid : ty.isValid) :
    Matches table' frame' where
  types := by
    intro other
    obtain ⟨l, hl, hlocal⟩ := Frame.local?_of_declare hframe other
    rw [SymbolTable.typeOf?_of_addVariable? htable, hlocal]
    split
    · simp [hl]
    · exact h.types other
  valid := by
    intro other otherTy hother
    rw [SymbolTable.typeOf?_of_addVariable? htable] at hother
    split at hother
    · obtain rfl : ty = otherTy := by simpa using hother
      exact hvalid
    · exact h.valid hother

end Matches

/-! ## §2 Resolved expressions, targets and right sides -/

mutual

/-- An expression whose variables are bound and whose integer literals fit a word. -/
def Expr.Resolved (bound : String → Prop) : Expr → Prop
  | .int _ text => (Literal.intValue? text).isSome
  | .bool .. | .char .. | .str .. | .null .. => True
  | .ident _ name => bound name
  | .elem _ name indices => bound name ∧ ResolvedAll bound indices
  | .unary _ _ operand => operand.Resolved bound
  | .binary _ _ lhs rhs => lhs.Resolved bound ∧ rhs.Resolved bound

/-- A list of resolved expressions. -/
def ResolvedAll (bound : String → Prop) : List Expr → Prop
  | [] => True
  | e :: rest => e.Resolved bound ∧ ResolvedAll bound rest

end

/-- A target made of resolved expressions. -/
def Target.Resolved (bound : String → Prop) : Target → Prop
  | .ident name => bound name
  | .elem name indices => bound name ∧ ResolvedAll bound indices
  | .side _ pair => pair.Resolved bound

/-- A right side made of resolved expressions, which calls a known function if it calls one. -/
def Rhs.Resolved (bound known : String → Prop) : Rhs → Prop
  | .expr e => e.Resolved bound
  | .array elems => ResolvedAll bound elems
  | .newPair fst snd => fst.Resolved bound ∧ snd.Resolved bound
  | .side _ pair => pair.Resolved bound
  | .call name args => known name ∧ ResolvedAll bound args

/-- A resolved expression has a type. -/
theorem Expr.Resolved.typeIn_ne_error {frame : Frame} {e : Expr} {err : CompileError}
    (h : e.Resolved frame.Binds) : e.typeIn frame ≠ .error err := by
  have hfind {name : String} (hname : frame.Binds name) : ∃ found, frame.find name = .ok found := by
    obtain ⟨l, hl⟩ := Option.isSome_iff_exists.1 hname
    exact ⟨_, Frame.find_eq_ok.2 ⟨l, hl, rfl, rfl⟩⟩
  cases e with
  | ident span name =>
    obtain ⟨found, hfound⟩ := hfind (by simpa [Expr.Resolved] using h)
    simp [Expr.typeIn, hfound, bind, Except.bind]
  | elem span name indices =>
    simp only [Expr.Resolved] at h
    obtain ⟨found, hfound⟩ := hfind h.1
    simp [Expr.typeIn, Frame.elementType, hfound, bind, Except.bind]
  | int | bool | char | str | null | unary | binary => simp [Expr.typeIn]

/-! ## §3 Types of indexed values and of sides -/

theorem Ty.element_of_isAny {ty : Ty} (h : ty.isAny) : ty.element = ty := by
  unfold isAny at h
  unfold element
  split at h
  · rename_i hkind
    simp [hkind]
  · cases h

theorem Ty.elementAt_of_isAny {ty : Ty} (h : ty.isAny) (count : Nat) :
    ty.elementAt count = ty := by
  induction count with
  | zero => rfl
  | succ count ih => rw [elementAt, element_of_isAny h, ih]

/-- The elements of a valid array are valid. -/
theorem Ty.isValid_element {ty : Ty} (hvalid : ty.isValid) (harray : ty.isArray) :
    ty.element.isValid := by
  obtain ⟨kind, dims⟩ := ty
  cases dims with
  | zero => simp [isArray] at harray
  | succ dims => cases kind <;> simp_all [isValid, element]

theorem Ty.isValid_side {ty sideTy : Ty} {side : Side} (h : ty.side? side = some sideTy) :
    sideTy.isValid := by
  have hslot (slot : Slot) : slot.toTy.isValid := by
    unfold Slot.toTy
    split <;> rfl
  unfold side? at h
  split at h
  · obtain rfl := Option.some.inj h
    exact hslot _
  · obtain rfl := Option.some.inj h
    rfl
  · obtain rfl := Option.some.inj h
    rfl
  · cases h

/-! ## §4 What a clean check says -/

section Clean

variable {table : SymbolTable} {frame : Frame} {span : Span}

theorem useVariable_clean {name : String} (h : (table.useVariable name span).diagnostics = []) :
    table.typeOf? name = some (table.useVariable name span).value := by
  unfold SymbolTable.useVariable at h ⊢
  cases hty : table.typeOf? name with
  | none => simp [hty, note] at h
  | some ty => rfl

theorem useVariable_binds {name : String} (hcovers : frame.Covers table)
    (h : (table.useVariable name span).diagnostics = []) : frame.Binds name := by
  apply hcovers
  rw [useVariable_clean h]
  rfl

mutual

/-- The names in an expression that was checked without a diagnostic are bound. -/
theorem Expr.check_resolved (hcovers : frame.Covers table) :
    (e : Expr) → (e.check table).diagnostics = [] → e.Resolved frame.Binds
  | .int span text, h => by
    unfold Expr.check at h
    cases hvalue : Literal.intValue? text with
    | none => simp [hvalue, note] at h
    | some value => simp [Expr.Resolved, hvalue]
  | .bool .., _ | .char .., _ | .str .., _ | .null .., _ => by simp [Expr.Resolved]
  | .ident span name, h => by
    rw [Expr.Resolved]
    exact useVariable_binds hcovers h
  | .elem span name indices, h => by
    simp only [Expr.check, diagnostics_bind, List.append_eq_nil_iff] at h
    rw [Expr.Resolved]
    exact ⟨useVariable_binds hcovers h.1, checkIndices_resolved hcovers indices h.2.1⟩
  | .unary span op operand, h => by
    simp only [Expr.check, diagnostics_bind, List.append_eq_nil_iff] at h
    rw [Expr.Resolved]
    exact operand.check_resolved hcovers h.1
  | .binary span op lhs rhs, h => by
    simp only [Expr.check, diagnostics_bind, List.append_eq_nil_iff] at h
    rw [Expr.Resolved]
    exact ⟨lhs.check_resolved hcovers h.1, rhs.check_resolved hcovers h.2.1⟩

theorem checkIndices_resolved (hcovers : frame.Covers table) :
    (indices : List Expr) → (checkIndices table indices).diagnostics = [] →
    ResolvedAll frame.Binds indices
  | [], _ => by simp [ResolvedAll]
  | i :: rest, h => by
    simp only [checkIndices, diagnostics_bind, List.append_eq_nil_iff] at h
    rw [ResolvedAll]
    exact ⟨i.check_resolved hcovers h.1, checkIndices_resolved hcovers rest h.2.2⟩

end

theorem resolvedAll_of_each (hcovers : frame.Covers table) {elems : List Expr}
    (h : ∀ e ∈ elems, (e.check table).diagnostics = []) : ResolvedAll frame.Binds elems := by
  induction elems with
  | nil => simp [ResolvedAll]
  | cons e rest ih =>
    simp only [List.mem_cons, forall_eq_or_imp] at h
    rw [ResolvedAll]
    exact ⟨e.check_resolved hcovers h.1, ih h.2⟩

theorem checkCondition_resolved (hcovers : frame.Covers table) {cond : Expr}
    (h : (checkCondition table cond).diagnostics = []) : cond.Resolved frame.Binds := by
  simp only [checkCondition, diagnostics_bind, List.append_eq_nil_iff] at h
  exact cond.check_resolved hcovers h.1

theorem Target.check_resolved (hcovers : frame.Covers table) {target : Target}
    (h : (target.check table span).diagnostics = []) : target.Resolved frame.Binds := by
  cases target with
  | ident name => exact useVariable_binds hcovers h
  | elem name indices =>
    simp only [Target.check, diagnostics_bind, List.append_eq_nil_iff] at h
    exact ⟨useVariable_binds hcovers h.1, checkIndices_resolved hcovers indices h.2.1⟩
  | side which pair =>
    simp only [Target.check, diagnostics_bind, List.append_eq_nil_iff] at h
    exact pair.check_resolved hcovers h.1

/-- All elements of an array literal without a diagnostic are checked without one. -/
theorem checkElements_each {first : Ty} {elems : List Expr}
    (h : (checkElements table first elems).diagnostics = []) :
    ∀ e ∈ elems, (e.check table).diagnostics = [] := by
  induction elems with
  | nil => simp
  | cons elem rest ih =>
    simp only [checkElements, diagnostics_bind, List.append_eq_nil_iff] at h
    simpa using ⟨h.1, ih h.2.2⟩

/-- All arguments without a diagnostic are checked without one, the surplus ones too. -/
theorem checkArgs_each {params : List Param} {args : List Expr}
    (h : (checkArgs table params args).diagnostics = []) :
    ∀ e ∈ args, (e.check table).diagnostics = [] := by
  induction args generalizing params with
  | nil => simp
  | cons arg args ih =>
    cases params with
    | nil =>
      simp only [checkArgs, diagnostics_bind, List.append_eq_nil_iff] at h
      simpa using ⟨h.1, ih h.2⟩
    | cons param params =>
      simp only [checkArgs, diagnostics_bind, List.append_eq_nil_iff] at h
      simpa using ⟨h.1, ih h.2.2⟩

/-- A right side that was checked without a diagnostic is resolved. -/
theorem Rhs.check_resolved (hcovers : frame.Covers table) {rhs : Rhs}
    (h : (rhs.check table span).diagnostics = []) : rhs.Resolved frame.Binds table.Knows := by
  cases rhs with
  | expr e => exact e.check_resolved hcovers h
  | array elems =>
    cases elems with
    | nil => simp [Rhs.Resolved, ResolvedAll]
    | cons first rest =>
      simp only [Rhs.check, diagnostics_bind, List.append_eq_nil_iff] at h
      apply resolvedAll_of_each hcovers
      simpa using ⟨h.1, checkElements_each h.2.1⟩
  | newPair fst snd =>
    simp only [Rhs.check, diagnostics_bind, List.append_eq_nil_iff] at h
    exact ⟨fst.check_resolved hcovers h.1, snd.check_resolved hcovers h.2.1⟩
  | side which pair =>
    simp only [Rhs.check, diagnostics_bind, List.append_eq_nil_iff] at h
    exact pair.check_resolved hcovers h.1
  | call name args =>
    unfold Rhs.check at h
    cases hfun : table.function? name with
    | none => simp [hfun, note] at h
    | some signature =>
      simp only [hfun, diagnostics_bind, List.append_eq_nil_iff] at h
      exact ⟨by simp [SymbolTable.Knows, hfun], resolvedAll_of_each hcovers (checkArgs_each h.2.1)⟩

theorem indexedType_clean {whole ty : Ty} {count : Nat} (hvalid : ty.isValid)
    (h : (indexedType whole span ty count).diagnostics = []) :
    (indexedType whole span ty count).value = ty.elementAt count ∧
      (ty.elementAt count).isValid := by
  induction count generalizing ty with
  | zero => exact ⟨rfl, hvalid⟩
  | succ count ih =>
    unfold indexedType at h ⊢
    -- Checking stops at a wildcard where the frame goes on; a wildcard is its own element type.
    by_cases hany : ty.isAny
    · rw [Ty.elementAt_of_isAny hany]
      exact ⟨by simp [hany], hvalid⟩
    · by_cases harray : ty.isArray
      · simp only [hany, harray, Bool.false_eq_true, if_false, if_true] at h ⊢
        exact ih (Ty.isValid_element hvalid harray) h
      · simp [hany, harray, noteMismatch, note] at h

/-- An element of a variable has the type that the frame gives it. -/
theorem elementType_clean {name : String} {count : Nat} (hmatch : Matches table frame)
    (hname : (table.useVariable name span).diagnostics = [])
    (hcount : (elementType (table.useVariable name span).value span count).diagnostics = []) :
    frame.elementType name count =
        .ok (elementType (table.useVariable name span).value span count).value ∧
      (elementType (table.useVariable name span).value span count).value.isValid := by
  have hty := useVariable_clean hname
  have hvalid := hmatch.valid hty
  obtain ⟨offset, hfind⟩ := hmatch.find hty
  simp only [elementType, hvalid, if_true] at hcount ⊢
  obtain ⟨hvalue, helement⟩ := indexedType_clean hvalid hcount
  rw [hvalue]
  exact ⟨by simp [Frame.elementType, hfind, bind, Except.bind], helement⟩

theorem sideType_clean {side : Side} {pair : Ty} (hvalid : pair.isValid)
    (h : (sideType side pair span).diagnostics = []) :
    pair.side? side = some (sideType side pair span).value := by
  unfold sideType at h ⊢
  simp only [hvalid, if_true] at h ⊢
  cases hside : pair.side? side with
  | none => simp [hside, noteMismatch, note] at h
  | some ty => rfl

end Clean

@[simp] theorem UnaryOp.value_check (op : UnaryOp) (ty : Ty) (span : Span) :
    (op.check ty span).value = op.resultType := by
  cases op with
  | len =>
    simp only [check]
    split <;> rfl
  | not | neg | ord | chr => rfl

@[simp] theorem BinaryOp.value_check (op : BinaryOp) (lhs rhs : BinaryOp.Operand) (span : Span) :
    (op.check lhs rhs span).value = op.resultType := by
  cases op <;> rfl

theorem UnaryOp.isValid_resultType (op : UnaryOp) : op.resultType.isValid := by
  cases op <;> rfl

theorem BinaryOp.isValid_resultType (op : BinaryOp) : op.resultType.isValid := by
  cases op <;> rfl

/-- A resolved expression whose type in a frame is a given valid one. -/
structure Expr.HasType (frame : Frame) (e : Expr) (ty : Ty) : Prop where
  resolved : e.Resolved frame.Binds
  type : e.typeIn frame = .ok ty
  valid : ty.isValid

/-- An expression that was checked without a diagnostic has the type that the check found. -/
theorem Expr.check_clean {table : SymbolTable} {frame : Frame} (hmatch : Matches table frame)
    (e : Expr) (h : (e.check table).diagnostics = []) : e.HasType frame (e.check table).value := by
  have hresolved := e.check_resolved hmatch.covers h
  cases e with
  | int span text =>
    unfold Expr.check at h ⊢
    cases hvalue : Literal.intValue? text with
    | none => simp [hvalue, note] at h
    | some value => exact ⟨hresolved, rfl, rfl⟩
  | bool | char | str | null => exact ⟨hresolved, rfl, rfl⟩
  | ident span name =>
    have hty := useVariable_clean h
    obtain ⟨offset, hfind⟩ := hmatch.find hty
    exact ⟨hresolved, by simp [Expr.typeIn, Expr.check, hfind, bind, Except.bind],
      hmatch.valid hty⟩
  | elem span name indices =>
    simp only [Expr.check, diagnostics_bind, List.append_eq_nil_iff] at h
    -- The check notes something at the name, at an index or at the number of indices, or nowhere.
    obtain ⟨hname, _, hcount⟩ := h
    obtain ⟨htype, hvalid⟩ := elementType_clean hmatch hname hcount
    exact ⟨hresolved, by simpa [Expr.typeIn, Expr.check] using htype,
      by simpa [Expr.check] using hvalid⟩
  | unary span op operand =>
    simp only [Expr.check, value_bind, UnaryOp.value_check]
    exact ⟨hresolved, rfl, op.isValid_resultType⟩
  | binary span op lhs rhs =>
    simp only [Expr.check, value_bind, BinaryOp.value_check]
    exact ⟨hresolved, rfl, op.isValid_resultType⟩

/-- The same for a target, and for what is stored there. -/
structure Target.HasType (frame : Frame) (target : Target) (ty : Ty) : Prop where
  resolved : target.Resolved frame.Binds
  type : target.typeIn frame = .ok ty
  valid : ty.isValid

section Clean

variable {table : SymbolTable} {frame : Frame} {span : Span}

/-- A target that was checked without a diagnostic has the type that the check found. -/
theorem Target.check_clean {target : Target} (hmatch : Matches table frame)
    (h : (target.check table span).diagnostics = []) :
    target.HasType frame (target.check table span).value := by
  have hresolved := Target.check_resolved hmatch.covers h
  cases target with
  | ident name =>
    have hty := useVariable_clean h
    obtain ⟨offset, hfind⟩ := hmatch.find hty
    exact ⟨hresolved, by simp [Target.typeIn, Target.check, hfind, bind, Except.bind],
      hmatch.valid hty⟩
  | elem name indices =>
    simp only [Target.check, diagnostics_bind, List.append_eq_nil_iff] at h
    obtain ⟨hname, _, hcount⟩ := h
    obtain ⟨htype, hvalid⟩ := elementType_clean hmatch hname hcount
    exact ⟨hresolved, htype, hvalid⟩
  | side which pair =>
    simp only [Target.check, diagnostics_bind, List.append_eq_nil_iff] at h
    have hpair := pair.check_clean hmatch h.1
    have hside := sideType_clean hpair.valid h.2
    refine ⟨hresolved, ?_, ?_⟩
    · simp [Target.typeIn, Expr.sideTypeIn, Target.check, hpair.type, hside, bind, Except.bind]
    · exact Ty.isValid_side hside

end Clean

/-! ## §5 Tables after a statement -/

/-- A table that differs in the variables of the innermost scope only. -/
structure SymbolTable.Extends (table' table : SymbolTable) : Prop where
  outer : table'.outer = table.outer
  functions : table'.functions = table.functions
  current : table'.current = table.current

namespace SymbolTable.Extends

variable {table table' table'' : SymbolTable}

theorem refl (table : SymbolTable) : Extends table table := ⟨rfl, rfl, rfl⟩

theorem trans (h' : Extends table'' table') (h : Extends table' table) : Extends table'' table :=
  ⟨h'.outer.trans h.outer, h'.functions.trans h.functions, h'.current.trans h.current⟩

theorem addVariable? {name : String} {ty : Ty} (h : table.addVariable? name ty = some table') :
    Extends table' table := by
  unfold SymbolTable.addVariable? at h
  split at h
  · cases h
  · cases h
    exact ⟨rfl, rfl, rfl⟩

/-- Whatever a scope has gained is gone when it is closed. -/
theorem closeScope (h : Extends table' table.openScope) : table'.closeScope = table := by
  obtain ⟨innermost, outer, functions, current⟩ := table'
  obtain ⟨rfl, rfl, rfl⟩ := h
  rfl

end SymbolTable.Extends

/-- A check in a scope of its own leaves the table as it was. -/
theorem SymbolTable.value_scoped {table : SymbolTable} {check : SymbolTable → Checked}
    (h : (check table.openScope).value.2.Extends table.openScope) :
    (table.scoped check).value.2 = table :=
  h.closeScope

@[simp] theorem SymbolTable.diagnostics_scoped (table : SymbolTable)
    (check : SymbolTable → Checked) :
    (table.scoped check).diagnostics = (check table.openScope).diagnostics :=
  List.append_nil _

namespace Stmt

/-- The check of a `for` loop inside the scope of its first clause. -/
def checkFor (init : Stmt) (cond : Expr) (step body : Stmt) (table : SymbolTable) : Checked := do
  let table ← if init.isForInit then
      (·.2) <$> init.check table
    else do
      note .misplacedStatement init.span
      pure table
  checkCondition table cond
  let table ← if step.isForStep then
      (·.2) <$> step.check table
    else do
      note .misplacedStatement step.span
      pure table
  table.scoped body.check

theorem check_forLoop (span : Span) (init : Stmt) (cond : Expr) (step body : Stmt)
    (table : SymbolTable) :
    (Stmt.forLoop span init cond step body).check table =
      table.scoped (checkFor init cond step body) := rfl

theorem checkFor_extends {init step body : Stmt} {cond : Expr}
    (hinit : ∀ table, (init.check table).value.2.Extends table)
    (hstep : ∀ table, (step.check table).value.2.Extends table)
    (hbody : ∀ table : SymbolTable, (table.scoped body.check).value.2 = table)
    (table : SymbolTable) :
    (checkFor init cond step body table).value.2.Extends table := by
  unfold checkFor
  by_cases hfirst : init.isForInit <;> by_cases hlast : step.isForStep <;>
    simp only [hfirst, hlast, if_true, Bool.false_eq_true, if_false, value_bind, value_map,
      value_pure, hbody]
  · exact (hstep _).trans (hinit table)
  · exact hinit table
  · exact hstep table
  · exact .refl table

/-- Checking a statement adds variables to the innermost scope and changes nothing else. -/
theorem check_extends (s : Stmt) (table : SymbolTable) :
    (s.check table).value.2.Extends table := by
  -- All forms but declarations and sequences check their parts in scopes of their own.
  have own {check : SymbolTable → Checked} {table : SymbolTable}
      (h : (check table.openScope).value.2.Extends table.openScope) :
      (table.scoped check).value.2.Extends table := by
    rw [SymbolTable.value_scoped h]
    exact .refl table
  induction s generalizing table with
  | skip | assign | read | free | ret | exit | print | println => exact .refl table
  | declare span ty name rhs =>
    simp only [check, value_bind]
    split
    · rename_i added
      exact .addVariable? added
    · exact .refl table
  | increment span name =>
    simp only [check]
    split <;> exact .refl table
  | ifThen span cond arm ih | whileDo span cond arm ih | block span arm ih => exact own (ih _)
  | doWhile span body cond ih => exact own (ih _)
  | ifElse span cond thenArm elseArm ihThen ihElse =>
    exact (own (ihElse _)).trans (own (ihThen _))
  | forLoop span init cond step body ihInit ihStep ihBody =>
    exact own (checkFor_extends ihInit ihStep (fun _ => SymbolTable.value_scoped (ihBody _)) _)
  | seq span first second ihFirst ihSecond =>
    simp only [check, value_bind]
    split
    · exact ihFirst table
    · exact (ihSecond _).trans (ihFirst table)

/-- A statement in a scope of its own leaves the table as it was. -/
theorem value_scoped_check (s : Stmt) (table : SymbolTable) :
    (table.scoped s.check).value.2 = table :=
  SymbolTable.value_scoped (s.check_extends _)

/-- A statement without a declaration of its own leaves the table as it was. -/
theorem check_of_slots {s : Stmt} (hslots : s.slots = 0) (table : SymbolTable) :
    (s.check table).value.2 = table := by
  induction s generalizing table with
  | skip | assign | read | free | ret | exit | print | println => rfl
  | declare => simp [slots] at hslots
  | increment span name =>
    simp only [check]
    split <;> rfl
  | ifThen span cond arm | whileDo span cond arm | block span arm =>
    exact value_scoped_check arm table
  | doWhile span body cond => exact value_scoped_check body table
  | ifElse span cond thenArm elseArm =>
    exact (value_scoped_check elseArm _).trans (value_scoped_check thenArm table)
  | forLoop span init cond step body =>
    -- The clauses of the header bind in the scope of the loop, which is closed at its end.
    exact SymbolTable.value_scoped
      (checkFor_extends init.check_extends step.check_extends body.value_scoped_check _)
  | seq span first second ihFirst ihSecond =>
    simp only [slots, Nat.add_eq_zero_iff] at hslots
    simp only [check, value_bind]
    split
    · exact ihFirst hslots.1 table
    · exact (ihSecond hslots.2 _).trans (ihFirst hslots.1 table)

end Stmt

/-! ## §6 Matching along a statement -/

namespace Stmt

/-- The types of the variables that a statement declares, in its own scope or an inner one. -/
def variableTypes : Stmt → List Ty
  | .declare _ ty _ _ => [ty]
  | .ifThen _ _ body | .whileDo _ _ body | .doWhile _ body _ | .block _ body =>
    body.variableTypes
  | .ifElse _ _ thenArm elseArm => thenArm.variableTypes ++ elseArm.variableTypes
  | .forLoop _ init _ step body =>
    init.variableTypes ++ step.variableTypes ++ body.variableTypes
  | .seq _ first second => first.variableTypes ++ second.variableTypes
  | .skip .. | .assign .. | .increment .. | .read .. | .free .. | .ret .. | .exit .. | .print ..
  | .println .. => []

/-- A declaration without a diagnostic binds its variable. -/
theorem check_declare_clean {span : Span} {ty : Ty} {name : String} {rhs : Rhs}
    {table : SymbolTable} (h : ((Stmt.declare span ty name rhs).check table).diagnostics = []) :
    (rhs.check table span).diagnostics = [] ∧
      table.addVariable? name ty =
        some ((Stmt.declare span ty name rhs).check table).value.2 := by
  simp only [check, diagnostics_bind, value_bind, List.append_eq_nil_iff] at h ⊢
  cases hadd : table.addVariable? name ty with
  | none => simp [hadd, note] at h
  | some table' => exact ⟨h.1, rfl⟩

/-- Nothing follows a return in a sequence without a diagnostic. -/
theorem check_seq_clean {span : Span} {first second : Stmt} {table : SymbolTable}
    (h : ((Stmt.seq span first second).check table).diagnostics = []) :
    (first.check table).diagnostics = [] ∧
      (second.check (first.check table).value.2).diagnostics = [] ∧
      ((Stmt.seq span first second).check table).value =
        (second.check (first.check table).value.2).value := by
  simp only [check, diagnostics_bind, value_bind, List.append_eq_nil_iff] at h ⊢
  by_cases hreturn : first.isReturn
  · simp [hreturn, note] at h
  · simp only [hreturn, Bool.false_eq_true, if_false] at h ⊢
    exact ⟨h.1, h.2, trivial⟩

theorem slots_of_isForStep {s : Stmt} (h : s.isForStep) : s.slots = 0 := by
  cases s <;> simp_all [isForStep, slots]

/-- The clauses of a `for` loop without a diagnostic. The last one declares nothing. -/
theorem checkFor_clean {init step body : Stmt} {cond : Expr} {table : SymbolTable}
    (h : (checkFor init cond step body table).diagnostics = []) :
    (init.check table).diagnostics = [] ∧
      (checkCondition (init.check table).value.2 cond).diagnostics = [] ∧
      step.slots = 0 ∧ (step.check (init.check table).value.2).diagnostics = [] ∧
      (body.check (init.check table).value.2.openScope).diagnostics = [] := by
  unfold checkFor at h
  by_cases hinit : init.isForInit
  · by_cases hstep : step.isForStep
    · simp only [hinit, hstep, if_true, diagnostics_bind, diagnostics_map, value_map,
        List.append_eq_nil_iff, SymbolTable.diagnostics_scoped] at h
      obtain ⟨hfirst, hcond, hlast, hbody⟩ := h
      -- The body is checked after the last clause, which leaves the table alone.
      have hslots := slots_of_isForStep hstep
      rw [check_of_slots hslots] at hbody
      exact ⟨hfirst, hcond, hslots, hlast, hbody⟩
    · simp [hinit, hstep, note] at h
  · simp [hinit, note] at h

/-- Lowering a checked statement keeps the frame matched with the table. -/
theorem lower_matches (s : Stmt) {known table : SymbolTable} {resources : Resources}
    {out : Lowered Unit} (h : (s.lower known).run resources = .ok out)
    (hclean : (s.check table).diagnostics = []) (htypes : ∀ ty ∈ s.variableTypes, ty.isValid)
    (hmatch : Matches table resources.frame) (hlaid : resources.frame.Laid)
    (hreturn : resources.pool.returnHeld = false) :
    Matches (s.check table).value.2 out.resources.frame := by
  -- Only declarations and sequences of them change the table or the frame.
  have unchanged {s : Stmt} {table : SymbolTable} {resources : Resources} {out : Lowered Unit}
      (h : (s.lower known).run resources = .ok out) (hmatch : Matches table resources.frame)
      (hlaid : resources.frame.Laid) (hreturn : resources.pool.returnHeld = false)
      (hslots : s.slots = 0) : Matches (s.check table).value.2 out.resources.frame := by
    have hbalanced := s.lower_balanced h (.any _) hlaid hreturn
    rw [hslots] at hbalanced
    rw [check_of_slots hslots, hbalanced.frame.eq_of_zero]
    exact hmatch
  induction s generalizing table resources out with
  | declare span ty name rhs =>
    obtain ⟨_, hadd⟩ := check_declare_clean hclean
    obtain ⟨value, offset, frame, hvalue, hdeclare, rfl⟩ := lower_declare_eq_ok h
    rw [(Rhs.lower_brings hvalue (.any _) hlaid hreturn).holds] at hdeclare
    exact hmatch.declare hadd hdeclare (htypes ty (by simp [variableTypes]))
  | seq span first second ihFirst ihSecond =>
    obtain ⟨hfirst, hsecond, hvalue⟩ := check_seq_clean hclean
    obtain ⟨a, b, ha, hb, rfl⟩ := lower_seq_eq_ok h
    simp only [variableTypes, List.mem_append] at htypes
    have hbalanced := first.lower_balanced ha (.any _) hlaid hreturn
    have hmid := ihFirst ha hfirst (fun ty hty => htypes ty (.inl hty)) hmatch hlaid hreturn
    have hend := ihSecond hb hsecond (fun ty hty => htypes ty (.inr hty)) hmid
      (hbalanced.laid hlaid) (hbalanced.pool ▸ hreturn)
    rw [hvalue]
    exact hend
  | skip | assign | increment | read | free | ret | exit | print | println | ifThen | ifElse
  | whileDo | doWhile | forLoop | block => exact unchanged h hmatch hlaid hreturn rfl

end Stmt

end ArmCompiler
