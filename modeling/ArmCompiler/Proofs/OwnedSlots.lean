import ArmCompiler.Proofs.Touches

/-!
# Owned Slots

What checked code touches next to the stack pointer are slots of variables in sight, and it loads
and stores them as wide as their types ask. There is one exception: an element of a variable,
accessed without an index, is read as if the variable held an array, whatever its type is. Such
variables are called *bare*. No other touch of a parameter's slot differs in width from the store of
its argument.

## Contents
- §1: bare variables
- §2: touches of variables
- §3: tables and frames with the same types
- §4: what checked code reads
- §5: touches of a function's own slots and parameters
-/

namespace ArmCompiler

open Lower Report

/-! ## §1 Bare variables -/

/-- The variable of an element access, if it has no index. -/
def Frame.bareLocal (frame : Frame) (name : String) (indices : List Expr) : List Frame.Local :=
  if indices.isEmpty then (frame.local? name).toList else []

mutual

/-- The variables of which an expression accesses an element without an index. -/
def Expr.bareLocals (frame : Frame) : Expr → List Frame.Local
  | .int .. | .bool .. | .char .. | .str .. | .null .. | .ident .. => []
  | .elem _ name indices => frame.bareLocal name indices ++ bareLocalsAll frame indices
  | .unary _ _ operand => operand.bareLocals frame
  | .binary _ _ lhs rhs => lhs.bareLocals frame ++ rhs.bareLocals frame

def bareLocalsAll (frame : Frame) : List Expr → List Frame.Local
  | [] => []
  | e :: rest => e.bareLocals frame ++ bareLocalsAll frame rest

end

def Target.bareLocals (frame : Frame) : Target → List Frame.Local
  | .ident _ => []
  | .elem name indices => frame.bareLocal name indices ++ bareLocalsAll frame indices
  | .side _ pair => pair.bareLocals frame

def Rhs.bareLocals (frame : Frame) : Rhs → List Frame.Local
  | .expr e | .side _ e => e.bareLocals frame
  | .array es | .call _ es => bareLocalsAll frame es
  | .newPair fst snd => fst.bareLocals frame ++ snd.bareLocals frame

/-- The variables of which a statement accesses an element without an index. -/
def Stmt.bareLocals (frame : Frame) : Stmt → List Frame.Local
  | .skip _ | .increment .. => []
  | .declare _ _ _ rhs => rhs.bareLocals frame
  | .assign _ target rhs => target.bareLocals frame ++ rhs.bareLocals frame
  | .read _ target => target.bareLocals frame
  | .free _ e | .ret _ e | .exit _ e | .print _ e | .println _ e => e.bareLocals frame
  | .ifThen _ cond body | .whileDo _ cond body | .doWhile _ body cond =>
    cond.bareLocals frame ++ body.bareLocals (frame.openScope body.slots)
  | .ifElse _ cond thenArm elseArm =>
    cond.bareLocals frame ++ thenArm.bareLocals (frame.openScope thenArm.slots) ++
      elseArm.bareLocals (frame.openScope elseArm.slots)
  | .forLoop _ init cond step body =>
    let inner := init.frameAfter (frame.openScope init.slots)
    init.bareLocals (frame.openScope init.slots) ++ cond.bareLocals inner ++
      step.bareLocals inner ++ body.bareLocals (inner.openScope body.slots)
  | .block _ body => body.bareLocals (frame.openScope body.slots)
  | .seq _ first second => first.bareLocals frame ++ second.bareLocals (first.frameAfter frame)

/-! ## §2 Touches of variables -/

/-- A touch that is as wide as a type asks, or that reads a bare variable as a word. -/
def Touch.Suits (ty : Ty) (bare : Prop) : Touch → Prop
  | .load width => width = ty.width ∨ (width = .word ∧ bare)
  | .store width => width = ty.width
  | .address => True

/-- What is touched is the slot of a variable in sight, as wide as its type asks. -/
def Frame.Owns (frame : Frame) (bare : List Frame.Local) (touched : Touch × Int) : Prop :=
  ∃ name l, frame.local? name = some l ∧ touched.2 = frame.offset l ∧
    touched.1.Suits l.ty (l ∈ bare)

section Owns

variable {frame : Frame} {bare : List Frame.Local} {name : String}

theorem Frame.Owns.of_find {offset : Int} {ty : Ty} {touch : Touch}
    (h : frame.find name = .ok (offset, ty)) (hsuits : ∀ bare, touch.Suits ty bare) :
    frame.Owns bare (touch, offset) := by
  obtain ⟨l, hl, rfl, rfl⟩ := Frame.find_eq_ok.1 h
  exact ⟨name, l, hl, rfl, hsuits _⟩

theorem Frame.owns_touched {touch : Ty → Touch}
    (h : ∀ l, frame.local? name = some l → (touch l.ty).Suits l.ty (l ∈ bare)) :
    ∀ touched ∈ frame.touched name touch, frame.Owns bare touched := by
  intro touched htouched
  simp only [Frame.touched, Option.mem_toList, Option.map_eq_some_iff] at htouched
  obtain ⟨l, hl, rfl⟩ := htouched
  exact ⟨name, l, hl, rfl, h l hl⟩

end Owns

/-! ## §3 Tables and frames with the same types -/

/-- A table and a frame that know the same variables with the same types. -/
def SameTypes (table : SymbolTable) (frame : Frame) : Prop :=
  ∀ name, table.typeOf? name = (frame.local? name).map (·.ty)

namespace SameTypes

variable {table : SymbolTable} {frame : Frame}

theorem openScope (h : SameTypes table frame) (slots : Int) :
    SameTypes table.openScope (frame.openScope slots) := by
  intro name
  simpa using h name

/-- A declaration that both can make keeps the types the same. -/
theorem declare (h : SameTypes table frame) {table' : SymbolTable} {frame' : Frame} {name : String}
    {ty : Ty} {offset : Int} (htable : table.addVariable? name ty = some table')
    (hframe : frame.declare name ty = .ok (offset, frame')) : SameTypes table' frame' := by
  intro other
  obtain ⟨l, hl, hlocal⟩ := Frame.local?_of_declare hframe other
  rw [SymbolTable.typeOf?_of_addVariable? htable, hlocal]
  split
  · simp [hl]
  · exact h other

theorem typeOf? (h : SameTypes table frame) {name : String} {l : Frame.Local}
    (hl : frame.local? name = some l) : table.typeOf? name = some l.ty := by
  simp [h name, hl]

end SameTypes

/-! ## §4 What checked code reads -/

section Widths

variable {ty : Ty} {span : Span}

theorem Ty.width_of_not_valid (h : ¬ ty.isValid) : ty.width = .word := by
  obtain ⟨kind, dims⟩ := ty
  cases kind <;> simp_all [isValid, width, size]

theorem Ty.width_of_isAny (h : ty.isAny) : ty.width = .word := by
  obtain ⟨kind, dims⟩ := ty
  cases kind <;> simp_all [isAny, width, size]

theorem Ty.width_of_isArray (h : ty.isArray) : ty.width = .word := by
  obtain ⟨kind, dims⟩ := ty
  cases dims with
  | zero => simp [isArray] at h
  | succ dims => simp [width, size]

/-- A variable that can be indexed is a word. -/
theorem width_of_indexed {count : Nat} (h : (elementType ty span (count + 1)).diagnostics = []) :
    ty.width = .word := by
  by_cases hvalid : ty.isValid
  · by_cases hany : ty.isAny
    · exact Ty.width_of_isAny hany
    · by_cases harray : ty.isArray
      · exact Ty.width_of_isArray harray
      · simp [elementType, hvalid, indexedType, hany, harray, noteMismatch, note] at h
  · exact Ty.width_of_not_valid hvalid

/-- A variable that can be counted up is a word. -/
theorem width_of_expect_int (h : (expect .int ty span).diagnostics = []) : ty.width = .word := by
  by_cases hvalid : ty.isValid
  · by_cases hany : ty.isAny
    · exact Ty.width_of_isAny hany
    · obtain ⟨kind, dims⟩ := ty
      cases kind with
      | base b =>
        cases b <;> simp_all [expect, Ty.agrees, Ty.int, Kind.agrees, noteMismatch, note, Ty.width,
          Ty.size, Ty.isValid, Ty.isAny]
      | any | invalid | pair => simp [Ty.width, Ty.size]
  · exact Ty.width_of_not_valid hvalid

end Widths

section Reads

variable {table : SymbolTable} {frame : Frame} {bare : List Frame.Local} {span : Span}

theorem checkIndices_each {indices : List Expr}
    (h : (checkIndices table indices).diagnostics = []) :
    ∀ e ∈ indices, (e.check table).diagnostics = [] := by
  induction indices with
  | nil => simp
  | cons index rest ih =>
    simp only [checkIndices, diagnostics_bind, List.append_eq_nil_iff] at h
    simpa using ⟨h.1, ih h.2.2⟩

/-- The variable of an element access is read as a word. It is one, or it is bare. -/
theorem owns_array {name : String} {indices : List Expr} (htypes : SameTypes table frame)
    (hname : (table.useVariable name span).diagnostics = [])
    (hcount : (elementType (table.useVariable name span).value span
      indices.length).diagnostics = [])
    (hbare : frame.bareLocal name indices ⊆ bare) :
    ∀ touched ∈ frame.touched name (fun _ => .load .word), frame.Owns bare touched := by
  apply Frame.owns_touched
  intro l hl
  cases indices with
  | nil => exact .inr ⟨rfl, hbare (by simp [Frame.bareLocal, hl])⟩
  | cons index rest =>
    have hty := (htypes.typeOf? hl).symm.trans (useVariable_clean hname)
    rw [← Option.some.inj hty] at hcount
    exact .inl (width_of_indexed hcount).symm

mutual

/-- An expression that was checked without a diagnostic reads variables as wide as they are, unless
they are bare. -/
theorem Expr.reads_owned (htypes : SameTypes table frame) : (e : Expr) →
    (e.check table).diagnostics = [] → e.bareLocals frame ⊆ bare →
    ∀ touched ∈ e.reads frame, frame.Owns bare touched
  | .int .., _, _ | .bool .., _, _ | .char .., _, _ | .str .., _, _ | .null .., _, _ => by
    simp [Expr.reads]
  | .ident _ name, _, _ => by
    simp only [Expr.reads]
    exact Frame.owns_touched fun l _ => .inl rfl
  | .elem _ name indices, hclean, hbare => by
    simp only [Expr.check, diagnostics_bind, List.append_eq_nil_iff] at hclean
    simp only [Expr.bareLocals, List.append_subset] at hbare
    simp only [Expr.reads, List.mem_append]
    rintro touched (htouched | htouched)
    · exact owns_array htypes hclean.1 hclean.2.2 hbare.1 touched htouched
    · exact readsAll_owned htypes indices (checkIndices_each hclean.2.1) hbare.2 touched htouched
  | .unary _ _ operand, hclean, hbare => by
    simp only [Expr.check, diagnostics_bind, List.append_eq_nil_iff] at hclean
    simp only [Expr.bareLocals] at hbare
    simp only [Expr.reads]
    exact operand.reads_owned htypes hclean.1 hbare
  | .binary _ _ lhs rhs, hclean, hbare => by
    simp only [Expr.check, diagnostics_bind, List.append_eq_nil_iff] at hclean
    simp only [Expr.bareLocals, List.append_subset] at hbare
    have hlhs := lhs.reads_owned htypes hclean.1 hbare.1
    have hrhs := rhs.reads_owned htypes hclean.2.1 hbare.2
    intro touched htouched
    have hmem : touched ∈ lhs.reads frame ∨ touched ∈ rhs.reads frame := by
      simp only [Expr.reads] at htouched
      split at htouched
      · exact List.mem_append.1 htouched
      · exact (List.mem_append.1 htouched).symm
    exact hmem.elim (hlhs touched) (hrhs touched)

theorem readsAll_owned (htypes : SameTypes table frame) : (es : List Expr) →
    (∀ e ∈ es, (e.check table).diagnostics = []) → bareLocalsAll frame es ⊆ bare →
    ∀ touched ∈ readsAll frame es, frame.Owns bare touched
  | [], _, _ => by simp [readsAll]
  | e :: rest, hclean, hbare => by
    simp only [bareLocalsAll, List.append_subset] at hbare
    simp only [readsAll, List.mem_append]
    rintro touched (htouched | htouched)
    · exact e.reads_owned htypes (hclean e (by simp)) hbare.1 touched htouched
    · exact readsAll_owned htypes rest (fun e he => hclean e (List.mem_cons_of_mem _ he)) hbare.2
        touched htouched

end

theorem Rhs.reads_owned {rhs : Rhs} (htypes : SameTypes table frame)
    (hclean : (rhs.check table span).diagnostics = []) (hbare : rhs.bareLocals frame ⊆ bare) :
    ∀ touched ∈ rhs.reads frame, frame.Owns bare touched := by
  cases rhs with
  | expr e => exact e.reads_owned htypes hclean hbare
  | array elems =>
    refine readsAll_owned htypes elems ?_ hbare
    cases elems with
    | nil => simp
    | cons first rest =>
      simp only [Rhs.check, diagnostics_bind, List.append_eq_nil_iff] at hclean
      simpa using ⟨hclean.1, checkElements_each hclean.2.1⟩
  | newPair fst snd =>
    simp only [Rhs.check, diagnostics_bind, List.append_eq_nil_iff] at hclean
    simp only [Rhs.bareLocals, List.append_subset] at hbare
    have hfst := fst.reads_owned htypes hclean.1 hbare.1
    have hsnd := snd.reads_owned htypes hclean.2.1 hbare.2
    intro touched htouched
    simp only [Rhs.reads] at htouched
    split at htouched
    · exact (List.mem_append.1 htouched).elim (hfst touched) (hsnd touched)
    · exact (List.mem_append.1 htouched).elim (hsnd touched) (hfst touched)
  | side which pair =>
    simp only [Rhs.check, diagnostics_bind, List.append_eq_nil_iff] at hclean
    exact pair.reads_owned htypes hclean.1 hbare
  | call name args => simp [Rhs.reads]

theorem Target.reads_owned {target : Target} (htypes : SameTypes table frame)
    (hclean : (target.check table span).diagnostics = []) (hbare : target.bareLocals frame ⊆ bare) :
    ∀ touched ∈ target.reads frame, frame.Owns bare touched := by
  cases target with
  | ident name => simp [Target.reads]
  | elem name indices =>
    simp only [Target.check, diagnostics_bind, List.append_eq_nil_iff] at hclean
    simp only [Target.bareLocals, List.append_subset] at hbare
    simp only [Target.reads, List.mem_append]
    rintro touched (htouched | htouched)
    · exact owns_array htypes hclean.1 hclean.2.2 hbare.1 touched htouched
    · exact readsAll_owned htypes indices (checkIndices_each hclean.2.1) hbare.2 touched htouched
  | side which pair =>
    simp only [Target.check, diagnostics_bind, List.append_eq_nil_iff] at hclean
    exact pair.reads_owned htypes hclean.1 hbare

end Reads

/-! ## §5 Touches of a function's own slots and parameters -/

/-- A place, by its distance from the saved link register, that a function may touch: a slot of its
own below the link register, or the place of a parameter, as wide as the parameter's type asks. -/
def Accounted (params : List Param) (bare : List Frame.Local) (touch : Touch) (place : Int) :
    Prop :=
  place ≤ -(slotBytes : Int) ∨ ∃ index param, params[index]? = some param ∧
    place = (slotBytes * (index + 1) : Nat) ∧
    touch.Suits param.ty (Frame.paramLocal index param ∈ bare)

/-- The variables of a function lie in its own slots or are its parameters. -/
theorem Frame.Owns.accounted {frame : Frame} {params : List Param} {bare : List Frame.Local}
    {touch : Touch} {offset : Int} (h : frame.Owns bare (touch, offset)) (hlaid : frame.Laid)
    (hparams : frame.params = (Frame.ofParams params).params) :
    Accounted params bare touch (offset - frame.depth) := by
  obtain ⟨name, l, hl, rfl, hsuits⟩ := h
  simp only [Frame.offset]
  unfold Frame.local? at hl
  rcases Option.or_eq_some_iff.1 hl with hscopes | ⟨_, hlookup⟩
  · obtain ⟨scope, hscope, hlookup⟩ := List.exists_of_findSome?_eq_some hscopes
    have hbelow : (slotBytes : Int) ≤ l.position :=
      (hlaid.scopes.bounds hscope (Frame.mem_of_lookup hlookup)).1
    exact .inl (by omega)
  · rw [hparams] at hlookup
    obtain ⟨index, param, hparam, hentry⟩ := Frame.mem_ofParams.1 (Frame.mem_of_lookup hlookup)
    obtain ⟨rfl, rfl⟩ := Prod.mk.inj hentry
    exact .inr ⟨index, param, hparam, by simp [Frame.paramLocal], hsuits⟩

end ArmCompiler
