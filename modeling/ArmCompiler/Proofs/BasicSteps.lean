import ArmCompiler.Proofs.Balance.Stmt
import ArmCompiler.Proofs.Renaming.Syntax

/-!
# Basic Steps

Every lowering is made of a few basic steps: code is emitted, a register taken or given back, a
label made, a variable looked up or declared, a scope opened around a lowering. What holds of these
and of steps one after the other holds of every lowering, so the lowering functions are gone through
here, once, and a property of them all is proved by induction on `Parallel`.

Two steps are *parallel* if they are made of the same basic steps but for the names of variables. So
the lowerings of a statement and of the renamed statement are parallel. Main statement:
`Stmt.lower_parallel`.

## Contents
- §1: parallel steps
- §2: expressions
- §3: targets and right sides
- §4: statements
-/

namespace ArmCompiler

open Instruction Lower

/-! ## §1 Parallel steps -/

/-- The error with the variable in it renamed. -/
def CompileError.rename (ρ : String → String) : CompileError → CompileError
  | .internal (.unknownVariable name) => .internal (.unknownVariable (ρ name))
  | .internal (.noSlotLeft name) => .internal (.noSlotLeft (ρ name))
  | e => e

namespace Lower

/-- Puts a value on the stack. -/
def push (width : Width) (r : Register) : Lower Unit := do
  emit (.str width r (.preIndexed .sp (-slotBytes)))
  release r
  modifyFrame (·.pushTemp slotBytes)

/-- Takes bytes off the stack. -/
def unpush (bytes : Nat) : Lower Unit := do
  emitAll [.unreserve bytes]
  modifyFrame (·.popTemp bytes)

theorem run_push (width : Width) (r : Register) (start : Resources) :
    (push width r).run start =
      .ok {
        value := ()
        resources := { start with
          pool := start.pool.release r
          frame := start.frame.pushTemp slotBytes }
        code := [.instr (.str width r (.preIndexed .sp (-slotBytes)))] } := rfl

theorem run_unpush (bytes : Nat) (start : Resources) :
    (unpush bytes).run start =
      .ok {
        value := ()
        resources := { start with frame := start.frame.popTemp bytes }
        code := [.unreserve bytes] } := rfl

/-- The two steps are made of the same basic steps, and the second has the new names of the
variables. -/
inductive Parallel (ρ : String → String) : {α : Type} → Lower α → Lower α → Prop where
  | pure {α : Type} (a : α) : Parallel ρ (Pure.pure a) (Pure.pure a)
  | bind {α β : Type} {step step' : Lower α} {next next' : α → Lower β} :
      Parallel ρ step step' → (∀ a, Parallel ρ (next a) (next' a)) →
      Parallel ρ (step >>= next) (step' >>= next')
  | fail {α : Type} {e : CompileError} : e.rename ρ = e →
      Parallel ρ (Lower.fail e : Lower α) (Lower.fail e)
  | emitAll (code : List Pseudo) : Parallel ρ (Lower.emitAll code) (Lower.emitAll code)
  | acquire : Parallel ρ Lower.acquire Lower.acquire
  /-- A change of the pool to which its size makes no difference. -/
  | modifyPool {change : RegisterPool → RegisterPool} :
      (∀ pool capacity, change { pool with capacity } = { change pool with capacity }) →
      Parallel ρ (Lower.modifyPool change) (Lower.modifyPool change)
  | freshLabel : Parallel ρ Lower.freshLabel Lower.freshLabel
  | lookup (name : String) : Parallel ρ (Lower.lookup name) (Lower.lookup (ρ name))
  | declare (name : String) (ty : Ty) :
      Parallel ρ (Lower.declare name ty) (Lower.declare (ρ name) ty)
  | push (width : Width) (r : Register) : Parallel ρ (Lower.push width r) (Lower.push width r)
  | unpush (bytes : Nat) : Parallel ρ (Lower.unpush bytes) (Lower.unpush bytes)
  | inScope (slots : Nat) {step step' : Lower Unit} : Parallel ρ step step' →
      Parallel ρ (Lower.inScope slots step) (Lower.inScope slots step')
  /-- Of the frame as a whole nothing but the depth is used. -/
  | unwind : Parallel ρ (getFrame >>= fun frame => Lower.emitAll [.unreserve frame.depth.toNat])
      (getFrame >>= fun frame => Lower.emitAll [.unreserve frame.depth.toNat])

namespace Parallel

variable {α β : Type} {ρ : String → String}

/-- Parallel steps can follow each other. -/
theorem andThen {step step' : Lower α} {next next' : Lower β} (h : step.Parallel ρ step')
    (hnext : next.Parallel ρ next') :
    (step >>= fun _ => next).Parallel ρ (step' >>= fun _ => next') :=
  h.bind fun _ => hnext

theorem emit (i : Instruction) : (Lower.emit i).Parallel ρ (Lower.emit i) := .emitAll _

theorem callRoutine (r : Routine) : (Lower.callRoutine r).Parallel ρ (Lower.callRoutine r) :=
  .emitAll _

theorem callRoutineIf (cond : Condition) (r : Routine) :
    (Lower.callRoutineIf cond r).Parallel ρ (Lower.callRoutineIf cond r) :=
  .emitAll _

theorem release (r : Register) : (Lower.release r).Parallel ρ (Lower.release r) :=
  .modifyPool fun _ _ => rfl

theorem holdReturn : Lower.holdReturn.Parallel ρ Lower.holdReturn :=
  andThen (.modifyPool fun _ _ => rfl) (.pure _)

theorem freeReturn : Lower.freeReturn.Parallel ρ Lower.freeReturn := .modifyPool fun _ _ => rfl

/-- A value is put into a fresh register. -/
theorem intoFresh (instruction : Register → Pseudo) :
    (Lower.intoFresh instruction).Parallel ρ (Lower.intoFresh instruction) := by
  apply bind acquire
  intro r
  apply andThen (.emitAll _)
  exact .pure r

end Parallel

/-- What is computed from something in the frame is computed after looking that up. -/
theorem getFrame_ofExcept {α β : Type} (found : Frame → Except CompileError α)
    (rest : α → Except CompileError β) :
    (getFrame >>= fun frame => ofExcept (found frame >>= rest)) =
      (getFrame >>= fun frame => ofExcept (found frame)) >>= fun a => ofExcept (rest a) := by
  rw [bind_assoc]
  congr 1
  funext frame
  cases found frame with
  | error e => rfl
  | ok a => exact (pure_bind a fun a => ofExcept (rest a)).symm

end Lower

/-! ## §2 Expressions -/

mutual

@[simp] theorem Expr.weight_rename (ρ : String → String) : (e : Expr) →
    (e.rename ρ).weight = e.weight
  | .unary span op operand => by
    simp only [Expr.rename, Expr.weight, operand.weight_rename ρ]
  | .binary span op lhs rhs => by
    simp only [Expr.rename, Expr.weight, lhs.weight_rename ρ, rhs.weight_rename ρ]
  | .elem span name indices => by
    simp only [Expr.rename, Expr.weight, maxWeight_renameAll ρ indices]
  | .int .. | .bool .. | .char .. | .str .. | .null .. | .ident .. => by
    simp only [Expr.rename, Expr.weight]

@[simp] theorem maxWeight_renameAll (ρ : String → String) : (elems : List Expr) →
    maxWeight (renameAll ρ elems) = maxWeight elems
  | [] => rfl
  | e :: rest => by
    simp only [renameAll, maxWeight, e.weight_rename ρ, maxWeight_renameAll ρ rest]

end

@[simp] theorem leftFirst_rename (ρ : String → String) (lhs rhs : Expr) :
    leftFirst (lhs.rename ρ) (rhs.rename ρ) = leftFirst lhs rhs := by
  simp only [leftFirst, Expr.weight_rename]

section Walk

variable {ρ : String → String}

namespace Lower

/-- An expression of which the type is not at hand is a variable, or an element of one. -/
theorem Parallel.typeOf (e : Expr) : (Lower.typeOf e).Parallel ρ (Lower.typeOf (e.rename ρ)) := by
  cases e with
  | ident span name =>
    simp only [Lower.typeOf, Expr.rename, Expr.typeIn, getFrame_ofExcept]
    exact .bind (.lookup name) fun _ => .pure _
  | elem span name indices =>
    simp only [Lower.typeOf, Expr.rename, Expr.typeIn, Frame.elementType, getFrame_ofExcept,
      length_renameAll]
    exact .bind (.lookup name) fun _ => .pure _
  | int | bool | char | str | null | unary | binary =>
    simp only [Lower.typeOf, Expr.rename, Expr.typeIn]
    exact .pure _

theorem unary_parallel (r : Register) (op : UnaryOp) : (unary r op).Parallel ρ (unary r op) := by
  cases op with
  | not | len => exact .emit _
  | neg => exact .andThen (.emit _) (.callRoutineIf _ _)
  | ord | chr => exact .pure ()

theorem divideWith_parallel (function : String) (result l r : Register) :
    (divideWith function result l r).Parallel ρ (divideWith function result l r) := by
  apply Parallel.andThen (.emit _)
  apply Parallel.andThen (.emit _)
  apply Parallel.andThen (.callRoutine _)
  exact .andThen (.emit _) (.emit _)

theorem compare_parallel (cond : Condition) (l r : Register) :
    (Lower.compare cond l r).Parallel ρ (Lower.compare cond l r) := by
  apply Parallel.andThen (.emit _)
  exact .andThen (.emit _) (.emit _)

theorem binary_parallel (l r : Register) (op : BinaryOp) :
    (binary l r op).Parallel ρ (binary l r op) := by
  cases op with
  | add | sub => exact .andThen (.emit _) (.callRoutineIf _ _)
  | mul => exact .andThen (.emit _) (.andThen (.emit _) (.callRoutineIf _ _))
  | div | mod => exact divideWith_parallel _ _ l r
  | gt | ge | lt | le | eq | ne => exact compare_parallel _ l r
  | and | or => exact .emit _

theorem index_parallel (array i : Register) (element : Ty) :
    (index array i element).Parallel ρ (index array i element) := by
  apply Parallel.andThen (.emit _)
  apply Parallel.andThen (.emit _)
  apply Parallel.andThen (.callRoutine _)
  exact .andThen (.emit _) (.emit _)

/-- The variable of an array is looked up under its new name. -/
theorem loadArray_parallel (name : String) :
    (loadArray name).Parallel ρ (loadArray (ρ name)) := by
  apply Parallel.bind (.lookup name)
  rintro ⟨offset, ty⟩
  apply Parallel.bind .acquire
  intro array
  apply Parallel.andThen (.emit _)
  exact .pure _

/-- Names do not change which operand goes first. -/
theorem inOrder_parallel (left : Bool) {a b a' b' : Lower Register} (ha : a.Parallel ρ a')
    (hb : b.Parallel ρ b') : (inOrder left a b).Parallel ρ (inOrder left a' b') := by
  cases left with
  | true =>
    apply Parallel.bind ha
    intro l
    apply Parallel.bind hb
    intro r
    exact .pure _
  | false =>
    apply Parallel.bind hb
    intro r
    apply Parallel.bind ha
    intro l
    exact .pure _

end Lower

mutual

/-- The code of a renamed expression in a renamed frame is that of the expression. -/
theorem Expr.lower_parallel : (e : Expr) →
    e.lower.Parallel ρ (e.rename ρ).lower
  | .int span text => by
    simp only [Expr.rename, Expr.lower]
    split
    · exact .intoFresh _
    · exact .fail rfl
  | .bool .. | .char .. | .str .. | .null .. => by
    simp only [Expr.rename, Expr.lower]
    exact .intoFresh _
  | .ident span name => by
    simp only [Expr.rename, Expr.lower]
    apply Parallel.bind (.lookup name)
    rintro ⟨offset, ty⟩
    exact .intoFresh _
  | .elem span name indices => by
    simp only [Expr.rename, Expr.lower]
    apply Parallel.bind (loadArray_parallel name)
    rintro ⟨array, ty⟩
    apply Parallel.bind (lowerIndices_parallel array ty indices)
    intro element
    apply Parallel.andThen (.emit _)
    exact .pure array
  | .unary span op operand => by
    simp only [Expr.rename, Expr.lower]
    apply Parallel.bind operand.lower_parallel
    intro r
    apply Parallel.andThen (unary_parallel r op)
    exact .pure r
  | .binary span op lhs rhs => by
    -- The heavier operand goes first, and names have no weight.
    simp only [Expr.rename, Expr.lower_binary, leftFirst_rename]
    apply Parallel.bind (inOrder_parallel _ lhs.lower_parallel rhs.lower_parallel)
    rintro ⟨l, r⟩
    apply Parallel.andThen (binary_parallel l r op)
    apply Parallel.andThen (.release r)
    exact .pure l

/-- The same for indices, from the outermost on. -/
theorem lowerIndices_parallel (array : Register) (ty : Ty) :
    (indices : List Expr) →
    (lowerIndices array ty indices).Parallel ρ (lowerIndices array ty (renameAll ρ indices))
  | [] => by
    simp only [renameAll, lowerIndices]
    exact .pure ty
  | i :: rest => by
    have hlast : (renameAll ρ rest).isEmpty = rest.isEmpty := by
      cases rest <;> simp [renameAll]
    simp only [renameAll, lowerIndices, hlast]
    apply Parallel.bind i.lower_parallel
    intro r
    apply Parallel.andThen (index_parallel array r _)
    apply Parallel.andThen (.release r)
    cases rest.isEmpty with
    | true => exact lowerIndices_parallel array _ rest
    | false =>
      apply Parallel.andThen (.emit _)
      exact lowerIndices_parallel array _ rest

end

/-! ## §3 Targets and right sides -/

namespace Lower

theorem sideAddress_parallel (side : Side) (pair : Expr) :
    (sideAddress side pair).Parallel ρ (sideAddress side (pair.rename ρ)) := by
  apply Parallel.bind pair.lower_parallel
  intro r
  apply Parallel.andThen (.emit _)
  apply Parallel.andThen (.callRoutine _)
  apply Parallel.andThen (.emit _)
  exact .pure r

theorem elementAddress_parallel (name : String) (indices : List Expr) :
    (elementAddress name indices).Parallel ρ
      (elementAddress (ρ name) (renameAll ρ indices)) := by
  apply Parallel.bind (loadArray_parallel name)
  rintro ⟨array, ty⟩
  apply Parallel.bind (lowerIndices_parallel array ty indices)
  intro element
  exact .pure _

theorem callMalloc_parallel (bytes : Int32) :
    (callMalloc bytes).Parallel ρ (callMalloc bytes) :=
  .andThen (.emit _) (.emit _)

theorem allocate_parallel (bytes : Int32) :
    (allocate bytes).Parallel ρ (allocate bytes) := by
  apply Parallel.andThen (callMalloc_parallel bytes)
  exact .intoFresh _

theorem literalElementType_parallel (target : Ty) (elems : List Expr) :
    (literalElementType target elems).Parallel ρ
      (literalElementType target (renameAll ρ elems)) := by
  unfold literalElementType
  dsimp only
  split
  · exact .pure _
  · cases elems with
    | nil => exact .pure _
    | cons first rest => exact .typeOf first

/-- The elements of a literal are stored from the first on. -/
theorem storeElements_parallel (array : Register) (ty : Ty) (index : Nat)
    (elems : List Expr) :
    (storeElements array ty index elems).Parallel ρ
      (storeElements array ty index (renameAll ρ elems)) := by
  induction elems generalizing index with
  | nil => exact .pure ()
  | cons elem rest ih =>
    apply Parallel.bind elem.lower_parallel
    intro value
    apply Parallel.andThen (.emit _)
    apply Parallel.andThen (.release value)
    exact ih (index + 1)

theorem arrayLiteral_parallel (target : Ty) (elems : List Expr) :
    (arrayLiteral target elems).Parallel ρ (arrayLiteral target (renameAll ρ elems)) := by
  simp only [arrayLiteral, length_renameAll]
  apply Parallel.bind (literalElementType_parallel target elems)
  intro ty
  apply Parallel.bind (allocate_parallel _)
  intro array
  apply Parallel.andThen (storeElements_parallel array ty 0 elems)
  apply Parallel.bind (.intoFresh _)
  intro length
  apply Parallel.andThen (.emit _)
  apply Parallel.andThen (.release length)
  exact .pure array

theorem storeSide_parallel (pair : Register) (side : Side) (value : Register) :
    (storeSide pair side value).Parallel ρ (storeSide pair side value) := by
  apply Parallel.andThen (callMalloc_parallel _)
  apply Parallel.andThen (.emit _)
  apply Parallel.andThen (.emit _)
  exact .release value

theorem newPair_parallel (fst snd : Expr) :
    (newPair fst snd).Parallel ρ (newPair (fst.rename ρ) (snd.rename ρ)) := by
  simp only [newPair_eq, leftFirst_rename]
  apply Parallel.bind (inOrder_parallel _ fst.lower_parallel snd.lower_parallel)
  rintro ⟨a, b⟩
  apply Parallel.bind (allocate_parallel _)
  intro pair
  apply Parallel.andThen (storeSide_parallel pair .fst a)
  apply Parallel.andThen (storeSide_parallel pair .snd b)
  exact .pure pair

theorem argType_parallel (params : List Param) (arg : Expr) :
    (argType params arg).Parallel ρ (argType (params.map (·.rename ρ)) (arg.rename ρ)) := by
  cases params with
  | nil => exact .typeOf arg
  | cons param rest => exact .pure param.ty

/-- Arguments are pushed from the last on. -/
theorem pushArgs_parallel (params : List Param) (args : List Expr) :
    (pushArgs params args).Parallel ρ
      (pushArgs (params.map (·.rename ρ)) (renameAll ρ args)) := by
  induction args generalizing params with
  | nil => cases params <;> exact .pure ()
  | cons arg rest ih =>
    simp only [renameAll, pushArgs_cons, ← List.map_tail]
    apply Parallel.andThen (ih params.tail)
    apply Parallel.bind (argType_parallel params arg)
    intro ty
    apply Parallel.bind arg.lower_parallel
    intro r
    exact .push ty.width r

/-- The name of the function is that of no variable, so it stays. -/
theorem callFunction_parallel (table : SymbolTable) (name : String)
    (args : List Expr) :
    (callFunction table name args).Parallel ρ
      (callFunction (table.rename ρ) name (renameAll ρ args)) := by
  simp only [callFunction, SymbolTable.function?_rename, length_renameAll]
  cases table.function? name with
  | none => exact .fail rfl
  | some signature =>
    apply Parallel.andThen (pushArgs_parallel signature.params args)
    apply Parallel.andThen (.emit _)
    rw [← bind_assoc]
    apply Parallel.andThen (.unpush _)
    apply Parallel.bind .holdReturn
    intro ret
    apply Parallel.bind (.intoFresh _)
    intro result
    apply Parallel.andThen .freeReturn
    exact .pure result

end Lower

/-- The code of a renamed right side is that of the right side. -/
theorem Rhs.lower_parallel (table : SymbolTable) (target : Ty) (rhs : Rhs) :
    (rhs.lower table target).Parallel ρ ((rhs.rename ρ).lower (table.rename ρ) target) := by
  cases rhs with
  | expr e => exact e.lower_parallel
  | array elems => exact arrayLiteral_parallel target elems
  | newPair fst snd => exact newPair_parallel fst snd
  | side which pair =>
    apply Parallel.bind (sideAddress_parallel which pair)
    intro r
    apply Parallel.andThen (.emit _)
    exact .pure r
  | call name args => exact callFunction_parallel table name args

/-- Looking up what a target stores. -/
theorem Target.typeIn_parallel (target : Target) :
    (getFrame >>= fun frame => ofExcept (target.typeIn frame)).Parallel ρ
      (getFrame >>= fun frame => ofExcept ((target.rename ρ).typeIn frame)) := by
  cases target with
  | ident name => exact .typeOf (.ident {} name)
  | elem name indices => exact .typeOf (.elem {} name indices)
  | side which pair =>
    simp only [rename, typeIn, Expr.sideTypeIn, getFrame_ofExcept]
    apply Parallel.bind (.typeOf pair)
    intro ty
    cases ty.side? which with
    | some sideTy => exact .pure sideTy
    | none => exact .fail rfl

theorem Target.width_rename (ty : Ty) (target : Target) :
    (target.rename ρ).width ty = target.width ty := by
  cases target <;> rfl

/-- A renamed target has the same place. -/
theorem Target.place_parallel (target : Target) :
    target.place.Parallel ρ (target.rename ρ).place := by
  cases target with
  | ident name =>
    apply Parallel.bind (.lookup name)
    rintro ⟨offset, _⟩
    exact .pure _
  | elem name indices =>
    apply Parallel.bind (elementAddress_parallel name indices)
    rintro ⟨r, _⟩
    exact .pure _
  | side which pair =>
    apply Parallel.bind (sideAddress_parallel which pair)
    intro r
    exact .pure _

theorem Place.release_parallel (place : Place) : place.release.Parallel ρ place.release := by
  cases place with
  | stack offset => exact .pure ()
  | computed r => exact .release r

/-! ## §4 Statements -/

namespace Lower

theorem placeAddress_parallel (place : Place) :
    (placeAddress place).Parallel ρ (placeAddress place) := by
  cases place with
  | stack offset => exact .intoFresh _
  | computed r => exact .pure r

theorem printValue_parallel (e : Expr) :
    (printValue e).Parallel ρ (printValue (e.rename ρ)) := by
  apply Parallel.bind (.typeOf e)
  intro ty
  apply Parallel.bind e.lower_parallel
  intro r
  apply Parallel.andThen (.emit _)
  apply Parallel.andThen (.release r)
  exact .callRoutine _

theorem testCondition_parallel (cond : Expr) (value : Int) :
    (testCondition cond value).Parallel ρ (testCondition (cond.rename ρ) value) := by
  apply Parallel.bind cond.lower_parallel
  intro r
  apply Parallel.andThen (.emit _)
  exact .release r

theorem loopBack_parallel (cond : Expr) (top : String) :
    (loopBack cond top).Parallel ρ (loopBack (cond.rename ρ) top) := by
  apply Parallel.andThen (testCondition_parallel cond 1)
  exact .emit _

end Lower

/-- A renamed statement declares as many variables. -/
@[simp] theorem Stmt.slots_rename (s : Stmt) : (s.rename ρ).slots = s.slots := by
  induction s with
  | seq span first second ihFirst ihSecond => rw [rename, slots, slots, ihFirst, ihSecond]
  | skip | declare | assign | increment | read | free | ret | exit | print | println | ifThen
  | ifElse | whileDo | doWhile | forLoop | block => rfl

/-- The code of a renamed statement in a renamed frame is that of the statement. -/
theorem Stmt.lower_parallel (table : SymbolTable) (s : Stmt) :
    (s.lower table).Parallel ρ ((s.rename ρ).lower (table.rename ρ)) := by
  -- Each case follows the lowering step by step. Where a step yields a value, what comes next is
  -- parallel for all of them.
  induction s with
  | skip span => exact .pure ()
  | declare span ty name rhs =>
    apply Parallel.bind (rhs.lower_parallel table ty)
    intro value
    apply Parallel.bind (.declare name ty)
    intro offset
    apply Parallel.andThen (.emit _)
    exact .release value
  | assign span target rhs =>
    simp only [rename, lower, Target.width_rename]
    rw [← bind_assoc, ← bind_assoc]
    apply Parallel.bind target.typeIn_parallel
    intro ty
    apply Parallel.bind (rhs.lower_parallel table ty)
    intro value
    apply Parallel.bind target.place_parallel
    intro place
    apply Parallel.andThen (.emit _)
    apply Parallel.andThen place.release_parallel
    exact .release value
  | increment span name =>
    apply Parallel.bind (.lookup name)
    rintro ⟨offset, _⟩
    apply Parallel.bind .acquire
    intro r
    apply Parallel.andThen (.emit _)
    apply Parallel.andThen (.emit _)
    apply Parallel.andThen (.callRoutineIf _ _)
    apply Parallel.andThen (.emit _)
    exact .release r
  | read span target =>
    simp only [rename, lower]
    rw [← bind_assoc, ← bind_assoc]
    apply Parallel.bind target.typeIn_parallel
    intro ty
    apply Parallel.bind target.place_parallel
    intro place
    apply Parallel.bind (placeAddress_parallel place)
    intro r
    apply Parallel.andThen (.emit _)
    apply Parallel.andThen (.release r)
    exact .callRoutine _
  | free span e =>
    apply Parallel.bind e.lower_parallel
    intro r
    apply Parallel.andThen (.emit _)
    apply Parallel.andThen (.release r)
    exact .callRoutine _
  | ret span e =>
    apply Parallel.bind e.lower_parallel
    intro r
    apply Parallel.bind .holdReturn
    intro ret
    apply Parallel.andThen (.emit _)
    apply Parallel.andThen (.release r)
    rw [← bind_assoc]
    apply Parallel.andThen .unwind
    apply Parallel.andThen (.emit _)
    exact .freeReturn
  | exit span e =>
    apply Parallel.bind e.lower_parallel
    intro r
    apply Parallel.bind .holdReturn
    intro ret
    apply Parallel.andThen (.emit _)
    apply Parallel.andThen (.emit _)
    apply Parallel.andThen .freeReturn
    apply Parallel.andThen (.release r)
    exact .emit _
  | print span e => exact printValue_parallel e
  | println span e =>
    apply Parallel.andThen (printValue_parallel e)
    exact .callRoutine _
  | ifThen span cond arm ih =>
    simp only [rename, lower, slots_rename]
    apply Parallel.bind .freshLabel
    intro done
    apply Parallel.andThen (testCondition_parallel cond 0)
    apply Parallel.andThen (.emit _)
    apply Parallel.andThen (.inScope _ ih)
    exact .emit _
  | ifElse span cond thenArm elseArm ihThen ihElse =>
    simp only [rename, lower, slots_rename]
    apply Parallel.bind .freshLabel
    intro done
    apply Parallel.andThen (testCondition_parallel cond 0)
    apply Parallel.bind .freshLabel
    intro otherwise
    apply Parallel.andThen (.emit _)
    apply Parallel.andThen (.inScope _ ihThen)
    apply Parallel.andThen (.emit _)
    apply Parallel.andThen (.emit _)
    apply Parallel.andThen (.inScope _ ihElse)
    exact .emit _
  | whileDo span cond body ih =>
    simp only [rename, lower, slots_rename]
    apply Parallel.bind .freshLabel
    intro check
    apply Parallel.bind .freshLabel
    intro top
    apply Parallel.andThen (.emit _)
    apply Parallel.andThen (.emit _)
    apply Parallel.andThen (.inScope _ ih)
    apply Parallel.andThen (.emit _)
    exact loopBack_parallel cond top
  | doWhile span body cond ih =>
    simp only [rename, lower, slots_rename]
    apply Parallel.bind .freshLabel
    intro top
    apply Parallel.andThen (.emit _)
    apply Parallel.andThen (.inScope _ ih)
    exact loopBack_parallel cond top
  | forLoop span init cond step body ihInit ihStep ihBody =>
    simp only [rename, lower, slots_rename]
    apply Parallel.inScope
    apply Parallel.andThen ihInit
    apply Parallel.bind .freshLabel
    intro check
    apply Parallel.bind .freshLabel
    intro top
    apply Parallel.andThen (.emit _)
    apply Parallel.andThen (.emit _)
    apply Parallel.andThen (.inScope _ ihBody)
    apply Parallel.andThen ihStep
    apply Parallel.andThen (.emit _)
    exact loopBack_parallel cond top
  | block span body ih =>
    simp only [rename, lower, slots_rename]
    exact .inScope _ ih
  | seq span first second ihFirst ihSecond =>
    apply Parallel.andThen ihFirst
    exact ihSecond

/-- The same for a body in the scope of its own. -/
theorem Stmt.lowerBody_parallel (table : SymbolTable) (body : Stmt) :
    (body.lowerBody table).Parallel ρ ((body.rename ρ).lowerBody (table.rename ρ)) := by
  rw [lowerBody, lowerBody, slots_rename]
  exact .inScope _ (body.lower_parallel table)

end Walk

end ArmCompiler
