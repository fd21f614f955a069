import ArmCompiler.Lowering.Expr
import ArmCompiler.SymbolTable

/-!
# Lowering Targets and Right Sides

Arrays and pairs live on the heap. An array is its length followed by its elements. A pair is
two addresses of boxes, and each box is a word that holds one side, whatever its type.
-/

namespace ArmCompiler

open Instruction Lower

namespace Lower

/-- The address of the box that holds one side of a pair. Using the null pair ends the
program. -/
def sideAddress (side : Side) (pair : Expr) : Lower Register := do
  let r ← pair.lower
  emit (move .r0 r)
  callRoutine .checkNullPointer
  emit (load r (.offset r (side.pick 0 (slotBytes : Int))))
  pure r

/-- The address of an array element, and the element's type. -/
def elementAddress (name : String) (indices : List Expr) : Lower (Register × Ty) := do
  let (array, ty) ← loadArray name
  let ty ← lowerIndices array ty indices
  pure (array, ty)

/-- Asks the library for a heap block. Its address is left in `r0`. -/
def callMalloc (bytes : Int32) : Lower Unit := do
  emit (loadConst .r0 bytes.toInt)
  emit (call "malloc")

/-- Allocates a heap block and brings its address into a free register. -/
def allocate (bytes : Int32) : Lower Register := do
  callMalloc bytes
  intoFresh fun r => .instr (move r .r0)

/-! ## Array literals -/

/-- The type of the elements of an array literal: what the target says, or, if that says
nothing, the type of the first element. -/
def literalElementType (target : Ty) (elems : List Expr) : Lower Ty :=
  let ty := target.element
  if ty.isValid && !ty.isAny then
    pure ty
  else
    match elems with
    | first :: _ => typeOf first
    | [] => pure .int

/-- How far from the start of an array the element at an index begins, and the one before it ends.
This is reckoned in signed words, which wrap around. -/
def elementOffset (size index : Nat) : Int32 :=
  slotWord + Int32.ofNat index * Int32.ofNat size

/-- Stores elements one after the other, the first at a place `index` of the array. -/
def storeElements (array : Register) (ty : Ty) (index : Nat) : List Expr → Lower Unit
  | [] => pure ()
  | elem :: rest => do
    let value ← elem.lower
    emit (.str ty.width value (.offset array (elementOffset ty.size index).toInt))
    release value
    storeElements array ty (index + 1) rest

/-- Builds an array. The length is stored last. -/
def arrayLiteral (target : Ty) (elems : List Expr) : Lower Register := do
  let ty ← literalElementType target elems
  let array ← allocate (elementOffset ty.size elems.length)
  storeElements array ty 0 elems
  let length ← intoFresh fun r => .instr (loadConst r (Int32.ofNat elems.length).toInt)
  emit (store length (.held array))
  release length
  pure array

/-! ## Pairs -/

/-- Puts a value into a new box and the box's address into a pair. -/
def storeSide (pair : Register) (side : Side) (value : Register) : Lower Unit := do
  callMalloc slotWord
  emit (store value (.held .r0))
  emit (store .r0 (.offset pair (side.pick 0 (slotBytes : Int))))
  release value

/-- Builds a pair. The heavier side is evaluated first. -/
def newPair (fst snd : Expr) : Lower Register := do
  let (a, b) ← if leftFirst fst snd then do
      let a ← fst.lower
      let b ← snd.lower
      pure (a, b)
    else do
      let b ← snd.lower
      let a ← fst.lower
      pure (a, b)
  let pair ← allocate (2 * slotWord)
  storeSide pair .fst a
  storeSide pair .snd b
  pure pair

/-! ## Calls -/

/-- The label of a user function. -/
def functionLabel (name : String) : String := "f_" ++ name

/-- Pushes arguments from the last to the first, each into a slot of its own. An argument is
stored as wide as its parameter, a surplus one as wide as itself. -/
def pushArgs : List Param → List Expr → Lower Unit
  | _, [] => pure ()
  | params, arg :: args => do
    pushArgs params.tail args
    let ty ← match params with
      | param :: _ => pure param.ty
      | [] => typeOf arg
    let r ← arg.lower
    emit (.str ty.width r (.preIndexed .sp (-(slotBytes : Int))))
    release r
    modifyFrame (·.pushTemp slotBytes)

/-- Calls a user function. -/
def callFunction (table : SymbolTable) (name : String) (args : List Expr) : Lower Register := do
  match table.function? name with
  | none => fail (.internal (.unknownFunction name))
  | some signature =>
    pushArgs signature.params args
    let pushed := slotBytes * args.length
    emit (call (functionLabel name))
    emitAll [.unreserve pushed]
    modifyFrame (·.popTemp pushed)
    let ret ← holdReturn
    let result ← intoFresh fun r => .instr (move r ret)
    freeReturn
    pure result

end Lower

/-- Brings the value of a right side into a free register. The type is that of the target. -/
def Rhs.lower (table : SymbolTable) (target : Ty) : Rhs → Lower Register
  | .expr e => e.lower
  | .array elems => arrayLiteral target elems
  | .newPair fst snd => Lower.newPair fst snd
  | .side which pair => do
    let r ← sideAddress which pair
    emit (load r (.held r))
    pure r
  | .call name args => callFunction table name args

/-! ## Targets -/

/-- The type of what a target stores. -/
def Target.typeIn (frame : Frame) : Target → Except CompileError Ty
  | .ident name => do
    let (_, ty) ← frame.find name
    .ok ty
  | .elem name indices => frame.elementType name indices.length
  | .side which pair => pair.sideTypeIn frame which

/-- Where a target lies: at a distance from the stack pointer, or at an address that was
computed into a register. -/
inductive Place where
  | stack (offset : Int)
  | computed (r : Register)
  deriving DecidableEq, Repr

/-- The address of a place. -/
def Place.address : Place → Address
  | .stack offset => .offset .sp offset
  | .computed r => .held r

/-- Gives back the register that a place takes up. -/
def Place.release : Place → Lower Unit
  | .stack _ => pure ()
  | .computed r => Lower.release r

/-- Finds the place of a target. -/
def Target.place : Target → Lower Place
  | .ident name => do
    let (offset, _) ← Lower.lookup name
    pure (.stack offset)
  | .elem name indices => do
    let (r, _) ← elementAddress name indices
    pure (.computed r)
  | .side which pair => do
    let r ← sideAddress which pair
    pure (.computed r)

/-- How much a store to the target moves, given the type of what it stores. A side of a pair is
always a whole word. -/
def Target.width (ty : Ty) : Target → Width
  | .side _ _ => .word
  | .ident _ | .elem _ _ => ty.width

end ArmCompiler
