import ArmCompiler.Error

/-!
# Stack Frames

Where the variables of a function live on the stack.

Positions are counted in bytes downwards from the word in which the link register is saved.
Parameters lie above that word and have negative positions. Every variable takes one slot of
four bytes, whatever its type. Each scope reserves its slots when it is opened and hands them
out in the order of the declarations.

The *depth* is how far the stack pointer is below the saved link register, so a variable at
position `p` is found `depth - p` bytes above the stack pointer. This stays right while call
arguments are pushed, since the frame counts them into the depth.

Depths and positions have no bounds here. A frame of code that runs keeps them in words, which is
the same as long as the depth is in the range of a word.
-/

namespace ArmCompiler

/-- Bytes per stack slot. -/
def slotBytes : Nat := 4

/-- Bytes per stack slot, as a signed word. -/
def slotWord : Int32 := Int32.ofNat slotBytes

/-- A variable's place and type. -/
structure Frame.Local where
  position : Int
  ty : Ty
  deriving DecidableEq, Repr

/-- An open scope: the depth at which its slots begin, how many it reserved, and the variables
declared in it so far, latest first. -/
structure Frame.Scope where
  base : Int
  slots : Int
  locals : List (String × Frame.Local) := []
  deriving DecidableEq, Repr

/-- A stack frame: the parameters, the open scopes from the inside out, and the depth. Where a
name occurs twice among the parameters the first entry counts. -/
structure Frame where
  params : List (String × Frame.Local) := []
  scopes : List Frame.Scope := []
  depth : Int := 0
  deriving DecidableEq, Repr

namespace Frame

/-- The place of the parameter at an index. The caller pushes the last parameter first, so the
first one lies next to the saved link register. -/
def paramLocal (index : Nat) (param : Param) : Local :=
  { position := -(slotBytes * (index + 1) : Nat), ty := param.ty }

/-- The frame at the entry of a function. Of two parameters with one name the later counts. -/
def ofParams (params : List Param) : Frame :=
  { params := (params.mapIdx fun index param => (param.name, paramLocal index param)).reverse }

/-- Opens a scope with room for `slots` variables, below everything on the stack. -/
def openScope (frame : Frame) (slots : Int) : Frame :=
  { frame with
    scopes := { base := frame.depth, slots } :: frame.scopes
    depth := frame.depth + slotBytes * slots }

/-- The bytes that the innermost scope reserved. -/
def scopeBytes (frame : Frame) : Int :=
  match frame.scopes with
  | [] => 0
  | scope :: _ => slotBytes * scope.slots

/-- Closes the innermost scope and gives its bytes back. -/
def closeScope (frame : Frame) : Frame :=
  { frame with scopes := frame.scopes.tail, depth := frame.depth - frame.scopeBytes }

@[simp] theorem closeScope_openScope (frame : Frame) (slots : Int) :
    (frame.openScope slots).closeScope = frame := by
  simp [openScope, closeScope, scopeBytes]

/-- The distance of a place from the stack pointer. -/
def offset (frame : Frame) (l : Local) : Int := frame.depth - l.position

/-- Gives a variable the next slot of the innermost scope, if one is left. -/
def declare (frame : Frame) (name : String) (ty : Ty) : Except CompileError (Int × Frame) :=
  match frame.scopes with
  | [] => .error (.internal (.noSlotLeft name))
  | scope :: rest =>
    if scope.locals.length < scope.slots then
      let position := scope.base + (slotBytes * (scope.locals.length + 1) : Nat)
      let l : Local := { position, ty }
      let scope := { scope with locals := (name, l) :: scope.locals }
      .ok (frame.offset l, { frame with scopes := scope :: rest })
    else
      .error (.internal (.noSlotLeft name))

/-- The place and type of a variable, as its innermost declaration gives them. -/
def local? (frame : Frame) (name : String) : Option Local :=
  (frame.scopes.findSome? fun scope => scope.locals.lookup name).or (frame.params.lookup name)

/-- The distance from the stack pointer and the type of a variable. -/
def lookup? (frame : Frame) (name : String) : Option (Int × Ty) :=
  (frame.local? name).map fun l => (frame.offset l, l.ty)

/-- Counts bytes that were pushed below everything on the stack. -/
def pushTemp (frame : Frame) (bytes : Int) : Frame :=
  { frame with depth := frame.depth + bytes }

/-- Counts bytes that were taken off the stack again. -/
def popTemp (frame : Frame) (bytes : Int) : Frame :=
  { frame with depth := frame.depth - bytes }

@[simp] theorem popTemp_pushTemp (frame : Frame) (bytes : Int) :
    (frame.pushTemp bytes).popTemp bytes = frame := by
  simp [pushTemp, popTemp]

/-- Pushed bytes move every variable away from the stack pointer by their number. -/
theorem lookup?_pushTemp (frame : Frame) (bytes : Int) (name : String) :
    (frame.pushTemp bytes).lookup? name =
      (frame.lookup? name).map fun (offset, ty) => (offset + bytes, ty) := by
  simp only [lookup?, local?, pushTemp, offset, Option.map_map]
  congr 1
  funext l
  simp only [Function.comp_apply]
  congr 1
  omega

end Frame

end ArmCompiler
