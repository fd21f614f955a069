import ArmCompiler.Frame

/-!
# Stack Frames in Words

A frame as it is kept in signed 32-bit words: depths, positions and sizes are words, the count of
slots that a scope is opened for is cut to a word, and every sum and product wraps around. A frame
without bounds, as code generation uses it, is this one as long as nothing leaves the range of a
word.

A scope knows where its slots begin and end and how far they are taken. The parameters are the
variables of an outermost scope without slots, which is never closed.
-/

namespace ArmCompiler

/-- An open scope: the depth at which its slots begin, the depth down to which they are taken, the
depth at which they end, and the variables declared in it so far, latest first. -/
structure WordFrame.Scope where
  base : Int32 := 0
  next : Int32 := base
  limit : Int32 := base
  entries : List (String × Int32 × Ty) := []
  deriving DecidableEq, Repr

/-- A stack frame: the outermost scope, the scopes opened in it from the inside out, and the
depth. -/
structure WordFrame where
  root : WordFrame.Scope := {}
  scopes : List WordFrame.Scope := []
  depth : Int32 := 0
  deriving DecidableEq, Repr

namespace WordFrame

/-- The frame at the entry of a function. The first parameter lies next to the saved link register.
Of two parameters with one name the later counts. -/
def ofParams (params : List Param) : WordFrame :=
  let place (placed : Int32 × List (String × Int32 × Ty)) (param : Param) :=
    (placed.1 - slotWord, (param.name, placed.1, param.ty) :: placed.2)
  { root := { entries := (params.foldl place (-slotWord, [])).2 } }

/-- Opens a scope for a number of variables. The answer is how many bytes it reserved. -/
def openScope (frame : WordFrame) (slots : Nat) : Int32 × WordFrame :=
  let bytes := slotWord * Int32.ofNat slots
  let depth := frame.depth + bytes
  (bytes, { frame with
    scopes := { base := frame.depth, limit := depth } :: frame.scopes
    depth })

/-- Closes the innermost scope. The answer is how many bytes it gives back. -/
def closeScope (frame : WordFrame) : Int32 × WordFrame :=
  match frame.scopes with
  | [] => (0, frame)
  | scope :: outer =>
    let bytes := scope.limit - scope.base
    (bytes, { frame with scopes := outer, depth := frame.depth - bytes })

/-- The innermost scope. -/
def innermost (frame : WordFrame) : Scope := frame.scopes.headD frame.root

/-- The frame with another innermost scope. -/
def setInnermost (frame : WordFrame) (scope : Scope) : WordFrame :=
  match frame.scopes with
  | [] => { frame with root := scope }
  | _ :: outer => { frame with scopes := scope :: outer }

/-- Gives a variable the next slot of the innermost scope, if one is left. The answer is its
distance from the stack pointer. -/
def declare (name : String) (ty : Ty) : EStateM CompileError WordFrame Int32 := do
  let frame ← get
  let scope := frame.innermost
  let position := scope.next + slotWord
  if scope.limit < position then
    throw (.internal (.noSlotLeft name))
  set (frame.setInnermost { scope with
    next := position
    entries := (name, position, ty) :: scope.entries })
  return frame.depth - position

/-- The distance from the stack pointer and the type of a variable, as its innermost declaration
gives them. -/
def lookup? (frame : WordFrame) (name : String) : Option (Int32 × Ty) :=
  ((frame.scopes ++ [frame.root]).findSome? fun scope => scope.entries.lookup name).map
    fun (position, ty) => (frame.depth - position, ty)

/-- Counts bytes that were pushed below everything on the stack. -/
def pushTemp (frame : WordFrame) (bytes : Int32) : WordFrame :=
  { frame with depth := frame.depth + bytes }

/-- Counts bytes that were taken off the stack again. -/
def popTemp (frame : WordFrame) (bytes : Int32) : WordFrame :=
  { frame with depth := frame.depth - bytes }

end WordFrame

end ArmCompiler
