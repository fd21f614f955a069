import ArmCompiler.Routine

/-!
# Buffers

A buffer is the form in which a program is kept while it is put together. Unlike a listing, it is
never searched: beside the sequences it keeps the position of each name, beside the texts the
number of each text, and what is open is a stack of positions. Nothing in the type keeps these in
step with each other.

An edit changes the buffer as it goes. One that fails leaves the buffer as it has become by then.

## Contents
- §1: buffers and edits
- §2: emitting, opening and closing
- §3: interned texts
- §4: routines
- §5: the written program
-/

namespace ArmCompiler

/-! ## §1 Buffers and edits -/

/-- A program under construction, with the tables that find its parts. -/
structure Buffer where
  header : List Instruction := [.directive .textSection, .directive (.global "main")]
  /-- The sequences in the order they were opened. -/
  sequences : List Sequence := []
  /-- The position of each name among the sequences. -/
  positions : List (String × Nat) := []
  /-- The positions of the open sequences, innermost first. -/
  opened : List Nat := []
  /-- The interned texts in the order of first use. -/
  messages : List String := []
  /-- The number of each text among the interned ones. -/
  numbers : List (String × Nat) := []
  deriving DecidableEq, Repr

/-- A change of a buffer, with an answer or an error. Either comes with a buffer. -/
abbrev Edit := EStateM CompileError Buffer

namespace Buffer

/-- The buffer after an edit, whether or not the edit failed. -/
def after {α : Type} (buffer : Buffer) (edit : Edit α) : Buffer :=
  match edit.run buffer with
  | .ok _ edited => edited
  | .error _ edited => edited

/-! ## §2 Emitting, opening and closing -/

/-- Whether there is a sequence of a name. -/
def has (buffer : Buffer) (name : String) : Bool := (buffer.positions.lookup name).isSome

/-- The sequence of a name. -/
def sequence? (buffer : Buffer) (name : String) : Option Sequence :=
  (buffer.positions.lookup name).bind fun position => buffer.sequences[position]?

/-- The names of the sequences in the order they were opened. -/
def names (buffer : Buffer) : List String := buffer.sequences.map (·.name)

/-- Appends an instruction to the innermost open sequence, or to the header if none is open. -/
def emit (i : Instruction) : Edit Unit :=
  modify fun buffer =>
    match buffer.opened with
    | [] => { buffer with header := buffer.header ++ [i] }
    | position :: _ =>
      { buffer with sequences := buffer.sequences.modify position (·.append [i]) }

/-- Appends instructions. -/
def emitAll (code : List Instruction) : Edit Unit := code.forM emit

/-- Opens a sequence. A name can be used only once. -/
def start (name : String) (savesLink : Bool) : Edit Unit := do
  let buffer ← get
  if buffer.has name then
    throw (.internal (.duplicateSequence name))
  let position := buffer.sequences.length
  let grown : Buffer := { buffer with
    sequences := buffer.sequences ++ [{ name, code := [] }]
    positions := (name, position) :: buffer.positions
    opened := position :: buffer.opened }
  set grown
  emit (.label name)
  if savesLink then
    emit (.push .lr)

/-- Closes the innermost open sequence. -/
def finish (ending : Ending) : Edit Unit := do
  if (← get).opened.isEmpty then
    throw (.internal .noOpenSequence)
  emitAll ending.code
  modify fun buffer => { buffer with opened := buffer.opened.tail }

/-! ## §3 Interned texts -/

/-- The label of a text, which is stored unless it is stored already. -/
def intern (text : String) : Edit String := do
  let buffer ← get
  match buffer.numbers.lookup text with
  | some number => return Listing.labelAt number
  | none =>
    let number := buffer.messages.length
    let grown : Buffer := { buffer with
      messages := buffer.messages ++ [text]
      numbers := (text, number) :: buffer.numbers }
    set grown
    return Listing.labelAt number

/-! ## §4 Routines -/

/-- The labels of texts, as a function that answers for these texts only. -/
def labelling (texts labels : List String) (text : String) : String :=
  ((texts.zip labels).lookup text).getD ""

/-- Adds the sequence of a routine. Its texts are interned before the sequence is opened, and its
code loads the labels they got. -/
def define (r : Routine) : Edit Unit := do
  let labels ← r.texts.mapM intern
  start r.label r.returns
  emitAll (r.body (labelling r.texts labels))
  finish r.ending

/-- Adds the routines of a chain up to the first one that is there already. -/
def requireChain : List Routine → Edit Unit
  | [] => return
  | r :: rest => do
    unless (← get).has r.label do
      define r
      requireChain rest

/-- Makes sure that a routine and those it calls are in the buffer. The answer is the label to
call. -/
def require (r : Routine) : Edit String := do
  requireChain r.chain
  return r.label

/-! ## §5 The written program -/

/-- All lines of the program: the header, the sequences in the order they were opened, and the
data section if there are texts. -/
def instructions (buffer : Buffer) : List Instruction :=
  buffer.header ++ buffer.sequences.flatMap (·.code) ++
    if buffer.messages.isEmpty then []
    else .directive .dataSection :: (buffer.messages.mapIdx Listing.messageEntry).flatten

/-- The text of the program. -/
def render (buffer : Buffer) : String :=
  String.join (buffer.instructions.map (·.line))

end Buffer

end ArmCompiler
