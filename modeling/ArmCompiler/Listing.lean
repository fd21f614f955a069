import ArmCompiler.Arm.Printer
import ArmCompiler.Error
import ArmCompiler.Literal.Escape

/-!
# Listings

A listing is a program under construction: a header, named instruction sequences in the order
they were opened, and the texts of the data section.

Sequences can be opened while others are open, as happens when a piece of code turns out to
need a support routine. Instructions always go to the innermost open sequence, and each
sequence is written out in one piece, wherever it was opened.

Texts are *interned*: each is stored once, and the label of a text is its place in the order of
first use.

## Contents
- §1: sequences and listings
- §2: emitting, opening and closing
- §3: interned texts
- §4: the written program
-/

namespace ArmCompiler

/-! ## §1 Sequences and listings -/

/-- A named sequence of instructions. Its label is the first of them. -/
structure Sequence where
  name : String
  code : List Instruction
  deriving DecidableEq, Repr

/-- The sequence with more instructions at its end. -/
def Sequence.append (sequence : Sequence) (code : List Instruction) : Sequence :=
  { sequence with code := sequence.code ++ code }

@[simp] theorem Sequence.append_nil (sequence : Sequence) : sequence.append [] = sequence := by
  simp [append]

@[simp] theorem Sequence.append_append (sequence : Sequence) (a b : List Instruction) :
    (sequence.append a).append b = sequence.append (a ++ b) := by
  simp [append]

@[simp] theorem Sequence.name_append (sequence : Sequence) (code : List Instruction) :
    (sequence.append code).name = sequence.name := rfl

/-- A program under construction. -/
structure Listing where
  header : List Instruction := [.directive .textSection, .directive (.global "main")]
  /-- The sequences in the order they were opened. -/
  sequences : List Sequence := []
  /-- The names of the open sequences, innermost first. -/
  opened : List String := []
  /-- The interned texts in the order of first use. -/
  messages : List String := []
  deriving DecidableEq, Repr

/-- How a sequence ends. -/
inductive Ending where
  /-- With a return to the caller. -/
  | ret
  /-- With a return to the caller, after which pending constants are placed. -/
  | userRet
  /-- With nothing, because its end is never reached. -/
  | none
  deriving DecidableEq, Repr

/-- The instructions of an ending. -/
def Ending.code : Ending → List Instruction
  | .ret => [.pop .pc]
  | .userRet => [.pop .pc, .directive .ltorg]
  | .none => []

namespace Listing

/-! ## §2 Emitting, opening and closing -/

/-- The sequence of a name. -/
def sequence? (listing : Listing) (name : String) : Option Sequence :=
  listing.sequences.find? fun sequence => sequence.name == name

/-- Whether there is a sequence of a name. -/
def has (listing : Listing) (name : String) : Bool := (listing.sequence? name).isSome

/-- Appends instructions to the innermost open sequence, or to the header if none is open. -/
def emitAll (listing : Listing) (code : List Instruction) : Listing :=
  match listing.opened with
  | [] => { listing with header := listing.header ++ code }
  | name :: _ =>
    { listing with
      sequences := listing.sequences.map fun sequence =>
        if sequence.name = name then sequence.append code else sequence }

@[simp] theorem opened_emitAll (listing : Listing) (code : List Instruction) :
    (listing.emitAll code).opened = listing.opened := by
  unfold emitAll; split <;> rfl

@[simp] theorem messages_emitAll (listing : Listing) (code : List Instruction) :
    (listing.emitAll code).messages = listing.messages := by
  unfold emitAll; split <;> rfl

/-- Emitting in two pieces is emitting at once. -/
theorem emitAll_emitAll (listing : Listing) (a b : List Instruction) :
    (listing.emitAll a).emitAll b = listing.emitAll (a ++ b) := by
  unfold emitAll
  cases h : listing.opened with
  | nil => simp
  | cons name rest =>
    simp only [List.map_map]
    congr 1
    apply List.map_congr_left
    intro sequence _
    by_cases same : sequence.name = name <;> simp [same]

/-- Appends one instruction. -/
def emit (listing : Listing) (i : Instruction) : Listing := listing.emitAll [i]

/-- The first instructions of a sequence: its label, and the saving of the link register if
the sequence returns. -/
def opening (name : String) (savesLink : Bool) : List Instruction :=
  .label name :: if savesLink then [.push .lr] else []

/-- Opens a sequence. A name can be used only once. -/
def start (listing : Listing) (name : String) (savesLink : Bool) :
    Except CompileError Listing :=
  if listing.has name then
    .error (.internal (.duplicateSequence name))
  else
    .ok { listing with
      sequences := listing.sequences ++ [{ name, code := opening name savesLink }]
      opened := name :: listing.opened }

/-- Closes the innermost open sequence. -/
def finish (listing : Listing) (ending : Ending) : Except CompileError Listing :=
  match listing.opened with
  | [] => .error (.internal .noOpenSequence)
  | _ :: rest => .ok { listing.emitAll ending.code with opened := rest }

/-! ## §3 Interned texts -/

/-- The label of the text at a place in the data section. -/
def labelAt (index : Nat) : String := "msg_" ++ index.repr

/-- The label of a text. A text that is not interned yet has the label it would get next. -/
def messageLabel (listing : Listing) (text : String) : String :=
  labelAt (listing.messages.idxOf text)

/-- Stores a text unless it is stored already. -/
def intern (listing : Listing) (text : String) : Listing :=
  if text ∈ listing.messages then listing
  else { listing with messages := listing.messages ++ [text] }

theorem mem_messages_intern (listing : Listing) (text : String) :
    text ∈ (listing.intern text).messages := by
  unfold intern
  split <;> simp_all

/-- A text keeps its label when it is stored. -/
@[simp] theorem messageLabel_intern (listing : Listing) (text : String) :
    (listing.intern text).messageLabel text = listing.messageLabel text := by
  unfold intern
  split
  · rfl
  · rename_i absent
    have next : listing.messages.idxOf text = listing.messages.length :=
      List.idxOf_eq_length absent
    simp only [messageLabel, List.idxOf_append, if_neg absent, next]
    simp

/-- Storing a text twice is storing it once. -/
@[simp] theorem intern_intern (listing : Listing) (text : String) :
    (listing.intern text).intern text = listing.intern text :=
  if_pos (mem_messages_intern listing text)

/-! ## §4 The written program -/

/-- The entry of a text in the data section: label, length in bytes, contents. The length is a
word, so a text of 2 ^ 32 bytes or more does not fit it. -/
def messageEntry (index : Nat) (text : String) : List Instruction :=
  [.label (labelAt index), .directive (.word (UInt32.ofNat text.utf8ByteSize)),
    .directive (.ascii (Escape.encode text))]

/-- The data section. Without texts there is none. -/
def dataSection (listing : Listing) : List Instruction :=
  match listing.messages with
  | [] => []
  | messages => .directive .dataSection :: (messages.mapIdx messageEntry).flatten

/-- All lines of the program: the header, the sequences in the order they were opened, the
data section. -/
def instructions (listing : Listing) : List Instruction :=
  listing.header ++ listing.sequences.flatMap (·.code) ++ listing.dataSection

/-- The text of the program. -/
def render (listing : Listing) : String :=
  String.join (listing.instructions.map (·.line))

end Listing

end ArmCompiler
