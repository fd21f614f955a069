import ArmCompiler.Listing

/-!
# Support Routines

Compiled code leans on a few routines for printing, reading and run-time checks. A routine is
added to a listing the first time it is asked for, together with the routines it calls.

Every routine passes its arguments in `r0` and `r1` and leaves the general registers alone, but
for what the library functions it calls do. A text is stored with its length in the word before
it, so a routine steps over that word to pass the text to the library.

## Contents
- §1: the routines
- §2: their texts and code
- §3: adding a routine to a listing
-/

namespace ArmCompiler

/-! ## §1 The routines -/

/-- The support routines. -/
inductive Routine where
  | printString
  | printBool
  | printInt
  | printReference
  | printChar
  | printLn
  | readInt
  | readChar
  | checkArrayBounds
  | throwOverflow
  | checkDivideByZero
  | throwRuntimeError
  | freePair
  | checkNullPointer
  deriving DecidableEq, Repr

namespace Routine

/-- All routines. -/
def all : List Routine :=
  [.printString, .printBool, .printInt, .printReference, .printChar, .printLn, .readInt,
    .readChar, .checkArrayBounds, .throwOverflow, .checkDivideByZero, .throwRuntimeError,
    .freePair, .checkNullPointer]

/-- The label of a routine. -/
def label : Routine → String
  | .printString => "p_print_string"
  | .printBool => "p_print_bool"
  | .printInt => "p_print_int"
  | .printReference => "p_print_reference"
  | .printChar => "p_print_char"
  | .printLn => "p_print_ln"
  | .readInt => "p_read_int"
  | .readChar => "p_read_char"
  | .checkArrayBounds => "p_check_array_bounds"
  | .throwOverflow => "p_throw_overflow_error"
  | .checkDivideByZero => "p_check_divide_by_zero"
  | .throwRuntimeError => "p_throw_runtime_error"
  | .freePair => "p_free_pair"
  | .checkNullPointer => "p_check_null_pointer"

/-! ## §2 Texts and code -/

/-- What is printed when a result does not fit a word. -/
def overflowText : String :=
  "OverflowError: the result is too small/large to store in a 4-byte signed-integer.\n\x00"

/-- What is printed when a divisor is zero. -/
def divideByZeroText : String := "DivideByZeroError: divide or modulo by zero\n\x00"

/-- What is printed when an index is below zero. -/
def negativeIndexText : String := "ArrayIndexOutOfBoundsError: negative index\n\x00"

/-- What is printed when an index is not below the length. -/
def largeIndexText : String := "ArrayIndexOutOfBoundsError: index too large\n\x00"

/-- What is printed when the null pair is used. -/
def nullReferenceText : String := "NullReferenceError: dereference a null reference\n\x00"

/-- The texts that a routine refers to, in the order it interns them. -/
def texts : Routine → List String
  | .printString => ["%.*s\x00"]
  | .printBool => ["true\x00", "false\x00"]
  | .printInt => ["%d\x00"]
  | .printReference => ["%p\x00"]
  | .printChar => ["%c\x00"]
  | .printLn => ["\x00"]
  | .readInt => ["%d\x00"]
  | .readChar => [" %c\x00"]
  | .checkArrayBounds => [negativeIndexText, largeIndexText]
  | .throwOverflow => [overflowText]
  | .checkDivideByZero => [divideByZeroText]
  | .throwRuntimeError => []
  | .freePair => [nullReferenceText]
  | .checkNullPointer => [nullReferenceText]

open Instruction

/-- Steps over the length word of the text in `r0`. -/
def skipLength : Instruction := op .add .r0 .r0 (.imm 4)

/-- Passes the text in `r0` to a library function and flushes what was printed. -/
def printWith (function : String) : List Instruction :=
  [skipLength, call function, .mov none .r0 (.imm 0), call "fflush"]

/-- Prints the value in `r0` in a format. -/
def printFormatted (format : String) : List Instruction :=
  [move .r1 .r0, loadLabel .r0 format] ++ printWith "printf"

/-- Reads a value in a format to the address in `r0`. -/
def readFormatted (format : String) : List Instruction :=
  [move .r1 .r0, loadLabel .r0 format, skipLength, call "scanf"]

/-- Reports a text and stops the program if a condition holds. -/
def failIf (cond : Condition) (text : String) : List Instruction :=
  [loadLabelIf cond .r0 text, callIf cond throwRuntimeError.label]

/-- The instructions of a routine between its opening and its ending. The argument gives the
label of each text. -/
def body (message : String → String) : Routine → List Instruction
  | .printString =>
    [load .r1 (.held .r0), op .add .r2 .r0 (.imm 4), loadLabel .r0 (message "%.*s\x00")] ++
      printWith "printf"
  | .printBool =>
    [.cmp .r0 (.imm 0), loadLabelIf .ne .r0 (message "true\x00"),
      loadLabelIf .eq .r0 (message "false\x00")] ++ printWith "printf"
  | .printInt => printFormatted (message "%d\x00")
  | .printReference => printFormatted (message "%p\x00")
  | .printChar => printFormatted (message "%c\x00")
  | .printLn => loadLabel .r0 (message "\x00") :: printWith "puts"
  | .readInt => readFormatted (message "%d\x00")
  | .readChar => readFormatted (message " %c\x00")
  | .throwRuntimeError =>
    [call printString.label, .mov none .r0 (.imm (-1)), call "exit"]
  | .throwOverflow =>
    [loadLabel .r0 (message overflowText), call throwRuntimeError.label]
  | .checkDivideByZero => .cmp .r1 (.imm 0) :: failIf .eq (message divideByZeroText)
  | .checkArrayBounds =>
    .cmp .r0 (.imm 0) :: failIf .lt (message negativeIndexText) ++
      [load .r1 (.held .r1), .cmp .r0 (.reg .r1)] ++ failIf .cs (message largeIndexText)
  | .checkNullPointer => .cmp .r0 (.imm 0) :: failIf .eq (message nullReferenceText)
  | .freePair =>
    [.cmp .r0 (.imm 0), loadLabelIf .eq .r0 (message nullReferenceText),
      jumpIf .eq throwRuntimeError.label,
      -- The pair is kept on the stack while its two boxes are freed.
      .push .r0, load .r0 (.held .r0), call "free",
      load .r0 (.held .sp), load .r0 (.offset .r0 4), call "free",
      .pop .r0, call "free"]

/-- Whether control comes back from a routine. -/
def returns : Routine → Bool
  | .throwOverflow | .throwRuntimeError => false
  | _ => true

/-- How a routine ends. -/
def ending (r : Routine) : Ending := if r.returns then .ret else .none

/-- A routine and those it calls, directly or through others, each after its caller. -/
def chain : Routine → List Routine
  | .checkArrayBounds => [.checkArrayBounds, .throwRuntimeError, .printString]
  | .throwOverflow => [.throwOverflow, .throwRuntimeError, .printString]
  | .checkDivideByZero => [.checkDivideByZero, .throwRuntimeError, .printString]
  | .freePair => [.freePair, .throwRuntimeError, .printString]
  | .checkNullPointer => [.checkNullPointer, .throwRuntimeError, .printString]
  | .throwRuntimeError => [.throwRuntimeError, .printString]
  | r => [r]

end Routine

/-! ## §3 Adding a routine to a listing -/

namespace Listing

/-- Adds the sequence of a routine. Its texts are interned before the sequence is opened. -/
def define (listing : Listing) (r : Routine) : Except CompileError Listing := do
  let listing := r.texts.foldl intern listing
  let listing ← listing.start r.label r.returns
  (listing.emitAll (r.body listing.messageLabel)).finish r.ending

/-- Adds the routines of a chain up to the first one that is there already. -/
def requireChain (listing : Listing) : List Routine → Except CompileError Listing
  | [] => .ok listing
  | r :: rest =>
    if listing.has r.label then
      .ok listing
    else do
      let listing ← listing.define r
      listing.requireChain rest

/-- Makes sure that a routine and those it calls are in the listing. -/
def require (listing : Listing) (r : Routine) : Except CompileError Listing :=
  listing.requireChain r.chain

end Listing

end ArmCompiler
