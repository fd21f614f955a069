import ArmCompiler.Routine

/-!
# Pseudo-Instructions

Code is generated in pseudo-instructions: besides plain instructions, the call of a support
routine, the load of a text's address, and moves of the stack pointer by any distance. They are
expanded into plain instructions when the code is put into a listing. Only then is it known
which label a text has, and only then are the routines added that the code calls.
-/

namespace ArmCompiler

/-- A step of generated code. -/
inductive Pseudo where
  | instr (i : Instruction)
  /-- Calls a routine, if the condition holds. -/
  | routine (cond : Option Condition) (r : Routine)
  /-- Loads the address of a text. -/
  | message (dst : Register) (text : String)
  /-- Moves the stack pointer down. -/
  | reserve (bytes : Nat)
  /-- Moves the stack pointer up. -/
  | unreserve (bytes : Nat)
  deriving DecidableEq, Repr

/-- A distance cut into pieces of `limit` bytes and a shorter last one. -/
def chunks (limit bytes : Nat) : List Nat :=
  List.replicate (bytes / limit) limit ++ if bytes % limit = 0 then [] else [bytes % limit]

/-- Moves the stack pointer piece by piece. -/
def adjustStack (op : ArithOp) (limit bytes : Nat) : List Instruction :=
  (chunks limit bytes).map fun (step : Nat) => .op op .sp .sp (.imm step)

namespace Listing

/-- The plain instructions that a pseudo-instruction stands for, and the listing with the text
and the routines they refer to. One instruction moves the stack pointer by at most `limit`
bytes. -/
def expand (limit : Nat) (listing : Listing) :
    Pseudo → Except CompileError (List Instruction × Listing)
  | .instr i => .ok ([i], listing)
  | .routine cond r => do
    let listing ← listing.require r
    .ok ([.branch true cond r.label], listing)
  | .message dst text =>
    let listing := listing.intern text
    .ok ([.loadLabel dst (listing.messageLabel text)], listing)
  | .reserve bytes => .ok (adjustStack .sub limit bytes, listing)
  | .unreserve bytes => .ok (adjustStack .add limit bytes, listing)

/-- Expands pseudo-instructions one after the other. -/
def expandAll (limit : Nat) (listing : Listing) :
    List Pseudo → Except CompileError (List Instruction × Listing)
  | [] => .ok ([], listing)
  | p :: rest => do
    let (first, listing) ← listing.expand limit p
    let (others, listing) ← listing.expandAll limit rest
    .ok (first ++ others, listing)

end Listing

end ArmCompiler
