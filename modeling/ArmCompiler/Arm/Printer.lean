import ArmCompiler.Arm.Instruction

/-!
# The Text of ARM Instructions

Each instruction is one line: its text, after a tab unless it is a label or a directive that
concerns the whole section.
-/

namespace ArmCompiler

/-- The name of a register. -/
def Register.text : Register → String
  | .r0 => "r0"
  | .r1 => "r1"
  | .r2 => "r2"
  | .r3 => "r3"
  | .r4 => "r4"
  | .r5 => "r5"
  | .r6 => "r6"
  | .r7 => "r7"
  | .r8 => "r8"
  | .r9 => "r9"
  | .r10 => "r10"
  | .r11 => "r11"
  | .r12 => "r12"
  | .sp => "sp"
  | .lr => "lr"
  | .pc => "pc"

/-- The mnemonic of a condition. -/
def Condition.text : Condition → String
  | .eq => "EQ"
  | .ne => "NE"
  | .lt => "LT"
  | .le => "LE"
  | .gt => "GT"
  | .ge => "GE"
  | .cs => "CS"
  | .cc => "CC"
  | .vs => "VS"
  | .vc => "VC"

/-- A condition as it is attached to a mnemonic. -/
def conditionText : Option Condition → String
  | some cond => cond.text
  | none => ""

/-- A value after a number sign. -/
def immediateText (value : Int) : String := "#" ++ value.repr

/-- The text of an operand. -/
def Operand.text : Operand → String
  | .imm value => immediateText value
  | .reg r => r.text
  | .shifted r (.lsl amount) => r.text ++ ", LSL #" ++ amount.repr
  | .shifted r (.asr amount) => r.text ++ ", ASR #" ++ amount.repr

/-- The text of an address. A displacement of zero is not written, except where the base
register is moved. -/
def Address.text : Address → String
  | .offset base displacement =>
    if displacement = 0 then "[" ++ base.text ++ "]"
    else "[" ++ base.text ++ ", " ++ immediateText displacement ++ "]"
  | .preIndexed base displacement =>
    "[" ++ base.text ++ ", " ++ immediateText displacement ++ "]!"
  | .constant value => "=" ++ value.repr
  | .label name => "=" ++ name

/-- A width as it is attached to a mnemonic. -/
def Width.text : Width → String
  | .word => ""
  | .byte => "B"

/-- The mnemonic of an arithmetic operation. -/
def ArithOp.text : ArithOp → String
  | .add => "ADD"
  | .sub => "SUB"
  | .rsb => "RSB"
  | .and => "AND"
  | .orr => "ORR"
  | .eor => "EOR"

/-- The text of a directive. -/
def Directive.text : Directive → String
  | .textSection => ".text"
  | .dataSection => ".data"
  | .global name => ".global " ++ name
  | .ltorg => ".ltorg"
  | .word value => ".word " ++ value.toNat.repr
  | .ascii encoded => ".ascii \"" ++ encoded ++ "\""

/-- A register between braces. -/
def registerSetText (r : Register) : String := "\x7b" ++ r.text ++ "\x7d"

namespace Instruction

/-- The text of an instruction, without its indentation. -/
def text : Instruction → String
  | .label name => name ++ ":"
  | .directive d => d.text
  | .mov cond dst src => "MOV" ++ conditionText cond ++ " " ++ dst.text ++ ", " ++ src.text
  | .push r => "PUSH " ++ registerSetText r
  | .pop r => "POP " ++ registerSetText r
  | .ldr cond width dst src =>
    "LDR" ++ conditionText cond ++ width.text ++ " " ++ dst.text ++ ", " ++ src.text
  | .str width src dst => "STR" ++ width.text ++ " " ++ src.text ++ ", " ++ dst.text
  | .cmp lhs rhs => "CMP " ++ lhs.text ++ ", " ++ rhs.text
  | .branch link cond target =>
    "B" ++ (if link then "L" else "") ++ conditionText cond ++ " " ++ target
  | .arith op setFlags dst lhs rhs =>
    op.text ++ (if setFlags then "S" else "") ++ " " ++ dst.text ++ ", " ++ lhs.text ++ ", " ++
      rhs.text
  | .smull lo hi lhs rhs =>
    "SMULL " ++ lo.text ++ ", " ++ hi.text ++ ", " ++ lhs.text ++ ", " ++ rhs.text

/-- How many tabs stand before the text. -/
def indentation : Instruction → Nat
  | .label _ => 0
  | .directive .textSection | .directive .dataSection | .directive (.global _) => 0
  | _ => 1

/-- The whole line, with its indentation and its end. -/
def line (i : Instruction) : String :=
  String.join (List.replicate i.indentation "\t") ++ i.text ++ "\n"

end Instruction

end ArmCompiler
