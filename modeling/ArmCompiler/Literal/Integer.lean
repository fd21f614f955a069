/-!
# Integer Literals

An integer literal is an optional sign followed by decimal digits. It has a value when that
value fits a signed 32-bit word.

The digits are read one after the other into a signed 64-bit word. A literal below zero grows
downwards, so that the least number of a word can be read. Reading fails at the first digit that
the 64-bit word has no room for; what is read to the end is compared with the range of a 32-bit
word.
-/

namespace ArmCompiler.Literal

/-- The value of a decimal digit. -/
def digitValue (c : Char) : Nat := c.toNat - '0'.toNat

/-- Whether a number fits a signed 32-bit word. -/
def FitsWord (n : Int) : Prop := -0x80000000 ≤ n ∧ n < 0x80000000

instance (n : Int) : Decidable (FitsWord n) := inferInstanceAs (Decidable (_ ∧ _))

/-- Whether a number fits a signed 64-bit word. -/
def FitsLong (n : Int) : Prop := -0x8000000000000000 ≤ n ∧ n < 0x8000000000000000

instance (n : Int) : Decidable (FitsLong n) := inferInstanceAs (Decidable (_ ∧ _))

/-- A number, if it fits a signed 64-bit word. -/
def long? (n : Int) : Option Int := if FitsLong n then some n else none

/-- The number `n` with one more digit at its end. Neither the tenfold of `n` nor the result may
leave a 64-bit word. -/
def pushDigit? (negative : Bool) (n : Int) (c : Char) : Option Int :=
  if c.isDigit then do
    let tenfold ← long? (10 * n)
    long? (if negative then tenfold - digitValue c else tenfold + digitValue c)
  else
    none

/-- The number denoted by one or more decimal digits and nothing else, or its negation. -/
def digits? (negative : Bool) : List Char → Option Int
  | [] => none
  | c :: rest => (c :: rest).foldlM (pushDigit? negative) 0

/-- The number denoted by decimal digits after at most one sign. -/
def signed? : List Char → Option Int
  | '+' :: digits => digits? false digits
  | '-' :: digits => digits? true digits
  | digits => digits? false digits

/-- The value of an integer literal, if its text is well formed and the value fits a signed
32-bit word. -/
def intValue? (text : String) : Option Int :=
  (signed? text.toList).filter fun n => FitsWord n

end ArmCompiler.Literal
