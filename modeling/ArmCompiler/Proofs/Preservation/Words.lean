import ArmCompiler.Proofs.Preservation.Machine
import ArmCompiler.Proofs.Preservation.Reference
import Mathlib.Data.BitVec
import Mathlib.Tactic.Linarith

/-!
# Words and Integers

How the arithmetic of the machine, on words, relates to that of the reference semantics, on
integers. An integer is represented by the word it is congruent to. Where the result of an
operation fits a word, so does the machine's; where it does not, the machine's flags tell.

## Contents
- §1: integers as words
- §2: sums, differences and comparisons
- §3: products
- §4: truth values
- §5: bytes of a word
-/

namespace ArmCompiler

open Literal

/-! ## §1 Integers as words -/

theorem toInt_ofInt_of_fits {n : Int} (h : FitsWord n) : (BitVec.ofInt 32 n).toInt = n := by
  rw [BitVec.toInt_ofInt]
  exact Int.bmod_eq_of_le (by simpa using h.1) (by simpa using h.2)

theorem fits_toInt (w : Word) : FitsWord w.toInt := by
  have hle := BitVec.le_toInt w
  have hlt : w.toInt < 2 ^ 31 := BitVec.toInt_lt
  exact ⟨by simpa using hle, by simpa using hlt⟩

/-- An integer fits a word when the word that represents it says so. -/
theorem toInt_ofInt_eq_iff {n : Int} : (BitVec.ofInt 32 n).toInt = n ↔ FitsWord n := by
  constructor
  · intro h
    rw [← h]
    exact fits_toInt _
  · exact toInt_ofInt_of_fits

/-- Complementing a word turns its sign around, and takes one off. -/
theorem toInt_not (w : Word) : (~~~w).toInt = -w.toInt - 1 := by
  have hlt := w.isLt
  simp only [BitVec.toInt_eq_toNat_cond, BitVec.toNat_not]
  split <;> split <;> omega

theorem ofInt_sub (a b : Int) : BitVec.ofInt 32 (a - b) = BitVec.ofInt 32 a - BitVec.ofInt 32 b := by
  rw [Int.sub_eq_add_neg, BitVec.ofInt_add, BitVec.ofInt_neg, BitVec.sub_eq_add_neg]

/-- Two integers that one word represents are a multiple of the number of words apart. -/
theorem eq_of_ofInt_eq {a b : Int} (h : BitVec.ofInt 32 a = BitVec.ofInt 32 b)
    (hle : a - b < 2 ^ 32) (hge : -2 ^ 32 < a - b) : a = b := by
  have hnat := congrArg BitVec.toNat h
  simp only [BitVec.toNat_ofInt] at hnat
  omega

/-! ## §2 Sums, differences and comparisons -/

theorem addWithCarry_fst (x y : Word) (carry : Bool) :
    (addWithCarry x y carry).1 = BitVec.ofInt 32 (x.toInt + y.toInt + carry.toNat) := by
  simp [addWithCarry, BitVec.ofInt_add, BitVec.ofNat_add, BitVec.ofNat_toNat, BitVec.ofInt_toInt]

/-- Overflow is what a word cannot hold. -/
theorem addWithCarry_overflow (x y : Word) (carry : Bool) :
    (addWithCarry x y carry).2.overflow =
      !decide (FitsWord (x.toInt + y.toInt + carry.toNat)) := by
  -- The flag compares the word with the exact sum, and they differ when the sum does not fit.
  have hflag : (addWithCarry x y carry).2.overflow =
      ((addWithCarry x y carry).1.toInt != x.toInt + y.toInt + carry.toNat) := rfl
  rw [hflag, addWithCarry_fst, bne, beq_eq_decide]
  simp only [toInt_ofInt_eq_iff]

/-- Three of the operations add and subtract integers. -/
def ArithOp.result? (a b : Int) : ArithOp → Option Int
  | .add => some (a + b)
  | .sub => some (a - b)
  | .rsb => some (b - a)
  | .and | .orr | .eor => none

theorem ArithOp.apply_result {op : ArithOp} {flags : Flags} {x y : Word} {n : Int}
    (h : op.result? x.toInt y.toInt = some n) :
    (op.apply flags x y).1 = BitVec.ofInt 32 n ∧
      (op.apply flags x y).2.overflow = !decide (FitsWord n) := by
  -- All three are one addition with carry, of operands that may have been complemented.
  have hsum {u v : Word} {carry : Bool} (hn : u.toInt + v.toInt + carry.toNat = n) :
      (addWithCarry u v carry).1 = BitVec.ofInt 32 n ∧
        (addWithCarry u v carry).2.overflow = !decide (FitsWord n) := by
    rw [addWithCarry_fst, addWithCarry_overflow, hn]
    exact ⟨rfl, rfl⟩
  cases op with
  | add =>
    cases h
    exact hsum (by simp)
  | sub =>
    cases h
    exact hsum (by rw [toInt_not]; simp; omega)
  | rsb =>
    cases h
    exact hsum (by rw [toInt_not]; simp; omega)
  | and | orr | eor => cases h

theorem compareFlags_zero (x y : Word) : (compareFlags x y).zero = decide (x.toInt = y.toInt) := by
  have hflag : (compareFlags x y).zero = ((addWithCarry x (~~~y) true).1 == 0) := rfl
  have hdifference : x.toInt + (~~~y).toInt + (true.toNat : Int) = x.toInt - y.toInt := by
    rw [toInt_not]
    simp
    omega
  rw [hflag, addWithCarry_fst, hdifference, ofInt_sub, BitVec.ofInt_toInt, BitVec.ofInt_toInt,
    beq_eq_decide]
  simp only [sub_eq_zero, BitVec.toInt_inj]

/-- After a comparison, negative differs from overflow when the first operand is less. -/
theorem compareFlags_less (x y : Word) :
    ((compareFlags x y).negative != (compareFlags x y).overflow) =
      decide (x.toInt < y.toInt) := by
  have hx := fits_toInt x
  have hy := fits_toInt y
  have hdifference : x.toInt + (~~~y).toInt + (true.toNat : Int) = x.toInt - y.toInt := by
    rw [toInt_not]
    simp
    omega
  have hnegative : (compareFlags x y).negative =
      decide ((x.toInt - y.toInt).bmod (2 ^ 32) < 0) := by
    have hflag : (compareFlags x y).negative = (addWithCarry x (~~~y) true).1.msb := rfl
    rw [hflag, addWithCarry_fst, hdifference, BitVec.msb_eq_toInt, BitVec.toInt_ofInt]
  have hoverflow : (compareFlags x y).overflow = !decide (FitsWord (x.toInt - y.toInt)) := by
    rw [compareFlags, addWithCarry_overflow, hdifference]
  -- Where the difference does not fit, its sign is the wrong one.
  simp only [FitsWord] at hx hy
  rw [hnegative, hoverflow, Bool.eq_iff_iff]
  by_cases hfits : FitsWord (x.toInt - y.toInt)
  · rw [Int.bmod_eq_of_le (by simpa using hfits.1) (by simpa using hfits.2)]
    simp [hfits]
  · simp only [hfits, decide_false, Bool.not_false, bne_iff_ne, ne_eq, decide_eq_true_eq, not_lt]
    simp only [FitsWord] at hfits
    rw [Int.bmod_def]
    split <;> omega

/-- The condition under which a comparison of the source holds. -/
def BinaryOp.condition? : BinaryOp → Option Condition
  | .gt => some .gt
  | .ge => some .ge
  | .lt => some .lt
  | .le => some .le
  | .eq => some .eq
  | .ne => some .ne
  | .mul | .div | .mod | .add | .sub | .and | .or => none

/-- The value of a comparison is what the flags say of the operands. -/
theorem BinaryOp.eval_of_condition {op : BinaryOp} {cond : Condition}
    (h : op.condition? = some cond) (x y : Word) :
    op.eval x.toInt y.toInt = .done (cond.holds (compareFlags x y)).toInt := by
  have hzero := compareFlags_zero x y
  have hless := compareFlags_less x y
  have hnotLess : ((compareFlags x y).negative == (compareFlags x y).overflow) =
      !decide (x.toInt < y.toInt) := by
    rw [← hless, bne, Bool.not_not]
  cases op <;> cases h <;>
    simp only [BinaryOp.eval, Condition.holds, hzero, hless, hnotLess, Result.done.injEq] <;>
    congr 1 <;> rw [Bool.eq_iff_iff] <;> simp <;> omega

/-! ## §3 Products -/

theorem setWidth_ofInt (n : Int) : (BitVec.ofInt 64 n).setWidth 32 = BitVec.ofInt 32 n := by
  apply BitVec.eq_of_toNat_eq
  simp only [BitVec.toNat_ofInt, BitVec.toNat_setWidth]
  omega

theorem setWidth_shift_ofInt (n : Int) :
    (BitVec.ofInt 64 n >>> 32).setWidth 32 = BitVec.ofInt 32 (n / 2 ^ 32) := by
  apply BitVec.eq_of_toNat_eq
  simp only [BitVec.toNat_ofInt, BitVec.toNat_setWidth, BitVec.toNat_ushiftRight,
    Nat.shiftRight_eq_div_pow]
  omega

theorem signExtend_mul (x y : Word) :
    x.signExtend 64 * y.signExtend 64 = BitVec.ofInt 64 (x.toInt * y.toInt) :=
  BitVec.ofInt_mul x.toInt y.toInt |>.symm

/-- The product of two words fits two words. -/
theorem product_bounds (x y : Word) :
    -2 ^ 62 ≤ x.toInt * y.toInt ∧ x.toInt * y.toInt ≤ 2 ^ 62 := by
  obtain ⟨hx, hx'⟩ := fits_toInt x
  obtain ⟨hy, hy'⟩ := fits_toInt y
  constructor <;> nlinarith

/-- A product fits a word when the high word is the sign extension of the low one. -/
theorem high_eq_sign_iff {n : Int} (hle : -2 ^ 62 ≤ n) (hge : n ≤ 2 ^ 62) :
    (BitVec.ofInt 32 (n / 2 ^ 32)).toInt = ((BitVec.ofInt 32 n).sshiftRight 31).toInt ↔
      FitsWord n := by
  -- The high word is exact, as the product fits two words; so the comparison is one of integers.
  have hhigh : FitsWord (n / 2 ^ 32) := by
    simp only [FitsWord]
    omega
  rw [toInt_ofInt_of_fits hhigh, BitVec.toInt_sshiftRight, BitVec.toInt_ofInt,
    Int.shiftRight_eq_div_pow, Int.bmod_def]
  simp only [FitsWord]
  split <;> omega

/-! ## §4 Truth values -/

/-- A truth value as an integer. -/
def IsBit (n : Int) : Prop := n = 0 ∨ n = 1

theorem isBit_toInt (b : Bool) : IsBit b.toInt := by
  cases b
  · exact .inl rfl
  · exact .inr rfl

section Bits

variable {a b : Int}

theorem ofInt_xor_one (h : IsBit a) :
    BitVec.ofInt 32 a ^^^ BitVec.ofInt 32 1 = BitVec.ofInt 32 (a == 0).toInt := by
  rcases h with rfl | rfl <;> rfl

theorem ofInt_and (ha : IsBit a) (hb : IsBit b) :
    BitVec.ofInt 32 a &&& BitVec.ofInt 32 b = BitVec.ofInt 32 (a != 0 && b != 0).toInt := by
  rcases ha with rfl | rfl <;> rcases hb with rfl | rfl <;> rfl

theorem ofInt_or (ha : IsBit a) (hb : IsBit b) :
    BitVec.ofInt 32 a ||| BitVec.ofInt 32 b = BitVec.ofInt 32 (a != 0 || b != 0).toInt := by
  rcases ha with rfl | rfl <;> rcases hb with rfl | rfl <;> rfl

end Bits

/-! ## §5 Bytes of a word -/

/-- The four bytes of a word make it up. -/
theorem append_bytes (w : Word) :
    w.extractLsb' 24 8 ++ w.extractLsb' 16 8 ++ w.extractLsb' 8 8 ++ w.extractLsb' 0 8 = w := by
  -- Adjacent pieces are joined from the top down.
  have hupper : w.extractLsb' 24 8 ++ w.extractLsb' 16 8 = w.extractLsb' 16 16 :=
    BitVec.extractLsb'_append_extractLsb'_eq_extractLsb' rfl
  have hmiddle : w.extractLsb' 16 16 ++ w.extractLsb' 8 8 = w.extractLsb' 8 24 :=
    BitVec.extractLsb'_append_extractLsb'_eq_extractLsb' rfl
  have hwhole : w.extractLsb' 8 24 ++ w.extractLsb' 0 8 = w.extractLsb' 0 32 :=
    BitVec.extractLsb'_append_extractLsb'_eq_extractLsb' rfl
  rw [hupper, hmiddle, hwhole]
  exact BitVec.extractLsb'_eq_self

/-- Of a word that is stored as a byte the low bits are read back. -/
theorem setWidth_setWidth_ofInt (n : Int) :
    ((BitVec.ofInt 32 n).setWidth 8).setWidth 32 = BitVec.ofInt 32 (n % 256) := by
  apply BitVec.eq_of_toNat_eq
  simp only [BitVec.toNat_ofInt, BitVec.toNat_setWidth]
  omega

namespace Machine

variable {m m' : Machine} {a b w : Word} {width : Width}

theorem load_store_word (m : Machine) (a w : Word) : (m.store a w .word).load .word a = w := by
  simpa [load, loadWord, store, storeByte] using append_bytes w

theorem load_store_byte (m : Machine) (a w : Word) :
    (m.store a w .byte).load .byte a = (w.setWidth 8).setWidth 32 := by
  simp [load, store, storeByte]

/-- A store changes four bytes at most. -/
theorem memory_store_of_ne {x : Word} (h : ∀ j : Nat, j < 4 → x ≠ a + BitVec.ofNat 32 j) :
    (m.store a w width).memory x = m.memory x := by
  have h0 : x ≠ a := by simpa using h 0 (by decide)
  have h1 := h 1 (by decide)
  have h2 := h 2 (by decide)
  have h3 := h 3 (by decide)
  cases width <;> simp_all [store, storeByte]

/-- A load reads four bytes at most. -/
theorem load_congr (width : Width)
    (h : ∀ j : Nat, j < 4 → m'.memory (b + BitVec.ofNat 32 j) = m.memory (b + BitVec.ofNat 32 j)) :
    m'.load width b = m.load width b := by
  have h0 : m'.memory b = m.memory b := by simpa using h 0 (by decide)
  have h1 := h 1 (by decide)
  have h2 := h 2 (by decide)
  have h3 := h 3 (by decide)
  cases width <;> simp_all [load, loadWord]

end Machine

end ArmCompiler
