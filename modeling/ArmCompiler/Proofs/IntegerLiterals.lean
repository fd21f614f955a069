import ArmCompiler.Literal.Integer
import Mathlib.Data.Nat.Digits.Defs
import Mathlib.Tactic.Ring

/-!
# Numbers Spelled by Integer Literals

The digits of a literal are read into a 64-bit word, and what was read to the end is held against
the range of a 32-bit word. Here it is said without any word which number a text spells: that of
its digits by their places. Reading finds this number exactly, because what has been read of it is
never further from zero than the whole. So where the digits leave the 64-bit word half way, the
number they spell has no place in a 32-bit word either, and zeros in front change nothing. Main
statement: `Literal.spelled_numbers_read`.

## Contents
- §1: spelled numbers
- §2: one more digit
- §3: all digits
- §4: signs and the range of a word
-/

namespace ArmCompiler.Literal

/-! ## §1 Spelled numbers -/

/-- The number that decimal digits denote by their places, the last one being that of the ones. -/
def placeValue (digits : List Char) : Nat := Nat.ofDigits 10 (digits.map digitValue).reverse

/-- One or more decimal digits and nothing else, which denote `n`. -/
structure Numeral (digits : List Char) (n : Nat) : Prop where
  nonempty : digits ≠ []
  decimal : ∀ c ∈ digits, '0' ≤ c ∧ c ≤ '9'
  value : placeValue digits = n

/-- A numeral, or a numeral after a single sign, with the number it stands for. -/
inductive Spells : List Char → Int → Prop where
  | plain {digits : List Char} {n : Nat} : Numeral digits n → Spells digits n
  | plus {digits : List Char} {n : Nat} : Numeral digits n → Spells ('+' :: digits) n
  | minus {digits : List Char} {n : Nat} : Numeral digits n → Spells ('-' :: digits) (-n)

theorem isDigit_iff {c : Char} : c.isDigit ↔ '0' ≤ c ∧ c ≤ '9' := by
  simp only [Char.isDigit, Bool.and_eq_true, decide_eq_true_eq]
  exact Iff.rfl

theorem placeValue_cons (c : Char) (rest : List Char) :
    placeValue (c :: rest) = 10 ^ rest.length * digitValue c + placeValue rest := by
  simp only [placeValue, List.map_cons, Nat.ofDigits_reverse_cons, List.length_map]
  rw [Nat.add_comm]

/-! ## §2 One more digit -/

/-- The number at distance `n` from zero, on the side that is being read. -/
def signedBy (negative : Bool) (n : Nat) : Int := if negative then -n else n

/-- A word that has room for a number has room for every number between it and zero. -/
theorem FitsLong.of_le {negative : Bool} {m n : Nat} (h : FitsLong (signedBy negative n))
    (hle : m ≤ n) : FitsLong (signedBy negative m) := by
  cases negative with
  | false =>
    simp only [FitsLong, signedBy, Bool.false_eq_true, if_false] at h ⊢
    omega
  | true =>
    simp only [FitsLong, signedBy, if_true] at h ⊢
    omega

/-- The check of the tenfold is never the one that decides: with a digit added to it, the number is
no closer to zero. -/
theorem pushDigit?_signedBy (negative : Bool) (n : Nat) {c : Char} (hc : c.isDigit) :
    pushDigit? negative (signedBy negative n) c =
      long? (signedBy negative (10 * n + digitValue c)) := by
  have htenfold : 10 * signedBy negative n = signedBy negative (10 * n) := by
    cases negative <;> simp [signedBy]
  have hresult : (if negative then signedBy negative (10 * n) - digitValue c
      else signedBy negative (10 * n) + digitValue c) =
      signedBy negative (10 * n + digitValue c) := by
    cases negative with
    | false => simp [signedBy]
    | true => simp [signedBy]; ring
  simp only [pushDigit?, hc, if_true, htenfold]
  by_cases hfits : FitsLong (signedBy negative (10 * n))
  · rw [long?, if_pos hfits]
    exact congrArg long? hresult
  · have hlarge : ¬FitsLong (signedBy negative (10 * n + digitValue c)) :=
      fun h => hfits (h.of_le (Nat.le_add_right _ _))
    rw [long?, long?, if_neg hfits, if_neg hlarge]
    rfl

/-! ## §3 All digits -/

/-- Reading goes through exactly if there are only digits and the word has room for the number that
all of them make. -/
theorem foldlM_pushDigit? (negative : Bool) (digits : List Char) {n : Nat} (m : Int)
    (hn : FitsLong (signedBy negative n)) :
    digits.foldlM (pushDigit? negative) (signedBy negative n) = some m ↔
      (∀ c ∈ digits, c.isDigit) ∧
        m = signedBy negative (10 ^ digits.length * n + placeValue digits) ∧ FitsLong m := by
  -- Over the digits that are left; `n` is what has been read and has fitted so far.
  induction digits generalizing n with
  | nil =>
    simp only [List.foldlM_nil, Option.pure_def, Option.some.injEq, List.length_nil, pow_zero,
      one_mul, placeValue, List.map_nil, List.reverse_nil, Nat.ofDigits_nil, Nat.add_zero]
    constructor
    · rintro rfl
      exact ⟨by simp, rfl, hn⟩
    · rintro ⟨_, rfl, _⟩
      rfl
  | cons c rest ih =>
    rw [List.foldlM_cons]
    by_cases hc : c.isDigit
    · have hplaces : 10 ^ (c :: rest).length * n + placeValue (c :: rest) =
          10 ^ rest.length * (10 * n + digitValue c) + placeValue rest := by
        rw [placeValue_cons, List.length_cons]
        ring
      rw [pushDigit?_signedBy negative n hc, hplaces]
      by_cases hfits : FitsLong (signedBy negative (10 * n + digitValue c))
      · rw [long?, if_pos hfits]
        simpa [hc] using ih hfits
      · -- The digits that are left only lead further away from zero.
        have hfar : 10 * n + digitValue c ≤
            10 ^ rest.length * (10 * n + digitValue c) + placeValue rest :=
          Nat.le_add_right_of_le (Nat.le_mul_of_pos_left _ (by positivity))
        rw [long?, if_neg hfits]
        constructor
        · intro h
          cases h
        · rintro ⟨_, rfl, hm⟩
          exact absurd (hm.of_le hfar) hfits
    · have hstops : pushDigit? negative (signedBy negative n) c = none := by simp [pushDigit?, hc]
      simp [hstops, hc]

/-- Reading from the start. -/
theorem foldlM_pushDigit?_zero {negative : Bool} {digits : List Char} {m : Int} :
    digits.foldlM (pushDigit? negative) 0 = some m ↔
      (∀ c ∈ digits, c.isDigit) ∧ m = signedBy negative (placeValue digits) ∧ FitsLong m := by
  have hzero : signedBy negative 0 = 0 := by cases negative <;> rfl
  have hfits : FitsLong (signedBy negative 0) := by
    rw [hzero]
    decide
  have hread := foldlM_pushDigit? negative digits m hfits
  rwa [hzero, Nat.mul_zero, Nat.zero_add] at hread

theorem digits?_eq_some_iff {negative : Bool} {digits : List Char} {m : Int} :
    digits? negative digits = some m ↔
      ∃ n, Numeral digits n ∧ m = signedBy negative n ∧ FitsLong m := by
  cases digits with
  | nil =>
    constructor
    · intro h
      cases h
    · rintro ⟨n, hn, _⟩
      exact absurd rfl hn.nonempty
  | cons c rest =>
    simp only [digits?, foldlM_pushDigit?_zero, isDigit_iff]
    constructor
    · rintro ⟨hdigits, hm⟩
      exact ⟨_, ⟨by simp, hdigits, rfl⟩, hm⟩
    · rintro ⟨n, ⟨_, hdigits, rfl⟩, hm⟩
      exact ⟨hdigits, hm⟩

/-! ## §4 Signs and the range of a word -/

/-- A sign is no digit, so a text that begins with one is no numeral. -/
theorem Numeral.ne_sign {c : Char} {rest : List Char} {n : Nat} (h : Numeral (c :: rest) n) :
    c ≠ '+' ∧ c ≠ '-' := by
  have hc := h.decimal c (by simp)
  constructor
  · rintro rfl
    exact absurd hc (by decide)
  · rintro rfl
    exact absurd hc (by decide)

theorem signed?_eq_some_iff {text : List Char} {m : Int} :
    signed? text = some m ↔ Spells text m ∧ FitsLong m := by
  unfold signed?
  split
  · next digits =>
    rw [digits?_eq_some_iff]
    constructor
    · rintro ⟨n, hn, rfl, hm⟩
      exact ⟨.plus hn, hm⟩
    · rintro ⟨hspells, hm⟩
      cases hspells with
      | plain hn => exact absurd rfl hn.ne_sign.1
      | plus hn => exact ⟨_, hn, rfl, hm⟩
  · next digits =>
    rw [digits?_eq_some_iff]
    constructor
    · rintro ⟨n, hn, rfl, hm⟩
      exact ⟨.minus hn, hm⟩
    · rintro ⟨hspells, hm⟩
      cases hspells with
      | plain hn => exact absurd rfl hn.ne_sign.2
      | minus hn => exact ⟨_, hn, rfl, hm⟩
  · next hplus hminus =>
    rw [digits?_eq_some_iff]
    constructor
    · rintro ⟨n, hn, rfl, hm⟩
      exact ⟨.plain hn, hm⟩
    · rintro ⟨hspells, hm⟩
      cases hspells with
      | plain hn => exact ⟨_, hn, rfl, hm⟩
      | plus hn => exact absurd rfl (hplus _)
      | minus hn => exact absurd rfl (hminus _)

theorem FitsWord.fitsLong {n : Int} (h : FitsWord n) : FitsLong n := by
  simp only [FitsWord, FitsLong] at h ⊢
  omega

theorem fitsWord_iff {n : Int} : FitsWord n ↔ -2 ^ 31 ≤ n ∧ n < 2 ^ 31 := by norm_num [FitsWord]

theorem fitsLong_iff {n : Int} : FitsLong n ↔ -2 ^ 63 ≤ n ∧ n < 2 ^ 63 := by norm_num [FitsLong]

/-- A literal has the value `v` exactly if its text spells `v` and a 32-bit word has room for it.
That holds of texts of every length, though no digit is ever added to a number outside the 64-bit
word. -/
theorem spelled_numbers_read :
    (∀ (text : String) (v : Int), intValue? text = some v ↔
      Spells text.toList v ∧ -2 ^ 31 ≤ v ∧ v < 2 ^ 31) ∧
    ∀ (negative : Bool) (read : List Char) (n : Int),
      read.foldlM (pushDigit? negative) 0 = some n → -2 ^ 63 ≤ n ∧ n < 2 ^ 63 := by
  refine ⟨fun text v => ?_, fun negative read n h => ?_⟩
  · rw [← fitsWord_iff, intValue?, Option.filter_eq_some_iff, decide_eq_true_eq,
      signed?_eq_some_iff]
    constructor
    · rintro ⟨⟨hspells, _⟩, hfits⟩
      exact ⟨hspells, hfits⟩
    · rintro ⟨hspells, hfits⟩
      exact ⟨⟨hspells, hfits.fitsLong⟩, hfits⟩
  · exact fitsLong_iff.1 (foldlM_pushDigit?_zero.1 h).2.2

-- Zeros in front of the least word, and a number that 64 bits would cut down to one.
example : intValue? "-00000000000000000000002147483648" = some (-2147483648) := by decide +kernel

example : intValue? "18446744073709551617" = none := by decide +kernel

end ArmCompiler.Literal
