import ArmCompiler.Proofs.Listings
import ArmCompiler.Proofs.Structured
import Mathlib.Data.List.Nodup
import Mathlib.Data.List.Perm.Lattice

/-!
# Labels and Branches

Which labels an instruction defines, branches to and loads, and which ones structured code can
have. A structured piece of code defines each of its local labels once and branches to no other
local label.

## Contents
- §1: labels in instructions
- §2: the steps of structured code
- §3: the labels that structured code defines
-/

namespace ArmCompiler

open Lower

/-! ## §1 Labels in instructions -/

namespace Instruction

/-- The label that an instruction defines. -/
def defines? : Instruction → Option String
  | .label name => some name
  | _ => none

/-- The label that an instruction branches to. -/
def target? : Instruction → Option String
  | .branch _ _ target => some target
  | _ => none

/-- The label whose address an instruction loads. -/
def loads? : Instruction → Option String
  | .ldr _ _ _ (.label name) => some name
  | _ => none

end Instruction

/-- The labels that instructions define, in order. -/
def labelsOf (code : List Instruction) : List String := code.filterMap (·.defines?)

@[simp] theorem labelsOf_nil : labelsOf [] = [] := rfl

@[simp] theorem labelsOf_append (a b : List Instruction) :
    labelsOf (a ++ b) = labelsOf a ++ labelsOf b :=
  List.filterMap_append

/-- Numbered names differ when their numbers do. -/
theorem eq_of_append_repr {base : String} {m n : Nat} (h : base ++ m.repr = base ++ n.repr) :
    m = n := by
  have hchars := congrArg String.toList h
  rw [String.toList_append, String.toList_append] at hchars
  have hdigits := List.append_cancel_left hchars
  rw [Nat.toList_repr, Nat.toList_repr] at hdigits
  -- Reading the digits back gives the number.
  have hvalue := congrArg (Nat.ofDigitChars 10 · 0) hdigits
  rwa [Nat.ofDigitChars_toDigits (by decide) (by decide),
    Nat.ofDigitChars_toDigits (by decide) (by decide)] at hvalue

/-- Different numbers make different labels. -/
theorem localLabel_injective : Function.Injective localLabel := fun _ _ h => eq_of_append_repr h

theorem labelAt_injective : Function.Injective Listing.labelAt := fun _ _ h => eq_of_append_repr h

namespace Pseudo

/-- The label that a pseudo-instruction defines. -/
def defines? : Pseudo → Option String
  | .instr i => i.defines?
  | .routine .. | .message .. | .reserve _ | .unreserve _ => none

theorem labelsOf_adjustStack (op : ArithOp) (limit bytes : Nat) :
    labelsOf (adjustStack op limit bytes) = [] := by
  simp [labelsOf, adjustStack, Instruction.op, Instruction.defines?]

end Pseudo

/-- The labels that pseudo-instructions define, in order. -/
def definedLabels (code : List Pseudo) : List String := code.filterMap (·.defines?)

section DefinedLabels

variable (name : String) (cond : Condition) (code : List Pseudo)

@[simp] theorem definedLabels_nil : definedLabels [] = [] := rfl

@[simp] theorem definedLabels_append (a b : List Pseudo) :
    definedLabels (a ++ b) = definedLabels a ++ definedLabels b :=
  List.filterMap_append

@[simp] theorem definedLabels_label :
    definedLabels (.instr (.label name) :: code) = name :: definedLabels code := rfl

@[simp] theorem definedLabels_jump :
    definedLabels (.instr (.jump name) :: code) = definedLabels code := rfl

@[simp] theorem definedLabels_jumpIf :
    definedLabels (.instr (.jumpIf cond name) :: code) = definedLabels code := rfl

@[simp] theorem definedLabels_call :
    definedLabels (.instr (.call name) :: code) = definedLabels code := rfl

@[simp] theorem definedLabels_pop (r : Register) :
    definedLabels (.instr (.pop r) :: code) = definedLabels code := rfl

@[simp] theorem definedLabels_reserve (bytes : Nat) :
    definedLabels (.reserve bytes :: code) = definedLabels code := rfl

@[simp] theorem definedLabels_unreserve (bytes : Nat) :
    definedLabels (.unreserve bytes :: code) = definedLabels code := rfl

end DefinedLabels

/-- Expanding adds no label. -/
theorem labelsOf_plain (limit : Nat) (message : String → String) (code : List Pseudo) :
    labelsOf (code.flatMap (·.plain limit message)) = definedLabels code := by
  induction code with
  | nil => rfl
  | cons p rest ih =>
    rw [List.flatMap_cons, labelsOf_append, ih]
    cases p with
    | instr i => cases i <;> rfl
    | routine cond r => rfl
    | message dst text => rfl
    | reserve bytes | unreserve bytes => simp [Pseudo.plain, Pseudo.labelsOf_adjustStack]

/-! ## §2 The steps of structured code -/

/-- The steps that structured code with local labels from `first` up to, but without, `next` can
be made of. -/
inductive Step (W : Register → Prop) (known : String → Prop) (first next : Nat) : Pseudo → Prop where
  | straight {S : Int → Prop} {p : Pseudo} (h : Straight W S p) : Step W known first next p
  | push {width : Width} {r : Register} :
      Step W known first next (.instr (.str width r (.preIndexed .sp (-(slotBytes : Int)))))
  | call {name : String} (h : known name) :
      Step W known first next (.instr (.call (functionLabel name)))
  | reserve {bytes : Nat} : Step W known first next (.reserve bytes)
  | unreserve {bytes : Nat} : Step W known first next (.unreserve bytes)
  | pop : Step W known first next (.instr (.pop .pc))
  | branch {cond : Option Condition} {n : Nat} (hfirst : first ≤ n) (hnext : n < next) :
      Step W known first next (.instr (.branch false cond (localLabel n)))
  | label {n : Nat} (hfirst : first ≤ n) (hnext : n < next) :
      Step W known first next (.instr (.label (localLabel n)))

section Steps

variable {W : Register → Prop} {known : String → Prop}

/-- A step within a range of labels is within a wider one. -/
theorem Step.mono {first next first' next' : Nat} {p : Pseudo} (h : Step W known first next p)
    (hfirst : first' ≤ first) (hnext : next ≤ next') : Step W known first' next' p := by
  cases h with
  | straight h => exact .straight h
  | push => exact .push
  | call h => exact .call h
  | reserve => exact .reserve
  | unreserve => exact .unreserve
  | pop => exact .pop
  | branch hf hn => exact .branch (by omega) (by omega)
  | label hf hn => exact .label (by omega) (by omega)

theorem Pushes.steps {S : Nat → Int → Prop} {count first next : Nat} {code : List Pseudo}
    (h : Pushes W S count code) : ∀ p ∈ code, Step W known first next p := by
  induction h with
  | nil => simp
  | snoc _ harg ih =>
    intro p hp
    simp only [List.mem_append, List.mem_singleton] at hp
    rcases hp with hp | hp | rfl
    · exact ih p hp
    · exact .straight (harg p hp)
    · exact .push

/-- Structured code is made of such steps only. -/
theorem Structured.steps {depth : Int} {n n' : Nat} {code : List Pseudo}
    (h : Structured W known depth n n' code) : ∀ p ∈ code, Step W known n n' p := by
  induction h with
  | straight hcode => exact fun p hp => .straight (hcode p hp)
  | append ha hb iha ihb =>
    intro p hp
    rcases List.mem_append.1 hp with hp | hp
    -- Each part has its own range of labels inside that of the whole.
    · exact (iha p hp).mono (Nat.le_refl _) hb.label_le
    · exact (ihb p hp).mono ha.label_le (Nat.le_refl _)
  | call hknown hpushes =>
    intro p hp
    simp only [List.mem_append, List.mem_cons, List.not_mem_nil, or_false] at hp
    rcases hp with hp | rfl | rfl
    · exact hpushes.steps p hp
    · exact .call hknown
    · exact .unreserve
  | scope _ ih =>
    intro p hp
    simp only [scopeCode, List.mem_cons, List.mem_append, List.not_mem_nil, or_false] at hp
    rcases hp with rfl | hp | rfl
    · exact .reserve
    · exact ih p hp
    · exact .unreserve
  | ret =>
    intro p hp
    simp only [List.mem_cons, List.not_mem_nil, or_false] at hp
    rcases hp with rfl | rfl
    · exact .unreserve
    · exact .pop
  | ifThen hcond harm ih =>
    -- The label of the end was taken first, so it is the lowest of the range.
    have hle := harm.label_le
    intro p hp
    simp only [ifThenCode, List.mem_append, List.mem_cons, List.not_mem_nil, or_false] at hp
    rcases hp with hp | rfl | hp | rfl
    · exact .straight (hcond p hp)
    · exact .branch (by omega) (by omega)
    · exact (ih p hp).mono (by omega) (by omega)
    · exact .label (by omega) (by omega)
  | ifElse hcond hthen helse ihThen ihElse =>
    have hle := hthen.label_le
    have hle' := helse.label_le
    intro p hp
    simp only [ifElseCode, List.mem_append, List.mem_cons, List.not_mem_nil, or_false] at hp
    rcases hp with hp | rfl | hp | rfl | rfl | hp | rfl
    · exact .straight (hcond p hp)
    · exact .branch (by omega) (by omega)
    · exact (ihThen p hp).mono (by omega) (by omega)
    · exact .branch (by omega) (by omega)
    · exact .label (by omega) (by omega)
    · exact (ihElse p hp).mono (by omega) (by omega)
    · exact .label (by omega) (by omega)
  | loop hround hcond ih =>
    have hle := hround.label_le
    intro p hp
    simp only [loopCode, List.mem_append, List.mem_cons, List.not_mem_nil, or_false] at hp
    rcases hp with rfl | rfl | hp | rfl | hp | rfl
    · exact .branch (by omega) (by omega)
    · exact .label (by omega) (by omega)
    · exact (ih p hp).mono (by omega) (by omega)
    · exact .label (by omega) (by omega)
    · exact .straight (hcond p hp)
    · exact .branch (by omega) (by omega)
  | untilLoop hround hcond ih =>
    have hle := hround.label_le
    intro p hp
    simp only [untilCode, List.mem_append, List.mem_cons, List.not_mem_nil, or_false] at hp
    rcases hp with rfl | hp | hp | rfl
    · exact .label (by omega) (by omega)
    · exact (ih p hp).mono (by omega) (by omega)
    · exact .straight (hcond p hp)
    · exact .branch (by omega) (by omega)

end Steps

/-! ## §3 The labels that structured code defines -/

/-- The local labels with numbers from `first` up to, but without, `next`. -/
def localLabels (first next : Nat) : List String :=
  (List.range' first (next - first)).map localLabel

@[simp] theorem localLabels_self (n : Nat) : localLabels n n = [] := by
  simp [localLabels]

theorem localLabels_cons {first next : Nat} (h : first < next) :
    localLabels first next = localLabel first :: localLabels (first + 1) next := by
  obtain ⟨count, hcount⟩ : ∃ count, next - first = count + 1 := ⟨next - first - 1, by omega⟩
  have hrest : next - (first + 1) = count := by omega
  simp [localLabels, hcount, hrest, List.range'_succ]

/-- Two ranges of labels, the second from where the first ends. -/
theorem localLabels_append {first mid next : Nat} (h : first ≤ mid) (h' : mid ≤ next) :
    localLabels first mid ++ localLabels mid next = localLabels first next := by
  have hsum : next - first = (mid - first) + (next - mid) := by omega
  have hmid : first + (mid - first) = mid := by omega
  rw [localLabels, localLabels, localLabels, ← List.map_append, hsum, ← List.range'_append_1, hmid]

section Defined

variable {W : Register → Prop} {known : String → Prop} {depth : Int}

theorem Straight.defines?_eq {S : Int → Prop} {p : Pseudo} (h : Straight W S p) : p.defines? = none := by
  cases h <;> rfl

/-- Straight code defines no label. -/
theorem StraightCode.labels {S : Int → Prop} {code : List Pseudo} (h : StraightCode W S code) :
    definedLabels code = [] :=
  List.filterMap_eq_nil_iff.2 fun p hp => (h p hp).defines?_eq

/-- Pushing arguments defines no label. -/
theorem Pushes.labels {S : Nat → Int → Prop} {count : Nat} {code : List Pseudo}
    (h : Pushes W S count code) : definedLabels code = [] := by
  induction h with
  | nil => rfl
  | snoc _ harg ih =>
    rw [definedLabels_append, definedLabels_append, ih, harg.labels]
    rfl

/-- Structured code defines each of its local labels once, and no other label. -/
theorem Structured.labels_perm {n n' : Nat} {code : List Pseudo}
    (h : Structured W known depth n n' code) :
    (definedLabels code).Perm (localLabels n n') := by
  induction h with
  | straight hcode => simp [hcode.labels]
  | append ha hb iha ihb =>
    rw [definedLabels_append, ← localLabels_append ha.label_le hb.label_le]
    exact iha.append ihb
  | call hknown hpushes => simp [hpushes.labels]
  | scope _ ih => simpa [scopeCode] using ih
  | ret => simp
  | ifThen hcond harm ih =>
    rw [localLabels_cons harm.label_le]
    simp only [ifThenCode, definedLabels_append, hcond.labels, definedLabels_jumpIf,
      definedLabels_label, definedLabels_nil, List.nil_append]
    -- The lowest label is defined last.
    exact (List.perm_append_singleton ..).trans (ih.cons _)
  | @ifElse _ n n' n'' _ thenArm elseArm hcond hthen helse ihThen ihElse =>
    have hle := hthen.label_le
    have hle' := helse.label_le
    rw [localLabels_cons (by omega), localLabels_cons (by omega),
      ← localLabels_append hle hle']
    simp only [ifElseCode, definedLabels_append, hcond.labels, definedLabels_jumpIf,
      definedLabels_jump, definedLabels_label, definedLabels_nil, List.nil_append]
    -- The label of the end moves to the front, then that of the second arm.
    have hlast : (definedLabels thenArm ++
        localLabel (n + 1) :: (definedLabels elseArm ++ [localLabel n])).Perm
        (localLabel n ::
          (definedLabels thenArm ++ localLabel (n + 1) :: definedLabels elseArm)) := by
      simpa using List.perm_append_singleton (localLabel n)
        (definedLabels thenArm ++ localLabel (n + 1) :: definedLabels elseArm)
    exact hlast.trans ((List.perm_middle.trans ((ihThen.append ihElse).cons _)).cons _)
  | @loop _ n _ _ _ hround hcond ih =>
    have hle := hround.label_le
    rw [localLabels_cons (by omega), localLabels_cons (by omega)]
    simp only [loopCode, definedLabels_append, hcond.labels, definedLabels_jumpIf,
      definedLabels_jump, definedLabels_label, definedLabels_nil, List.nil_append]
    -- The label of the check, which is the lower one, comes after the round.
    have hlast := (List.perm_append_singleton (localLabel n) _).trans (ih.cons _)
    exact (hlast.cons _).trans (List.Perm.swap ..)
  | untilLoop hround hcond ih =>
    rw [localLabels_cons hround.label_le]
    simpa [untilCode, hcond.labels] using ih

end Defined

end ArmCompiler
