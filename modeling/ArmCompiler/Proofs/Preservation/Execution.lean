import ArmCompiler.Proofs.Preservation.State
import ArmCompiler.Proofs.StackDiscipline

/-!
# Executing Emitted Code

Rules for showing that a sequence is left in a wanted way, one for each instruction that emitted
code uses. They are applied from the first instruction on: to show that execution from an
instruction ends well, show that it does from the next one, in the machine that the instruction
leaves.

## Contents
- §1: what instructions do
- §2: ends of a sequence
- §3: control
- §4: data and arithmetic
- §5: the stack pointer
-/

namespace ArmCompiler

open Instruction Literal

/-! ## §1 What instructions do -/

/-- Writing a register other than the program counter. -/
theorem Machine.write_of_ne {r : Register} (hr : r ≠ .pc) (m : Machine) (w : Word) :
    m.write r w = .next (m.set r w) := if_neg hr

namespace Instruction

variable {m : Machine} {dst : Register} (hdst : dst ≠ .pc)
include hdst

theorem exec_move (src : Register) : (move dst src).exec m = .next (m.set dst (m.regs src)) :=
  m.write_of_ne hdst _

theorem exec_movIf (cond : Condition) (src : Operand) :
    (mov (some cond) dst src).exec m =
      .next (if cond.holds m.flags then m.set dst (src.value m) else m) := by
  cases hholds : cond.holds m.flags <;> simp [exec, Machine.guard, hholds, m.write_of_ne hdst]

/-- Adding or subtracting sets the overflow flag exactly if the result does not fit. -/
theorem exec_opFlags {op : ArithOp} {lhs : Register} {rhs : Operand} {n : Int}
    (hexact : op.result? (m.regs lhs).toInt (rhs.value m).toInt = some n) :
    ∃ m', (opFlags op dst lhs rhs).exec m = .next m' ∧ m.Delivers (· = dst) dst n m' ∧
      Condition.vs.holds m'.flags = !decide (FitsWord n) := by
  obtain ⟨hvalue, hflag⟩ := @ArithOp.apply_result op m.flags _ _ n hexact
  let flagged : Machine := { m with flags := (op.apply m.flags (m.regs lhs) (rhs.value m)).2 }
  refine ⟨flagged.set dst (BitVec.ofInt 32 n), ?_, ⟨⟨rfl, ?_⟩, flagged.regs_set_self dst _⟩, hflag⟩
  · rw [← hvalue]
    exact flagged.write_of_ne hdst _
  · exact fun r hr => flagged.regs_set_of_ne dst r _ hr

/-- After multiplying, the high word differs from the sign of the low one exactly if the product
does not fit. -/
theorem exec_smull {hi : Register} (hhi : hi ≠ .pc) (hne : hi ≠ dst) :
    ∃ product m', (smull dst hi dst hi).exec m = .next product ∧
      (cmp hi (.shifted dst (.asr 31))).exec product = .next m' ∧
      m.Delivers (fun r => r = dst ∨ r = hi) dst ((m.regs dst).toInt * (m.regs hi).toInt) m' ∧
      Condition.ne.holds m'.flags =
        !decide (FitsWord ((m.regs dst).toInt * (m.regs hi).toInt)) := by
  have hbounds := product_bounds (m.regs dst) (m.regs hi)
  generalize hn : (m.regs dst).toInt * (m.regs hi).toInt = n at hbounds
  let product := (m.set dst (BitVec.ofInt 32 n)).set hi (BitVec.ofInt 32 (n / 2 ^ 32))
  have hexec : (smull dst hi dst hi).exec m = .next product := by
    simp only [exec, if_neg hdst, signExtend_mul, hn, setWidth_ofInt, setWidth_shift_ofInt,
      Machine.write_of_ne hhi, product]
  have hlow : product.regs dst = BitVec.ofInt 32 n := by
    rw [Machine.regs_set_of_ne _ _ _ _ hne.symm, Machine.regs_set_self]
  have hzero : (compareFlags (product.regs hi)
      ((Operand.shifted dst (.asr 31)).value product)).zero = decide (FitsWord n) := by
    rw [compareFlags_zero, Operand.value, hlow, Machine.regs_set_self]
    simp only [high_eq_sign_iff hbounds.1 hbounds.2]
  -- The high word is not needed any more, so both registers count as written.
  have hkeeps : m.Keeps (fun r => r = dst ∨ r = hi) product :=
    .trans (.set (.inl rfl) _) (.set (.inr rfl) _)
  refine ⟨product, _, hexec, rfl, ⟨⟨hkeeps.memory, hkeeps.regs⟩, hlow⟩, ?_⟩
  rw [Condition.holds, hzero]

/-- Comparing, and setting a register to whether a condition holds. -/
theorem exec_compare (cond : Condition) (rhs : Operand) :
    ∃ m₁ m₂ m', (cmp dst rhs).exec m = .next m₁ ∧
      (mov (some cond) dst (.imm 1)).exec m₁ = .next m₂ ∧
      (mov (some cond.inverse) dst (.imm 0)).exec m₂ = .next m' ∧
      m.Delivers (· = dst) dst (cond.holds (compareFlags (m.regs dst) (rhs.value m))).toInt m' := by
  generalize hflags : compareFlags (m.regs dst) (rhs.value m) = flags
  let compared : Machine := { m with flags }
  have hcmp : (cmp dst rhs).exec m = .next compared := by
    rw [exec, hflags]
  refine ⟨_, _, _, hcmp, exec_movIf hdst .., exec_movIf hdst .., ?_⟩
  -- The flags do not change between the two moves, so exactly one of them takes effect.
  have hset : ∀ w, m.Keeps (· = dst) (compared.set dst w) :=
    fun w => ⟨rfl, fun r hr => compared.regs_set_of_ne dst r w hr⟩
  cases hholds : cond.holds flags with
  | true =>
    simp only [compared, hholds, if_true, Machine.flags_set, Condition.holds_inverse, Bool.not_true,
      Bool.false_eq_true, if_false]
    exact ⟨hset _, compared.regs_set_self dst _⟩
  | false =>
    simp only [compared, hholds, Condition.holds_inverse, Bool.not_false, Bool.false_eq_true,
      if_false, if_true]
    exact ⟨hset _, compared.regs_set_self dst _⟩

end Instruction

/-! ## §2 Ends of a sequence -/

/-- How an early end of a program shows on the machine. The link register was saved at `top`. -/
def Stop.Shows (top link : Word) : Stop → Halt → Prop
  | .returned n, .returned m =>
    m.regs .r0 = BitVec.ofInt 32 n ∧ m.regs .pc = link ∧ m.regs .sp = top + 4
  | .exited n, .called target m => target = "exit" ∧ m.regs .r0 = BitVec.ofInt 32 n
  | .overflow, .called target _ => target = "p_throw_overflow_error"
  | _, _ => False

/-- A sequence that is executed, how its pseudo-instructions were expanded, the place and the value
of its saved link register, and what is wanted of the way in which it is left. -/
structure Site where
  code : List Instruction
  labels : (labelsOf code).Nodup
  limit : Nat
  message : String → String
  top : Word
  link : Word
  wanted : Halt → Prop

namespace Site

/-- The plain instructions of lowered code. -/
def plain (site : Site) (code : List Pseudo) : List Instruction :=
  code.flatMap (·.plain site.limit site.message)

@[simp] theorem plain_nil (site : Site) : site.plain [] = [] := rfl

@[simp] theorem plain_append (site : Site) (a b : List Pseudo) :
    site.plain (a ++ b) = site.plain a ++ site.plain b := List.flatMap_append

@[simp] theorem plain_instr (site : Site) (i : Instruction) (code : List Pseudo) :
    site.plain (.instr i :: code) = i :: site.plain code := rfl

@[simp] theorem plain_routine (site : Site) (cond : Option Condition) (r : Routine)
    (code : List Pseudo) :
    site.plain (.routine cond r :: code) = .branch true cond r.label :: site.plain code := rfl

@[simp] theorem plain_reserve (site : Site) (bytes : Nat) (code : List Pseudo) :
    site.plain (.reserve bytes :: code) =
      adjustStack .sub site.limit bytes ++ site.plain code := rfl

@[simp] theorem plain_unreserve (site : Site) (bytes : Nat) (code : List Pseudo) :
    site.plain (.unreserve bytes :: code) =
      adjustStack .add site.limit bytes ++ site.plain code := rfl

/-- From some instructions on, the sequence is left in a wanted way. -/
def Ends (site : Site) (rest : List Instruction) (m : Machine) : Prop :=
  ∃ halt, Runs site.code rest m halt ∧ site.wanted halt

/-- An early end is wanted. -/
def Stops (site : Site) (how : Stop) : Prop :=
  ∀ halt, how.Shows site.top site.link halt → site.wanted halt

/-- A result after which the sequence is left in a wanted way: from `rest` on if it is a value, in
every machine that is good for the value, and at once if it is an early end. -/
def Goes (site : Site) {α : Type} (rest : List Instruction) (good : α → Machine → Prop) :
    Result α → Prop :=
  Result.Meets (fun a => ∀ m, good a m → site.Ends rest m) site.Stops

variable {site : Site} {rest : List Instruction} {m m' : Machine} {i : Instruction}

/-! ## §3 Control -/

theorem Ends.next (hexec : i.exec m = .next m') (h : site.Ends rest m') :
    site.Ends (i :: rest) m := by
  obtain ⟨halt, hruns, hwanted⟩ := h
  exact ⟨halt, .next hexec hruns, hwanted⟩

theorem Ends.call {target : String} (hexec : i.exec m = .call target m')
    (h : site.wanted (.called target m')) : site.Ends (i :: rest) m :=
  ⟨_, .call hexec, h⟩

theorem Ends.ret (hexec : i.exec m = .ret m') (h : site.wanted (.returned m')) :
    site.Ends (i :: rest) m :=
  ⟨_, .ret hexec, h⟩

/-- Popping the saved link register into the program counter returns what is in `r0`. -/
theorem Ends.popLink {n : Int} (hstack : m.regs .sp = site.top)
    (hsaved : m.loadWord site.top = site.link) (hvalue : m.regs .r0 = BitVec.ofInt 32 n)
    (h : site.Stops (.returned n)) : site.Ends (.pop .pc :: rest) m := by
  refine .ret rfl (h _ ⟨?_, ?_, ?_⟩)
  · rw [Machine.regs_set_of_ne _ _ _ _ (by decide), Machine.regs_set_of_ne _ _ _ _ (by decide)]
    exact hvalue
  · rw [Machine.regs_set_self, hstack]
    exact hsaved
  · rw [Machine.regs_set_of_ne _ _ _ _ (by decide), Machine.regs_set_self, hstack]

/-- Where the labels of a sequence are distinct, a branch finds the instructions below its
label. -/
theorem resume_of_suffix {code target : List Instruction} {name : String}
    (hlabels : (labelsOf code).Nodup) (h : .label name :: target <:+ code) :
    resume name code = some target := by
  obtain ⟨before, rfl⟩ := h
  induction before with
  | nil => simp [resume]
  | cons i before ih =>
    have htail : (labelsOf (before ++ .label name :: target)).Nodup :=
      hlabels.sublist ((List.sublist_cons_self i _).filterMap _)
    -- The search does not stop earlier: the label would be there twice.
    have hother : i ≠ .label name := by
      rintro rfl
      have hfresh : name ∉ labelsOf (before ++ .label name :: target) := by
        have hnodup : (name :: labelsOf (before ++ .label name :: target)).Nodup := hlabels
        exact (List.nodup_cons.1 hnodup).1
      exact hfresh (by simp [labelsOf, Instruction.defines?])
    rw [List.cons_append, resume, if_neg hother]
    exact ih htail

theorem Ends.jump {name : String} {target : List Instruction}
    (hat : .label name :: target <:+ site.code) (hexec : i.exec m = .jump name m')
    (h : site.Ends target m') : site.Ends (i :: rest) m := by
  obtain ⟨halt, hruns, hwanted⟩ := h
  exact ⟨halt, .jump hexec (resume_of_suffix site.labels hat) hruns, hwanted⟩

/-- A conditional jump goes one way or the other. -/
theorem Ends.jumpIf {cond : Condition} {name : String} {target : List Instruction}
    (hat : .label name :: target <:+ site.code)
    (htaken : cond.holds m.flags = true → site.Ends target m)
    (hpassed : cond.holds m.flags = false → site.Ends rest m) :
    site.Ends (Instruction.jumpIf cond name :: rest) m := by
  cases hholds : cond.holds m.flags with
  | true =>
    refine .jump hat ?_ (htaken hholds)
    simp [Instruction.jumpIf, exec, Machine.guard, hholds]
  | false =>
    refine .next ?_ (hpassed hholds)
    simp [Instruction.jumpIf, exec, Machine.guard, hholds]

/-- A conditional call leaves the sequence or does nothing. -/
theorem Ends.callIf {cond : Condition} {name : String}
    (htaken : cond.holds m.flags = true → site.wanted (.called name m))
    (hpassed : cond.holds m.flags = false → site.Ends rest m) :
    site.Ends (.branch true (some cond) name :: rest) m := by
  cases hholds : cond.holds m.flags with
  | true => exact .call (by simp [exec, Machine.guard, hholds]) (htaken hholds)
  | false => exact .next (by simp [exec, Machine.guard, hholds]) (hpassed hholds)

/-- A call of the overflow routine on the condition that the exact result does not fit. -/
theorem Ends.callUnlessFits {cond : Condition} {W : Register → Prop} {dst : Register} {n : Int}
    (hdelivers : m.Delivers W dst n m') (hholds : cond.holds m'.flags = !decide (FitsWord n))
    (h : site.Goes rest (m.Delivers W dst) (checked n)) :
    site.Ends (.branch true (some cond) Routine.throwOverflow.label :: rest) m' := by
  simp only [Goes, checked] at h
  by_cases hfits : FitsWord n
  · rw [if_pos hfits] at h
    refine .callIf (fun htaken => ?_) fun _ => h m' hdelivers
    simp [hholds, hfits] at htaken
  · rw [if_neg hfits] at h
    refine .callIf (fun _ => h _ rfl) fun hpassed => ?_
    simp [hholds, hfits] at hpassed

/-! ## §4 Data and arithmetic -/

variable {dst : Register} (hdst : dst ≠ .pc)
include hdst

theorem Ends.mov {src : Operand} (h : site.Ends rest (m.set dst (src.value m))) :
    site.Ends (.mov none dst src :: rest) m :=
  .next (m.write_of_ne hdst _) h

theorem Ends.loadConst {value : Int}
    (h : site.Ends rest (m.set dst (BitVec.ofInt 32 value))) :
    site.Ends (Instruction.loadConst dst value :: rest) m :=
  .next (m.write_of_ne hdst _) h

theorem Ends.ldr {width : Width} {base : Register} {offset : Int}
    (h : site.Ends rest (m.set dst (m.load width (m.regs base + BitVec.ofInt 32 offset)))) :
    site.Ends (.ldr none width dst (.offset base offset) :: rest) m :=
  .next (m.write_of_ne hdst _) h

theorem Ends.op {op : ArithOp} {lhs : Register} {rhs : Operand}
    (h : site.Ends rest (m.set dst (op.apply m.flags (m.regs lhs) (rhs.value m)).1)) :
    site.Ends (Instruction.op op dst lhs rhs :: rest) m :=
  .next (m.write_of_ne hdst _) h

/-- An operation whose result is known. -/
theorem Ends.opValue {op : ArithOp} {lhs : Register} {rhs : Operand} {n : Int}
    (hvalue : (op.apply m.flags (m.regs lhs) (rhs.value m)).1 = BitVec.ofInt 32 n)
    (h : site.Goes rest (m.Delivers (· = dst) dst) (.done n)) :
    site.Ends (Instruction.op op dst lhs rhs :: rest) m := by
  refine .op hdst ?_
  rw [hvalue]
  exact h _ (Machine.delivers_set rfl)

/-- Adding or subtracting, and leaving the sequence if the result does not fit. -/
theorem Ends.checkedOp {op : ArithOp} {lhs : Register} {rhs : Operand} {n : Int}
    (hexact : op.result? (m.regs lhs).toInt (rhs.value m).toInt = some n)
    (h : site.Goes rest (m.Delivers (· = dst) dst) (checked n)) :
    site.Ends (opFlags op dst lhs rhs ::
      .branch true (some .vs) Routine.throwOverflow.label :: rest) m := by
  obtain ⟨m', hexec, hdelivers, hflag⟩ := exec_opFlags hdst hexact
  exact .next hexec (.callUnlessFits hdelivers hflag h)

/-- Multiplying, and leaving the sequence if the product does not fit. -/
theorem Ends.checkedMul {hi : Register} (hhi : hi ≠ .pc) (hne : hi ≠ dst)
    (h : site.Goes rest (m.Delivers (fun r => r = dst ∨ r = hi) dst)
      (checked ((m.regs dst).toInt * (m.regs hi).toInt))) :
    site.Ends (.smull dst hi dst hi :: .cmp hi (.shifted dst (.asr 31)) ::
      .branch true (some .ne) Routine.throwOverflow.label :: rest) m := by
  obtain ⟨product, m', hmul, hcmp, hdelivers, hflag⟩ := exec_smull hdst hhi hne
  exact .next hmul (.next hcmp (.callUnlessFits hdelivers hflag h))

theorem Ends.compare {cond : Condition} {rhs : Operand}
    (h : site.Goes rest (m.Delivers (· = dst) dst)
      (.done (cond.holds (compareFlags (m.regs dst) (rhs.value m))).toInt)) :
    site.Ends (.cmp dst rhs :: .mov (some cond) dst (.imm 1) ::
      .mov (some cond.inverse) dst (.imm 0) :: rest) m := by
  obtain ⟨m₁, m₂, m', hcmp, hset, hclear, hdelivers⟩ := exec_compare hdst cond rhs
  exact .next hcmp (.next hset (.next hclear (h m' hdelivers)))

omit hdst

/-! ## §5 The stack pointer -/

theorem apply_add (flags : Flags) (x : Word) (k : Int) :
    (ArithOp.add.apply flags x (BitVec.ofInt 32 k)).1 = x + BitVec.ofInt 32 (1 * k) := by
  rw [(ArithOp.apply_result rfl).1, BitVec.ofInt_add, BitVec.ofInt_toInt, BitVec.ofInt_toInt,
    one_mul]

theorem apply_sub (flags : Flags) (x : Word) (k : Int) :
    (ArithOp.sub.apply flags x (BitVec.ofInt 32 k)).1 = x + BitVec.ofInt 32 (-1 * k) := by
  rw [(ArithOp.apply_result rfl).1, Int.sub_eq_add_neg, BitVec.ofInt_add, BitVec.ofInt_neg,
    BitVec.ofInt_toInt, BitVec.ofInt_toInt, neg_one_mul, BitVec.ofInt_neg]

/-- Moving the stack pointer in steps, all up or all down, moves it by their sum. -/
theorem Ends.moveStack {op : ArithOp} {sign : Int}
    (hop : ∀ flags x k, (op.apply flags x (BitVec.ofInt 32 k)).1 = x + BitVec.ofInt 32 (sign * k))
    (steps : List Nat)
    (h : site.Ends rest (m.set .sp (m.regs .sp + BitVec.ofInt 32 (sign * steps.sum)))) :
    site.Ends (steps.map (fun step : Nat => Instruction.op op .sp .sp (.imm step)) ++ rest) m := by
  induction steps generalizing m with
  | nil => simpa using h
  | cons step steps ih =>
    refine .op (by decide) (ih ?_)
    have htotal : sign * step + sign * steps.sum = sign * ((step :: steps).sum : Nat) := by
      rw [List.sum_cons, Nat.cast_add, mul_add]
    rw [Operand.value, hop, Machine.regs_set_self, Machine.set_set, BitVec.add_assoc,
      ← BitVec.ofInt_add, htotal]
    exact h

variable {limit bytes : Nat}

theorem Ends.reserve (h : site.Ends rest (m.set .sp (m.regs .sp - BitVec.ofInt 32 bytes))) :
    site.Ends (adjustStack .sub limit bytes ++ rest) m := by
  refine .moveStack apply_sub _ ?_
  rwa [sum_chunks, neg_one_mul, BitVec.ofInt_neg, ← BitVec.sub_eq_add_neg]

theorem Ends.unreserve (h : site.Ends rest (m.set .sp (m.regs .sp + BitVec.ofInt 32 bytes))) :
    site.Ends (adjustStack .add limit bytes ++ rest) m := by
  refine .moveStack apply_add _ ?_
  rwa [sum_chunks, one_mul]

end Site

end ArmCompiler
