import ArmCompiler.Proofs.Expansion
import ArmCompiler.Proofs.Outcomes
import ArmCompiler.Proofs.Preservation.Expr

/-!
# What the Code of an Expression Computes

The code of an expression without heap accesses, executed in any machine, leaves the value of the
expression in the register that lowering gives it, or ends with a run-time error exactly if the
evaluation meets an overflow or a zero divisor. Main statement: `Expr.lower_computes`.

The value is that of a strict evaluator on words that works from left to right, while the code
computes the heavier operand first. Nothing is asked of the frame or of the values of variables: a
truth value may be any word, and the connectives are bitwise. Division is left to library functions,
of which only what they return and what they preserve is known.

## Contents
- §1: straight runs
- §2: evaluation on words
- §3: runs that yield a value
- §4: operators
- §5: operands
- §6: expressions
-/

namespace ArmCompiler

open Instruction Literal Lower

/-! ## §1 Straight runs -/

/-- What calling the code at a label does. There is no machine after a call that ends the program
with an error. -/
abbrev Environment := String → Machine → Option Machine

/-- How a run of instructions ends. -/
inductive RunEnd where
  | finished (m : Machine)
  /-- With a run-time error, in the machine that made the call. -/
  | failed (m : Machine)
  /-- Where an instruction has no meaning, or leaves the instructions for good. -/
  | stuck

/-- Executes instructions one after the other. -/
def Environment.run (env : Environment) : List Instruction → Machine → RunEnd
  | [], m => .finished m
  | i :: rest, m =>
    match i.exec m with
    | .next m' => env.run rest m'
    | .call target m' =>
      match env target m' with
      | some m'' => env.run rest m''
      | none => .failed m'
    | .jump .. | .ret _ | .stuck => .stuck

/-- Registers that called code need not preserve. -/
def Register.Scratch (r : Register) : Prop := r ∉ Register.general ∧ r ≠ .sp

instance : DecidablePred Register.Scratch := fun r =>
  inferInstanceAs (Decidable (r ∉ Register.general ∧ r ≠ .sp))

/-- What is known of the code outside: the overflow routine ends the program, and so does the
divisor check if the divisor is zero; division leaves the quotient in `r0` and the remainder in
`r1`; and what comes back preserves the general registers, the stack pointer and the memory. -/
structure Environment.Conforms (env : Environment) : Prop where
  overflow : ∀ m, env Routine.throwOverflow.label m = none
  zeroDivisor : ∀ m : Machine, m.regs .r1 = 0 → env Routine.checkDivideByZero.label m = none
  divisor : ∀ m : Machine, m.regs .r1 ≠ 0 → ∃ m', env Routine.checkDivideByZero.label m = some m' ∧
    m.Keeps Register.Scratch m' ∧ m'.regs .r0 = m.regs .r0 ∧ m'.regs .r1 = m.regs .r1
  quotient : ∀ m : Machine, m.regs .r1 ≠ 0 → ∃ m', env "__aeabi_idiv" m = some m' ∧
    m.Keeps Register.Scratch m' ∧ m'.regs .r0 = (m.regs .r0).sdiv (m.regs .r1)
  remainder : ∀ m : Machine, m.regs .r1 ≠ 0 → ∃ m', env "__aeabi_idivmod" m = some m' ∧
    m.Keeps Register.Scratch m' ∧ m'.regs .r0 = (m.regs .r0).sdiv (m.regs .r1) ∧
      m'.regs .r1 = (m.regs .r0).srem (m.regs .r1)

namespace Environment

section Run

variable {env : Environment} {i : Instruction} {rest : List Instruction} {m m' m'' : Machine}
  {target : String}

theorem run_next (h : i.exec m = .next m') : env.run (i :: rest) m = env.run rest m' := by
  simp only [run, h]

theorem run_call (h : i.exec m = .call target m') (hback : env target m' = some m'') :
    env.run (i :: rest) m = env.run rest m'' := by
  simp only [run, h, hback]

theorem run_fail (h : i.exec m = .call target m') (hend : env target m' = none) :
    env.run (i :: rest) m = .failed m' := by
  simp only [run, h, hend]

theorem run_append (a b : List Instruction) (m : Machine) :
    env.run (a ++ b) m =
      match env.run a m with
      | .finished m' => env.run b m'
      | .failed m' => .failed m'
      | .stuck => .stuck := by
  induction a generalizing m with
  | nil => rfl
  | cons i rest ih =>
    rw [List.cons_append, run, run]
    cases i.exec m with
    | next m' => exact ih m'
    | call target m' =>
      cases henv : env target m' with
      | some m'' => simpa only [henv] using ih m''
      | none => simp only [henv]
    | jump target m' => rfl
    | ret m' => rfl
    | stuck => rfl

end Run

end Environment

/-! ## §2 Evaluation on words -/

/-- Why an evaluation has no value. -/
inductive Trap where
  | overflow
  | zeroDivisor
  /-- The expression has no value in any machine. -/
  | meaningless
  deriving DecidableEq, Repr

/-- An integer as a word, unless it is out of range. -/
def wordOf (n : Int) : Except Trap Word :=
  if FitsWord n then .ok (BitVec.ofInt 32 n) else .error .overflow

/-- A truth value as a word. -/
def truthWord (b : Bool) : Word := BitVec.ofInt 32 b.toInt

/-- Applies an operator to a word. -/
def UnaryOp.evalWord (w : Word) : UnaryOp → Except Trap Word
  | .not => .ok (w ^^^ 1)
  | .neg => wordOf (-w.toInt)
  | .ord | .chr => .ok w
  | .len => .error .meaningless

/-- Applies an operator to two words. -/
def BinaryOp.evalWord (a b : Word) : BinaryOp → Except Trap Word
  | .mul => wordOf (a.toInt * b.toInt)
  | .div => if b = 0 then .error .zeroDivisor else .ok (a.sdiv b)
  | .mod => if b = 0 then .error .zeroDivisor else .ok (a.srem b)
  | .add => wordOf (a.toInt + b.toInt)
  | .sub => wordOf (a.toInt - b.toInt)
  | .gt => .ok (truthWord (decide (a.toInt > b.toInt)))
  | .ge => .ok (truthWord (decide (a.toInt ≥ b.toInt)))
  | .lt => .ok (truthWord (decide (a.toInt < b.toInt)))
  | .le => .ok (truthWord (decide (a.toInt ≤ b.toInt)))
  | .eq => .ok (truthWord (a == b))
  | .ne => .ok (truthWord (a != b))
  | .and => .ok (a &&& b)
  | .or => .ok (a ||| b)

-- On truth values the connectives are those of logic.
example (a b : Bool) :
    UnaryOp.not.evalWord (truthWord a) = .ok (truthWord !a) ∧
      BinaryOp.and.evalWord (truthWord a) (truthWord b) = .ok (truthWord (a && b)) ∧
      BinaryOp.or.evalWord (truthWord a) (truthWord b) = .ok (truthWord (a || b)) := by
  cases a <;> cases b <;> decide

/-- What a variable of the frame holds in a machine. -/
def Frame.wordAt (frame : Frame) (m : Machine) (name : String) : Except Trap Word :=
  match frame.lookup? name with
  | some (offset, ty) => .ok (m.load ty.width (m.regs .sp + BitVec.ofInt 32 offset))
  | none => .error .meaningless

/-- The value of an expression in a machine. Operands are evaluated from left to right, all of them
whatever their values. -/
def Expr.evalWord (frame : Frame) (m : Machine) : Expr → Except Trap Word
  | .int _ text =>
    match Literal.intValue? text with
    | some n => .ok (BitVec.ofInt 32 n)
    | none => .error .meaningless
  | .bool _ value => .ok (truthWord value)
  | .char _ value => .ok (BitVec.ofInt 32 value.toNat)
  | .ident _ name => frame.wordAt m name
  | .unary _ op operand => do
    let w ← operand.evalWord frame m
    op.evalWord w
  | .binary _ op lhs rhs => do
    let a ← lhs.evalWord frame m
    let b ← rhs.evalWord frame m
    op.evalWord a b
  | .str .. | .null .. | .elem .. => .error .meaningless

/-- Expressions over numbers, truth values, characters and variables. -/
def Expr.isHeapFree : Expr → Bool
  | .int .. | .bool .. | .char .. | .ident .. => true
  | .unary _ op operand => op ≠ .len && operand.isHeapFree
  | .binary _ _ lhs rhs => lhs.isHeapFree && rhs.isHeapFree
  | .str .. | .null .. | .elem .. => false

/-- An evaluation depends on the memory and the stack pointer only. -/
theorem Expr.evalWord_congr {frame : Frame} {m m' : Machine} (hmemory : m'.memory = m.memory)
    (hsp : m'.regs .sp = m.regs .sp) : (e : Expr) → e.evalWord frame m' = e.evalWord frame m
  | .int .. | .bool .. | .char .. | .str .. | .null .. | .elem .. => rfl
  | .ident _ name => by
    have hload (width : Width) (a : Word) : m'.load width a = m.load width a :=
      Machine.load_congr width fun _ _ => by rw [hmemory]
    simp only [evalWord, Frame.wordAt, hload, hsp]
  | .unary _ op operand => by simp only [evalWord, operand.evalWord_congr hmemory hsp]
  | .binary _ op lhs rhs => by
    simp only [evalWord, lhs.evalWord_congr hmemory hsp, rhs.evalWord_congr hmemory hsp]

/-! ## §3 Runs that yield a value -/

/-- A run that ends as an evaluation does: with the value in a register, or with a run-time error.
No register outside of `W` is written. -/
def Environment.Yields (env : Environment) (W : Register → Prop) (r : Register)
    (code : List Instruction) (m : Machine) : Except Trap Word → Prop
  | .ok w => ∃ m', env.run code m = .finished m' ∧ m.Keeps W m' ∧ m'.regs r = w
  | .error trap => trap ≠ .meaningless ∧ ∃ m', env.run code m = .failed m' ∧ m.Keeps W m'

namespace Environment.Yields

variable {env : Environment} {W W' : Register → Prop} {r : Register} {code : List Instruction}
  {m : Machine} {result : Except Trap Word}

theorem mono (h : env.Yields W r code m result) (hsub : ∀ s, W s → W' s) :
    env.Yields W' r code m result := by
  cases result with
  | ok w =>
    obtain ⟨m', hrun, hkeeps, hvalue⟩ := h
    exact ⟨m', hrun, hkeeps.mono hsub, hvalue⟩
  | error trap =>
    obtain ⟨htrap, m', hrun, hkeeps⟩ := h
    exact ⟨htrap, m', hrun, hkeeps.mono hsub⟩

theorem ne_meaningless (h : env.Yields W r code m result) : result ≠ .error .meaningless := by
  rintro rfl
  exact h.1 rfl

/-- Code that goes on where other code has finished. -/
theorem append {before : List Instruction} {m' : Machine}
    (hbefore : env.run before m = .finished m') (hkeeps : m.Keeps W m')
    (h : env.Yields W r code m' result) : env.Yields W r (before ++ code) m result := by
  cases result with
  | ok w =>
    obtain ⟨m'', hrun, hkeeps', hvalue⟩ := h
    exact ⟨m'', by rw [run_append, hbefore]; exact hrun, hkeeps.trans hkeeps', hvalue⟩
  | error trap =>
    obtain ⟨htrap, m'', hrun, hkeeps'⟩ := h
    exact ⟨htrap, m'', by rw [run_append, hbefore]; exact hrun, hkeeps.trans hkeeps'⟩

/-- Code that is not reached. -/
theorem append_of_failed {before : List Instruction} {m' : Machine}
    (hbefore : env.run before m = .failed m') (hkeeps : m.Keeps W m')
    (hresult : ∃ trap, trap ≠ .meaningless ∧ result = .error trap) :
    env.Yields W r (before ++ code) m result := by
  obtain ⟨trap, htrap, rfl⟩ := hresult
  exact ⟨htrap, m', by rw [run_append, hbefore], hkeeps⟩

end Environment.Yields

/-! ## §4 Operators -/

namespace Environment

variable {env : Environment} {m : Machine} {dst : Register}

/-- An instruction that writes a value into a register. -/
theorem yields_set {W : Register → Prop} {i : Instruction} {w : Word} (hdst : W dst)
    (hexec : i.exec m = .next (m.set dst w)) : env.Yields W dst [i] m (.ok w) :=
  ⟨m.set dst w, run_next hexec, .set hdst w, m.regs_set_self dst w⟩

/-- A call of the overflow routine on the condition that the exact result does not fit. -/
theorem yields_check (henv : env.Conforms) {W : Register → Prop} {before : List Instruction}
    {m' : Machine} {cond : Condition} {n : Int} (hbefore : env.run before m = .finished m')
    (hkeeps : m.Keeps W m') (hvalue : m'.regs dst = BitVec.ofInt 32 n)
    (hholds : cond.holds m'.flags = !decide (FitsWord n)) :
    env.Yields W dst (before ++ [.branch true (some cond) Routine.throwOverflow.label]) m
      (wordOf n) := by
  refine .append hbefore hkeeps ?_
  unfold wordOf
  by_cases hfits : FitsWord n
  · rw [if_pos hfits]
    refine ⟨m', run_next ?_, .refl m', hvalue⟩
    simp [exec, Machine.guard, hholds, hfits]
  · rw [if_neg hfits]
    refine ⟨by decide, m', run_fail ?_ (henv.overflow m'), .refl m'⟩
    simp [exec, Machine.guard, hholds, hfits]

/-- Adding or subtracting, and a call of the overflow routine if the result does not fit. -/
theorem yields_checkedOp (henv : env.Conforms) (hdst : dst ≠ .pc) {op : ArithOp} {lhs : Register}
    {rhs : Operand} {n : Int}
    (hexact : op.result? (m.regs lhs).toInt (rhs.value m).toInt = some n) :
    env.Yields (· = dst) dst
      [opFlags op dst lhs rhs, .branch true (some .vs) Routine.throwOverflow.label] m
      (wordOf n) := by
  obtain ⟨m', hexec, hdelivers, hflag⟩ := exec_opFlags hdst hexact
  have hrun : env.run [opFlags op dst lhs rhs] m = .finished m' := run_next hexec
  exact yields_check henv hrun hdelivers.keeps hdelivers.value hflag

/-- Multiplying, and a call of the overflow routine if the product does not fit. -/
theorem yields_checkedMul (henv : env.Conforms) (hdst : dst ≠ .pc) {hi : Register} (hhi : hi ≠ .pc)
    (hne : hi ≠ dst) :
    env.Yields (fun r => r = dst ∨ r = hi) dst
      [.smull dst hi dst hi, .cmp hi (.shifted dst (.asr 31)),
        .branch true (some .ne) Routine.throwOverflow.label] m
      (wordOf ((m.regs dst).toInt * (m.regs hi).toInt)) := by
  obtain ⟨product, m', hmul, hcmp, hdelivers, hflag⟩ := exec_smull hdst hhi hne
  have hrun :
      env.run [.smull dst hi dst hi, .cmp hi (.shifted dst (.asr 31))] m = .finished m' := by
    rw [run_next hmul]
    exact run_next hcmp
  exact yields_check henv hrun hdelivers.keeps hdelivers.value hflag

theorem yields_compare (hdst : dst ≠ .pc) (cond : Condition) (rhs : Operand) :
    env.Yields (· = dst) dst
      [.cmp dst rhs, .mov (some cond) dst (.imm 1), .mov (some cond.inverse) dst (.imm 0)] m
      (.ok (truthWord (cond.holds (compareFlags (m.regs dst) (rhs.value m))))) := by
  obtain ⟨m₁, m₂, m', hcmp, hset, hclear, hdelivers⟩ := exec_compare hdst cond rhs
  refine ⟨m', ?_, hdelivers.keeps, hdelivers.value⟩
  rw [run_next hcmp, run_next hset]
  exact run_next hclear

/-- A division by a library function that leaves its result in `result`. -/
theorem yields_divide (henv : env.Conforms) {l r result : Register} (hl : l ≠ .pc)
    (hr : r ≠ .r0) {function : String} {value : Word → Word → Word}
    (hfunction : ∀ m : Machine, m.regs .r1 ≠ 0 → ∃ m', env function m = some m' ∧
      m.Keeps Register.Scratch m' ∧ m'.regs result = value (m.regs .r0) (m.regs .r1)) :
    env.Yields (fun s => s = l ∨ s.Scratch) l
      [move .r0 l, move .r1 r, .branch true none Routine.checkDivideByZero.label, call function,
        move l result] m
      (if m.regs r = 0 then .error .zeroDivisor else .ok (value (m.regs l) (m.regs r))) := by
  let given := (m.set .r0 (m.regs l)).set .r1 (m.regs r)
  have h0 : given.regs .r0 = m.regs l := by
    rw [Machine.regs_set_of_ne _ _ _ _ (by decide), Machine.regs_set_self]
  have h1 : given.regs .r1 = m.regs r := Machine.regs_set_self ..
  have hkeeps : m.Keeps (fun s => s = l ∨ s.Scratch) given :=
    .trans (.set (.inr (by decide)) _) (.set (.inr (by decide)) _)
  have hgiven (rest : List Instruction) :
      env.run (move .r0 l :: move .r1 r :: rest) m = env.run rest given := by
    rw [run_next (exec_move (by decide) l), run_next (exec_move (by decide) r),
      Machine.regs_set_of_ne _ _ _ _ hr]
  by_cases hzero : m.regs r = 0
  · rw [if_pos hzero]
    refine ⟨by decide, given, ?_, hkeeps⟩
    rw [hgiven]
    exact run_fail rfl (henv.zeroDivisor given (h1.trans hzero))
  · rw [if_neg hzero]
    obtain ⟨passed, hcheck, hpassed, hp0, hp1⟩ := henv.divisor given (h1 ▸ hzero)
    obtain ⟨divided, hdivide, hdivided, hresult⟩ := hfunction passed (by rwa [hp1, h1])
    refine ⟨divided.set l (divided.regs result), ?_, ?_, ?_⟩
    · rw [hgiven, run_call rfl hcheck, run_call rfl hdivide]
      exact run_next (exec_move hl result)
    · exact hkeeps.trans ((hpassed.mono fun _ => .inr).trans
        ((hdivided.mono fun _ => .inr).trans (.set (.inl rfl) _)))
    · rw [Machine.regs_set_self, hresult, hp0, hp1, h0, h1]

end Environment

/-- The word of a comparison is what the flags say of the operands. -/
theorem BinaryOp.evalWord_of_condition {op : BinaryOp} {cond : Condition}
    (h : op.condition? = some cond) (a b : Word) :
    op.evalWord a b = .ok (truthWord (cond.holds (compareFlags a b))) := by
  have heq : (a.toInt == b.toInt) = (a == b) := by simp [beq_eq_decide, BitVec.toInt_inj]
  have heval := BinaryOp.eval_of_condition h a b
  cases op <;> cases h <;>
    simp_all only [BinaryOp.eval, BinaryOp.evalWord, truthWord, Result.done.injEq, bne]

namespace Lower

variable {env : Environment} {m : Machine} {resources : Resources} {out : Lowered Unit}

/-- The code of an operator applies it in place. -/
theorem unary_yields (henv : env.Conforms) {r : Register} {op : UnaryOp} {w : Word}
    (hop : op ≠ .len) (hr : r ≠ .pc) (hvalue : m.regs r = w)
    (h : (unary r op).run resources = .ok out) (limit : Nat) (message : String → String) :
    env.Yields (· = r) r (out.code.flatMap (·.plain limit message)) m (op.evalWord w) := by
  subst hvalue
  cases op with
  | not =>
    simp only [unary, run_emit, Except.ok.injEq] at h
    subst h
    exact Environment.yields_set rfl (Machine.write_of_ne hr m _)
  | neg =>
    simp only [unary, run_bind_eq_ok, run_emit, run_callRoutineIf, Except.ok.injEq] at h
    obtain ⟨_, _, rfl, rfl, rfl⟩ := h
    refine Environment.yields_checkedOp henv hr ?_
    simp [ArithOp.result?, Operand.value]
  | len => exact absurd rfl hop
  | ord | chr =>
    simp only [unary, run_pure, Except.ok.injEq] at h
    subst h
    exact ⟨m, rfl, .refl m, rfl⟩

/-- The code of an operator applies it to two registers and leaves the result in the first. -/
theorem binary_yields (henv : env.Conforms) {l r : Register} {op : BinaryOp} {a b : Word}
    (hl : l ∈ Register.general) (hr : r ∈ Register.general) (hne : l ≠ r) (hlhs : m.regs l = a)
    (hrhs : m.regs r = b) (h : (binary l r op).run resources = .ok out) (limit : Nat)
    (message : String → String) :
    env.Yields (fun s => s = l ∨ s = r ∨ s.Scratch) l (out.code.flatMap (·.plain limit message)) m
      (op.evalWord a b) := by
  subst hlhs hrhs
  have hl' : l ≠ .pc := by rintro rfl; exact absurd hl (by decide)
  have hr' : r ≠ .pc := by rintro rfl; exact absurd hr (by decide)
  have hr0 : r ≠ .r0 := by rintro rfl; exact absurd hr (by decide)
  have hdivision : ∀ s, s = l ∨ s.Scratch → s = l ∨ s = r ∨ s.Scratch :=
    fun s hs => hs.imp_right .inr
  -- Only a product writes the second register, and only divisions write scratch registers.
  cases op with
  | add | sub =>
    simp only [binary, checkedArith, run_bind_eq_ok, run_emit, run_callRoutineIf,
      Except.ok.injEq] at h
    obtain ⟨_, _, rfl, rfl, rfl⟩ := h
    exact (Environment.yields_checkedOp henv hl' rfl).mono fun s hs => .inl hs
  | mul =>
    simp only [binary, run_bind_eq_ok, run_emit, run_callRoutineIf, Except.ok.injEq] at h
    obtain ⟨_, _, rfl, ⟨_, _, rfl, rfl, rfl⟩, rfl⟩ := h
    exact (Environment.yields_checkedMul henv hl' hr' hne.symm).mono fun s hs => hs.imp_right .inl
  | div =>
    simp only [binary, divideWith, run_bind_eq_ok, run_emit, run_callRoutine, Except.ok.injEq] at h
    obtain ⟨_, _, rfl, ⟨_, _, rfl, ⟨_, _, rfl, ⟨_, _, rfl, rfl, rfl⟩, rfl⟩, rfl⟩, rfl⟩ := h
    exact (Environment.yields_divide henv hl' hr0 henv.quotient).mono hdivision
  | mod =>
    simp only [binary, divideWith, run_bind_eq_ok, run_emit, run_callRoutine, Except.ok.injEq] at h
    obtain ⟨_, _, rfl, ⟨_, _, rfl, ⟨_, _, rfl, ⟨_, _, rfl, rfl, rfl⟩, rfl⟩, rfl⟩, rfl⟩ := h
    refine (Environment.yields_divide henv hl' hr0 fun m hm => ?_).mono hdivision
    obtain ⟨m', hcall, hkeeps, _, hvalue⟩ := henv.remainder m hm
    exact ⟨m', hcall, hkeeps, hvalue⟩
  | gt | ge | lt | le | eq | ne =>
    simp only [binary, Lower.compare, run_bind_eq_ok, run_emit, Except.ok.injEq] at h
    obtain ⟨_, _, rfl, ⟨_, _, rfl, rfl, rfl⟩, rfl⟩ := h
    rw [BinaryOp.evalWord_of_condition rfl]
    exact (Environment.yields_compare hl' _ _).mono fun s hs => .inl hs
  | and | or =>
    simp only [binary, run_emit, Except.ok.injEq] at h
    subst h
    exact Environment.yields_set (.inl rfl) (Machine.write_of_ne hl' m _)

end Lower

/-! ## §5 Operands -/

/-- The registers that code for a value can write: those that were free, and scratch registers. -/
def RegisterPool.Spare (pool : RegisterPool) (r : Register) : Prop := r ∈ pool.free ∨ r.Scratch

theorem RegisterPool.not_spare_sp (pool : RegisterPool) : ¬pool.Spare .sp := by
  rintro (hfree | hscratch)
  · exact ne_sp_of_mem_free hfree rfl
  · exact hscratch.2 rfl

theorem RegisterPool.not_spare_of_general {pool : RegisterPool} {r : Register}
    (hr : r ∈ Register.general) (hheld : r ∉ pool.free) : ¬pool.Spare r := by
  rintro (hfree | hscratch)
  · exact hheld hfree
  · exact hscratch.1 hr

/-- A step that takes a register and whose code brings a value into it. The value depends on the
memory and the stack pointer only. -/
structure Computes (env : Environment) (limit : Nat) (message : String → String) (frame : Frame)
    (step : Lower Register) (value : Machine → Except Trap Word) : Prop where
  takes : ∀ start, step.Ends start start.Took
  stable : ∀ {m m' : Machine}, m'.memory = m.memory → m'.regs .sp = m.regs .sp →
    value m' = value m
  yields : ∀ {start : Resources} {out : Lowered Register}, start.frame = frame →
    step.run start = .ok out → ∀ m, env.Yields start.pool.Spare out.value
      (out.code.flatMap (·.plain limit message)) m (value m)

/-- If one of two evaluations meets an error, then so does what needs both. -/
theorem bind_bind_eq_error {a b : Except Trap Word} (ha : a ≠ .error .meaningless)
    (hb : b ≠ .error .meaningless) (h : (∃ trap, a = .error trap) ∨ ∃ trap, b = .error trap)
    (f : Word → Word → Except Trap Word) :
    ∃ trap, trap ≠ .meaningless ∧ (a >>= fun u => b >>= fun v => f u v) = .error trap := by
  cases a with
  | error trap => exact ⟨trap, fun heq => ha (heq ▸ rfl), rfl⟩
  | ok u =>
    obtain ⟨trap, rfl⟩ : ∃ trap, b = .error trap := by simpa using h
    exact ⟨trap, fun heq => hb (heq ▸ rfl), rfl⟩

/-- Two values are computed one after the other, the first waiting in its register, unless there is
an error. -/
theorem Computes.andThen {env : Environment} {limit : Nat} {message : String → String}
    {start : Resources} {a b : Lower Register} {va vb : Machine → Except Trap Word}
    {x y : Lowered Register} (ha : Computes env limit message start.frame a va)
    (hb : Computes env limit message start.frame b vb) (hx : a.run start = .ok x)
    (hy : b.run x.resources = .ok y) (m : Machine) :
    (∃ u v m', va m = .ok u ∧ vb m = .ok v ∧
        env.run ((x.code ++ y.code).flatMap (·.plain limit message)) m = .finished m' ∧
        m.Keeps start.pool.Spare m' ∧ m'.regs x.value = u ∧ m'.regs y.value = v) ∨
      (va m ≠ .error .meaningless ∧ vb m ≠ .error .meaningless ∧
        ((∃ trap, va m = .error trap) ∨ ∃ trap, vb m = .error trap) ∧
        ∃ m', env.run ((x.code ++ y.code).flatMap (·.plain limit message)) m = .failed m' ∧
          m.Keeps start.pool.Spare m') := by
  obtain ⟨hfree, hheld⟩ := ha.takes start x hx
  have hframe : x.resources.frame = start.frame := by rw [hheld, Resources.frame_hold]
  -- The first register is in use, so the second value's code does not write it.
  have hspare : ∀ r, x.resources.pool.Spare r → start.pool.Spare r ∧ r ≠ x.value := by
    rintro r (hr | hr)
    · rw [hheld, Resources.pool_hold, RegisterPool.mem_free_hold] at hr
      exact ⟨.inl hr.1, hr.2⟩
    · refine ⟨.inr hr, ?_⟩
      rintro rfl
      exact hr.1 (RegisterPool.general_of_mem_free hfree)
  rw [List.flatMap_append]
  have hfirst := ha.yields rfl hx m
  have hva' := hfirst.ne_meaningless
  have hvb' := (hb.yields hframe hy m).ne_meaningless
  cases hva : va m with
  | error trap =>
    rw [hva] at hfirst hva'
    obtain ⟨_, m₁, hrun, hkeeps⟩ := hfirst
    refine .inr ⟨hva', hvb', .inl ⟨trap, rfl⟩, m₁, ?_, hkeeps⟩
    rw [Environment.run_append, hrun]
  | ok u =>
    rw [hva] at hfirst hva'
    obtain ⟨m₁, hrun, hkeeps, hu⟩ := hfirst
    have hsecond := hb.yields hframe hy m₁
    rw [hb.stable hkeeps.memory (hkeeps.regs _ start.pool.not_spare_sp)] at hsecond
    cases hvb : vb m with
    | error trap =>
      rw [hvb] at hsecond hvb'
      obtain ⟨_, m₂, hrun', hkeeps'⟩ := hsecond
      refine .inr ⟨hva', hvb', .inr ⟨trap, rfl⟩, m₂, ?_,
        hkeeps.trans (hkeeps'.mono fun r hr => (hspare r hr).1)⟩
      rw [Environment.run_append, hrun]
      exact hrun'
    | ok v =>
      rw [hvb] at hsecond
      obtain ⟨m₂, hrun', hkeeps', hv⟩ := hsecond
      refine .inl ⟨u, v, m₂, rfl, rfl, ?_,
        hkeeps.trans (hkeeps'.mono fun r hr => (hspare r hr).1), ?_, hv⟩
      · rw [Environment.run_append, hrun]
        exact hrun'
      · rw [hkeeps'.regs _ fun hr => (hspare _ hr).2 rfl, hu]

theorem Computes.took_both {env : Environment} {limit : Nat} {message : String → String}
    {start : Resources} {a b : Lower Register} {va vb : Machine → Except Trap Word}
    {x y : Lowered Register} (ha : Computes env limit message start.frame a va)
    (hb : Computes env limit message start.frame b vb) (hx : a.run start = .ok x)
    (hy : b.run x.resources = .ok y) :
    x.value ∈ start.pool.free ∧ y.value ∈ start.pool.free ∧ y.value ≠ x.value := by
  obtain ⟨hfree, hheld⟩ := ha.takes start x hx
  obtain ⟨hfree', _⟩ := hb.takes x.resources y hy
  rw [hheld, Resources.pool_hold, RegisterPool.mem_free_hold] at hfree'
  exact ⟨hfree, hfree'⟩

/-! ## §6 Expressions -/

section Expressions

variable {env : Environment} {limit : Nat} {message : String → String} {frame : Frame}

/-- An instruction that brings a value into a fresh register. -/
theorem Computes.intoFresh {instruction : Register → Instruction}
    {value : Machine → Except Trap Word}
    (hstable : ∀ {m m' : Machine}, m'.memory = m.memory → m'.regs .sp = m.regs .sp →
      value m' = value m)
    (hexec : ∀ r m, r ≠ .pc → ∃ w, value m = .ok w ∧ (instruction r).exec m = .next (m.set r w)) :
    Computes env limit message frame (Lower.intoFresh fun r => .instr (instruction r)) value where
  takes _ := intoFresh_takes
  stable := hstable
  yields := by
    intro start out _ hrun m
    obtain ⟨r, hhead, rfl⟩ := run_intoFresh_eq_ok.1 hrun
    have hr : r ∈ start.pool.free := List.mem_of_mem_head? hhead
    obtain ⟨w, hw, hexec⟩ := hexec r m (ne_pc_of_mem_free hr)
    rw [hw]
    exact Environment.yields_set (.inl hr) hexec

theorem Computes.unary {span : Span} {op : UnaryOp} {operand : Expr} (henv : env.Conforms)
    (hop : op ≠ .len)
    (h : Computes env limit message frame operand.lower (operand.evalWord frame)) :
    Computes env limit message frame (Expr.unary span op operand).lower
      ((Expr.unary span op operand).evalWord frame) where
  takes := Expr.lower_takes _
  stable hmemory hsp := Expr.evalWord_congr hmemory hsp _
  yields := by
    intro start out hframe hrun m
    simp only [Expr.lower, run_bind_eq_ok, run_pure, Except.ok.injEq] at hrun
    obtain ⟨first, _, hfirst, ⟨applied, _, happlied, rfl, rfl⟩, rfl⟩ := hrun
    obtain ⟨hfree, _⟩ := h.takes start first hfirst
    have hoperand := h.yields hframe hfirst m
    rw [List.append_nil, List.flatMap_append, Expr.evalWord]
    cases hw : operand.evalWord frame m with
    | error trap =>
      rw [hw] at hoperand
      obtain ⟨htrap, m', hrun, hkeeps⟩ := hoperand
      exact .append_of_failed hrun hkeeps ⟨trap, htrap, rfl⟩
    | ok w =>
      rw [hw] at hoperand
      obtain ⟨m', hrun, hkeeps, hvalue⟩ := hoperand
      refine .append hrun hkeeps ?_
      exact (unary_yields henv hop (ne_pc_of_mem_free hfree) hvalue happlied limit message).mono
        fun s hs => .inl (hs ▸ hfree)

theorem Computes.binary {span : Span} {op : BinaryOp} {lhs rhs : Expr} (henv : env.Conforms)
    (hl : Computes env limit message frame lhs.lower (lhs.evalWord frame))
    (hr : Computes env limit message frame rhs.lower (rhs.evalWord frame)) :
    Computes env limit message frame (Expr.binary span op lhs rhs).lower
      ((Expr.binary span op lhs rhs).evalWord frame) where
  takes := Expr.lower_takes _
  stable hmemory hsp := Expr.evalWord_congr hmemory hsp _
  yields := by
    rintro start out rfl hrun m
    simp only [Expr.lower_binary, run_bind_eq_ok, run_release, run_pure, Except.ok.injEq] at hrun
    obtain ⟨both, _, hboth, ⟨applied, _, happlied, ⟨_, _, rfl, rfl, rfl⟩, rfl⟩, rfl⟩ := hrun
    simp only [List.append_nil]
    rw [List.flatMap_append, Expr.evalWord]
    -- What follows the operands, whichever of them came first.
    have hop {a b : Word} {m' : Machine} (hfst : both.value.1 ∈ start.pool.free)
        (hsnd : both.value.2 ∈ start.pool.free) (hne : both.value.1 ≠ both.value.2)
        (ha : m'.regs both.value.1 = a) (hb : m'.regs both.value.2 = b) :
        env.Yields start.pool.Spare both.value.1 (applied.code.flatMap (·.plain limit message)) m'
          (op.evalWord a b) := by
      refine (binary_yields henv (RegisterPool.general_of_mem_free hfst)
        (RegisterPool.general_of_mem_free hsnd) hne ha hb happlied limit message).mono ?_
      rintro s (rfl | rfl | hs)
      · exact .inl hfst
      · exact .inl hsnd
      · exact .inr hs
    cases hleft : leftFirst lhs rhs with
    | true =>
      simp only [hleft, inOrder, if_true, run_bind_eq_ok, run_pure, Except.ok.injEq] at hboth
      obtain ⟨x, _, hx, ⟨y, _, hy, rfl, rfl⟩, rfl⟩ := hboth
      simp only [List.append_nil] at hop ⊢
      obtain ⟨hfst, hsnd, hne⟩ := hl.took_both hr hx hy
      rcases hl.andThen hr hx hy m with
        ⟨a, b, m', ha, hb, hrun, hkeeps, hva, hvb⟩ | ⟨ha, hb, htrap, m', hrun, hkeeps⟩
      · rw [ha, hb]
        exact .append hrun hkeeps (hop hfst hsnd hne.symm hva hvb)
      · exact .append_of_failed hrun hkeeps (bind_bind_eq_error ha hb htrap _)
    | false =>
      simp only [hleft, inOrder, Bool.false_eq_true, if_false, run_bind_eq_ok, run_pure,
        Except.ok.injEq] at hboth
      obtain ⟨y, _, hy, ⟨x, _, hx, rfl, rfl⟩, rfl⟩ := hboth
      simp only [List.append_nil] at hop ⊢
      obtain ⟨hsnd, hfst, hne⟩ := hr.took_both hl hy hx
      rcases hr.andThen hl hy hx m with
        ⟨b, a, m', hb, ha, hrun, hkeeps, hvb, hva⟩ | ⟨hb, ha, htrap, m', hrun, hkeeps⟩
      · rw [ha, hb]
        exact .append hrun hkeeps (hop hfst hsnd hne hva hvb)
      · exact .append_of_failed hrun hkeeps (bind_bind_eq_error ha hb htrap.symm _)

/-- The code of an expression without heap accesses computes its value. -/
theorem Expr.computes (henv : env.Conforms) : (e : Expr) → e.isHeapFree →
    Computes env limit message frame e.lower (e.evalWord frame)
  | .int _ text, _ => by
    cases hvalue : Literal.intValue? text with
    | none =>
      -- A literal that has no value is not lowered.
      refine ⟨Expr.lower_takes _, fun hmemory hsp => Expr.evalWord_congr hmemory hsp _, ?_⟩
      intro start out _ hrun
      simp [Expr.lower, hvalue] at hrun
    | some n =>
      simp only [Expr.lower, hvalue]
      exact .intoFresh (fun _ _ => rfl) fun r m hr =>
        ⟨_, by simp only [Expr.evalWord, hvalue], Machine.write_of_ne hr m _⟩
  | .bool .., _ => .intoFresh (fun _ _ => rfl) fun r m hr => ⟨_, rfl, Machine.write_of_ne hr m _⟩
  | .char .., _ => .intoFresh (fun _ _ => rfl) fun r m hr => ⟨_, rfl, Machine.write_of_ne hr m _⟩
  | .ident span name, _ => by
    refine ⟨Expr.lower_takes _, fun hmemory hsp => Expr.evalWord_congr hmemory hsp _, ?_⟩
    rintro start out rfl hrun m
    simp only [Expr.lower, run_bind_eq_ok, run_lookup, run_ofExcept_eq_ok] at hrun
    obtain ⟨_, second, ⟨⟨offset, ty⟩, hfind, rfl⟩, hload, rfl⟩ := hrun
    obtain ⟨r, hhead, rfl⟩ := run_intoFresh_eq_ok.1 hload
    have hr : r ∈ start.pool.free := List.mem_of_mem_head? hhead
    have hvalue : (Expr.ident span name).evalWord start.frame m =
        .ok (m.load ty.width (m.regs .sp + BitVec.ofInt 32 offset)) := by
      have hlookup : start.frame.lookup? name = some (offset, ty) := by
        unfold Frame.find at hfind
        split at hfind <;> simp_all
      simp only [Expr.evalWord, Frame.wordAt, hlookup]
    rw [hvalue]
    exact Environment.yields_set (.inl hr) (Machine.write_of_ne (ne_pc_of_mem_free hr) m _)
  | .unary _ op operand, hfree => by
    simp only [Expr.isHeapFree, Bool.and_eq_true, decide_eq_true_eq] at hfree
    exact .unary henv hfree.1 (operand.computes henv hfree.2)
  | .binary _ op lhs rhs, hfree => by
    simp only [Expr.isHeapFree, Bool.and_eq_true] at hfree
    exact .binary henv (lhs.computes henv hfree.1) (rhs.computes henv hfree.2)

/-- Lowering an expression without heap accesses gives code that leaves its value in the register
that lowering says, if the evaluation from left to right meets no error, and that ends with a
run-time error exactly if the evaluation meets an overflow or a zero divisor. Either way the stack
pointer, the memory and the registers that were in use are as before. -/
theorem Expr.lower_computes {e : Expr} {resources : Resources} {out : Lowered Register}
    (hrun : e.lower.run resources = .ok out) (hfree : e.isHeapFree) (henv : env.Conforms)
    (limit : Nat) (listing : Listing) (m : Machine) :
    ∃ code after, listing.expandAll limit out.code = .ok (code, after) ∧
      (∀ w, e.evalWord resources.frame m = .ok w →
        ∃ m', env.run code m = .finished m' ∧ m'.regs out.value = w) ∧
      ((∃ m', env.run code m = .failed m') ↔ e.evalWord resources.frame m = .error .overflow ∨
        e.evalWord resources.frame m = .error .zeroDivisor) ∧
      ∃ m', (env.run code m = .finished m' ∨ env.run code m = .failed m') ∧
        m'.regs .sp = m.regs .sp ∧ m'.memory = m.memory ∧
        ∀ r ∈ Register.general, r ∉ resources.pool.free → m'.regs r = m.regs r := by
  obtain ⟨code, after, hexpand⟩ := listing.expandAll_ok limit out.code
  obtain ⟨rfl, _⟩ := Listing.expandAll_plain hexpand
  refine ⟨_, after, hexpand, ?_⟩
  have hyields : env.Yields resources.pool.Spare out.value
      (out.code.flatMap (·.plain limit after.messageLabel)) m (e.evalWord resources.frame m) :=
    (e.computes henv hfree).yields rfl hrun m
  have hunchanged {m' : Machine} (hkeeps : m.Keeps resources.pool.Spare m') :
      m'.regs .sp = m.regs .sp ∧ m'.memory = m.memory ∧
        ∀ r ∈ Register.general, r ∉ resources.pool.free → m'.regs r = m.regs r :=
    ⟨hkeeps.regs _ resources.pool.not_spare_sp, hkeeps.memory, fun r hr hheld =>
      hkeeps.regs r (RegisterPool.not_spare_of_general hr hheld)⟩
  cases hvalue : e.evalWord resources.frame m with
  | ok w =>
    rw [hvalue] at hyields
    obtain ⟨m', hfinished, hkeeps, hregister⟩ := hyields
    refine ⟨fun w' hw' => ⟨m', hfinished, ?_⟩, ?_, m', .inl hfinished, hunchanged hkeeps⟩
    · rw [hregister, Except.ok.inj hw']
    · simp [hfinished]
  | error trap =>
    rw [hvalue] at hyields
    obtain ⟨htrap, m', hfailed, hkeeps⟩ := hyields
    refine ⟨by simp, ?_, m', .inr hfailed, hunchanged hkeeps⟩
    cases trap with
    | overflow | zeroDivisor => simp [hfailed]
    | meaningless => exact absurd rfl htrap

end Expressions

/-- An environment whose divisor check returns without a trace and whose divisions change nothing
but `r0` and `r1`. -/
def plainEnvironment : Environment := fun target m =>
  if target = Routine.throwOverflow.label then none
  else if target = Routine.checkDivideByZero.label then if m.regs .r1 = 0 then none else some m
  else if target = "__aeabi_idiv" then some (m.set .r0 ((m.regs .r0).sdiv (m.regs .r1)))
  else if target = "__aeabi_idivmod" then
    some ((m.set .r0 ((m.regs .r0).sdiv (m.regs .r1))).set .r1 ((m.regs .r0).srem (m.regs .r1)))
  else none

theorem plainEnvironment_conforms : plainEnvironment.Conforms where
  overflow m := rfl
  zeroDivisor m hzero := by
    show (if m.regs .r1 = 0 then none else some m) = none
    exact if_pos hzero
  divisor m hdivisor := ⟨m, if_neg hdivisor, .refl m, rfl, rfl⟩
  quotient m _ := ⟨_, rfl, .set (by decide) _, m.regs_set_self ..⟩
  remainder m _ := ⟨_, rfl, .trans (.set (by decide) _) (.set (by decide) _),
    (Machine.regs_set_of_ne _ _ _ _ (by decide)).trans (m.regs_set_self ..),
    Machine.regs_set_self ..⟩

/-- One more than the quotient of `x` and the difference of five and `y`. -/
def quotientExpr : Expr :=
  .binary {} .add (.int {} "1")
    (.binary {} .div (.ident {} "x") (.binary {} .sub (.int {} "5") (.ident {} "y")))

/-- Two variables on the stack, and one register in use. -/
def quotientResources : Resources where
  pool := (RegisterPool.ofCount 8).hold .r4
  frame := {
    scopes := [{ base := 0, slots := 2, locals := [("y", ⟨8, .int⟩), ("x", ⟨4, .int⟩)] }]
    depth := 8 }

/-- A machine in which `x` is 14 and `y` is 3. -/
def quotientMachine : Machine where
  regs := fun _ => 0x100
  flags := ⟨false, false, false, false⟩
  memory := fun a => if a = 0x100 then 3 else if a = 0x104 then 14 else 0
  symbols := fun _ => 0

/-- Where the quotient is seven, the code leaves eight in its register. -/
theorem Expr.lower_computes_quotientExpr :
    ∃ out, quotientExpr.lower.run quotientResources = .ok out ∧ quotientExpr.isHeapFree ∧
      plainEnvironment.Conforms ∧
      quotientExpr.evalWord quotientResources.frame quotientMachine = .ok 8 ∧
      ∃ code after, ({} : Listing).expandAll 1024 out.code = .ok (code, after) ∧
        (∃ m', plainEnvironment.run code quotientMachine = .finished m' ∧
          m'.regs out.value = 8) ∧
        ∃ m', (plainEnvironment.run code quotientMachine = .finished m' ∨
            plainEnvironment.run code quotientMachine = .failed m') ∧
          m'.regs .sp = quotientMachine.regs .sp ∧ m'.memory = quotientMachine.memory ∧
          ∀ r ∈ Register.general, r ∉ quotientResources.pool.free →
            m'.regs r = quotientMachine.regs r := by
  have hrun : (quotientExpr.lower.run quotientResources).isOk := by decide +kernel
  have hvalue : quotientExpr.evalWord quotientResources.frame quotientMachine = .ok 8 := by
    decide +kernel
  cases hout : quotientExpr.lower.run quotientResources with
  | error e => simp [hout, Except.isOk, Except.toBool] at hrun
  | ok out =>
    obtain ⟨code, after, hexpand, hfinished, _, hunchanged⟩ :=
      Expr.lower_computes hout rfl plainEnvironment_conforms 1024 {} quotientMachine
    exact ⟨out, rfl, rfl, plainEnvironment_conforms, hvalue, code, after, hexpand,
      hfinished 8 hvalue, hunchanged⟩

end ArmCompiler
