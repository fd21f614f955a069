import ArmCompiler.Proofs.Heap.Execution

/-!
# What the Checks Do

The routines that look for run-time errors, executed as they are written. Each saves the link
register below the stack pointer, tests its arguments, and either returns with everything live as it
was or goes on to the routine that ends the program. What a call of such a routine does is derived
from its instructions; of the library only division and the allocator are assumed.

## Contents
- §1: routines that are carried out
- §2: returning and ending
- §3: the checks
- §4: linked environments
- §5: asking for memory
-/

namespace ArmCompiler

open Instruction Lower Routine

/-! ## §1 Routines that are carried out -/

/-- A call of a routine does what its instructions do, as far as they return or go on to end the
program. -/
structure Environment.CarriesOut (env : Environment) (texts : String → String) (r : Routine) :
    Prop where
  returned : ∀ {m m'}, Runs (r.sequence texts).code (r.sequence texts).code m (.returned m') →
    env r.label m = some m'
  ended : ∀ {m m'}, Runs (r.sequence texts).code (r.sequence texts).code m
    (.called throwRuntimeError.label m') → env r.label m = none

/-- Executed from its first instruction on, a routine goes on to end the program. -/
def Routine.EndsProgram (texts : String → String) (r : Routine) (m : Machine) : Prop :=
  ∃ m', Runs (r.sequence texts).code (r.sequence texts).code m (.called throwRuntimeError.label m')

theorem Environment.CarriesOut.eq_none {env : Environment} {texts : String → String} {r : Routine}
    {m : Machine} (h : env.CarriesOut texts r) (hends : r.EndsProgram texts m) :
    env r.label m = none :=
  h.ended hends.choose_spec

/-- An environment without any code. -/
def noCalls : Environment := fun _ _ => none

variable {code body rest before : List Instruction} {m m' : Machine} {halt : Halt}

/-- Code that makes no call is executed on the way to what follows it. -/
theorem Runs.of_run (hrun : noCalls.run body m = .finished m') (h : Runs code rest m' halt) :
    Runs code (body ++ rest) m halt := by
  induction body generalizing m with
  | nil =>
    cases hrun
    exact h
  | cons i body ih =>
    rw [Environment.run] at hrun
    cases hexec : i.exec m with
    | next mid =>
      rw [hexec] at hrun
      exact .next hexec (ih hrun)
    | call target mid => simp [hexec, noCalls] at hrun
    | jump target mid => simp [hexec] at hrun
    | ret mid => simp [hexec] at hrun
    | stuck => simp [hexec] at hrun

/-- A test whose condition holds goes on to end the program. -/
theorem Runs.failIf {cond : Condition} {text : String} (h : cond.holds m.flags = true) :
    Runs code (Routine.failIf cond text ++ rest) m
      (.called throwRuntimeError.label (m.set .r0 (m.symbols text))) := by
  have hload : (loadLabelIf cond .r0 text).exec m = .next (m.set .r0 (m.symbols text)) := by
    simp [loadLabelIf, exec, Machine.guard, Machine.write, h]
  exact .next hload (.call (by simp [callIf, exec, Machine.guard, h]))

/-- A test whose condition does not hold has no effect. -/
theorem run_failIf {cond : Condition} {text : String} (h : cond.holds m.flags = false) :
    noCalls.run (Routine.failIf cond text) m = .finished m := by
  simp [Routine.failIf, Environment.run, loadLabelIf, callIf, exec, Machine.guard, h]

/-- The machine in which two words have been compared. -/
def Machine.compared (m : Machine) (a b : Word) : Machine := { m with flags := compareFlags a b }

theorem Machine.flags_compared (m : Machine) (a b : Word) :
    (m.compared a b).flags = compareFlags a b := rfl

theorem Machine.regs_compared (m : Machine) (a b : Word) : (m.compared a b).regs = m.regs := rfl

theorem Machine.load_compared (m : Machine) (a b x : Word) (width : Width) :
    (m.compared a b).load width x = m.load width x := by
  cases width <;> rfl

theorem exec_cmp (m : Machine) (r : Register) (rhs : Operand) :
    (Instruction.cmp r rhs).exec m = .next (m.compared (m.regs r) (rhs.value m)) := rfl

theorem Machine.spares_compared {arena : Arena} {W : Register → Prop} (m : Machine) (a b : Word) :
    m.Spares arena W (m.compared a b) :=
  ⟨rfl, fun _ _ => rfl, fun _ _ => rfl⟩

/-! ## §2 Returning and ending -/

/-- The machine in which a routine has saved the link register. -/
def Machine.saved (m : Machine) : Machine :=
  (m.set .sp (m.regs .sp - 4)).store (m.regs .sp - 4) (m.regs .lr) .word

namespace Machine

@[simp] theorem regs_saved_sp (m : Machine) : m.saved.regs .sp = m.regs .sp - 4 := by
  simp [saved]

theorem regs_saved (m : Machine) {r : Register} (hr : r ≠ .sp) : m.saved.regs r = m.regs r := by
  simp [saved, m.regs_set_of_ne _ _ _ hr]

@[simp] theorem symbols_saved (m : Machine) : m.saved.symbols = m.symbols := by
  simp [saved, Machine.set]

/-- The link register is saved in volatile bytes. -/
theorem memory_saved {arena : Arena} (hsp : m.regs .sp = arena.sp) {a : Word}
    (ha : arena.volatile a = false) : m.saved.memory a = m.memory a := by
  refine memory_store_of_not_block fun hblock => ?_
  rw [hsp] at hblock
  simp [arena.saves a hblock] at ha

theorem load_saved {arena : Arena} (hsp : m.regs .sp = arena.sp) {a : Word}
    (ha : ∀ x, Block a 4 x → arena.live m x = true) :
    m.saved.load .word a = m.load .word a :=
  load_congr_block fun x hx => memory_saved hsp (Arena.live_iff.1 (ha x hx)).1

end Machine

/-- Comparing sets the carry if the first operand is not less, without signs. -/
theorem compareFlags_carry (x y : Word) :
    (compareFlags x y).carry = decide (y.toNat ≤ x.toNat) := by
  have hx := x.isLt
  have hy := y.isLt
  -- The first operand and the complement of the second have a carry exactly if the difference does
  -- not go below zero.
  simp only [compareFlags, addWithCarry, BitVec.toNat_ofNat, BitVec.toNat_not, bne, beq_eq_decide,
    Bool.toNat_true]
  rw [Bool.eq_iff_iff]
  simp only [Bool.not_eq_true', decide_eq_false_iff_not, decide_eq_true_eq]
  omega

/-- A routine with a test whose condition holds ends the program. -/
theorem Routine.endsProgram_of_body {texts : String → String} {r : Routine} (hr : r.returns = true)
    {cond : Condition} {text : String}
    (hbody : r.body texts = before ++ (failIf cond text ++ rest))
    (hrun : noCalls.run before m.saved = .finished m') (hcond : cond.holds m'.flags = true) :
    r.EndsProgram texts m := by
  have hcode : (r.sequence texts).code =
      .label r.label :: .push .lr :: (before ++ (failIf cond text ++ (rest ++ [.pop .pc]))) := by
    simp [Routine.sequence, Listing.opening, ending, hr, Ending.code, hbody]
  refine ⟨m'.set .r0 (m'.symbols text), ?_⟩
  rw [hcode]
  exact .next rfl (.next rfl (.of_run hrun (.failIf hcond)))

namespace Environment.CarriesOut

variable {env : Environment} {texts : String → String} {r : Routine} {arena : Arena}

/-- A routine that finds nothing wrong returns. -/
theorem returns (h : env.CarriesOut texts r) (hr : r.returns = true)
    (hsp : m.regs .sp = arena.sp) {W : Register → Prop}
    (hrun : noCalls.run (r.body texts) m.saved = .finished m') (hW : ¬ W .sp)
    (hspares : m.saved.Spares arena W m') :
    ∃ m'', env r.label m = some m'' ∧ m.Spares arena (fun s => W s ∨ s = .pc) m'' := by
  -- The body leaves the stack pointer at the saved link register, which the return takes back.
  have hsp' : m'.regs .sp = m.regs .sp - 4 := by rw [hspares.regs _ hW, m.regs_saved_sp]
  let back := (m'.set .sp (m.regs .sp)).set .pc (m'.loadWord (m.regs .sp - 4))
  have hback : Runs (r.sequence texts).code (r.sequence texts).code m (.returned back) := by
    have hcode : (r.sequence texts).code =
        .label r.label :: .push .lr :: (r.body texts ++ [.pop .pc]) := by
      simp [Routine.sequence, Listing.opening, ending, hr, Ending.code]
    rw [hcode]
    refine .next rfl (.next rfl (.of_run hrun (.ret ?_)))
    simp [exec, hsp', back]
  refine ⟨back, h.returned hback, ?_, ?_, ?_⟩
  · exact hspares.symbols.trans m.symbols_saved
  · intro s hs
    obtain ⟨hsW, hpc⟩ := not_or.1 hs
    rw [Machine.regs_set_of_ne _ _ _ _ hpc]
    by_cases hssp : s = .sp
    · rw [hssp, Machine.regs_set_self]
    · rw [Machine.regs_set_of_ne _ _ _ _ hssp, hspares.regs s hsW, m.regs_saved hssp]
  · intro a ha
    exact (hspares.memory a ha).trans (Machine.memory_saved hsp ha)

/-- The overflow routine ends the program in any case. -/
theorem overflow (h : env.CarriesOut texts .throwOverflow) (m : Machine) :
    env throwOverflow.label m = none :=
  h.ended (.next rfl (.next rfl (.call rfl)))

/-! ## §3 The checks -/

/-- A check that a register is not zero. -/
theorem nonzero_of_body (h : env.CarriesOut texts r) (hr : r.returns = true)
    (hsp : m.regs .sp = arena.sp) {s : Register} {text : String} (hs : s ≠ .sp)
    (hbody : r.body texts = .cmp s (.imm 0) :: failIf .eq text) :
    (m.regs s = 0 → r.EndsProgram texts m) ∧
      (m.regs s ≠ 0 → ∃ m', env r.label m = some m' ∧ m.Spares arena (· = .pc) m') := by
  -- The test looks at the register as the caller left it, as saving the link register changes the
  -- stack pointer only.
  have hrun : noCalls.run [.cmp s (.imm 0)] m.saved =
      .finished (m.saved.compared (m.regs s) 0) := by
    rw [Environment.run_next (exec_cmp ..), m.regs_saved hs]
    rfl
  have hholds : Condition.eq.holds (m.saved.compared (m.regs s) 0).flags =
      decide (m.regs s = 0) := by
    rw [Condition.holds, Machine.flags_compared, compareFlags_zero]
    simp only [BitVec.toInt_inj]
  have hsplit : r.body texts = [.cmp s (.imm 0)] ++ (failIf .eq text ++ []) := by simpa using hbody
  constructor
  · intro hzero
    exact endsProgram_of_body hr hsplit hrun (by rw [hholds, hzero]; rfl)
  · intro hnonzero
    have hpassed : noCalls.run (r.body texts) m.saved =
        .finished (m.saved.compared (m.regs s) 0) := by
      rw [hsplit, Environment.run_append_of_finished hrun, List.append_nil]
      exact run_failIf (by rw [hholds, decide_eq_false hnonzero])
    obtain ⟨m', henv, hspares⟩ :=
      h.returns (W := fun _ => False) hr hsp hpassed id (m.saved.spares_compared _ _)
    exact ⟨m', henv, hspares.mono fun s hs => hs.resolve_left id⟩

/-- The bounds check takes the index in `r0` and the array in `r1`. A negative index ends the
program before the length is read. -/
theorem bounds (h : env.CarriesOut texts .checkArrayBounds) (hsp : m.regs .sp = arena.sp) :
    ((m.regs .r0).toInt < 0 → checkArrayBounds.EndsProgram texts m) ∧
      (0 ≤ (m.regs .r0).toInt → (∀ a, Block (m.regs .r1) 4 a → arena.live m a = true) →
        ((m.load .word (m.regs .r1)).toNat ≤ (m.regs .r0).toNat →
          checkArrayBounds.EndsProgram texts m) ∧
        ((m.regs .r0).toNat < (m.load .word (m.regs .r1)).toNat →
          ∃ m', env checkArrayBounds.label m = some m' ∧
            m.Spares arena (fun s => s = .r1 ∨ s = .pc) m')) := by
  -- The sign of the index is tested first.
  have hsigned : noCalls.run [.cmp .r0 (.imm 0)] m.saved =
      .finished (m.saved.compared (m.regs .r0) 0) := by
    rw [Environment.run_next (exec_cmp ..), m.regs_saved (by decide)]
    rfl
  have hless : Condition.lt.holds (m.saved.compared (m.regs .r0) 0).flags =
      decide ((m.regs .r0).toInt < 0) := by
    rw [Condition.holds, Machine.flags_compared, compareFlags_less]
    simp
  refine ⟨fun hnegative => ?_, fun hindex hlive => ?_⟩
  · have hbody : checkArrayBounds.body texts = [.cmp .r0 (.imm 0)] ++
        (failIf .lt (texts negativeIndexText) ++ ([load .r1 (.held .r1), .cmp .r0 (.reg .r1)] ++
          failIf .cs (texts largeIndexText))) := rfl
    exact endsProgram_of_body rfl hbody hsigned (by rw [hless, decide_eq_true hnegative])
  -- Then the length takes the place of the array, and the index is compared with it.
  · generalize hsignedMachine : m.saved.compared (m.regs .r0) 0 = signed at hsigned hless
    generalize hlength : m.load .word (m.regs .r1) = length
    have hr0 : (signed.set .r1 length).regs .r0 = m.regs .r0 := by
      rw [Machine.regs_set_of_ne _ _ _ _ (by decide), ← hsignedMachine, Machine.regs_compared,
        m.regs_saved (by decide)]
    have hload : (load .r1 (.held .r1)).exec signed = .next (signed.set .r1 length) := by
      have hvalue : signed.load .word (signed.regs .r1 + BitVec.ofInt 32 0) = length := by
        rw [show BitVec.ofInt 32 0 = 0#32 from rfl, BitVec.add_zero, ← hsignedMachine,
          Machine.regs_compared, Machine.load_compared, m.regs_saved (by decide),
          Machine.load_saved hsp hlive, hlength]
      rw [← hvalue]
      rfl
    have hcompared : noCalls.run ([.cmp .r0 (.imm 0)] ++ failIf .lt (texts negativeIndexText) ++
        [load .r1 (.held .r1), .cmp .r0 (.reg .r1)]) m.saved =
          .finished ((signed.set .r1 length).compared (m.regs .r0) length) := by
      have hpositive : Condition.lt.holds signed.flags = false := by
        rw [hless, decide_eq_false (not_lt.2 hindex)]
      have hpassed := (Environment.run_append_of_finished hsigned
        (failIf .lt (texts negativeIndexText))).trans (run_failIf hpositive)
      rw [Environment.run_append_of_finished hpassed, Environment.run_next hload,
        Environment.run_next (exec_cmp ..), hr0, Operand.value, Machine.regs_set_self]
      rfl
    have hcarry : Condition.cs.holds ((signed.set .r1 length).compared (m.regs .r0) length).flags =
        decide (length.toNat ≤ (m.regs .r0).toNat) := by
      rw [Condition.holds, Machine.flags_compared, compareFlags_carry]
    have hbody : checkArrayBounds.body texts =
        ([.cmp .r0 (.imm 0)] ++ failIf .lt (texts negativeIndexText) ++
          [load .r1 (.held .r1), .cmp .r0 (.reg .r1)]) ++
        (failIf .cs (texts largeIndexText) ++ []) := rfl
    refine ⟨fun hlarge => ?_, fun hsmall => ?_⟩
    · exact endsProgram_of_body rfl hbody hcompared (by rw [hcarry, decide_eq_true hlarge])
    · have hpassed : noCalls.run (checkArrayBounds.body texts) m.saved =
          .finished ((signed.set .r1 length).compared (m.regs .r0) length) := by
        rw [hbody, Environment.run_append_of_finished hcompared, List.append_nil]
        exact run_failIf (by rw [hcarry, decide_eq_false (Nat.not_le.2 hsmall)])
      have hspares : m.saved.Spares arena (· = .r1)
          ((signed.set .r1 length).compared (m.regs .r0) length) := by
        rw [← hsignedMachine]
        refine (m.saved.spares_compared (m.regs .r0) 0).trans ?_
        exact .trans (.set (by rfl) length) (Machine.spares_compared ..)
      exact h.returns rfl hsp hpassed (by decide) hspares

end Environment.CarriesOut

/-! ## §4 Linked environments -/

/-- What is known of the code outside, while the stack pointer stands where the arena says: routines
are carried out, and division leaves the quotient in `r0` and the remainder in `r1` and changes
nothing that is live. -/
structure Environment.Linked (env : Environment) (arena : Arena) (texts : String → String) :
    Prop where
  routines : ∀ r, env.CarriesOut texts r
  quotient : ∀ m : Machine, m.regs .sp = arena.sp → m.regs .r1 ≠ 0 →
    ∃ m', env "__aeabi_idiv" m = some m' ∧ m.Spares arena Register.Scratch m' ∧
      m'.regs .r0 = (m.regs .r0).sdiv (m.regs .r1)
  remainder : ∀ m : Machine, m.regs .sp = arena.sp → m.regs .r1 ≠ 0 →
    ∃ m', env "__aeabi_idivmod" m = some m' ∧ m.Spares arena Register.Scratch m' ∧
      m'.regs .r1 = (m.regs .r0).srem (m.regs .r1)

namespace Environment.Linked

variable {env : Environment} {texts : String → String} {arena : Arena}

theorem nullPointer (h : env.Linked arena texts) (hsp : m.regs .sp = arena.sp) :
    (m.regs .r0 = 0 → checkNullPointer.EndsProgram texts m) ∧
      (m.regs .r0 ≠ 0 →
        ∃ m', env checkNullPointer.label m = some m' ∧ m.Spares arena (· = .pc) m') :=
  (h.routines .checkNullPointer).nonzero_of_body rfl hsp (by decide) rfl

theorem divideByZero (h : env.Linked arena texts) (hsp : m.regs .sp = arena.sp) :
    (m.regs .r1 = 0 → checkDivideByZero.EndsProgram texts m) ∧
      (m.regs .r1 ≠ 0 →
        ∃ m', env checkDivideByZero.label m = some m' ∧ m.Spares arena (· = .pc) m') :=
  (h.routines .checkDivideByZero).nonzero_of_body rfl hsp (by decide) rfl

end Environment.Linked

/-! ## §5 Asking for memory -/

/-- Whenever the allocator is asked for a number of bytes and returns, it has given a block. -/
def Environment.Allocates (env : Environment) (arena : Arena) (bytes : Nat) : Prop :=
  ∀ m m' : Machine, m.regs .sp = arena.sp → m.regs .r0 = BitVec.ofNat 32 bytes →
    env "malloc" m = some m' → arena.Grants bytes m m'

/-- The machine in which the allocator is asked for a number of bytes. -/
def Machine.asking (m : Machine) (bytes : Nat) : Machine := m.set .r0 (BitVec.ofNat 32 bytes)

theorem Environment.Allocates.grants {env : Environment} {arena : Arena} {bytes : Nat}
    (h : env.Allocates arena bytes) (hsp : m.regs .sp = arena.sp)
    (hmalloc : env "malloc" (m.asking bytes) = some m') : arena.Grants bytes m m' :=
  (h (m.asking bytes) m' hsp (m.regs_set_self ..) hmalloc).of_set (by decide)

/-- A size as the allocator reads it, without a sign. -/
theorem Machine.asking_size (m : Machine) (size : Int32) :
    m.asking size.toBitVec.toNat = m.set .r0 (BitVec.ofInt 32 size.toInt) := by
  rw [asking, BitVec.ofNat_toNat, BitVec.setWidth_eq, Int32.toInt, BitVec.ofInt_toInt]

namespace Lower

variable {x : Setting} {start : Resources} {size : Int32} {fails : Machine → List Access → Prop}

theorem callMalloc_executes {post : Unit → Resources → Machine → List Access → Prop}
    (hpost : ∀ m', x.env "malloc" (m.asking size.toBitVec.toNat) = some m' → post () start m' [])
    (hfails : x.env "malloc" (m.asking size.toBitVec.toNat) = none →
      fails (m.asking size.toBitVec.toNat) []) :
    (callMalloc size).Executes x start m post fails := by
  have hload : (loadConst .r0 size.toInt).exec m = .next (m.asking size.toBitVec.toNat) := by
    rw [Machine.asking_size]
    rfl
  refine .bind (executes_emit_next hload ?_)
  cases hmalloc : x.env "malloc" (m.asking size.toBitVec.toNat) with
  | some m' => exact executes_call_some rfl hmalloc (hpost m' hmalloc)
  | none => exact executes_call_none rfl hmalloc (hfails hmalloc)

/-- The address of the block is brought into a register. -/
theorem allocate_executes {post : Register → Resources → Machine → List Access → Prop}
    (hpost : ∀ r ∈ start.pool.free, ∀ m',
      x.env "malloc" (m.asking size.toBitVec.toNat) = some m' →
      post r (start.hold r) (m'.set r (m'.regs .r0)) [])
    (hfails : x.env "malloc" (m.asking size.toBitVec.toNat) = none →
      fails (m.asking size.toBitVec.toNat) []) :
    (allocate size).Executes x start m post fails :=
  .bind (callMalloc_executes
    (fun m' hmalloc => executes_intoFresh fun r hr => executes_emit_next
      (Instruction.exec_move (ne_pc_of_mem_free hr) .r0) (hpost r hr m' hmalloc))
    hfails)

end Lower

end ArmCompiler
