import ArmCompiler.Proofs.Balance.Stmt
import ArmCompiler.Proofs.Preservation.Expr

/-!
# Preservation for Control Flow

One rule for each shape of code that statements are put together from. A rule says which run of the
reference semantics the code carries out, given the runs that its parts carry out. Where control
jumps, the rule relies on the code being a part of the executed sequence, whose labels are distinct.

## Contents
- §1: code that carries out a run
- §2: tests
- §3: conditionals
- §4: loops
-/

namespace ArmCompiler

open Instruction Literal Lower

/-! ## §1 Code that carries out a run -/

/-- `Executes site frame code frame' run`: wherever the code stands in the sequence, it takes a
machine that represents a store in `frame` to one that represents, in `frame'`, the store that the
run leads to. -/
def Executes (site : Site) (frame : Frame) (code : List Pseudo) (frame' : Frame)
    (run : Store → Result Store) : Prop :=
  ∀ ⦃σ : Store⦄ ⦃m : Machine⦄ ⦃rest : List Instruction⦄,
    Represents site.top site.link frame σ m → site.plain code ++ rest <:+ site.code →
    site.Goes rest (Represents site.top site.link frame') (run σ) →
    site.Ends (site.plain code ++ rest) m

/-- What follows some code of a sequence is code of the sequence. -/
theorem suffix_of_append {a b code : List Instruction} (h : a ++ b <:+ code) : b <:+ code :=
  (List.suffix_append a b).trans h

namespace Executes

variable {site : Site} {frame frame' frame'' : Frame} {run run' : Store → Result Store}

theorem nil : Executes site frame [] frame fun σ => return σ :=
  fun _ _ _ hrep _ hrest => hrest _ hrep

/-- One part after the other. -/
theorem append {a b : List Pseudo} (ha : Executes site frame a frame' run)
    (hb : Executes site frame' b frame'' run') :
    Executes site frame (a ++ b) frame'' fun σ => run σ >>= run' := by
  intro σ m rest hrep hat hrest
  rw [Site.plain_append, List.append_assoc] at hat ⊢
  refine ha hrep hat ((Result.meets_bind.1 hrest).imp fun σ' hσ' m' hrep' => ?_)
  exact hb hrep' (suffix_of_append hat) hσ'

/-- A scope makes room on the stack, and takes it back. -/
theorem scope {slots count : Nat} {body : List Pseudo}
    (hbody : Executes site (frame.openScope slots) body frame' run)
    (hdeclared : (frame.openScope slots).Declared count frame')
    (hroom : frame.depth + (slotBytes * slots : Nat) + 4 ≤ 2 ^ 32) :
    Executes site frame (scopeCode slots body) frame (Store.inScope run) := by
  intro σ m rest hrep hat hrest
  simp only [scopeCode, Site.plain_reserve, Site.plain_append, Site.plain_unreserve,
    Site.plain_nil, List.append_nil, List.append_assoc] at hat ⊢
  apply Site.Ends.reserve
  refine hbody (hrep.openScope hroom) (suffix_of_append hat) ?_
  refine (Result.meets_bind.1 hrest).imp fun σ' hσ' m' hrep' => ?_
  -- What the body declared is dropped from the store as its slots are given back.
  apply Site.Ends.unreserve
  exact hσ' _ (hrep.closeScope hrep' hdeclared)

/-- A lowering step in a scope of its own. -/
theorem inScope {slots : Nat} {step : Lower Unit} {resources : Resources} {out : Lowered Unit}
    (h : (Lower.inScope slots step).run resources = .ok out)
    (hroom : resources.frame.depth + (slotBytes * slots : Nat) + 4 ≤ 2 ^ 32)
    (hstep : ∀ {inner : Lowered Unit},
      step.run { resources with frame := resources.frame.openScope slots } = .ok inner →
      (∃ count, (resources.frame.openScope slots).Declared count inner.resources.frame) ∧
        Executes site (resources.frame.openScope slots) inner.code inner.resources.frame run) :
    Executes site resources.frame out.code resources.frame (Store.inScope run) := by
  obtain ⟨inner, hinner, rfl⟩ := run_inScope_eq_ok.1 h
  obtain ⟨⟨_, hdeclared⟩, hbody⟩ := hstep hinner
  have hbytes : inner.resources.frame.scopeBytes.toNat = slotBytes * slots := by
    rw [hdeclared.scopeBytes]
    omega
  rw [hbytes]
  exact scope hbody hdeclared hroom

end Executes

/-! ## §2 Tests -/

/-- Code that compares the value of a condition with a truth value. -/
def Tests (site : Site) (frame : Frame) (code : List Pseudo) (cond : Expr) (value : Int) : Prop :=
  ∀ ⦃σ : Store⦄ ⦃m : Machine⦄ ⦃rest : List Instruction⦄,
    Represents site.top site.link frame σ m →
    site.Goes rest (fun n m' => IsBit n ∧ Represents site.top site.link frame σ m' ∧
      Condition.eq.holds m'.flags = decide (n = value)) (cond.eval σ) →
    site.Ends (site.plain code ++ rest) m

/-- A checked condition over scalars is tested by its code. -/
theorem Lower.testCondition_tests {site : Site} {table : SymbolTable} {frame : Frame}
    {resources : Resources} {out : Lowered Unit} {cond : Expr} {value : Int}
    (h : (testCondition cond value).run resources = .ok out) (hframe : resources.frame = frame)
    (hscalar : cond.isScalar) (hclean : (checkCondition table cond).diagnostics = [])
    (hmatch : Matches table frame) (hvalue : IsBit value) :
    Tests site frame out.code cond value := by
  subst hframe
  intro σ m rest hrep hrest
  simp only [checkCondition, Report.diagnostics_bind, List.append_eq_nil_iff] at hclean
  simp only [testCondition, run_bind_eq_ok, run_emit, run_release, Except.ok.injEq] at h
  obtain ⟨first, _, hfirst, ⟨_, _, rfl, rfl, rfl⟩, rfl⟩ := h
  have hty := hrep.isScalar_check hmatch hscalar hclean.1
  simp only [List.append_nil, Site.plain_append, Site.plain_instr, Site.plain_nil,
    List.append_assoc, List.singleton_append]
  refine Expr.lower_ends hfirst hscalar hclean.1 hmatch hrep
    (Result.Meets.imp hrest fun n hn m' hm' => ?_)
  obtain ⟨hadmits, hrep', hreg⟩ := hm'
  refine .next rfl (hn _ ⟨hadmits.2 (expect_scalar rfl hty hclean.2).symm, ?_, ?_⟩)
  · -- Comparing changes the flags only.
    exact hrep'.keeps (W := fun _ => False) ⟨rfl, fun _ _ => rfl⟩ id
  · have hfits : FitsWord value := by rcases hvalue with rfl | rfl <;> decide
    simp only [Condition.holds, compareFlags_zero, hreg, Operand.value,
      toInt_ofInt_of_fits hadmits.1, toInt_ofInt_of_fits hfits]

/-! ## §3 Conditionals -/

section Conditionals

variable {site : Site} {frame : Frame} {cond : Expr} {test thenArm elseArm : List Pseudo}
  {run run' : Store → Result Store}

theorem Executes.ifThen (htest : Tests site frame test cond 0)
    (hthen : Executes site frame thenArm frame run) (done : Nat) :
    Executes site frame (ifThenCode done test thenArm) frame (fun σ => do
      let n ← cond.eval σ
      if n = 0 then return σ else run σ) := by
  intro σ m rest hrep hat hrest
  simp only [ifThenCode, Site.plain_append, Site.plain_instr, Site.plain_nil, List.append_assoc,
    List.cons_append, List.nil_append] at hat ⊢
  -- Where the arm and the label below it stand in the sequence.
  have harm := suffix_of_append (List.append_cons _ _ _ ▸ hat)
  have hdone := suffix_of_append harm
  refine htest hrep ((Result.meets_bind.1 hrest).imp fun n hn m' hm' => ?_)
  obtain ⟨_, hrep', hflag⟩ := hm'
  by_cases hzero : n = 0
  · rw [if_pos hzero] at hn
    refine .jumpIf hdone (fun _ => hn m' hrep') fun hpassed => ?_
    simp [hflag, hzero] at hpassed
  · rw [if_neg hzero] at hn
    refine .jumpIf hdone (fun htaken => ?_) fun _ => hthen hrep' harm ?_
    · simp [hflag, hzero] at htaken
    · exact Result.Meets.imp hn fun σ' hσ' m'' hm'' => .next rfl (hσ' m'' hm'')

theorem Executes.ifElse (htest : Tests site frame test cond 0)
    (hthen : Executes site frame thenArm frame run)
    (helse : Executes site frame elseArm frame run') (done otherwise : Nat) :
    Executes site frame (ifElseCode done otherwise test thenArm elseArm) frame (fun σ => do
      let n ← cond.eval σ
      if n = 0 then run' σ else run σ) := by
  intro σ m rest hrep hat hrest
  simp only [ifElseCode, Site.plain_append, Site.plain_instr, Site.plain_nil, List.append_assoc,
    List.cons_append, List.nil_append] at hat ⊢
  -- Where the two arms and the labels stand in the sequence.
  have harm := suffix_of_append (List.append_cons _ _ _ ▸ hat)
  have hotherwise := suffix_of_append (List.append_cons _ _ _ ▸ harm)
  have harm' := suffix_of_append (a := [_]) hotherwise
  have hdone := suffix_of_append harm'
  refine htest hrep ((Result.meets_bind.1 hrest).imp fun n hn m' hm' => ?_)
  obtain ⟨_, hrep', hflag⟩ := hm'
  by_cases hzero : n = 0
  · rw [if_pos hzero] at hn
    refine .jumpIf hotherwise (fun _ => helse hrep' harm' ?_) fun hpassed => ?_
    · exact Result.Meets.imp hn fun σ' hσ' m'' hm'' => .next rfl (hσ' m'' hm'')
    · simp [hflag, hzero] at hpassed
  · rw [if_neg hzero] at hn
    refine .jumpIf hotherwise (fun htaken => ?_) fun _ => hthen hrep' harm ?_
    · simp [hflag, hzero] at htaken
    · exact Result.Meets.imp hn fun σ' hσ' m'' hm'' => .jump hdone rfl (hσ' m'' hm'')

end Conditionals

/-! ## §4 Loops -/

section Loops

variable {site : Site} {frame : Frame} {cond : Expr} {test round : List Pseudo}
  {run : Store → Result Store}

/-- From its test on, a loop runs as many rounds as the condition holds for. `body` is what stands
below the label at the top, and comes back to the test. -/
theorem Tests.loop {top : String} {body rest : List Instruction}
    (htest : Tests site frame test cond 1) (hat : .label top :: body <:+ site.code)
    (hround : ∀ {σ : Store} {m : Machine}, Represents site.top site.link frame σ m →
      site.Goes (site.plain test ++ Instruction.jumpIf .eq top :: rest)
        (Represents site.top site.link frame) (run σ) → site.Ends body m)
    (rounds : Nat) {σ : Store} {m : Machine} (hrep : Represents site.top site.link frame σ m)
    (hrest : site.Goes rest (Represents site.top site.link frame)
      (iterate cond run rounds σ)) :
    site.Ends (site.plain test ++ Instruction.jumpIf .eq top :: rest) m := by
  -- A round that is run leads back to the test, with one round fewer to go.
  induction rounds generalizing σ m with
  | zero => exact hrest.elim
  | succ rounds ih =>
    refine htest hrep ((Result.meets_bind.1 hrest).imp fun n hn m' hm' => ?_)
    obtain ⟨hbit, hrep', hflag⟩ := hm'
    rcases hbit with rfl | rfl
    · refine .jumpIf hat (fun htaken => ?_) fun _ => hn m' hrep'
      simp [hflag] at htaken
    · refine .jumpIf hat (fun _ => hround hrep' ?_) fun hpassed => ?_
      · exact (Result.meets_bind.1 hn).imp fun σ' hσ' m'' hm'' => ih hm'' hσ'
      · simp [hflag] at hpassed

/-- A loop that is tested before each round. -/
theorem Executes.loop (htest : Tests site frame test cond 1)
    (hround : Executes site frame round frame run) (check top rounds : Nat) :
    Executes site frame (loopCode check top round test) frame (iterate cond run rounds) := by
  intro σ m rest hrep hat hrest
  simp only [loopCode, Site.plain_append, Site.plain_instr, Site.plain_nil, List.append_assoc,
    List.cons_append, List.nil_append] at hat ⊢
  have htop := suffix_of_append (a := [_]) hat
  have hbody := suffix_of_append (a := [_]) htop
  have hcheck := suffix_of_append hbody
  -- The first jump skips the round and goes to the test.
  refine .jump hcheck rfl (htest.loop htop (fun hrep' hgoes => ?_) rounds hrep hrest)
  refine hround hrep' hbody (Result.Meets.imp hgoes fun σ' hσ' m' hm' => ?_)
  exact .next rfl (hσ' m' hm')

/-- A loop that is tested after each round. -/
theorem Executes.untilLoop (htest : Tests site frame test cond 1)
    (hround : Executes site frame round frame run) (top rounds : Nat) :
    Executes site frame (untilCode top round test) frame fun σ =>
      run σ >>= iterate cond run rounds := by
  intro σ m rest hrep hat hrest
  simp only [untilCode, Site.plain_append, Site.plain_instr, Site.plain_nil, List.append_assoc,
    List.cons_append, List.nil_append] at hat ⊢
  have hbody := suffix_of_append (a := [_]) hat
  -- The first round is not tested. After it the loop goes on as one that is tested before each
  -- round.
  refine .next rfl (hround hrep hbody ?_)
  refine (Result.meets_bind.1 hrest).imp fun σ' hσ' m' hm' => ?_
  exact htest.loop hat (fun hrep' hgoes => hround hrep' hbody hgoes) rounds hm' hσ'

end Loops

end ArmCompiler
