import ArmCompiler.Proofs.Balance.Rhs

/-!
# Balance of Statements

A statement gives back every register. All it keeps are the stack slots of the variables it
declares and the local labels it numbers. Its code is structured.

## Contents
- §1: the code of each statement form
- §2: balanced code
- §3: statements
-/

namespace ArmCompiler

open Instruction Lower

/-! ## §1 The code of each statement form -/

namespace Stmt

variable {table : SymbolTable} {resources : Resources} {out : Lowered Unit} {span : Span}

theorem lower_declare_eq_ok {ty : Ty} {name : String} {rhs : Rhs}
    (h : ((Stmt.declare span ty name rhs).lower table).run resources = .ok out) :
    ∃ value offset frame, (rhs.lower table ty).run resources = .ok value ∧
      value.resources.frame.declare name ty = .ok (offset, frame) ∧
      out = {
        value := ()
        resources :=
          { value.resources with frame, pool := value.resources.pool.release value.value }
        code := value.code ++ [.instr (.str ty.width value.value (.offset .sp offset))] } := by
  simp only [lower, run_bind_eq_ok, run_declare_eq_ok, run_emit, run_release,
    Except.ok.injEq] at h
  obtain ⟨value, _, hvalue, ⟨_, _, ⟨offset, frame, hdeclare, rfl⟩, ⟨_, _, rfl, rfl, rfl⟩, rfl⟩,
    rfl⟩ := h
  exact ⟨value, offset, frame, hvalue, hdeclare, rfl⟩

theorem lower_assign_eq_ok {target : Target} {rhs : Rhs}
    (h : ((Stmt.assign span target rhs).lower table).run resources = .ok out) :
    ∃ ty value place released, target.typeIn resources.frame = .ok ty ∧
      (rhs.lower table ty).run resources = .ok value ∧
      target.place.run value.resources = .ok place ∧
      place.value.release.run place.resources = .ok released ∧
      out = {
        value := ()
        resources :=
          { released.resources with pool := released.resources.pool.release value.value }
        code := value.code ++ (place.code ++
          (.instr (.str (target.width ty) value.value place.value.address) :: released.code)) } := by
  simp only [lower, run_bind_eq_ok, run_getFrame, run_ofExcept_eq_ok, run_emit, run_release,
    Except.ok.injEq] at h
  obtain ⟨_, _, rfl, ⟨_, _, ⟨ty, hty, rfl⟩, ⟨value, _, hvalue, ⟨place, _, hplace, ⟨_, _, rfl,
    ⟨released, _, hreleased, rfl, rfl⟩, rfl⟩, rfl⟩, rfl⟩, rfl⟩, rfl⟩ := h
  exact ⟨ty, value, place, released, hty, hvalue, hplace, hreleased, by simp⟩

theorem lower_increment_eq_ok {name : String}
    (h : ((Stmt.increment span name).lower table).run resources = .ok out) :
    ∃ offset ty, ∃ r ∈ resources.pool.free, resources.frame.find name = .ok (offset, ty) ∧
      out = {
        value := ()
        resources
        code := [.instr (load r (.offset .sp offset)), .instr (opFlags .add r r (.imm 1)),
          .routine (some .vs) .throwOverflow, .instr (store r (.offset .sp offset))] } := by
  simp only [lower, run_bind_eq_ok, run_lookup, run_ofExcept_eq_ok, run_acquire_eq_ok, run_emit,
    run_callRoutineIf, run_release, Except.ok.injEq] at h
  obtain ⟨_, _, ⟨⟨offset, ty⟩, hfind, rfl⟩, ⟨_, _, ⟨r, hhead, rfl⟩, ⟨_, _, rfl, ⟨_, _, rfl,
    ⟨_, _, rfl, ⟨_, _, rfl, rfl, rfl⟩, rfl⟩, rfl⟩, rfl⟩, rfl⟩, rfl⟩ := h
  exact ⟨offset, ty, r, List.mem_of_mem_head? hhead, hfind, by simp [Resources.hold]⟩

theorem lower_ret_eq_ok {e : Expr}
    (h : ((Stmt.ret span e).lower table).run resources = .ok out) :
    ∃ value, e.lower.run resources = .ok value ∧
      out = {
        value := ()
        resources := { value.resources with
          pool := ((value.resources.pool.holdReturn).release value.value).freeReturn }
        code := value.code ++ [.instr (move .r0 value.value),
          .unreserve value.resources.frame.depth.toNat, .instr (.pop .pc)] } := by
  simp only [lower, run_bind_eq_ok, run_holdReturn, run_emit, run_release, run_getFrame,
    run_emitAll, run_freeReturn, Except.ok.injEq] at h
  obtain ⟨value, _, hvalue, ⟨_, _, rfl, ⟨_, _, rfl, ⟨_, _, rfl, ⟨_, _, rfl, ⟨_, _, rfl, ⟨_, _, rfl,
    rfl, rfl⟩, rfl⟩, rfl⟩, rfl⟩, rfl⟩, rfl⟩, rfl⟩ := h
  exact ⟨value, hvalue, rfl⟩

theorem lower_exit_eq_ok {e : Expr}
    (h : ((Stmt.exit span e).lower table).run resources = .ok out) :
    ∃ value, e.lower.run resources = .ok value ∧
      out = {
        value := ()
        resources := { value.resources with
          pool := ((value.resources.pool.holdReturn).freeReturn).release value.value }
        code := value.code ++ [.instr (move .r0 value.value), .instr (call "exit"),
          .instr (loadConst .r0 0)] } := by
  simp only [lower, run_bind_eq_ok, run_holdReturn, run_emit, run_release, run_freeReturn,
    Except.ok.injEq] at h
  obtain ⟨value, _, hvalue, ⟨_, _, rfl, ⟨_, _, rfl, ⟨_, _, rfl, ⟨_, _, rfl, ⟨_, _, rfl, rfl, rfl⟩,
    rfl⟩, rfl⟩, rfl⟩, rfl⟩, rfl⟩ := h
  exact ⟨value, hvalue, rfl⟩

theorem lower_ifThen_eq_ok {cond : Expr} {arm : Stmt}
    (h : ((Stmt.ifThen span cond arm).lower table).run resources = .ok out) :
    ∃ test body,
      (testCondition cond 0).run { resources with nextLabel := resources.nextLabel + 1 } =
        .ok test ∧
      (inScope arm.slots (arm.lower table)).run test.resources = .ok body ∧
      out = {
        value := ()
        resources := body.resources
        code := ifThenCode resources.nextLabel test.code body.code } := by
  simp only [lower, run_bind_eq_ok, run_freshLabel, run_emit, Except.ok.injEq] at h
  obtain ⟨_, _, rfl, ⟨test, _, htest, ⟨_, _, rfl, ⟨body, _, hbody, rfl, rfl⟩, rfl⟩, rfl⟩, rfl⟩ := h
  exact ⟨test, body, htest, hbody, rfl⟩

theorem lower_ifElse_eq_ok {cond : Expr} {thenArm elseArm : Stmt}
    (h : ((Stmt.ifElse span cond thenArm elseArm).lower table).run resources = .ok out) :
    ∃ test thenOut elseOut,
      (testCondition cond 0).run { resources with nextLabel := resources.nextLabel + 1 } =
        .ok test ∧
      (inScope thenArm.slots (thenArm.lower table)).run
        { test.resources with nextLabel := test.resources.nextLabel + 1 } = .ok thenOut ∧
      (inScope elseArm.slots (elseArm.lower table)).run thenOut.resources = .ok elseOut ∧
      out = {
        value := ()
        resources := elseOut.resources
        code := ifElseCode resources.nextLabel test.resources.nextLabel test.code thenOut.code
          elseOut.code } := by
  simp only [lower, run_bind_eq_ok, run_freshLabel, run_emit, Except.ok.injEq] at h
  obtain ⟨_, _, rfl, ⟨test, _, htest, ⟨_, _, rfl, ⟨_, _, rfl, ⟨thenOut, _, hthen, ⟨_, _, rfl,
    ⟨_, _, rfl, ⟨elseOut, _, helse, rfl, rfl⟩, rfl⟩, rfl⟩, rfl⟩, rfl⟩, rfl⟩, rfl⟩, rfl⟩ := h
  exact ⟨test, thenOut, elseOut, htest, hthen, helse, rfl⟩

theorem lower_whileDo_eq_ok {cond : Expr} {body : Stmt}
    (h : ((Stmt.whileDo span cond body).lower table).run resources = .ok out) :
    ∃ round test,
      (inScope body.slots (body.lower table)).run
        { resources with nextLabel := resources.nextLabel + 2 } = .ok round ∧
      (testCondition cond 1).run round.resources = .ok test ∧
      out = {
        value := ()
        resources := test.resources
        code := loopCode resources.nextLabel (resources.nextLabel + 1) round.code test.code } := by
  simp only [lower, loopBack, run_bind_eq_ok, run_freshLabel, run_emit, Except.ok.injEq] at h
  obtain ⟨_, _, rfl, ⟨_, _, rfl, ⟨_, _, rfl, ⟨_, _, rfl, ⟨round, _, hround, ⟨_, _, rfl,
    ⟨test, _, htest, rfl, rfl⟩, rfl⟩, rfl⟩, rfl⟩, rfl⟩, rfl⟩, rfl⟩ := h
  exact ⟨round, test, hround, htest, rfl⟩

theorem lower_doWhile_eq_ok {cond : Expr} {body : Stmt}
    (h : ((Stmt.doWhile span body cond).lower table).run resources = .ok out) :
    ∃ round test,
      (inScope body.slots (body.lower table)).run
        { resources with nextLabel := resources.nextLabel + 1 } = .ok round ∧
      (testCondition cond 1).run round.resources = .ok test ∧
      out = {
        value := ()
        resources := test.resources
        code := untilCode resources.nextLabel round.code test.code } := by
  simp only [lower, loopBack, run_bind_eq_ok, run_freshLabel, run_emit, Except.ok.injEq] at h
  obtain ⟨_, _, rfl, ⟨_, _, rfl, ⟨round, _, hround, ⟨test, _, htest, rfl, rfl⟩, rfl⟩, rfl⟩, rfl⟩ := h
  exact ⟨round, test, hround, htest, rfl⟩

/-- The code of a `for` loop inside the scope of its first clause. -/
def lowerFor (table : SymbolTable) (init : Stmt) (cond : Expr) (step body : Stmt) :
    Lower Unit := do
  init.lower table
  let check ← freshLabel
  let top ← freshLabel
  emit (jump check)
  emit (.label top)
  inScope body.slots (body.lower table)
  step.lower table
  emit (.label check)
  loopBack cond top

theorem lower_forLoop (init : Stmt) (cond : Expr) (step body : Stmt) :
    (Stmt.forLoop span init cond step body).lower table =
      inScope init.slots (lowerFor table init cond step body) := rfl

/-- A `for` loop is its first clause and a loop whose rounds end with its last clause. -/
theorem lowerFor_eq_ok {init step body : Stmt} {cond : Expr}
    (h : (lowerFor table init cond step body).run resources = .ok out) :
    ∃ first round last test, (init.lower table).run resources = .ok first ∧
      (inScope body.slots (body.lower table)).run
        { first.resources with nextLabel := first.resources.nextLabel + 2 } = .ok round ∧
      (step.lower table).run round.resources = .ok last ∧
      (testCondition cond 1).run last.resources = .ok test ∧
      out = {
        value := ()
        resources := test.resources
        code := first.code ++ loopCode first.resources.nextLabel
          (first.resources.nextLabel + 1) (round.code ++ last.code) test.code } := by
  simp only [lowerFor, loopBack, run_bind_eq_ok, run_freshLabel, run_emit, Except.ok.injEq] at h
  obtain ⟨first, _, hfirst, ⟨_, _, rfl, ⟨_, _, rfl, ⟨_, _, rfl, ⟨_, _, rfl, ⟨round, _, hround,
    ⟨last, _, hlast, ⟨_, _, rfl, ⟨test, _, htest, rfl, rfl⟩, rfl⟩, rfl⟩, rfl⟩, rfl⟩, rfl⟩, rfl⟩,
    rfl⟩, rfl⟩ := h
  refine ⟨first, round, last, test, hfirst, hround, hlast, htest, ?_⟩
  simp [loopCode]

theorem lower_seq_eq_ok {first second : Stmt}
    (h : ((Stmt.seq span first second).lower table).run resources = .ok out) :
    ∃ a b, (first.lower table).run resources = .ok a ∧
      (second.lower table).run a.resources = .ok b ∧
      out = { value := (), resources := b.resources, code := a.code ++ b.code } := by
  simp only [lower, run_bind_eq_ok] at h
  obtain ⟨a, b, ha, hb, rfl⟩ := h
  exact ⟨a, b, ha, hb, rfl⟩

end Stmt

/-! ## §2 Balanced code -/

/-- Code of a statement that declares `count` variables: it leaves the registers as they were,
changes the frame by its declarations only, and is structured. -/
structure Balanced (W : Register → Prop) (known : String → Prop) (resources : Resources)
    (count : Nat) (out : Lowered Unit) : Prop where
  frame : resources.frame.Declared count out.resources.frame
  pool : out.resources.pool = resources.pool
  code : Structured W known resources.frame.depth resources.nextLabel out.resources.nextLabel
    out.code

theorem Quiet.balanced {W : Register → Prop} {known : String → Prop} {resources : Resources}
    {out : Lowered Unit} (h : Quiet W resources out) (hlaid : resources.frame.Laid) :
    Balanced W known resources 0 out := by
  obtain ⟨hres, hcode⟩ := h
  refine ⟨?_, by rw [hres], ?_⟩
  · rw [hres]
    exact .none _
  · rw [hres]
    exact .straight (hcode.inFrame hlaid)

namespace Balanced

variable {W : Register → Prop} {known : String → Prop} {resources : Resources} {count : Nat}

theorem laid {out : Lowered Unit} (h : Balanced W known resources count out)
    (hlaid : resources.frame.Laid) : out.resources.frame.Laid :=
  hlaid.declared h.frame

theorem depth_eq {out : Lowered Unit} (h : Balanced W known resources count out) :
    out.resources.frame.depth = resources.frame.depth :=
  h.frame.keeps.1

/-- A statement that declares nothing leaves everything but the next label as it was. -/
theorem resources_eq {out : Lowered Unit} (h : Balanced W known resources 0 out) :
    out.resources = { resources with nextLabel := out.resources.nextLabel } := by
  simp [← h.pool, ← h.frame.eq_of_zero]

/-- A statement in a scope of its own declares nothing outside. -/
theorem inScope {slots : Nat} {step : Lower Unit} {out : Lowered Unit}
    (h : (Lower.inScope slots step).run resources = .ok out)
    (hstep : ∀ {inner : Lowered Unit},
      step.run { resources with frame := resources.frame.openScope slots } = .ok inner →
      Balanced W known { resources with frame := resources.frame.openScope slots } count inner) :
    Balanced W known resources 0 out := by
  obtain ⟨inner, hinner, rfl⟩ := run_inScope_eq_ok.1 h
  have hbody := hstep hinner
  -- Declarations do not change how much the scope reserved.
  have hbytes : inner.resources.frame.scopeBytes.toNat = slotBytes * slots := by
    rw [hbody.frame.scopeBytes]
    omega
  refine ⟨?_, hbody.pool, ?_⟩
  · rw [hbody.frame.closeScope]
    exact .none _
  · have hdepth : (resources.frame.openScope slots).depth =
        resources.frame.depth + (slotBytes * slots : Nat) := rfl
    have hcode := hbody.code
    rw [hdepth] at hcode
    simpa [hbytes, scopeCode] using Structured.scope hcode

end Balanced

/-! ## §3 Statements -/

namespace Lower

variable {W : Register → Prop} {resources : Resources} {out : Lowered Unit}

theorem testCondition_quiet {cond : Expr} {value : Int}
    (h : (testCondition cond value).run resources = .ok out) (hW : Writable resources.pool W) :
    Quiet W resources out := by
  simp only [testCondition, run_bind_eq_ok, run_emit, run_release, Except.ok.injEq] at h
  obtain ⟨first, _, hfirst, ⟨_, _, rfl, rfl, rfl⟩, rfl⟩ := h
  have hcond := cond.lower_fetches hfirst hW
  exact ⟨by simp [hcond.holds, Resources.hold], by simpa using ⟨hcond.code, .cmp⟩⟩

/-- A value is passed to a routine in `r0`. -/
theorem passTo_quiet {e : Expr} {routine : Routine}
    (h : (do
      let r ← e.lower
      emit (move .r0 r)
      release r
      callRoutine routine).run resources = .ok out)
    (hW : Writable resources.pool W) : Quiet W resources out := by
  simp only [run_bind_eq_ok, run_emit, run_release, run_callRoutine, Except.ok.injEq] at h
  obtain ⟨first, _, hfirst, ⟨_, _, rfl, ⟨_, _, rfl, rfl, rfl⟩, rfl⟩, rfl⟩ := h
  have hvalue := e.lower_fetches hfirst hW
  exact ⟨by simp [hvalue.holds, Resources.hold],
    by simpa using ⟨hvalue.code, .mov hW.r0, .routine⟩⟩

theorem printValue_quiet {e : Expr} (h : (printValue e).run resources = .ok out)
    (hW : Writable resources.pool W) : Quiet W resources out := by
  simp only [printValue] at h
  obtain ⟨ty, rest, hty, hrest, rfl⟩ := run_bind_eq_ok.1 h
  simp only [run_typeOf, run_ofExcept_eq_ok] at hty
  obtain ⟨_, _, rfl⟩ := hty
  have hquiet := passTo_quiet hrest hW
  exact ⟨hquiet.unchanged, by simpa using hquiet.code⟩

end Lower

/-- A statement leaves the registers as they were, changes the frame by its declarations only,
and its code is structured. -/
theorem Stmt.lower_balanced {W : Register → Prop} {table : SymbolTable} (s : Stmt)
    {resources : Resources} {out : Lowered Unit}
    (h : (s.lower table).run resources = .ok out) (hW : Writable resources.pool W)
    (hlaid : resources.frame.Laid) (hreturn : resources.pool.returnHeld = false) :
    Balanced W table.Knows resources s.slots out := by
  induction s generalizing resources out with
  | skip span =>
    simp only [lower, run_pure, Except.ok.injEq] at h
    subst h
    exact ⟨.none _, rfl, .straight (by simp)⟩
  | declare span ty name rhs =>
    obtain ⟨value, offset, frame, hvalue, hdeclare, rfl⟩ := lower_declare_eq_ok h
    -- The value is computed in the frame without the variable and stored in the one with it.
    have hrhs := Rhs.lower_brings hvalue hW hlaid hreturn
    rw [hrhs.holds] at hdeclare
    refine ⟨.one hdeclare, by simp [hrhs.holds], ?_⟩
    have hslot : InFrame resources.frame.depth offset := by
      have hin := (hlaid.declare hdeclare).inFrame ⟨_, _, Frame.find_of_declare hdeclare⟩
      rwa [(Frame.Declared.one hdeclare).keeps.1] at hin
    have hstore : StraightCode W (InFrame resources.frame.depth)
        [.instr (.str ty.width value.value (.offset .sp offset))] := by
      simpa using .storeSlot hslot
    simpa [hrhs.holds] using hrhs.code.append_straight hstore
  | assign span target rhs =>
    obtain ⟨ty, value, place, released, _, hvalue, hplace, hreleased, rfl⟩ := lower_assign_eq_ok h
    have hrhs := Rhs.lower_brings hvalue hW hlaid hreturn
    rw [hrhs.holds] at hplace
    -- The target is found while the value is in use.
    have hfound := Target.place_finds hplace (hW.hold _)
    have hback := hfound.release_eq_ok hreleased
    subst hback
    refine ⟨.none _, by simp, ?_⟩
    have hstore := hfound.store (target.width ty) value.value
    simpa using hrhs.code.append_straight (hstore.inFrame hlaid)
  | increment span name =>
    obtain ⟨offset, ty, r, hr, hfind, rfl⟩ := lower_increment_eq_ok h
    refine Quiet.balanced ⟨rfl, ?_⟩ hlaid
    have hslot : resources.frame.Shows offset := ⟨name, ty, hfind⟩
    simpa using ⟨.loadSlot (hW.free r hr) hslot, .arith (hW.free r hr), .routine,
      .storeSlot hslot⟩
  | read span target =>
    simp only [lower, run_bind_eq_ok, run_getFrame, run_ofExcept_eq_ok, run_emit, run_release,
      run_callRoutine, Except.ok.injEq] at h
    obtain ⟨_, _, rfl, ⟨_, _, ⟨ty, _, rfl⟩, ⟨place, _, hplace, ⟨r, _, hr, ⟨_, _, rfl, ⟨_, _, rfl,
      rfl, rfl⟩, rfl⟩, rfl⟩, rfl⟩, rfl⟩, rfl⟩ := h
    have hfound := Target.place_finds hplace hW
    have haddress := hfound.placeAddress_fetches hr hW
    refine Quiet.balanced ⟨?_, ?_⟩ hlaid
    · have hholds : r.resources = resources.hold r.value := haddress.holds
      simp [hholds, Resources.hold]
    · have hcode := haddress.code
      rw [StraightCode.append_iff] at hcode
      simpa using ⟨hcode.1, hcode.2, .mov hW.r0, .routine⟩
  | free span e => exact (passTo_quiet h hW).balanced hlaid
  | ret span e =>
    obtain ⟨value, hvalue, rfl⟩ := lower_ret_eq_ok h
    have hexpr := e.lower_fetches hvalue hW
    refine ⟨?_, ?_, ?_⟩
    · simpa [hexpr.holds] using .none _
    · simp [hexpr.holds, RegisterPool.hold, RegisterPool.holdReturn, RegisterPool.release,
        RegisterPool.freeReturn, ← hreturn]
    · -- A return leaves the depth as the frame has it, although its code gives all of it back.
      have hmove : StraightCode W resources.frame.Shows
          (value.code ++ [.instr (move .r0 value.value)]) := by
        simpa using ⟨hexpr.code, .mov hW.r0⟩
      simpa [hexpr.holds] using
        Structured.append (.straight (hmove.inFrame hlaid)) (.ret hlaid.depth_nonneg)
  | exit span e =>
    obtain ⟨value, hvalue, rfl⟩ := lower_exit_eq_ok h
    have hexpr := e.lower_fetches hvalue hW
    refine Quiet.balanced ⟨?_, ?_⟩ hlaid
    · simp [hexpr.holds, Resources.hold, RegisterPool.hold, RegisterPool.holdReturn,
        RegisterPool.release, RegisterPool.freeReturn, ← hreturn]
    · simpa using ⟨hexpr.code, .mov hW.r0, .library (by decide), .constant hW.r0⟩
  | print span e => exact (printValue_quiet h hW).balanced hlaid
  | println span e =>
    simp only [lower, run_bind_eq_ok, run_callRoutine, Except.ok.injEq] at h
    obtain ⟨printed, _, hprinted, rfl, rfl⟩ := h
    have hquiet := printValue_quiet hprinted hW
    exact Quiet.balanced ⟨hquiet.unchanged, by simpa using ⟨hquiet.code, .routine⟩⟩ hlaid
  | ifThen span cond arm ih =>
    obtain ⟨test, body, htest, hbody, rfl⟩ := lower_ifThen_eq_ok h
    have hcond := testCondition_quiet htest hW
    rw [hcond.unchanged] at hbody
    have harm := Balanced.inScope hbody fun hrun => ih hrun hW (hlaid.openScope _) hreturn
    exact ⟨harm.frame, harm.pool, .ifThen (hcond.code.inFrame hlaid) harm.code⟩
  | ifElse span cond thenArm elseArm ihThen ihElse =>
    obtain ⟨test, thenOut, elseOut, htest, hthen, helse, rfl⟩ := lower_ifElse_eq_ok h
    have hcond := testCondition_quiet htest hW
    rw [hcond.unchanged] at hthen
    have harm := Balanced.inScope hthen fun hrun => ihThen hrun hW (hlaid.openScope _) hreturn
    -- Between the arms only the label numbers have moved on.
    rw [harm.resources_eq] at helse
    have harm' := Balanced.inScope helse fun hrun => ihElse hrun hW (hlaid.openScope _) hreturn
    refine ⟨harm'.frame, harm'.pool, ?_⟩
    simpa [hcond.unchanged] using
      Structured.ifElse (hcond.code.inFrame hlaid) harm.code harm'.code
  | whileDo span cond body ih =>
    obtain ⟨round, test, hround, htest, rfl⟩ := lower_whileDo_eq_ok h
    have hbody := Balanced.inScope hround fun hrun => ih hrun hW (hlaid.openScope _) hreturn
    rw [hbody.resources_eq] at htest
    have hcond := testCondition_quiet htest hW
    refine ⟨?_, ?_, ?_⟩
    · simpa [hcond.unchanged] using .none _
    · simp [hcond.unchanged]
    · simpa [hcond.unchanged] using Structured.loop hbody.code (hcond.code.inFrame hlaid)
  | doWhile span body cond ih =>
    obtain ⟨round, test, hround, htest, rfl⟩ := lower_doWhile_eq_ok h
    have hbody := Balanced.inScope hround fun hrun => ih hrun hW (hlaid.openScope _) hreturn
    rw [hbody.resources_eq] at htest
    have hcond := testCondition_quiet htest hW
    refine ⟨?_, ?_, ?_⟩
    · simpa [hcond.unchanged] using .none _
    · simp [hcond.unchanged]
    · simpa [hcond.unchanged] using Structured.untilLoop hbody.code (hcond.code.inFrame hlaid)
  | forLoop span init cond step body ihInit ihStep ihBody =>
    rw [lower_forLoop] at h
    -- The last clause declares in the scope of the first one, should it declare anything.
    have hinner : ∀ {inner : Lowered Unit}, (lowerFor table init cond step body).run
        { resources with frame := resources.frame.openScope init.slots } = .ok inner →
        Balanced W table.Knows { resources with frame := resources.frame.openScope init.slots }
          (init.slots + step.slots) inner := by
      intro inner hrun
      obtain ⟨first, round, last, test, hfirst, hround, hlast, htest, rfl⟩ := lowerFor_eq_ok hrun
      have hinit := ihInit hfirst hW (hlaid.openScope _) hreturn
      have hlaid' := hinit.laid (hlaid.openScope _)
      have hpool := hinit.pool
      have hbody := Balanced.inScope hround fun hrun =>
        ihBody hrun (hpool ▸ hW) (hlaid'.openScope _) (hpool ▸ hreturn)
      rw [hbody.resources_eq] at hlast
      have hstep := ihStep hlast (hpool ▸ hW) hlaid' (hpool ▸ hreturn)
      have hcond := testCondition_quiet htest (hstep.pool ▸ hpool ▸ hW)
      have hdepth := hinit.depth_eq
      have hdepth' := hstep.depth_eq
      refine ⟨?_, ?_, ?_⟩
      · simpa [hcond.unchanged] using hinit.frame.trans hstep.frame
      · simp [hcond.unchanged, hstep.pool, hpool]
      · have htested := hcond.code.inFrame (hstep.laid hlaid')
        have hloop := Structured.loop (hbody.code.append hstep.code) (hdepth' ▸ htested)
        simpa [hcond.unchanged, hdepth] using hinit.code.append (hdepth ▸ hloop)
    exact Balanced.inScope h hinner
  | block span body ih =>
    exact Balanced.inScope h fun hrun => ih hrun hW (hlaid.openScope _) hreturn
  | seq span first second ihFirst ihSecond =>
    obtain ⟨a, b, ha, hb, rfl⟩ := lower_seq_eq_ok h
    have hfirst := ihFirst ha hW hlaid hreturn
    have hsecond := ihSecond hb (hfirst.pool ▸ hW) (hfirst.laid hlaid) (hfirst.pool ▸ hreturn)
    refine ⟨hfirst.frame.trans hsecond.frame, hsecond.pool.trans hfirst.pool, ?_⟩
    have hcode := hsecond.code
    rw [hfirst.depth_eq] at hcode
    exact .append hfirst.code hcode

end ArmCompiler
