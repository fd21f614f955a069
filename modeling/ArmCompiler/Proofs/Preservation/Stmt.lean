import ArmCompiler.Proofs.Preservation.Control

/-!
# Preservation for Statements

The code of a checked statement over scalars carries out the statement's run. The proof is an
induction on statements that applies, for each form, the rule for the shape of its code.

## Contents
- §1: the stack that a statement needs
- §2: single steps
- §3: statements
-/

namespace ArmCompiler

open Instruction Literal Lower

/-! ## §1 The stack that a statement needs -/

namespace Stmt

/-- How many bytes below the current frame the inner scopes of a statement take up. -/
def reach : Stmt → Nat
  | .ifThen _ _ body | .whileDo _ _ body | .doWhile _ body _ | .block _ body =>
    slotBytes * body.slots + body.reach
  | .ifElse _ _ thenArm elseArm =>
    max (slotBytes * thenArm.slots + thenArm.reach) (slotBytes * elseArm.slots + elseArm.reach)
  | .forLoop _ init _ step body =>
    slotBytes * init.slots +
      max (max init.reach step.reach) (slotBytes * body.slots + body.reach)
  | .seq _ first second => max first.reach second.reach
  | _ => 0

/-- The variables of a scalar statement have valid types. -/
theorem isValid_of_isScalar {s : Stmt} (h : s.isScalar) : ∀ ty ∈ s.variableTypes, ty.isValid := by
  induction s with
  | declare span ty name rhs =>
    cases rhs <;> simp only [isScalar, Bool.and_eq_true, Bool.false_eq_true] at h
    intro ty' hty'
    obtain rfl : ty' = ty := by simpa [variableTypes] using hty'
    rcases Ty.eq_of_isScalar h.1 with rfl | rfl | rfl <;> rfl
  | ifThen span cond body ih | whileDo span cond body ih | doWhile span body cond ih =>
    simp only [isScalar, Bool.and_eq_true] at h
    exact ih h.2
  | block span body ih => exact ih h
  | ifElse span cond thenArm elseArm ihThen ihElse =>
    simp only [isScalar, Bool.and_eq_true] at h
    simp only [variableTypes, List.mem_append]
    rintro ty (hty | hty)
    · exact ihThen h.1.2 ty hty
    · exact ihElse h.2 ty hty
  | forLoop span init cond step body ihInit ihStep ihBody =>
    simp only [isScalar, Bool.and_eq_true] at h
    simp only [variableTypes, List.mem_append]
    rintro ty ((hty | hty) | hty)
    · exact ihInit h.1.1.1 ty hty
    · exact ihStep h.1.2 ty hty
    · exact ihBody h.2 ty hty
  | seq span first second ihFirst ihSecond =>
    simp only [isScalar, Bool.and_eq_true] at h
    simp only [variableTypes, List.mem_append]
    rintro ty (hty | hty)
    · exact ihFirst h.1 ty hty
    · exact ihSecond h.2 ty hty
  | skip | assign | increment | read | free | ret | exit | print | println => simp [variableTypes]

/-- Resources with which what a table describes can be lowered. -/
structure Setting (table : SymbolTable) (resources : Resources) : Prop where
  frame : Matches table resources.frame
  laid : resources.frame.Laid
  unused : resources.pool.returnHeld = false

namespace Setting

variable {table : SymbolTable} {resources : Resources}

theorem openScope (h : Setting table resources) (slots : Nat) :
    Setting table.openScope { resources with frame := resources.frame.openScope slots } :=
  ⟨h.frame.openScope slots, h.laid.openScope slots, h.unused⟩

theorem withLabel (h : Setting table resources) (n : Nat) :
    Setting table { resources with nextLabel := n } :=
  ⟨h.frame, h.laid, h.unused⟩

end Setting

/-- A scalar statement without diagnostics, for which enough of the address space is left. -/
structure Ready (table : SymbolTable) (resources : Resources) (s : Stmt) : Prop extends
    Setting table resources where
  scalar : s.isScalar
  clean : (s.check table).diagnostics = []
  room : resources.frame.depth + s.reach + 4 ≤ 2 ^ 32

/-- The code of a statement carries out its run. -/
def Preserved (site : Site) (known : SymbolTable) (rounds : Nat) (s : Stmt) : Prop :=
  ∀ ⦃table : SymbolTable⦄ ⦃resources : Resources⦄ ⦃out : Lowered Unit⦄,
    (s.lower known).run resources = .ok out → s.Ready table resources →
    Executes site resources.frame out.code out.resources.frame (s.exec rounds)

/-! ## §2 Single steps -/

section Single

variable {site : Site} {known : SymbolTable} {rounds : Nat} {span : Span} {e : Expr}

theorem preserved_declare {ty : Ty} {name : String} :
    (Stmt.declare span ty name (.expr e)).Preserved site known rounds := by
  intro table resources out h hready σ m rest hrep _ hrest
  obtain ⟨value, offset, frame, hvalue, hdeclare, rfl⟩ := lower_declare_eq_ok h
  have hscalar := hready.scalar
  have hclean := hready.clean
  simp only [isScalar, Bool.and_eq_true] at hscalar
  simp only [check, Rhs.check, Report.diagnostics_bind, List.append_eq_nil_iff] at hclean
  have hty := expect_scalar hscalar.1
    (hrep.isScalar_check hready.frame hscalar.2 hclean.1) hclean.2.1
  -- The value's code leaves the frame alone, so the variable is declared in the frame of the start.
  rw [(e.lower_fetches hvalue (.any _)).holds] at hdeclare
  rw [Site.plain_append, List.append_assoc]
  refine Expr.lower_ends hvalue hscalar.2 hclean.1 hready.frame hrep
    ((Result.meets_bind.1 hrest).imp fun n hn m' hm' => ?_)
  obtain ⟨hadmits, hrep', hreg⟩ := hm'
  rw [← hty] at hadmits
  refine .next rfl (hn _ ?_)
  rw [hreg]
  exact hrep'.declare hdeclare hscalar.1 hadmits

/-- Assigning to a variable evaluates the expression and stores its value. -/
theorem lower_assign_ident_eq_ok {name : String} {resources : Resources} {out : Lowered Unit}
    (h : ((Stmt.assign span (.ident name) (.expr e)).lower known).run resources = .ok out) :
    ∃ value offset ty, e.lower.run resources = .ok value ∧
      resources.frame.find name = .ok (offset, ty) ∧ out.resources.frame = resources.frame ∧
      out.code = value.code ++ [.instr (.str ty.width value.value (.offset .sp offset))] := by
  obtain ⟨ty, value, place, released, htype, hvalue, hplace, hreleased, rfl⟩ := lower_assign_eq_ok h
  have hframe : value.resources.frame = resources.frame := by
    rw [(e.lower_fetches hvalue (.any _)).holds, Resources.frame_hold]
  simp only [Target.place, run_bind_eq_ok, run_lookup, hframe, run_ofExcept_eq_ok, run_pure,
    Except.ok.injEq] at hplace
  obtain ⟨_, _, ⟨⟨offset, ty'⟩, hfind, rfl⟩, rfl, rfl⟩ := hplace
  obtain rfl : ty' = ty := by simpa [Target.typeIn, hfind, bind, Except.bind] using htype
  simp only [Place.release, run_pure, Except.ok.injEq] at hreleased
  subst hreleased
  exact ⟨value, offset, ty', hvalue, hfind, hframe, rfl⟩

theorem preserved_assign {name : String} :
    (Stmt.assign span (.ident name) (.expr e)).Preserved site known rounds := by
  intro table resources out h hready σ m rest hrep _ hrest
  obtain ⟨value, offset, ty, hvalue, hfind, hframe, hcode⟩ :=
    lower_assign_ident_eq_ok h
  have hscalar : e.isScalar := hready.scalar
  have hclean := hready.clean
  simp only [check, Rhs.check, Target.check, Report.diagnostics_bind,
    List.append_eq_nil_iff] at hclean
  -- The variable that lowering finds is the one that was checked.
  obtain ⟨offset', hfind'⟩ := hready.frame.find (useVariable_clean hclean.1)
  obtain ⟨rfl, rfl⟩ : offset = offset' ∧ ty = (table.useVariable name span).value := by
    simpa using hfind.symm.trans hfind'
  obtain ⟨_, _, _, htyScalar, _⟩ := hrep.read hfind
  have hty := expect_scalar htyScalar
    (hrep.isScalar_check hready.frame hscalar hclean.2.1) hclean.2.2.1
  rw [hframe] at hrest
  rw [hcode, Site.plain_append, List.append_assoc]
  refine Expr.lower_ends hvalue hscalar hclean.2.1 hready.frame hrep
    ((Result.meets_bind.1 hrest).imp fun n hn m' hm' => ?_)
  obtain ⟨hadmits, hrep', hreg⟩ := hm'
  rw [← hty] at hadmits
  obtain ⟨σ', hassign, hrep''⟩ := hrep'.assign hfind hadmits
  rw [hassign] at hn
  refine .next rfl (hn _ ?_)
  rw [hreg]
  exact hrep''

theorem preserved_increment {name : String} :
    (Stmt.increment span name).Preserved site known rounds := by
  intro table resources out h hready σ m rest hrep _ hrest
  obtain ⟨offset, ty, r, hr, hfind, rfl⟩ := lower_increment_eq_ok h
  obtain ⟨v, hv, _, htyScalar, hadmits, hload⟩ := hrep.read hfind
  have htypeOf : table.typeOf? name = some ty := by
    obtain ⟨l, hl, _, rfl⟩ := Frame.find_eq_ok.1 hfind
    rw [hready.frame.types, hl]
    rfl
  have hclean := hready.clean
  simp only [check, htypeOf, Report.diagnostics_bind, List.append_eq_nil_iff] at hclean
  -- Only an integer may be incremented, so its slot is read and written as a word.
  obtain rfl : Ty.int = ty := expect_scalar rfl htyScalar hclean.1
  have hread : σ.read name = .done v.value := by simp only [Store.read, hv]
  simp only [exec, hread, Result.done_bind] at hrest
  have hpc := ne_pc_of_mem_free hr
  have hsp : ¬(Register.sp = r) := fun heq => ne_sp_of_mem_free hr heq.symm
  have hword : m.load .word (m.regs .sp + BitVec.ofInt 32 offset) = BitVec.ofInt 32 v.value := hload
  refine .ldr hpc ?_
  rw [hword]
  let loaded := m.set r (BitVec.ofInt 32 v.value)
  have hkeeps : m.Keeps (fun s => s = r) loaded := .set (W := (· = r)) rfl _
  have hrep' := hrep.keeps hkeeps hsp
  have hexact : ArithOp.add.result? (loaded.regs r).toInt ((Operand.imm 1).value loaded).toInt =
      some (v.value + 1) := by
    rw [Machine.regs_set_self, toInt_ofInt_of_fits hadmits.1]
    rfl
  refine .checkedOp hpc hexact
    (((checked_isValue _).and (Result.meets_bind.1 hrest)).imp fun n hn m' hm' => ?_)
  -- The sum is an integer again only because it was checked to fit.
  obtain ⟨σ', hassign, hrep''⟩ := (hrep'.keeps hm'.keeps hsp).assign hfind hn.1
  have hends := hn.2
  rw [hassign] at hends
  refine .next rfl (hends _ ?_)
  rw [hm'.value]
  exact hrep''

theorem preserved_ret : (Stmt.ret span e).Preserved site known rounds := by
  intro table resources out h hready σ m rest hrep _ hrest
  obtain ⟨value, hvalue, rfl⟩ := lower_ret_eq_ok h
  have hscalar : e.isScalar := hready.scalar
  have hclean := hready.clean
  simp only [check, Report.diagnostics_bind, List.append_eq_nil_iff] at hclean
  have hdepth : value.resources.frame.depth.toNat = resources.frame.depth := by
    rw [(e.lower_fetches hvalue (.any _)).holds, Resources.frame_hold]
    exact Int.toNat_of_nonneg hready.laid.depth_nonneg
  simp only [Site.plain_append, Site.plain_instr, Site.plain_unreserve, Site.plain_nil,
    List.append_assoc, List.cons_append, List.nil_append]
  refine Expr.lower_ends hvalue hscalar hclean.1 hready.frame hrep
    ((Result.meets_bind.1 hrest).imp fun n hn m' hm' => ?_)
  obtain ⟨_, hrep', hreg⟩ := hm'
  -- The value moves to `r0`, the whole frame is given back, and the saved link register is on top.
  refine .mov (by decide) (.unreserve (.popLink ?_ hrep'.saved ?_ hn))
  · rw [hdepth, Machine.regs_set_self, Machine.regs_set_of_ne _ _ _ _ (by decide), hrep'.stack,
      below_add, sub_self, below_zero]
  · rw [Machine.regs_set_of_ne _ _ _ _ (by decide), Machine.regs_set_self]
    exact hreg

theorem preserved_exit : (Stmt.exit span e).Preserved site known rounds := by
  intro table resources out h hready σ m rest hrep _ hrest
  obtain ⟨value, hvalue, rfl⟩ := lower_exit_eq_ok h
  have hscalar : e.isScalar := hready.scalar
  have hclean := hready.clean
  simp only [check, Report.diagnostics_bind, List.append_eq_nil_iff] at hclean
  simp only [Site.plain_append, Site.plain_instr, Site.plain_nil, List.append_assoc,
    List.cons_append, List.nil_append]
  refine Expr.lower_ends hvalue hscalar hclean.1 hready.frame hrep
    ((Result.meets_bind.1 hrest).imp fun n hn m' hm' => ?_)
  refine .mov (by decide) (.call rfl (hn _ ⟨rfl, ?_⟩))
  rw [Machine.regs_set_self]
  exact hm'.2.2

end Single

/-! ## §3 Statements -/

section Statements

variable {site : Site} {known table : SymbolTable} {resources : Resources} {out : Lowered Unit}
  {rounds : Nat}

/-- A statement whose code carries out its run does so in a scope of its own, and leaves nothing
behind but used label numbers. -/
theorem Preserved.inScope {s : Stmt} (hs : s.Preserved site known rounds)
    (h : (Lower.inScope s.slots (s.lower known)).run resources = .ok out)
    (hset : Setting table resources) (hscalar : s.isScalar)
    (hclean : (s.check table.openScope).diagnostics = [])
    (hroom : resources.frame.depth + (slotBytes * s.slots + s.reach : Nat) + 4 ≤ 2 ^ 32) :
    out.resources = { resources with nextLabel := out.resources.nextLabel } ∧
      Executes site resources.frame out.code resources.frame (Store.inScope (s.exec rounds)) := by
  have hdepth : (resources.frame.openScope s.slots).depth =
      resources.frame.depth + (slotBytes * s.slots : Nat) := rfl
  have hopen := hset.openScope s.slots
  have hbalanced {inner : Lowered Unit} (hinner : (s.lower known).run
      { resources with frame := resources.frame.openScope s.slots } = .ok inner) :=
    s.lower_balanced hinner (.any _) hopen.laid hopen.unused
  refine ⟨(Balanced.inScope h hbalanced).resources_eq, ?_⟩
  have hready : s.Ready table.openScope
      { resources with frame := resources.frame.openScope s.slots } :=
    ⟨hopen, hscalar, hclean, by simp only [hdepth]; omega⟩
  exact .inScope h (by omega) fun hinner => ⟨⟨_, (hbalanced hinner).frame⟩, hs hinner hready⟩

/-- What follows a statement in its scope can be lowered with what the statement leaves. -/
theorem Ready.after {s : Stmt} (hready : s.Ready table resources)
    (h : (s.lower known).run resources = .ok out) :
    Setting (s.check table).value.2 out.resources ∧
      out.resources.frame.depth = resources.frame.depth := by
  have hbalanced := s.lower_balanced h (.any _) hready.laid hready.unused
  have hmatch := s.lower_matches h hready.clean (isValid_of_isScalar hready.scalar) hready.frame
    hready.laid hready.unused
  exact ⟨⟨hmatch, hbalanced.laid hready.laid, hbalanced.pool ▸ hready.unused⟩, hbalanced.depth_eq⟩

/-- The code of every statement carries out its run. -/
theorem lower_preserved (s : Stmt) : s.Preserved site known rounds := by
  -- Each compound case takes check and lowering apart and applies the rule for its code. Tests and
  -- scopes leave all resources but the label numbers alone, so one setting serves all parts.
  induction s with
  | skip span =>
    intro table resources out h _
    simp only [lower, run_pure, Except.ok.injEq] at h
    subst h
    exact .nil
  | declare span ty name rhs =>
    intro table resources out h hready
    cases rhs with
    | expr e => exact preserved_declare h hready
    | array | newPair | side | call => exact absurd hready.scalar (by simp [isScalar])
  | assign span target rhs =>
    intro table resources out h hready
    cases target with
    | ident name =>
      cases rhs with
      | expr e => exact preserved_assign h hready
      | array | newPair | side | call => exact absurd hready.scalar (by simp [isScalar])
    | elem | side => exact absurd hready.scalar (by simp [isScalar])
  | increment span name => exact preserved_increment
  | ret span e => exact preserved_ret
  | exit span e => exact preserved_exit
  | read | free | print | println =>
    intro table resources out h hready
    exact absurd hready.scalar (by simp [isScalar])
  | ifThen span cond arm ih =>
    rintro table resources out h ⟨hset, hscalar, hclean, hroom⟩
    simp only [isScalar, Bool.and_eq_true] at hscalar
    simp only [check, Report.diagnostics_bind, List.append_eq_nil_iff,
      SymbolTable.diagnostics_scoped] at hclean
    obtain ⟨test, body, htest, hbody, rfl⟩ := lower_ifThen_eq_ok h
    rw [(testCondition_quiet htest (.any _)).unchanged] at hbody
    obtain ⟨hafter, harm⟩ := ih.inScope hbody (hset.withLabel _) hscalar.2 hclean.2 hroom
    have hcond : Tests site resources.frame test.code cond 0 :=
      testCondition_tests htest rfl hscalar.1 hclean.1 hset.frame (.inl rfl)
    rw [hafter]
    exact .ifThen hcond harm _
  | ifElse span cond thenArm elseArm ihThen ihElse =>
    rintro table resources out h ⟨hset, hscalar, hclean, hroom⟩
    simp only [isScalar, Bool.and_eq_true] at hscalar
    simp only [check, Report.diagnostics_bind, List.append_eq_nil_iff,
      SymbolTable.diagnostics_scoped, value_scoped_check] at hclean
    simp only [reach] at hroom
    obtain ⟨test, thenOut, elseOut, htest, hthen, helse, rfl⟩ := lower_ifElse_eq_ok h
    rw [(testCondition_quiet htest (.any _)).unchanged] at hthen
    obtain ⟨hmid, harm⟩ := ihThen.inScope hthen (hset.withLabel _) hscalar.1.2 hclean.2.1
      (by simp only; omega)
    rw [hmid] at helse
    obtain ⟨hafter, harm'⟩ := ihElse.inScope helse (hset.withLabel _) hscalar.2 hclean.2.2.1
      (by simp only; omega)
    have hcond : Tests site resources.frame test.code cond 0 :=
      testCondition_tests htest rfl hscalar.1.1 hclean.1 hset.frame (.inl rfl)
    rw [hafter]
    exact .ifElse hcond harm harm' _ _
  | whileDo span cond body ih =>
    rintro table resources out h ⟨hset, hscalar, hclean, hroom⟩
    simp only [isScalar, Bool.and_eq_true] at hscalar
    simp only [check, Report.diagnostics_bind, List.append_eq_nil_iff,
      SymbolTable.diagnostics_scoped] at hclean
    obtain ⟨round, test, hround, htest, rfl⟩ := lower_whileDo_eq_ok h
    obtain ⟨hafter, hbody⟩ := ih.inScope hround (hset.withLabel _) hscalar.2 hclean.2 hroom
    rw [hafter] at htest
    have hcond : Tests site resources.frame test.code cond 1 :=
      testCondition_tests htest rfl hscalar.1 hclean.1 hset.frame (.inr rfl)
    simp only [(testCondition_quiet htest (.any _)).unchanged]
    exact .loop hcond hbody _ _ rounds
  | doWhile span body cond ih =>
    rintro table resources out h ⟨hset, hscalar, hclean, hroom⟩
    simp only [isScalar, Bool.and_eq_true] at hscalar
    simp only [check, Report.diagnostics_bind, List.append_eq_nil_iff,
      SymbolTable.diagnostics_scoped, value_scoped_check] at hclean
    obtain ⟨round, test, hround, htest, rfl⟩ := lower_doWhile_eq_ok h
    obtain ⟨hafter, hbody⟩ := ih.inScope hround (hset.withLabel _) hscalar.2 hclean.1 hroom
    rw [hafter] at htest
    have hcond : Tests site resources.frame test.code cond 1 :=
      testCondition_tests htest rfl hscalar.1 hclean.2.1 hset.frame (.inr rfl)
    simp only [(testCondition_quiet htest (.any _)).unchanged]
    exact .untilLoop hcond hbody _ rounds
  | forLoop span init cond step body ihInit ihStep ihBody =>
    rintro table resources out h ⟨hset, hscalar, hclean, hroom⟩
    simp only [isScalar, Bool.and_eq_true] at hscalar
    obtain ⟨⟨⟨hinitScalar, hcondScalar⟩, hstepScalar⟩, hbodyScalar⟩ := hscalar
    rw [check_forLoop, SymbolTable.diagnostics_scoped] at hclean
    obtain ⟨hinitClean, hcondClean, hslots, hstepClean, hbodyClean⟩ := checkFor_clean hclean
    simp only [reach] at hroom
    have hframe := (lower_balanced _ h (.any _) hset.laid hset.unused).frame.eq_of_zero
    rw [hframe]
    refine .inScope h (by omega) fun {inner} hinner => ?_
    obtain ⟨first, round, last, test, hfirst, hround, hlast, htest, rfl⟩ := lowerFor_eq_ok hinner
    have hopen := hset.openScope init.slots
    have hdepth : (resources.frame.openScope init.slots).depth =
        resources.frame.depth + (slotBytes * init.slots : Nat) := rfl
    have hready : init.Ready table.openScope
        { resources with frame := resources.frame.openScope init.slots } :=
      ⟨hopen, hinitScalar, hinitClean, by simp only [hdepth]; omega⟩
    obtain ⟨hmid, hdepth'⟩ := hready.after hfirst
    simp only [hdepth] at hdepth'
    -- The rounds and the last clause leave the frame as the first clause made it.
    obtain ⟨hafter, hbody⟩ := ihBody.inScope hround (hmid.withLabel _) hbodyScalar hbodyClean
      (by simp only [hdepth']; omega)
    rw [hafter] at hlast
    have hstep := ihStep hlast
      ⟨hmid.withLabel _, hstepScalar, hstepClean, by simp only [hdepth']; omega⟩
    -- The last clause may declare nothing, so it leaves the frame of the test as it was.
    have hquiet := step.lower_balanced hlast (.any _) hmid.laid hmid.unused
    rw [hslots] at hquiet
    rw [hquiet.resources_eq] at htest hstep
    have hcond : Tests site first.resources.frame test.code cond 1 :=
      testCondition_tests htest rfl hcondScalar hcondClean hmid.frame (.inr rfl)
    simp only [(testCondition_quiet htest (.any _)).unchanged]
    have hdeclared := (init.lower_balanced hfirst (.any _) hopen.laid hopen.unused).frame
    exact ⟨⟨_, hdeclared⟩, .append (ihInit hfirst hready) (.loop hcond (.append hbody hstep) _ _ rounds)⟩
  | block span body ih =>
    rintro table resources out h ⟨hset, hscalar, hclean, hroom⟩
    simp only [check, SymbolTable.diagnostics_scoped] at hclean
    obtain ⟨hafter, hbody⟩ := ih.inScope h hset hscalar hclean hroom
    rw [hafter]
    exact hbody
  | seq span first second ihFirst ihSecond =>
    rintro table resources out h ⟨hset, hscalar, hclean, hroom⟩
    simp only [isScalar, Bool.and_eq_true] at hscalar
    simp only [reach] at hroom
    obtain ⟨hfirst, hsecond, _⟩ := check_seq_clean hclean
    obtain ⟨a, b, ha, hb, rfl⟩ := lower_seq_eq_ok h
    have hready : first.Ready table resources := ⟨hset, hscalar.1, hfirst, by omega⟩
    obtain ⟨hmid, hdepth⟩ := hready.after ha
    exact .append (ihFirst ha hready) (ihSecond hb ⟨hmid, hscalar.2, hsecond, by omega⟩)

end Statements

end Stmt

end ArmCompiler
