import ArmCompiler.Proofs.Outcomes
import ArmCompiler.Proofs.Preservation.Execution
import ArmCompiler.Proofs.Preservation.Values

/-!
# Preservation for Expressions

The code of a checked expression over scalars brings its value into the register that lowering
gives it, or calls the overflow routine if the evaluation overflows. Registers that were in use and
the memory are left alone.

## Contents
- §1: operators
- §2: steps that evaluate
- §3: expressions
-/

namespace ArmCompiler

open Instruction Literal Lower

variable {site : Site} {rest : List Instruction} {m : Machine}

/-! ## §1 Operators -/

/-- The program counter is never handed out. -/
theorem ne_pc_of_mem_free {pool : RegisterPool} {r : Register} (hr : r ∈ pool.free) :
    r ≠ .pc := by
  rintro rfl
  exact absurd (RegisterPool.general_of_mem_free hr) (by decide)

theorem Site.Goes.imp {α : Type} {good good' : α → Machine → Prop} {r : Result α}
    (h : site.Goes rest good r) (himp : ∀ a m, good' a m → good a m) :
    site.Goes rest good' r :=
  Result.Meets.imp h fun a ha m hgood => ha m (himp a m hgood)

namespace Lower

variable {resources : Resources} {out : Lowered Unit}

/-- The code of an operator applies it in place. -/
theorem unary_simulates {r : Register} {op : UnaryOp} {n : Int} (hop : op ≠ .len)
    (hr : r ≠ .pc) (hn : FitsWord n) (hbit : op = .not → IsBit n)
    (hvalue : m.regs r = BitVec.ofInt 32 n) (h : (unary r op).run resources = .ok out)
    (hrest : site.Goes rest (m.Delivers (· = r) r) (op.eval n)) :
    site.Ends (site.plain out.code ++ rest) m := by
  cases op with
  | not =>
    simp only [unary, run_emit, Except.ok.injEq] at h
    subst h
    refine .opValue hr ?_ hrest
    rw [hvalue]
    exact ofInt_xor_one (hbit rfl)
  | neg =>
    simp only [unary, run_bind_eq_ok, run_emit, run_callRoutineIf, Except.ok.injEq] at h
    obtain ⟨_, _, rfl, rfl, rfl⟩ := h
    have hexact : ArithOp.rsb.result? (m.regs r).toInt ((Operand.imm 0).value m).toInt =
        some (-n) := by
      rw [hvalue, toInt_ofInt_of_fits hn]
      simp [ArithOp.result?, Operand.value]
    exact .checkedOp hr hexact hrest
  | len => exact absurd rfl hop
  | ord | chr =>
    simp only [unary, run_pure, Except.ok.injEq] at h
    subst h
    exact hrest m ⟨.refl m, hvalue⟩

/-- The code of an operator applies it to two registers and leaves the result in the first. -/
theorem binary_simulates {l r : Register} {op : BinaryOp} {a b : Int} (hdiv : op ≠ .div)
    (hmod : op ≠ .mod) (hl : l ≠ .pc) (hr : r ≠ .pc) (hne : l ≠ r) (ha : FitsWord a)
    (hb : FitsWord b) (hbits : op = .and ∨ op = .or → IsBit a ∧ IsBit b)
    (hlhs : m.regs l = BitVec.ofInt 32 a) (hrhs : m.regs r = BitVec.ofInt 32 b)
    (h : (binary l r op).run resources = .ok out)
    (hrest : site.Goes rest (m.Delivers (fun s => s = l ∨ s = r) l) (op.eval a b)) :
    site.Ends (site.plain out.code ++ rest) m := by
  have hx : (m.regs l).toInt = a := by rw [hlhs, toInt_ofInt_of_fits ha]
  have hy : (m.regs r).toInt = b := by rw [hrhs, toInt_ofInt_of_fits hb]
  -- Only the product writes the second register too.
  have honly : ∀ n m', m.Delivers (· = l) l n m' → m.Delivers (fun s => s = l ∨ s = r) l n m' :=
    fun _ _ hm => ⟨hm.keeps.mono fun _ => .inl, hm.value⟩
  cases op with
  | add | sub =>
    simp only [binary, checkedArith, run_bind_eq_ok, run_emit, run_callRoutineIf,
      Except.ok.injEq] at h
    obtain ⟨_, _, rfl, rfl, rfl⟩ := h
    refine .checkedOp hl ?_ (hrest.imp honly)
    simp [ArithOp.result?, Operand.value, hx, hy]
  | mul =>
    simp only [binary, run_bind_eq_ok, run_emit, run_callRoutineIf, Except.ok.injEq] at h
    obtain ⟨_, _, rfl, ⟨_, _, rfl, rfl, rfl⟩, rfl⟩ := h
    refine .checkedMul hl hr hne.symm ?_
    rw [hx, hy]
    exact hrest
  | div => exact absurd rfl hdiv
  | mod => exact absurd rfl hmod
  | gt | ge | lt | le | eq | ne =>
    simp only [binary, Lower.compare, run_bind_eq_ok, run_emit, Except.ok.injEq] at h
    obtain ⟨_, _, rfl, ⟨_, _, rfl, rfl, rfl⟩, rfl⟩ := h
    rw [← hx, ← hy, BinaryOp.eval_of_condition rfl] at hrest
    exact .compare hl (hrest.imp honly)
  | and =>
    simp only [binary, run_emit, Except.ok.injEq] at h
    subst h
    obtain ⟨hbita, hbitb⟩ := hbits (.inl rfl)
    refine .opValue hl ?_ (hrest.imp honly)
    rw [Operand.value, hlhs, hrhs]
    exact ofInt_and hbita hbitb
  | or =>
    simp only [binary, run_emit, Except.ok.injEq] at h
    subst h
    obtain ⟨hbita, hbitb⟩ := hbits (.inr rfl)
    refine .opValue hl ?_ (hrest.imp honly)
    rw [Operand.value, hlhs, hrhs]
    exact ofInt_or hbita hbitb

end Lower

/-! ## §2 Steps that evaluate -/

/-- A step whose code, run where the frame represents the store, has a result: a value is brought
into the register that the step takes. -/
structure Evaluates (site : Site) (frame : Frame) (σ : Store) (step : Lower Register) (r : Result Int) : Prop where
  takes : ∀ resources, step.Ends resources resources.Took
  ends : ∀ {resources : Resources} {out : Lowered Register} {m : Machine}
    {rest : List Instruction}, resources.frame = frame → step.run resources = .ok out →
    Represents site.top site.link frame σ m →
    site.Goes rest (m.Delivers (· ∈ resources.pool.free) out.value) r →
    site.Ends (site.plain out.code ++ rest) m

namespace Evaluates

variable {frame : Frame} {σ : Store}

/-- Loading a value into a fresh register. -/
theorem intoFresh {instruction : Register → Instruction} {n : Int}
    (hexec : ∀ r m, r ≠ .pc → Represents site.top site.link frame σ m →
      (instruction r).exec m = .next (m.set r (BitVec.ofInt 32 n))) :
    Evaluates site frame σ (Lower.intoFresh fun r => .instr (instruction r))
      (.done n) where
  takes _ := intoFresh_takes
  ends := by
    rintro resources out m rest rfl h hrep hrest
    obtain ⟨r, hhead, rfl⟩ := run_intoFresh_eq_ok.1 h
    have hr : r ∈ resources.pool.free := List.mem_of_mem_head? hhead
    exact .next (hexec r m (ne_pc_of_mem_free hr) hrep) (hrest _ (Machine.delivers_set hr))

/-- Steps that do the same in a frame evaluate to the same there. -/
theorem congr {step step' : Lower Register} {r : Result Int}
    (htakes : ∀ resources, step.Ends resources resources.Took)
    (heq : ∀ resources : Resources, resources.frame = frame →
      step.run resources = step'.run resources)
    (h : Evaluates site frame σ step' r) :
    Evaluates site frame σ step r where
  takes := htakes
  ends hframe hrun := h.ends hframe (heq _ hframe ▸ hrun)

/-- A second value is computed while the first one waits in its register. -/
theorem andThen {a b : Lower Register} {ra rb : Result Int} {resources : Resources}
    {x y : Lowered Register} (ha : Evaluates site frame σ a ra)
    (hb : Evaluates site frame σ b rb) (hframe : resources.frame = frame)
    (hx : a.run resources = .ok x) (hy : b.run x.resources = .ok y)
    (hrep : Represents site.top site.link frame σ m)
    (hrest : ra.Meets (fun n => rb.Meets (fun k => ∀ m',
      m.Delivers (· ∈ resources.pool.free) x.value n m' →
      m.Delivers (· ∈ resources.pool.free) y.value k m' → site.Ends rest m') site.Stops)
      site.Stops) :
    site.Ends (site.plain x.code ++ (site.plain y.code ++ rest)) m := by
  obtain ⟨_, hholds⟩ := ha.takes resources x hx
  -- What is free while the second value is computed is what was free before, but for the first
  -- register.
  have hpool : ∀ r, r ∈ x.resources.pool.free ↔ r ∈ resources.pool.free ∧ r ≠ x.value := by
    rw [hholds]
    exact fun r => RegisterPool.mem_free_hold
  have hframe' : x.resources.frame = frame := by rw [hholds, ← hframe, Resources.frame_hold]
  refine ha.ends hframe hx hrep (hrest.imp fun n hn m₁ hm₁ => ?_)
  have hsp : ¬(.sp ∈ resources.pool.free) := fun hmem => ne_sp_of_mem_free hmem rfl
  refine hb.ends hframe' hy (hrep.keeps hm₁.keeps hsp) (hn.imp fun k hk m₂ hm₂ => ?_)
  have hkeeps : m.Keeps (· ∈ resources.pool.free) m₂ :=
    hm₁.keeps.trans (hm₂.keeps.mono fun r hr => ((hpool r).1 hr).1)
  -- The first register is in use, so the second value's code does not write it.
  have hwaits : m₂.regs x.value = m₁.regs x.value :=
    hm₂.keeps.regs _ fun hmem => ((hpool _).1 hmem).2 rfl
  exact hk m₂ ⟨hkeeps, hwaits.trans hm₁.value⟩ ⟨hkeeps, hm₂.value⟩

end Evaluates

/-- Results that can only overflow can be computed in either order. -/
theorem Result.bind_comm {α : Type} {ra rb : Result Int} {ta tb : Ty} (ha : ra.IsValue ta)
    (hb : rb.IsValue tb) (f : Int → Int → Result α) :
    (ra >>= fun a => rb >>= fun b => f a b) = (rb >>= fun b => ra >>= fun a => f a b) := by
  cases ra with
  | done a => cases rb <;> rfl
  | stopped how =>
    obtain rfl : how = .overflow := ha
    cases rb with
    | done b => rfl
    | stopped how' =>
      obtain rfl : how' = .overflow := hb
      rfl
    | stuck => exact hb.elim
  | stuck => exact ha.elim

/-! ## §3 Expressions -/

/-- The code of an expression has its value as a result. -/
theorem Expr.lower_evaluates {table : SymbolTable} {frame : Frame} {σ : Store}
    (hmatch : Matches table frame) (hfills : σ.Fills table) :
    (e : Expr) → e.isScalar → (e.check table).diagnostics = [] →
    Evaluates site frame σ e.lower (e.eval σ)
  | .int span text, _, hclean => by
    cases hvalue : Literal.intValue? text with
    | none => simp [Expr.check, hvalue, Report.note] at hclean
    | some n =>
      simp only [Expr.lower, Expr.eval, hvalue]
      exact .intoFresh fun r m hr _ => Machine.write_of_ne hr m _
  | .bool span value, _, _ => by
    simp only [Expr.lower, Expr.eval]
    exact .intoFresh fun r m hr _ => Machine.write_of_ne hr m _
  | .char span value, _, _ => by
    simp only [Expr.lower, Expr.eval]
    exact .intoFresh fun r m hr _ => Machine.write_of_ne hr m _
  | .ident span name, _, hclean => by
    have hty := useVariable_clean (by simpa only [Expr.check] using hclean)
    obtain ⟨v, hv, _⟩ := hfills name _ hty
    obtain ⟨offset, hfind⟩ := hmatch.find hty
    generalize (table.useVariable name span).value = ty at hfind
    -- Where the frame is known, so is the slot: the step is a load from a fixed place.
    have hload : Evaluates site frame σ
        (Lower.intoFresh fun r => .instr (.ldr none ty.width r (.offset .sp offset)))
        (.done v.value) := by
      refine .intoFresh fun r m hr hrep => ?_
      obtain ⟨v', hv', _, _, _, hload⟩ := hrep.read hfind
      obtain rfl : v' = v := Option.some.inj (hv'.symm.trans hv)
      exact (Machine.write_of_ne hr m _).trans (by rw [hload])
    have heval : (Expr.ident span name).eval σ = .done v.value := by
      simp only [Expr.eval, Store.read, hv]
    rw [heval]
    refine .congr (Expr.lower_takes _) (fun resources hframe => ?_) hload
    simp only [Expr.lower, run_bind, run_lookup, hframe, hfind, run_ofExcept_ok]
    cases (Lower.intoFresh _).run resources <;> rfl
  | .unary span op operand, hscalar, hclean => by
    simp only [Expr.isScalar, Bool.and_eq_true, decide_eq_true_eq] at hscalar
    simp only [Expr.check, Report.diagnostics_bind, List.append_eq_nil_iff] at hclean
    obtain ⟨hty, hvalue⟩ := operand.eval_isValue hfills hscalar.2 hclean.1
    have hoperand := operand.lower_evaluates hmatch hfills hscalar.2 hclean.1
    refine ⟨Expr.lower_takes _, ?_⟩
    intro resources out m rest hframe h hrep hrest
    simp only [Expr.lower, run_bind_eq_ok, run_pure, Except.ok.injEq] at h
    obtain ⟨first, _, hfirst, ⟨applied, _, happlied, rfl, rfl⟩, rfl⟩ := h
    obtain ⟨hfree, _⟩ := hoperand.takes resources first hfirst
    simp only [List.append_nil, Site.plain_append, List.append_assoc]
    refine hoperand.ends hframe hfirst hrep ?_
    -- The operand's value is of its type, and what follows is good for the operator's result on it.
    have hboth := hvalue.and (Result.meets_bind.1 hrest)
    refine hboth.imp fun n hn m' hm' => ?_
    obtain ⟨hadmits, hgoes⟩ := hn
    refine unary_simulates hscalar.1 (ne_pc_of_mem_free hfree) hadmits.1 ?_ hm'.value happlied
      (Site.Goes.imp hgoes fun k m'' hm'' => ?_)
    · rintro rfl
      exact UnaryOp.isBit_of_check hty hadmits hclean.2
    · exact ⟨hm'.keeps.trans (hm''.keeps.mono fun r hr => hr ▸ hfree), hm''.value⟩
  | .binary span op lhs rhs, hscalar, hclean => by
    simp only [Expr.isScalar, Bool.and_eq_true, decide_eq_true_eq] at hscalar
    obtain ⟨⟨⟨hdiv, hmod⟩, hl⟩, hr⟩ := hscalar
    simp only [Expr.check, Report.diagnostics_bind, List.append_eq_nil_iff] at hclean
    obtain ⟨hlty, hlvalue⟩ := lhs.eval_isValue hfills hl hclean.1
    obtain ⟨hrty, hrvalue⟩ := rhs.eval_isValue hfills hr hclean.2.1
    have hlhs := lhs.lower_evaluates hmatch hfills hl hclean.1
    have hrhs := rhs.lower_evaluates hmatch hfills hr hclean.2.1
    refine ⟨Expr.lower_takes _, ?_⟩
    intro resources out m rest hframe h hrep hrest
    simp only [Expr.lower_binary, run_bind_eq_ok, run_release, run_pure, Except.ok.injEq] at h
    obtain ⟨both, _, hboth, ⟨applied, _, happlied, ⟨_, _, rfl, rfl, rfl⟩, rfl⟩, rfl⟩ := h
    have hfetch := inOrder_takes lhs.lower_takes rhs.lower_takes both hboth
    -- What follows the operands, whichever of them came first.
    have hop : ∀ {a b : Int} {m' : Machine},
        (lhs.check table).value.Admits a → (rhs.check table).value.Admits b →
        m.Delivers (· ∈ resources.pool.free) both.value.1 a m' →
        m.Delivers (· ∈ resources.pool.free) both.value.2 b m' →
        site.Goes rest (m.Delivers (· ∈ resources.pool.free) both.value.1) (op.eval a b) →
        site.Ends (site.plain applied.code ++ rest) m' := by
      intro a b m' ha hb hma hmb hgoes
      refine binary_simulates hdiv hmod (ne_pc_of_mem_free hfetch.fst_free)
        (ne_pc_of_mem_free hfetch.snd_free) hfetch.ne ha.1 hb.1 (fun hconn => ?_) hma.value
        hmb.value happlied (Site.Goes.imp hgoes fun k m'' hm'' => ?_)
      · exact BinaryOp.isBit_of_check hconn hlty hrty ha hb hclean.2.2
      · refine ⟨hma.keeps.trans (hm''.keeps.mono ?_), hm''.value⟩
        rintro r (rfl | rfl)
        · exact hfetch.fst_free
        · exact hfetch.snd_free
    cases hleft : leftFirst lhs rhs with
    | true =>
      simp only [hleft, inOrder, if_true, run_bind_eq_ok, run_pure, Except.ok.injEq] at hboth
      obtain ⟨x, _, hx, ⟨y, _, hy, rfl, rfl⟩, rfl⟩ := hboth
      simp only [List.append_nil, Site.plain_append, List.append_assoc]
      refine hlhs.andThen hrhs hframe hx hy hrep ?_
      refine (hlvalue.and (Result.meets_bind.1 hrest)).imp fun a ha => ?_
      refine (hrvalue.and (Result.meets_bind.1 ha.2)).imp fun b hb m' hma hmb => ?_
      exact hop ha.1 hb.1 hma hmb hb.2
    | false =>
      simp only [hleft, inOrder, Bool.false_eq_true, if_false, run_bind_eq_ok, run_pure,
        Except.ok.injEq] at hboth
      obtain ⟨y, _, hy, ⟨x, _, hx, rfl, rfl⟩, rfl⟩ := hboth
      simp only [List.append_nil, Site.plain_append, List.append_assoc]
      -- The right side comes first. As both sides can only overflow, the order does not show.
      refine hrhs.andThen hlhs hframe hy hx hrep ?_
      simp only [Expr.eval, Result.bind_comm hlvalue hrvalue] at hrest
      refine (hrvalue.and (Result.meets_bind.1 hrest)).imp fun b hb => ?_
      refine (hlvalue.and (Result.meets_bind.1 hb.2)).imp fun a ha m' hmb hma => ?_
      exact hop ha.1 hb.1 hma hmb ha.2

/-- The code of an expression leaves a value of the expression's type in its register and the
store as it was. -/
theorem Expr.lower_ends {table : SymbolTable} {resources : Resources} {out : Lowered Register}
    {σ : Store} {e : Expr} (h : e.lower.run resources = .ok out) (hscalar : e.isScalar)
    (hclean : (e.check table).diagnostics = []) (hmatch : Matches table resources.frame)
    (hrep : Represents site.top site.link resources.frame σ m)
    (hrest : site.Goes rest (fun n m' => (e.check table).value.Admits n ∧
      Represents site.top site.link resources.frame σ m' ∧
      m'.regs out.value = BitVec.ofInt 32 n) (e.eval σ)) :
    site.Ends (site.plain out.code ++ rest) m := by
  have hfills := hrep.fills hmatch
  obtain ⟨_, hisValue⟩ := e.eval_isValue hfills hscalar hclean
  have hcode : Evaluates site resources.frame σ e.lower (e.eval σ) :=
    e.lower_evaluates hmatch hfills hscalar hclean
  refine hcode.ends rfl h hrep ((hisValue.and hrest).imp fun n hn m' hm' => ?_)
  have hsp : ¬(.sp ∈ resources.pool.free) := fun hmem => ne_sp_of_mem_free hmem rfl
  exact hn.2 m' ⟨hn.1, hrep.keeps hm'.keeps hsp, hm'.value⟩

end ArmCompiler
