import ArmCompiler.Proofs.Agreement
import ArmCompiler.Proofs.Outcomes
import Mathlib.Data.List.Nodup

/-!
# Lowering Resolved Code

The only thing that can happen to code without unresolved names is that registers run out, and the
weight of an expression is exactly the number of free registers with which it can be lowered. Both
are one fact about a step: it *needs* a number of registers, so that it succeeds if as many are
free, and otherwise fails with the error that says how many there are.

What a construct needs is decided by what it holds while its parts are computed. An array is held
while its elements are, the two sides of a pair while its block is allocated, a value while the
place it is stored to is found. Arguments of a call are pushed one by one and hold nothing.

For statements this is shown of those that were checked without a diagnostic, since the table and
the frame have to be kept matched along the way.

## Contents
- §1: demand
- §2: free registers
- §3: what a step needs
- §4: expressions
- §5: right sides and targets
- §6: statements
-/

namespace ArmCompiler

open Instruction Lower Report

/-! ## §1 Demand -/

/-- The number of registers that computing a right side needs. -/
def Rhs.demand : Rhs → Nat
  | .expr e => e.weight
  -- The array is held while its elements are computed, and while its length is stored.
  | .array elems => 1 + max 1 (maxWeight elems)
  -- Both sides are held while the block of the pair is allocated.
  | .newPair fst snd => max 3 (combinedWeight fst.weight snd.weight)
  | .side _ pair => pair.weight
  -- The result takes a register when all arguments have given theirs back.
  | .call _ args => max 1 (maxWeight args)

/-- The number of registers that finding the place of a target needs. -/
def Target.demand : Target → Nat
  | .ident _ => 0
  | .elem _ indices => 1 + maxWeight indices
  | .side _ pair => pair.weight

/-- The number of registers that a statement needs. -/
def Stmt.demand : Stmt → Nat
  | .skip _ => 0
  | .declare _ _ _ rhs => rhs.demand
  -- The value is held while its place is found.
  | .assign _ target rhs => max rhs.demand (1 + target.demand)
  | .increment _ _ => 1
  | .read _ target => max 1 target.demand
  | .free _ e | .ret _ e | .exit _ e | .print _ e | .println _ e => e.weight
  | .ifThen _ cond arm => max cond.weight arm.demand
  | .ifElse _ cond thenArm elseArm => max cond.weight (max thenArm.demand elseArm.demand)
  | .whileDo _ cond body | .doWhile _ body cond => max cond.weight body.demand
  | .forLoop _ init cond step body =>
    max (max init.demand cond.weight) (max step.demand body.demand)
  | .block _ body => body.demand
  | .seq _ first second => max first.demand second.demand

/-! ## §2 Free registers -/

namespace RegisterPool

theorem nodup_free (pool : RegisterPool) : pool.free.Nodup := by
  have hgeneral : Register.general.Nodup := by decide
  exact (hgeneral.sublist (List.take_sublist _ _)).filter _

/-- Taking a free register leaves one fewer. -/
theorem available_hold {pool : RegisterPool} {r : Register} (hr : r ∈ pool.free) :
    (pool.hold r).available + 1 = pool.available := by
  have hperm : (pool.hold r).free.Perm (pool.free.erase r) := by
    refine (List.perm_ext_iff_of_nodup (nodup_free _) (pool.nodup_free.erase r)).2 ?_
    intro s
    rw [mem_free_hold, pool.nodup_free.mem_erase_iff, and_comm]
  have hlength := hperm.length_eq
  have hpos := List.length_pos_of_mem hr
  rw [List.length_erase_of_mem hr] at hlength
  unfold available
  omega

/-- All registers of a new pool are free. -/
theorem available_ofCount (count : Nat) :
    (ofCount count).available = (ofCount count).capacity := by
  simp [available, free, registers, ofCount]

end RegisterPool

/-! ## §3 What a step needs -/

namespace Lower

variable {α β : Type} {start : Resources} {pool : RegisterPool}

/-- A step can be taken from given resources. -/
def Succeeds (step : Lower α) (start : Resources) : Prop :=
  ∃ out, step.run start = .ok out

theorem succeeds_of_ne_error {step : Lower α} (h : ∀ err, step.run start ≠ .error err) :
    step.Succeeds start := by
  cases hrun : step.run start with
  | ok out => exact ⟨out, hrun⟩
  | error err => exact absurd hrun (h err)

theorem Succeeds.bind {step : Lower α} {next : α → Lower β} (hstep : step.Succeeds start)
    (hnext : ∀ {out}, step.run start = .ok out → (next out.value).Succeeds out.resources) :
    (step >>= next).Succeeds start := by
  obtain ⟨first, hfirst⟩ := hstep
  obtain ⟨second, hsecond⟩ := hnext hfirst
  exact ⟨_, run_bind_eq_ok.2 ⟨first, second, hfirst, hsecond, rfl⟩⟩

/-- A step needs `n` free registers of a pool. It can be taken if as many are free. Otherwise it
fails, and the error says how many registers the pool has. -/
structure Needs (step : Lower α) (start : Resources) (pool : RegisterPool) (n : Nat) : Prop where
  enough : ∀ {out}, step.run start = .ok out → n ≤ pool.available
  lack : ∀ {err}, step.run start = .error err →
    pool.available < n ∧ err = .registersExhausted pool.capacity

/-- Whatever such a step fails with, it is the lack of registers. -/
theorem Needs.error {step : Lower α} {n : Nat} {err : CompileError}
    (h : step.Needs start pool n) (hrun : step.run start = .error err) :
    err = .registersExhausted pool.capacity :=
  (h.lack hrun).2

theorem Needs.of_eq {step : Lower α} {n m : Nat} (h : step.Needs start pool n) (heq : n = m) :
    step.Needs start pool m :=
  heq ▸ h

/-- A step that cannot fail needs no registers. -/
theorem Succeeds.needs {step : Lower α} (h : step.Succeeds start) : step.Needs start pool 0 := by
  obtain ⟨out, hrun⟩ := h
  exact ⟨fun _ => Nat.zero_le _, fun herr => by simp [hrun] at herr⟩

/-- Two steps need what the one that needs more does. What the second one needs is counted from
the start of the first. -/
theorem Needs.bind {step : Lower α} {next : α → Lower β} {a b : Nat}
    (hstep : step.Needs start pool a)
    (hnext : ∀ {out}, step.run start = .ok out → (next out.value).Needs out.resources pool b) :
    (step >>= next).Needs start pool (max a b) := by
  constructor
  · intro out hrun
    obtain ⟨first, second, hfirst, hsecond, _⟩ := run_bind_eq_ok.1 hrun
    exact Nat.max_le.2 ⟨hstep.enough hfirst, (hnext hfirst).enough hsecond⟩
  · intro err hrun
    rcases run_bind_eq_error.1 hrun with hfirst | ⟨first, hfirst, hsecond⟩
    · obtain ⟨hlt, herr⟩ := hstep.lack hfirst
      exact ⟨by omega, herr⟩
    · obtain ⟨hlt, herr⟩ := (hnext hfirst).lack hsecond
      exact ⟨by omega, herr⟩

/-- A step that cannot fail adds nothing to what the one before it needs. -/
theorem Needs.bind_total {step : Lower α} {next : α → Lower β} {a : Nat}
    (hstep : step.Needs start pool a)
    (hnext : ∀ {out}, step.run start = .ok out → (next out.value).Succeeds out.resources) :
    (step >>= next).Needs start pool a :=
  (hstep.bind fun hrun => (hnext hrun).needs).of_eq (Nat.max_zero a)

/-- Nor does it add to what the one after it needs. -/
theorem Succeeds.needs_bind {step : Lower α} {next : α → Lower β} {b : Nat}
    (hstep : step.Succeeds start)
    (hnext : ∀ {out}, step.run start = .ok out → (next out.value).Needs out.resources pool b) :
    (step >>= next).Needs start pool b :=
  (hstep.needs.bind hnext).of_eq (Nat.zero_max b)

/-- A step that succeeds leaves the need to what comes after it. -/
theorem needs_of_ok {step : Lower α} {next : α → Lower β} {b : Nat} {out : Lowered α}
    (hrun : step.run start = .ok out) (hnext : (next out.value).Needs out.resources pool b) :
    (step >>= next).Needs start pool b := by
  refine Succeeds.needs_bind ⟨out, hrun⟩ fun {other} hother => ?_
  obtain rfl : out = other := Except.ok.inj (hrun.symm.trans hother)
  exact hnext

/-- What is needed while a register is held is one more register when it is not. -/
theorem Needs.of_hold {step : Lower α} {r : Register} {n : Nat} (hr : r ∈ pool.free)
    (h : step.Needs start (pool.hold r) n) : step.Needs start pool (1 + n) := by
  have hleft := RegisterPool.available_hold hr
  constructor
  · intro out hrun
    have henough := h.enough hrun
    omega
  · intro err hrun
    obtain ⟨hlt, herr⟩ := h.lack hrun
    exact ⟨by omega, herr⟩

/-- The return register is none of those that are counted. -/
theorem Needs.of_holdReturn {step : Lower α} {n : Nat} (h : step.Needs start pool.holdReturn n) :
    step.Needs start pool n :=
  ⟨h.enough, h.lack⟩

/-- A step that brings a value into a register leaves one register fewer for the next. -/
theorem Needs.bind_fetch {step : Lower α} {next : α → Lower β} {f : α → Register} {a b : Nat}
    (hstep : step.Needs start start.pool a)
    (htakes : step.Ends start fun v after => start.Took (f v) after)
    (hnext : ∀ v, f v ∈ start.pool.free →
      (next v).Needs (start.hold (f v)) (start.pool.hold (f v)) b) :
    (step >>= next).Needs start start.pool (max a (1 + b)) := by
  refine hstep.bind fun {out} hrun => ?_
  obtain ⟨hfree, hholds⟩ := htakes out hrun
  rw [hholds]
  exact (hnext out.value hfree).of_hold hfree

/-- One free register is enough, and none is not. -/
theorem needs_acquire : acquire.Needs start start.pool 1 := by
  constructor
  · intro out hrun
    obtain ⟨r, hhead, _⟩ := run_acquire_eq_ok.1 hrun
    exact List.length_pos_of_mem (List.mem_of_mem_head? hhead)
  · intro err hrun
    obtain ⟨hempty, herr⟩ := run_acquire_eq_error.1 hrun
    exact ⟨by simp [RegisterPool.available, hempty], herr⟩

theorem needs_intoFresh {instruction : Register → Pseudo} :
    (intoFresh instruction).Needs start start.pool 1 :=
  needs_acquire.bind_total fun _ => ⟨_, rfl⟩

/-- Looking a bound variable up needs no register. -/
theorem needs_lookup_bind {name : String} {next : Int × Ty → Lower β} {b : Nat}
    (hname : start.frame.Binds name) (hnext : ∀ found, (next found).Needs start pool b) :
    (lookup name >>= next).Needs start pool b := by
  have hlookup : (lookup name).Succeeds start := by
    refine succeeds_of_ne_error fun err hrun => ?_
    rw [run_lookup, run_ofExcept_eq_error] at hrun
    obtain ⟨hnone, _⟩ := Frame.find_eq_error.1 hrun
    simp [Frame.Binds, hnone] at hname
  refine hlookup.needs_bind fun {out} hrun => ?_
  rw [run_lookup, run_ofExcept_eq_ok] at hrun
  obtain ⟨found, _, rfl⟩ := hrun
  exact hnext found

theorem needs_inScope {slots : Nat} {step : Lower Unit} {n : Nat}
    (h : step.Needs { start with frame := start.frame.openScope slots } pool n) :
    (inScope slots step).Needs start pool n := by
  constructor
  · intro out hrun
    obtain ⟨inner, hinner, _⟩ := run_inScope_eq_ok.1 hrun
    exact h.enough hinner
  · exact fun hrun => h.lack (run_inScope_eq_error.1 hrun)

/-! ## §4 Expressions -/

theorem unary_succeeds {r : Register} {op : UnaryOp} : (unary r op).Succeeds start := by
  refine succeeds_of_ne_error fun err => ?_
  cases op <;> simp [unary, run_bind_eq_error]

theorem binary_succeeds {l r : Register} {op : BinaryOp} : (binary l r op).Succeeds start := by
  refine succeeds_of_ne_error fun err => ?_
  cases op <;> simp [binary, checkedArith, divideWith, compare, run_bind_eq_error]

theorem index_succeeds {array i : Register} {element : Ty} :
    (index array i element).Succeeds start := by
  refine succeeds_of_ne_error fun err => ?_
  simp [index, run_bind_eq_error]

/-- An array is held while what follows is computed. -/
theorem needs_loadArray_bind {name : String} {next : Register × Ty → Lower β} {n : Nat}
    (hname : start.frame.Binds name)
    (hnext : ∀ array ty,
      (next (array, ty)).Needs (start.hold array) (start.pool.hold array) n) :
    (loadArray name >>= next).Needs start start.pool (1 + n) := by
  have hload : (loadArray name).Needs start start.pool 1 :=
    needs_lookup_bind hname fun _ => needs_acquire.bind_total fun _ => ⟨_, rfl⟩
  refine (hload.bind_fetch loadArray_takes fun found _ => hnext found.1 found.2).of_eq ?_
  omega

/-- Two values need what the heavier of them does, or one register more if both need the same.
The first step is the one with the larger weight. -/
theorem needs_inOrder {a b : Lower Register} {wa wb : Nat}
    (ha : ∀ mid : Resources, mid.frame = start.frame → a.Needs mid mid.pool wa)
    (hb : ∀ mid : Resources, mid.frame = start.frame → b.Needs mid mid.pool wb)
    (htakesA : a.Ends start start.Took) (htakesB : b.Ends start start.Took) :
    (inOrder (decide (wb ≤ wa)) a b).Needs start start.pool (combinedWeight wa wb) := by
  by_cases hle : wb ≤ wa
  · have hboth : (inOrder (decide (wb ≤ wa)) a b).Needs start start.pool (max wa (1 + wb)) := by
      simp only [hle, decide_true, inOrder, if_true]
      exact (ha start rfl).bind_fetch htakesA fun r _ =>
        (hb (start.hold r) rfl).bind_total fun _ => ⟨_, rfl⟩
    refine hboth.of_eq ?_
    rw [combinedWeight]
    split <;> omega
  · have hboth : (inOrder (decide (wb ≤ wa)) a b).Needs start start.pool (max wb (1 + wa)) := by
      simp only [hle, decide_false, inOrder, Bool.false_eq_true, if_false]
      exact (hb start rfl).bind_fetch htakesB fun r _ =>
        (ha (start.hold r) rfl).bind_total fun _ => ⟨_, rfl⟩
    refine hboth.of_eq ?_
    rw [combinedWeight]
    split <;> omega

end Lower

mutual

/-- A resolved expression needs as many registers as it weighs. -/
theorem Expr.lower_needs : (e : Expr) → {start : Resources} →
    e.Resolved start.frame.Binds → e.lower.Needs start start.pool e.weight
  | .int _ text, start, hresolved => by
    obtain ⟨value, hvalue⟩ := Option.isSome_iff_exists.1 (by simpa [Expr.Resolved] using hresolved)
    simp only [Expr.lower, hvalue, Expr.weight]
    exact needs_intoFresh
  | .bool .., _, _ | .char .., _, _ | .str .., _, _ | .null .., _, _ => needs_intoFresh
  | .ident _ name, start, hresolved => by
    simp only [Expr.lower, Expr.weight]
    exact needs_lookup_bind (by simpa [Expr.Resolved] using hresolved) fun _ => needs_intoFresh
  | .elem _ name indices, start, hresolved => by
    simp only [Expr.Resolved] at hresolved
    simp only [Expr.lower, Expr.weight]
    refine needs_loadArray_bind hresolved.1 fun array ty => ?_
    exact Needs.bind_total (lowerIndices_needs indices hresolved.2) fun _ => ⟨_, rfl⟩
  | .unary _ op operand, start, hresolved => by
    simp only [Expr.lower, Expr.weight]
    have hoperand := operand.lower_needs (by simpa [Expr.Resolved] using hresolved)
    exact hoperand.bind_total fun _ => unary_succeeds.bind fun _ => ⟨_, rfl⟩
  | .binary _ op lhs rhs, start, hresolved => by
    simp only [Expr.Resolved] at hresolved
    simp only [Expr.lower_binary, Expr.weight]
    have hsides := needs_inOrder
      (fun _ hframe => lhs.lower_needs (hframe ▸ hresolved.1))
      (fun _ hframe => rhs.lower_needs (hframe ▸ hresolved.2))
      (lhs.lower_takes start) (rhs.lower_takes start)
    exact hsides.bind_total fun _ => binary_succeeds.bind fun _ => ⟨_, rfl⟩

/-- Indices need as many registers as the heaviest of them weighs. -/
theorem lowerIndices_needs : (indices : List Expr) → {array : Register} → {ty : Ty} →
    {start : Resources} → ResolvedAll start.frame.Binds indices →
    (lowerIndices array ty indices).Needs start start.pool (maxWeight indices)
  | [], array, ty, start, _ => Succeeds.needs ⟨_, rfl⟩
  | i :: rest, array, ty, start, hresolved => by
    simp only [ResolvedAll] at hresolved
    simp only [lowerIndices, maxWeight]
    refine (i.lower_needs hresolved.1).bind fun {first} hfirst => ?_
    have hi := i.lower_fetches hfirst (.any _)
    have hrest : (lowerIndices array ty.element rest).Needs start start.pool (maxWeight rest) :=
      lowerIndices_needs rest hresolved.2
    refine index_succeeds.needs_bind fun {indexed} hindexed => needs_of_ok (run_release _ _) ?_
    -- The register of an index is free again when the next one is computed.
    rw [hi.release_index hindexed]
    by_cases hlast : rest.isEmpty
    · simpa only [hlast, if_true] using hrest
    · simp only [hlast, Bool.false_eq_true, if_false]
      exact needs_of_ok (run_emit _ _) hrest

end

/-! ## §5 Right sides and targets -/

namespace Lower

variable {start : Resources}

theorem sideAddress_needs {side : Side} {pair : Expr}
    (hresolved : pair.Resolved start.frame.Binds) :
    (sideAddress side pair).Needs start start.pool pair.weight :=
  (pair.lower_needs hresolved).bind_total fun _ => ⟨_, rfl⟩

theorem elementAddress_needs {name : String} {indices : List Expr}
    (hname : start.frame.Binds name) (hresolved : ResolvedAll start.frame.Binds indices) :
    (elementAddress name indices).Needs start start.pool (1 + maxWeight indices) := by
  refine needs_loadArray_bind hname fun array ty => ?_
  exact Needs.bind_total (lowerIndices_needs indices hresolved) fun _ => ⟨_, rfl⟩

theorem callMalloc_succeeds {bytes : Int32} : (callMalloc bytes).Succeeds start := by
  refine succeeds_of_ne_error fun err => ?_
  simp [callMalloc, run_bind_eq_error]

theorem allocate_needs {bytes : Int32} : (allocate bytes).Needs start start.pool 1 := by
  refine callMalloc_succeeds.needs_bind fun {out} hrun => ?_
  rw [(callMalloc_quiet (W := fun _ => True) trivial hrun).unchanged]
  exact needs_intoFresh

/-- Each element gives its register back before the next is evaluated. -/
theorem storeElements_needs {array : Register} {ty : Ty} {index : Nat} {elems : List Expr}
    (hresolved : ResolvedAll start.frame.Binds elems) :
    (storeElements array ty index elems).Needs start start.pool (maxWeight elems) := by
  induction elems generalizing index with
  | nil => exact Succeeds.needs ⟨_, rfl⟩
  | cons elem rest ih =>
    simp only [ResolvedAll] at hresolved
    simp only [storeElements, maxWeight]
    refine (elem.lower_needs hresolved.1).bind fun {value} hvalue => ?_
    refine needs_of_ok (run_emit _ _) (needs_of_ok (run_release _ _) ?_)
    -- The register of an element is free again when the next one is computed.
    simp only [(elem.lower_fetches hvalue (.any _)).holds, Resources.hold,
      RegisterPool.release_hold]
    exact ih hresolved.2

theorem literalElementType_succeeds {target : Ty} {elems : List Expr}
    (hresolved : ResolvedAll start.frame.Binds elems) :
    (literalElementType target elems).Succeeds start := by
  refine succeeds_of_ne_error fun err => ?_
  unfold literalElementType
  by_cases hknown : (target.element.isValid && !target.element.isAny) = true
  · simp [hknown]
  · simp only [hknown, Bool.false_eq_true, if_false]
    cases elems with
    | nil => simp
    | cons first rest =>
      simp only [ResolvedAll] at hresolved
      simpa [run_typeOf, run_ofExcept_eq_error] using hresolved.1.typeIn_ne_error

/-- The array holds a register while its elements and its length are stored. -/
theorem arrayLiteral_needs {target : Ty} {elems : List Expr}
    (hresolved : ResolvedAll start.frame.Binds elems) :
    (arrayLiteral target elems).Needs start start.pool (1 + max 1 (maxWeight elems)) := by
  have hall : (arrayLiteral target elems).Needs start start.pool
      (max 1 (1 + max (maxWeight elems) 1)) := by
    refine (literalElementType_succeeds hresolved).needs_bind fun {ty} hty => ?_
    rw [(literalElementType_eq_ok hty).1]
    refine allocate_needs.bind_fetch allocate_takes fun array hfree => ?_
    -- The length is stored when all elements have given their registers back.
    refine Needs.bind (storeElements_needs hresolved) fun {stored} hstored => ?_
    rw [(storeElements_quiet hstored (.any _) (ne_sp_of_mem_free hfree)).unchanged]
    exact needs_intoFresh.bind_total fun _ => ⟨_, rfl⟩
  refine hall.of_eq ?_
  omega

theorem storeSide_succeeds {pair value : Register} {side : Side} :
    (storeSide pair side value).Succeeds start := by
  refine succeeds_of_ne_error fun err => ?_
  simp [storeSide, callMalloc, run_bind_eq_error]

/-- What is needed while two registers are held is two more registers when they are not. -/
theorem Needs.of_both {α : Type} {W : Register → Prop} {step : Lower α}
    {both : Lowered (Register × Register)} {n : Nat} (hboth : FetchesBoth W start both)
    (h : step.Needs both.resources both.resources.pool n) :
    step.Needs both.resources start.pool (n + 2) := by
  have hsum : n + 2 = 1 + (1 + n) := by omega
  rw [hsum]
  rcases hboth.holds with heq | heq <;> rw [heq] at h ⊢
  · exact (h.of_hold (RegisterPool.mem_free_hold.2 ⟨hboth.snd_free, hboth.ne.symm⟩)).of_hold
      hboth.fst_free
  · exact (h.of_hold (RegisterPool.mem_free_hold.2 ⟨hboth.fst_free, hboth.ne⟩)).of_hold
      hboth.snd_free

/-- The pair and its two values hold a register each. -/
theorem newPair_needs {fst snd : Expr} (hfst : fst.Resolved start.frame.Binds)
    (hsnd : snd.Resolved start.frame.Binds) :
    (newPair fst snd).Needs start start.pool
      (max 3 (combinedWeight fst.weight snd.weight)) := by
  rw [newPair_eq, Nat.max_comm]
  have hsides := needs_inOrder (fun _ hframe => fst.lower_needs (hframe ▸ hfst))
    (fun _ hframe => snd.lower_needs (hframe ▸ hsnd)) (fst.lower_takes start)
    (snd.lower_takes start)
  refine hsides.bind fun {sides} hrun => ?_
  -- Two registers are in use when the block is allocated.
  refine .of_both (inOrder_fetches (.any _) fst.lower_fetches snd.lower_fetches hrun) ?_
  exact allocate_needs.bind_total fun _ =>
    storeSide_succeeds.bind fun _ => storeSide_succeeds.bind fun _ => ⟨_, rfl⟩

theorem argType_succeeds {params : List Param} {arg : Expr}
    (hresolved : arg.Resolved start.frame.Binds) : (argType params arg).Succeeds start := by
  refine succeeds_of_ne_error fun err => ?_
  cases params with
  | nil => simpa [argType, run_typeOf, run_ofExcept_eq_error] using hresolved.typeIn_ne_error
  | cons param rest => simp [argType]

/-- An argument on the stack holds no register. -/
theorem pushArgs_needs {params : List Param} {args : List Expr}
    (hresolved : ResolvedAll start.frame.Binds args) :
    (pushArgs params args).Needs start start.pool (maxWeight args) := by
  induction args generalizing params with
  | nil => exact Succeeds.needs ⟨_, rfl⟩
  | cons arg args ih =>
    simp only [ResolvedAll] at hresolved
    rw [pushArgs_cons, maxWeight, Nat.max_comm]
    refine (ih hresolved.2).bind fun {others} hothers => ?_
    -- All that remains of the arguments pushed before is the depth.
    obtain ⟨hres, _⟩ := pushArgs_eq_ok hothers (.any _)
    rw [hres]
    refine Succeeds.needs_bind (argType_succeeds hresolved.1) fun {ty} hty => ?_
    rw [(argType_eq_ok hty).1]
    exact Needs.bind_total (arg.lower_needs hresolved.1) fun _ => ⟨_, rfl⟩

/-- The result needs a register even if no argument does. -/
theorem callFunction_needs {table : SymbolTable} {name : String} {args : List Expr}
    (hknown : table.Knows name) (hresolved : ResolvedAll start.frame.Binds args) :
    (callFunction table name args).Needs start start.pool (max 1 (maxWeight args)) := by
  obtain ⟨signature, hfun⟩ := Option.isSome_iff_exists.1 hknown
  simp only [callFunction, hfun]
  rw [Nat.max_comm]
  refine (pushArgs_needs hresolved).bind fun {pushed} hpushed => ?_
  obtain ⟨hres, _⟩ := pushArgs_eq_ok hpushed (.any _)
  rw [hres]
  refine needs_of_ok (run_emit _ _) (needs_of_ok (run_emitAll _ _) ?_)
  refine needs_of_ok (run_modifyFrame _ _) (needs_of_ok (run_holdReturn _) ?_)
  exact Needs.of_holdReturn (needs_intoFresh.bind_total fun _ => ⟨_, rfl⟩)

end Lower

/-- A resolved right side needs as many registers as it demands. -/
theorem Rhs.lower_needs {table : SymbolTable} {target : Ty} {rhs : Rhs} {start : Resources}
    (hresolved : rhs.Resolved start.frame.Binds table.Knows) :
    (rhs.lower table target).Needs start start.pool rhs.demand := by
  cases rhs with
  | expr e => exact e.lower_needs hresolved
  | array elems => exact arrayLiteral_needs hresolved
  | newPair fst snd => exact newPair_needs hresolved.1 hresolved.2
  | side which pair => exact (sideAddress_needs hresolved).bind_total fun _ => ⟨_, rfl⟩
  | call name args => exact callFunction_needs hresolved.1 hresolved.2

/-- Finding the place of a resolved target needs as many registers as it demands. -/
theorem Target.place_needs {target : Target} {start : Resources}
    (hresolved : target.Resolved start.frame.Binds) :
    target.place.Needs start start.pool target.demand := by
  cases target with
  | ident name => exact needs_lookup_bind hresolved fun _ => Succeeds.needs ⟨_, rfl⟩
  | elem name indices =>
    exact (elementAddress_needs hresolved.1 hresolved.2).bind_total fun _ => ⟨_, rfl⟩
  | side which pair => exact (sideAddress_needs hresolved).bind_total fun _ => ⟨_, rfl⟩

/-- Having found a place, its address takes a register unless it was computed in one. -/
theorem Finds.placeAddress_needs {W : Register → Prop} {start : Resources}
    {place : Lowered Place} (hfound : Finds W start place) :
    (placeAddress place.value).Needs place.resources start.pool 1 := by
  cases hfound with
  | stack hslot => exact needs_intoFresh
  | computed hfetch =>
    refine Needs.of_eq (Needs.of_hold hfetch.free ?_) (Nat.add_zero 1)
    exact Succeeds.needs ⟨_, rfl⟩

theorem Finds.release_succeeds {W : Register → Prop} {start : Resources}
    {place : Lowered Place} (hfound : Finds W start place) :
    place.value.release.Succeeds place.resources := by
  cases hfound <;> exact ⟨_, rfl⟩

/-! ## §6 Statements -/

namespace Lower

variable {start : Resources}

/-- Printing needs what the value does. -/
theorem printValue_needs {e : Expr} (hresolved : e.Resolved start.frame.Binds) :
    (printValue e).Needs start start.pool e.weight := by
  have htype : (typeOf e).Succeeds start := by
    refine succeeds_of_ne_error fun err hrun => ?_
    rw [run_typeOf, run_ofExcept_eq_error] at hrun
    exact hresolved.typeIn_ne_error hrun
  refine htype.needs_bind fun {ty} hty => ?_
  rw [run_typeOf, run_ofExcept_eq_ok] at hty
  obtain ⟨_, _, rfl⟩ := hty
  exact (e.lower_needs hresolved).bind_total fun _ => ⟨_, rfl⟩

theorem testCondition_needs {cond : Expr} {value : Int}
    (hresolved : cond.Resolved start.frame.Binds) :
    (testCondition cond value).Needs start start.pool cond.weight :=
  (cond.lower_needs hresolved).bind_total fun _ => ⟨_, rfl⟩

theorem loopBack_needs {cond : Expr} {top : String} (hresolved : cond.Resolved start.frame.Binds) :
    (loopBack cond top).Needs start start.pool cond.weight :=
  (testCondition_needs hresolved).bind_total fun _ => ⟨_, rfl⟩

end Lower

/-- What lowering a checked statement starts from: a frame that matches the table, the functions
that the table knows, and a pool with the return register not in use. -/
structure Ready (known table : SymbolTable) (resources : Resources) : Prop where
  functions : known.functions = table.functions
  frame : Matches table resources.frame
  laid : resources.frame.Laid
  returnFree : resources.pool.returnHeld = false

namespace Ready

variable {known table : SymbolTable} {resources : Resources}

theorem knows (h : Ready known table resources) : table.Knows = known.Knows := by
  funext name
  simp [SymbolTable.Knows, SymbolTable.function?, h.functions]

theorem withLabel (h : Ready known table resources) (n : Nat) :
    Ready known table { resources with nextLabel := n } :=
  ⟨h.functions, h.frame, h.laid, h.returnFree⟩

theorem openScope (h : Ready known table resources) (slots : Nat) :
    Ready known table.openScope { resources with frame := resources.frame.openScope slots } :=
  ⟨h.functions, h.frame.openScope slots, h.laid.openScope slots, h.returnFree⟩

/-- A statement leaves as many registers free as it found. -/
theorem pool_lower (h : Ready known table resources) {s : Stmt} {out : Lowered Unit}
    (hrun : (s.lower known).run resources = .ok out) :
    out.resources.pool = resources.pool :=
  (s.lower_balanced hrun (.any _) h.laid h.returnFree).pool

/-- A checked statement leaves behind what the next one starts from. -/
theorem lower (h : Ready known table resources) {s : Stmt} {out : Lowered Unit}
    (hrun : (s.lower known).run resources = .ok out) (hclean : (s.check table).diagnostics = [])
    (htypes : ∀ ty ∈ s.variableTypes, ty.isValid) :
    Ready known (s.check table).value.2 out.resources := by
  have hbalanced := s.lower_balanced hrun (.any _) h.laid h.returnFree
  refine ⟨h.functions.trans (s.check_extends table).functions.symm,
    s.lower_matches hrun hclean htypes h.frame h.laid h.returnFree, hbalanced.laid h.laid, ?_⟩
  rw [hbalanced.pool]
  exact h.returnFree

/-- A statement in a scope of its own leaves behind what it started from, but for the labels. -/
theorem resources_inScope (h : Ready known table resources) {s : Stmt} {out : Lowered Unit}
    (hrun : (Lower.inScope s.slots (s.lower known)).run resources = .ok out) :
    out.resources = { resources with nextLabel := out.resources.nextLabel } :=
  (Balanced.inScope hrun fun hinner =>
    s.lower_balanced hinner (.any _) (h.laid.openScope _) h.returnFree).resources_eq

theorem inScope (h : Ready known table resources) {s : Stmt} {out : Lowered Unit}
    (hrun : (Lower.inScope s.slots (s.lower known)).run resources = .ok out) :
    Ready known table out.resources := by
  rw [h.resources_inScope hrun]
  exact h.withLabel _

theorem pool_inScope (h : Ready known table resources) {s : Stmt} {out : Lowered Unit}
    (hrun : (Lower.inScope s.slots (s.lower known)).run resources = .ok out) :
    out.resources.pool = resources.pool := by
  rw [h.resources_inScope hrun]

theorem testCondition (h : Ready known table resources) {cond : Expr} {value : Int}
    {out : Lowered Unit} (hrun : (Lower.testCondition cond value).run resources = .ok out) :
    Ready known table out.resources := by
  rw [(testCondition_quiet hrun (.any _)).unchanged]
  exact h

end Ready

/-- A statement that was checked without a diagnostic, and whose scope has room for its variables,
needs as many registers as it demands. -/
theorem Stmt.lower_needs (s : Stmt) {known table : SymbolTable} {resources : Resources}
    (hclean : (s.check table).diagnostics = []) (htypes : ∀ ty ∈ s.variableTypes, ty.isValid)
    (hready : Ready known table resources) (hroom : s.slots ≤ resources.frame.room) :
    (s.lower known).Needs resources resources.pool s.demand := by
  -- By induction on the statement. The errors about names are excluded by what the clean check
  -- says, the one about slots by the room that the scope has left. Every part leaves as many
  -- registers free as it found, so the statement demands what the most demanding part does.
  induction s generalizing table resources with
  | skip span => exact Succeeds.needs ⟨_, rfl⟩
  | declare span ty name rhs =>
    obtain ⟨hrhs, _⟩ := check_declare_clean hclean
    have hresolved := Rhs.check_resolved hready.frame.covers hrhs
    rw [hready.knows] at hresolved
    refine (Rhs.lower_needs hresolved).bind_total fun {value} hvalue => ?_
    rw [(Rhs.lower_brings hvalue (.any _) hready.laid hready.returnFree).holds]
    refine .bind (succeeds_of_ne_error fun err hrun => ?_) fun _ => ⟨_, rfl⟩
    -- A variable without a slot would need a scope that is full.
    obtain ⟨hfull, _⟩ := Frame.declare_eq_error.1 (run_declare_eq_error.1 hrun)
    simp only [slots, Resources.frame_hold] at hroom hfull
    omega
  | assign span target rhs =>
    simp only [check, diagnostics_bind, List.append_eq_nil_iff] at hclean
    have htarget := Target.check_clean hready.frame hclean.1
    have hresolved := Rhs.check_resolved hready.frame.covers hclean.2.1
    rw [hready.knows] at hresolved
    refine needs_of_ok (run_getFrame _) ?_
    rw [htarget.type]
    refine needs_of_ok (run_ofExcept_ok _ _) ?_
    -- The value stays in its register until it is stored.
    refine (Rhs.lower_needs hresolved).bind_fetch (f := id)
      (Rhs.lower_takes _ _ fun _ => hready.returnFree) fun value _ => ?_
    refine Needs.bind_total (Target.place_needs htarget.resolved) fun {place} hplace => ?_
    refine .bind ⟨_, run_emit _ _⟩ fun hemit => ?_
    obtain rfl := Except.ok.inj hemit
    exact (Target.place_finds hplace (.any _)).release_succeeds.bind fun _ => ⟨_, rfl⟩
  | increment span name =>
    have hbound : resources.frame.Binds name := by
      simp only [check] at hclean
      cases hty : table.typeOf? name with
      | none => simp [hty, note] at hclean
      | some ty => exact hready.frame.binds hty
    exact needs_lookup_bind hbound fun _ => needs_acquire.bind_total fun _ => ⟨_, rfl⟩
  | read span target =>
    simp only [check, diagnostics_bind, List.append_eq_nil_iff] at hclean
    have htarget := Target.check_clean hready.frame hclean.1
    refine needs_of_ok (run_getFrame _) ?_
    rw [htarget.type, demand, Nat.max_comm]
    refine needs_of_ok (run_ofExcept_ok _ _) ?_
    refine (Target.place_needs htarget.resolved).bind fun {place} hplace => ?_
    exact (Target.place_finds hplace (.any _)).placeAddress_needs.bind_total fun _ => ⟨_, rfl⟩
  | free span e | exit span e | ret span e =>
    simp only [check, diagnostics_bind, List.append_eq_nil_iff] at hclean
    have hvalue := e.lower_needs (e.check_clean hready.frame hclean.1).resolved
    exact hvalue.bind_total fun _ => ⟨_, rfl⟩
  | print span e =>
    simp only [check, diagnostics_bind, List.append_eq_nil_iff] at hclean
    exact printValue_needs (e.check_clean hready.frame hclean.1).resolved
  | println span e =>
    simp only [check, diagnostics_bind, List.append_eq_nil_iff] at hclean
    have hprint := printValue_needs (e.check_clean hready.frame hclean.1).resolved
    exact hprint.bind_total fun _ => ⟨_, rfl⟩
  | ifThen span cond arm ih =>
    simp only [check, diagnostics_bind, List.append_eq_nil_iff,
      SymbolTable.diagnostics_scoped] at hclean
    have hnext := hready.withLabel (resources.nextLabel + 1)
    have hcond := checkCondition_resolved hnext.frame.covers hclean.1
    refine needs_of_ok (run_freshLabel _) ?_
    refine .bind (testCondition_needs hcond) fun {test} htest => ?_
    rw [(testCondition_quiet htest (.any _)).unchanged]
    refine needs_of_ok (run_emit _ _) (.bind_total (needs_inScope ?_) fun _ => ⟨_, rfl⟩)
    exact ih hclean.2 htypes ((hready.withLabel _).openScope _) (by simp)
  | ifElse span cond thenArm elseArm ihThen ihElse =>
    simp only [check, diagnostics_bind, List.append_eq_nil_iff, diagnostics_pure, and_true,
      SymbolTable.diagnostics_scoped, value_scoped_check] at hclean
    simp only [variableTypes, List.mem_append] at htypes
    have hnext := hready.withLabel (resources.nextLabel + 1)
    have hcond := checkCondition_resolved hnext.frame.covers hclean.1
    refine needs_of_ok (run_freshLabel _) ?_
    refine .bind (testCondition_needs hcond) fun {test} htest => ?_
    rw [(testCondition_quiet htest (.any _)).unchanged]
    refine needs_of_ok (run_freshLabel _) (needs_of_ok (run_emit _ _) ?_)
    have hnext := hready.withLabel (resources.nextLabel + 1 + 1)
    refine .bind (needs_inScope ?_) fun {arm} harm => ?_
    · exact ihThen hclean.2.1 (fun ty hty => htypes ty (.inl hty)) (hnext.openScope _) (by simp)
    -- The first arm has given back all it took.
    · rw [← hnext.pool_inScope harm]
      refine needs_of_ok (run_emit _ _) (needs_of_ok (run_emit _ _) ?_)
      refine .bind_total (needs_inScope ?_) fun _ => ⟨_, rfl⟩
      exact ihElse hclean.2.2 (fun ty hty => htypes ty (.inr hty))
        ((hnext.inScope harm).openScope _) (by simp)
  | whileDo span cond body ih =>
    simp only [check, diagnostics_bind, List.append_eq_nil_iff,
      SymbolTable.diagnostics_scoped] at hclean
    have hnext := hready.withLabel (resources.nextLabel + 1 + 1)
    rw [demand, Nat.max_comm]
    refine needs_of_ok (run_freshLabel _) (needs_of_ok (run_freshLabel _) ?_)
    refine needs_of_ok (run_emit _ _) (needs_of_ok (run_emit _ _) ?_)
    refine .bind (needs_inScope ?_) fun {round} hround => ?_
    · exact ih hclean.2 htypes (hnext.openScope _) (by simp)
    · have hafter := hnext.inScope hround
      rw [← hnext.pool_inScope hround]
      exact needs_of_ok (run_emit _ _)
        (loopBack_needs (checkCondition_resolved hafter.frame.covers hclean.1))
  | doWhile span body cond ih =>
    simp only [check, diagnostics_bind, List.append_eq_nil_iff, diagnostics_pure, and_true,
      SymbolTable.diagnostics_scoped, value_scoped_check] at hclean
    have hnext := hready.withLabel (resources.nextLabel + 1)
    rw [demand, Nat.max_comm]
    refine needs_of_ok (run_freshLabel _) (needs_of_ok (run_emit _ _) ?_)
    refine .bind (needs_inScope ?_) fun {round} hround => ?_
    · exact ih hclean.1 htypes (hnext.openScope _) (by simp)
    · have hafter := hnext.inScope hround
      rw [← hnext.pool_inScope hround]
      exact loopBack_needs (checkCondition_resolved hafter.frame.covers hclean.2)
  | forLoop span init cond step body ihInit ihStep ihBody =>
    simp only [check_forLoop, SymbolTable.diagnostics_scoped] at hclean
    obtain ⟨hfirst, hcond, hslots, hlast, hbody⟩ := checkFor_clean hclean
    simp only [variableTypes, List.mem_append] at htypes
    have htypesInit : ∀ ty ∈ init.variableTypes, ty.isValid :=
      fun ty hty => htypes ty (.inl (.inl hty))
    have htypesStep : ∀ ty ∈ step.variableTypes, ty.isValid :=
      fun ty hty => htypes ty (.inl (.inr hty))
    -- The clauses and the condition are lowered in the scope of the loop, as they are checked.
    have hopen := hready.openScope init.slots
    have hparts : (lowerFor known init cond step body).Needs
        { resources with frame := resources.frame.openScope init.slots } resources.pool
        (max init.demand (max body.demand (max step.demand cond.weight))) := by
      refine (ihInit hfirst htypesInit hopen (by simp)).bind fun {first} hrun => ?_
      have hinit := hopen.lower hrun hfirst htypesInit
      have hnext := hinit.withLabel (first.resources.nextLabel + 1 + 1)
      rw [← hopen.pool_lower hrun]
      refine needs_of_ok (run_freshLabel _) (needs_of_ok (run_freshLabel _) ?_)
      refine needs_of_ok (run_emit _ _) (needs_of_ok (run_emit _ _) ?_)
      refine .bind (needs_inScope ?_) fun {round} hround => ?_
      · exact ihBody hbody (fun ty hty => htypes ty (.inr hty)) (hnext.openScope _) (by simp)
      · have hafter := hnext.inScope hround
        rw [← hnext.pool_inScope hround]
        refine (ihStep hlast htypesStep hafter ?_).bind fun {last} hlastRun => ?_
        -- The last clause declares nothing, so a full scope is enough for it.
        · rw [hslots]
          exact hafter.laid.room_nonneg
        · have hstep := hafter.lower hlastRun hlast htypesStep
          rw [check_of_slots hslots] at hstep
          rw [← hafter.pool_lower hlastRun]
          exact needs_of_ok (run_emit _ _)
            (loopBack_needs (checkCondition_resolved hstep.frame.covers hcond))
    -- The demand lists the same parts in the order of the source.
    rw [lower_forLoop]
    refine (needs_inScope hparts).of_eq ?_
    rw [demand]
    omega
  | block span body ih =>
    simp only [check, SymbolTable.diagnostics_scoped] at hclean
    exact needs_inScope (ih hclean htypes (hready.openScope _) (by simp))
  | seq span first second ihFirst ihSecond =>
    obtain ⟨hfirst, hsecond, _⟩ := check_seq_clean hclean
    simp only [variableTypes, List.mem_append] at htypes
    have htypesFirst : ∀ ty ∈ first.variableTypes, ty.isValid :=
      fun ty hty => htypes ty (.inl hty)
    simp only [slots] at hroom
    refine (ihFirst hfirst htypesFirst hready (by omega)).bind fun {a} ha => ?_
    have hbalanced := first.lower_balanced ha (.any _) hready.laid hready.returnFree
    -- The first half used up as many slots as it declares variables.
    have hleft := hbalanced.frame.keeps.2.2.2.2
    rw [← hready.pool_lower ha]
    exact ihSecond hsecond (fun ty hty => htypes ty (.inr hty))
      (hready.lower ha hfirst htypesFirst) (by omega)

end ArmCompiler
