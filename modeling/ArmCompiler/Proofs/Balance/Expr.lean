import ArmCompiler.Proofs.Structured

/-!
# Balance of Expressions

Evaluating an expression takes one register that was free, for the value, and leaves the frame
and all other registers as they were. In passing, the code is shown to be straight.

## Contents
- §1: operators
- §2: values in registers
- §3: two values
- §4: expressions
-/

namespace ArmCompiler

open Instruction Lower

/-! ## §1 Operators -/

/-- Code that straight steps were added to, with the resources left alone. -/
structure Quiet (W : Register → Prop) (resources : Resources) {α : Type} (out : Lowered α) :
    Prop where
  unchanged : out.resources = resources
  code : StraightCode W resources.frame.Shows out.code

namespace Lower

variable {W : Register → Prop} {resources : Resources} {out : Lowered Unit}

theorem unary_quiet {r : Register} {op : UnaryOp} (hr : W r) (hsp : r ≠ .sp)
    (h : (unary r op).run resources = .ok out) : Quiet W resources out := by
  cases op with
  | not =>
    simp only [unary, run_emit, Except.ok.injEq] at h
    subst h
    exact ⟨rfl, by simpa using .arith hr⟩
  | neg =>
    simp only [unary, run_bind_eq_ok, run_emit, run_callRoutineIf, Except.ok.injEq] at h
    obtain ⟨_, _, rfl, rfl, rfl⟩ := h
    exact ⟨rfl, by simpa using ⟨.arith hr, .routine⟩⟩
  | len =>
    simp only [unary, run_emit, Except.ok.injEq] at h
    subst h
    exact ⟨rfl, by simpa using .load hr hsp⟩
  | ord | chr =>
    simp only [unary, run_pure, Except.ok.injEq] at h
    subst h
    exact ⟨rfl, by simp⟩

theorem checkedArith_quiet {op : ArithOp} {l r : Register} (hl : W l)
    (h : (checkedArith op l r).run resources = .ok out) : Quiet W resources out := by
  simp only [checkedArith, run_bind_eq_ok, run_emit, run_callRoutineIf, Except.ok.injEq] at h
  obtain ⟨_, _, rfl, rfl, rfl⟩ := h
  exact ⟨rfl, by simpa using ⟨.arith hl, .routine⟩⟩

theorem compare_quiet {cond : Condition} {l r : Register} (hl : W l)
    (h : (compare cond l r).run resources = .ok out) : Quiet W resources out := by
  simp only [Lower.compare, run_bind_eq_ok, run_emit, Except.ok.injEq] at h
  obtain ⟨_, _, rfl, ⟨_, _, rfl, rfl, rfl⟩, rfl⟩ := h
  exact ⟨rfl, by simpa using ⟨.cmp, .mov hl, .mov hl⟩⟩

theorem divideWith_quiet {name : String} {result l r : Register}
    (hname : name ∈ libraryFunctions) (hl : W l) (h0 : W .r0) (h1 : W .r1)
    (h : (divideWith name result l r).run resources = .ok out) : Quiet W resources out := by
  simp only [divideWith, run_bind_eq_ok, run_emit, run_callRoutine, Except.ok.injEq] at h
  obtain ⟨_, _, rfl, ⟨_, _, rfl, ⟨_, _, rfl, ⟨_, _, rfl, rfl, rfl⟩, rfl⟩, rfl⟩, rfl⟩ := h
  exact ⟨rfl, by simpa using ⟨.mov h0, .mov h1, .routine, .library hname, .mov hl⟩⟩

theorem binary_quiet {l r : Register} {op : BinaryOp} (hl : W l) (hr : W r) (h0 : W .r0)
    (h1 : W .r1) (h : (binary l r op).run resources = .ok out) : Quiet W resources out := by
  cases op with
  | add | sub => exact checkedArith_quiet hl h
  | mul =>
    simp only [binary, run_bind_eq_ok, run_emit, run_callRoutineIf, Except.ok.injEq] at h
    obtain ⟨_, _, rfl, ⟨_, _, rfl, rfl, rfl⟩, rfl⟩ := h
    exact ⟨rfl, by simpa using ⟨.smull hl hr, .cmp, .routine⟩⟩
  | div | mod => exact divideWith_quiet (by decide) hl h0 h1 h
  | gt | ge | lt | le | eq | ne => exact compare_quiet hl h
  | and | or =>
    simp only [binary, run_emit, Except.ok.injEq] at h
    subst h
    exact ⟨rfl, by simpa using .arith hl⟩

theorem index_quiet {array i : Register} {element : Ty} (harray : W array) (h0 : W .r0)
    (h1 : W .r1) (h : (index array i element).run resources = .ok out) :
    Quiet W resources out := by
  simp only [index, run_bind_eq_ok, run_emit, run_callRoutine, Except.ok.injEq] at h
  obtain ⟨_, _, rfl, ⟨_, _, rfl, ⟨_, _, rfl, ⟨_, _, rfl, rfl, rfl⟩, rfl⟩, rfl⟩, rfl⟩ := h
  exact ⟨rfl, by simpa using ⟨.mov h0, .mov h1, .routine, .arith harray, .arith harray⟩⟩

end Lower

/-! ## §2 Values in registers -/

/-- Code that brings a value into a register that was free. -/
structure Fetches (W : Register → Prop) (resources : Resources) (out : Lowered Register) :
    Prop where
  free : out.value ∈ resources.pool.free
  holds : out.resources = resources.hold out.value
  code : StraightCode W resources.frame.Shows out.code

/-- The stack pointer is never handed out. -/
theorem ne_sp_of_mem_free {pool : RegisterPool} {r : Register} (hr : r ∈ pool.free) :
    r ≠ .sp := by
  rintro rfl
  exact absurd (RegisterPool.general_of_mem_free hr) (by decide)

namespace Lower

variable {W : Register → Prop} {resources : Resources}

theorem intoFresh_fetches {instruction : Register → Pseudo} {out : Lowered Register}
    (hcode : ∀ r ∈ resources.pool.free, Straight W resources.frame.Shows (instruction r))
    (h : (intoFresh instruction).run resources = .ok out) : Fetches W resources out := by
  obtain ⟨r, hhead, rfl⟩ := run_intoFresh_eq_ok.1 h
  have hr : r ∈ resources.pool.free := List.mem_of_mem_head? hhead
  exact ⟨hr, rfl, by simpa using hcode r hr⟩

theorem loadArray_fetches {name : String} {out : Lowered (Register × Ty)}
    (hW : Writable resources.pool W) (h : (loadArray name).run resources = .ok out) :
    Fetches W resources { out with value := out.value.1 } := by
  simp only [loadArray, run_bind_eq_ok, run_lookup, run_ofExcept_eq_ok, run_acquire_eq_ok,
    run_emit, run_pure, Except.ok.injEq] at h
  obtain ⟨_, _, ⟨⟨offset, ty⟩, hfind, rfl⟩,
    ⟨_, _, ⟨r, hhead, rfl⟩, ⟨_, _, rfl, rfl, rfl⟩, rfl⟩, rfl⟩ := h
  have hr : r ∈ resources.pool.free := List.mem_of_mem_head? hhead
  refine ⟨hr, rfl, ?_⟩
  simpa using .loadSlot (hW.free r hr) ⟨name, ty, hfind⟩

end Lower

/-! ## §3 Two values -/

/-- Once an index is applied and its register given back, the resources are as before. -/
theorem Fetches.release_index {W : Register → Prop} {resources : Resources}
    {first : Lowered Register} (h : Fetches W resources first) {array : Register} {element : Ty}
    {indexed : Lowered Unit}
    (hindexed : (Lower.index array first.value element).run first.resources = .ok indexed) :
    { indexed.resources with pool := indexed.resources.pool.release first.value } =
      resources := by
  rw [h.holds] at hindexed
  -- Which registers the code writes does not matter for the resources, so nothing is asked of them.
  have hindex := Lower.index_quiet (W := fun _ => True) trivial trivial trivial hindexed
  simp [hindex.unchanged, Resources.hold]

namespace Lower

/-- Two values in registers, computed in the order that `leftFirst` decides. -/
def inOrder (left : Bool) (a b : Lower Register) : Lower (Register × Register) :=
  if left then do
    let x ← a
    let y ← b
    pure (x, y)
  else do
    let y ← b
    let x ← a
    pure (x, y)

end Lower

/-- Code that brings two values into two registers that were free. -/
structure FetchesBoth (W : Register → Prop) (resources : Resources)
    (out : Lowered (Register × Register)) : Prop where
  fst_free : out.value.1 ∈ resources.pool.free
  snd_free : out.value.2 ∈ resources.pool.free
  ne : out.value.1 ≠ out.value.2
  holds : out.resources = (resources.hold out.value.1).hold out.value.2 ∨
    out.resources = (resources.hold out.value.2).hold out.value.1
  code : StraightCode W resources.frame.Shows out.code

/-- Two steps that fetch a value each, the second while the first one's value is in use, fetch
two values. -/
theorem inOrder_fetches {W : Register → Prop} {left : Bool} {a b : Lower Register}
    {resources : Resources} {out : Lowered (Register × Register)}
    (hW : Writable resources.pool W)
    (ha : ∀ {start : Resources} {out : Lowered Register}, a.run start = .ok out →
      Writable start.pool W → Fetches W start out)
    (hb : ∀ {start : Resources} {out : Lowered Register}, b.run start = .ok out →
      Writable start.pool W → Fetches W start out)
    (h : (inOrder left a b).run resources = .ok out) : FetchesBoth W resources out := by
  cases left with
  | true =>
    simp only [inOrder, if_true, run_bind_eq_ok, run_pure, Except.ok.injEq] at h
    obtain ⟨x, _, hx, ⟨y, _, hy, rfl, rfl⟩, rfl⟩ := h
    -- The second value finds the first one's register in use, so the two registers differ.
    have hfst := ha hx hW
    rw [hfst.holds] at hy
    have hsnd := hb hy (hW.hold _)
    obtain ⟨hfree, hne⟩ := RegisterPool.mem_free_hold.1 hsnd.free
    exact ⟨hfst.free, hfree, hne.symm, .inl hsnd.holds, by simpa using ⟨hfst.code, hsnd.code⟩⟩
  | false =>
    simp only [inOrder, Bool.false_eq_true, if_false, run_bind_eq_ok, run_pure,
      Except.ok.injEq] at h
    obtain ⟨y, _, hy, ⟨x, _, hx, rfl, rfl⟩, rfl⟩ := h
    have hsnd := hb hy hW
    rw [hsnd.holds] at hx
    have hfst := ha hx (hW.hold _)
    obtain ⟨hfree, hne⟩ := RegisterPool.mem_free_hold.1 hfst.free
    exact ⟨hfree, hsnd.free, hne, .inr hfst.holds, by simpa using ⟨hsnd.code, hfst.code⟩⟩

namespace FetchesBoth

variable {W : Register → Prop} {resources : Resources} {out : Lowered (Register × Register)}

theorem frame_eq (h : FetchesBoth W resources out) : out.resources.frame = resources.frame := by
  rcases h.holds with heq | heq <;> rw [heq] <;> rfl

/-- Giving back the second register leaves the first one in use. -/
theorem release_snd (h : FetchesBoth W resources out) :
    { out.resources with pool := out.resources.pool.release out.value.2 } =
      resources.hold out.value.1 := by
  -- The register given back need not be the one taken last.
  rcases h.holds with heq | heq
  · simp [heq, Resources.hold]
  · simp [heq, Resources.hold, RegisterPool.release_hold_of_ne h.ne]

end FetchesBoth

/-- An operator is applied to its operands, computed in the order that `leftFirst` decides. -/
theorem Expr.lower_binary (span : Span) (op : BinaryOp) (lhs rhs : Expr) :
    (Expr.binary span op lhs rhs).lower = (do
      let operands ← inOrder (leftFirst lhs rhs) lhs.lower rhs.lower
      Lower.binary operands.1 operands.2 op
      release operands.2
      pure operands.1) := by
  rw [Expr.lower, inOrder]
  cases leftFirst lhs rhs <;> simp

/-! ## §4 Expressions -/

mutual

/-- An expression takes one free register for its value and leaves all else as it was. -/
theorem Expr.lower_fetches {W : Register → Prop} : (e : Expr) → {resources : Resources} →
    {out : Lowered Register} → e.lower.run resources = .ok out →
    Writable resources.pool W → Fetches W resources out
  | .int _ text, resources, out, h, hW => by
    simp only [Expr.lower] at h
    split at h
    · exact intoFresh_fetches (fun r hr => .constant (hW.free r hr)) h
    · simp at h
  | .bool _ value, resources, out, h, hW => by
    exact intoFresh_fetches (fun r hr => .mov (hW.free r hr)) h
  | .char _ value, resources, out, h, hW => by
    exact intoFresh_fetches (fun r hr => .mov (hW.free r hr)) h
  | .str _ raw, resources, out, h, hW => by
    exact intoFresh_fetches (fun r hr => .text (hW.free r hr)) h
  | .null _, resources, out, h, hW => by
    exact intoFresh_fetches (fun r hr => .constant (hW.free r hr)) h
  | .ident _ name, resources, out, h, hW => by
    simp only [Expr.lower, run_bind_eq_ok, run_lookup, run_ofExcept_eq_ok] at h
    obtain ⟨_, second, ⟨⟨offset, ty⟩, hfind, rfl⟩, h, rfl⟩ := h
    exact intoFresh_fetches (fun r hr => .loadSlot (hW.free r hr) ⟨name, ty, hfind⟩) h
  | .elem _ name indices, resources, out, h, hW => by
    simp only [Expr.lower, run_bind_eq_ok, run_emit, run_pure, Except.ok.injEq] at h
    obtain ⟨array, _, harray, ⟨ty, _, hty, ⟨_, _, rfl, rfl, rfl⟩, rfl⟩, rfl⟩ := h
    -- The register of the array stays in use over the indices and holds the element in the end.
    have hload := loadArray_fetches hW harray
    have hholds : array.resources = resources.hold array.value.1 := hload.holds
    rw [hholds] at hty
    have hindices := lowerIndices_quiet indices hty (hW.hold _) (hW.free _ hload.free)
      (ne_sp_of_mem_free hload.free)
    refine ⟨hload.free, hindices.unchanged, ?_⟩
    simp only [StraightCode.append_iff, StraightCode.cons_iff, StraightCode.nil, and_true]
    exact ⟨hload.code, hindices.code, .load (hW.free _ hload.free) (ne_sp_of_mem_free hload.free)⟩
  | .unary _ op operand, resources, out, h, hW => by
    simp only [Expr.lower, run_bind_eq_ok, run_pure, Except.ok.injEq] at h
    obtain ⟨first, _, hfirst, ⟨applied, _, happlied, rfl, rfl⟩, rfl⟩ := h
    have hoperand := operand.lower_fetches hfirst hW
    rw [hoperand.holds] at happlied
    have hop := unary_quiet (hW.free _ hoperand.free) (ne_sp_of_mem_free hoperand.free) happlied
    exact ⟨hoperand.free, hop.unchanged, by simpa using ⟨hoperand.code, hop.code⟩⟩
  | .binary _ op lhs rhs, resources, out, h, hW => by
    simp only [Expr.lower_binary, run_bind_eq_ok, run_release, run_pure, Except.ok.injEq] at h
    obtain ⟨both, _, hboth, ⟨applied, _, happlied, ⟨_, _, rfl, rfl, rfl⟩, rfl⟩, rfl⟩ := h
    -- Either operand may find the other one's register in use; the frame is the same for both.
    have hoperands := inOrder_fetches hW lhs.lower_fetches rhs.lower_fetches hboth
    have hop := binary_quiet (hW.free _ hoperands.fst_free) (hW.free _ hoperands.snd_free)
      hW.r0 hW.r1 happlied
    refine ⟨hoperands.fst_free, ?_, ?_⟩
    · rw [hop.unchanged]
      exact hoperands.release_snd
    · have hcode := hop.code
      rw [hoperands.frame_eq] at hcode
      simpa using ⟨hoperands.code, hcode⟩

/-- Indices are computed one after the other and leave nothing in use. -/
theorem lowerIndices_quiet {W : Register → Prop} : (indices : List Expr) →
    {array : Register} → {ty : Ty} → {resources : Resources} → {out : Lowered Ty} →
    (lowerIndices array ty indices).run resources = .ok out → Writable resources.pool W →
    W array → array ≠ .sp → Quiet W resources out
  | [], array, ty, resources, out, h, _, _, _ => by
    simp only [lowerIndices, run_pure, Except.ok.injEq] at h
    subst h
    exact ⟨rfl, by simp⟩
  | i :: rest, array, ty, resources, out, h, hW, harray, hsp => by
    simp only [lowerIndices, run_bind_eq_ok, run_release, Except.ok.injEq] at h
    obtain ⟨first, _, hfirst, ⟨indexed, _, hindexed, ⟨_, others, rfl, hrest, rfl⟩, rfl⟩, rfl⟩ := h
    have hi := i.lower_fetches hfirst hW
    rw [hi.holds] at hindexed
    have hindex := index_quiet harray hW.r0 hW.r1 hindexed
    have hafter : { indexed.resources with
        pool := indexed.resources.pool.release first.value } = resources := by
      simp [hindex.unchanged, Resources.hold]
    rw [hafter] at hrest
    -- The row is followed only if another index comes after this one.
    have hothers : Quiet W resources others := by
      by_cases hlast : rest.isEmpty
      · simp only [hlast, if_true] at hrest
        exact lowerIndices_quiet rest hrest hW harray hsp
      · simp only [hlast, Bool.false_eq_true, if_false, run_bind_eq_ok, run_emit,
          Except.ok.injEq] at hrest
        obtain ⟨_, last, rfl, hrest, rfl⟩ := hrest
        have hquiet := lowerIndices_quiet rest hrest hW harray hsp
        exact ⟨hquiet.unchanged, by simpa using ⟨.load harray hsp, hquiet.code⟩⟩
    refine ⟨hothers.unchanged, ?_⟩
    simpa using ⟨hi.code, hindex.code, hothers.code⟩

end

end ArmCompiler
