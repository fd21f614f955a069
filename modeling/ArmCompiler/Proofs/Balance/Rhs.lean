import ArmCompiler.Proofs.Balance.Expr

/-!
# Balance of Right Sides and Targets

Right sides take one free register for their value and give back all others, also those that
array elements, pair sides and call arguments pass through. A target takes at most the register
that holds its address.

## Contents
- §1: values of right sides
- §2: array literals
- §3: pairs
- §4: calls
- §5: right sides
- §6: targets
-/

namespace ArmCompiler

open Instruction Lower

/-! ## §1 Values of right sides -/

/-- The functions that a table knows. -/
def SymbolTable.Knows (table : SymbolTable) (name : String) : Prop :=
  (table.function? name).isSome

/-- Code that brings the value of a right side into a register that was free. -/
structure Brings (W : Register → Prop) (known : String → Prop) (resources : Resources)
    (out : Lowered Register) : Prop where
  free : out.value ∈ resources.pool.free
  holds : out.resources = resources.hold out.value
  code : Structured W known resources.frame.depth resources.nextLabel resources.nextLabel
    out.code

theorem Fetches.brings {W : Register → Prop} {known : String → Prop} {resources : Resources}
    {out : Lowered Register} (h : Fetches W resources out) (hlaid : resources.frame.Laid) :
    Brings W known resources out :=
  ⟨h.free, h.holds, .straight (h.code.inFrame hlaid)⟩

namespace Lower

variable {W : Register → Prop} {resources : Resources}

theorem sideAddress_fetches {side : Side} {pair : Expr} {out : Lowered Register}
    (h : (sideAddress side pair).run resources = .ok out) (hW : Writable resources.pool W) :
    Fetches W resources out := by
  simp only [sideAddress, run_bind_eq_ok, run_emit, run_callRoutine, run_pure,
    Except.ok.injEq] at h
  obtain ⟨first, _, hfirst, ⟨_, _, rfl, ⟨_, _, rfl, ⟨_, _, rfl, rfl, rfl⟩, rfl⟩, rfl⟩, rfl⟩ := h
  have hpair := pair.lower_fetches hfirst hW
  refine ⟨hpair.free, hpair.holds, ?_⟩
  simpa using ⟨hpair.code, .mov hW.r0, .routine,
    .load (hW.free _ hpair.free) (ne_sp_of_mem_free hpair.free)⟩

theorem elementAddress_fetches {name : String} {indices : List Expr}
    {out : Lowered (Register × Ty)} (h : (elementAddress name indices).run resources = .ok out)
    (hW : Writable resources.pool W) : Fetches W resources { out with value := out.value.1 } := by
  simp only [elementAddress, run_bind_eq_ok, run_pure, Except.ok.injEq] at h
  obtain ⟨array, _, harray, ⟨ty, _, hty, rfl, rfl⟩, rfl⟩ := h
  have hload := loadArray_fetches hW harray
  have hholds : array.resources = resources.hold array.value.1 := hload.holds
  rw [hholds] at hty
  have hindices := lowerIndices_quiet indices hty (hW.hold _) (hW.free _ hload.free)
    (ne_sp_of_mem_free hload.free)
  refine ⟨hload.free, hindices.unchanged, ?_⟩
  simpa using ⟨hload.code, hindices.code⟩

theorem callMalloc_quiet {bytes : Int32} {out : Lowered Unit} (h0 : W .r0)
    (h : (callMalloc bytes).run resources = .ok out) : Quiet W resources out := by
  simp only [callMalloc, run_bind_eq_ok, run_emit, Except.ok.injEq] at h
  obtain ⟨_, _, rfl, rfl, rfl⟩ := h
  exact ⟨rfl, by simpa using ⟨.constant h0, .library (by decide)⟩⟩

theorem allocate_fetches {bytes : Int32} {out : Lowered Register}
    (h : (allocate bytes).run resources = .ok out) (hW : Writable resources.pool W) :
    Fetches W resources out := by
  simp only [allocate, run_bind_eq_ok] at h
  obtain ⟨asked, taken, hasked, htaken, rfl⟩ := h
  have hquiet := callMalloc_quiet (W := W) hW.r0 hasked
  rw [hquiet.unchanged] at htaken
  have hfetch := intoFresh_fetches (fun r hr => .mov (hW.free r hr)) htaken
  exact ⟨hfetch.free, hfetch.holds, by simpa using ⟨hquiet.code, hfetch.code⟩⟩

/-! ## §2 Array literals -/

theorem storeElements_quiet {array : Register} {ty : Ty} {index : Nat} {elems : List Expr}
    {out : Lowered Unit} (h : (storeElements array ty index elems).run resources = .ok out)
    (hW : Writable resources.pool W) (hsp : array ≠ .sp) : Quiet W resources out := by
  induction elems generalizing index out with
  | nil =>
    simp only [storeElements, run_pure, Except.ok.injEq] at h
    subst h
    exact ⟨rfl, by simp⟩
  | cons elem rest ih =>
    simp only [storeElements, run_bind_eq_ok, run_emit, run_release, Except.ok.injEq] at h
    obtain ⟨value, _, hvalue, ⟨_, _, rfl, ⟨_, others, rfl, hothers, rfl⟩, rfl⟩, rfl⟩ := h
    have helem := elem.lower_fetches hvalue hW
    simp only [helem.holds, Resources.hold, RegisterPool.release_hold] at hothers
    have hrest := ih hothers
    exact ⟨hrest.unchanged, by simpa using ⟨helem.code, .store hsp, hrest.code⟩⟩

theorem literalElementType_eq_ok {target : Ty} {elems : List Expr} {out : Lowered Ty}
    (h : (literalElementType target elems).run resources = .ok out) :
    out.resources = resources ∧ out.code = [] := by
  simp only [literalElementType] at h
  by_cases hknown : (target.element.isValid && !target.element.isAny) = true
  · simp only [hknown, if_true, run_pure, Except.ok.injEq] at h
    subst h
    exact ⟨rfl, rfl⟩
  · simp only [hknown, Bool.false_eq_true, if_false] at h
    cases elems with
    | nil =>
      simp only [run_pure, Except.ok.injEq] at h
      subst h
      exact ⟨rfl, rfl⟩
    | cons first rest =>
      simp only [run_typeOf, run_ofExcept_eq_ok] at h
      obtain ⟨ty, _, rfl⟩ := h
      exact ⟨rfl, rfl⟩

theorem arrayLiteral_fetches {target : Ty} {elems : List Expr} {out : Lowered Register}
    (h : (arrayLiteral target elems).run resources = .ok out) (hW : Writable resources.pool W) :
    Fetches W resources out := by
  simp only [arrayLiteral, run_bind_eq_ok, run_emit, run_release, run_pure, Except.ok.injEq] at h
  obtain ⟨ty, _, hty, ⟨array, _, harray, ⟨stored, _, hstored, ⟨length, _, hlength,
    ⟨_, _, rfl, ⟨_, _, rfl, rfl, rfl⟩, rfl⟩, rfl⟩, rfl⟩, rfl⟩, rfl⟩ := h
  obtain ⟨htyRes, htyCode⟩ := literalElementType_eq_ok hty
  rw [htyRes] at harray
  -- The register of the block is in use while the elements and the length pass through others.
  have hblock := allocate_fetches harray hW
  rw [hblock.holds] at hstored
  have helems := storeElements_quiet hstored (hW.hold _) (ne_sp_of_mem_free hblock.free)
  rw [helems.unchanged] at hlength
  have hcount := intoFresh_fetches (W := W)
    (fun r hr => .constant ((hW.hold array.value).free r hr)) hlength
  refine ⟨hblock.free, ?_, ?_⟩
  · simp [hcount.holds, Resources.hold]
  · simpa [htyCode] using ⟨hblock.code, helems.code, hcount.code,
      .store (ne_sp_of_mem_free hblock.free)⟩

/-! ## §3 Pairs -/

/-- The sides of a pair are computed in the order that `leftFirst` decides. -/
theorem newPair_eq (fst snd : Expr) :
    newPair fst snd = (do
      let sides ← inOrder (leftFirst fst snd) fst.lower snd.lower
      let pair ← allocate (2 * slotWord)
      storeSide pair .fst sides.1
      storeSide pair .snd sides.2
      pure pair) := by
  rw [newPair, inOrder]
  cases leftFirst fst snd <;> simp

theorem storeSide_eq_ok {pair value : Register} {side : Side} {out : Lowered Unit}
    (h : (storeSide pair side value).run resources = .ok out) (h0 : W .r0) (hsp : pair ≠ .sp) :
    out.resources = { resources with pool := resources.pool.release value } ∧
      StraightCode W resources.frame.Shows out.code := by
  simp only [storeSide, run_bind_eq_ok, run_emit, run_release, Except.ok.injEq] at h
  obtain ⟨asked, _, hasked, ⟨_, _, rfl, ⟨_, _, rfl, rfl, rfl⟩, rfl⟩, rfl⟩ := h
  have hquiet := callMalloc_quiet (W := W) h0 hasked
  refine ⟨by simp [hquiet.unchanged], ?_⟩
  simpa using ⟨hquiet.code, .store (by decide), .store hsp⟩

end Lower

/-- While a pair is built, its sides are given back in the order of the sides, whichever was
computed first. -/
theorem FetchesBoth.release_both {W : Register → Prop} {resources : Resources}
    {out : Lowered (Register × Register)} (h : FetchesBoth W resources out) {pair : Register}
    (hpair : pair ∈ out.resources.pool.free) :
    ((out.resources.pool.hold pair).release out.value.1).release out.value.2 =
      resources.pool.hold pair := by
  -- The pool keeps its registers in the order they were taken. The pair's came last, below it the
  -- two sides in either order.
  have hheld := (RegisterPool.mem_free.1 hpair).2
  rcases h.holds with heq | heq
  · simp only [heq, Resources.pool_hold, RegisterPool.held_hold, List.mem_cons, not_or] at hheld ⊢
    obtain ⟨hsnd, hfst, _⟩ := hheld
    have herase : (pair :: out.value.2 :: out.value.1 :: resources.pool.held).erase out.value.1 =
        pair :: out.value.2 :: resources.pool.held := by
      rw [List.erase_cons_tail (by simpa using hfst),
        List.erase_cons_tail (by simpa using h.ne.symm), List.erase_cons_head]
    have herase' : (pair :: out.value.2 :: resources.pool.held).erase out.value.2 =
        pair :: resources.pool.held := by
      rw [List.erase_cons_tail (by simpa using hsnd), List.erase_cons_head]
    simp only [RegisterPool.hold, RegisterPool.release, herase, herase']
  · simp only [heq, Resources.pool_hold, RegisterPool.held_hold, List.mem_cons, not_or] at hheld ⊢
    obtain ⟨hfst, hsnd, _⟩ := hheld
    have herase : (pair :: out.value.1 :: out.value.2 :: resources.pool.held).erase out.value.1 =
        pair :: out.value.2 :: resources.pool.held := by
      rw [List.erase_cons_tail (by simpa using hfst), List.erase_cons_head]
    have herase' : (pair :: out.value.2 :: resources.pool.held).erase out.value.2 =
        pair :: resources.pool.held := by
      rw [List.erase_cons_tail (by simpa using hsnd), List.erase_cons_head]
    simp only [RegisterPool.hold, RegisterPool.release, herase, herase']

namespace Lower

variable {W : Register → Prop} {resources : Resources}

theorem newPair_fetches {fst snd : Expr} {out : Lowered Register}
    (h : (newPair fst snd).run resources = .ok out) (hW : Writable resources.pool W) :
    Fetches W resources out := by
  simp only [newPair_eq, run_bind_eq_ok, run_pure, Except.ok.injEq] at h
  obtain ⟨sides, _, hsides, ⟨pair, _, hpair, ⟨a, _, ha, ⟨b, _, hb, rfl, rfl⟩, rfl⟩, rfl⟩, rfl⟩ := h
  have hboth := inOrder_fetches hW fst.lower_fetches snd.lower_fetches hsides
  have hW' : Writable sides.resources.pool W := by
    rcases hboth.holds with heq | heq <;> rw [heq] <;> exact (hW.hold _).hold _
  have hblock := allocate_fetches hpair hW'
  -- The block is taken while both sides are in use, so its register was free at the start too.
  have hfree : pair.value ∈ resources.pool.free := by
    have hmem := hblock.free
    rcases hboth.holds with heq | heq <;> rw [heq] at hmem <;>
      exact (RegisterPool.mem_free_hold.1 (RegisterPool.mem_free_hold.1 hmem).1).1
  have hsp := ne_sp_of_mem_free hblock.free
  obtain ⟨haRes, haCode⟩ := storeSide_eq_ok ha hW.r0 hsp
  obtain ⟨hbRes, hbCode⟩ := storeSide_eq_ok hb hW.r0 hsp
  rw [hblock.holds] at haRes haCode
  rw [haRes] at hbRes hbCode
  -- Once both sides are stored only the pair's register is left in use.
  refine ⟨hfree, ?_, ?_⟩
  · have hrelease := hboth.release_both hblock.free
    rcases hboth.holds with heq | heq <;>
      simp only [hbRes, Resources.pool_hold, hrelease] <;> simp [heq, Resources.hold]
  · have hcode := hblock.code
    simp only [Resources.frame_hold, hboth.frame_eq] at hcode haCode hbCode
    simpa using ⟨hboth.code, hcode, haCode, hbCode⟩

/-! ## §4 Calls -/

/-- The type that decides how wide an argument is stored: its parameter's, or, for a surplus
argument, its own. -/
def argType (params : List Param) (arg : Expr) : Lower Ty :=
  match params with
  | param :: _ => pure param.ty
  | [] => typeOf arg

theorem pushArgs_cons (params : List Param) (arg : Expr) (args : List Expr) :
    pushArgs params (arg :: args) = (do
      pushArgs params.tail args
      let ty ← argType params arg
      let r ← arg.lower
      emit (.str ty.width r (.preIndexed .sp (-(slotBytes : Int))))
      release r
      modifyFrame (·.pushTemp slotBytes)) := by
  cases params <;> rfl

theorem argType_eq_ok {params : List Param} {arg : Expr} {out : Lowered Ty}
    (h : (argType params arg).run resources = .ok out) :
    out.resources = resources ∧ out.code = [] := by
  cases params with
  | nil =>
    simp only [argType, run_typeOf, run_ofExcept_eq_ok] at h
    obtain ⟨ty, _, rfl⟩ := h
    exact ⟨rfl, rfl⟩
  | cons param rest =>
    simp only [argType, run_pure, Except.ok.injEq] at h
    subst h
    exact ⟨rfl, rfl⟩

/-- Arguments are pushed one after the other; all that remains of them is the depth. -/
theorem pushArgs_eq_ok {params : List Param} {args : List Expr} {out : Lowered Unit}
    (h : (pushArgs params args).run resources = .ok out) (hW : Writable resources.pool W) :
    out.resources =
        { resources with frame := resources.frame.pushTemp (slotBytes * args.length : Nat) } ∧
      Pushes W resources.frame.ShowsPushed args.length out.code := by
  induction args generalizing params out with
  | nil =>
    simp only [pushArgs, run_pure, Except.ok.injEq] at h
    subst h
    exact ⟨by simp, .nil⟩
  | cons arg args ih =>
    simp only [pushArgs_cons, run_bind_eq_ok, run_emit, run_release, run_modifyFrame,
      Except.ok.injEq] at h
    obtain ⟨others, _, hothers, ⟨ty, _, hty, ⟨value, _, hvalue, ⟨_, _, rfl, ⟨_, _, rfl, rfl, rfl⟩,
      rfl⟩, rfl⟩, rfl⟩, rfl⟩ := h
    obtain ⟨hres, hpushes⟩ := ih hothers
    obtain ⟨htyRes, htyCode⟩ := argType_eq_ok hty
    rw [htyRes, hres] at hvalue
    -- The arguments behind this one are on the stack already, so it is computed that much deeper.
    have harg := arg.lower_fetches hvalue hW
    refine ⟨?_, ?_⟩
    · simp [harg.holds, Resources.hold, Frame.pushTemp_pushTemp, Int.mul_add]
    · simpa [htyCode] using Pushes.snoc hpushes harg.code

/-- What a call does after its arguments are pushed. -/
theorem callFunction_eq_ok {table : SymbolTable} {name : String} {args : List Expr}
    {out : Lowered Register} (h : (callFunction table name args).run resources = .ok out) :
    ∃ signature pushed, table.function? name = some signature ∧
      (pushArgs signature.params args).run resources = .ok pushed ∧
      pushed.resources.pool.free.head? = some out.value ∧
      out.resources = { pushed.resources with
        pool := (pushed.resources.pool.holdReturn.hold out.value).freeReturn
        frame := pushed.resources.frame.popTemp (slotBytes * args.length : Nat) } ∧
      out.code = pushed.code ++ [.instr (call (functionLabel name)),
        .unreserve (slotBytes * args.length), .instr (move out.value .r0)] := by
  unfold callFunction at h
  cases hfun : table.function? name with
  | none => simp [hfun] at h
  | some signature =>
    simp only [hfun, run_bind_eq_ok, run_emit, run_emitAll, run_modifyFrame, run_holdReturn,
      run_freeReturn, run_intoFresh_eq_ok, run_pure, Except.ok.injEq] at h
    obtain ⟨pushed, _, hpushed, ⟨_, _, rfl, ⟨_, _, rfl, ⟨_, _, rfl, ⟨_, _, rfl, ⟨_, _,
      ⟨r, hhead, rfl⟩, ⟨_, _, rfl, rfl, rfl⟩, rfl⟩, rfl⟩, rfl⟩, rfl⟩, rfl⟩, rfl⟩ := h
    exact ⟨signature, pushed, rfl, hpushed, hhead, rfl, rfl⟩

/-- A call takes one register, for its result. -/
theorem callFunction_brings {table : SymbolTable} {name : String} {args : List Expr}
    {out : Lowered Register} (h : (callFunction table name args).run resources = .ok out)
    (hW : Writable resources.pool W) (hlaid : resources.frame.Laid)
    (hreturn : resources.pool.returnHeld = false) :
    Brings W table.Knows resources out := by
  obtain ⟨signature, pushed, hfun, hpushed, hhead, hout, hcode⟩ := callFunction_eq_ok h
  obtain ⟨hres, hpushes⟩ := pushArgs_eq_ok hpushed hW
  have hfree : out.value ∈ resources.pool.free := by
    simp only [hres] at hhead
    exact List.mem_of_mem_head? hhead
  -- The depth returns to what it was before the arguments, and the mark of the return register to
  -- unused.
  refine ⟨hfree, ?_, ?_⟩
  · simp [hout, hres, Resources.hold, RegisterPool.hold, RegisterPool.holdReturn,
      RegisterPool.freeReturn, hreturn]
  · have hknown : table.Knows name := by simp [SymbolTable.Knows, hfun]
    have hmove : StraightCode W (InFrame resources.frame.depth) [.instr (move out.value .r0)] := by
      simpa using .mov (hW.free _ hfree)
    simpa [hcode] using (Structured.call hknown (hpushes.inFrame hlaid)).append_straight hmove

end Lower

/-! ## §5 Right sides -/

/-- A right side other than a call is straight code. -/
theorem Rhs.lower_fetches {W : Register → Prop} {table : SymbolTable} {target : Ty} {rhs : Rhs}
    {resources : Resources} {out : Lowered Register}
    (h : (rhs.lower table target).run resources = .ok out)
    (hcall : ∀ name args, rhs ≠ .call name args) (hW : Writable resources.pool W) :
    Fetches W resources out := by
  cases rhs with
  | expr e => exact e.lower_fetches h hW
  | array elems => exact arrayLiteral_fetches h hW
  | newPair fst snd => exact newPair_fetches h hW
  | side which pair =>
    simp only [Rhs.lower, run_bind_eq_ok, run_emit, run_pure, Except.ok.injEq] at h
    obtain ⟨address, _, haddress, ⟨_, _, rfl, rfl, rfl⟩, rfl⟩ := h
    have hside := sideAddress_fetches haddress hW
    refine ⟨hside.free, hside.holds, ?_⟩
    simpa using ⟨hside.code, .load (hW.free _ hside.free) (ne_sp_of_mem_free hside.free)⟩
  | call name args => exact absurd rfl (hcall name args)

/-- A right side takes one free register for its value and leaves all else as it was. -/
theorem Rhs.lower_brings {W : Register → Prop} {table : SymbolTable} {target : Ty} {rhs : Rhs}
    {resources : Resources} {out : Lowered Register}
    (h : (rhs.lower table target).run resources = .ok out) (hW : Writable resources.pool W)
    (hlaid : resources.frame.Laid) (hreturn : resources.pool.returnHeld = false) :
    Brings W table.Knows resources out := by
  cases rhs with
  | expr | array | newPair | side =>
    exact (Rhs.lower_fetches h (fun _ _ h => by cases h) hW).brings hlaid
  | call name args => exact callFunction_brings h hW hlaid hreturn

/-! ## §6 Targets -/

/-- A place next to the stack pointer is a variable's and takes nothing; a computed one takes
the register that holds its address. -/
inductive Finds (W : Register → Prop) (resources : Resources) : Lowered Place → Prop where
  | stack {offset : Int} (hslot : resources.frame.Shows offset) :
      Finds W resources { value := .stack offset, resources }
  | computed {out : Lowered Register} (hfetch : Fetches W resources out) :
      Finds W resources { out with value := .computed out.value }

theorem Target.place_finds {W : Register → Prop} {target : Target} {resources : Resources}
    {out : Lowered Place} (h : target.place.run resources = .ok out)
    (hW : Writable resources.pool W) : Finds W resources out := by
  cases target with
  | ident name =>
    simp only [Target.place, run_bind_eq_ok, run_lookup, run_ofExcept_eq_ok, run_pure,
      Except.ok.injEq] at h
    obtain ⟨_, _, ⟨⟨offset, ty⟩, hfind, rfl⟩, rfl, rfl⟩ := h
    exact .stack ⟨name, ty, hfind⟩
  | elem name indices =>
    simp only [Target.place, run_bind_eq_ok, run_pure, Except.ok.injEq] at h
    obtain ⟨address, _, haddress, rfl, rfl⟩ := h
    simpa using Finds.computed (elementAddress_fetches haddress hW)
  | side which pair =>
    simp only [Target.place, run_bind_eq_ok, run_pure, Except.ok.injEq] at h
    obtain ⟨address, _, haddress, rfl, rfl⟩ := h
    simpa using Finds.computed (sideAddress_fetches haddress hW)

/-- Giving back what a place takes up. -/
theorem Finds.release_eq_ok {W : Register → Prop} {resources : Resources} {place : Lowered Place}
    (h : Finds W resources place) {out : Lowered Unit}
    (hrun : place.value.release.run place.resources = .ok out) :
    out = { value := (), resources } := by
  cases h with
  | stack hslot =>
    simp only [Place.release, run_pure, Except.ok.injEq] at hrun
    exact hrun.symm
  | computed hfetch =>
    simp only [Place.release, run_release, Except.ok.injEq] at hrun
    rw [← hrun, hfetch.holds]
    simp [Resources.hold]

/-- A place can be stored to. -/
theorem Finds.store {W : Register → Prop} {resources : Resources} {place : Lowered Place}
    (h : Finds W resources place) (width : Width) (r : Register) :
    StraightCode W resources.frame.Shows
      (place.code ++ [.instr (.str width r place.value.address)]) := by
  cases h with
  | stack hslot => simpa using .storeSlot hslot
  | computed hfetch =>
    simpa using ⟨hfetch.code, .store (ne_sp_of_mem_free hfetch.free)⟩

/-- The address of a place is brought into a register, if it is not in one already. -/
theorem Finds.placeAddress_fetches {W : Register → Prop} {resources : Resources}
    {place : Lowered Place} (h : Finds W resources place) {out : Lowered Register}
    (hrun : (placeAddress place.value).run place.resources = .ok out)
    (hW : Writable resources.pool W) :
    Fetches W resources { out with code := place.code ++ out.code } := by
  cases h with
  | stack hslot =>
    have hfetch := intoFresh_fetches (fun r hr => .arith (hW.free r hr)) hrun
    exact ⟨hfetch.free, hfetch.holds, by simpa using hfetch.code⟩
  | computed hfetch =>
    simp only [placeAddress, run_pure, Except.ok.injEq] at hrun
    subst hrun
    exact ⟨hfetch.free, hfetch.holds, by simpa using hfetch.code⟩

end ArmCompiler
