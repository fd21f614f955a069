import ArmCompiler.Proofs.Mentions
import ArmCompiler.Proofs.StackDiscipline

/-!
# Touched Slots

Which places next to the stack pointer a piece of code loads, stores or takes the address of, and
how wide. Code that only computes touches exactly the slots of the variables that its expression
reads, in the order of evaluation, each at the place that the frame gives it.

## Contents
- §1: walking straight on
- §2: straight steps
- §3: expressions, right sides and targets
- §4: arguments
-/

namespace ArmCompiler

open Instruction Lower

/-! ## §1 Walking straight on -/

/-- By how much an instruction moves the stack pointer down, if control comes to it from the one
above and passes to the one below, and nowhere else. A call comes back. -/
def Instruction.straightMove? : Instruction → Option Int
  | .branch false .. | .label _ => none
  | i => i.stackMove?

theorem Instruction.stackMove?_of_straight {i : Instruction} {move : Int}
    (h : i.straightMove? = some move) : i.stackMove? = some move := by
  unfold straightMove? at h
  split at h
  · cases h
  · cases h
  · exact h

/-- Goes through code in a straight line, from a given stack pointer. Gives the stack pointer at the
end and what was touched on the way, by absolute address. -/
def walk (sp : Int) : List Instruction → Option (Int × List (Touch × Int))
  | [] => some (sp, [])
  | i :: rest => do
    let move ← i.straightMove?
    let (last, touched) ← walk (sp - move) rest
    some (last, (i.touch?.map fun (touch, offset) => (touch, sp - move + offset)).toList ++ touched)

/-- Walks can be put together. -/
theorem walk_append {sp mid last : Int} {a b : List Instruction}
    {touched touched' : List (Touch × Int)}
    (ha : walk sp a = some (mid, touched)) (hb : walk mid b = some (last, touched')) :
    walk sp (a ++ b) = some (last, touched ++ touched') := by
  induction a generalizing sp touched with
  | nil =>
    obtain ⟨rfl, rfl⟩ : sp = mid ∧ [] = touched := by simpa [walk] using ha
    exact hb
  | cons i rest ih =>
    simp only [walk, Option.bind_eq_bind, Option.bind_eq_some_iff, Option.some.injEq,
      Prod.mk.injEq, Prod.exists] at ha
    obtain ⟨move, hmove, last', others, hrest, rfl, rfl⟩ := ha
    simp [walk, hmove, ih hrest]

/-- Giving stack space back, piece by piece, touches nothing. -/
theorem walk_unreserve (sp : Int) (limit bytes : Nat) :
    walk sp (adjustStack .add limit bytes) = some (sp + bytes, []) := by
  have hsteps (steps : List Nat) (sp : Int) :
      walk sp (steps.map fun (step : Nat) => .op .add .sp .sp (.imm step)) =
        some (sp + (steps.sum : Nat), []) := by
    induction steps generalizing sp with
    | nil => simp [walk]
    | cons step rest ih =>
      have hmove : (Instruction.op .add .sp .sp (.imm step)).straightMove? =
          some (-(step : Int)) := rfl
      have htouch : (Instruction.op .add .sp .sp (.imm step)).touch? = none := rfl
      simp [walk, hmove, htouch, ih, Int.add_assoc]
  have hall := hsteps (chunks limit bytes) sp
  rwa [sum_chunks] at hall

/-! ## §2 Straight steps -/

/-- No library function is named like a user function. -/
theorem functionLabel_ne_library {name other : String} (h : other ∈ libraryFunctions) :
    other ≠ functionLabel name := by
  rintro rfl
  have hchars : ∀ text ∈ libraryFunctions, text.toList.take 2 ≠ ['f', '_'] := by decide
  exact hchars _ h (by simp [functionLabel, String.toList_append])

/-- A straight step is one instruction that stays where it is and calls no user function. -/
theorem Straight.plain_eq {S : Int → Prop} {p : Pseudo} (h : Straight Harmless S p) (limit : Nat)
    (message : String → String) :
    ∃ i, p.plain limit message = [i] ∧ i.straightMove? = some 0 ∧ i.touch? = p.touch? ∧
      ∀ name, i ≠ call (functionLabel name) := by
  have hmove {i : Instruction} (hwritten : ∀ r ∈ i.written, Harmless r)
      (hstraight : i.straightMove? = i.stackMove?) : i.straightMove? = some 0 :=
    hstraight.trans (stackMove?_of_harmless hwritten)
  have hsingle {r : Register} (hr : Harmless r) : ∀ s ∈ [r], Harmless s := by simpa using hr
  cases h with
  | constant hr | mov hr | text hr | arith hr | loadSlot hr | load hr =>
    exact ⟨_, rfl, hmove (hsingle hr) rfl, rfl, fun _ h => by cases h⟩
  | storeSlot | store | cmp =>
    exact ⟨_, rfl, hmove (fun _ h => by cases h) rfl, rfl,
      fun _ h => by cases h⟩
  | smull hlo hhi =>
    refine ⟨_, rfl, hmove ?_ rfl, rfl, fun _ h => by cases h⟩
    simpa [written] using ⟨hlo, hhi⟩
  | @routine cond r =>
    refine ⟨_, rfl, hmove (hsingle ⟨by decide, by decide⟩) rfl, rfl, ?_⟩
    intro name h
    exact r.label_ne_functionLabel name (Instruction.branch.inj h).2.2
  | @library other hname =>
    refine ⟨_, rfl, hmove (hsingle ⟨by decide, by decide⟩) rfl, rfl, ?_⟩
    intro name h
    exact functionLabel_ne_library hname (Instruction.branch.inj h).2.2

/-- Straight code is walked through without moving the stack pointer. -/
theorem StraightCode.walk_eq {S : Int → Prop} {code : List Pseudo}
    (h : StraightCode Harmless S code) (limit : Nat) (message : String → String) (sp : Int) :
    walk sp (code.flatMap (·.plain limit message)) =
      some (sp, (touchesOf code).map fun (touch, offset) => (touch, sp + offset)) := by
  induction code with
  | nil => rfl
  | cons p rest ih =>
    rw [StraightCode.cons_iff] at h
    obtain ⟨i, hplain, hmove, htouch, _⟩ := h.1.plain_eq limit message
    have hone : walk sp [i] =
        some (sp, p.touch?.toList.map fun (touch, offset) => (touch, sp + offset)) := by
      cases hp : p.touch? <;> simp [walk, hmove, htouch, hp]
    rw [List.flatMap_cons, hplain, walk_append hone (ih h.2), touchesOf_cons, List.map_append]

/-! ## §3 Expressions, right sides and targets -/

mutual

/-- The slots that evaluating an expression reads, in order. An array variable is read as a word,
the address of the array. -/
def Expr.reads (frame : Frame) : Expr → List (Touch × Int)
  | .int .. | .bool .. | .char .. | .str .. | .null .. => []
  | .ident _ name => frame.touched name fun ty => .load ty.width
  | .elem _ name indices => frame.touched name (fun _ => .load .word) ++ readsAll frame indices
  | .unary _ _ operand => operand.reads frame
  | .binary _ _ lhs rhs =>
    if leftFirst lhs rhs then lhs.reads frame ++ rhs.reads frame
    else rhs.reads frame ++ lhs.reads frame

def readsAll (frame : Frame) : List Expr → List (Touch × Int)
  | [] => []
  | e :: rest => e.reads frame ++ readsAll frame rest

end

/-- The slots that evaluating a right side reads, in order, if it is not a call. -/
def Rhs.reads (frame : Frame) : Rhs → List (Touch × Int)
  | .expr e | .side _ e => e.reads frame
  | .array elems => readsAll frame elems
  | .newPair fst snd =>
    if leftFirst fst snd then fst.reads frame ++ snd.reads frame
    else snd.reads frame ++ fst.reads frame
  | .call _ _ => []

/-- The slots that finding the place of a target reads, in order. -/
def Target.reads (frame : Frame) : Target → List (Touch × Int)
  | .ident _ => []
  | .elem name indices => frame.touched name (fun _ => .load .word) ++ readsAll frame indices
  | .side _ pair => pair.reads frame

/-- The touch in a mention, if it is one of a slot. -/
def Mention.touch? : Mention → Option (Touch × Int)
  | .slot touch distance => some (touch, distance)
  | .label _ | .text _ | .far _ | .number _ => none

section Touched

variable {frame : Frame}

@[simp] theorem Mention.touches_slots (touches : List (Touch × Int)) :
    (Mention.slots touches).filterMap Mention.touch? = touches := by
  simp [slots, List.filterMap_map, Function.comp_def, touch?]

@[simp] theorem Mention.touches_ofDistance (distance : Int) :
    (Mention.ofDistance distance).filterMap Mention.touch? = [] := by
  unfold ofDistance
  split <;> rfl

@[simp] theorem Mention.touches_ofNumber (value : Int) :
    (Mention.ofNumber value).filterMap Mention.touch? = [] := by
  unfold ofNumber
  split <;> rfl

theorem Pseudo.touches_mentions (p : Pseudo) :
    p.mentions.filterMap Mention.touch? = p.touch?.toList := by
  cases p with
  | instr i =>
    have hnumbers : i.numbers.filterMap Mention.touch? = [] := by
      unfold numbers
      split <;> try split
      all_goals simp
    have hlabels : (i.loads?.toList.map Mention.label).filterMap Mention.touch? = [] := by
      cases i.loads? <;> rfl
    simp [mentions, Instruction.mentions, hnumbers, hlabels, touch?]
  | routine | message | reserve | unreserve => rfl

/-- What code touches is part of what it mentions. -/
theorem touchesOf_eq (code : List Pseudo) :
    touchesOf code = (mentionsOf code).filterMap Mention.touch? := by
  induction code with
  | nil => rfl
  | cons p rest ih =>
    rw [touchesOf_cons, ih, mentionsOf, mentionsOf, List.flatMap_cons, List.filterMap_append,
      p.touches_mentions]

mutual

theorem Expr.touches_mentions : (e : Expr) →
    (e.mentions frame).filterMap Mention.touch? = e.reads frame
  | .int .. | .bool .. | .str .. | .null .. => rfl
  | .char .. => Mention.touches_ofNumber _
  | .ident .. => Mention.touches_slots _
  | .elem _ name indices => by
    simp [Expr.mentions, Expr.reads, touches_mentionsAll indices]
  | .unary _ _ operand => operand.touches_mentions
  | .binary _ _ lhs rhs => by
    simp only [Expr.mentions, Expr.reads]
    split <;> simp [lhs.touches_mentions, rhs.touches_mentions]

theorem touches_mentionsAll : (es : List Expr) →
    (mentionsAll frame es).filterMap Mention.touch? = readsAll frame es
  | [] => rfl
  | e :: rest => by simp [mentionsAll, readsAll, e.touches_mentions, touches_mentionsAll rest]

end

theorem touches_elementMentions (size index : Nat) (elems : List Expr) :
    (elementMentions frame size index elems).filterMap Mention.touch? = readsAll frame elems := by
  induction elems generalizing index with
  | nil => rfl
  | cons elem rest ih => simp [elementMentions, readsAll, elem.touches_mentions, ih]

theorem Rhs.touches_mentions {rhs : Rhs} (hcall : ∀ name args, rhs ≠ .call name args)
    (table : SymbolTable) (target : Ty) :
    (rhs.mentions table frame target).filterMap Mention.touch? = rhs.reads frame := by
  cases rhs with
  | expr e | side _ e => exact e.touches_mentions
  | array elems => exact touches_elementMentions _ 0 elems
  | newPair fst snd =>
    simp only [mentions, reads]
    split <;> simp [fst.touches_mentions, snd.touches_mentions]
  | call name args => exact absurd rfl (hcall name args)

theorem Target.touches_mentions (target : Target) :
    (target.mentions frame).filterMap Mention.touch? = target.reads frame := by
  cases target with
  | ident name => rfl
  | elem name indices => simp [mentions, reads, touches_mentionsAll indices]
  | side which pair => exact pair.touches_mentions

end Touched

section Runs

variable {resources : Resources}

theorem Lower.Mentions.touches {α : Type} {step : Lower α} {last : Frame} {out : Lowered α}
    {mentions : List Mention} (h : step.Mentions resources.frame mentions last)
    (hrun : step.run resources = .ok out) :
    touchesOf out.code = mentions.filterMap Mention.touch? := by
  rw [touchesOf_eq, (h resources out rfl hrun).2]

/-- Evaluating an expression touches the slots that it reads, in order. -/
theorem Expr.lower_touches (e : Expr) {out : Lowered Register}
    (h : e.lower.run resources = .ok out) : touchesOf out.code = e.reads resources.frame := by
  rw [(e.lower_mentions _).touches h, e.touches_mentions]

/-- Evaluating a right side other than a call touches the slots that it reads, in order. -/
theorem Rhs.lower_touches {table : SymbolTable} {target : Ty} {rhs : Rhs}
    {out : Lowered Register} (h : (rhs.lower table target).run resources = .ok out)
    (hcall : ∀ name args, rhs ≠ .call name args) :
    touchesOf out.code = rhs.reads resources.frame := by
  rw [(rhs.lower_mentions table target _).touches h, Rhs.touches_mentions hcall]

/-- Finding the place of a target touches the slots that this reads, in order. -/
theorem Target.place_touches {target : Target} {out : Lowered Place}
    (h : target.place.run resources = .ok out) :
    touchesOf out.code = target.reads resources.frame := by
  rw [(target.place_mentions _).touches h, target.touches_mentions]

namespace Lower

theorem touches_testCondition {cond : Expr} {value : Int} {out : Lowered Unit}
    (h : (testCondition cond value).run resources = .ok out) :
    touchesOf out.code = cond.reads resources.frame := by
  simp only [testCondition, run_bind_eq_ok, run_emit, run_release, Except.ok.injEq] at h
  obtain ⟨first, _, hfirst, ⟨_, _, rfl, rfl, rfl⟩, rfl⟩ := h
  have hcmp (r : Register) : (Instruction.cmp r (.imm value)).touch? = none := rfl
  simp [cond.lower_touches hfirst, Pseudo.touch?, hcmp]

theorem touches_passTo {e : Expr} {routine : Routine} {out : Lowered Unit}
    (h : (do
      let r ← e.lower
      emit (move .r0 r)
      release r
      callRoutine routine).run resources = .ok out) :
    touchesOf out.code = e.reads resources.frame := by
  rw [(passTo_mentions e routine).touches h, e.touches_mentions]

theorem touches_printValue {e : Expr} {out : Lowered Unit}
    (h : (printValue e).run resources = .ok out) :
    touchesOf out.code = e.reads resources.frame := by
  rw [(printValue_mentions e).touches h, e.touches_mentions]

end Lower

end Runs

/-! ## §4 Arguments -/

theorem Frame.touched_pushTemp (frame : Frame) (bytes : Int) (name : String) (touch : Ty → Touch) :
    (frame.pushTemp bytes).touched name touch =
      (frame.touched name touch).map fun (touch, offset) => (touch, offset + bytes) := by
  unfold touched
  rw [local?_pushTemp]
  cases frame.local? name with
  | none => rfl
  | some l =>
    have hoffset : (frame.pushTemp bytes).offset l = frame.offset l + bytes := by
      simp only [offset, pushTemp]
      omega
    simp [hoffset]

mutual

/-- Pushed bytes move all variables away from the stack pointer. -/
theorem Expr.reads_pushTemp (frame : Frame) (bytes : Int) : (e : Expr) →
    e.reads (frame.pushTemp bytes) =
      (e.reads frame).map fun (touch, offset) => (touch, offset + bytes)
  | .int .. | .bool .. | .char .. | .str .. | .null .. => rfl
  | .ident _ name => frame.touched_pushTemp bytes name _
  | .elem _ name indices => by
    simp only [Expr.reads, frame.touched_pushTemp, readsAll_pushTemp frame bytes indices,
      List.map_append]
  | .unary _ _ operand => operand.reads_pushTemp frame bytes
  | .binary _ _ lhs rhs => by
    simp only [Expr.reads, lhs.reads_pushTemp frame bytes, rhs.reads_pushTemp frame bytes]
    split <;> simp

theorem readsAll_pushTemp (frame : Frame) (bytes : Int) : (es : List Expr) →
    readsAll (frame.pushTemp bytes) es =
      (readsAll frame es).map fun (touch, offset) => (touch, offset + bytes)
  | [] => rfl
  | e :: rest => by
    simp only [readsAll, e.reads_pushTemp frame bytes, readsAll_pushTemp frame bytes rest,
      List.map_append]

end

/-- Where one of a number of arguments lies, for a call that is made with a given stack pointer:
below it, the last one highest. -/
def argumentAddress (sp : Int) (count index : Nat) : Int := sp - slotBytes * ((count : Int) - index)

/-- What a call touches while its arguments are pushed, by absolute address, if it is made from a
frame with a given stack pointer: from the last argument to the first, the slots that the argument
reads, and then the place of the argument itself. -/
def argumentTouches (frame : Frame) (sp : Int) (params : List Param) (args : List Expr) :
    List (Touch × Int) :=
  (params.zip args).zipIdx.reverse.flatMap fun ((param, arg), i) =>
    (arg.reads frame).map (fun (touch, offset) => (touch, sp + offset)) ++
      [(.store param.ty.width, argumentAddress sp params.length i)]

/-- The first argument is pushed last. -/
theorem argumentTouches_cons (frame : Frame) (sp : Int) (param : Param) (params : List Param)
    (arg : Expr) (args : List Expr) :
    argumentTouches frame sp (param :: params) (arg :: args) =
      argumentTouches frame sp params args ++
        ((arg.reads frame).map (fun (touch, offset) => (touch, sp + offset)) ++
          [(.store param.ty.width, argumentAddress sp (params.length + 1) 0)]) := by
  have hindex (i : Nat) :
      argumentAddress sp (params.length + 1) (i + 1) = argumentAddress sp params.length i := by
    simp [argumentAddress]
  simp [argumentTouches, List.zipIdx_cons, List.zipIdx_succ, List.flatMap_append,
    ← List.map_reverse, List.flatMap_map, hindex]

/-- Pushing arguments goes straight on, down by a slot for each argument, and touches what it
should. -/
theorem Lower.walk_pushArgs {params : List Param} {args : List Expr} {resources : Resources}
    {out : Lowered Unit} (h : (pushArgs params args).run resources = .ok out)
    (hlength : args.length = params.length) (hW : Writable resources.pool Harmless)
    (limit : Nat) (message : String → String) (sp : Int) :
    walk sp (out.code.flatMap (·.plain limit message)) =
      some (sp - slotBytes * params.length, argumentTouches resources.frame sp params args) := by
  induction args generalizing params out with
  | nil =>
    obtain rfl := List.eq_nil_of_length_eq_zero hlength.symm
    simp only [pushArgs, run_pure, Except.ok.injEq] at h
    subst h
    simp [walk, argumentTouches]
  | cons arg args ih =>
    obtain _ | ⟨param, params⟩ := params
    · cases hlength
    simp only [pushArgs_cons, run_bind_eq_ok, run_emit, run_release, run_modifyFrame,
      Except.ok.injEq, argType, run_pure] at h
    obtain ⟨others, _, hothers, ⟨_, _, rfl, ⟨value, _, hvalue, ⟨_, _, rfl, ⟨_, _, rfl, rfl, rfl⟩,
      rfl⟩, rfl⟩, rfl⟩, rfl⟩ := h
    have hlength' : args.length = params.length := Nat.succ.inj hlength
    obtain ⟨hres, _⟩ := pushArgs_eq_ok hothers hW
    rw [hres] at hvalue
    -- Seen from the lower stack pointer, the slots are as much further up.
    have hvalueWalk := (arg.lower_fetches hvalue hW).code.walk_eq limit message
      (sp - slotBytes * params.length)
    rw [arg.lower_touches hvalue, Expr.reads_pushTemp] at hvalueWalk
    have hpush : walk (sp - slotBytes * params.length)
        [.str param.ty.width value.value (.preIndexed .sp (-(slotBytes : Int)))] =
        some (sp - slotBytes * (params.length + 1),
          [(.store param.ty.width, argumentAddress sp (params.length + 1) 0)]) := by
      simp only [walk, straightMove?, stackMove?, touch?, slotBytes, argumentAddress]
      simp
      omega
    have hall := walk_append (ih hothers hlength') (walk_append hvalueWalk hpush)
    rw [argumentTouches_cons]
    simpa [List.flatMap_append, Pseudo.plain, hlength', Function.comp_def] using hall

end ArmCompiler
