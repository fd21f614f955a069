import ArmCompiler.Proofs.Labels
import ArmCompiler.Proofs.Outcomes

/-!
# What Code Mentions

Apart from registers, labels and operations, the code of a statement *mentions* slots next to the
stack pointer, texts, and numbers that may be too large for an instruction. All of it can be read
off the statement and the frame it is lowered in. Main statement: `Stmt.lower_mentions`.

Which texts code loads, which slots it touches and which distances it has to hold are parts of what
it mentions, so the lowering functions are gone through here for all of them.

## Contents
- §1: touches
- §2: mentions in code
- §3: mentions in the source
- §4: steps and what their code mentions
- §5: expressions
- §6: right sides and targets
- §7: statements
-/

namespace ArmCompiler

open Instruction Lower

/-! ## §1 Touches -/

/-- What an instruction does with a place next to the stack pointer. -/
inductive Touch where
  | load (width : Width)
  | store (width : Width)
  /-- The place is handed on by its address. -/
  | address
  deriving DecidableEq, Repr

/-- What an instruction touches next to the stack pointer, and where, seen from where the stack
pointer is afterwards. -/
def Instruction.touch? : Instruction → Option (Touch × Int)
  | .ldr _ width _ (.offset .sp displacement) => some (.load width, displacement)
  | .ldr _ width _ (.preIndexed .sp _) => some (.load width, 0)
  | .str width _ (.offset .sp displacement) => some (.store width, displacement)
  | .str width _ (.preIndexed .sp _) => some (.store width, 0)
  | .arith .add _ dst .sp (.imm displacement) =>
    if dst = .sp then none else some (.address, displacement)
  | _ => none

/-- What a step touches, if it stands for a single instruction. -/
def Pseudo.touch? : Pseudo → Option (Touch × Int)
  | .instr i => i.touch?
  | .routine .. | .message .. | .reserve _ | .unreserve _ => none

/-- What code touches, in order. -/
def touchesOf (code : List Pseudo) : List (Touch × Int) := code.filterMap (·.touch?)

@[simp] theorem touchesOf_nil : touchesOf [] = [] := rfl

@[simp] theorem touchesOf_append (a b : List Pseudo) :
    touchesOf (a ++ b) = touchesOf a ++ touchesOf b :=
  List.filterMap_append

@[simp] theorem touchesOf_cons (p : Pseudo) (rest : List Pseudo) :
    touchesOf (p :: rest) = p.touch?.toList ++ touchesOf rest := by
  unfold touchesOf
  cases h : p.touch? <;> simp [h]

section Elsewhere

variable {base lhs dst src : Register} {width : Width} {offset : Int}

/-- Only what goes by the stack pointer touches a slot. -/
theorem touch?_ldr_of_ne {cond : Option Condition} (h : base ≠ .sp) :
    (Instruction.ldr cond width dst (.offset base offset)).touch? = none := by
  cases base <;> first | exact absurd rfl h | rfl

theorem touch?_str_of_ne (h : base ≠ .sp) :
    (Instruction.str width src (.offset base offset)).touch? = none := by
  cases base <;> first | exact absurd rfl h | rfl

theorem touch?_arith_of_ne {op : ArithOp} {setFlags : Bool} {rhs : Operand} (h : lhs ≠ .sp) :
    (Instruction.arith op setFlags dst lhs rhs).touch? = none := by
  unfold touch?
  split <;> simp_all

end Elsewhere

/-- The touch of a variable's slot, if the frame has one. -/
def Frame.touched (frame : Frame) (name : String) (touch : Ty → Touch) : List (Touch × Int) :=
  ((frame.local? name).map fun l => (touch l.ty, frame.offset l)).toList

/-- A variable that is found is touched once, at its distance. -/
theorem Frame.touched_of_find {frame : Frame} {name : String} {offset : Int} {ty : Ty}
    (h : frame.find name = .ok (offset, ty)) (touch : Ty → Touch) :
    frame.touched name touch = [(touch ty, offset)] := by
  obtain ⟨l, hl, rfl, rfl⟩ := Frame.find_eq_ok.1 h
  simp [touched, hl]

/-! ## §2 Mentions in code -/

/-- What an instruction may mention. -/
inductive Mention where
  /-- A place next to the stack pointer. -/
  | slot (touch : Touch) (distance : Int)
  /-- A label whose address is loaded. -/
  | label (name : String)
  /-- A text whose address is loaded. -/
  | text (text : String)
  /-- A distance from another register that no load or store can hold. -/
  | far (distance : Int)
  /-- A number that is no byte. -/
  | number (value : Int)
  deriving DecidableEq, Repr

namespace Mention

def slots (touches : List (Touch × Int)) : List Mention :=
  touches.map fun (touch, distance) => .slot touch distance

def ofDistance (distance : Int) : List Mention :=
  if -4095 ≤ distance ∧ distance ≤ 4095 then [] else [.far distance]

def ofNumber (value : Int) : List Mention :=
  if 0 ≤ value ∧ value < 256 then [] else [.number value]

@[simp] theorem slots_nil : slots [] = [] := rfl

@[simp] theorem slots_append (a b : List (Touch × Int)) : slots (a ++ b) = slots a ++ slots b :=
  List.map_append

end Mention

/-- The numbers in an instruction that are large, but for distances from the stack pointer. -/
def Instruction.numbers : Instruction → List Mention
  | .mov _ _ (.imm value) | .cmp _ (.imm value) => Mention.ofNumber value
  | .arith op _ dst lhs (.imm value) =>
    if op = .add ∧ lhs = .sp ∧ dst ≠ .sp then [] else Mention.ofNumber value
  | .ldr _ _ _ (.offset base distance) | .str _ _ (.offset base distance) =>
    if base = .sp then [] else Mention.ofDistance distance
  | .ldr _ _ _ (.preIndexed _ distance) | .str _ _ (.preIndexed _ distance) =>
    Mention.ofDistance distance
  | _ => []

/-- What an instruction mentions. -/
def Instruction.mentions (i : Instruction) : List Mention :=
  Mention.slots i.touch?.toList ++ (i.loads?.toList.map .label ++ i.numbers)

/-- What a step mentions. -/
def Pseudo.mentions : Pseudo → List Mention
  | .instr i => i.mentions
  | .message _ text => [.text text]
  | .routine .. | .reserve _ | .unreserve _ => []

/-- What code mentions, in order. -/
def mentionsOf (code : List Pseudo) : List Mention := code.flatMap (·.mentions)

namespace Instruction

variable {base lhs dst src : Register} {width : Width} {distance value : Int}

theorem mentions_cmp_imm :
    (Instruction.cmp lhs (.imm value)).mentions = Mention.ofNumber value := by
  simp [mentions, touch?, loads?, numbers]

theorem mentions_mov_imm {cond : Option Condition} :
    (Instruction.mov cond dst (.imm value)).mentions = Mention.ofNumber value := by
  simp [mentions, touch?, loads?, numbers]

theorem mentions_ldr_of_ne {cond : Option Condition} (h : base ≠ .sp) :
    (Instruction.ldr cond width dst (.offset base distance)).mentions =
      Mention.ofDistance distance := by
  simp [mentions, touch?_ldr_of_ne h, loads?, numbers, h]

theorem mentions_str_of_ne (h : base ≠ .sp) :
    (Instruction.str width src (.offset base distance)).mentions = Mention.ofDistance distance := by
  simp [mentions, touch?_str_of_ne h, loads?, numbers, h]

theorem mentions_arith_of_ne {op : ArithOp} {setFlags : Bool} (h : lhs ≠ .sp) (rhs : Operand) :
    (Instruction.arith op setFlags dst lhs rhs).mentions =
      match rhs with
      | .imm value => Mention.ofNumber value
      | .reg _ | .shifted _ _ => [] := by
  cases rhs <;> simp [mentions, touch?_arith_of_ne h, loads?, numbers, h]

end Instruction

/-! ## §3 Mentions in the source -/

mutual

/-- What the code of an expression mentions. -/
def Expr.mentions (frame : Frame) : Expr → List Mention
  | .int .. | .bool .. | .null .. => []
  | .char _ value => Mention.ofNumber value.toNat
  | .str _ raw => [.text (Escape.decode raw)]
  | .ident _ name => Mention.slots (frame.touched name fun ty => .load ty.width)
  | .elem _ name indices =>
    Mention.slots (frame.touched name fun _ => .load .word) ++ mentionsAll frame indices
  | .unary _ _ operand => operand.mentions frame
  | .binary _ _ lhs rhs =>
    if leftFirst lhs rhs then lhs.mentions frame ++ rhs.mentions frame
    else rhs.mentions frame ++ lhs.mentions frame

def mentionsAll (frame : Frame) : List Expr → List Mention
  | [] => []
  | e :: rest => e.mentions frame ++ mentionsAll frame rest

end

/-- The type of what a target stores, as far as the frame tells. -/
def Target.heldType (frame : Frame) (target : Target) : Ty :=
  (target.typeIn frame).toOption.getD .invalid

/-- How large the elements of an array literal are that is stored in a place of type `target`. -/
def literalSize (frame : Frame) (target : Ty) (elems : List Expr) : Nat :=
  if target.element.isValid && !target.element.isAny then target.element.size
  else match elems with
    | first :: _ => ((first.typeIn frame).toOption.getD .int).size
    | [] => Ty.int.size

/-- What building an array from elements mentions, the first at a place `index` of the array. -/
def elementMentions (frame : Frame) (size : Nat) (index : Nat) : List Expr → List Mention
  | [] => []
  | elem :: rest =>
    elem.mentions frame ++ (Mention.ofDistance (elementOffset size index).toInt ++
      elementMentions frame size (index + 1) rest)

/-- The type that an argument is passed with, as far as the frame tells. -/
def passedType (frame : Frame) (params : List Param) (arg : Expr) : Ty :=
  match params with
  | param :: _ => param.ty
  | [] => (arg.typeIn frame).toOption.getD .invalid

/-- What pushing arguments mentions, from the last to the first. Those that are pushed already have
moved the stack pointer away. -/
def argumentMentions (frame : Frame) : List Param → List Expr → List Mention
  | _, [] => []
  | params, arg :: args =>
    let below := frame.pushTemp (slotBytes * args.length : Nat)
    argumentMentions frame params.tail args ++
      (arg.mentions below ++ [.slot (.store (passedType below params arg).width) 0])

def Rhs.mentions (table : SymbolTable) (frame : Frame) (target : Ty) : Rhs → List Mention
  | .expr e | .side _ e => e.mentions frame
  | .array elems => elementMentions frame (literalSize frame target elems) 0 elems
  | .newPair fst snd =>
    if leftFirst fst snd then fst.mentions frame ++ snd.mentions frame
    else snd.mentions frame ++ fst.mentions frame
  | .call name args => argumentMentions frame (table.params name) args

/-- What finding the place of a target mentions. -/
def Target.mentions (frame : Frame) : Target → List Mention
  | .ident _ => []
  | .elem name indices =>
    Mention.slots (frame.touched name fun _ => .load .word) ++ mentionsAll frame indices
  | .side _ pair => pair.mentions frame

/-- The touch of a target that is a variable. -/
def Target.touched (frame : Frame) (touch : Ty → Touch) : Target → List (Touch × Int)
  | .ident name => frame.touched name touch
  | .elem .. | .side .. => []

/-- The frame with one more variable, if there is room for it. -/
def Frame.declared (frame : Frame) (name : String) (ty : Ty) : Frame :=
  match frame.declare name ty with
  | .ok (_, frame') => frame'
  | .error _ => frame

/-- The frame after a statement. -/
def Stmt.frameAfter (frame : Frame) : Stmt → Frame
  | .declare _ ty name _ => frame.declared name ty
  | .seq _ first second => second.frameAfter (first.frameAfter frame)
  | _ => frame

/-- What the code of a statement mentions. -/
def Stmt.mentions (table : SymbolTable) (frame : Frame) : Stmt → List Mention
  | .skip _ => []
  | .declare _ ty name rhs =>
    rhs.mentions table frame ty ++
      Mention.slots ((frame.declared name ty).touched name fun ty => .store ty.width)
  | .assign _ target rhs =>
    rhs.mentions table frame (target.heldType frame) ++ (target.mentions frame ++
      Mention.slots (target.touched frame fun ty => .store ty.width))
  | .increment _ name =>
    Mention.slots (frame.touched name (fun _ => .load .word) ++
      frame.touched name fun _ => .store .word)
  | .read _ target =>
    target.mentions frame ++ Mention.slots (target.touched frame fun _ => .address)
  | .free _ e | .ret _ e | .exit _ e | .print _ e | .println _ e => e.mentions frame
  | .ifThen _ cond body =>
    cond.mentions frame ++ body.mentions table (frame.openScope body.slots)
  | .ifElse _ cond thenArm elseArm =>
    cond.mentions frame ++ (thenArm.mentions table (frame.openScope thenArm.slots) ++
      elseArm.mentions table (frame.openScope elseArm.slots))
  | .whileDo _ cond body | .doWhile _ body cond =>
    body.mentions table (frame.openScope body.slots) ++ cond.mentions frame
  | .forLoop _ init cond step body =>
    let inner := init.frameAfter (frame.openScope init.slots)
    init.mentions table (frame.openScope init.slots) ++
      (body.mentions table (inner.openScope body.slots) ++
        (step.mentions table inner ++ cond.mentions (step.frameAfter inner)))
  | .block _ body => body.mentions table (frame.openScope body.slots)
  | .seq _ first second =>
    first.mentions table frame ++ second.mentions table (first.frameAfter frame)

/-! ## §4 Steps and what their code mentions -/

namespace Lower

variable {α β : Type}

/-- A step in a frame gives a value. -/
def Gives (step : Lower α) (frame : Frame) (a : α) : Prop :=
  ∃ resources out, resources.frame = frame ∧ step.run resources = .ok out ∧ out.value = a

/-- A step that leads from one frame to another. Its code mentions the given things only. -/
def Mentions (step : Lower α) (start : Frame) (mentions : List Mention) (last : Frame) : Prop :=
  ∀ (resources : Resources) (out : Lowered α), resources.frame = start →
    step.run resources = .ok out → out.resources.frame = last ∧ mentionsOf out.code = mentions

theorem Gives.pure {frame : Frame} {a b : α} (h : (Pure.pure a : Lower α).Gives frame b) :
    b = a := by
  obtain ⟨resources, out, -, hrun, rfl⟩ := h
  cases hrun
  rfl

theorem Gives.getFrame {frame a : Frame} (h : Lower.getFrame.Gives frame a) : a = frame := by
  obtain ⟨resources, out, rfl, hrun, rfl⟩ := h
  cases hrun
  rfl

theorem Gives.ofExcept {x : Except CompileError α} {frame : Frame} {a : α}
    (h : (Lower.ofExcept x).Gives frame a) : x = .ok a := by
  obtain ⟨resources, out, -, hrun, rfl⟩ := h
  obtain ⟨a, rfl, rfl⟩ := run_ofExcept_eq_ok.1 hrun
  rfl

theorem Gives.lookup {name : String} {frame : Frame} {found : Int × Ty}
    (h : (Lower.lookup name).Gives frame found) : frame.find name = .ok found := by
  obtain ⟨resources, out, rfl, hrun, rfl⟩ := h
  rw [run_lookup] at hrun
  obtain ⟨found, hfind, rfl⟩ := run_ofExcept_eq_ok.1 hrun
  exact hfind

theorem Gives.typeOf {e : Expr} {frame : Frame} {ty : Ty} (h : (Lower.typeOf e).Gives frame ty) :
    e.typeIn frame = .ok ty := by
  obtain ⟨resources, out, rfl, hrun, rfl⟩ := h
  rw [run_typeOf] at hrun
  obtain ⟨ty, hty, rfl⟩ := run_ofExcept_eq_ok.1 hrun
  exact hty

/-- What is taken from the pool is not the stack pointer. -/
theorem Gives.ne_sp {step : Lower α} {frame : Frame} {a : α} {r : α → Register}
    (h : step.Gives frame a)
    (htakes : ∀ start, step.Ends start fun a after => start.Took (r a) after) : r a ≠ .sp := by
  obtain ⟨resources, out, -, hrun, rfl⟩ := h
  exact ne_sp_of_mem_free (htakes resources out hrun).1

namespace Mentions

variable {start mid last frame : Frame} {first second mentions : List Mention}

/-- The second step may depend on the value that the first one gives. -/
theorem bind {step : Lower α} {next : α → Lower β} (hstep : step.Mentions start first mid)
    (hnext : ∀ a, step.Gives start a → (next a).Mentions mid second last) :
    (step >>= next).Mentions start (first ++ second) last := by
  intro resources out hstart hrun
  obtain ⟨one, two, hone, htwo, rfl⟩ := run_bind_eq_ok.1 hrun
  obtain ⟨hmid, hfirst⟩ := hstep resources one hstart hone
  obtain ⟨hlast, hsecond⟩ := hnext _ ⟨resources, one, hstart, hone, rfl⟩ _ two hmid htwo
  refine ⟨hlast, ?_⟩
  rw [mentionsOf, List.flatMap_append, ← mentionsOf, ← mentionsOf, hfirst, hsecond]

/-- A step without mentions adds nothing to what comes after it. -/
theorem after {step : Lower α} {next : α → Lower β} (hstep : step.Mentions start [] mid)
    (hnext : ∀ a, step.Gives start a → (next a).Mentions mid mentions last) :
    (step >>= next).Mentions start mentions last :=
  hstep.bind hnext

/-- A step that mentions nothing before one that mentions something. -/
theorem andThen {step : Lower α} {next : Lower β} (hstep : step.Mentions start [] mid)
    (hnext : next.Mentions mid mentions last) :
    (step >>= fun _ => next).Mentions start mentions last :=
  hstep.after fun _ _ => hnext

/-- Steps without mentions add nothing to what comes before them. -/
theorem before {step : Lower α} {next : α → Lower β} (hstep : step.Mentions start mentions mid)
    (hnext : ∀ a, step.Gives start a → (next a).Mentions mid [] last) :
    (step >>= next).Mentions start mentions last := by
  have h := hstep.bind hnext
  rwa [List.append_nil] at h

/-- A step without code. -/
theorem silent {step : Lower α} (h : ∀ resources out, resources.frame = start →
    step.run resources = .ok out → out.resources.frame = last ∧ out.code = []) :
    step.Mentions start [] last := by
  intro resources out hstart hrun
  obtain ⟨hlast, hcode⟩ := h resources out hstart hrun
  exact ⟨hlast, by rw [hcode]; rfl⟩

theorem pure (a : α) : (Pure.pure a : Lower α).Mentions frame [] frame :=
  silent fun _ _ hstart hrun => by cases hrun; exact ⟨hstart, rfl⟩

theorem fail (e : CompileError) : (Lower.fail e : Lower α).Mentions start mentions last := by
  intro resources out _ hrun
  cases hrun

theorem ofExcept (x : Except CompileError α) : (Lower.ofExcept x).Mentions frame [] frame := by
  apply silent
  intro resources out hstart hrun
  obtain ⟨a, _, rfl⟩ := run_ofExcept_eq_ok.1 hrun
  exact ⟨hstart, rfl⟩

theorem getFrame : Lower.getFrame.Mentions frame [] frame :=
  silent fun _ _ hstart hrun => by cases hrun; exact ⟨hstart, rfl⟩

theorem modifyFrame (f : Frame → Frame) : (Lower.modifyFrame f).Mentions frame [] (f frame) :=
  silent fun _ _ hstart hrun => by cases hrun; exact ⟨congrArg f hstart, rfl⟩

theorem modifyPool (f : RegisterPool → RegisterPool) :
    (Lower.modifyPool f).Mentions frame [] frame :=
  silent fun _ _ hstart hrun => by cases hrun; exact ⟨hstart, rfl⟩

theorem freshLabel : Lower.freshLabel.Mentions frame [] frame :=
  silent fun _ _ hstart hrun => by cases hrun; exact ⟨hstart, rfl⟩

theorem acquire : Lower.acquire.Mentions frame [] frame := by
  apply silent
  intro resources out hstart hrun
  obtain ⟨r, _, rfl⟩ := run_acquire_eq_ok.1 hrun
  exact ⟨hstart, rfl⟩

theorem release (r : Register) : (Lower.release r).Mentions frame [] frame := modifyPool _

theorem holdReturn : Lower.holdReturn.Mentions frame [] frame :=
  .after (modifyPool _) fun _ _ => .pure _

theorem freeReturn : Lower.freeReturn.Mentions frame [] frame := modifyPool _

theorem lookup (name : String) : (Lower.lookup name).Mentions frame [] frame :=
  .after getFrame fun _ _ => ofExcept _

theorem typeOf (e : Expr) : (Lower.typeOf e).Mentions frame [] frame :=
  .after getFrame fun _ _ => ofExcept _

/-- Emitted code mentions what its instructions do. -/
theorem emitAll {code : List Pseudo} (h : mentionsOf code = mentions) :
    (Lower.emitAll code).Mentions frame mentions frame := by
  intro resources out hstart hrun
  cases hrun
  exact ⟨hstart, h⟩

theorem emit {i : Instruction} (h : i.mentions = mentions) :
    (Lower.emit i).Mentions frame mentions frame :=
  emitAll (by simp [mentionsOf, Pseudo.mentions, h])

theorem callRoutine (r : Routine) : (Lower.callRoutine r).Mentions frame [] frame := emitAll rfl

theorem callRoutineIf (cond : Condition) (r : Routine) :
    (Lower.callRoutineIf cond r).Mentions frame [] frame :=
  emitAll rfl

theorem intoFresh {instruction : Register → Pseudo}
    (h : ∀ r, (instruction r).mentions = mentions) :
    (Lower.intoFresh instruction).Mentions frame mentions frame := by
  apply acquire.after
  intro r _
  apply before (emitAll (by simp [mentionsOf, h r]))
  intro _ _
  exact .pure r

/-- A scope is left as it was entered, if the step keeps to it. -/
theorem inScope {slots : Nat} {step : Lower Unit}
    (hstep : step.Mentions (frame.openScope slots) mentions last) :
    (Lower.inScope slots step).Mentions frame mentions last.closeScope := by
  apply Mentions.andThen (modifyFrame _)
  apply Mentions.andThen (emitAll rfl)
  apply hstep.before
  intro _ _
  apply getFrame.after
  intro _ _
  apply Mentions.andThen (modifyFrame _)
  exact emitAll rfl

end Mentions

/-! ## §5 Expressions -/

section Steps

variable {frame last : Frame}

theorem unary_mentions {r : Register} (hsp : r ≠ .sp) (op : UnaryOp) :
    (unary r op).Mentions frame [] frame := by
  cases op with
  | not => exact .emit (mentions_arith_of_ne hsp _)
  | neg => exact .after (.emit (mentions_arith_of_ne hsp _)) fun _ _ => .callRoutineIf _ _
  | len => exact .emit (mentions_ldr_of_ne hsp)
  | ord | chr => exact .pure ()

theorem divideWith_mentions (function : String) (result l r : Register) :
    (divideWith function result l r).Mentions frame [] frame := by
  apply Mentions.andThen (.emit rfl)
  apply Mentions.andThen (.emit rfl)
  apply Mentions.andThen (.callRoutine _)
  exact .after (.emit rfl) fun _ _ => .emit rfl

theorem compare_mentions (cond : Condition) (l r : Register) :
    (Lower.compare cond l r).Mentions frame [] frame := by
  apply Mentions.andThen (.emit rfl)
  exact .after (.emit rfl) fun _ _ => .emit rfl

theorem binary_mentions {l : Register} (hsp : l ≠ .sp) (r : Register) (op : BinaryOp) :
    (binary l r op).Mentions frame [] frame := by
  cases op with
  | add | sub => exact .after (.emit (mentions_arith_of_ne hsp _)) fun _ _ => .callRoutineIf _ _
  | mul =>
    apply Mentions.andThen (.emit rfl)
    exact .after (.emit rfl) fun _ _ => .callRoutineIf _ _
  | div | mod => exact divideWith_mentions _ _ l r
  | gt | ge | lt | le | eq | ne => exact compare_mentions _ l r
  | and | or => exact .emit (mentions_arith_of_ne hsp _)

theorem index_mentions {array : Register} (hsp : array ≠ .sp) (i : Register) (element : Ty) :
    (index array i element).Mentions frame [] frame := by
  apply Mentions.andThen (.emit rfl)
  apply Mentions.andThen (.emit rfl)
  apply Mentions.andThen (.callRoutine _)
  apply Mentions.andThen (.emit (mentions_arith_of_ne hsp _))
  apply Mentions.emit
  rw [op, mentions_arith_of_ne hsp]
  by_cases hbyte : element.size = 1 <;> simp [hbyte]

/-- A step that looks a variable up and touches its slot. -/
theorem lookupThen_mentions {name : String} {next : Int × Ty → Lower α} {touch : Ty → Touch}
    (h : ∀ offset ty, frame.find name = .ok (offset, ty) →
      (next (offset, ty)).Mentions frame [.slot (touch ty) offset] last) :
    (lookup name >>= next).Mentions frame (Mention.slots (frame.touched name touch)) last := by
  apply (Mentions.lookup name).after
  rintro ⟨offset, ty⟩ hgives
  rw [Frame.touched_of_find hgives.lookup]
  exact h offset ty hgives.lookup

/-- The variable of an array is loaded as a word. -/
theorem loadArray_mentions (name : String) : (loadArray name).Mentions frame
    (Mention.slots (frame.touched name fun _ => .load .word)) frame := by
  apply lookupThen_mentions
  intro offset ty _
  apply Mentions.acquire.after
  intro array _
  apply Mentions.before (.emit rfl)
  intro _ _
  exact .pure _

/-- Operands are mentioned in the order in which they are evaluated. -/
theorem inOrder_mentions {left : Bool} {a b : Lower Register} {first second : List Mention}
    (ha : a.Mentions frame first frame) (hb : b.Mentions frame second frame) :
    (inOrder left a b).Mentions frame (if left then first ++ second else second ++ first)
      frame := by
  cases left with
  | true =>
    apply ha.bind
    intro l _
    exact hb.before fun _ _ => .pure _
  | false =>
    apply hb.bind
    intro r _
    exact ha.before fun _ _ => .pure _

end Steps

end Lower

mutual

theorem Expr.lower_mentions : (e : Expr) → (frame : Frame) →
    e.lower.Mentions frame (e.mentions frame) frame
  | .int _ text, _ => by
    rw [Expr.lower, Expr.mentions]
    split
    · exact .intoFresh fun _ => rfl
    · exact .fail _
  | .bool _ value, _ => by
    rw [Expr.lower, Expr.mentions]
    apply Mentions.intoFresh
    intro r
    cases value <;> rfl
  | .char _ value, _ => by
    rw [Expr.lower, Expr.mentions]
    exact .intoFresh fun _ => mentions_mov_imm
  | .str .., _ | .null _, _ => .intoFresh fun _ => rfl
  | .ident _ name, frame => by
    rw [Expr.lower, Expr.mentions]
    apply lookupThen_mentions
    intro offset ty _
    exact .intoFresh fun _ => rfl
  | .elem _ name indices, frame => by
    rw [Expr.lower, Expr.mentions]
    apply (loadArray_mentions name).bind
    rintro ⟨array, ty⟩ hgives
    have hsp : array ≠ .sp := hgives.ne_sp fun _ => loadArray_takes
    apply (lowerIndices_mentions indices hsp ty frame).before
    intro element _
    apply Mentions.andThen (.emit (mentions_ldr_of_ne hsp))
    exact .pure array
  | .unary _ op operand, frame => by
    rw [Expr.lower, Expr.mentions]
    apply (operand.lower_mentions frame).before
    intro r hgives
    apply Mentions.andThen (unary_mentions (hgives.ne_sp operand.lower_takes) op)
    exact .pure r
  | .binary _ op lhs rhs, frame => by
    rw [Expr.lower_binary, Expr.mentions]
    apply (inOrder_mentions (lhs.lower_mentions frame) (rhs.lower_mentions frame)).before
    rintro ⟨l, r⟩ hgives
    have hsp : l ≠ .sp := by
      obtain ⟨resources, out, -, hrun, hvalue⟩ := hgives
      have hboth := inOrder_takes lhs.lower_takes rhs.lower_takes out hrun
      rw [hvalue] at hboth
      exact ne_sp_of_mem_free hboth.fst_free
    apply Mentions.andThen (binary_mentions hsp r op)
    apply Mentions.andThen (.release r)
    exact .pure l

theorem lowerIndices_mentions : (indices : List Expr) → {array : Register} → array ≠ .sp →
    (ty : Ty) → (frame : Frame) →
    (lowerIndices array ty indices).Mentions frame (mentionsAll frame indices) frame
  | [], _, _, ty, _ => .pure ty
  | i :: rest, array, hsp, ty, frame => by
    rw [lowerIndices, mentionsAll]
    apply (i.lower_mentions frame).bind
    intro r _
    apply Mentions.andThen (index_mentions hsp r _)
    apply Mentions.andThen (.release r)
    -- Between two indices the inner array is loaded through its own address.
    split
    · exact lowerIndices_mentions rest hsp _ frame
    · apply Mentions.andThen (.emit (mentions_ldr_of_ne hsp))
      exact lowerIndices_mentions rest hsp _ frame

end

/-! ## §6 Right sides and targets -/

namespace Lower

variable {frame : Frame}

theorem sideAddress_mentions (side : Side) (pair : Expr) :
    (sideAddress side pair).Mentions frame (pair.mentions frame) frame := by
  apply (pair.lower_mentions frame).before
  intro r hgives
  have hsp : r ≠ .sp := hgives.ne_sp pair.lower_takes
  apply Mentions.andThen (.emit rfl)
  apply Mentions.andThen (.callRoutine _)
  have hsmall : Mention.ofDistance (side.pick 0 (slotBytes : Int)) = [] := by cases side <;> rfl
  apply Mentions.andThen (.emit ((mentions_ldr_of_ne hsp).trans hsmall))
  exact .pure r

theorem elementAddress_mentions (name : String) (indices : List Expr) :
    (elementAddress name indices).Mentions frame
      (Mention.slots (frame.touched name fun _ => .load .word) ++ mentionsAll frame indices)
      frame := by
  apply (loadArray_mentions name).bind
  rintro ⟨array, ty⟩ hgives
  have hsp : array ≠ .sp := hgives.ne_sp fun _ => loadArray_takes
  apply (lowerIndices_mentions indices hsp ty frame).before
  intro element _
  exact .pure _

theorem callMalloc_mentions (bytes : Int32) : (callMalloc bytes).Mentions frame [] frame :=
  .after (.emit rfl) fun _ _ => .emit rfl

theorem allocate_mentions (bytes : Int32) : (allocate bytes).Mentions frame [] frame :=
  .after (callMalloc_mentions bytes) fun _ _ => .intoFresh fun _ => rfl

theorem literalElementType_mentions (target : Ty) (elems : List Expr) :
    (literalElementType target elems).Mentions frame [] frame := by
  unfold literalElementType
  dsimp only
  split
  · exact .pure _
  · cases elems with
    | nil => exact .pure _
    | cons first rest => exact .typeOf first

/-- Each element is mentioned before the distance at which it is stored. -/
theorem storeElements_mentions {array : Register} (hsp : array ≠ .sp) (ty : Ty) (index : Nat)
    (elems : List Expr) :
    (storeElements array ty index elems).Mentions frame
      (elementMentions frame ty.size index elems) frame := by
  induction elems generalizing index with
  | nil => exact .pure ()
  | cons elem rest ih =>
    apply (elem.lower_mentions frame).bind
    intro value _
    apply Mentions.bind (.emit (mentions_str_of_ne hsp))
    intro _ _
    apply Mentions.andThen (.release value)
    exact ih (index + 1)

/-- The type that an array literal is built with has the size that the source tells. -/
theorem size_of_literalElementType {target ty : Ty} {elems : List Expr}
    (h : (literalElementType target elems).Gives frame ty) :
    ty.size = literalSize frame target elems := by
  unfold literalElementType at h
  dsimp only at h
  unfold literalSize
  -- The target tells the type of the elements, and where it does not the first element does.
  split at h
  · rename_i htold
    rw [if_pos htold, h.pure]
  · rename_i huntold
    rw [if_neg huntold]
    cases elems with
    | nil => rw [h.pure]
    | cons first rest => simp [h.typeOf, Except.toOption]

/-- A literal mentions its elements and where they are stored. -/
theorem arrayLiteral_mentions (target : Ty) (elems : List Expr) :
    (arrayLiteral target elems).Mentions frame
      (elementMentions frame (literalSize frame target elems) 0 elems) frame := by
  apply (literalElementType_mentions target elems).after
  intro ty hty
  rw [← size_of_literalElementType hty]
  apply (allocate_mentions _).after
  intro array hgives
  have hsp : array ≠ .sp := hgives.ne_sp fun _ => allocate_takes
  apply (storeElements_mentions hsp ty 0 elems).before
  intro _ _
  apply Mentions.after (.intoFresh fun _ => rfl)
  intro length _
  apply Mentions.andThen (.emit (mentions_str_of_ne hsp))
  apply Mentions.andThen (.release length)
  exact .pure array

theorem storeSide_mentions {pair : Register} (hsp : pair ≠ .sp) (side : Side) (value : Register) :
    (storeSide pair side value).Mentions frame [] frame := by
  apply Mentions.andThen (callMalloc_mentions _)
  apply Mentions.andThen (.emit rfl)
  have hsmall : Mention.ofDistance (side.pick 0 (slotBytes : Int)) = [] := by cases side <;> rfl
  apply Mentions.andThen (.emit ((mentions_str_of_ne hsp).trans hsmall))
  exact .release value

theorem newPair_mentions (table : SymbolTable) (target : Ty) (fst snd : Expr) :
    (newPair fst snd).Mentions frame ((Rhs.newPair fst snd).mentions table frame target)
      frame := by
  rw [newPair_eq, Rhs.mentions]
  apply (inOrder_mentions (fst.lower_mentions frame) (snd.lower_mentions frame)).before
  rintro ⟨a, b⟩ _
  apply (allocate_mentions _).after
  intro pair hgives
  have hsp : pair ≠ .sp := hgives.ne_sp fun _ => allocate_takes
  apply Mentions.andThen (storeSide_mentions hsp .fst a)
  apply Mentions.andThen (storeSide_mentions hsp .snd b)
  exact .pure pair

theorem argType_mentions (params : List Param) (arg : Expr) :
    (argType params arg).Mentions frame [] frame := by
  cases params with
  | nil => exact .typeOf arg
  | cons param rest => exact .pure param.ty

/-- The type that an argument is passed with is the one that lowering finds. -/
theorem passedType_of_argType {params : List Param} {arg : Expr} {ty : Ty}
    (h : (argType params arg).Gives frame ty) : passedType frame params arg = ty := by
  cases params with
  | nil => simp [passedType, Gives.typeOf h, Except.toOption]
  | cons param rest => exact (Gives.pure h).symm

/-- Arguments move the stack pointer by a slot each. -/
theorem pushArgs_mentions (params : List Param) (args : List Expr) :
    (pushArgs params args).Mentions frame (argumentMentions frame params args)
      (frame.pushTemp (slotBytes * args.length : Nat)) := by
  induction args generalizing params with
  | nil =>
    have hsame : frame.pushTemp (slotBytes * ([] : List Expr).length : Nat) = frame := by
      simp [Frame.pushTemp]
    rw [hsame]
    exact .pure ()
  | cons arg args ih =>
    have hnext : frame.pushTemp (slotBytes * (arg :: args).length : Nat) =
        (frame.pushTemp (slotBytes * args.length : Nat)).pushTemp slotBytes := by
      simp only [Frame.pushTemp, List.length_cons, slotBytes]
      congr 1
      omega
    -- The last argument is pushed first, so this one is evaluated with all others below it.
    rw [pushArgs_cons, hnext, argumentMentions]
    apply (ih params.tail).bind
    intro _ _
    apply (argType_mentions params arg).after
    intro ty hty
    rw [passedType_of_argType hty]
    apply (arg.lower_mentions _).bind
    intro r _
    apply Mentions.before (.emit rfl)
    intro _ _
    apply Mentions.andThen (.release r)
    exact .modifyFrame _

/-- A call mentions its arguments, the last one first. -/
theorem callFunction_mentions (table : SymbolTable) (name : String) (args : List Expr) :
    (callFunction table name args).Mentions frame
      (argumentMentions frame (table.params name) args) frame := by
  unfold callFunction SymbolTable.params
  cases table.function? name with
  | none => exact .fail _
  | some signature =>
    apply (pushArgs_mentions signature.params args).before
    intro _ _
    apply Mentions.andThen (.emit rfl)
    apply Mentions.andThen (.emitAll rfl)
    apply Mentions.andThen (.modifyFrame _)
    rw [Frame.popTemp_pushTemp]
    apply Mentions.holdReturn.after
    intro ret _
    apply Mentions.after (.intoFresh fun _ => rfl)
    intro result _
    apply Mentions.andThen .freeReturn
    exact .pure result

end Lower

/-- The code of a right side mentions what the right side does. -/
theorem Rhs.lower_mentions (table : SymbolTable) (target : Ty) (rhs : Rhs) (frame : Frame) :
    (rhs.lower table target).Mentions frame (rhs.mentions table frame target) frame := by
  cases rhs with
  | expr e => exact e.lower_mentions frame
  | array elems => exact arrayLiteral_mentions target elems
  | newPair fst snd => exact newPair_mentions table target fst snd
  | side which pair =>
    apply (sideAddress_mentions which pair).before
    intro r hgives
    have hsp : r ≠ .sp := hgives.ne_sp fun _ => sideAddress_takes which pair
    apply Mentions.andThen (.emit (mentions_ldr_of_ne hsp))
    exact .pure r
  | call name args => exact callFunction_mentions table name args

/-- Finding a place mentions the array and its indices, or the pair. -/
theorem Target.place_mentions (target : Target) (frame : Frame) :
    target.place.Mentions frame (target.mentions frame) frame := by
  cases target with
  | ident name =>
    apply (Mentions.lookup name).after
    rintro ⟨offset, _⟩ _
    exact .pure _
  | elem name indices =>
    apply (elementAddress_mentions name indices).before
    rintro ⟨r, _⟩ _
    exact .pure _
  | side which pair =>
    apply (sideAddress_mentions which pair).before
    intro r _
    exact .pure _

/-! ## §7 Statements -/

/-- The place of a target is the slot of a variable, or an address in a register. -/
theorem Target.place_cases {target : Target} {frame : Frame} {place : Place}
    (h : target.place.Gives frame place) :
    (∃ name offset ty, target = .ident name ∧ place = .stack offset ∧
      frame.find name = .ok (offset, ty)) ∨
    ∃ r, place = .computed r ∧ r ≠ .sp ∧ ∀ touch, target.touched frame touch = [] := by
  obtain ⟨resources, out, rfl, hrun, rfl⟩ := h
  have htaken := target.place_ends resources out hrun
  cases target with
  | ident name =>
    obtain ⟨found, last, hfound, hlast, rfl⟩ := run_bind_eq_ok.1 hrun
    have hgives : (lookup name).Gives resources.frame found.value :=
      ⟨resources, found, rfl, hfound, rfl⟩
    cases hlast
    exact .inl ⟨name, _, _, rfl, rfl, hgives.lookup⟩
  | elem name indices | side which pair =>
    obtain ⟨found, last, _, hlast, rfl⟩ := run_bind_eq_ok.1 hrun
    cases hlast
    exact .inr ⟨_, rfl, ne_sp_of_mem_free htaken.1, fun _ => rfl⟩

/-- A statement leaves the scopes around its own as they are. -/
theorem Stmt.closeScope_frameAfter (s : Stmt) (frame : Frame) :
    (s.frameAfter frame).closeScope = frame.closeScope := by
  induction s generalizing frame with
  | declare span ty name rhs =>
    rw [frameAfter, Frame.declared]
    cases h : frame.declare name ty with
    | error e => rfl
    | ok declared =>
      obtain ⟨scope, outer, hscopes, _, _, hframe⟩ := Frame.declare_eq_ok.1 h
      simp [hframe, Frame.closeScope, Frame.scopeBytes, Frame.Scope.add, hscopes]
  | seq span first second ihFirst ihSecond => rw [frameAfter, ihSecond, ihFirst]
  | skip | assign | increment | read | free | ret | exit | print | println | ifThen | ifElse
  | whileDo | doWhile | forLoop | block => rfl

namespace Lower

variable {frame last : Frame}

/-- A step that declares a variable and touches its slot. -/
theorem declareThen_mentions {α : Type} {name : String} {ty : Ty} {next : Int → Lower α}
    {touch : Ty → Touch}
    (h : ∀ offset,
      (next offset).Mentions (frame.declared name ty) [.slot (touch ty) offset] last) :
    (declare name ty >>= next).Mentions frame
      (Mention.slots ((frame.declared name ty).touched name touch)) last := by
  intro resources out hstart hrun
  obtain ⟨one, two, hone, htwo, rfl⟩ := run_bind_eq_ok.1 hrun
  obtain ⟨offset, frame', hdeclare, rfl⟩ := run_declare_eq_ok.1 hone
  rw [hstart] at hdeclare
  -- The slot is found in the frame that the declaration leaves.
  have hframe : frame.declared name ty = frame' := by simp [Frame.declared, hdeclare]
  rw [hframe] at h ⊢
  rw [Frame.touched_of_find (Frame.find_of_declare hdeclare)]
  exact h offset _ two rfl htwo

/-- A store to the place of a target. -/
theorem storeTo_mentions {target : Target} {place : Place} {ty : Ty}
    (h : target.place.Gives frame place) (hty : target.typeIn frame = .ok ty) (value : Register) :
    (emit (.str (target.width ty) value place.address)).Mentions frame
      (Mention.slots (target.touched frame fun ty => .store ty.width)) frame := by
  rcases Target.place_cases h with ⟨name, offset, held, rfl, rfl, hfind⟩ | ⟨r, rfl, hsp, hnone⟩
  · have hsame : ty = held := by
      simp only [Target.typeIn, hfind] at hty
      exact (Except.ok.inj hty).symm
    rw [Target.touched, Frame.touched_of_find hfind, hsame]
    exact .emit rfl
  · rw [hnone]
    exact .emit (mentions_str_of_ne hsp)

theorem placeAddress_mentions {target : Target} {place : Place}
    (h : target.place.Gives frame place) :
    (placeAddress place).Mentions frame
      (Mention.slots (target.touched frame fun _ => .address)) frame := by
  rcases Target.place_cases h with ⟨name, offset, held, rfl, rfl, hfind⟩ | ⟨r, rfl, hsp, hnone⟩
  · rw [Target.touched, Frame.touched_of_find hfind]
    apply Mentions.acquire.after
    intro r hgives
    have hsp : r ≠ .sp := hgives.ne_sp fun _ => acquire_takes
    have haddress :
        (Instruction.op .add r .sp (.imm offset)).mentions = [.slot .address offset] := by
      simp [Instruction.op, Instruction.mentions, touch?, loads?, numbers, hsp, Mention.slots]
    apply Mentions.before (.emit haddress)
    intro _ _
    exact .pure r
  · rw [hnone]
    exact .pure r

theorem releasePlace_mentions (place : Place) : place.release.Mentions frame [] frame := by
  cases place with
  | stack offset => exact .pure ()
  | computed r => exact .release r

/-- An expression whose value is passed on in `r0`. -/
theorem passTo_mentions (e : Expr) (routine : Routine) :
    (do
      let r ← e.lower
      emit (move .r0 r)
      release r
      callRoutine routine).Mentions frame (e.mentions frame) frame := by
  apply (e.lower_mentions frame).before
  intro r _
  apply Mentions.andThen (.emit rfl)
  apply Mentions.andThen (.release r)
  exact .callRoutine routine

/-- Printing mentions what the expression does. -/
theorem printValue_mentions (e : Expr) :
    (printValue e).Mentions frame (e.mentions frame) frame := by
  apply (Mentions.typeOf e).after
  intro ty _
  exact passTo_mentions e _

theorem testCondition_mentions (cond : Expr) {value : Int} (hvalue : 0 ≤ value ∧ value < 256) :
    (testCondition cond value).Mentions frame (cond.mentions frame) frame := by
  apply (cond.lower_mentions frame).before
  intro r _
  have hsmall : Mention.ofNumber value = [] := if_pos hvalue
  apply Mentions.andThen (.emit (mentions_cmp_imm.trans hsmall))
  exact .release r

theorem loopBack_mentions (cond : Expr) (top : String) :
    (loopBack cond top).Mentions frame (cond.mentions frame) frame :=
  .before (testCondition_mentions cond (by decide)) fun _ _ => .emit rfl

/-- A statement in a scope of its own leaves the frame as it was. -/
theorem ownScope_mentions {table : SymbolTable} {body : Stmt}
    (h : (body.lower table).Mentions (frame.openScope body.slots)
      (body.mentions table (frame.openScope body.slots))
      (body.frameAfter (frame.openScope body.slots))) :
    (inScope body.slots (body.lower table)).Mentions frame
      (body.mentions table (frame.openScope body.slots)) frame := by
  have hscope := Mentions.inScope h
  rwa [body.closeScope_frameAfter, Frame.closeScope_openScope] at hscope

end Lower

/-- The code of a statement mentions what is read off the statement. -/
theorem Stmt.lower_mentions (table : SymbolTable) (s : Stmt) (frame : Frame) :
    (s.lower table).Mentions frame (s.mentions table frame) (s.frameAfter frame) := by
  induction s generalizing frame with
  | skip span => exact .pure ()
  | declare span ty name rhs =>
    apply (rhs.lower_mentions table ty frame).bind
    intro value _
    apply declareThen_mentions
    intro offset
    apply Mentions.before (.emit rfl)
    intro _ _
    exact .release value
  | assign span target rhs =>
    apply Mentions.getFrame.after
    intro seen hseen
    apply (Mentions.ofExcept _).after
    intro ty hty
    -- An array literal is built for the type that the frame has for the target.
    have htype : target.typeIn frame = .ok ty := hseen.getFrame ▸ hty.ofExcept
    have hheld : target.heldType frame = ty := by simp [Target.heldType, htype, Except.toOption]
    rw [mentions, hheld]
    apply (rhs.lower_mentions table ty frame).bind
    intro value _
    apply (target.place_mentions frame).bind
    intro place hplace
    apply (storeTo_mentions hplace htype value).before
    intro _ _
    apply Mentions.andThen (releasePlace_mentions place)
    exact .release value
  | increment span name =>
    apply (Mentions.lookup name).after
    rintro ⟨offset, ty⟩ hfound
    rw [mentions, Mention.slots_append, Frame.touched_of_find hfound.lookup,
      Frame.touched_of_find hfound.lookup]
    apply Mentions.acquire.after
    intro r hgives
    have hsp : r ≠ .sp := hgives.ne_sp fun _ => acquire_takes
    apply Mentions.bind (.emit rfl)
    intro _ _
    apply Mentions.andThen (.emit (mentions_arith_of_ne hsp _))
    apply Mentions.andThen (.callRoutineIf _ _)
    apply Mentions.before (.emit rfl)
    intro _ _
    exact .release r
  | read span target =>
    apply Mentions.getFrame.after
    intro seen _
    apply (Mentions.ofExcept _).after
    intro ty _
    apply (target.place_mentions frame).bind
    intro place hplace
    apply (placeAddress_mentions hplace).before
    intro r _
    apply Mentions.andThen (.emit rfl)
    apply Mentions.andThen (.release r)
    exact .callRoutine _
  | free span e => exact passTo_mentions e _
  | ret span e =>
    apply (e.lower_mentions frame).before
    intro r _
    apply Mentions.holdReturn.after
    intro ret _
    apply Mentions.andThen (.emit rfl)
    apply Mentions.andThen (.release r)
    apply Mentions.getFrame.after
    intro seen _
    apply Mentions.andThen (.emitAll rfl)
    apply Mentions.andThen (.emit rfl)
    exact .freeReturn
  | exit span e =>
    apply (e.lower_mentions frame).before
    intro r _
    apply Mentions.holdReturn.after
    intro ret _
    apply Mentions.andThen (.emit rfl)
    apply Mentions.andThen (.emit rfl)
    apply Mentions.andThen .freeReturn
    apply Mentions.andThen (.release r)
    exact .emit rfl
  | print span e => exact printValue_mentions e
  | println span e => exact (printValue_mentions e).before fun _ _ => .callRoutine _
  | ifThen span cond body ih =>
    apply Mentions.freshLabel.after
    intro done _
    apply (testCondition_mentions cond (by decide)).bind
    intro _ _
    apply Mentions.andThen (.emit rfl)
    apply (ownScope_mentions (ih _)).before
    intro _ _
    exact .emit rfl
  | ifElse span cond thenArm elseArm ihThen ihElse =>
    apply Mentions.freshLabel.after
    intro done _
    apply (testCondition_mentions cond (by decide)).bind
    intro _ _
    apply Mentions.freshLabel.after
    intro otherwise _
    apply Mentions.andThen (.emit rfl)
    apply (ownScope_mentions (ihThen _)).bind
    intro _ _
    apply Mentions.andThen (.emit rfl)
    apply Mentions.andThen (.emit rfl)
    apply (ownScope_mentions (ihElse _)).before
    intro _ _
    exact .emit rfl
  | whileDo span cond body ih =>
    apply Mentions.freshLabel.after
    intro check _
    apply Mentions.freshLabel.after
    intro top _
    apply Mentions.andThen (.emit rfl)
    apply Mentions.andThen (.emit rfl)
    apply (ownScope_mentions (ih _)).bind
    intro _ _
    apply Mentions.andThen (.emit rfl)
    exact loopBack_mentions cond top
  | doWhile span body cond ih =>
    apply Mentions.freshLabel.after
    intro top _
    apply Mentions.andThen (.emit rfl)
    apply (ownScope_mentions (ih _)).bind
    intro _ _
    exact loopBack_mentions cond top
  | forLoop span init cond step body ihInit ihStep ihBody =>
    -- The first statement and the step share a scope, which is open until the loop is left.
    have hclosed : (forLoop span init cond step body).frameAfter frame =
        (step.frameAfter (init.frameAfter (frame.openScope init.slots))).closeScope := by
      rw [step.closeScope_frameAfter, init.closeScope_frameAfter, Frame.closeScope_openScope]
      rfl
    rw [hclosed]
    apply Mentions.inScope
    apply (ihInit _).bind
    intro _ _
    apply Mentions.freshLabel.after
    intro check _
    apply Mentions.freshLabel.after
    intro top _
    apply Mentions.andThen (.emit rfl)
    apply Mentions.andThen (.emit rfl)
    apply (ownScope_mentions (ihBody _)).bind
    intro _ _
    apply (ihStep _).bind
    intro _ _
    apply Mentions.andThen (.emit rfl)
    exact loopBack_mentions cond top
  | block span body ih => exact ownScope_mentions (ih _)
  | seq span first second ihFirst ihSecond =>
    apply (ihFirst frame).bind
    intro _ _
    exact ihSecond _

/-- What the code of a body mentions, in a scope of its own. -/
theorem Stmt.lowerBody_mentions (table : SymbolTable) (body : Stmt) (frame : Frame) :
    (body.lowerBody table).Mentions frame (body.mentions table (frame.openScope body.slots))
      frame :=
  ownScope_mentions (body.lower_mentions table _)

end ArmCompiler
