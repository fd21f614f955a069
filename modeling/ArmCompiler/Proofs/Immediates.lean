import ArmCompiler.Proofs.ArgumentArea
import ArmCompiler.Proofs.ArrayLiterals
import ArmCompiler.Proofs.RegisterDemand
import ArmCompiler.Proofs.StackChunks

/-!
# Numbers That Instructions Can Hold

An arithmetic instruction holds a byte that is rotated in a word, and a load or a store a distance
of at most 4095 bytes. Moves of the stack pointer are cut so that they fit. The distances of
variables from the stack pointer and those of array elements from the start of their array are not:
they grow with the frame and with the literal.

Here the distances that the code of a program has to hold are read off its source. All other numbers
in the code fit, whatever the program is, so the code can be encoded if and only if those distances
fit. Main statement: `Program.compile_encodable_iff`.

## Contents
- §1: numbers in instructions
- §2: distances in the source
- §3: distances in the code
- §4: distances of checked code
- §5: programs
-/

namespace ArmCompiler

open Instruction Lower Report

/-! ## §1 Numbers in instructions -/

/-- A number of one word that an instruction can hold as a constant operand. -/
def IsImmediate (value : Int) : Prop :=
  -0x80000000 ≤ value ∧ value < 0x100000000 ∧ IsRotatedByte value

/-- The operand can be held as it is, or in another instruction that does the same with a number
derived from it. -/
def Operand.Holds (derived : Int → Int) : Operand → Prop
  | .imm value => IsImmediate value ∨ IsImmediate (derived value)
  | .reg _ | .shifted _ _ => True

/-- The address has a displacement that a load or store can hold. -/
def Address.InReach : Address → Prop
  | .offset _ displacement | .preIndexed _ displacement =>
    -4095 ≤ displacement ∧ displacement ≤ 4095
  | .constant _ | .label _ => True

/-- The number with which the opposite operation does the same. Only additions and subtractions have
an opposite. -/
def ArithOp.opposite : ArithOp → Int → Int
  | .add, value | .sub, value => -value
  | .rsb, value | .and, value | .orr, value | .eor, value => value

/-- All numbers in the instruction can be held. A move is replaced by one of the complement, a
comparison by one with the negated number, where that helps. -/
def Instruction.Encodable : Instruction → Prop
  | .mov _ _ src => src.Holds fun value => -value - 1
  | .cmp _ rhs => rhs.Holds fun value => -value
  | .arith op _ _ _ rhs => rhs.Holds op.opposite
  | .ldr _ _ _ address | .str _ _ address => address.InReach
  | .label _ | .directive _ | .push _ | .pop _ | .branch .. | .smull .. => True

/-- A rotated byte is a byte again when it is rotated back. -/
theorem IsRotatedByte.exists_rotateLeft {value : Int} (h : IsRotatedByte value) :
    ∃ turns < 16, ((BitVec.ofInt 32 value).rotateLeft (2 * turns)).toNat < 256 := by
  obtain ⟨byte, hbyte, turns, hturns, hvalue⟩ := h
  have hback (x : BitVec 32) : (x.rotateRight (2 * turns)).rotateLeft (2 * turns) = x := by
    ext i hi
    rw [BitVec.getElem_rotateLeft]
    split
    · rw [BitVec.getElem_rotateRight, dif_neg (by omega)]
      congr 1
      omega
    · rw [BitVec.getElem_rotateRight, dif_pos (by omega)]
      congr 1
      omega
  refine ⟨turns, hturns, ?_⟩
  rw [hvalue, hback, BitVec.toNat_ofNat]
  omega

/-- Bytes can be held as they are. -/
theorem isImmediate_of_byte {value : Int} (h : 0 ≤ value ∧ value < 256) : IsImmediate value := by
  obtain ⟨byte, rfl⟩ := Int.eq_ofNat_of_zero_le h.1
  refine ⟨by omega, by omega, byte, by omega, 0, by decide, ?_⟩
  simp [BitVec.rotateRight, BitVec.rotateRightAux]

/-- The plain instructions of a step can be held, but for moves of the stack pointer. -/
def Pseudo.Encodable : Pseudo → Prop
  | .instr i => i.Encodable
  | .routine .. | .message .. | .reserve _ | .unreserve _ => True

/-! ## §2 Distances in the source -/

/-- A distance that the code has to hold: in a load or store, or in an addition to the stack
pointer. -/
inductive Reach where
  | access (distance : Int)
  | address (distance : Int)
  deriving DecidableEq, Repr

/-- The distance can be held. -/
def Reach.Encodable : Reach → Prop
  | .access distance => -4095 ≤ distance ∧ distance ≤ 4095
  | .address distance => IsImmediate distance ∨ IsImmediate (-distance)

/-- The distance at which a slot is touched. -/
def Reach.ofTouch : Touch × Int → Reach
  | (.load _, distance) | (.store _, distance) => .access distance
  | (.address, distance) => .address distance

def reachesOf (touches : List (Touch × Int)) : List Reach := touches.map .ofTouch

@[simp] theorem reachesOf_append (a b : List (Touch × Int)) :
    reachesOf (a ++ b) = reachesOf a ++ reachesOf b := List.map_append

/-- The distances of array elements from the start of their array, each after what its value
reads. -/
def elementReaches (frame : Frame) (size : Nat) (index : Nat) : List Expr → List Reach
  | [] => []
  | elem :: rest =>
    reachesOf (elem.reads frame) ++
      .access (elementOffset size index).toInt :: elementReaches frame size (index + 1) rest

/-- The distances that arguments read, from the last to the first. Those that are pushed already
have moved the stack pointer away. -/
def argumentReaches (frame : Frame) : List Expr → List Reach
  | [] => []
  | arg :: args =>
    argumentReaches frame args ++
      reachesOf (arg.reads (frame.pushTemp (slotBytes * args.length : Nat)))

def Rhs.reaches (frame : Frame) (target : Ty) : Rhs → List Reach
  | .array elems => elementReaches frame (literalSize frame target elems) 0 elems
  | .call _ args => argumentReaches frame args
  | .expr e => reachesOf ((Rhs.expr e).reads frame)
  | .newPair fst snd => reachesOf ((Rhs.newPair fst snd).reads frame)
  | .side which pair => reachesOf ((Rhs.side which pair).reads frame)

/-- The distances in the code of a statement. -/
def Stmt.reaches (frame : Frame) : Stmt → List Reach
  | .skip _ => []
  | .declare _ ty name rhs =>
    rhs.reaches frame ty ++
      reachesOf ((frame.declared name ty).touched name fun ty => .store ty.width)
  | .assign _ target rhs =>
    rhs.reaches frame (target.heldType frame) ++
      reachesOf (target.reads frame ++ target.touched frame fun ty => .store ty.width)
  | .increment _ name =>
    reachesOf (frame.touched name (fun _ => .load .word) ++
      frame.touched name fun _ => .store .word)
  | .read _ target => reachesOf (target.reads frame ++ target.touched frame fun _ => .address)
  | .free _ e | .ret _ e | .exit _ e | .print _ e | .println _ e => reachesOf (e.reads frame)
  | .ifThen _ cond body =>
    reachesOf (cond.reads frame) ++ body.reaches (frame.openScope body.slots)
  | .ifElse _ cond thenArm elseArm =>
    reachesOf (cond.reads frame) ++ (thenArm.reaches (frame.openScope thenArm.slots) ++
      elseArm.reaches (frame.openScope elseArm.slots))
  | .whileDo _ cond body | .doWhile _ body cond =>
    body.reaches (frame.openScope body.slots) ++ reachesOf (cond.reads frame)
  | .forLoop _ init cond step body =>
    let inner := init.frameAfter (frame.openScope init.slots)
    init.reaches (frame.openScope init.slots) ++ (body.reaches (inner.openScope body.slots) ++
      (step.reaches inner ++ reachesOf (cond.reads (step.frameAfter inner))))
  | .block _ body => body.reaches (frame.openScope body.slots)
  | .seq _ first second => first.reaches frame ++ second.reaches (first.frameAfter frame)

/-- The distances in the code of a program. -/
def Program.reaches (p : Program) : List Reach :=
  p.functions.flatMap (fun f => f.body.reaches f.frame) ++
    p.body.reaches (({} : Frame).openScope p.body.slots)

/-! ## §3 Distances in the code -/

/-- What the code mentions can be held in an instruction. -/
def Mention.Fits : Mention → Prop
  | .slot touch distance => (Reach.ofTouch (touch, distance)).Encodable
  | .label _ | .text _ => True
  | .far _ | .number _ => False

/-- The mentions hold no number but distances, and can be held if and only if the given distances
can. -/
structure Mention.Bear (mentions : List Mention) (reaches : List Reach) : Prop where
  numberless : ∀ value, .number value ∉ mentions
  fits_iff : (∀ m ∈ mentions, m.Fits) ↔ ∀ reach ∈ reaches, reach.Encodable

namespace Mention.Bear

variable {first second : List Mention} {reaches reaches' : List Reach}

theorem nil : Bear [] [] := ⟨by simp, by simp⟩

theorem append (h : Bear first reaches) (h' : Bear second reaches') :
    Bear (first ++ second) (reaches ++ reaches') where
  numberless value := by simp [h.numberless value, h'.numberless value]
  fits_iff := by rw [List.forall_mem_append, List.forall_mem_append, h.fits_iff, h'.fits_iff]

theorem ite (left : Bool) (h : Bear first reaches) (h' : Bear second reaches') :
    Bear (if left then first ++ second else second ++ first)
      (if left then reaches ++ reaches' else reaches' ++ reaches) := by
  cases left
  · exact h'.append h
  · exact h.append h'

theorem slots (touches : List (Touch × Int)) :
    Bear (Mention.slots touches) (reachesOf touches) where
  numberless value := by simp [Mention.slots]
  fits_iff := by
    rw [Mention.slots, reachesOf, List.forall_mem_map, List.forall_mem_map]
    exact forall₂_congr fun _ _ => .rfl

theorem ofDistance (distance : Int) : Bear (Mention.ofDistance distance) [.access distance] := by
  unfold Mention.ofDistance
  split
  · rename_i hreach
    exact ⟨by simp, by simpa [Reach.Encodable] using hreach⟩
  · rename_i hfar
    exact ⟨by simp, by simpa [Reach.Encodable, Fits] using hfar⟩

theorem ofByte {value : Int} (h : 0 ≤ value ∧ value < 256) : Bear (Mention.ofNumber value) [] := by
  rw [Mention.ofNumber, if_pos h]
  exact nil

/-- A pushed value lies where the stack pointer points. -/
theorem pushed (width : Width) : Bear [.slot (.store width) 0] [] :=
  ⟨by simp, by simp [Fits, Reach.ofTouch, Reach.Encodable]⟩

end Mention.Bear

theorem Mention.byte_of_numberless {value : Int}
    (h : ∀ other, .number other ∉ Mention.ofNumber value) : 0 ≤ value ∧ value < 256 := by
  by_contra hlarge
  rw [ofNumber, if_neg hlarge] at h
  simp at h

theorem Operand.holds_iff {value : Int} (derived : Int → Int)
    (h : ∀ other, .number other ∉ Mention.ofNumber value) :
    (Operand.imm value).Holds derived ↔ ∀ m ∈ Mention.ofNumber value, m.Fits := by
  have hbyte := Mention.byte_of_numberless h
  have hfits := (Mention.Bear.ofByte hbyte).fits_iff.2 (by simp)
  exact iff_of_true (.inl (isImmediate_of_byte hbyte)) hfits

theorem fits_ofDistance (distance : Int) :
    (∀ m ∈ Mention.ofDistance distance, m.Fits) ↔ -4095 ≤ distance ∧ distance ≤ 4095 := by
  rw [(Mention.Bear.ofDistance distance).fits_iff, List.forall_mem_singleton]
  rfl

theorem Instruction.fits_mentions (i : Instruction) : (∀ m ∈ i.mentions, m.Fits) ↔
    (∀ touched ∈ i.touch?, (Reach.ofTouch touched).Encodable) ∧ ∀ m ∈ i.numbers, m.Fits := by
  have hlabels : ∀ m ∈ i.loads?.toList.map Mention.label, m.Fits := by simp [Mention.Fits]
  rw [mentions, List.forall_mem_append, List.forall_mem_append, and_iff_right hlabels,
    (Mention.Bear.slots _).fits_iff, reachesOf, List.forall_mem_map]
  simp

/-- An instruction without a large constant can be encoded if what it mentions can be held. -/
theorem Instruction.encodable_iff {i : Instruction} (h : ∀ value, .number value ∉ i.mentions) :
    i.Encodable ↔ ∀ m ∈ i.mentions, m.Fits := by
  cases i with
  | mov cond dst src =>
    cases src with
    | imm value =>
      rw [mentions_mov_imm] at h ⊢
      exact Operand.holds_iff (fun value => -value - 1) h
    | reg | shifted => exact iff_of_true trivial (by simp [mentions, touch?, loads?, numbers])
  | cmp lhs rhs =>
    cases rhs with
    | imm value =>
      rw [mentions_cmp_imm] at h ⊢
      exact Operand.holds_iff _ h
    | reg | shifted => exact iff_of_true trivial (by simp [mentions, touch?, loads?, numbers])
  | arith op setFlags dst lhs rhs =>
    by_cases hslot : op = .add ∧ lhs = .sp ∧ dst ≠ .sp
    · obtain ⟨rfl, rfl, hdst⟩ := hslot
      cases rhs with
      | imm value =>
        simp [mentions, touch?, loads?, numbers, hdst, Mention.slots, Mention.Fits, Reach.ofTouch,
          Reach.Encodable, Encodable, Operand.Holds, ArithOp.opposite]
      | reg | shifted => exact iff_of_true trivial (by simp [mentions, touch?, loads?, numbers])
    · have htouch : (Instruction.arith op setFlags dst lhs rhs).touch? = none := by
        unfold touch?
        split <;> simp_all
      cases rhs with
      | imm value =>
        have hmentions : (Instruction.arith op setFlags dst lhs (.imm value)).mentions =
            Mention.ofNumber value := by
          simp [mentions, htouch, loads?, numbers, hslot]
        rw [hmentions] at h ⊢
        exact Operand.holds_iff _ h
      | reg | shifted => exact iff_of_true trivial (by simp [mentions, htouch, loads?, numbers])
  | ldr cond width dst src =>
    cases src with
    | offset base distance =>
      by_cases hbase : base = .sp
      · subst hbase
        simp [mentions, touch?, loads?, numbers, Mention.slots, Mention.Fits, Reach.ofTouch,
          Reach.Encodable, Encodable, Address.InReach]
      · rw [mentions_ldr_of_ne hbase]
        exact (fits_ofDistance distance).symm
    | preIndexed base distance =>
      rw [fits_mentions, and_iff_right]
      · exact (fits_ofDistance distance).symm
      · cases base <;> simp [touch?, Reach.ofTouch, Reach.Encodable]
    | constant | label =>
      exact iff_of_true trivial (by simp [mentions, touch?, loads?, numbers, Mention.Fits])
  | str width src dst =>
    cases dst with
    | offset base distance =>
      by_cases hbase : base = .sp
      · subst hbase
        simp [mentions, touch?, loads?, numbers, Mention.slots, Mention.Fits, Reach.ofTouch,
          Reach.Encodable, Encodable, Address.InReach]
      · rw [mentions_str_of_ne hbase]
        exact (fits_ofDistance distance).symm
    | preIndexed base distance =>
      rw [fits_mentions, and_iff_right]
      · exact (fits_ofDistance distance).symm
      · cases base <;> simp [touch?, Reach.ofTouch, Reach.Encodable]
    | constant | label => exact iff_of_true trivial (by simp [mentions, touch?, loads?, numbers])
  | label | directive | push | pop | branch | smull =>
    exact iff_of_true trivial (by simp [mentions, touch?, loads?, numbers])

theorem encodable_mentionsOf {code : List Pseudo} {reaches : List Reach}
    (h : Mention.Bear (mentionsOf code) reaches) :
    (∀ p ∈ code, p.Encodable) ↔ ∀ reach ∈ reaches, reach.Encodable := by
  rw [← h.fits_iff, mentionsOf, List.forall_mem_flatMap]
  refine forall₂_congr fun p hp => ?_
  cases p with
  | instr i =>
    refine i.encodable_iff fun value hvalue => h.numberless value ?_
    exact List.mem_flatMap.2 ⟨_, hp, hvalue⟩
  | routine | message | reserve | unreserve =>
    simp [Pseudo.Encodable, Pseudo.mentions, Mention.Fits]

/-! ## §4 Distances of checked code -/

theorem reachesOf_ite (left : Bool) (a b : List (Touch × Int)) :
    reachesOf (if left then a ++ b else b ++ a) =
      if left then reachesOf a ++ reachesOf b else reachesOf b ++ reachesOf a := by
  cases left <;> simp

section Checked

variable {table : SymbolTable} {span : Span} {frame : Frame}

/-- A character literal without a diagnostic is a byte. -/
theorem Expr.char_le_of_clean {value : Char}
    (h : ((Expr.char span value).check table).diagnostics = []) : value.toNat ≤ charMax := by
  by_contra hgreater
  simp [Expr.check, noteIf, Nat.lt_of_not_le hgreater, note] at h

mutual

/-- The code of an expression holds the distances of the slots it reads. -/
theorem Expr.bears : (e : Expr) → (e.check table).diagnostics = [] →
    Mention.Bear (e.mentions frame) (reachesOf (e.reads frame))
  | .int .., _ | .bool .., _ | .null _, _ => .nil
  | .str .., _ =>
    ⟨by simp [Expr.mentions], by simp [Expr.mentions, Expr.reads, Mention.Fits, reachesOf]⟩
  | .char _ value, hclean => by
    -- The only literal that is moved as it is written: checking refuses all that are no byte.
    have hbyte := Expr.char_le_of_clean hclean
    simp only [charMax] at hbyte
    exact .ofByte (by omega)
  | .ident .., _ => .slots _
  | .elem _ name indices, hclean => by
    simp only [Expr.check, diagnostics_bind, List.append_eq_nil_iff] at hclean
    rw [Expr.mentions, Expr.reads, reachesOf_append]
    exact (Mention.Bear.slots _).append (mentionsAll_bears indices (checkIndices_each hclean.2.1))
  | .unary _ _ operand, hclean => by
    simp only [Expr.check, diagnostics_bind, List.append_eq_nil_iff] at hclean
    exact operand.bears hclean.1
  | .binary _ _ lhs rhs, hclean => by
    simp only [Expr.check, diagnostics_bind, List.append_eq_nil_iff] at hclean
    rw [Expr.mentions, Expr.reads, reachesOf_ite]
    exact .ite _ (lhs.bears hclean.1) (rhs.bears hclean.2.1)

theorem mentionsAll_bears : (es : List Expr) → (∀ e ∈ es, (e.check table).diagnostics = []) →
    Mention.Bear (mentionsAll frame es) (reachesOf (readsAll frame es))
  | [], _ => .nil
  | e :: rest, hclean => by
    obtain ⟨hfirst, hrest⟩ := List.forall_mem_cons.1 hclean
    rw [mentionsAll, readsAll, reachesOf_append]
    exact (e.bears hfirst).append (mentionsAll_bears rest hrest)

end

theorem mem_allSubterms {e : Expr} {es : List Expr} (h : e ∈ es) : e ∈ allSubterms es := by
  have hself : e ∈ e.subterms := by cases e <;> simp [Expr.subterms]
  induction es with
  | nil => cases h
  | cons first rest ih =>
    rw [allSubterms]
    rcases List.mem_cons.1 h with rfl | h
    · exact List.mem_append_left _ hself
    · exact List.mem_append_right _ (ih h)

/-- Expressions that are inspected without a record were checked without a diagnostic. -/
theorem clean_of_records {es : List Expr}
    (h : Records [] (inspectAll table (allSubterms es))) :
    ∀ e ∈ es, (e.check table).diagnostics = [] :=
  fun e he => List.eq_nil_of_infix_nil
    (h ⟨table, .expr e⟩ (List.mem_map_of_mem (mem_allSubterms he)))

theorem elementMentions_bears {elems : List Expr}
    (hclean : ∀ e ∈ elems, (e.check table).diagnostics = []) (size index : Nat) :
    Mention.Bear (elementMentions frame size index elems)
      (elementReaches frame size index elems) := by
  induction elems generalizing index with
  | nil => exact .nil
  | cons elem rest ih =>
    obtain ⟨hfirst, hrest⟩ := List.forall_mem_cons.1 hclean
    exact (elem.bears hfirst).append ((Mention.Bear.ofDistance _).append (ih hrest (index + 1)))

theorem argumentMentions_bears {args : List Expr}
    (hclean : ∀ e ∈ args, (e.check table).diagnostics = []) (params : List Param) :
    Mention.Bear (argumentMentions frame params args) (argumentReaches frame args) := by
  induction args generalizing params with
  | nil => exact .nil
  | cons arg args ih =>
    obtain ⟨hfirst, hrest⟩ := List.forall_mem_cons.1 hclean
    have harg (below : Frame) (width : Width) :
        Mention.Bear (arg.mentions below ++ [.slot (.store width) 0])
          (reachesOf (arg.reads below) ++ []) :=
      (arg.bears hfirst).append (.pushed width)
    simp only [List.append_nil] at harg
    exact (ih hrest params.tail).append (harg _ _)

theorem Rhs.bears {rhs : Rhs} (hclean : (rhs.check table span).diagnostics = [])
    (known : SymbolTable) (target : Ty) :
    Mention.Bear (rhs.mentions known frame target) (rhs.reaches frame target) := by
  have hrecords : Records [] (rhs.inspections table span) := hclean ▸ rhs.check_records table span
  have hparts := (List.forall_mem_cons.1 hrecords).2
  cases rhs with
  | expr e => exact e.bears hclean
  | array elems => exact elementMentions_bears (clean_of_records hparts) _ 0
  | newPair fst snd =>
    simp only [check, diagnostics_bind, List.append_eq_nil_iff] at hclean
    rw [mentions, reaches, reads, reachesOf_ite]
    exact .ite _ (fst.bears hclean.1) (snd.bears hclean.2.1)
  | side which pair =>
    simp only [check, diagnostics_bind, List.append_eq_nil_iff] at hclean
    exact pair.bears hclean.1
  | call name args => exact argumentMentions_bears (clean_of_records hparts) _

theorem Target.bears {target : Target} (hclean : (target.check table span).diagnostics = []) :
    Mention.Bear (target.mentions frame) (reachesOf (target.reads frame)) := by
  cases target with
  | ident name => exact .nil
  | elem name indices =>
    simp only [check, diagnostics_bind, List.append_eq_nil_iff] at hclean
    rw [mentions, reads, reachesOf_append]
    exact (Mention.Bear.slots _).append (mentionsAll_bears indices (checkIndices_each hclean.2.1))
  | side which pair =>
    simp only [check, diagnostics_bind, List.append_eq_nil_iff] at hclean
    exact pair.bears hclean.1

theorem Expr.condition_bears {cond : Expr} (hclean : (checkCondition table cond).diagnostics = []) :
    Mention.Bear (cond.mentions frame) (reachesOf (cond.reads frame)) := by
  simp only [checkCondition, diagnostics_bind, List.append_eq_nil_iff] at hclean
  exact cond.bears hclean.1

end Checked

/-- The statement is checked without a diagnostic under some table. -/
def Stmt.Passes (s : Stmt) : Prop := ∃ table, (s.check table).diagnostics = []

/-- The code of a statement holds the distances that are read off the statement. -/
theorem Stmt.bears {s : Stmt} (hparts : ∀ part ∈ s.parts, part.Passes) (known : SymbolTable)
    (frame : Frame) : Mention.Bear (s.mentions known frame) (s.reaches frame) := by
  induction s generalizing frame with
  | skip span => exact .nil
  | declare span ty name rhs =>
    obtain ⟨table, hclean⟩ := (List.forall_mem_cons.1 hparts).1
    simp only [check, diagnostics_bind, List.append_eq_nil_iff] at hclean
    exact (Rhs.bears hclean.1 known ty).append (.slots _)
  | assign span target rhs =>
    obtain ⟨table, hclean⟩ := (List.forall_mem_cons.1 hparts).1
    simp only [check, diagnostics_bind, List.append_eq_nil_iff] at hclean
    rw [mentions, reaches, reachesOf_append]
    exact (Rhs.bears hclean.2.1 known _).append ((Target.bears hclean.1).append (.slots _))
  | increment span name => exact .slots _
  | read span target =>
    obtain ⟨table, hclean⟩ := (List.forall_mem_cons.1 hparts).1
    simp only [check, diagnostics_bind, List.append_eq_nil_iff] at hclean
    rw [mentions, reaches, reachesOf_append]
    exact (Target.bears hclean.1).append (.slots _)
  | free span e | ret span e | exit span e | print span e | println span e =>
    obtain ⟨table, hclean⟩ := (List.forall_mem_cons.1 hparts).1
    simp only [check, diagnostics_bind, List.append_eq_nil_iff] at hclean
    exact e.bears hclean.1
  | ifThen span cond body ih =>
    obtain ⟨⟨table, hclean⟩, hbody⟩ := List.forall_mem_cons.1 hparts
    simp only [check, diagnostics_bind, List.append_eq_nil_iff] at hclean
    exact (Expr.condition_bears hclean.1).append (ih hbody _)
  | ifElse span cond thenArm elseArm ihThen ihElse =>
    obtain ⟨⟨table, hclean⟩, hrest⟩ := List.forall_mem_cons.1 hparts
    obtain ⟨hthen, helse⟩ := List.forall_mem_append.1 hrest
    simp only [check, diagnostics_bind, List.append_eq_nil_iff] at hclean
    exact (Expr.condition_bears hclean.1).append ((ihThen hthen _).append (ihElse helse _))
  | whileDo span cond body ih =>
    obtain ⟨⟨table, hclean⟩, hbody⟩ := List.forall_mem_cons.1 hparts
    simp only [check, diagnostics_bind, List.append_eq_nil_iff] at hclean
    exact (ih hbody _).append (Expr.condition_bears hclean.1)
  | doWhile span body cond ih =>
    obtain ⟨⟨table, hclean⟩, hbody⟩ := List.forall_mem_cons.1 hparts
    simp only [check, diagnostics_bind, List.append_eq_nil_iff] at hclean
    exact (ih hbody _).append (Expr.condition_bears hclean.2.1)
  | forLoop span init cond step body ihInit ihStep ihBody =>
    obtain ⟨⟨table, hclean⟩, hrest⟩ := List.forall_mem_cons.1 hparts
    obtain ⟨hinit, hrest⟩ := List.forall_mem_append.1 hrest
    obtain ⟨hstep, hbody⟩ := List.forall_mem_append.1 hrest
    rw [check_forLoop, SymbolTable.diagnostics_scoped, checkFor_eq] at hclean
    simp only [diagnostics_bind, List.append_eq_nil_iff] at hclean
    exact (ihInit hinit _).append ((ihBody hbody _).append ((ihStep hstep _).append
      (Expr.condition_bears hclean.2.1)))
  | block span body ih =>
    obtain ⟨-, hbody⟩ := List.forall_mem_cons.1 hparts
    exact ih hbody _
  | seq span first second ihFirst ihSecond =>
    obtain ⟨-, hrest⟩ := List.forall_mem_cons.1 hparts
    obtain ⟨hfirst, hsecond⟩ := List.forall_mem_append.1 hrest
    exact (ihFirst hfirst frame).append (ihSecond hsecond _)

/-! ## §5 Programs -/

/-- Moves of the stack pointer by whole slots are cut into moves that can be held. -/
theorem encodable_adjustStack {config : Config} (hvalid : config.fault? = none) (op : ArithOp)
    {bytes : Nat} (hbytes : 4 ∣ bytes) :
    ∀ i ∈ adjustStack op config.stackChunk bytes, i.Encodable := by
  obtain ⟨hdvd, hpos, hle⟩ := Config.chunk_of_valid hvalid
  intro i hi
  obtain ⟨step, hstep, rfl⟩ := List.mem_map.1 hi
  obtain ⟨hfour, -, hmost⟩ := mem_chunks hdvd hpos hbytes hstep
  exact .inl ⟨by omega, by omega, isRotatedByte_of_le hfour (by omega)⟩

/-- Of what a step stands for only its own instruction can be out of reach. -/
theorem Pseudo.encodable_plain {config : Config} (hvalid : config.fault? = none) {q : Pseudo}
    (haligned : q.Aligned) (message : String → String) :
    (∀ i ∈ q.plain config.stackChunk message, i.Encodable) ↔ q.Encodable := by
  cases q with
  | instr i => simp [plain, Encodable]
  | routine cond r => simp [plain, Encodable, Instruction.Encodable]
  | message dst text =>
    simp [plain, Encodable, Instruction.Encodable, loadLabel, load, Address.InReach]
  | reserve bytes => exact iff_of_true (encodable_adjustStack hvalid .sub haligned) trivial
  | unreserve bytes => exact iff_of_true (encodable_adjustStack hvalid .add haligned) trivial

theorem Routine.encodable_sequence (r : Routine) (message : String → String) :
    ∀ i ∈ (r.sequence message).code, i.Encodable := by
  have hzero : IsImmediate 0 := isImmediate_of_byte (by decide)
  have hfour : IsImmediate 4 := isImmediate_of_byte (by decide)
  cases r <;> simp [sequence, Listing.opening, body, returns, ending, Ending.code, printWith,
    printFormatted, readFormatted, failIf, skipLength, Instruction.op, Instruction.call,
    Instruction.callIf, Instruction.jumpIf, Instruction.move, Instruction.load,
    Instruction.loadLabel, Instruction.loadLabelIf, Instruction.Encodable, Operand.Holds,
    Address.InReach, Address.held, hzero, hfour]

/-- The numbers in a body can all be held if and only if those in its steps can. -/
theorem Piece.encodable_body {config : Config} (hvalid : config.fault? = none)
    {known : String → Prop} {label : String} {first next : Nat} {code : List Pseudo}
    (hsound : (Piece.body label first next code).Sound Harmless known)
    (message : String → String) :
    (∀ i ∈ ((Piece.body label first next code).sequence config.stackChunk message).code,
      i.Encodable) ↔ ∀ q ∈ code, q.Encodable := by
  have hopening : ∀ i ∈ Listing.opening label true, i.Encodable := by
    simp [Listing.opening, Instruction.Encodable]
  have hending : ∀ i ∈ Ending.userRet.code, i.Encodable := by
    simp [Ending.code, Instruction.Encodable]
  have hsteps : (∀ i ∈ code.flatMap (·.plain config.stackChunk message), i.Encodable) ↔
      ∀ q ∈ code, q.Encodable := by
    rw [List.forall_mem_flatMap]
    exact forall₂_congr fun q hq =>
      Pseudo.encodable_plain hvalid (hsound.1.aligned (Int.dvd_zero 4) q hq) message
  show (∀ i ∈ Listing.opening label true ++ (_ ++ Ending.userRet.code), i.Encodable) ↔ _
  rw [List.forall_mem_append, List.forall_mem_append, hsteps, and_iff_right hopening,
    and_iff_left hending]

/-- The steps of the body's piece can be encoded. -/
def Body.EncodableIn (pieces : List Piece) (body : Body) : Prop :=
  ∀ first next code, .body body.label first next code ∈ pieces → ∀ q ∈ code, q.Encodable

theorem Body.encodableIn_iff {config : Config} {pieces : List Piece} {body : Body}
    {mentions : List Mention} {reaches : List Reach} {last : Frame}
    (hdistinct : (pieces.map Piece.name).Nodup) (hgenerated : body.Generated config pieces)
    (hmentions : body.step.Mentions body.frame mentions last)
    (hbear : Mention.Bear mentions reaches) :
    body.EncodableIn pieces ↔ ∀ reach ∈ reaches, reach.Encodable := by
  obtain ⟨resources, out, hframe, _, hrun, hmem⟩ := hgenerated
  rw [← (hmentions resources out hframe hrun).2] at hbear
  rw [← encodable_mentionsOf hbear]
  refine ⟨fun hall => hall _ _ _ hmem, fun hcode first next code hpiece => ?_⟩
  -- Two pieces with one name are the same piece, so the code is the generated one.
  have hsame := List.inj_on_of_nodup_map hdistinct hpiece hmem rfl
  rw [(Piece.body.inj hsame).2.2.2]
  exact hcode

namespace Program

variable {p : Program}

theorem parts_pass (hclean : p.check.diagnostics = []) : ∀ part ∈ p.parts, part.Passes := by
  intro part hpart
  rw [← parts_inspected hclean] at hpart
  obtain ⟨⟨table, phrase⟩, hi, hphrase⟩ := List.mem_filterMap.1 hpart
  cases phrase with
  | stmt s =>
    cases hphrase
    exact ⟨table, List.eq_nil_of_infix_nil (hclean ▸ p.check_records _ hi)⟩
  | expr | target | rhs => cases hphrase

theorem body_bears (hclean : p.check.diagnostics = []) {s : Stmt} (hs : s.parts ⊆ p.parts)
    (table : SymbolTable) (frame : Frame) :
    Mention.Bear (s.mentions table frame) (s.reaches frame) :=
  Stmt.bears (fun part hpart => parts_pass hclean part (hs hpart)) table frame

/-- The pieces of a program can be encoded if and only if the steps of its bodies can. -/
theorem encodable_pieces {config : Config} (hvalid : config.fault? = none) {known : String → Prop}
    {pieces : List Piece} {table : SymbolTable}
    (hsound : ∀ piece ∈ pieces, piece.Sound Harmless known)
    (hlabels : pieces.filterMap Piece.bodyLabel? = (p.bodies table).map (·.label))
    (message : String → String) :
    (∀ piece ∈ pieces, ∀ i ∈ (piece.sequence config.stackChunk message).code, i.Encodable) ↔
      ∀ body ∈ p.bodies table, body.EncodableIn pieces := by
  constructor
  · intro hall body _ first next code hpiece
    exact (Piece.encodable_body hvalid (hsound _ hpiece) message).1 (hall _ hpiece)
  · intro hbodies piece hpiece
    cases piece with
    | support r => exact r.encodable_sequence message
    | body label first next code =>
      -- Each piece that is no routine has the label of a body.
      have hlabel : label ∈ (p.bodies table).map (·.label) :=
        hlabels ▸ List.mem_filterMap.2 ⟨_, hpiece, rfl⟩
      obtain ⟨body, hbody, rfl⟩ := List.mem_map.1 hlabel
      exact (Piece.encodable_body hvalid (hsound _ hpiece) message).2
        (hbodies body hbody first next code hpiece)

/-- The code of a program can be encoded if and only if the distances can that are read off its
source: those between the stack pointer and the slots of variables, and those between arrays and the
elements of their literals. All other numbers can be held in every program that compiles. -/
theorem compile_encodable_iff {config : Config} {text : String} (h : p.compile config = .ok text) :
    ∃ listing, p.assemble p.check.value config = .ok listing ∧ text = listing.render ∧
      ((∀ i ∈ listing.instructions, i.Encodable) ↔ ∀ reach ∈ p.reaches, reach.Encodable) := by
  obtain ⟨hclean, listing, hassemble, rfl⟩ := compile_eq_ok h
  refine ⟨listing, hassemble, rfl, ?_⟩
  obtain ⟨hvalid, assembly, pieces, rfl, hbuilt, hlabels, hgenerated⟩ :=
    assemble_generated hassemble (writable_harmless _)
  have hheader : ∀ i ∈ assembly.listing.header, i.Encodable := by
    rw [hbuilt.header]
    simp [Instruction.Encodable]
  have hdata : ∀ i ∈ assembly.listing.dataSection, i.Encodable := by
    intro i hi
    rcases Listing.mem_dataSection hi with ⟨name, rfl⟩ | ⟨d, rfl⟩ <;> trivial
  -- The header and the data hold no numbers, so the pieces are what is left.
  rw [Listing.instructions, List.forall_mem_append, List.forall_mem_append,
    and_iff_right hheader, and_iff_left hdata, List.forall_mem_flatMap, hbuilt.sequences,
    List.forall_mem_map, encodable_pieces hvalid hbuilt.sound hlabels]
  rw [bodies, List.forall_mem_append, List.forall_mem_map, List.forall_mem_singleton] at hgenerated
  rw [bodies, List.forall_mem_append, List.forall_mem_map, List.forall_mem_singleton, reaches,
    List.forall_mem_append, List.forall_mem_flatMap]
  refine and_congr (forall₂_congr fun f hf => ?_) ?_
  · refine Body.encodableIn_iff hbuilt.distinct (hgenerated.1 f hf)
      (f.body.lowerBody_mentions _ _) (body_bears hclean ?_ _ _)
    exact fun _ hpart => List.mem_append_left _ (List.mem_flatMap.2 ⟨f, hf, hpart⟩)
  · exact Body.encodableIn_iff hbuilt.distinct hgenerated.2
      ((p.body.lowerBody_mentions _ _).before fun _ _ => .emit rfl)
      (body_bears hclean (List.subset_append_right _ _) _ _)

/-- An array of zeros whose last element is 4096 bytes from its start. -/
def longLiteral : Program where
  functions := []
  body := .declare {} (.toArray .int) "a" (.array (List.replicate 1024 (.int {} "0")))

/-- The statement inside scopes that hold one variable each. -/
def buried (s : Stmt) : Nat → Stmt
  | 0 => s
  | depth + 1 =>
    .block {} (.seq {} (.declare {} .int "x" (.expr (.int {} "0"))) (buried s depth))

/-- A variable that is read where it is 1028 bytes from the stack pointer. -/
def deepRead : Program where
  functions := []
  body := .seq {} (.declare {} .int "n" (.expr (.int {} "0"))) (buried (.read {} (.ident "n")) 257)

/-- The store of the last element and the addition to the stack pointer cannot be encoded. -/
theorem compile_encodable_iff_longLiteral_deepRead :
    (∃ (text : String) (listing : Listing), longLiteral.compile {} = .ok text ∧
      text = listing.render ∧ ¬ ∀ i ∈ listing.instructions, i.Encodable) ∧
    ∃ (text : String) (listing : Listing), deepRead.compile {} = .ok text ∧
      text = listing.render ∧ ¬ ∀ i ∈ listing.instructions, i.Encodable := by
  have hfails {p : Program} (hclean : p.check.diagnostics = [])
      (htypes : ∀ ty ∈ p.variableTypes, ty.isValid)
      (hdemand : p.demand ≤ ({} : Config).generalRegisters) {reach : Reach}
      (hreach : reach ∈ p.reaches) (hfar : ¬ reach.Encodable) :
      ∃ (text : String) (listing : Listing), p.compile {} = .ok text ∧
        text = listing.render ∧ ¬ ∀ i ∈ listing.instructions, i.Encodable := by
    have hassemble : (p.assemble p.check.value {}).isOk :=
      (check_clean hclean).assemble_of_demand (by decide) htypes hdemand
    obtain ⟨text, htext⟩ := compile_of_assemble (by decide) hclean hassemble
    obtain ⟨listing, -, hrender, hencodable⟩ := compile_encodable_iff htext
    exact ⟨text, listing, htext, hrender, fun hall => hfar (hencodable.1 hall reach hreach)⟩
  have haccess : ¬ (Reach.access 4096).Encodable := by simp [Reach.Encodable]
  have haddress : ¬ (Reach.address 1028).Encodable := by
    rintro (⟨-, -, h⟩ | ⟨-, -, h⟩)
    · exact absurd h.exists_rotateLeft (by decide)
    · exact absurd h.exists_rotateLeft (by decide)
  refine ⟨hfails ?_ ?_ ?_ ?_ haccess, hfails ?_ ?_ ?_ ?_ haddress⟩
  all_goals decide +kernel

end Program

end ArmCompiler
