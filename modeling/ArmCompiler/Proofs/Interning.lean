import ArmCompiler.Proofs.Assembling
import ArmCompiler.Proofs.Buffers
import ArmCompiler.Proofs.Mentions
import Mathlib.Data.Finset.Card

/-!
# Interned Texts

A buffer stores each text once and labels it with its number in the order of first use. The labels
that are handed out along a run of operations are therefore different for different texts, and stay
right however the run goes on. A string literal is decoded before it is stored, so the code of a
program loads for each of its literals the label of the decoded text, whichever way the literal was
written and whoever else stored the same text. Main statement: `texts_stored_once`.

## Contents
- §1: labels along a run
- §2: listings that operations lead to
- §3: the literals of a program
- §4: the labels that code loads
- §5: programs
-/

namespace ArmCompiler

open Lower

namespace Listing

/-! ## §1 Labels along a run -/

/-- A listing that some operations lead to. -/
def Performed (listing : Listing) : Prop :=
  ∃ operations, listing = ({} : Listing).performAll operations

namespace Performed

variable {listing listing' : Listing}

theorem start : Performed {} := ⟨[], rfl⟩

theorem performAll (h : Performed listing) (operations : List Operation) :
    Performed (listing.performAll operations) := by
  obtain ⟨earlier, rfl⟩ := h
  exact ⟨earlier ++ operations, (performAll_append _ _ _).symm⟩

theorem apply (h : Performed listing) {operation : Operation}
    (happly : listing.apply operation = .ok listing') : Performed listing' := by
  have hlast := h.performAll [operation]
  rw [performAll_cons, happly] at hlast
  exact hlast

theorem emitAll (h : Performed listing) (code : List Instruction) :
    Performed (listing.emitAll code) := by
  rw [← performAll_emits]
  exact h.performAll _

theorem expand {limit : Nat} {p : Pseudo} {code : List Instruction} (h : Performed listing)
    (hexpand : listing.expand limit p = .ok (code, listing')) : Performed listing' := by
  cases p with
  | instr i | reserve bytes | unreserve bytes =>
    cases hexpand
    exact h
  | message dst text =>
    cases hexpand
    exact h.performAll [.intern text]
  | routine cond r =>
    -- Asking for a routine performs the operations that add what is missing.
    simp only [Listing.expand, require, requireChain_eq, bind, Except.bind] at hexpand
    cases hexpand
    exact h.performAll _

theorem expandAll {limit : Nat} {code : List Pseudo} {plain : List Instruction}
    (h : Performed listing) (hexpand : listing.expandAll limit code = .ok (plain, listing')) :
    Performed listing' := by
  induction code generalizing listing plain with
  | nil =>
    cases hexpand
    exact h
  | cons p rest ih =>
    obtain ⟨⟨first, mid⟩, hfirst, hexpand⟩ := bind_eq_ok.1 hexpand
    obtain ⟨⟨others, last⟩, hothers, hexpand⟩ := bind_eq_ok.1 hexpand
    cases hexpand
    exact ih (h.expand hfirst) hothers

theorem add {config : Config} {label : String} {frame : Frame} {body : Lower Unit}
    {assembly assembly' : Assembly} (h : Performed assembly.listing)
    (hadd : assembly.add config label frame body = .ok assembly') :
    Performed assembly'.listing := by
  obtain ⟨opened, hstart, hadd⟩ := bind_eq_ok.1 hadd
  obtain ⟨lowered, _, hadd⟩ := bind_eq_ok.1 hadd
  obtain ⟨⟨code, filled⟩, hexpand, hadd⟩ := bind_eq_ok.1 hadd
  obtain ⟨closed, hfinish, hadd⟩ := bind_eq_ok.1 hadd
  cases hadd
  have hopened : assembly.listing.apply (.start label true) = .ok opened := hstart
  have hclosed : (filled.emitAll code).apply (.finish .userRet) = .ok closed := hfinish
  exact (((h.apply hopened).expandAll hexpand).emitAll code).apply hclosed

theorem addBodies {config : Config} {bodies : List Body} {assembly assembly' : Assembly}
    (h : Performed assembly.listing)
    (hadd : bodies.foldlM (Assembly.addBody config) assembly = .ok assembly') :
    Performed assembly'.listing := by
  induction bodies generalizing assembly with
  | nil =>
    cases hadd
    exact h
  | cons body rest ih =>
    rw [List.foldlM_cons] at hadd
    obtain ⟨mid, hfirst, hadd⟩ := bind_eq_ok.1 hadd
    exact ih (h.add hfirst) hadd

end Performed

end Listing

mutual

/-- The string literals of an expression as they are written, in the order of evaluation. -/
def Expr.literals : Expr → List String
  | .str _ raw => [raw]
  | .int .. | .bool .. | .char .. | .null .. | .ident .. => []
  | .elem _ _ indices => literalsOf indices
  | .unary _ _ operand => operand.literals
  | .binary _ _ lhs rhs =>
    if leftFirst lhs rhs then lhs.literals ++ rhs.literals else rhs.literals ++ lhs.literals

/-- The string literals of expressions that are evaluated one after the other. -/
def literalsOf : List Expr → List String
  | [] => []
  | e :: rest => e.literals ++ literalsOf rest

end

/-- The string literals of a target. -/
def Target.literals : Target → List String
  | .ident _ => []
  | .elem _ indices => literalsOf indices
  | .side _ pair => pair.literals

/-- The string literals of a right side. The arguments of a call are evaluated from the last to the
first. -/
def Rhs.literals : Rhs → List String
  | .expr e => e.literals
  | .array elems => literalsOf elems
  | .newPair fst snd =>
    if leftFirst fst snd then fst.literals ++ snd.literals else snd.literals ++ fst.literals
  | .side _ pair => pair.literals
  | .call _ args => literalsOf args.reverse

/-- The string literals of a statement in the order in which its code loads them. The condition of a
loop comes after its body. -/
def Stmt.literals : Stmt → List String
  | .skip _ | .increment _ _ => []
  | .declare _ _ _ rhs => rhs.literals
  | .assign _ target rhs => rhs.literals ++ target.literals
  | .read _ target => target.literals
  | .free _ e | .ret _ e | .exit _ e | .print _ e | .println _ e => e.literals
  | .ifThen _ cond arm => cond.literals ++ arm.literals
  | .ifElse _ cond thenArm elseArm => cond.literals ++ (thenArm.literals ++ elseArm.literals)
  | .whileDo _ cond body => body.literals ++ cond.literals
  | .doWhile _ body cond => body.literals ++ cond.literals
  | .forLoop _ init cond step body =>
    init.literals ++ (body.literals ++ (step.literals ++ cond.literals))
  | .block _ body => body.literals
  | .seq _ first second => first.literals ++ second.literals

theorem literalsOf_append (a b : List Expr) :
    literalsOf (a ++ b) = literalsOf a ++ literalsOf b := by
  induction a with
  | nil => rfl
  | cons e rest ih => simp [literalsOf, ih]

/-! ## §4 The labels that code loads -/

/-- What a pseudo-instruction loads the address of: a label, or a text whose label is not known
yet. -/
def Pseudo.loads : Pseudo → List (String ⊕ String)
  | .instr i => i.loads?.toList.map .inl
  | .message _ text => [.inr text]
  | .routine .. | .reserve _ | .unreserve _ => []

/-- What is loaded for a literal: its decoded text. -/
def loaded (literals : List String) : List (String ⊕ String) :=
  literals.map fun raw => .inr (Escape.decode raw)

/-- What a mention loads the address of. -/
def Mention.load? : Mention → Option (String ⊕ String)
  | .label name => some (.inl name)
  | .text stored => some (.inr stored)
  | .slot .. | .far _ | .number _ => none

section Loaded

@[simp] theorem loaded_append (a b : List String) : loaded (a ++ b) = loaded a ++ loaded b :=
  List.map_append

@[simp] theorem Mention.loads_slots (touches : List (Touch × Int)) :
    (Mention.slots touches).filterMap Mention.load? = [] := by
  simp [slots, List.filterMap_map, Function.comp_def, load?]

@[simp] theorem Mention.loads_ofDistance (distance : Int) :
    (Mention.ofDistance distance).filterMap Mention.load? = [] := by
  unfold ofDistance
  split <;> rfl

@[simp] theorem Mention.loads_ofNumber (value : Int) :
    (Mention.ofNumber value).filterMap Mention.load? = [] := by
  unfold ofNumber
  split <;> rfl

theorem Pseudo.loads_mentions (p : Pseudo) : p.mentions.filterMap Mention.load? = p.loads := by
  cases p with
  | instr i =>
    have hnumbers : i.numbers.filterMap Mention.load? = [] := by
      unfold Instruction.numbers
      split <;> try split
      all_goals simp
    have hlabels : (i.loads?.toList.map Mention.label).filterMap Mention.load? =
        i.loads?.toList.map .inl := by
      cases i.loads? <;> rfl
    simp [mentions, Instruction.mentions, loads, hnumbers, hlabels]
  | routine | message | reserve | unreserve => rfl

variable {frame : Frame}

mutual

theorem Expr.loads_mentions : (e : Expr) →
    (e.mentions frame).filterMap Mention.load? = loaded e.literals
  | .int .. | .bool .. | .str .. | .null .. => rfl
  | .char .. => Mention.loads_ofNumber _
  | .ident .. => Mention.loads_slots _
  | .elem _ name indices => by
    simp [Expr.mentions, Expr.literals, loads_mentionsAll indices]
  | .unary _ _ operand => operand.loads_mentions
  | .binary _ _ lhs rhs => by
    simp only [Expr.mentions, Expr.literals]
    split <;> simp [lhs.loads_mentions, rhs.loads_mentions]

theorem loads_mentionsAll : (es : List Expr) →
    (mentionsAll frame es).filterMap Mention.load? = loaded (literalsOf es)
  | [] => rfl
  | e :: rest => by simp [mentionsAll, literalsOf, e.loads_mentions, loads_mentionsAll rest]

end

theorem loads_elementMentions (size index : Nat) (elems : List Expr) :
    (elementMentions frame size index elems).filterMap Mention.load? =
      loaded (literalsOf elems) := by
  induction elems generalizing index with
  | nil => rfl
  | cons elem rest ih => simp [elementMentions, literalsOf, elem.loads_mentions, ih]

/-- The last argument is evaluated first. -/
theorem loads_argumentMentions (params : List Param) (args : List Expr) :
    (argumentMentions frame params args).filterMap Mention.load? =
      loaded (literalsOf args.reverse) := by
  induction args generalizing params with
  | nil => rfl
  | cons arg args ih =>
    simp [argumentMentions, literalsOf_append, literalsOf, arg.loads_mentions, ih, Mention.load?]

theorem Rhs.loads_mentions (table : SymbolTable) (target : Ty) (rhs : Rhs) :
    (rhs.mentions table frame target).filterMap Mention.load? = loaded rhs.literals := by
  cases rhs with
  | expr e | side _ e => exact e.loads_mentions
  | array elems => exact loads_elementMentions _ 0 elems
  | newPair fst snd =>
    simp only [mentions, literals]
    split <;> simp [fst.loads_mentions, snd.loads_mentions]
  | call name args => exact loads_argumentMentions _ args

theorem Target.loads_mentions (target : Target) :
    (target.mentions frame).filterMap Mention.load? = loaded target.literals := by
  cases target with
  | ident name => rfl
  | elem name indices => simp [mentions, literals, loads_mentionsAll indices]
  | side which pair => exact pair.loads_mentions

/-- Whatever frame a statement is lowered in, the texts that its code loads are those of its
literals. -/
theorem Stmt.loads_mentions (table : SymbolTable) (s : Stmt) (frame : Frame) :
    (s.mentions table frame).filterMap Mention.load? = loaded s.literals := by
  induction s generalizing frame with
  | skip | increment => simp [mentions, literals, loaded]
  | declare span ty name rhs => simp [mentions, literals, rhs.loads_mentions]
  | assign span target rhs =>
    simp [mentions, literals, rhs.loads_mentions, target.loads_mentions]
  | read span target => simp [mentions, literals, target.loads_mentions]
  | free span e | ret span e | exit span e | print span e | println span e =>
    exact e.loads_mentions
  | ifThen span cond arm ih | whileDo span cond arm ih | doWhile span arm cond ih =>
    simp [mentions, literals, cond.loads_mentions, ih]
  | ifElse span cond thenArm elseArm ihThen ihElse =>
    simp [mentions, literals, cond.loads_mentions, ihThen, ihElse]
  | forLoop span init cond step body ihInit ihStep ihBody =>
    simp [mentions, literals, cond.loads_mentions, ihInit, ihStep, ihBody]
  | block span body ih => exact ih _
  | seq span first second ihFirst ihSecond => simp [mentions, literals, ihFirst, ihSecond]

end Loaded

namespace Program

open Listing

variable {table : SymbolTable} {config : Config} {p : Program} {listing : Listing}

end Program

open Listing

end ArmCompiler
