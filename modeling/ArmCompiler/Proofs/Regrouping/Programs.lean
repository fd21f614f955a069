import ArmCompiler.Proofs.Assembling
import ArmCompiler.Proofs.CheckedPrograms
import ArmCompiler.Proofs.Regrouping.HollowScopes

/-!
# Regrouped Programs

The assembly text of a program does not depend on source positions, on how sequences are bracketed,
on statements that do nothing, or on a block around nothing but another block. Two statements are
*regroupings* of one another if such changes, made anywhere inside them, lead from one to the other.

Positions and brackets change no step of code generation. The other changes show only in moves of
the stack pointer by no bytes, which are expanded into no instruction at all.

## Contents
- §1: syntax without positions
- §2: positions are not looked at
- §3: regroupings
- §4: steps alike up to idle moves
- §5: statements
- §6: programs
-/

namespace ArmCompiler

open Instruction Lower

/-! ## §1 Syntax without positions -/

mutual

/-- The expression with all nodes moved to one position. -/
def Expr.unplaced : Expr → Expr
  | .int _ text => .int {} text
  | .bool _ value => .bool {} value
  | .char _ value => .char {} value
  | .str _ raw => .str {} raw
  | .null _ => .null {}
  | .ident _ name => .ident {} name
  | .elem _ name indices => .elem {} name (unplacedAll indices)
  | .unary _ op operand => .unary {} op operand.unplaced
  | .binary _ op lhs rhs => .binary {} op lhs.unplaced rhs.unplaced

/-- All expressions of a list, with all nodes moved to one position. -/
def unplacedAll : List Expr → List Expr
  | [] => []
  | e :: rest => e.unplaced :: unplacedAll rest

end

def Target.unplaced : Target → Target
  | .ident name => .ident name
  | .elem name indices => .elem name (unplacedAll indices)
  | .side which pair => .side which pair.unplaced

def Rhs.unplaced : Rhs → Rhs
  | .expr e => .expr e.unplaced
  | .array elems => .array (unplacedAll elems)
  | .newPair fst snd => .newPair fst.unplaced snd.unplaced
  | .side which pair => .side which pair.unplaced
  | .call name args => .call name (unplacedAll args)

/-- The statement with all nodes moved to one position. -/
def Stmt.unplaced : Stmt → Stmt
  | .skip _ => .skip {}
  | .declare _ ty name rhs => .declare {} ty name rhs.unplaced
  | .assign _ target rhs => .assign {} target.unplaced rhs.unplaced
  | .increment _ name => .increment {} name
  | .read _ target => .read {} target.unplaced
  | .free _ e => .free {} e.unplaced
  | .ret _ e => .ret {} e.unplaced
  | .exit _ e => .exit {} e.unplaced
  | .print _ e => .print {} e.unplaced
  | .println _ e => .println {} e.unplaced
  | .ifThen _ cond arm => .ifThen {} cond.unplaced arm.unplaced
  | .ifElse _ cond thenArm elseArm => .ifElse {} cond.unplaced thenArm.unplaced elseArm.unplaced
  | .whileDo _ cond body => .whileDo {} cond.unplaced body.unplaced
  | .doWhile _ body cond => .doWhile {} body.unplaced cond.unplaced
  | .forLoop _ init cond step body =>
    .forLoop {} init.unplaced cond.unplaced step.unplaced body.unplaced
  | .block _ body => .block {} body.unplaced
  | .seq _ first second => .seq {} first.unplaced second.unplaced

/-! ## §2 Positions are not looked at -/

@[simp] theorem length_unplacedAll (exprs : List Expr) :
    (unplacedAll exprs).length = exprs.length := by
  induction exprs with
  | nil => rfl
  | cons e rest ih => simp only [unplacedAll, List.length_cons, ih]

@[simp] theorem isEmpty_unplacedAll (exprs : List Expr) :
    (unplacedAll exprs).isEmpty = exprs.isEmpty := by
  cases exprs <;> rfl

mutual

@[simp] theorem Expr.weight_unplaced : (e : Expr) → e.unplaced.weight = e.weight
  | .int .. | .bool .. | .char .. | .str .. | .null .. | .ident .. => rfl
  | .elem _ _ indices => by
    simp only [Expr.unplaced, Expr.weight, maxWeight_unplacedAll indices]
  | .unary _ _ operand => operand.weight_unplaced
  | .binary _ _ lhs rhs => by
    simp only [Expr.unplaced, Expr.weight, lhs.weight_unplaced, rhs.weight_unplaced]

theorem maxWeight_unplacedAll : (exprs : List Expr) →
    maxWeight (unplacedAll exprs) = maxWeight exprs
  | [] => rfl
  | e :: rest => by
    simp only [unplacedAll, maxWeight, e.weight_unplaced, maxWeight_unplacedAll rest]

end

@[simp] theorem leftFirst_unplaced (lhs rhs : Expr) :
    leftFirst lhs.unplaced rhs.unplaced = leftFirst lhs rhs := by
  simp only [leftFirst, Expr.weight_unplaced]

@[simp] theorem Expr.typeIn_unplaced (frame : Frame) (e : Expr) :
    e.unplaced.typeIn frame = e.typeIn frame := by
  cases e <;> simp only [unplaced, typeIn, length_unplacedAll]

@[simp] theorem Lower.typeOf_unplaced (e : Expr) : typeOf e.unplaced = typeOf e := by
  simp only [typeOf, Expr.typeIn_unplaced]

mutual

@[simp] theorem Expr.lower_unplaced : (e : Expr) → e.unplaced.lower = e.lower
  | .int .. | .bool .. | .char .. | .str .. | .null .. | .ident .. => rfl
  | .elem _ _ indices => by
    simp only [Expr.unplaced, Expr.lower, lowerIndices_unplacedAll indices]
  | .unary _ _ operand => by
    simp only [Expr.unplaced, Expr.lower, operand.lower_unplaced]
  | .binary _ _ lhs rhs => by
    simp only [Expr.unplaced, Expr.lower, leftFirst_unplaced, lhs.lower_unplaced,
      rhs.lower_unplaced]

theorem lowerIndices_unplacedAll : (indices : List Expr) → (array : Register) → (ty : Ty) →
    lowerIndices array ty (unplacedAll indices) = lowerIndices array ty indices
  | [], _, _ => rfl
  | i :: rest, array, ty => by
    simp only [unplacedAll, lowerIndices, i.lower_unplaced, isEmpty_unplacedAll,
      lowerIndices_unplacedAll rest]

end

namespace Lower

@[simp] theorem sideAddress_unplaced (side : Side) (pair : Expr) :
    sideAddress side pair.unplaced = sideAddress side pair := by
  simp only [sideAddress, Expr.lower_unplaced]

@[simp] theorem elementAddress_unplacedAll (name : String) (indices : List Expr) :
    elementAddress name (unplacedAll indices) = elementAddress name indices := by
  simp only [elementAddress, lowerIndices_unplacedAll]

@[simp] theorem literalElementType_unplacedAll (target : Ty) (elems : List Expr) :
    literalElementType target (unplacedAll elems) = literalElementType target elems := by
  cases elems with
  | nil => rfl
  | cons first rest => simp only [literalElementType, unplacedAll, typeOf_unplaced]

@[simp] theorem storeElements_unplacedAll (array : Register) (ty : Ty) (index : Nat)
    (elems : List Expr) :
    storeElements array ty index (unplacedAll elems) = storeElements array ty index elems := by
  induction elems generalizing index with
  | nil => rfl
  | cons elem rest ih => simp only [unplacedAll, storeElements, Expr.lower_unplaced, ih]

@[simp] theorem pushArgs_unplacedAll (params : List Param) (args : List Expr) :
    pushArgs params (unplacedAll args) = pushArgs params args := by
  induction args generalizing params with
  | nil => rfl
  | cons arg args ih =>
    simp only [unplacedAll, pushArgs, Expr.lower_unplaced, typeOf_unplaced, ih]

@[simp] theorem callFunction_unplacedAll (table : SymbolTable) (name : String)
    (args : List Expr) :
    callFunction table name (unplacedAll args) = callFunction table name args := by
  simp only [callFunction, pushArgs_unplacedAll, length_unplacedAll]

end Lower

@[simp] theorem Rhs.lower_unplaced (table : SymbolTable) (target : Ty) (rhs : Rhs) :
    rhs.unplaced.lower table target = rhs.lower table target := by
  cases rhs <;>
    simp only [unplaced, lower, arrayLiteral, Lower.newPair, leftFirst_unplaced,
      Expr.lower_unplaced, literalElementType_unplacedAll, storeElements_unplacedAll,
      length_unplacedAll, sideAddress_unplaced, callFunction_unplacedAll]

@[simp] theorem Target.typeIn_unplaced (frame : Frame) (target : Target) :
    target.unplaced.typeIn frame = target.typeIn frame := by
  cases target <;>
    simp only [unplaced, typeIn, Expr.sideTypeIn, length_unplacedAll, Expr.typeIn_unplaced]

@[simp] theorem Target.place_unplaced (target : Target) : target.unplaced.place = target.place := by
  cases target <;> simp only [unplaced, place, elementAddress_unplacedAll, sideAddress_unplaced]

@[simp] theorem Target.width_unplaced (ty : Ty) (target : Target) :
    target.unplaced.width ty = target.width ty := by
  cases target <;> rfl

namespace Stmt

@[simp] theorem slots_unplaced (s : Stmt) : s.unplaced.slots = s.slots := by
  induction s with
  | seq span first second ihFirst ihSecond => simp only [unplaced, slots, ihFirst, ihSecond]
  | _ => rfl

/-- The code of a statement does not depend on the positions in it. -/
theorem lower_unplaced (table : SymbolTable) (s : Stmt) :
    s.unplaced.lower table = s.lower table := by
  induction s <;>
    simp only [unplaced, lower, slots_unplaced, Rhs.lower_unplaced, Target.typeIn_unplaced,
      Target.place_unplaced, Target.width_unplaced, Expr.lower_unplaced, printValue,
      testCondition, loopBack, typeOf_unplaced, *]

/-! ## §3 Regroupings -/

/-- Statements that differ in positions, in the brackets of sequences, in idle statements of
sequences and in blocks around nothing but a block. -/
inductive Regrouped : Stmt → Stmt → Prop where
  | moved {s s' : Stmt} (h : s.unplaced = s'.unplaced) : Regrouped s s'
  | assoc (outer inner outer' inner' : Span) (a b c : Stmt) :
    Regrouped (.seq outer (.seq inner a b) c) (.seq outer' a (.seq inner' b c))
  | skipFirst (outer inner : Span) (s : Stmt) : Regrouped (.seq outer (.skip inner) s) s
  | skipLast (outer inner : Span) (s : Stmt) : Regrouped (.seq outer s (.skip inner)) s
  | nestedBlock (outer inner : Span) (s : Stmt) :
    Regrouped (.block outer (.block inner s)) (.block outer s)
  | ifThen (span : Span) (cond : Expr) {arm arm' : Stmt} (h : Regrouped arm arm') :
    Regrouped (.ifThen span cond arm) (.ifThen span cond arm')
  | ifElse (span : Span) (cond : Expr) {thenArm thenArm' elseArm elseArm' : Stmt}
    (hThen : Regrouped thenArm thenArm') (hElse : Regrouped elseArm elseArm') :
    Regrouped (.ifElse span cond thenArm elseArm) (.ifElse span cond thenArm' elseArm')
  | whileDo (span : Span) (cond : Expr) {body body' : Stmt} (h : Regrouped body body') :
    Regrouped (.whileDo span cond body) (.whileDo span cond body')
  | doWhile (span : Span) (cond : Expr) {body body' : Stmt} (h : Regrouped body body') :
    Regrouped (.doWhile span body cond) (.doWhile span body' cond)
  | forLoop (span : Span) (cond : Expr) {init init' step step' body body' : Stmt}
    (hInit : Regrouped init init') (hStep : Regrouped step step') (hBody : Regrouped body body') :
    Regrouped (.forLoop span init cond step body) (.forLoop span init' cond step' body')
  | block (span : Span) {body body' : Stmt} (h : Regrouped body body') :
    Regrouped (.block span body) (.block span body')
  | seq (span : Span) {first first' second second' : Stmt} (hFirst : Regrouped first first')
    (hSecond : Regrouped second second') :
    Regrouped (.seq span first second) (.seq span first' second')
  | symm {s s' : Stmt} (h : Regrouped s s') : Regrouped s' s
  | trans {s s' s'' : Stmt} (h : Regrouped s s') (h' : Regrouped s' s'') : Regrouped s s''

theorem Regrouped.refl (s : Stmt) : Regrouped s s := .moved rfl

/-- Regroupings declare as many variables in the scope they stand in. -/
theorem Regrouped.slots_eq {s s' : Stmt} (h : Regrouped s s') : s.slots = s'.slots := by
  -- Only sequences share their scope with their parts. All other forms have no variables of their
  -- own in it, whatever is inside.
  induction h with
  | @moved s s' h => rw [← s.slots_unplaced, h, s'.slots_unplaced]
  | assoc outer inner outer' inner' a b c => exact Nat.add_assoc ..
  | skipFirst outer inner s => exact Nat.zero_add _
  | seq span hFirst hSecond ihFirst ihSecond => simp only [slots, ihFirst, ihSecond]
  | symm h ih => exact ih.symm
  | trans h h' ih ih' => exact ih.trans ih'
  | _ => rfl

end Stmt

/-- Functions with one name and signature whose bodies are regroupings of one another. -/
structure Function.Regrouped (f f' : Function) : Prop where
  name : f.name = f'.name
  returnType : f.returnType = f'.returnType
  params : f.params = f'.params
  body : f.body.Regrouped f'.body

/-- Programs whose functions, one by one, and main bodies are regroupings of one another. -/
structure Program.Regrouped (p p' : Program) : Prop where
  functions : List.Forall₂ Function.Regrouped p.functions p'.functions
  body : p.body.Regrouped p'.body

/-! ## §4 Steps alike up to idle moves -/

/-- Whether a pseudo-instruction moves the stack pointer by no bytes. -/
def Pseudo.isIdle : Pseudo → Bool
  | .reserve bytes | .unreserve bytes => bytes = 0
  | _ => false

/-- Code without idle moves. -/
def trim (code : List Pseudo) : List Pseudo := code.filter (!·.isIdle)

@[simp] theorem trim_append (a b : List Pseudo) : trim (a ++ b) = trim a ++ trim b :=
  List.filter_append ..

/-- What a step leaves behind, without idle moves in its code. -/
def Lowered.trim {α : Type} (out : Lowered α) : Lowered α :=
  { out with code := ArmCompiler.trim out.code }

@[simp] theorem Lowered.trim_idling (out : Lowered Unit) : out.idling.trim = out.trim := by
  simp [idling, trim, ArmCompiler.trim, Pseudo.isIdle]

/-- An idle move stands for no instruction. -/
theorem Listing.expand_idle (limit : Nat) (listing : Listing) {p : Pseudo} (h : p.isIdle) :
    listing.expand limit p = .ok ([], listing) := by
  cases p with
  | reserve bytes | unreserve bytes =>
    obtain rfl : bytes = 0 := by simpa [Pseudo.isIdle] using h
    simp [expand, adjustStack, chunks]
  | _ => simp [Pseudo.isIdle] at h

/-- Idle moves make no difference to the listing. -/
theorem Listing.expandAll_trim (limit : Nat) (listing : Listing) (code : List Pseudo) :
    listing.expandAll limit (trim code) = listing.expandAll limit code := by
  induction code generalizing listing with
  | nil => rfl
  | cons p rest ih =>
    cases hidle : p.isIdle with
    | true =>
      have htrim : trim (p :: rest) = trim rest := by simp [trim, hidle]
      rw [htrim, ih, expandAll, expand_idle limit listing hidle]
      simp only [bind, Except.bind]
      cases listing.expandAll limit rest <;> rfl
    | false =>
      have htrim : trim (p :: rest) = p :: trim rest := by simp [trim, hidle]
      rw [htrim, expandAll, expandAll]
      simp only [ih]

namespace Lower

variable {α β : Type}

/-- Steps that fail with the same error, or give the same value, leave the same resources and emit
the same code but for idle moves. -/
def Alike (step step' : Lower α) : Prop :=
  ∀ start, (step.run start).map Lowered.trim = (step'.run start).map Lowered.trim

namespace Alike

theorem of_eq {step step' : Lower α} (h : step = step') : step.Alike step' := fun _ => h ▸ rfl

theorem symm {step step' : Lower α} (h : step.Alike step') : step'.Alike step :=
  fun start => (h start).symm

theorem trans {a b c : Lower α} (h : a.Alike b) (h' : b.Alike c) : a.Alike c :=
  fun start => (h start).trans (h' start)

/-- A step that is alike succeeds when the other does, and then the two leave the same behind. -/
theorem run_eq_ok {step step' : Lower α} (h : step.Alike step') {start : Resources}
    {out : Lowered α} (hrun : step.run start = .ok out) :
    ∃ code, step'.run start = .ok { out with code } ∧ trim code = trim out.code := by
  have hsame := h start
  rw [hrun] at hsame
  cases hrun' : step'.run start with
  | error e => simp [hrun', Except.map] at hsame
  | ok out' =>
    obtain ⟨value, resources, code⟩ := out'
    simp only [hrun', Except.map, Lowered.trim, Except.ok.injEq, Lowered.mk.injEq] at hsame
    obtain ⟨rfl, rfl, hcode⟩ := hsame
    exact ⟨code, rfl, hcode.symm⟩

theorem run_eq_error {step step' : Lower α} (h : step.Alike step') {start : Resources}
    {e : CompileError} (hrun : step.run start = .error e) : step'.run start = .error e := by
  have hsame := h start
  rw [hrun] at hsame
  cases hrun' : step'.run start with
  | error e' => simpa [hrun', Except.map, eq_comm] using hsame
  | ok out' => simp [hrun', Except.map] at hsame

theorem bind {step step' : Lower α} {next next' : α → Lower β} (hstep : step.Alike step')
    (hnext : ∀ a, (next a).Alike (next' a)) : (step >>= next).Alike (step' >>= next') := by
  intro start
  rw [run_bind, run_bind]
  cases hfirst : step.run start with
  | error e => rw [hstep.run_eq_error hfirst]
  | ok first =>
    obtain ⟨code, hfirst', hcode⟩ := hstep.run_eq_ok hfirst
    simp only [hfirst']
    cases hsecond : (next first.value).run first.resources with
    | error e => rw [(hnext _).run_eq_error hsecond]
    | ok second =>
      obtain ⟨code', hsecond', hcode'⟩ := (hnext _).run_eq_ok hsecond
      simp [hsecond', Except.map, Lowered.trim, hcode, hcode']

/-- One more step before steps that are alike. -/
theorem after (step : Lower α) {next next' : α → Lower β}
    (hnext : ∀ a, (next a).Alike (next' a)) : (step >>= next).Alike (step >>= next') :=
  bind (.of_eq rfl) hnext

/-- The same steps after steps that are alike. -/
theorem before {step step' : Lower α} (hstep : step.Alike step') (next : α → Lower β) :
    (step >>= next).Alike (step' >>= next) :=
  bind hstep fun _ => .of_eq rfl

theorem inScope {slots slots' : Nat} {step step' : Lower Unit} (hslots : slots = slots')
    (hstep : step.Alike step') : (Lower.inScope slots step).Alike (Lower.inScope slots' step') := by
  subst hslots
  exact .after _ fun _ => .after _ fun _ => .before hstep _

/-- A body that is alike gives the same listing. -/
theorem add_eq {step step' : Lower Unit} (h : step.Alike step') (config : Config) (label : String)
    (frame : Frame) (assembly : Assembly) :
    assembly.add config label frame step = assembly.add config label frame step' := by
  unfold Assembly.add
  congr 1
  funext listing
  cases hrun : step.run { assembly.resources with frame } with
  | error e => rw [h.run_eq_error hrun]
  | ok out =>
    obtain ⟨code, hrun', hcode⟩ := h.run_eq_ok hrun
    rw [hrun']
    simp only [Bind.bind, Except.bind]
    rw [← Listing.expandAll_trim _ _ out.code, ← hcode, Listing.expandAll_trim]

end Alike

end Lower

/-! ## §5 Statements -/

/-- Regroupings generate the same code but for idle moves of the stack pointer. -/
theorem Stmt.Regrouped.lower_alike (table : SymbolTable) {s s' : Stmt} (h : Regrouped s s') :
    (s.lower table).Alike (s'.lower table) := by
  -- By induction on the regrouping. Rules that change nothing but brackets give equal steps, and
  -- the rules for parts follow the steps of the lowering up to the part.
  induction h with
  | @moved s s' h =>
    exact .of_eq (by rw [← lower_unplaced table s, h, lower_unplaced table s'])
  | assoc outer inner outer' inner' a b c => exact .of_eq (lower_seq_assoc table outer inner a b c)
  | skipFirst outer inner s => exact .of_eq (by simp only [lower, pure_bind])
  | skipLast outer inner s => exact .of_eq (by simp only [lower, bind_pure_unit])
  | nestedBlock outer inner s =>
    -- The outer block declares nothing itself, so its scope is hollow.
    intro start
    have hnested := inScope_inScope s.slots (s.lower_overlooks table) start
    simp only [lower, slots, hnested]
    cases (Lower.inScope s.slots (s.lower table)).run start with
    | error e => rfl
    | ok out => simp [Except.map]
  | ifThen span cond h ih =>
    apply Alike.after
    intro done
    apply Alike.after
    intro _
    apply Alike.after
    intro _
    apply Alike.before
    exact .inScope h.slots_eq ih
  | ifElse span cond hThen hElse ihThen ihElse =>
    apply Alike.after
    intro done
    apply Alike.after
    intro _
    apply Alike.after
    intro otherwise
    apply Alike.after
    intro _
    apply Alike.bind (.inScope hThen.slots_eq ihThen)
    intro _
    apply Alike.after
    intro _
    apply Alike.after
    intro _
    apply Alike.before
    exact .inScope hElse.slots_eq ihElse
  | whileDo span cond h ih =>
    apply Alike.after
    intro check
    apply Alike.after
    intro top
    apply Alike.after
    intro _
    apply Alike.after
    intro _
    apply Alike.before
    exact .inScope h.slots_eq ih
  | doWhile span cond h ih =>
    apply Alike.after
    intro top
    apply Alike.after
    intro _
    apply Alike.before
    exact .inScope h.slots_eq ih
  | forLoop span cond hInit hStep hBody ihInit ihStep ihBody =>
    apply Alike.inScope hInit.slots_eq
    apply Alike.bind ihInit
    intro _
    apply Alike.after
    intro check
    apply Alike.after
    intro top
    apply Alike.after
    intro _
    apply Alike.after
    intro _
    apply Alike.bind (.inScope hBody.slots_eq ihBody)
    intro _
    apply Alike.before
    exact ihStep
  | block span h ih => exact .inScope h.slots_eq ih
  | seq span hFirst hSecond ihFirst ihSecond =>
    apply Alike.bind ihFirst
    intro _
    exact ihSecond
  | symm h ih => exact ih.symm
  | trans h h' ih ih' => exact ih.trans ih'

theorem Stmt.Regrouped.lowerBody_alike (table : SymbolTable) {s s' : Stmt} (h : Regrouped s s') :
    (s.lowerBody table).Alike (s'.lowerBody table) :=
  .inScope h.slots_eq (h.lower_alike table)

/-! ## §6 Programs -/

namespace Program

variable {table : SymbolTable} {config : Config}

theorem assembleFunctions_regrouped {functions functions' : List Function}
    (h : List.Forall₂ Function.Regrouped functions functions') (assembly : Assembly) :
    functions.foldlM (Function.assemble table config) assembly =
      functions'.foldlM (Function.assemble table config) assembly := by
  induction h generalizing assembly with
  | nil => rfl
  | @cons f f' rest rest' hf hrest ih =>
    have hfirst : f.assemble table config assembly = f'.assemble table config assembly := by
      unfold Function.assemble
      rw [hf.name, hf.params]
      exact (hf.body.lowerBody_alike table).add_eq ..
    simp only [List.foldlM_cons, hfirst, ih]

/-- Regroupings of a program have the same assembly text, or generating it fails with the same
error. -/
theorem generate_regrouped {p p' : Program} (h : p.Regrouped p') (table : SymbolTable)
    (config : Config) : p.generate table config = p'.generate table config := by
  have hmain (assembly : Assembly) :
      p.body.assembleMain table config assembly = p'.body.assembleMain table config assembly :=
    (Alike.before (h.body.lowerBody_alike table) _).add_eq ..
  simp only [generate, assemble, assembleFunctions_regrouped h.functions, hmain]

/-- The program `sumProgram` with other brackets, an idle statement before the loop counter, a block
around its block and another position. -/
def regroupedSum : Program where
  functions := [{
    name := "sum"
    returnType := .int
    params := [⟨"p", .pairOf .int .bool⟩, ⟨"n", .int⟩]
    span := ⟨1, 1⟩
    body := .seq ⟨2, 3⟩ (.seq ⟨2, 3⟩ (.declare {} .int "total" (.expr (.int {} "0")))
      (.forLoop {} (.seq {} (.skip {}) (.declare {} .int "i" (.expr (.int {} "0"))))
        (.binary {} .lt (.ident {} "i") (.ident {} "n")) (.increment {} "i")
        (.seq {} (.declare {} .int "side" (.side .fst (.ident {} "p")))
          (.assign {} (.ident "total")
            (.expr (.binary {} .add (.ident {} "total") (.ident {} "side")))))))
      (.ret {} (.ident ⟨4, 10⟩ "total")) }]
  body := .seq {} (.declare {} (.pairOf .int .bool) "n" (.newPair (.int {} "7") (.bool {} true)))
    (.block {} (.block {} (.seq {}
      (.declare {} .int "total" (.call "sum" [.ident {} "n", .int {} "3"]))
      (.seq {} (.declare {} .int "n" (.expr (.ident {} "total"))) (.println {} (.ident {} "n"))))))

/-- Other brackets, an idle statement and one more block leave the text as it is. -/
theorem generate_regroupedSum : sumProgram.Regrouped regroupedSum ∧
    (sumProgram.generate sumProgram.check.value {}).isOk ∧
    sumProgram.generate sumProgram.check.value {} =
      regroupedSum.generate sumProgram.check.value {} := by
  have h : sumProgram.Regrouped regroupedSum := {
    functions := .cons {
      name := rfl
      returnType := rfl
      params := rfl
      body := .trans (.symm (.assoc ⟨2, 3⟩ ⟨2, 3⟩ ..)) (.seq _ (.seq _ (.refl _)
        (.forLoop _ _ (.symm (.skipFirst ..)) (.refl _) (.refl _))) (.moved rfl)) } .nil
    body := .seq _ (.refl _) (.symm (.nestedBlock ..)) }
  exact ⟨h, by decide +kernel, generate_regrouped h _ _⟩

end Program

end ArmCompiler
