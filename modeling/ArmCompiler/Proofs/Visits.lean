import ArmCompiler.Proofs.Observers

/-!
# What Lowering Looks At

Lowering again, with a record of every point at which it evaluates an expression or asks for the
type of an expression or a target. A record says where in the syntax tree the occurrence stands and
which resources there were. Forgetting the record gives the lowering back. Main statement:
`Program.result_watch`.

A watched step is written like the step it watches. What follows the last visit in it is a plain
step, in brackets.

## Contents
- §1: occurrences and visits
- §2: recorded computations
- §3: watched steps
- §4: expressions
- §5: right sides and targets
- §6: statements
- §7: programs
-/

namespace ArmCompiler

open Instruction Lower

/-! ## §1 Occurrences and visits -/

/-- The way from the root of a syntax tree to a node: the number of the part that is taken at each
node on the way. A list is a node of two parts, its first element and the rest. -/
abbrev Path := List Nat

/-- What has a type: an expression or a target. -/
inductive Occurrence where
  | expr (e : Expr)
  | target (t : Target)

/-- The type that lowering finds for an occurrence. -/
def Occurrence.typeIn (frame : Frame) : Occurrence → Except CompileError Ty
  | .expr e => e.typeIn frame
  | .target t => t.typeIn frame

/-- A point of lowering at which an occurrence is evaluated or typed. -/
structure Visit where
  path : Path
  occurrence : Occurrence
  resources : Resources

/-- A visit in a part of a tree, seen from the root of the tree. -/
def Visit.under (i : Nat) (v : Visit) : Visit := { v with path := i :: v.path }

/-! ## §2 Recorded computations -/

/-- A computation that can fail, with the visits it made, also if it failed. -/
structure Recorded (α : Type) where
  result : Except CompileError α
  visits : List Visit := []

namespace Recorded

variable {α β : Type}

instance : Monad Recorded where
  pure a := { result := .ok a }
  bind x f :=
    match x.result with
    -- What was visited before a failure stays on the record.
    | .error e => { result := .error e, visits := x.visits }
    | .ok a => { result := (f a).result, visits := x.visits ++ (f a).visits }

/-- A computation that visits nothing. -/
instance : MonadLift (Except CompileError) Recorded where
  monadLift x := { result := x }

/-- A computation on a part of a tree, seen from the root of the tree. -/
def under (i : Nat) (x : Recorded α) : Recorded α :=
  { x with visits := x.visits.map (·.under i) }

@[simp] theorem result_pure (a : α) : (pure a : Recorded α).result = pure a := rfl

/-- Recording does not change the result. -/
@[simp] theorem result_bind (x : Recorded α) (f : α → Recorded β) :
    (x >>= f).result = x.result >>= fun a => (f a).result := by
  simp only [bind]
  cases x.result <;> rfl

@[simp] theorem result_liftM (x : Except CompileError α) :
    (liftM x : Recorded α).result = x := rfl

@[simp] theorem result_under (i : Nat) (x : Recorded α) : (x.under i).result = x.result := rfl

end Recorded

/-! ## §3 Watched steps -/

/-- A step of lowering that records its visits. -/
def Watch (α : Type) : Type := Resources → Recorded (Lowered α)

namespace Watch

variable {α β : Type}

/-- Runs a watched step. -/
def run (w : Watch α) (resources : Resources) : Recorded (Lowered α) := w resources

instance : Monad Watch where
  pure a := fun resources => pure { value := a, resources }
  bind w next := fun resources => do
    let first ← w.run resources
    let second ← (next first.value).run first.resources
    pure { second with code := first.code ++ second.code }

/-- A step that visits nothing. -/
instance : MonadLift Lower Watch where
  monadLift step := fun resources => { result := step.run resources }

/-- Records that an occurrence is evaluated or typed here. -/
def visit (occurrence : Occurrence) : Watch Unit := fun resources =>
  { result := .ok { value := (), resources }, visits := [{ path := [], occurrence, resources }] }

/-- A step on a part of a tree. -/
def under (i : Nat) (w : Watch α) : Watch α := fun resources => (w.run resources).under i

/-- The step without its record. -/
def erase (w : Watch α) : Lower α := fun resources => (w.run resources).result

@[simp] theorem erase_pure (a : α) : (pure a : Watch α).erase = pure a := rfl

/-- Watched steps are erased one by one. -/
@[simp] theorem erase_bind (w : Watch α) (next : α → Watch β) :
    (w >>= next).erase = w.erase >>= fun a => (next a).erase := by
  apply Lower.ext
  intro resources
  rw [Lower.run_bind]
  show ((w.run resources) >>= fun first => _ : Recorded (Lowered β)).result = _
  simp only [Recorded.result_bind, Lower.run, erase]
  cases (w.run resources).result with
  | error e => rfl
  | ok first =>
    cases h : ((next first.value).run first.resources).result <;>
      simp [bind, Except.bind, h, pure]

@[simp] theorem erase_liftM (step : Lower α) : (liftM step : Watch α).erase = step := rfl

@[simp] theorem erase_visit (occurrence : Occurrence) : (visit occurrence).erase = pure () := rfl

@[simp] theorem erase_under (i : Nat) (w : Watch α) : (w.under i).erase = w.erase := rfl

/-- Two values, computed in a given order. -/
def inOrder (left : Bool) (a b : Watch Register) : Watch (Register × Register) :=
  if left then do
    let l ← a
    let r ← b
    pure (l, r)
  else do
    let r ← b
    let l ← a
    pure (l, r)

@[simp] theorem erase_inOrder (left : Bool) (a b : Watch Register) :
    (inOrder left a b).erase = Lower.inOrder left a.erase b.erase := by
  cases left <;> simp [inOrder, Lower.inOrder]

end Watch

/-! ## §4 Expressions -/

open Watch (visit)

mutual

/-- Lowers an expression and records where it and its parts are evaluated. -/
def Expr.watch : Expr → Watch Register
  | e@(.int ..) | e@(.bool ..) | e@(.char ..) | e@(.str ..) | e@(.null ..) | e@(.ident ..) => do
    visit (.expr e)
    e.lower
  | e@(.elem _ name indices) => do
    visit (.expr e)
    let array ← loadArray name
    let ty ← (watchIndices array.1 array.2 indices).under 0
    (do
      emit (.ldr none ty.width array.1 (.held array.1))
      pure array.1 : Lower Register)
  | e@(.unary _ op operand) => do
    visit (.expr e)
    let r ← operand.watch.under 0
    (do
      unary r op
      pure r : Lower Register)
  | e@(.binary _ op lhs rhs) => do
    visit (.expr e)
    let sides ← Watch.inOrder (leftFirst lhs rhs) (lhs.watch.under 0) (rhs.watch.under 1)
    (do
      binary sides.1 sides.2 op
      release sides.2
      pure sides.1 : Lower Register)

/-- Applies indices and records where they are evaluated. -/
def watchIndices (array : Register) (ty : Ty) : List Expr → Watch Ty
  | [] => pure ty
  | i :: rest => do
    let r ← i.watch.under 0
    index array r ty.element
    release r
    unless rest.isEmpty do emit (load array (.held array))
    (watchIndices array ty.element rest).under 1

end

mutual

/-- Watching an expression makes no difference. -/
@[simp] theorem Expr.erase_watch : (e : Expr) → e.watch.erase = e.lower
  | .int .. | .bool .. | .char .. | .str .. | .null .. | .ident .. => by
    simp [Expr.watch]
  | .elem _ name indices => by
    simp [Expr.watch, Expr.lower, erase_watchIndices]
  | .unary _ op operand => by
    simp [Expr.watch, Expr.lower, Expr.erase_watch operand]
  | .binary _ op lhs rhs => by
    simp [Expr.watch, Expr.lower_binary, Expr.erase_watch lhs, Expr.erase_watch rhs]

@[simp] theorem erase_watchIndices (array : Register) (ty : Ty) :
    (indices : List Expr) → (watchIndices array ty indices).erase = lowerIndices array ty indices
  | [] => rfl
  | i :: rest => by
    have hrest := erase_watchIndices array ty.element rest
    simp only [watchIndices, lowerIndices, Watch.erase_bind, Watch.erase_under,
      Watch.erase_liftM, Expr.erase_watch i]
    by_cases hlast : rest.isEmpty <;> simp [hlast, hrest]

end

/-! ## §5 Right sides and targets -/

/-- The type of an expression, with a record that it was asked for. -/
def Expr.watchType (e : Expr) : Watch Ty := do
  visit (.expr e)
  typeOf e

/-- The type of what a target stores, with a record that it was asked for. To type a side of a pair
is to type the pair. -/
def Target.watchType (t : Target) : Watch Ty := do
  visit (.target t)
  match t with
  | .side _ pair => (visit (.expr pair)).under 0
  | .ident _ | .elem _ _ => pure ()
  (do
    let frame ← getFrame
    ofExcept (t.typeIn frame) : Lower Ty)

namespace Watch

def sideAddress (side : Side) (pair : Expr) : Watch Register := do
  let r ← pair.watch.under 0
  (do
    emit (move .r0 r)
    callRoutine .checkNullPointer
    emit (load r (.offset r (side.pick 0 (slotBytes : Int))))
    pure r : Lower Register)

def elementAddress (name : String) (indices : List Expr) : Watch (Register × Ty) := do
  let array ← loadArray name
  let ty ← (watchIndices array.1 array.2 indices).under 0
  pure (array.1, ty)

def literalElementType (target : Ty) (elems : List Expr) : Watch Ty :=
  let ty := target.element
  if ty.isValid && !ty.isAny then
    pure ty
  else
    -- The target does not say, so the first element is asked.
    match elems with
    | first :: _ => first.watchType.under 0
    | [] => pure .int

def storeElements (array : Register) (ty : Ty) (index : Nat) : List Expr → Watch Unit
  | [] => pure ()
  | elem :: rest => do
    let value ← elem.watch.under 0
    emit (.str ty.width value (.offset array (elementOffset ty.size index).toInt))
    release value
    (storeElements array ty (index + 1) rest).under 1

def arrayLiteral (target : Ty) (elems : List Expr) : Watch Register := do
  let ty ← literalElementType target elems
  let array ← allocate (elementOffset ty.size elems.length)
  storeElements array ty 0 elems
  (do
    let length ← intoFresh fun r => .instr (loadConst r (Int32.ofNat elems.length).toInt)
    emit (store length (.held array))
    release length
    pure array : Lower Register)

def newPair (fst snd : Expr) : Watch Register := do
  let sides ← inOrder (leftFirst fst snd) (fst.watch.under 0) (snd.watch.under 1)
  (do
    let pair ← allocate (2 * slotWord)
    storeSide pair .fst sides.1
    storeSide pair .snd sides.2
    pure pair : Lower Register)

def argType (params : List Param) (arg : Expr) : Watch Ty :=
  match params with
  | param :: _ => pure param.ty
  -- A surplus argument is as wide as its own type says.
  | [] => arg.watchType.under 0

def pushArgs : List Param → List Expr → Watch Unit
  | _, [] => pure ()
  | params, arg :: args => do
    -- The last argument is pushed first, and those before it are evaluated over a deeper stack.
    (pushArgs params.tail args).under 1
    let ty ← argType params arg
    let r ← arg.watch.under 0
    (do
      emit (.str ty.width r (.preIndexed .sp (-(slotBytes : Int))))
      release r
      modifyFrame (·.pushTemp slotBytes) : Lower Unit)

def callFunction (table : SymbolTable) (name : String) (args : List Expr) : Watch Register := do
  match table.function? name with
  | none => fail (.internal (.unknownFunction name))
  | some signature =>
    pushArgs signature.params args
    (do
      let pushed := slotBytes * args.length
      emit (call (functionLabel name))
      emitAll [.unreserve pushed]
      modifyFrame (·.popTemp pushed)
      let ret ← holdReturn
      let result ← intoFresh fun r => .instr (move r ret)
      freeReturn
      pure result : Lower Register)

end Watch

/-- Lowers a right side and records where its parts are evaluated. -/
def Rhs.watch (table : SymbolTable) (target : Ty) : Rhs → Watch Register
  | .expr e => e.watch
  | .array elems => Watch.arrayLiteral target elems
  | .newPair fst snd => Watch.newPair fst snd
  | .side which pair => do
    let r ← Watch.sideAddress which pair
    (do
      emit (load r (.held r))
      pure r : Lower Register)
  | .call name args => Watch.callFunction table name args

/-- Finds the place of a target and records where its parts are evaluated. -/
def Target.watchPlace : Target → Watch Place
  | .ident name => Target.place (.ident name)
  | .elem name indices => do
    let element ← Watch.elementAddress name indices
    pure (.computed element.1)
  | .side which pair => do
    let r ← Watch.sideAddress which pair
    pure (.computed r)

@[simp] theorem Expr.erase_watchType (e : Expr) : e.watchType.erase = typeOf e := by
  simp [watchType]

@[simp] theorem Target.erase_watchType (t : Target) :
    t.watchType.erase = (do let frame ← getFrame; ofExcept (t.typeIn frame)) := by
  cases t <;> simp [watchType]

namespace Watch

@[simp] theorem erase_sideAddress (side : Side) (pair : Expr) :
    (sideAddress side pair).erase = Lower.sideAddress side pair := by
  simp [sideAddress, Lower.sideAddress]

@[simp] theorem erase_elementAddress (name : String) (indices : List Expr) :
    (elementAddress name indices).erase = Lower.elementAddress name indices := by
  simp [elementAddress, Lower.elementAddress]

@[simp] theorem erase_literalElementType (target : Ty) (elems : List Expr) :
    (literalElementType target elems).erase = Lower.literalElementType target elems := by
  unfold literalElementType Lower.literalElementType
  dsimp only
  split
  · rfl
  · cases elems <;> simp

@[simp] theorem erase_storeElements (array : Register) (ty : Ty) (index : Nat)
    (elems : List Expr) :
    (storeElements array ty index elems).erase = Lower.storeElements array ty index elems := by
  induction elems generalizing index with
  | nil => rfl
  | cons elem rest ih => simp [storeElements, Lower.storeElements, ih]

@[simp] theorem erase_arrayLiteral (target : Ty) (elems : List Expr) :
    (arrayLiteral target elems).erase = Lower.arrayLiteral target elems := by
  simp [arrayLiteral, Lower.arrayLiteral]

@[simp] theorem erase_newPair (fst snd : Expr) :
    (newPair fst snd).erase = Lower.newPair fst snd := by
  simp [newPair, newPair_eq]

@[simp] theorem erase_argType (params : List Param) (arg : Expr) :
    (argType params arg).erase = Lower.argType params arg := by
  cases params <;> simp [argType, Lower.argType]

@[simp] theorem erase_pushArgs (params : List Param) (args : List Expr) :
    (pushArgs params args).erase = Lower.pushArgs params args := by
  induction args generalizing params with
  | nil => simp [pushArgs, Lower.pushArgs]
  | cons arg args ih => simp [pushArgs, pushArgs_cons, ih]

@[simp] theorem erase_callFunction (table : SymbolTable) (name : String) (args : List Expr) :
    (callFunction table name args).erase = Lower.callFunction table name args := by
  unfold callFunction Lower.callFunction
  cases table.function? name <;> simp

end Watch

/-- A watched right side is lowered like any other. -/
@[simp] theorem Rhs.erase_watch (table : SymbolTable) (target : Ty) (rhs : Rhs) :
    (rhs.watch table target).erase = rhs.lower table target := by
  cases rhs <;> simp [Rhs.watch, Rhs.lower]

/-- So is a watched target. -/
@[simp] theorem Target.erase_watchPlace (t : Target) : t.watchPlace.erase = t.place := by
  cases t <;> simp [watchPlace, place]

/-! ## §6 Statements -/

def Watch.printValue (e : Expr) : Watch Unit := do
  let ty ← e.watchType
  let r ← e.watch
  (do
    emit (move .r0 r)
    release r
    callRoutine ty.printer : Lower Unit)

@[simp] theorem Watch.erase_printValue (e : Expr) :
    (printValue e).erase = Lower.printValue e := by
  simp [printValue, Lower.printValue]

/-- Lowers a statement that has neither statements in it nor a right side, and records where its
expressions and targets are evaluated and typed. -/
def Stmt.watchSimple (table : SymbolTable) : Stmt → Watch Unit
  | .read _ target => do
    let ty ← target.watchType.under 0
    let place ← target.watchPlace.under 0
    (do
      let r ← placeAddress place
      emit (move .r0 r)
      release r
      callRoutine (if ty = .char then .readChar else .readInt) : Lower Unit)
  | .free _ e => do
    let r ← e.watch.under 0
    (do
      emit (move .r0 r)
      release r
      callRoutine .freePair : Lower Unit)
  | .ret _ e => do
    let r ← e.watch.under 0
    (do
      let ret ← holdReturn
      emit (move ret r)
      release r
      let frame ← getFrame
      emitAll [.unreserve frame.depth.toNat]
      emit (.pop .pc)
      freeReturn : Lower Unit)
  | .exit _ e => do
    let r ← e.watch.under 0
    (do
      let ret ← holdReturn
      emit (move ret r)
      emit (call "exit")
      freeReturn
      release r
      emit (loadConst .r0 0) : Lower Unit)
  | .print _ e => (Watch.printValue e).under 0
  | .println _ e => do
    (Watch.printValue e).under 0
    callRoutine .printLn
  | s => s.lower table

/-- So is a watched statement without statements in it. -/
theorem Stmt.erase_watchSimple (table : SymbolTable) (s : Stmt) :
    (s.watchSimple table).erase = s.lower table := by
  cases s <;> simp [watchSimple, lower]

/-- The observer that records visits. -/
def Watch.observer (table : SymbolTable) : Observer table Watch where
  step plain := liftM plain
  under := Watch.under
  part
    | .value e => e.watch
    | .type t => t.watchType
    | .place t => t.watchPlace
  rhs target rhs := rhs.watch table target
  simple := Stmt.watchSimple table

/-- Watching makes no difference to a step. -/
def Watch.simulation (table : SymbolTable) : (Watch.observer table).Simulation where
  Always w plain := w.erase = plain
  Rested w plain := w.erase = plain
  step _ := rfl
  part p := by
    cases p with
    | value e => exact e.erase_watch
    | type t => exact t.erase_watchType
    | place t => exact t.erase_watchPlace
  simple _ := Stmt.erase_watchSimple table _
  under_always _ h := h
  bind h hnext := by rw [erase_bind, h, funext hnext]
  rested h := h
  rhs target rhs := rhs.erase_watch table target
  statement _ h := h
  under _ h := h
  bind_always h hnext := by rw [erase_bind, h, funext hnext]
  bind_rested h _ hnext := by rw [erase_bind, h, funext hnext]

section Simulated

variable {table : SymbolTable} (i : Nat)

theorem Watch.erase_test (cond : Expr) (value : Int) :
    ((observer table).under i ((observer table).testCondition cond value)).erase =
      Lower.testCondition cond value :=
  (simulation table).testCondition cond value

theorem Watch.erase_rhs (target : Ty) (rhs : Rhs) :
    ((observer table).under i ((observer table).rhs target rhs)).erase =
      rhs.lower table target :=
  (simulation table).rhs target rhs

theorem Watch.erase_stmt (s : Stmt) :
    ((observer table).under i (s.observe (observer table))).erase = s.lower table :=
  (simulation table).stmt s

theorem Watch.erase_scope (body : Stmt) :
    ((observer table).inScope body.slots
      ((observer table).under i (body.observe (observer table)))).erase = body.lowerBody table :=
  (simulation table).inScope ((simulation table).under i ((simulation table).stmt body)) _

end Simulated

/-- Lowers a statement and records where the expressions and targets in it are evaluated and
typed. -/
def Stmt.watch (table : SymbolTable) (s : Stmt) : Watch Unit := s.observe (Watch.observer table)

/-- Watching a statement makes no difference. -/
@[simp] theorem Stmt.erase_watch (table : SymbolTable) (s : Stmt) :
    (s.watch table).erase = s.lower table :=
  (Watch.simulation table).stmt s

/-! ## §7 Programs -/

/-- The watched code of a body, in a scope of its own. -/
def Stmt.watchBody (table : SymbolTable) (body : Stmt) : Watch Unit :=
  (Watch.observer table).inScope body.slots (body.watch table)

/-- Adds a sequence and keeps the record of its body. -/
def Assembly.watchAdd (config : Config) (label : String) (frame : Frame) (body : Watch Unit)
    (assembly : Assembly) : Recorded Assembly := do
  let listing ← assembly.listing.start label true
  let lowered ← body.run { assembly.resources with frame }
  let expanded ← listing.expandAll config.stackChunk lowered.code
  let listing ← (expanded.2.emitAll expanded.1).finish .userRet
  return { resources := lowered.resources, listing }

/-- Adds the code of functions, with the record of all of them. -/
def watchFunctions (table : SymbolTable) (config : Config) :
    List Function → Assembly → Recorded Assembly
  | [], assembly => pure assembly
  | f :: rest, assembly => do
    let assembly ← (assembly.watchAdd config (functionLabel f.name) (.ofParams f.params)
      (f.body.watchBody table)).under 0
    (watchFunctions table config rest assembly).under 1

/-- The listing of a program, with a record of what was visited on the way to it. -/
def Program.watch (table : SymbolTable) (config : Config) (p : Program) : Recorded Listing := do
  config.validate
  let assembly ← (watchFunctions table config p.functions (.start config)).under 0
  let assembly ← (assembly.watchAdd config "main" {} do
    p.body.watchBody table
    emit (.loadConst .r0 0)).under 1
  return assembly.listing

@[simp] theorem Stmt.erase_watchBody (table : SymbolTable) (body : Stmt) :
    (body.watchBody table).erase = body.lowerBody table :=
  (Watch.simulation table).body body

/-- A watched body is added like any other. -/
theorem Assembly.result_watchAdd (config : Config) (label : String) (frame : Frame)
    (body : Watch Unit) (assembly : Assembly) :
    (assembly.watchAdd config label frame body).result =
      assembly.add config label frame body.erase := by
  simp only [watchAdd, add, Recorded.result_bind, Recorded.result_liftM, Recorded.result_pure]
  rfl

theorem result_watchFunctions (table : SymbolTable) (config : Config) (functions : List Function)
    (assembly : Assembly) :
    (watchFunctions table config functions assembly).result =
      functions.foldlM (Function.assemble table config) assembly := by
  induction functions generalizing assembly with
  | nil => rfl
  | cons f rest ih =>
    simp only [watchFunctions, Recorded.result_bind, Recorded.result_under,
      Assembly.result_watchAdd, Stmt.erase_watchBody, ih, List.foldlM_cons]
    rfl

/-- Watching a program makes no difference. -/
theorem Program.result_watch (table : SymbolTable) (config : Config) (p : Program) :
    (p.watch table config).result = p.assemble table config := by
  simp only [watch, assemble, Recorded.result_bind, Recorded.result_liftM, Recorded.result_pure,
    Recorded.result_under, result_watchFunctions, Assembly.result_watchAdd, Watch.erase_bind,
    Watch.erase_liftM, Stmt.erase_watchBody]
  rfl

end ArmCompiler
