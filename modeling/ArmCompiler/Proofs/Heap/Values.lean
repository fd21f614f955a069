import ArmCompiler.Proofs.Heap.Checks

/-!
# The Values of Expressions

The value of an expression of any form, texts, array elements and lengths included, in a machine
with an arena. Elements are found row by row: an index is compared with the length of its row, and
the element of a row is followed as the address of the next one. A value is known only as far as it
depends on live bytes, and then it is the same after any call or allocation.

The code of an expression brings its value into a register, or ends the program exactly if the
evaluation meets a run-time error. It writes spare registers and volatile bytes only, and stores
nothing itself. Main statements: `Expr.delivers` and `Expr.lower_executes`.

## Contents
- §1: evaluation
- §2: stability
- §3: steps that evaluate
- §4: operators
- §5: elements
- §6: expressions
-/

namespace ArmCompiler

open Instruction Lower Routine

/-! ## §1 Evaluation -/

/-- What a trap of an operator means for a program. -/
def Trap.noValue : Trap → NoValue
  | .overflow | .zeroDivisor => .error
  | .meaningless => .unknown

/-- What an operator gives. -/
def answer (result : Except Trap Word) : Except NoValue Word := result.mapError Trap.noValue

/-- Applies an operation to two values, both of which have to be known. -/
def both (a b : Except NoValue Word) (f : Word → Word → Except NoValue Word) :
    Except NoValue Word :=
  match a, b with
  | .ok u, .ok v => f u v
  | .error .error, .ok _ | .ok _, .error .error | .error .error, .error .error => .error .error
  | .error .unknown, _ | _, .error .unknown => .error .unknown

/-- The address of an array element. The index must not be negative and must be below the length,
which is the first word of the array. -/
def Arena.place (arena : Arena) (m : Machine) (element : Ty) (array index : Word) :
    Except NoValue Word :=
  if index.toInt < 0 then .error .error
  else do
    let length ← arena.read m .word array
    if length.toNat ≤ index.toNat then .error .error
    else .ok (array + 4 + index * BitVec.ofNat 32 element.size)

/-- What stands in the place of an element: its address if it is the last one that is asked for, or
else the row whose address it holds. -/
def Arena.follow (arena : Arena) (m : Machine) (last : Bool) (a : Word) : Except NoValue Word :=
  if last then .ok a else arena.read m .word a

mutual

/-- The value of an expression in a machine. -/
def Expr.valueIn (arena : Arena) (message : String → String) (frame : Frame) (m : Machine) :
    Expr → Except NoValue Word
  | .int _ text =>
    match Literal.intValue? text with
    | some n => .ok (BitVec.ofInt 32 n)
    | none => .error .unknown
  | .bool _ value => .ok (truthWord value)
  | .char _ value => .ok (BitVec.ofInt 32 value.toNat)
  | .str _ raw => .ok (m.symbols (message (Escape.decode raw)))
  | .null _ => .ok 0
  | .ident _ name =>
    match frame.lookup? name with
    | some (offset, ty) => arena.read m ty.width (m.regs .sp + BitVec.ofInt 32 offset)
    | none => .error .unknown
  | .elem _ name indices =>
    match frame.lookup? name with
    | some (offset, ty) => do
      let array ← arena.read m .word (m.regs .sp + BitVec.ofInt 32 offset)
      let a ← addressIn arena message frame m ty array indices
      arena.read m (ty.elementAt indices.length).width a
    | none => .error .unknown
  | .unary _ op operand => do
    let w ← operand.valueIn arena message frame m
    if op = .len then arena.read m .word w else answer (op.evalWord w)
  | .binary _ op lhs rhs =>
    both (lhs.valueIn arena message frame m) (rhs.valueIn arena message frame m)
      fun a b => answer (op.evalWord a b)

/-- The address that indices select, row by row. -/
def addressIn (arena : Arena) (message : String → String) (frame : Frame) (m : Machine) (ty : Ty)
    (array : Word) : List Expr → Except NoValue Word
  | [] => .ok array
  | i :: rest => do
    let index ← i.valueIn arena message frame m
    let a ← arena.place m ty.element array index
    let row ← arena.follow m rest.isEmpty a
    addressIn arena message frame m ty.element row rest

end

/-- The value of an expression where code of a listing is executed. -/
def Lower.Emission.value {α : Type} {step : Lower α} (c : step.Emission) (arena : Arena)
    (m : Machine) (e : Expr) : Except NoValue Word :=
  e.valueIn arena c.after.messageLabel c.start.frame m

/-! ## §2 Stability -/

section Stability

variable {arena : Arena} {m m' : Machine} {message : String → String} {frame : Frame}

/-- A value that is known stays when its parts do. -/
theorem bind_stable {α β : Type} {a a' : Except NoValue α} {f f' : α → Except NoValue β}
    (h : (a >>= f) ≠ .error .unknown) (ha : a ≠ .error .unknown → a' = a)
    (hf : ∀ w, f w ≠ .error .unknown → f' w = f w) : (a' >>= f') = (a >>= f) := by
  -- A known error of the first part is the whole result, so the second part is not looked at.
  cases a with
  | error e =>
    have he : (Except.error e : Except NoValue α) ≠ .error .unknown := by
      rintro ⟨rfl⟩
      exact h rfl
    rw [ha he]
    rfl
  | ok w =>
    rw [ha (by simp)]
    exact hf w h

theorem known_of_both {a b : Except NoValue Word} {f : Word → Word → Except NoValue Word}
    (h : both a b f ≠ .error .unknown) : a ≠ .error .unknown ∧ b ≠ .error .unknown := by
  constructor
  · rintro rfl
    exact h rfl
  · rintro rfl
    rcases a with ⟨⟨⟩⟩ | _ <;> exact h rfl

theorem both_eq_error {a b : Except NoValue Word} {f : Word → Word → Except NoValue Word}
    (h : both a b f ≠ .error .unknown) (herror : a = .error .error ∨ b = .error .error) :
    both a b f = .error .error := by
  obtain ⟨ha, hb⟩ := known_of_both h
  rcases a with ⟨⟨⟩⟩ | u <;> rcases b with ⟨⟨⟩⟩ | v <;> simp_all [both]

/-- A value made of two known ones stays when they do. -/
theorem both_stable {a a' b b' : Except NoValue Word} {f : Word → Word → Except NoValue Word}
    (h : both a b f ≠ .error .unknown) (ha : a ≠ .error .unknown → a' = a)
    (hb : b ≠ .error .unknown → b' = b) : both a' b' f = both a b f := by
  obtain ⟨hknown, hknown'⟩ := known_of_both h
  rw [ha hknown, hb hknown']

namespace Arena.Extends

/-- A known value stays in memory when all that is live does. -/
theorem read_eq (h : arena.Extends m m') {width : Width} {a : Word}
    (hknown : arena.read m width a ≠ .error .unknown) :
    arena.read m' width a = arena.read m width a := by
  cases hread : arena.read m width a with
  | ok w => exact h.read hread
  | error e =>
    cases e with
    | error => exact absurd hread read_ne_error
    | unknown => exact absurd hread hknown

theorem place_eq (h : arena.Extends m m') {element : Ty} {array index : Word}
    (hknown : arena.place m element array index ≠ .error .unknown) :
    arena.place m' element array index = arena.place m element array index := by
  unfold place at hknown ⊢
  split
  · rfl
  · next hindex =>
    rw [if_neg hindex] at hknown
    exact bind_stable hknown h.read_eq fun _ _ => rfl

theorem follow_eq (h : arena.Extends m m') {last : Bool} {a : Word}
    (hknown : arena.follow m last a ≠ .error .unknown) :
    arena.follow m' last a = arena.follow m last a := by
  cases last with
  | true => rfl
  | false => exact h.read_eq hknown

end Arena.Extends

mutual

/-- A value that is known stays the same. -/
theorem Expr.valueIn_eq (h : arena.Extends m m') : (e : Expr) →
    e.valueIn arena message frame m ≠ .error .unknown →
    e.valueIn arena message frame m' = e.valueIn arena message frame m
  | .int .., _ | .bool .., _ | .char .., _ | .null .., _ => rfl
  | .str _ raw, _ => by simp only [Expr.valueIn, h.symbols]
  | .ident _ name, hknown => by
    unfold Expr.valueIn at hknown ⊢
    split
    · next offset ty hlookup =>
      rw [hlookup] at hknown
      rw [h.sp]
      exact h.read_eq hknown
    · rfl
  | .elem _ name indices, hknown => by
    unfold Expr.valueIn at hknown ⊢
    split
    · next offset ty hlookup =>
      rw [hlookup] at hknown
      rw [h.sp]
      refine bind_stable hknown h.read_eq fun array hknown => ?_
      refine bind_stable hknown (addressIn_eq h ty array indices) fun a hknown => ?_
      exact h.read_eq hknown
    · rfl
  | .unary _ op operand, hknown => by
    unfold Expr.valueIn at hknown ⊢
    refine bind_stable hknown (operand.valueIn_eq h) fun w hknown => ?_
    split
    · next hop =>
      rw [if_pos hop] at hknown
      exact h.read_eq hknown
    · rfl
  | .binary _ op lhs rhs, hknown => by
    unfold Expr.valueIn at hknown ⊢
    exact both_stable hknown (lhs.valueIn_eq h) (rhs.valueIn_eq h)

theorem addressIn_eq (h : arena.Extends m m') (ty : Ty) (array : Word) : (indices : List Expr) →
    addressIn arena message frame m ty array indices ≠ .error .unknown →
    addressIn arena message frame m' ty array indices =
      addressIn arena message frame m ty array indices
  | [], _ => rfl
  | i :: rest, hknown => by
    unfold addressIn at hknown ⊢
    -- Index, place and row are known one after the other, each from what the one before has found.
    refine bind_stable hknown (i.valueIn_eq h) fun index hknown => ?_
    refine bind_stable hknown h.place_eq fun a hknown => ?_
    refine bind_stable hknown h.follow_eq fun row hknown => ?_
    exact addressIn_eq h ty.element row rest hknown

end

/-- A value can be computed again. -/
theorem Expr.valueIn_of_extends {e : Expr} {w : Word} (h : arena.Extends m m')
    (hvalue : e.valueIn arena message frame m = .ok w) :
    e.valueIn arena message frame m' = .ok w := by
  rw [e.valueIn_eq h (by simp [hvalue]), hvalue]

end Stability

/-! ## §3 Steps that evaluate -/

/-- Accesses without a store. -/
def LoadsOnly (accesses : List Access) : Prop := ∀ access ∈ accesses, access.stores = false

@[simp] theorem loadsOnly_nil : LoadsOnly [] := by simp [LoadsOnly]

/-- Accesses that all load, and more of them. -/
theorem LoadsOnly.append {a b : List Access} (ha : LoadsOnly a) (hb : LoadsOnly b) :
    LoadsOnly (a ++ b) := by
  intro access haccess
  rcases List.mem_append.1 haccess with h | h
  · exact ha access h
  · exact hb access h

namespace Lower

variable {α β : Type} {x : Setting} {arena : Arena} {W W' : Register → Prop} {start : Resources}
  {m : Machine} {result : Except NoValue Word} {step : Lower α} {next : α → Lower β}
  {reg : α → Register} {reg' : β → Register}

/-- The code of a step ends as an evaluation does, if that is known: with the value in a register,
or with a run-time error. It writes no register outside of `W`, and of the memory volatile bytes
only. -/
def Evaluates (x : Setting) (arena : Arena) (W : Register → Prop) (reg : α → Register)
    (step : Lower α) (start : Resources) (m : Machine) (result : Except NoValue Word) : Prop :=
  result ≠ .error .unknown → step.Executes x start m
    (fun a _ m' accesses =>
      m.Spares arena W m' ∧ result = .ok (m'.regs (reg a)) ∧ LoadsOnly accesses)
    (fun _ accesses => result = .error .error ∧ LoadsOnly accesses)

namespace Evaluates

theorem mono (h : step.Evaluates x arena W reg start m result) (hsub : ∀ r, W r → W' r) :
    step.Evaluates x arena W' reg start m result :=
  fun hknown => (h hknown).imp (fun _ _ _ _ hpost => ⟨hpost.1.mono hsub, hpost.2⟩) fun _ _ => id

theorem congr {result' : Except NoValue Word} (h : step.Evaluates x arena W reg start m result)
    (heq : result' ≠ .error .unknown → result = result') :
    step.Evaluates x arena W reg start m result' := by
  intro hknown
  cases heq hknown
  exact h hknown

/-- Where there is a value the code finishes. -/
theorem executes {w : Word} (h : step.Evaluates x arena W reg start m (.ok w)) :
    step.Executes x start m
      (fun a _ m' accesses => m.Spares arena W m' ∧ m'.regs (reg a) = w ∧ LoadsOnly accesses)
      (fun _ _ => False) := by
  refine (h (by simp)).imp ?_ ?_
  · rintro a after m' accesses ⟨hspares, hvalue, hloads⟩
    exact ⟨hspares, (Except.ok.inj hvalue).symm, hloads⟩
  · rintro m' accesses ⟨herror, _⟩
    cases herror

/-- A second step goes on with the value of the first. -/
theorem bind {f : Word → Except NoValue Word} {ends : α → Resources → Prop}
    (h : step.Evaluates x arena W reg start m result) (hends : step.Ends start ends)
    (hsub : ∀ r, W r → W' r)
    (hnext : ∀ a mid m', ends a mid → m.Spares arena W m' →
      (next a).Evaluates x arena W' reg' mid m' (f (m'.regs (reg a)))) :
    (step >>= next).Evaluates x arena W' reg' start m (result >>= f) := by
  intro hknown
  -- The first result is known if the whole is.
  have hfirst : result ≠ .error .unknown := by
    rintro rfl
    exact hknown rfl
  refine .bind (((h hfirst).and_ends hends).imp ?_ ?_)
  · rintro a mid m' accesses ⟨hmid, hspares, rfl, hloads⟩
    refine (hnext a mid m' hmid hspares hknown).imp ?_ ?_
    · rintro b after m'' more ⟨hspares', hvalue, hloads'⟩
      exact ⟨(hspares.mono hsub).trans hspares', hvalue, hloads.append hloads'⟩
    · rintro m'' more ⟨herror, hloads'⟩
      exact ⟨herror, hloads.append hloads'⟩
  · rintro m' accesses ⟨rfl, hloads⟩
    exact ⟨rfl, hloads⟩

/-- Of two steps the first one changes no resources. -/
theorem andThen {f : Word → Except NoValue Word} {step : Lower Unit} {next : Unit → Lower β}
    {reg : Unit → Register} (h : step.Evaluates x arena W reg start m result)
    (hends : step.Ends start fun _ after => after = start) (hsub : ∀ r, W r → W' r)
    (hnext : ∀ m', m.Spares arena W m' →
      (next ()).Evaluates x arena W' reg' start m' (f (m'.regs (reg ())))) :
    (step >>= next).Evaluates x arena W' reg' start m (result >>= f) := by
  refine h.bind hends hsub ?_
  rintro _ _ m' rfl hspares
  exact hnext m' hspares

/-- A second step without code leaves the value where it is. -/
theorem bind_silent (h : step.Evaluates x arena W reg start m result)
    (hnext : ∀ a mid out, (next a).run mid = .ok out → out.code = [] ∧ reg' out.value = reg a) :
    (step >>= next).Evaluates x arena W reg' start m result := by
  intro hknown
  refine .bind ((h hknown).imp ?_ fun _ _ => id)
  rintro a mid m' accesses ⟨hspares, hvalue, hloads⟩ out hrun
  obtain ⟨hcode, hreg⟩ := hnext a mid out hrun
  simpa [hcode, hreg, Setting.run, Setting.accesses, Setting.plain, Environment.run,
    Environment.accesses] using ⟨hspares, hvalue, hloads⟩

/-- A first step without code changes the resources only. -/
theorem after_silent {mid : Resources} {step : Lower Unit} {next : Unit → Lower β}
    (hrun : step.run start = .ok { value := (), resources := mid })
    (h : (next ()).Evaluates x arena W reg' mid m result) :
    (step >>= next).Evaluates x arena W reg' start m result :=
  fun hknown => .bind (executes_of_run hrun rfl (h hknown))

end Evaluates

/-! ## §4 Operators -/

end Lower

/-- An instruction that accesses no memory and calls nothing but the overflow routine. -/
def Instruction.IsMild : Instruction → Prop
  | .mov .. | .cmp .. | .arith .. | .smull .. => True
  | .branch _ _ target => target = throwOverflow.label
  | .label _ | .directive _ | .push _ | .pop _ | .ldr .. | .str .. => False

namespace Instruction.IsMild

variable {i : Instruction} (h : i.IsMild)

include h

theorem target {target : String} (htarget : i.target? = some target) :
    target = throwOverflow.label := by
  cases i with
  | branch link cond name =>
    cases htarget
    exact h
  | label | directive | mov | push | pop | ldr | str | cmp | arith | smull => cases htarget

theorem access (m : Machine) : i.access? m = none := by
  cases i with
  | mov | cmp | arith | smull | branch => rfl
  | label | directive | push | pop | ldr | str => cases h

end Instruction.IsMild

namespace Lower

variable {α β : Type} {x : Setting} {arena : Arena} {W W' : Register → Prop} {start : Resources}
  {m : Machine} {result : Except NoValue Word} {step : Lower α} {next : α → Lower β}

/-- A step that emits mild instructions only. -/
def IsMild (step : Lower α) : Prop :=
  ∀ start out, step.run start = .ok out → ∀ p ∈ out.code, ∀ limit message,
    ∀ i ∈ p.plain limit message, i.IsMild

theorem isMild_pure {a : α} : (pure a : Lower α).IsMild := by
  intro start out hrun
  cases hrun
  simp

theorem isMild_emit {i : Instruction} (h : i.IsMild) : (emit i).IsMild := by
  intro start out hrun
  cases hrun
  simpa [Pseudo.plain] using h

theorem isMild_overflow {cond : Condition} : (callRoutineIf cond .throwOverflow).IsMild := by
  intro start out hrun
  cases hrun
  simp [Pseudo.plain, Instruction.IsMild]

theorem IsMild.bind (h : step.IsMild) (hnext : ∀ a, (next a).IsMild) : (step >>= next).IsMild := by
  intro start out hrun p hp
  obtain ⟨first, second, hfirst, hsecond, rfl⟩ := run_bind_eq_ok.1 hrun
  rcases List.mem_append.1 hp with hp | hp
  · exact h start first hfirst p hp
  · exact hnext _ _ second hsecond p hp

/-- Every unary operator but that for the length is mild. -/
theorem unary_isMild {r : Register} {op : UnaryOp} (hop : op ≠ .len) : (unary r op).IsMild := by
  cases op with
  | len => exact absurd rfl hop
  | not => exact isMild_emit trivial
  | neg => exact IsMild.bind (isMild_emit trivial) fun _ => isMild_overflow
  | ord | chr => exact isMild_pure

/-- Every binary operator but division and remainder is mild. -/
theorem binary_isMild {l r : Register} {op : BinaryOp} (hdiv : op ≠ .div) (hmod : op ≠ .mod) :
    (binary l r op).IsMild := by
  cases op with
  | div => exact absurd rfl hdiv
  | mod => exact absurd rfl hmod
  | add | sub => exact IsMild.bind (isMild_emit trivial) fun _ => isMild_overflow
  | mul =>
    exact IsMild.bind (isMild_emit trivial) fun _ =>
      IsMild.bind (isMild_emit trivial) fun _ => isMild_overflow
  | gt | ge | lt | le | eq | ne =>
    exact IsMild.bind (isMild_emit trivial) fun _ => IsMild.bind (isMild_emit trivial) fun _ =>
      isMild_emit trivial
  | and | or => exact isMild_emit trivial

/-- An instruction that fills a register. -/
theorem evaluates_set {p : Pseudo} {i : Instruction} {r : Register} {w : Word}
    (hplain : p.plain x.limit x.message = [i]) (hexec : i.exec m = .next (m.set r w)) (hr : W r)
    (hloads : LoadsOnly (i.access? m).toList) :
    (emitAll [p]).Evaluates x arena W (fun _ => r) start m (.ok w) := by
  intro _
  refine executes_emitAll_next hplain hexec ⟨.set hr w, ?_, hloads⟩
  rw [m.regs_set_self]

theorem evaluates_intoFresh {instruction : Register → Pseudo}
    (h : ∀ r ∈ start.pool.free, (emitAll [instruction r]).Evaluates x arena start.pool.Spare
      (fun _ => r) (start.hold r) m result) :
    (intoFresh instruction).Evaluates x arena start.pool.Spare id start m result :=
  fun hknown => executes_intoFresh fun r hr => h r hr hknown

/-- Code that leaves the memory alone and calls nothing but the overflow routine ends as it does
where nothing else can be called. -/
theorem evaluates_of_yields {texts : String → String} {step : Lower Unit} {r : Register}
    {result : Except Trap Word} (henv : x.env.CarriesOut texts .throwOverflow)
    (hmild : step.IsMild)
    (hyields : ∀ out, step.run start = .ok out →
      plainEnvironment.Yields W r (out.code.flatMap (·.plain x.limit x.message)) m result) :
    step.Evaluates x arena W (fun _ => r) start m (answer result) := by
  intro _ out hrun
  have hcode : ∀ i ∈ x.plain out.code, i.IsMild := by
    intro i hi
    obtain ⟨p, hp, hi⟩ := List.mem_flatMap.1 hi
    exact hmild start out hrun p hp _ _ i hi
  -- Only the overflow routine can be called, and it ends the program in either environment.
  have hruns : x.run out.code m = plainEnvironment.run (x.plain out.code) m := by
    refine Environment.run_congr (fun i hi target htarget => ?_) m
    cases (hcode i hi).target htarget
    funext m
    rw [henv.overflow m, plainEnvironment_conforms.overflow m]
  have haccesses : x.accesses out.code m = [] :=
    x.env.accesses_of_none (fun i hi => (hcode i hi).access) m
  have hyields := hyields out hrun
  rw [hruns, haccesses]
  cases result with
  | ok w =>
    obtain ⟨m', hfinished, hkeeps, hvalue⟩ := hyields
    have hsymbols := plainEnvironment.symbols_of_run plainEnvironment_symbols hfinished
    rw [Setting.plain, hfinished]
    exact ⟨⟨hsymbols, hkeeps.regs, fun a _ => by rw [hkeeps.memory]⟩, by rw [hvalue]; rfl, by simp⟩
  | error trap =>
    obtain ⟨htrap, m', hfailed, _⟩ := hyields
    rw [Setting.plain, hfailed]
    refine ⟨?_, by simp⟩
    cases trap with
    | overflow | zeroDivisor => rfl
    | meaningless => exact absurd rfl htrap

/-- A unary operator leaves its answer in the register of its operand. -/
theorem unary_evaluates {texts : String → String} {r : Register} {op : UnaryOp}
    (henv : x.env.CarriesOut texts .throwOverflow) (hop : op ≠ .len) (hr : r ≠ .pc) :
    (unary r op).Evaluates x arena (· = r) (fun _ => r) start m
      (answer (op.evalWord (m.regs r))) :=
  evaluates_of_yields henv (unary_isMild hop) fun _ hrun =>
    unary_yields plainEnvironment_conforms hop hr rfl hrun _ _

/-- A division by a library function that leaves its result in `result`. -/
theorem divideWith_evaluates {texts : String → String} {l r result : Register} {function : String}
    {value : Word → Word → Word} (henv : x.env.Linked arena texts) (hsp : m.regs .sp = arena.sp)
    (hl : l ≠ .pc) (hr : r ≠ .r0)
    (hfunction : ∀ m : Machine, m.regs .sp = arena.sp → m.regs .r1 ≠ 0 →
      ∃ m', x.env function m = some m' ∧ m.Spares arena Register.Scratch m' ∧
        m'.regs result = value (m.regs .r0) (m.regs .r1)) :
    (divideWith function result l r).Evaluates x arena (fun s => s = l ∨ s.Scratch) (fun _ => l)
      start m (if m.regs r = 0 then .error .error else .ok (value (m.regs l) (m.regs r))) := by
  intro _
  let given := (m.set .r0 (m.regs l)).set .r1 (m.regs r)
  have hgiven : m.Spares arena (fun s => s = l ∨ s.Scratch) given :=
    .trans (.set (.inr (by decide)) _) (.set (.inr (by decide)) _)
  have hsp' : given.regs .sp = arena.sp := hsp
  have h0 : given.regs .r0 = m.regs l := by
    rw [Machine.regs_set_of_ne _ _ _ _ (by decide), Machine.regs_set_self]
  have h1 : given.regs .r1 = m.regs r := Machine.regs_set_self ..
  have hmove : (m.set .r0 (m.regs l)).set .r1 ((m.set .r0 (m.regs l)).regs r) = given := by
    rw [Machine.regs_set_of_ne _ _ _ _ hr]
  unfold divideWith
  refine .bind (executes_emit_next (Instruction.exec_move (by decide) l) ?_)
  refine .bind (executes_emit_next (Instruction.exec_move (by decide) r) ?_)
  rw [hmove]
  -- The check comes before the library function, so that is called with a divisor only.
  by_cases hzero : m.regs r = 0
  · have hnone := (henv.routines _).eq_none ((henv.divideByZero hsp').1 (h1.trans hzero))
    refine .bind (executes_call_none rfl hnone ?_)
    rw [if_pos hzero]
    exact ⟨rfl, by simp [move, access?]⟩
  · obtain ⟨passed, hcheck, hpassed⟩ := (henv.divideByZero hsp').2 (h1 ▸ hzero)
    have hp0 : passed.regs .r0 = m.regs l := (hpassed.regs _ (by decide)).trans h0
    have hp1 : passed.regs .r1 = m.regs r := (hpassed.regs _ (by decide)).trans h1
    obtain ⟨divided, hdivide, hdivided, hresult⟩ :=
      hfunction passed ((hpassed.regs _ (by decide)).trans hsp') (by rwa [hp1])
    refine .bind (executes_call_some rfl hcheck ?_)
    refine .bind (executes_call_some rfl hdivide ?_)
    refine executes_emit_next (Instruction.exec_move hl result) ⟨?_, ?_, by simp [move, access?]⟩
    · exact hgiven.trans ((hpassed.mono fun s hs => .inr (by subst hs; decide)).trans
        ((hdivided.mono fun _ => .inr).trans (.set (.inl rfl) _)))
    · rw [if_neg hzero, Machine.regs_set_self, hresult, hp0, hp1]

/-- A binary operator leaves its answer in the register of its left operand. -/
theorem binary_evaluates {texts : String → String} {l r : Register} {op : BinaryOp}
    (henv : x.env.Linked arena texts) (hsp : m.regs .sp = arena.sp) (hl : l ∈ Register.general)
    (hr : r ∈ Register.general) (hne : l ≠ r) :
    (binary l r op).Evaluates x arena (fun s => s = l ∨ s = r ∨ s.Scratch) (fun _ => l) start m
      (answer (op.evalWord (m.regs l) (m.regs r))) := by
  have hl' : l ≠ .pc := Register.ne_of_general hl (by decide)
  have hr0 : r ≠ .r0 := Register.ne_of_general hr (by decide)
  have hanswer (value : Word → Word → Word) :
      (if m.regs r = 0 then .error .error else .ok (value (m.regs l) (m.regs r))) =
        answer (if m.regs r = 0 then .error .zeroDivisor else
          .ok (value (m.regs l) (m.regs r))) := by
    split <;> rfl
  -- Division calls the library. All other operators are as in code without a heap.
  by_cases hdiv : op = .div
  · subst hdiv
    rw [BinaryOp.evalWord, ← hanswer BitVec.sdiv]
    exact (divideWith_evaluates henv hsp hl' hr0 henv.quotient).mono fun s hs => hs.imp_right .inr
  by_cases hmod : op = .mod
  · subst hmod
    rw [BinaryOp.evalWord, ← hanswer BitVec.srem]
    exact (divideWith_evaluates henv hsp hl' hr0 henv.remainder).mono fun s hs => hs.imp_right .inr
  exact evaluates_of_yields (henv.routines .throwOverflow) (binary_isMild hdiv hmod)
    fun _ hrun => binary_yields plainEnvironment_conforms hl hr hne rfl rfl hrun _ _

/-! ## §5 Elements -/

/-- A load from live bytes. -/
theorem load_evaluates {width : Width} {r base : Register} {offset : Int} (hr : r ≠ .pc)
    (hW : W r) :
    (emit (.ldr none width r (.offset base offset))).Evaluates x arena W (fun _ => r) start m
      (arena.read m width (m.regs base + BitVec.ofInt 32 offset)) := by
  intro hknown
  obtain ⟨w, hread⟩ : ∃ w, arena.read m width (m.regs base + BitVec.ofInt 32 offset) = .ok w := by
    unfold Arena.read at hknown ⊢
    split
    · exact ⟨_, rfl⟩
    · next h => exact absurd (if_neg h) hknown
  rw [hread, ← (Arena.read_eq_ok.1 hread).2]
  exact evaluates_set rfl (Machine.write_of_ne hr m _) hW
    (by simp [LoadsOnly, access?, Address.target?]) (by simp)

theorem load_held_evaluates {width : Width} {r base : Register} (hr : r ≠ .pc) (hW : W r) :
    (emit (.ldr none width r (.held base))).Evaluates x arena W (fun _ => r) start m
      (arena.read m width (m.regs base)) := by
  have hload := @load_evaluates x arena W start m width r base 0 hr hW
  rwa [show BitVec.ofInt 32 0 = 0#32 from rfl, BitVec.add_zero] at hload

/-- A register is replaced by what its address leads to. -/
theorem follow_evaluates {width : Width} {r : Register} {m' : Machine} (hr : r ∈ start.pool.free)
    (hextends : arena.Extends m m') :
    (do emit (.ldr none width r (.held r)); pure r : Lower Register).Evaluates x arena
      start.pool.Spare id (start.hold r) m' (arena.read m width (m'.regs r)) := by
  have hload := @load_held_evaluates x arena start.pool.Spare (start.hold r) m' width r r
    (ne_pc_of_mem_free hr) (.inl hr)
  refine (hload.congr hextends.read_eq).bind_silent fun _ _ out hrun => ?_
  cases hrun
  exact ⟨rfl, rfl⟩

theorem exec_add {dst lhs : Register} (hdst : dst ≠ .pc) (rhs : Operand) :
    (op .add dst lhs rhs).exec m = .next (m.set dst (m.regs lhs + rhs.value m)) := by
  have hsum : (addWithCarry (m.regs lhs) (rhs.value m) false).1 = m.regs lhs + rhs.value m := by
    simp [addWithCarry_fst, BitVec.ofInt_add, BitVec.ofInt_toInt]
  rw [← hsum]
  exact Machine.write_of_ne hdst m _

/-- An index is multiplied by the size of an element. -/
theorem value_scaled (m : Machine) (element : Ty) (i : Register) :
    Operand.value m (if element.size = 1 then .reg i else .shifted i (.lsl 2)) =
      m.regs i * BitVec.ofNat 32 element.size := by
  -- An element takes one byte or one word, and a shift by two multiplies by four.
  rcases element.size_eq with h | h
  · simp [h, Operand.value]
  · rw [h, if_neg (by decide), Operand.value, BitVec.shiftLeft_eq_mul_twoPow]
    rfl

end Lower

namespace Arena

variable {arena : Arena} {m : Machine} {element : Ty} {array i length : Word}

theorem place_of_neg (h : i.toInt < 0) : arena.place m element array i = .error .error :=
  if_pos h

theorem place_of_read (h : 0 ≤ i.toInt) (hread : arena.read m .word array = .ok length) :
    arena.place m element array i = if length.toNat ≤ i.toNat then .error .error
      else .ok (array + 4 + i * BitVec.ofNat 32 element.size) := by
  rw [place, if_neg (not_lt.2 h), hread]
  rfl

/-- Unless the index is negative, the length has to be known. -/
theorem exists_length (h : 0 ≤ i.toInt)
    (hknown : arena.place m element array i ≠ .error .unknown) :
    ∃ length, arena.read m .word array = .ok length := by
  rw [place, if_neg (not_lt.2 h)] at hknown
  cases hread : arena.read m .word array with
  | ok length => exact ⟨length, rfl⟩
  | error e =>
    cases e with
    | error => exact absurd hread read_ne_error
    | unknown => exact absurd (by rw [hread]; rfl) hknown

end Arena

namespace Lower

variable {α β : Type} {x : Setting} {arena : Arena} {W W' : Register → Prop} {start : Resources}
  {m : Machine} {result : Except NoValue Word} {step : Lower α} {next : α → Lower β}

/-- The stack pointer is not among the registers that indexing writes. -/
theorem not_written_sp {array : Register} (harray : array ∈ Register.general) :
    ¬ (Register.sp = array ∨ Register.Scratch .sp) :=
  not_or.2 ⟨(Register.ne_of_general harray (by decide)).symm, by decide⟩

/-- Indexing finds the place of the element, unless the bounds check ends the program. -/
theorem index_executes {texts : String → String} {array i : Register} {element : Ty}
    (henv : x.env.CarriesOut texts .checkArrayBounds) (hsp : m.regs .sp = arena.sp)
    (harray : array ∈ Register.general) (hi : i ∈ Register.general) (hne : i ≠ array)
    (hknown : arena.place m element (m.regs array) (m.regs i) ≠ .error .unknown) :
    (index array i element).Executes x start m
      (fun _ _ m' accesses => m.Spares arena (fun s => s = array ∨ s.Scratch) m' ∧
        arena.place m element (m.regs array) (m.regs i) = .ok (m'.regs array) ∧ LoadsOnly accesses)
      (fun m' accesses => arena.place m element (m.regs array) (m.regs i) = .error .error ∧
        checkArrayBounds.EndsProgram texts m' ∧ LoadsOnly accesses) := by
  have hpc : array ≠ .pc := Register.ne_of_general harray (by decide)
  have hr0 : array ≠ .r0 := Register.ne_of_general harray (by decide)
  have hkept {r : Register} (hr : r ∈ Register.general) : ¬ (r = .r1 ∨ r = .pc) := by
    rintro (hr1 | hpc)
    · exact Register.ne_of_general hr (by decide) hr1
    · exact Register.ne_of_general hr (by decide) hpc
  let given := (m.set .r0 (m.regs i)).set .r1 (m.regs array)
  have hgiven : m.Spares arena (fun s => s = array ∨ s.Scratch) given :=
    .trans (.set (.inr (by decide)) _) (.set (.inr (by decide)) _)
  have hsame {r : Register} (hr : r ∈ Register.general) : given.regs r = m.regs r := by
    rw [Machine.regs_set_of_ne _ _ _ _ (Register.ne_of_general hr (by decide)),
      Machine.regs_set_of_ne _ _ _ _ (Register.ne_of_general hr (by decide))]
  have h0 : given.regs .r0 = m.regs i := by
    rw [Machine.regs_set_of_ne _ _ _ _ (by decide), Machine.regs_set_self]
  have h1 : given.regs .r1 = m.regs array := Machine.regs_set_self ..
  have hmove : (m.set .r0 (m.regs i)).set .r1 ((m.set .r0 (m.regs i)).regs array) = given := by
    rw [Machine.regs_set_of_ne _ _ _ _ hr0]
  obtain ⟨hnegative, hnatural⟩ := henv.bounds (show given.regs .sp = arena.sp from hsp)
  rw [h0] at hnegative hnatural
  unfold index
  refine .bind (executes_emit_next (Instruction.exec_move (by decide) i) ?_)
  refine .bind (executes_emit_next (Instruction.exec_move (by decide) array) ?_)
  rw [hmove]
  have hnone : LoadsOnly ([] ++ ([] ++ [])) := loadsOnly_nil
  -- The check goes through the same cases as the place: the sign of the index first, then the
  -- length.
  rcases lt_or_ge (m.regs i).toInt 0 with hsign | hsign
  · rw [Arena.place_of_neg hsign]
    have hends := hnegative hsign
    exact .bind (executes_call_none rfl (henv.eq_none hends) ⟨rfl, hends, hnone⟩)
  · obtain ⟨length, hread⟩ := Arena.exists_length hsign hknown
    obtain ⟨hlive, hload⟩ := Arena.read_eq_ok.1 hread
    rw [Arena.place_of_read hsign hread]
    obtain ⟨hlarge, hsmall⟩ := hnatural hsign fun a ha => by
      rw [hgiven.live]
      exact hlive a (h1 ▸ ha)
    rw [h1, show given.load .word (m.regs array) = length from hload] at hlarge hsmall
    by_cases hlength : length.toNat ≤ (m.regs i).toNat
    · rw [if_pos hlength]
      have hends := hlarge hlength
      exact .bind (executes_call_none rfl (henv.eq_none hends) ⟨rfl, hends, hnone⟩)
    -- The element lies behind the length, as many elements on as the index says.
    · rw [if_neg hlength]
      obtain ⟨passed, hcheck, hpassed⟩ := hsmall (Nat.not_le.1 hlength)
      have hvalue {r : Register} (hr : r ∈ Register.general) : passed.regs r = m.regs r :=
        (hpassed.regs r (hkept hr)).trans (hsame hr)
      refine .bind (executes_call_some rfl hcheck ?_)
      refine .bind (executes_emit_next (exec_add hpc _) ?_)
      refine executes_emit_next (exec_add hpc _) ⟨?_, ?_, hnone⟩
      · refine hgiven.trans ((hpassed.mono fun s hs => .inr ?_).trans
          (.trans (.set (.inl rfl) _) (.set (.inl rfl) _)))
        rcases hs with rfl | rfl <;> decide
      · rw [value_scaled, Machine.regs_set_self, Machine.regs_set_self,
          Machine.regs_set_of_ne _ _ _ _ hne, hvalue harray, hvalue hi]
        rfl

/-- An index leads to the address of an element, or ends the program. -/
theorem index_evaluates {texts : String → String} {array i : Register} {element : Ty}
    (henv : x.env.CarriesOut texts .checkArrayBounds) (hsp : m.regs .sp = arena.sp)
    (harray : array ∈ Register.general) (hi : i ∈ Register.general) (hne : i ≠ array) :
    (index array i element).Evaluates x arena (fun s => s = array ∨ s.Scratch) (fun _ => array)
      start m (arena.place m element (m.regs array) (m.regs i)) := by
  intro hknown
  refine (index_executes henv hsp harray hi hne hknown).imp (fun _ _ _ _ => id) ?_
  rintro m' accesses ⟨herror, _, hloads⟩
  exact ⟨herror, hloads⟩

theorem evaluates_lookup {name : String} {next : Int × Ty → Lower β} {reg : β → Register}
    (h : ∀ found, start.frame.lookup? name = some found →
      (next found).Evaluates x arena W reg start m result) :
    (lookup name >>= next).Evaluates x arena W reg start m result := by
  refine fun hknown => .bind (executes_lookup fun found hfind => h found ?_ hknown)
  unfold Frame.find at hfind
  split at hfind
  · next hlookup =>
    cases hfind
    exact hlookup
  · cases hfind

theorem evaluates_acquire {next : Register → Lower β} {reg : β → Register}
    (h : ∀ r ∈ start.pool.free, (next r).Evaluates x arena W reg (start.hold r) m result) :
    (acquire >>= next).Evaluates x arena W reg start m result :=
  fun hknown => .bind (executes_acquire fun r hr => h r hr hknown)

/-- The address of an array is read from the variable. -/
theorem loadArray_evaluates {name : String} {offset : Int} {ty : Ty}
    (hlookup : start.frame.lookup? name = some (offset, ty)) :
    (loadArray name).Evaluates x arena start.pool.Spare Prod.fst start m
      (arena.read m .word (m.regs .sp + BitVec.ofInt 32 offset)) := by
  refine evaluates_lookup fun found hfound => ?_
  cases hlookup.symm.trans hfound
  refine evaluates_acquire fun r hr => ?_
  refine (load_evaluates (ne_pc_of_mem_free hr) (.inl hr)).bind_silent fun _ _ out hrun => ?_
  cases hrun
  exact ⟨rfl, rfl⟩

theorem loadArray_finds {name : String} {offset : Int} {ty : Ty}
    (hlookup : start.frame.lookup? name = some (offset, ty)) :
    (loadArray name).Ends start fun found after => start.Took found.1 after ∧ found.2 = ty := by
  simp only [loadArray, ends_bind, ends_lookup, ends_emit, ends_pure]
  intro found hfound
  rw [Frame.find, hlookup] at hfound
  cases hfound
  exact acquire_takes.imp fun _ _ htook => ⟨htook, rfl⟩

/-- Goes on to the row whose address an element holds, unless it is the last element. -/
def enterRow (array : Register) (last : Bool) : Lower Unit :=
  if last then pure () else emit (load array (.held array))

/-- Unless an index is the last, the row that it leads to is loaded. -/
theorem enterRow_evaluates {array : Register} {last : Bool} (harray : array ≠ .pc) (hW : W array) :
    (enterRow array last).Evaluates x arena W (fun _ => array) start m
      (arena.follow m last (m.regs array)) := by
  cases last with
  | true => exact fun _ => executes_pure ⟨.refl m, rfl, loadsOnly_nil⟩
  | false => exact load_held_evaluates harray hW

theorem lowerIndices_cons (array : Register) (ty : Ty) (i : Expr) (rest : List Expr) :
    lowerIndices array ty (i :: rest) = (do
      let r ← i.lower
      index array r ty.element
      release r
      enterRow array rest.isEmpty
      lowerIndices array ty.element rest) := by
  rw [lowerIndices]
  cases rest with
  | nil => simp [enterRow]
  | cons j rest => simp [enterRow]

@[simp] theorem ends_enterRow {array : Register} {last : Bool} {post : Unit → Resources → Prop} :
    (enterRow array last).Ends start post ↔ post () start := by
  cases last <;> simp [enterRow]

theorem lowerIndices_finds (array : Register) (ty : Ty) (indices : List Expr) :
    (lowerIndices array ty indices).Ends start fun found after =>
      after = start ∧ found = ty.elementAt indices.length := by
  induction indices generalizing ty with
  | nil => simp [lowerIndices, Ty.elementAt]
  | cons i rest ih =>
    simp only [lowerIndices_cons, ends_bind, ends_index, ends_release, ends_enterRow]
    refine (i.lower_takes start).imp ?_
    rintro r _ ⟨_, rfl⟩
    rw [Resources.release_hold]
    exact ih ty.element

/-! ## §6 Expressions -/

/-- A step that takes a register and brings a value into it, which is known as long as it depends
on live bytes. -/
structure Delivers (x : Setting) (arena : Arena) (frame : Frame) (step : Lower Register)
    (value : Machine → Except NoValue Word) : Prop where
  takes : ∀ start, step.Ends start start.Took
  stable : ∀ {m m'}, arena.Extends m m' → value m ≠ .error .unknown → value m' = value m
  evaluates : ∀ {start m}, start.frame = frame → m.regs .sp = arena.sp →
    step.Evaluates x arena start.pool.Spare id start m (value m)

section Operands

variable {frame : Frame} {a b : Lower Register} {u v : Machine → Except NoValue Word}

/-- The first value is kept while the second one is computed. -/
theorem Delivers.andThen (ha : Delivers x arena frame a u) (hb : Delivers x arena frame b v)
    (hframe : start.frame = frame) (hsp : m.regs .sp = arena.sp) (hu : u m ≠ .error .unknown)
    (hv : v m ≠ .error .unknown) {pick : Register → Register → Register × Register} :
    (do let p ← a; let q ← b; pure (pick p q) : Lower (Register × Register)).Executes x start m
      (fun r _ m' accesses => ∃ p q, r = pick p q ∧ m.Spares arena start.pool.Spare m' ∧
        u m = .ok (m'.regs p) ∧ v m = .ok (m'.regs q) ∧ LoadsOnly accesses)
      (fun _ accesses => (u m = .error .error ∨ v m = .error .error) ∧ LoadsOnly accesses) := by
  refine .bind (((ha.evaluates hframe hsp hu).and_ends (ha.takes start)).imp ?_ ?_)
  · rintro p _ m₁ accesses ⟨⟨hp, rfl⟩, hspares, hvalue, hloads⟩
    have hstable := hb.stable (hspares.extended start.pool.not_spare_sp) hv
    have hsecond : b.Evaluates x arena (start.hold p).pool.Spare id (start.hold p) m₁ (v m₁) :=
      hb.evaluates hframe ((hspares.regs _ start.pool.not_spare_sp).trans hsp)
    rw [hstable] at hsecond
    refine .bind ((hsecond hv).imp ?_ ?_)
    · rintro q _ m₂ more ⟨hspares', hvalue', hloads'⟩
      -- A register that is held is not spare.
      have hkept : m₂.regs p = m₁.regs p := by
        refine hspares'.regs p (RegisterPool.not_spare_of_general
          (RegisterPool.general_of_mem_free hp) fun hfree => ?_)
        exact (RegisterPool.mem_free_hold.1 hfree).2 rfl
      have hsub (r : Register) (hr : (start.hold p).pool.Spare r) : start.pool.Spare r :=
        hr.imp_left fun hfree => (RegisterPool.mem_free_hold.1 hfree).1
      refine executes_pure ⟨p, q, rfl, hspares.trans (hspares'.mono hsub), ?_, hvalue', ?_⟩
      · rw [hvalue, hkept, id]
      · exact hloads.append (hloads'.append loadsOnly_nil)
    · rintro m₂ more ⟨herror, hloads'⟩
      exact ⟨.inr herror, hloads.append hloads'⟩
  · rintro m₁ accesses ⟨herror, hloads⟩
    exact ⟨.inl herror, hloads⟩

/-- Two values are computed in either order. -/
theorem Delivers.inOrder (ha : Delivers x arena frame a u) (hb : Delivers x arena frame b v)
    (hframe : start.frame = frame) (hsp : m.regs .sp = arena.sp) (hu : u m ≠ .error .unknown)
    (hv : v m ≠ .error .unknown) {left : Bool} :
    (inOrder left a b).Executes x start m
      (fun r _ m' accesses => m.Spares arena start.pool.Spare m' ∧
        u m = .ok (m'.regs r.1) ∧ v m = .ok (m'.regs r.2) ∧ LoadsOnly accesses)
      (fun _ accesses => (u m = .error .error ∨ v m = .error .error) ∧ LoadsOnly accesses) := by
  cases left with
  | true =>
    refine (ha.andThen hb hframe hsp hu hv).imp ?_ fun _ _ => id
    rintro _ _ m' accesses ⟨p, q, rfl, hpost⟩
    exact hpost
  | false =>
    -- The second value comes first. An error of either is an error of both, so the order does not
    -- show.
    refine (hb.andThen ha hframe hsp hv hu).imp ?_ fun _ _ => And.imp_left Or.symm
    rintro _ _ m' accesses ⟨p, q, rfl, hspares, hq, hp, hloads⟩
    exact ⟨hspares, hp, hq, hloads⟩

end Operands

/-- An operator applied to what a step delivers. -/
theorem Delivers.unary {texts : String → String} {frame : Frame} {a : Lower Register}
    {u : Machine → Except NoValue Word} {op : UnaryOp}
    (henv : x.env.CarriesOut texts .throwOverflow) (ha : Delivers x arena frame a u)
    (hframe : start.frame = frame) (hsp : m.regs .sp = arena.sp) :
    (do let r ← a; Lower.unary r op; pure r : Lower Register).Evaluates x arena start.pool.Spare
      id start m (u m >>= fun w => if op = .len then arena.read m .word w else answer (op.evalWord w)) := by
  refine .bind (ha.evaluates hframe hsp) (ha.takes start) (fun _ => id) ?_
  rintro r _ m' ⟨hr, rfl⟩ hspares
  have hpc := ne_pc_of_mem_free hr
  have hoperator : (Lower.unary r op).Evaluates x arena start.pool.Spare (fun _ => r)
      (start.hold r) m' (if op = .len then arena.read m .word (m'.regs r)
        else answer (op.evalWord (m'.regs r))) := by
    -- The length is read through the operand's value. It is the same before and after the operand's
    -- code, which changes no live byte.
    split
    · next hop =>
      subst hop
      exact (load_held_evaluates hpc (.inl hr)).congr
        (hspares.extended start.pool.not_spare_sp).read_eq
    · next hop => exact (unary_evaluates henv hop hpc).mono fun s hs => hs ▸ .inl hr
  refine hoperator.bind_silent fun _ _ out hrun => ?_
  cases hrun
  exact ⟨rfl, rfl⟩

/-- An operator applied to what two steps deliver. -/
theorem Delivers.binary {texts : String → String} {frame : Frame} {a b : Lower Register}
    {u v : Machine → Except NoValue Word} {op : BinaryOp} {left : Bool}
    (henv : x.env.Linked arena texts) (ha : Delivers x arena frame a u)
    (hb : Delivers x arena frame b v) (hframe : start.frame = frame) (hsp : m.regs .sp = arena.sp) :
    (do
      let operands ← Lower.inOrder left a b
      Lower.binary operands.1 operands.2 op
      release operands.2
      pure operands.1 : Lower Register).Evaluates x arena start.pool.Spare id start m
        (both (u m) (v m) fun p q => answer (op.evalWord p q)) := by
  intro hknown
  -- Both operands have to be known, since the code computes both before it applies the operator.
  obtain ⟨hu, hv⟩ := known_of_both hknown
  refine .bind (((ha.inOrder hb hframe hsp hu hv).and_ends (inOrder_takes ha.takes hb.takes)).imp
    ?_ ?_)
  · rintro ⟨p, q⟩ mid m' accesses ⟨htook, hspares, hp, hq, hloads⟩
    have hoperator := @binary_evaluates x arena mid m' texts p q op henv
      ((hspares.regs _ start.pool.not_spare_sp).trans hsp)
      (RegisterPool.general_of_mem_free htook.fst_free)
      (RegisterPool.general_of_mem_free htook.snd_free) htook.ne
    have happlied : (do Lower.binary p q op; release q; pure p : Lower Register).Evaluates x arena
        (fun s => s = p ∨ s = q ∨ s.Scratch) id mid m'
        (answer (op.evalWord (m'.regs p) (m'.regs q))) := by
      refine hoperator.bind_silent fun _ _ out hrun => ?_
      cases hrun
      exact ⟨rfl, rfl⟩
    rw [hp, hq] at hknown ⊢
    refine (happlied hknown).imp ?_ ?_
    · rintro r after m'' more ⟨hspares', hvalue, hloads'⟩
      refine ⟨hspares.trans (hspares'.mono ?_), hvalue, hloads.append hloads'⟩
      rintro s (rfl | rfl | hs)
      · exact .inl htook.fst_free
      · exact .inl htook.snd_free
      · exact .inr hs
    · rintro m'' more ⟨herror, hloads'⟩
      exact ⟨herror, hloads.append hloads'⟩
  · rintro m' accesses ⟨herror, hloads⟩
    exact ⟨both_eq_error hknown herror, hloads⟩

theorem elementAddress_finds {name : String} {indices : List Expr} {offset : Int} {ty : Ty}
    (hlookup : start.frame.lookup? name = some (offset, ty)) :
    (elementAddress name indices).Ends start fun found after =>
      start.Took found.1 after ∧ found.2 = ty.elementAt indices.length := by
  simp only [elementAddress, ends_bind, ends_pure]
  refine (loadArray_finds hlookup).imp ?_
  rintro ⟨array, _⟩ mid ⟨htook, rfl⟩
  refine (lowerIndices_finds array _ indices).imp ?_
  rintro found _ ⟨rfl, hfound⟩
  exact ⟨htook, hfound⟩

/-- The address of an element is found if the indices lead to it. -/
theorem elementAddress_evaluates_of {name : String} {indices : List Expr} {offset : Int} {ty : Ty}
    (hlookup : start.frame.lookup? name = some (offset, ty)) (hsp : m.regs .sp = arena.sp)
    (hindices : ∀ {array : Register} {start' : Resources} {m' : Machine},
      start'.frame = start.frame → m'.regs .sp = arena.sp → array ∈ Register.general →
      array ∉ start'.pool.free →
      (lowerIndices array ty indices).Evaluates x arena (fun s => s = array ∨ start'.pool.Spare s)
        (fun _ => array) start' m'
        (addressIn arena x.message start.frame m' ty (m'.regs array) indices)) :
    (elementAddress name indices).Evaluates x arena start.pool.Spare Prod.fst start m
      (arena.read m .word (m.regs .sp + BitVec.ofInt 32 offset) >>= fun array =>
        addressIn arena x.message start.frame m ty array indices) := by
  refine .bind (loadArray_evaluates hlookup) (loadArray_finds hlookup) (fun _ => id) ?_
  rintro ⟨array, _⟩ _ m' ⟨⟨harray, rfl⟩, rfl⟩ hspares
  have hrows := @hindices array (start.hold array) m' rfl
    ((hspares.regs _ start.pool.not_spare_sp).trans hsp)
    (RegisterPool.general_of_mem_free harray) fun hfree =>
      (RegisterPool.mem_free_hold.1 hfree).2 rfl
  -- The array is read before the indices, whose values are those of the machine before.
  refine ((hrows.mono ?_).congr ?_).bind_silent fun _ _ out hrun => ?_
  · rintro s (rfl | hs)
    · exact .inl harray
    · exact hs.imp_left fun hfree => (RegisterPool.mem_free_hold.1 hfree).1
  · exact addressIn_eq (hspares.extended start.pool.not_spare_sp) _ _ _
  · cases hrun
    exact ⟨rfl, rfl⟩

end Lower

theorem Expr.lower_elem (span : Span) (name : String) (indices : List Expr) :
    (Expr.elem span name indices).lower = (do
      let found ← elementAddress name indices
      emit (.ldr none found.2.width found.1 (.held found.1))
      pure found.1) := by
  simp [Expr.lower, elementAddress]

section Exprs

variable {x : Setting} {arena : Arena} {texts : String → String}

theorem Lower.Delivers.of_expr {frame : Frame} {e : Expr} (h : ∀ {start m}, m.regs .sp = arena.sp →
      e.lower.Evaluates x arena start.pool.Spare id start m
        (e.valueIn arena x.message start.frame m)) :
    Delivers x arena frame e.lower (e.valueIn arena x.message frame) :=
  ⟨e.lower_takes, fun hextends => e.valueIn_eq hextends, fun hframe hsp => hframe ▸ h hsp⟩

/-- An instruction without an access that fills a fresh register. -/
theorem Lower.evaluates_fill {start : Resources} {m : Machine} {w : Word}
    {instruction : Register → Pseudo}
    (h : ∀ r, r ≠ .pc → ∃ i, (instruction r).plain x.limit x.message = [i] ∧
      i.exec m = .next (m.set r w) ∧ i.access? m = none) :
    (intoFresh instruction).Evaluates x arena start.pool.Spare id start m (.ok w) := by
  refine evaluates_intoFresh fun r hr => ?_
  obtain ⟨i, hplain, hexec, haccess⟩ := h r (ne_pc_of_mem_free hr)
  exact evaluates_set hplain hexec (.inl hr) (by simp [haccess])

mutual

/-- The code of an expression brings its value into a register. -/
theorem Expr.delivers (henv : x.env.Linked arena texts) : (e : Expr) → (frame : Frame) →
    Delivers x arena frame e.lower (e.valueIn arena x.message frame)
  | .int _ text, _ => .of_expr fun _ => by
    rw [Expr.lower, Expr.valueIn]
    cases Literal.intValue? text with
    | some n => exact evaluates_fill fun r hr => ⟨_, rfl, Machine.write_of_ne hr _ _, rfl⟩
    | none => exact fun hknown => absurd rfl hknown
  | .bool .., _ => .of_expr fun _ => by
    rw [Expr.lower, Expr.valueIn]
    exact evaluates_fill fun r hr => ⟨_, rfl, Machine.write_of_ne hr _ _, rfl⟩
  | .char .., _ => .of_expr fun _ => by
    rw [Expr.lower, Expr.valueIn]
    exact evaluates_fill fun r hr => ⟨_, rfl, Machine.write_of_ne hr _ _, rfl⟩
  | .str .., _ => .of_expr fun _ => by
    rw [Expr.lower, Expr.valueIn]
    exact evaluates_fill fun r hr => ⟨_, rfl, Machine.write_of_ne hr _ _, rfl⟩
  | .null _, _ => .of_expr fun _ => by
    rw [Expr.lower, Expr.valueIn]
    exact evaluates_fill fun r hr => ⟨_, rfl, Machine.write_of_ne hr _ _, rfl⟩
  | .ident _ name, _ => .of_expr fun _ => by
    rw [Expr.lower, Expr.valueIn]
    refine evaluates_lookup fun found hfound => ?_
    rw [hfound]
    exact evaluates_intoFresh fun r hr => load_evaluates (ne_pc_of_mem_free hr) (.inl hr)
  | .elem _ name indices, _ => .of_expr fun {start m} hsp => by
    rw [Expr.lower_elem, Expr.valueIn]
    cases hlookup : start.frame.lookup? name with
    | some found =>
      obtain ⟨offset, ty⟩ := found
      have haddress : (elementAddress name indices).Evaluates x arena start.pool.Spare Prod.fst
          start m (arena.read m .word (m.regs .sp + BitVec.ofInt 32 offset) >>= fun array =>
            addressIn arena x.message start.frame m ty array indices) :=
        elementAddress_evaluates_of hlookup hsp fun {_ start' _} hframe hsp hgeneral hheld =>
          hframe ▸ lowerIndices_evaluates henv indices ty start' hsp hgeneral hheld
      dsimp only
      rw [← bind_assoc]
      refine .bind haddress (elementAddress_finds hlookup) (fun _ => id) ?_
      rintro ⟨r, _⟩ _ m' ⟨⟨hr, rfl⟩, rfl⟩ hspares
      exact follow_evaluates hr (hspares.extended start.pool.not_spare_sp)
    | none => exact fun hknown => absurd rfl hknown
  | .unary _ op operand, _ => .of_expr fun hsp => by
    rw [Expr.lower, Expr.valueIn]
    exact (operand.delivers henv _).unary (henv.routines _) rfl hsp
  | .binary _ op lhs rhs, _ => .of_expr fun hsp => by
    rw [Expr.lower_binary, Expr.valueIn]
    exact (lhs.delivers henv _).binary henv (rhs.delivers henv _) rfl hsp

/-- The code of indices turns the address of an array into that of an element. -/
theorem lowerIndices_evaluates (henv : x.env.Linked arena texts) : (indices : List Expr) →
    (ty : Ty) → {array : Register} → (start : Resources) → {m : Machine} →
    m.regs .sp = arena.sp → array ∈ Register.general → array ∉ start.pool.free →
    (lowerIndices array ty indices).Evaluates x arena (fun s => s = array ∨ start.pool.Spare s)
      (fun _ => array) start m (addressIn arena x.message start.frame m ty (m.regs array) indices)
  | [], ty, _, _, m, _, _, _ => by
    rw [lowerIndices, addressIn]
    exact fun _ => executes_pure ⟨.refl m, rfl, loadsOnly_nil⟩
  | i :: rest, ty, array, start, m, hsp, harray, hheld => by
    rw [lowerIndices_cons, addressIn]
    have hkept := RegisterPool.not_spare_of_general harray hheld
    have hne := not_written_sp harray
    have hpc : array ≠ .pc := Register.ne_of_general harray (by decide)
    -- What the indices select is known from the machine before them, as no step changes live bytes.
    refine .bind ((i.delivers henv start.frame).evaluates rfl hsp) (i.lower_takes start)
      (fun _ => .inr) ?_
    rintro r _ m₁ ⟨hr, rfl⟩ h₁
    have hsp₁ := (h₁.regs _ start.pool.not_spare_sp).trans hsp
    have hext₁ := h₁.extended start.pool.not_spare_sp
    have hindex := @index_evaluates x arena (start.hold r) m₁ texts array r ty.element
      (henv.routines _) hsp₁ harray (RegisterPool.general_of_mem_free hr)
      (by rintro rfl; exact hheld hr)
    rw [h₁.regs _ hkept] at hindex
    refine .andThen (hindex.congr hext₁.place_eq) (ends_index.2 rfl) (fun s => .imp_right .inr)
      fun m₂ h₂ => ?_
    have hsp₂ := (h₂.regs .sp hne).trans hsp₁
    have hext₂ := hext₁.trans (h₂.extended hne)
    refine .after_silent (run_release r _) ?_
    rw [Resources.release_hold]
    have hrow := @enterRow_evaluates x arena (· = array) start m₂ array rest.isEmpty hpc rfl
    refine .andThen (hrow.congr hext₂.follow_eq) (ends_enterRow.2 rfl) (fun s => .inl)
      fun m₃ h₃ => ?_
    have hrest := lowerIndices_evaluates henv rest ty.element start
      ((h₃.regs .sp fun h => hne (.inl h)).trans hsp₂) harray hheld
    exact hrest.congr (addressIn_eq (hext₂.trans (h₃.extended fun h => hne (.inl h))) _ _ _)

end

/-- Where an expression has a value its code finishes and leaves the value in a register that was
free. -/
theorem Expr.lower_executes (henv : x.env.Linked arena texts) {start : Resources} {m : Machine}
    (hsp : m.regs .sp = arena.sp) {e : Expr} {w : Word}
    (hvalue : e.valueIn arena x.message start.frame m = .ok w) :
    e.lower.Executes x start m
      (fun r after m' accesses => start.Took r after ∧ m.Spares arena start.pool.Spare m' ∧
        m'.regs r = w ∧ LoadsOnly accesses)
      (fun _ _ => False) := by
  have hdelivers := (e.delivers henv start.frame).evaluates rfl hsp
  rw [hvalue] at hdelivers
  refine (hdelivers.executes.and_ends (e.lower_takes start)).imp ?_ fun _ _ => id
  rintro r after m' accesses ⟨htook, hpost⟩
  exact ⟨htook, hpost⟩

end Exprs

end ArmCompiler
