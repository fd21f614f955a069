import ArmCompiler.Proofs.Expansion
import ArmCompiler.Proofs.Outcomes
import ArmCompiler.Proofs.Touches

/-!
# The General Registers That Code Writes

Code is *confined* if it writes no general register but those of a set, and calls no function of the
program but those of another. The calculus for steps is about sets that contain all free registers:
a step only hands out free registers and only takes back what was handed out, so the free registers
never leave the set, however many are in use at first.

From it, two facts that ask nothing of the state at the start: lowering an expression, a right side
or a target writes only registers that are free, and of these only a right side calls a function.

## Contents
- §1: confined code
- §2: confined steps
- §3: straight code
- §4: right sides and targets
- §5: steps of statements
- §6: steps that write free registers
- §7: routines and functions
-/

namespace ArmCompiler

open Instruction Lower

/-! ## §1 Confined code -/

/-- The general registers that an instruction writes are among `W`, and the function that it calls,
if it calls one, is among `calls`. -/
@[mk_iff]
structure Instruction.Confined (W : Register → Prop) (calls : String → Prop) (i : Instruction) :
    Prop where
  writes : ∀ r ∈ i.written, r ∈ Register.general → W r
  calls : ∀ cond name, i = .branch true cond (functionLabel name) → calls name

/-- All instructions that a step stands for are confined. -/
def Pseudo.Confined (W : Register → Prop) (calls : String → Prop) (p : Pseudo) : Prop :=
  ∀ limit message, ∀ i ∈ p.plain limit message, i.Confined W calls

section Code

variable {W : Register → Prop} {calls : String → Prop}

namespace Instruction

@[simp] theorem confined_mov {cond : Option Condition} {r : Register} {src : Operand} :
    (Instruction.mov cond r src).Confined W calls ↔ (r ∈ Register.general → W r) := by
  simp [confined_iff, written]

@[simp] theorem confined_arith {arith : ArithOp} {setFlags : Bool} {r lhs : Register}
    {rhs : Operand} :
    (Instruction.arith arith setFlags r lhs rhs).Confined W calls ↔
      (r ∈ Register.general → W r) := by
  simp [confined_iff, written]

@[simp] theorem confined_ldr {cond : Option Condition} {width : Width} {r : Register}
    {src : Address} : (Instruction.ldr cond width r src).Confined W calls ↔
      ∀ s ∈ r :: src.written, s ∈ Register.general → W s := by
  simp [confined_iff, written]

@[simp] theorem confined_str {width : Width} {r : Register} {dst : Address} :
    (Instruction.str width r dst).Confined W calls ↔
      ∀ s ∈ dst.written, s ∈ Register.general → W s := by
  simp [confined_iff, written]

@[simp] theorem confined_cmp {lhs : Register} {rhs : Operand} :
    (Instruction.cmp lhs rhs).Confined W calls := by
  simp [confined_iff, written]

@[simp] theorem confined_smull {lo hi lhs rhs : Register} :
    (Instruction.smull lo hi lhs rhs).Confined W calls ↔
      ∀ r ∈ [lo, hi], r ∈ Register.general → W r := by
  simp [confined_iff, written]

@[simp] theorem confined_push {r : Register} : (Instruction.push r).Confined W calls := by
  simp [confined_iff, written, Register.general]

@[simp] theorem confined_pop {r : Register} :
    (Instruction.pop r).Confined W calls ↔ (r ∈ Register.general → W r) := by
  simp [confined_iff, written, Register.general]

@[simp] theorem confined_label {name : String} : (Instruction.label name).Confined W calls := by
  simp [confined_iff, written]

@[simp] theorem confined_jump {cond : Option Condition} {label : String} :
    (Instruction.branch false cond label).Confined W calls := by
  simp [confined_iff, written]

/-- A call of what is no function of the program. -/
theorem confined_link {cond : Option Condition} {label : String}
    (h : ∀ name, label ≠ functionLabel name) :
    (Instruction.branch true cond label).Confined W calls := by
  constructor
  · simp [written, Register.general]
  · intro _ name hcall
    exact absurd (Instruction.branch.inj hcall).2.2 (h name)

@[simp] theorem confined_routine {cond : Option Condition} {r : Routine} :
    (Instruction.branch true cond r.label).Confined W calls :=
  confined_link r.label_ne_functionLabel

/-- A call of a library function. -/
theorem confined_library {cond : Option Condition} {label : String}
    (h : label ∈ libraryFunctions) : (Instruction.branch true cond label).Confined W calls :=
  confined_link fun _ => functionLabel_ne_library h

end Instruction

namespace Pseudo

@[simp] theorem confined_instr {i : Instruction} :
    (Pseudo.instr i).Confined W calls ↔ i.Confined W calls := by
  simp [Pseudo.Confined, plain]

@[simp] theorem confined_routine {cond : Option Condition} {r : Routine} :
    (Pseudo.routine cond r).Confined W calls := by
  simp [Pseudo.Confined, plain]

@[simp] theorem confined_message {r : Register} {text : String} :
    (Pseudo.message r text).Confined W calls ↔ (r ∈ Register.general → W r) := by
  simp [Pseudo.Confined, plain, loadLabel, load, Address.written]

/-- Moving the stack pointer writes the stack pointer. -/
theorem confined_adjustStack {op : ArithOp} {limit bytes : Nat} :
    ∀ i ∈ adjustStack op limit bytes, i.Confined W calls := by
  simp [adjustStack, Instruction.op, Register.general]

@[simp] theorem confined_reserve {bytes : Nat} : (Pseudo.reserve bytes).Confined W calls :=
  fun _ _ => confined_adjustStack

@[simp] theorem confined_unreserve {bytes : Nat} : (Pseudo.unreserve bytes).Confined W calls :=
  fun _ _ => confined_adjustStack

end Pseudo

end Code

/-! ## §2 Confined steps -/

/-- Where the free registers are among `W`, the step emits confined code and leaves the free
registers among `W`, and its value meets a condition. -/
def Lower.Confined {α : Type} (W : Register → Prop) (calls : String → Prop) (step : Lower α)
    (post : α → Prop) : Prop :=
  ∀ start out, (∀ r ∈ start.pool.free, W r) → step.run start = .ok out →
    (∀ p ∈ out.code, p.Confined W calls) ∧ (∀ r ∈ out.resources.pool.free, W r) ∧ post out.value

namespace Lower.Confined

variable {α β : Type} {W : Register → Prop} {calls : String → Prop}

/-- Confined steps can follow each other. -/
theorem bind {step : Lower α} {next : α → Lower β} {post : α → Prop} {post' : β → Prop}
    (h : step.Confined W calls post)
    (hnext : ∀ a, post a → (next a).Confined W calls post') :
    (step >>= next).Confined W calls post' := by
  intro start out hfree hrun
  obtain ⟨first, second, hfirst, hsecond, rfl⟩ := run_bind_eq_ok.1 hrun
  obtain ⟨hcode, hmid, hpost⟩ := h start first hfree hfirst
  obtain ⟨hcode', hend, hpost'⟩ := hnext _ hpost _ second hmid hsecond
  exact ⟨List.forall_mem_append.2 ⟨hcode, hcode'⟩, hend, hpost'⟩

/-- A step with no value of interest. -/
theorem andThen {step : Lower α} {next : α → Lower β} {post : β → Prop}
    (h : step.Confined W calls fun _ => True) (hnext : ∀ a, (next a).Confined W calls post) :
    (step >>= next).Confined W calls post :=
  h.bind fun a _ => hnext a

theorem pure {a : α} {post : α → Prop} (h : post a) :
    (Pure.pure a : Lower α).Confined W calls post := by
  intro start out hfree hrun
  cases hrun
  exact ⟨by simp, hfree, h⟩

theorem fail {e : CompileError} {post : α → Prop} :
    (Lower.fail e : Lower α).Confined W calls post := by
  intro start out hfree hrun
  cases hrun

/-- Confined code can be emitted. -/
theorem emitAll {code : List Pseudo} (h : ∀ p ∈ code, p.Confined W calls) :
    (Lower.emitAll code).Confined W calls fun _ => True := by
  intro start out hfree hrun
  cases hrun
  exact ⟨h, hfree, trivial⟩

theorem emit {i : Instruction} (h : i.Confined W calls) :
    (Lower.emit i).Confined W calls fun _ => True :=
  emitAll (by simpa using h)

theorem callRoutine {r : Routine} : (Lower.callRoutine r).Confined W calls fun _ => True :=
  emitAll (by simp)

theorem callRoutineIf {cond : Condition} {r : Routine} :
    (Lower.callRoutineIf cond r).Confined W calls fun _ => True :=
  emitAll (by simp)

/-- A step that emits nothing and leaves the same registers free. -/
theorem silent {step : Lower α} (h : ∀ start out, step.run start = .ok out →
    out.code = [] ∧ out.resources.pool.free = start.pool.free) :
    step.Confined W calls fun _ => True := by
  intro start out hfree hrun
  obtain ⟨hcode, hpool⟩ := h start out hrun
  exact ⟨by simp [hcode], by rwa [hpool], trivial⟩

theorem getFrame : Lower.getFrame.Confined W calls fun _ => True :=
  silent fun _ _ hrun => by cases hrun; exact ⟨rfl, rfl⟩

theorem modifyFrame {f : Frame → Frame} :
    (Lower.modifyFrame f).Confined W calls fun _ => True :=
  silent fun _ _ hrun => by cases hrun; exact ⟨rfl, rfl⟩

theorem freshLabel : Lower.freshLabel.Confined W calls fun _ => True :=
  silent fun _ _ hrun => by cases hrun; exact ⟨rfl, rfl⟩

/-- The return register is no general register. -/
theorem holdReturn : Lower.holdReturn.Confined W calls (· = .r0) := by
  intro start out hfree hrun
  cases hrun
  exact ⟨by simp, hfree, rfl⟩

theorem freeReturn : Lower.freeReturn.Confined W calls fun _ => True :=
  silent fun _ _ hrun => by cases hrun; exact ⟨rfl, rfl⟩

theorem ofExcept {x : Except CompileError α} :
    (Lower.ofExcept x).Confined W calls fun _ => True :=
  silent fun _ _ hrun => by cases x <;> cases hrun; exact ⟨rfl, rfl⟩

theorem lookup {name : String} : (Lower.lookup name).Confined W calls fun _ => True :=
  getFrame.andThen fun _ => ofExcept

theorem declare {name : String} {ty : Ty} :
    (Lower.declare name ty).Confined W calls fun _ => True := by
  apply silent
  intro start out hrun
  obtain ⟨offset, frame, _, rfl⟩ := run_declare_eq_ok.1 hrun
  exact ⟨rfl, rfl⟩

/-- What is taken is free, so it is in the set. -/
theorem acquire : Lower.acquire.Confined W calls W := by
  intro start out hfree hrun
  obtain ⟨r, hhead, rfl⟩ := run_acquire_eq_ok.1 hrun
  refine ⟨by simp, ?_, hfree r (List.mem_of_mem_head? hhead)⟩
  intro s hs
  exact hfree s (RegisterPool.mem_free_hold.1 hs).1

/-- What is given back has to be in the set. -/
theorem release {r : Register} (hr : W r) :
    (Lower.release r).Confined W calls fun _ => True := by
  intro start out hfree hrun
  cases hrun
  refine ⟨by simp, ?_, trivial⟩
  intro s hs
  obtain ⟨hmem, hheld⟩ := RegisterPool.mem_free.1 hs
  -- Of the registers that were not free, only the one that is given back can be free now.
  by_cases heq : s = r
  · exact heq ▸ hr
  · refine hfree s (RegisterPool.mem_free.2 ⟨hmem, fun hthere => hheld ?_⟩)
    exact (List.mem_erase_of_ne heq).2 hthere

/-- Code that writes a register of the set, for whichever is taken. -/
theorem intoFresh {instruction : Register → Pseudo}
    (h : ∀ r, W r → (instruction r).Confined W calls) :
    (Lower.intoFresh instruction).Confined W calls W := by
  apply acquire.bind
  intro r hr
  refine (emitAll ?_).andThen fun _ => .pure hr
  simpa using h r hr

end Lower.Confined

/-! ## §3 Straight code -/

section Lowering

variable {W : Register → Prop} {calls : String → Prop}

/-- Straight steps call no function of the program. -/
theorem Straight.confined {S : Int → Prop} {p : Pseudo}
    (h : Straight (fun r => r ∈ Register.general → W r) S p) : p.Confined W calls := by
  cases h with
  | constant hr | mov hr | text hr | loadSlot hr | load hr | arith hr =>
    simpa [loadConst, Instruction.load, Address.written] using hr
  | storeSlot | store => simp [Address.written]
  | cmp => simp
  | smull hlo hhi => simpa using ⟨hlo, hhi⟩
  | routine => exact Pseudo.confined_routine
  | library hname => exact Pseudo.confined_instr.2 (confined_library hname)

/-- The registers that are free and those for arguments, of which no general register is one, can
be written. -/
theorem writable_general {pool : RegisterPool} (h : ∀ r ∈ pool.free, W r) :
    Writable pool fun r => r ∈ Register.general → W r where
  free r hr _ := h r hr
  r0 hr := absurd hr (by decide)
  r1 hr := absurd hr (by decide)

namespace Lower.Confined

/-- A step that brings a value into a free register by straight code. -/
theorem of_fetches {step : Lower Register}
    (h : ∀ {W : Register → Prop} {start : Resources} {out : Lowered Register},
      step.run start = .ok out → Writable start.pool W → Fetches W start out) :
    step.Confined W calls W := by
  intro start out hfree hrun
  have hfetch := h hrun (writable_general hfree)
  refine ⟨fun p hp => (hfetch.code p hp).confined, ?_, hfree _ hfetch.free⟩
  rw [hfetch.holds]
  exact fun r hr => hfree r (RegisterPool.mem_free_hold.1 hr).1

/-- A step that leaves the resources alone and emits straight code. -/
theorem of_quiet {α : Type} {step : Lower α}
    (h : ∀ {W : Register → Prop} {start : Resources} {out : Lowered α},
      step.run start = .ok out → Writable start.pool W → Quiet W start out) :
    step.Confined W calls fun _ => True := by
  intro start out hfree hrun
  have hquiet := h hrun (writable_general hfree)
  exact ⟨fun p hp => (hquiet.code p hp).confined, by rwa [hquiet.unchanged], trivial⟩

end Lower.Confined

/-- The value of an expression comes into a register of the set, and no other one is written on the
way. -/
theorem Expr.lower_confined (e : Expr) : e.lower.Confined W calls W := .of_fetches e.lower_fetches

/-! ## §4 Right sides and targets -/

theorem Pushes.confined {S : Nat → Int → Prop} {count : Nat} {code : List Pseudo}
    (h : Pushes (fun r => r ∈ Register.general → W r) S count code) :
    ∀ p ∈ code, p.Confined W calls := by
  induction h with
  | nil => simp
  | snoc _ harg ih =>
    simp only [List.forall_mem_append, List.forall_mem_singleton]
    exact ⟨ih, fun p hp => (harg p hp).confined, by simp [Address.written, Register.general]⟩

namespace Lower

/-- Arguments are evaluated in registers of the set, and call nothing. -/
theorem pushArgs_confined (params : List Param) (args : List Expr) :
    (pushArgs params args).Confined W calls fun _ => True := by
  intro start out hfree hrun
  obtain ⟨hresources, hpushes⟩ := pushArgs_eq_ok hrun (writable_general hfree)
  exact ⟨hpushes.confined, by rwa [hresources], trivial⟩

/-- What follows the call of a function: its arguments are taken off the stack and its result is
brought into a free register. -/
def takeResult (pushed : Nat) : Lower Register := do
  emitAll [.unreserve pushed]
  modifyFrame (·.popTemp pushed)
  let ret ← holdReturn
  let result ← intoFresh fun r => .instr (move r ret)
  freeReturn
  pure result

theorem takeResult_confined (pushed : Nat) : (takeResult pushed).Confined W calls W := by
  refine (Confined.emitAll (by simp)).andThen fun _ => ?_
  refine Confined.modifyFrame.andThen fun _ => ?_
  refine Confined.holdReturn.bind fun ret _ => ?_
  refine (Confined.intoFresh ?_).bind fun result hresult => ?_
  · exact fun r hr => by simp [move, hr]
  exact Confined.freeReturn.andThen fun _ => .pure hresult

/-- A call has three parts, and the registers in use at the call are those the first part leaves. -/
theorem callFunction_eq {table : SymbolTable} {name : String} {signature : Signature}
    (h : table.function? name = some signature) (args : List Expr) :
    callFunction table name args = (do
      pushArgs signature.params args
      emit (call (functionLabel name))
      takeResult (slotBytes * args.length)) := by
  rw [callFunction, h]
  rfl

/-- A call is the one step that calls a function of the program. -/
theorem callFunction_confined {name : String} (hname : calls name) (table : SymbolTable)
    (args : List Expr) : (callFunction table name args).Confined W calls W := by
  cases hfound : table.function? name with
  | none =>
    rw [callFunction, hfound]
    exact .fail
  | some signature =>
    rw [callFunction_eq hfound]
    refine (pushArgs_confined signature.params args).andThen fun _ => ?_
    refine (Confined.emit ?_).andThen fun _ => takeResult_confined _
    -- This is the one instruction that needs the function to be among those that may be called.
    constructor
    · simp [call, written, Register.general]
    · intro cond other hcall
      have hlabel : functionLabel name = functionLabel other := (Instruction.branch.inj hcall).2.2
      exact Program.functionLabel_injective hlabel ▸ hname

end Lower

/-- A right side calls the function that it names, if it is a call. -/
theorem Rhs.lower_confined (table : SymbolTable) (target : Ty) {rhs : Rhs}
    (hcalls : ∀ name args, rhs = .call name args → calls name) :
    (rhs.lower table target).Confined W calls W := by
  cases rhs with
  | call name args => exact callFunction_confined (hcalls name args rfl) table args
  | expr | array | newPair | side =>
    exact .of_fetches fun hrun hW => Rhs.lower_fetches hrun (fun _ _ h => by cases h) hW

/-- The register that a place takes up, if it takes up one, is of the set. -/
def Place.Among (W : Register → Prop) (place : Place) : Prop := ∀ r, place = .computed r → W r

/-- The place of a target is held in a register of the set, or in none. -/
theorem Target.place_confined (target : Target) : target.place.Confined W calls (·.Among W) := by
  intro start out hfree hrun
  cases Target.place_finds hrun (writable_general hfree) with
  | stack => exact ⟨by simp, hfree, by simp [Place.Among]⟩
  | computed hfetch =>
    refine ⟨fun p hp => (hfetch.code p hp).confined, ?_, ?_⟩
    · show ∀ r ∈ _, W r
      rw [hfetch.holds]
      exact fun r hr => hfree r (RegisterPool.mem_free_hold.1 hr).1
    · simpa [Place.Among] using hfree _ hfetch.free

/-! ## §5 Steps of statements -/

theorem Place.release_confined {place : Place} (h : place.Among W) :
    place.release.Confined W calls fun _ => True := by
  cases place with
  | stack offset => exact .pure trivial
  | computed r => exact .release (h r rfl)

/-- A store to a place writes no register. -/
theorem Place.store_confined {width : Width} {value : Register} {place : Place} :
    (Instruction.str width value place.address).Confined W calls := by
  cases place <;> simp [address, Address.held, Address.written]

namespace Lower

theorem placeAddress_confined {place : Place} (h : place.Among W) :
    (placeAddress place).Confined W calls W := by
  cases place with
  | stack offset => exact .intoFresh fun r hr => by simp [Instruction.op, hr]
  | computed r => exact .pure (h r rfl)

theorem printValue_confined (e : Expr) : (printValue e).Confined W calls fun _ => True :=
  .of_quiet printValue_quiet

end Lower

/-- Whether a statement has neither statements in it nor a right side. -/
def Stmt.isSimple : Stmt → Bool
  | .skip _ | .increment .. | .read .. | .free .. | .ret .. | .exit .. | .print .. | .println .. =>
    true
  | _ => false

/-- A simple statement calls no function of the program. -/
theorem Stmt.lower_confined (table : SymbolTable) {s : Stmt} (h : s.isSimple = true) :
    (s.lower table).Confined W calls fun _ => True := by
  cases s with
  | skip => exact .pure trivial
  | increment span name =>
    refine Confined.lookup.andThen fun found => ?_
    refine Confined.acquire.bind fun r hr => ?_
    refine (Confined.emit (by simp [load, Address.written, hr])).andThen fun _ => ?_
    refine (Confined.emit (by simp [opFlags, hr])).andThen fun _ => ?_
    refine Confined.callRoutineIf.andThen fun _ => ?_
    refine (Confined.emit (by simp [store, Address.written])).andThen fun _ => ?_
    exact .release hr
  | read span target =>
    refine Confined.getFrame.andThen fun frame => ?_
    refine Confined.ofExcept.andThen fun ty => ?_
    refine target.place_confined.bind fun place hplace => ?_
    refine (placeAddress_confined hplace).bind fun r hr => ?_
    refine (Confined.emit (by simp [move, Register.general])).andThen fun _ => ?_
    exact (Confined.release hr).andThen fun _ => .callRoutine
  | free span e => exact .of_quiet passTo_quiet
  | ret span e =>
    refine e.lower_confined.bind fun r hr => ?_
    refine Confined.holdReturn.bind ?_
    -- The return register is written too, but it is no general one.
    rintro _ rfl
    refine (Confined.emit (by simp [move, Register.general])).andThen fun _ => ?_
    refine (Confined.release hr).andThen fun _ => ?_
    refine Confined.getFrame.andThen fun frame => ?_
    refine (Confined.emitAll (by simp)).andThen fun _ => ?_
    exact (Confined.emit (by simp [Register.general])).andThen fun _ => .freeReturn
  | exit span e =>
    refine e.lower_confined.bind fun r hr => ?_
    refine Confined.holdReturn.bind ?_
    rintro _ rfl
    refine (Confined.emit (by simp [move, Register.general])).andThen fun _ => ?_
    refine (Confined.emit (confined_library (by decide))).andThen fun _ => ?_
    refine Confined.freeReturn.andThen fun _ => ?_
    refine (Confined.release hr).andThen fun _ => .emit ?_
    simp [loadConst, load, Address.written, Register.general]
  | print span e => exact printValue_confined e
  | println span e => exact (printValue_confined e).andThen fun _ => .callRoutine
  | _ => cases h

end Lowering

/-! ## §6 Steps that write free registers -/

/-- Whatever state it starts in, the step writes no general register but those that are free there,
wherever its code is put. -/
def Lower.WritesFree {α : Type} (step : Lower α) : Prop :=
  ∀ start out, step.run start = .ok out → ∀ (limit : Nat) (listing after : Listing)
    (code : List Instruction), listing.expandAll limit out.code = .ok (code, after) →
    ∀ i ∈ code, ∀ r ∈ i.written, r ∈ Register.general → r ∈ start.pool.free

/-- The free registers are the least set that a step can be confined to. -/
theorem Lower.WritesFree.of_confined {α : Type} {step : Lower α}
    (h : ∀ W, ∃ post, step.Confined W (fun _ => True) post) : step.WritesFree := by
  intro start out hrun limit listing after code hexpand i hi r hwritten hgeneral
  -- The set to which the step is confined is that of the registers that are free at the start.
  obtain ⟨post, hconfined⟩ := h (· ∈ start.pool.free)
  obtain ⟨hcode, _, _⟩ := hconfined start out (fun _ hfree => hfree) hrun
  rw [(Listing.expandAll_plain hexpand).1] at hi
  obtain ⟨p, hp, hi⟩ := List.mem_flatMap.1 hi
  exact (hcode p hp limit after.messageLabel i hi).writes r hwritten hgeneral

/-! ## §7 Routines and functions -/

/-- Routines keep to the registers for arguments, and call no function of the program. -/
theorem Routine.sequence_confined {W : Register → Prop} {calls : String → Prop} (r : Routine)
    (message : String → String) : ∀ i ∈ (r.sequence message).code, i.Confined W calls := by
  -- What a routine calls is a routine or a function of the library.
  have hlibrary : ∀ label ∈ libraryFunctions,
      (Instruction.branch true none label).Confined W calls := fun _ => confined_library
  simp only [libraryFunctions, List.forall_mem_cons] at hlibrary
  cases r <;> simp [sequence, Listing.opening, body, returns, ending, Ending.code, printWith,
    printFormatted, readFormatted, failIf, skipLength, Instruction.op, Instruction.call,
    Instruction.callIf, Instruction.jumpIf, Instruction.move, Instruction.load,
    Instruction.loadLabel, Instruction.loadLabelIf, Address.held, Address.written,
    Register.general, hlibrary]

section Saved

variable {W : Register → Prop} {known : String → Prop} {depth : Int} {code : List Pseudo}

theorem StraightCode.push_notMem {S : Int → Prop} (h : StraightCode W S code) (r : Register) :
    .instr (.push r) ∉ code := by
  intro hmem
  cases h _ hmem

theorem Pushes.push_notMem {S : Nat → Int → Prop} {count : Nat} (h : Pushes W S count code)
    (r : Register) : .instr (.push r) ∉ code := by
  induction h with
  | nil => simp
  | snoc _ harg ih => simp [ih, harg.push_notMem r]

/-- Structured code puts arguments on the stack, but saves no register there. -/
theorem Structured.push_notMem {n n' : Nat} (h : Structured W known depth n n' code)
    (r : Register) : .instr (.push r) ∉ code := by
  induction h with
  | straight hcode => exact hcode.push_notMem r
  | append _ _ iha ihb => simp [iha, ihb]
  | call _ hpushes => simp [hpushes.push_notMem r, Instruction.call]
  | scope _ ih => simp [scopeCode, ih]
  | ret => simp
  | ifThen hcond _ ih => simp [ifThenCode, hcond.push_notMem r, ih, jumpIf]
  | ifElse hcond _ _ ihThen ihElse =>
    simp [ifElseCode, hcond.push_notMem r, ihThen, ihElse, jumpIf, jump]
  | loop _ hcond ih => simp [loopCode, hcond.push_notMem r, ih, jumpIf, jump]
  | untilLoop _ hcond ih => simp [untilCode, hcond.push_notMem r, ih, jumpIf]

/-- What is pushed in plain code was pushed in the code it stands for. -/
theorem Pseudo.push_mem_of_plain {p : Pseudo} {limit : Nat} {message : String → String}
    {r : Register} (h : .push r ∈ p.plain limit message) : p = .instr (.push r) := by
  cases p <;> simp_all [plain, adjustStack, Instruction.op, loadLabel, load]

end Saved

/-- Of the registers, a sequence saves the link register at its start and no other one. -/
def Sequence.SavesLinkOnly (sequence : Sequence) : Prop :=
  ∃ code, sequence.code = .label sequence.name :: .push .lr :: code ∧ ∀ r, .push r ∉ code

theorem Piece.savesLinkOnly {W : Register → Prop} {known : String → Prop} {label : String}
    {first next limit : Nat} {message : String → String} {code : List Pseudo}
    (h : (Piece.body label first next code).Sound W known) :
    ((Piece.body label first next code).sequence limit message).SavesLinkOnly := by
  refine ⟨code.flatMap (·.plain limit message) ++ Ending.userRet.code, rfl, ?_⟩
  intro r hpush
  rcases List.mem_append.1 hpush with hpush | hpush
  · obtain ⟨p, hp, hpush⟩ := List.mem_flatMap.1 hpush
    obtain rfl := Pseudo.push_mem_of_plain hpush
    exact h.1.push_notMem r hp
  · simp [Ending.code] at hpush

/-- In a program the routines leave the general registers alone. Its other sequences, the functions
and the main body, save none of them. -/
theorem Program.general_unsaved {table : SymbolTable} {config : Config} {p : Program}
    {listing : Listing} (h : p.assemble table config = .ok listing) :
    ∀ s ∈ listing.sequences,
      (∀ r : Routine, s.name = r.label → ∀ i ∈ s.code, ∀ x ∈ i.written, x ∉ Register.general) ∧
      ((∀ r : Routine, s.name ≠ r.label) → s.SavesLinkOnly) := by
  obtain ⟨_, assembly, pieces, rfl, hbuilt, _⟩ := assemble_built h (.any _)
  intro s hs
  rw [hbuilt.sequences] at hs
  obtain ⟨piece, hpiece, rfl⟩ := List.mem_map.1 hs
  have hsound := hbuilt.sound piece hpiece
  cases piece with
  | body label first next code =>
    refine ⟨?_, fun _ => Piece.savesLinkOnly hsound⟩
    intro r hname
    exact absurd hname.symm (hsound.2 r)
  | support q =>
    refine ⟨?_, fun hname => absurd rfl (hname q)⟩
    intro r _ i hi x hx hgeneral
    have hconfined : i.Confined (fun _ => False) fun _ => True := q.sequence_confined _ i hi
    exact hconfined.writes x hx hgeneral

end ArmCompiler
