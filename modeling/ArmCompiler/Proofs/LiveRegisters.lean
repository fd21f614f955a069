import ArmCompiler.Proofs.Observers

/-!
# Registers in Use at Calls

A function saves none of the registers that hold values, so no value may stay in one of them while a
function is called. Which registers are in use at a call is not seen in the code. Lowering is
therefore *traced*: an observer marks the calls of functions with the resources there are when they
are emitted. Taking the marks off gives the lowering back. Main statement:
`general_registers_survive`.

## Contents
- §1: marked code
- §2: traced steps
- §3: clear calls
- §4: traced statements
- §5: what keeps values in registers
-/

namespace ArmCompiler

open Instruction Lower

/-! ## §1 Marked code -/

/-- A piece of code, with the resources there were when it was emitted, if they were noted. -/
structure Marked where
  mark : Option Resources := none
  code : Pseudo

/-- What a traced step leaves behind. -/
structure Trace (α : Type) where
  value : α
  resources : Resources
  code : List Marked := []

/-- What the step leaves behind without the marks. -/
def Trace.unmarked {α : Type} (out : Trace α) : Lowered α :=
  { value := out.value, resources := out.resources, code := out.code.map (·.code) }

/-! ## §2 Traced steps -/

/-- A step that emits marked code. -/
def Traced (α : Type) : Type := Resources → Except CompileError (Trace α)

namespace Traced

variable {α β : Type}

/-- Runs a traced step. -/
def run (step : Traced α) (resources : Resources) : Except CompileError (Trace α) :=
  step resources

instance : Monad Traced where
  pure a := fun resources => .ok { value := a, resources }
  bind step next := fun resources => do
    let first ← step.run resources
    let second ← (next first.value).run first.resources
    return { second with code := first.code ++ second.code }

/-- A step that marks nothing. -/
instance : MonadLift Lower Traced where
  monadLift step := fun resources => do
    let out ← step.run resources
    return {
      value := out.value
      resources := out.resources
      code := out.code.map fun code => { code } }

/-- Emits an instruction that is marked with the resources there are. -/
def emitMarked (i : Instruction) : Traced Unit := fun resources =>
  .ok { value := (), resources, code := [{ mark := some resources, code := .instr i }] }

/-- The step without the marks. -/
def erase (step : Traced α) : Lower α := fun resources => do
  let out ← step.run resources
  return out.unmarked

theorem run_bind_eq_ok {step : Traced α} {next : α → Traced β} {start : Resources}
    {out : Trace β} :
    (step >>= next).run start = .ok out ↔
      ∃ first second, step.run start = .ok first ∧
        (next first.value).run first.resources = .ok second ∧
        out = { second with code := first.code ++ second.code } := by
  show (step.run start >>= fun first => (next first.value).run first.resources >>= fun second =>
    pure { second with code := first.code ++ second.code }) = .ok out ↔ _
  simp only [bind_eq_ok, pure, Except.pure, Except.ok.injEq, eq_comm (b := out)]
  constructor
  · rintro ⟨first, hfirst, second, hsecond, rfl⟩
    exact ⟨first, second, hfirst, hsecond, rfl⟩
  · rintro ⟨first, second, hfirst, hsecond, rfl⟩
    exact ⟨first, hfirst, second, hsecond, rfl⟩

theorem run_liftM_eq_ok {step : Lower α} {start : Resources} {out : Trace α} :
    (liftM step : Traced α).run start = .ok out ↔
      ∃ plain, step.run start = .ok plain ∧ out = {
        value := plain.value
        resources := plain.resources
        code := plain.code.map fun code => { code } } := by
  show (step.run start >>= fun plain => pure _) = .ok out ↔ _
  simp only [bind_eq_ok, pure, Except.pure, Except.ok.injEq, eq_comm (b := out)]

theorem run_erase_eq_ok {step : Traced α} {start : Resources} {out : Lowered α} :
    step.erase.run start = .ok out ↔
      ∃ trace, step.run start = .ok trace ∧ out = trace.unmarked := by
  show (step.run start >>= fun trace => pure _) = .ok out ↔ _
  simp only [bind_eq_ok, pure, Except.pure, Except.ok.injEq, eq_comm (b := out)]

@[simp] theorem erase_bind (step : Traced α) (next : α → Traced β) :
    (step >>= next).erase = step.erase >>= fun a => (next a).erase := by
  apply Lower.ext
  intro start
  rw [Lower.run_bind]
  show (step.run start >>= _) >>= _ = _
  simp only [Lower.run, erase]
  cases step.run start with
  | error e => rfl
  | ok first =>
    simp only [bind, Except.bind, pure, Except.pure, Trace.unmarked]
    cases h : (next first.value).run first.resources <;> simp

@[simp] theorem erase_liftM (step : Lower α) : (liftM step : Traced α).erase = step := by
  apply Lower.ext
  intro start
  show (step.run start >>= _) >>= _ = _
  cases step.run start with
  | error e => rfl
  | ok out => simp [bind, Except.bind, pure, Except.pure, Trace.unmarked, Function.comp_def]

@[simp] theorem erase_emitMarked (i : Instruction) : (emitMarked i).erase = emit i := rfl

/-- Calls a user function. The call is marked. -/
def callFunction (table : SymbolTable) (name : String) (args : List Expr) : Traced Register :=
  match table.function? name with
  | none => (fail (.internal (.unknownFunction name)) : Lower Register)
  | some signature => do
    pushArgs signature.params args
    emitMarked (call (functionLabel name))
    takeResult (slotBytes * args.length)

@[simp] theorem erase_callFunction (table : SymbolTable) (name : String) (args : List Expr) :
    (callFunction table name args).erase = Lower.callFunction table name args := by
  cases h : table.function? name with
  | none => simp [callFunction, Lower.callFunction, h]
  | some signature => simp [callFunction, callFunction_eq h, h]

end Traced

/-- Brings the value of a right side into a free register. -/
def Rhs.traced (table : SymbolTable) (target : Ty) : Rhs → Traced Register
  | .call name args => Traced.callFunction table name args
  | rhs => rhs.lower table target

@[simp] theorem Rhs.erase_traced (table : SymbolTable) (target : Ty) (rhs : Rhs) :
    (rhs.traced table target).erase = rhs.lower table target := by
  cases rhs <;> simp [traced, lower]

/-! ## §3 Clear calls -/

/-- Every register of the pool is free. -/
def RegisterPool.Clear (pool : RegisterPool) : Prop := ∀ r ∈ pool.registers, r ∈ pool.free

instance : DecidablePred RegisterPool.Clear :=
  fun pool => inferInstanceAs (Decidable (∀ r ∈ pool.registers, r ∈ pool.free))

theorem RegisterPool.Kept.clear {pool after : RegisterPool} (h : pool.Kept after)
    (hclear : pool.Clear) : after.Clear := by
  simpa only [Clear, free, registers, h.held, h.capacity] using hclear

/-- If the code calls a function of the program, it is marked, and no register of the pool was in
use when it was emitted. -/
def Marked.CallsClear (m : Marked) : Prop :=
  ∀ limit message cond name,
    .branch true cond (functionLabel name) ∈ m.code.plain limit message →
      ∃ resources, m.mark = some resources ∧ resources.pool.Clear

namespace Traced

variable {α β : Type}

/-- From where a condition holds, the step calls functions only where the registers are free. -/
def CallsClearFrom (P : Resources → Prop) (step : Traced α) : Prop :=
  ∀ start out, P start → step.run start = .ok out → ∀ m ∈ out.code, m.CallsClear

/-- From where the registers are free, the step calls functions only where they are free again. -/
abbrev CallsClear (step : Traced α) : Prop := step.CallsClearFrom (·.pool.Clear)

/-- Code without calls needs no marks, whatever is in use. -/
theorem callsClear_lift {step : Lower α} (h : step.CallsNone) :
    CallsClearFrom (fun _ => True) (liftM step) := by
  intro start out _ hrun
  obtain ⟨plain, hplain, rfl⟩ := run_liftM_eq_ok.1 hrun
  obtain ⟨hcode, _, _⟩ := h start plain (fun _ _ => trivial) hplain
  simp only [List.forall_mem_map]
  intro p hp limit message cond name hcall
  exact ((hcode p hp limit message _ hcall).calls cond name rfl).elim

/-- The second step has to be good where the first step leads. -/
theorem CallsClearFrom.bind {P Q : Resources → Prop} {step : Traced α} {next : α → Traced β}
    (h : step.CallsClearFrom P)
    (hkeeps : ∀ start, P start → step.erase.Ends start fun _ after => Q after)
    (hnext : ∀ a, (next a).CallsClearFrom Q) : (step >>= next).CallsClearFrom P := by
  intro start out hstart hrun
  obtain ⟨first, second, hfirst, hsecond, rfl⟩ := run_bind_eq_ok.1 hrun
  have hmid : Q first.resources :=
    hkeeps start hstart first.unmarked (run_erase_eq_ok.2 ⟨first, hfirst, rfl⟩)
  exact List.forall_mem_append.2
    ⟨h start first hstart hfirst, hnext _ _ second hmid hsecond⟩

/-- What is good everywhere may follow in any case. -/
theorem CallsClearFrom.bind_always {P : Resources → Prop} {step : Traced α}
    {next : α → Traced β} (h : step.CallsClearFrom P)
    (hnext : ∀ a, (next a).CallsClearFrom fun _ => True) : (step >>= next).CallsClearFrom P :=
  h.bind (fun _ _ _ _ => trivial) hnext

/-- Arguments are computed, pushed and given up one by one before the call. -/
theorem callFunction_callsClear (table : SymbolTable) (name : String) (args : List Expr) :
    (callFunction table name args).CallsClear := by
  unfold callFunction
  split
  · exact fun start out _ => callsClear_lift .fail start out trivial
  · rename_i signature _
    have hpush : CallsClear (liftM (pushArgs signature.params args)) :=
      fun start out _ => callsClear_lift (pushArgs_confined _ args) start out trivial
    refine hpush.bind (Q := (·.pool.Clear)) ?_ fun _ => ?_
    · intro start hclear
      rw [erase_liftM]
      refine (pushArgs_ends _ args).imp ?_
      rintro _ _ rfl
      exact hclear
    -- The result takes a register, but only after the call.
    refine CallsClearFrom.bind_always ?_ fun _ => callsClear_lift (takeResult_confined _)
    intro start out hclear hrun
    cases hrun
    simp only [List.forall_mem_singleton]
    exact fun _ _ _ _ _ => ⟨start, rfl, hclear⟩

end Traced

theorem Rhs.traced_callsClear (table : SymbolTable) (target : Ty) (rhs : Rhs) :
    (rhs.traced table target).CallsClear := by
  cases rhs with
  | call name args => exact Traced.callFunction_callsClear table name args
  | expr | array | newPair | side =>
    exact fun start out _ =>
      Traced.callsClear_lift (Rhs.lower_confined table target (by simp)) start out trivial

/-! ## §4 Traced statements -/

namespace Traced

/-- The observer that marks the calls of functions. -/
def observer (table : SymbolTable) : Observer table Traced where
  step plain := liftM plain
  rhs target rhs := rhs.traced table target

/-- Marks make no difference. Between statements the registers are free, so the calls are clear. -/
def simulation (table : SymbolTable) : (observer table).Simulation where
  Always x plain := x.erase = plain ∧ x.CallsClearFrom fun _ => True
  Rested x plain := x.erase = plain ∧ x.CallsClear
  step h := ⟨erase_liftM _, callsClear_lift h⟩
  part p := ⟨erase_liftM _, callsClear_lift p.lower_callsNone⟩
  simple h := ⟨erase_liftM _, callsClear_lift (Stmt.lower_confined table h)⟩
  under_always _ h := h
  bind h hnext := by
    refine ⟨?_, h.2.bind_always fun a => (hnext a).2⟩
    rw [erase_bind, h.1, funext fun a => (hnext a).1]
  rested h := ⟨h.1, fun start out _ => h.2 start out trivial⟩
  rhs target rhs := ⟨rhs.erase_traced table target, rhs.traced_callsClear table target⟩
  statement _ h := h
  under _ h := h
  bind_always h hnext := by
    refine ⟨?_, h.2.bind_always fun a => (hnext a).2⟩
    rw [erase_bind, h.1, funext fun a => (hnext a).1]
  bind_rested h hkeeps hnext := by
    refine ⟨?_, h.2.bind (fun start hclear => ?_) fun a => (hnext a).2⟩
    · rw [erase_bind, h.1, funext fun a => (hnext a).1]
    · rw [h.1]
      exact (hkeeps start).imp fun _ _ hkept => hkept.clear hclear

end Traced

namespace Stmt

/-- The code of a statement, with the calls of functions marked. -/
def traced (table : SymbolTable) (s : Stmt) : Traced Unit := s.observe (Traced.observer table)

/-- Without the marks a traced statement is the statement. -/
theorem erase_traced (table : SymbolTable) (s : Stmt) : (s.traced table).erase = s.lower table :=
  ((Traced.simulation table).stmt s).1

/-- The registers that are free when a statement begins are free wherever it calls a function. -/
theorem traced_callsClear (table : SymbolTable) (s : Stmt) : (s.traced table).CallsClear :=
  ((Traced.simulation table).stmt s).2

end Stmt

/-! ## §5 What keeps values in registers -/

open Program (sumProgram)

/-- No value is lost in a register. What an expression, a right side or a target writes of the
general registers was free when its lowering began. No routine writes any of them. A function saves
none of them, but the statements that call it leave nothing there: when a statement begins with all
registers free, they are free again wherever its code calls a function. -/
theorem general_registers_survive (table : SymbolTable) :
    (∀ e : Expr, e.lower.WritesFree) ∧
      (∀ (target : Ty) (rhs : Rhs), (rhs.lower table target).WritesFree) ∧
      (∀ target : Target, target.place.WritesFree) ∧
      (∀ (p : Program) (config : Config) (listing : Listing),
        p.assemble table config = .ok listing → ∀ s ∈ listing.sequences,
          (∀ r : Routine, s.name = r.label →
            ∀ i ∈ s.code, ∀ x ∈ i.written, x ∉ Register.general) ∧
          ((∀ r : Routine, s.name ≠ r.label) → s.SavesLinkOnly)) ∧
      ∀ (s : Stmt) (start : Resources) (out : Lowered Unit), start.pool.Clear →
        (s.lower table).run start = .ok out →
        ∃ trace, (s.traced table).run start = .ok trace ∧ out = trace.unmarked ∧
          ∀ m ∈ trace.code, m.CallsClear := by
  refine ⟨?_, ?_, ?_, ?_, ?_⟩
  · exact fun e => .of_confined fun W => ⟨W, e.lower_confined⟩
  · exact fun target rhs => .of_confined fun W =>
      ⟨W, rhs.lower_confined table target fun _ _ _ => trivial⟩
  · exact fun target => .of_confined fun W => ⟨(·.Among W), target.place_confined⟩
  · exact fun p config listing hassemble => Program.general_unsaved hassemble
  · intro s start out hclear hrun
    rw [← s.erase_traced table] at hrun
    obtain ⟨trace, htrace, hout⟩ := Traced.run_erase_eq_ok.1 hrun
    exact ⟨trace, htrace, hout, s.traced_callsClear table start trace hclear htrace⟩

/-- In a program with a loop, a pair and a call, the call is marked, and nothing was in use. -/
theorem general_registers_survive_sumProgram :
    (∃ listing, sumProgram.assemble sumProgram.check.value {} = .ok listing ∧
      ∀ s ∈ listing.sequences, (∀ r : Routine, s.name = r.label →
          ∀ i ∈ s.code, ∀ x ∈ i.written, x ∉ Register.general) ∧
        ((∀ r : Routine, s.name ≠ r.label) → s.SavesLinkOnly)) ∧
    ∃ trace resources,
      ((Stmt.block {} sumProgram.body).traced sumProgram.check.value).run
        { pool := .ofCount 8 } = .ok trace ∧
      { mark := some resources, code := .instr (call (functionLabel "sum")) } ∈ trace.code ∧
      resources.pool.Clear := by
  obtain ⟨_, _, _, hsequences, hcalls⟩ := general_registers_survive sumProgram.check.value
  constructor
  · have hassemble : (sumProgram.assemble sumProgram.check.value {}).isOk := by decide +kernel
    cases hlisting : sumProgram.assemble sumProgram.check.value {} with
    | error e => simp [hlisting, Except.isOk, Except.toBool] at hassemble
    | ok listing => exact ⟨listing, rfl, hsequences _ _ _ hlisting⟩
  · have hcode : ((((Stmt.block {} sumProgram.body).lower sumProgram.check.value).run
        { pool := .ofCount 8 }).map fun out =>
          decide (.instr (call (functionLabel "sum")) ∈ out.code)) = .ok true := by
      decide +kernel
    cases hrun : ((Stmt.block {} sumProgram.body).lower sumProgram.check.value).run
        { pool := .ofCount 8 } with
    | error e => simp [hrun, Except.map] at hcode
    | ok out =>
      obtain ⟨trace, htrace, rfl, hclear⟩ := hcalls _ _ out (by decide) hrun
      have hmem : .instr (call (functionLabel "sum")) ∈ trace.unmarked.code := by
        simpa [hrun, Except.map] using hcode
      obtain ⟨⟨mark, code⟩, hm, rfl⟩ := List.mem_map.1 hmem
      obtain ⟨resources, rfl, hpool⟩ :=
        hclear _ hm 1024 id none "sum" (by simp [Pseudo.plain, call])
      exact ⟨trace, resources, htrace, hm, hpool⟩

end ArmCompiler
