import ArmCompiler.Proofs.Heap.Arena

/-!
# Executing the Code of Steps

A calculus for what the code of a lowering step does when it is executed. `step.Executes x start m
post fails` says that the code which the step emits, run from `start`, and executed in the machine
`m`, finishes with a value, resources and a machine that satisfy `post`, or ends with an error where
`fails` holds. Both conditions also see the memory accesses that the code made on its way, so that
it can be told which addresses were loaded from and stored to. Each basic step has a rule, and steps
are followed one by one through the rule for sequences.

## Contents
- §1: memory accesses
- §2: settings
- §3: steps and their executions
- §4: rules for basic steps
-/

namespace ArmCompiler

open Instruction Lower

/-! ## §1 Memory accesses -/

/-- A load from memory or a store to it. -/
structure Access where
  stores : Bool
  address : Word
  width : Width
  deriving DecidableEq, Repr

/-- The memory address that an operand leads to, unless it is a constant. -/
def Address.target? (m : Machine) : Address → Option Word
  | .offset base displacement | .preIndexed base displacement =>
    some (m.regs base + BitVec.ofInt 32 displacement)
  | .constant _ | .label _ => none

/-- The access that an instruction makes in a machine. -/
def Instruction.access? (m : Machine) : Instruction → Option Access
  | .push _ => some ⟨true, m.regs .sp - 4, .word⟩
  | .pop _ => some ⟨false, m.regs .sp, .word⟩
  | .ldr cond width _ src =>
    if cond.all (·.holds m.flags) then (src.target? m).map (⟨false, ·, width⟩) else none
  | .str width _ dst => (dst.target? m).map (⟨true, ·, width⟩)
  | .label _ | .directive _ | .mov .. | .cmp .. | .branch .. | .arith .. | .smull .. => none

/-- The accesses that instructions make when they are executed one after the other. What happens
inside of calls is not counted. -/
def Environment.accesses (env : Environment) : List Instruction → Machine → List Access
  | [], _ => []
  | i :: rest, m => (i.access? m).toList ++
    match i.exec m with
    | .next m' => env.accesses rest m'
    | .call target m' =>
      match env target m' with
      | some m'' => env.accesses rest m''
      | none => []
    | .jump .. | .ret _ | .stuck => []

/-- Instructions make accesses as long as those before them finish. -/
theorem Environment.accesses_append (env : Environment) (a b : List Instruction) (m : Machine) :
    env.accesses (a ++ b) m = env.accesses a m ++
      match env.run a m with
      | .finished m' => env.accesses b m'
      | .failed _ | .stuck => [] := by
  induction a generalizing m with
  | nil => rfl
  | cons i rest ih =>
    rw [List.cons_append, accesses, accesses, run]
    cases i.exec m with
    | next m' => simp only [ih m', List.append_assoc]
    | call target m' =>
      cases henv : env target m' with
      | some m'' => simp only [henv, ih m'', List.append_assoc]
      | none => simp [henv]
    | jump target m' => simp
    | ret m' => simp
    | stuck => simp

theorem Environment.run_append_of_finished {env : Environment} {a : List Instruction}
    {m m' : Machine} (h : env.run a m = .finished m') (b : List Instruction) :
    env.run (a ++ b) m = env.run b m' := by
  rw [run_append, h]

/-- Only a branch makes a call, and it changes nothing. -/
theorem Instruction.exec_eq_call {i : Instruction} {m m' : Machine} {target : String}
    (h : i.exec m = .call target m') : i.target? = some target ∧ m' = m := by
  cases i with
  | branch link cond name =>
    simp only [exec, Machine.guard] at h
    split at h
    · split at h
      · cases h
        exact ⟨rfl, rfl⟩
      · cases h
    · cases h
  | label | directive | mov | push | pop | ldr | str | cmp | arith | smull =>
    simp only [exec, Machine.guard, Machine.write] at h
    repeat' split at h
    all_goals cases h

theorem exec_store (m : Machine) (width : Width) (src base : Register) (offset : Int) :
    (Instruction.str width src (.offset base offset)).exec m =
      .next (m.store (m.regs base + BitVec.ofInt 32 offset) (m.regs src) width) := rfl

theorem exec_store_held (m : Machine) (width : Width) (src base : Register) :
    (Instruction.str width src (.held base)).exec m =
      .next (m.store (m.regs base) (m.regs src) width) := by
  have hzero : m.regs base + BitVec.ofInt 32 0 = m.regs base := BitVec.add_zero _
  rw [Address.held, exec_store, hzero]

/-- Whether a run has finished. -/
def RunEnd.isFinished : RunEnd → Bool
  | .finished _ => true
  | .failed _ | .stuck => false

/-- Environments that agree on what is called run code alike. -/
theorem Environment.run_congr {env env' : Environment} {code : List Instruction}
    (h : ∀ i ∈ code, ∀ target, i.target? = some target → env target = env' target) (m : Machine) :
    env.run code m = env'.run code m := by
  induction code generalizing m with
  | nil => rfl
  | cons i rest ih =>
    have ih := ih fun j hj => h j (List.mem_cons_of_mem i hj)
    rw [run, run]
    cases hexec : i.exec m with
    | next m' => exact ih m'
    | call target m' =>
      simp only [h i List.mem_cons_self target (exec_eq_call hexec).1]
      cases env' target m' with
      | some m'' => exact ih m''
      | none => rfl
    | jump target m' => rfl
    | ret m' => rfl
    | stuck => rfl

/-- Instructions that access no memory. -/
theorem Environment.accesses_of_none (env : Environment) {code : List Instruction}
    (h : ∀ i ∈ code, ∀ m, i.access? m = none) (m : Machine) : env.accesses code m = [] := by
  induction code generalizing m with
  | nil => rfl
  | cons i rest ih =>
    have ih := ih fun j hj => h j (List.mem_cons_of_mem i hj)
    rw [accesses, h i List.mem_cons_self]
    cases i.exec m with
    | next m' => exact ih m'
    | call target m' =>
      cases henv : env target m' with
      | some m'' => simp [henv, ih m'']
      | none => simp [henv]
    | jump target m' => rfl
    | ret m' => rfl
    | stuck => rfl

/-- No instruction moves a label. -/
theorem Instruction.symbols_of_exec {i : Instruction} {m m' : Machine}
    (h : i.exec m = .next m') : m'.symbols = m.symbols := by
  cases i <;> simp only [exec, Machine.guard, Machine.write] at h <;> (repeat' split at h) <;>
    cases h <;> simp [Machine.set]

theorem Environment.symbols_of_run (env : Environment)
    (henv : ∀ {target m m'}, env target m = some m' → m'.symbols = m.symbols)
    {code : List Instruction} {m m' : Machine} (h : env.run code m = .finished m') :
    m'.symbols = m.symbols := by
  -- Neither an instruction nor a call moves a label.
  induction code generalizing m with
  | nil =>
    cases h
    rfl
  | cons i rest ih =>
    rw [run] at h
    cases hexec : i.exec m with
    | next mid =>
      rw [hexec] at h
      exact (ih h).trans (symbols_of_exec hexec)
    | call target mid =>
      rw [hexec] at h
      cases hcall : env target mid with
      | some back =>
        simp only [hcall] at h
        obtain ⟨_, rfl⟩ := exec_eq_call hexec
        exact (ih h).trans (henv hcall)
      | none => simp [hcall] at h
    | jump target mid => simp [hexec] at h
    | ret mid => simp [hexec] at h
    | stuck => simp [hexec] at h

theorem plainEnvironment_symbols {target : String} {m m' : Machine}
    (h : plainEnvironment target m = some m') : m'.symbols = m.symbols := by
  unfold plainEnvironment at h
  repeat' split at h
  all_goals cases h <;> rfl

/-- A general register is none of the others. -/
theorem Register.ne_of_general {r s : Register} (hr : r ∈ Register.general)
    (hs : s ∉ Register.general) : r ≠ s := by
  rintro rfl
  exact hs hr

/-- A register that is taken is not free. -/
theorem Resources.not_mem_free_hold (start : Resources) (r : Register) :
    r ∉ (start.hold r).pool.free := fun hfree =>
  (RegisterPool.mem_free_hold.1 hfree).2 rfl

/-! ## §2 Settings -/

/-- Where code is executed: what calls do, how far one instruction may move the stack pointer, and
the label of each text. -/
structure Setting where
  env : Environment
  limit : Nat
  message : String → String

namespace Setting

/-- The plain instructions of code. -/
def plain (x : Setting) (code : List Pseudo) : List Instruction :=
  code.flatMap (·.plain x.limit x.message)

/-- Executes code. -/
def run (x : Setting) (code : List Pseudo) (m : Machine) : RunEnd := x.env.run (x.plain code) m

/-- The accesses that code makes. -/
def accesses (x : Setting) (code : List Pseudo) (m : Machine) : List Access :=
  x.env.accesses (x.plain code) m

variable (x : Setting) (a b : List Pseudo) (m : Machine)

@[simp] theorem plain_append : x.plain (a ++ b) = x.plain a ++ x.plain b :=
  List.flatMap_append

theorem run_append :
    x.run (a ++ b) m =
      match x.run a m with
      | .finished m' => x.run b m'
      | .failed m' => .failed m'
      | .stuck => .stuck := by
  rw [run, plain_append, Environment.run_append]
  rfl

theorem accesses_append :
    x.accesses (a ++ b) m = x.accesses a m ++
      match x.run a m with
      | .finished m' => x.accesses b m'
      | .failed _ | .stuck => [] := by
  rw [accesses, plain_append, Environment.accesses_append]
  rfl

end Setting

/-! ## §3 Steps and their executions -/

namespace Lower

variable {α β : Type} {x : Setting} {start : Resources} {m : Machine}

/-- Whenever the step succeeds, its code finishes where `post` holds, or ends with an error where
`fails` holds. -/
def Executes (x : Setting) (step : Lower α) (start : Resources) (m : Machine)
    (post : α → Resources → Machine → List Access → Prop)
    (fails : Machine → List Access → Prop) : Prop :=
  ∀ out, step.run start = .ok out →
    match x.run out.code m with
    | .finished m' => post out.value out.resources m' (x.accesses out.code m)
    | .failed m' => fails m' (x.accesses out.code m)
    | .stuck => False

variable {step : Lower α} {next : α → Lower β}
  {post post' : α → Resources → Machine → List Access → Prop}
  {fails fails' : Machine → List Access → Prop}

theorem Executes.imp (h : step.Executes x start m post fails)
    (hpost : ∀ a after m' accesses, post a after m' accesses → post' a after m' accesses)
    (hfails : ∀ m' accesses, fails m' accesses → fails' m' accesses) :
    step.Executes x start m post' fails' := by
  intro out hrun
  have hout := h out hrun
  revert hout
  cases x.run out.code m with
  | finished m' => exact hpost _ _ _ _
  | failed m' => exact hfails _ _
  | stuck => exact id

/-- What is known of the resources can be used along with what is known of the machine. -/
theorem Executes.and_ends {ends : α → Resources → Prop} (h : step.Executes x start m post fails)
    (hends : step.Ends start ends) :
    step.Executes x start m (fun a after m' accesses => ends a after ∧ post a after m' accesses)
      fails := by
  intro out hrun
  have hout := h out hrun
  revert hout
  cases x.run out.code m with
  | finished m' => exact fun hpost => ⟨hends out hrun, hpost⟩
  | failed m' => exact id
  | stuck => exact id

/-- The accesses are those of the code that the step emits. -/
theorem Executes.and_accesses (h : step.Executes x start m post fails) :
    step.Executes x start m (fun a after m' accesses => post a after m' accesses ∧
      ∀ out, step.run start = .ok out → accesses = x.accesses out.code m) fails := by
  intro out hrun
  have hout := h out hrun
  have hown : ∀ out', step.run start = .ok out' →
      x.accesses out.code m = x.accesses out'.code m := by
    intro out' hrun'
    cases hrun.symm.trans hrun'
    rfl
  revert hout
  cases x.run out.code m with
  | finished m' => exact fun hpost => ⟨hpost, hown⟩
  | failed m' => exact id
  | stuck => exact id

/-- The second of two steps goes on where the first has finished. -/
theorem Executes.bind {post : β → Resources → Machine → List Access → Prop}
    (h : step.Executes x start m
      (fun a mid m' accesses => (next a).Executes x mid m'
        (fun b after m'' more => post b after m'' (accesses ++ more))
        (fun m'' more => fails m'' (accesses ++ more)))
      fails) :
    (step >>= next).Executes x start m post fails := by
  intro out hrun
  obtain ⟨first, second, hfirst, hsecond, rfl⟩ := run_bind_eq_ok.1 hrun
  have hout := h first hfirst
  dsimp only
  -- The code of the second step is reached only if that of the first one finishes.
  rw [Setting.run_append, Setting.accesses_append]
  revert hout
  cases x.run first.code m with
  | finished m' =>
    intro hout
    exact hout second hsecond
  | failed m' => simp
  | stuck => exact id

/-- Whenever the step succeeds, the accesses that its code makes begin with some of which `first`
holds. The code need not finish. -/
def Begins (x : Setting) (step : Lower α) (start : Resources) (m : Machine)
    (first : List Access → Prop) : Prop :=
  ∀ out, step.run start = .ok out → ∃ accesses, accesses <+: x.accesses out.code m ∧ first accesses

theorem Begins.imp {first first' : List Access → Prop} (h : step.Begins x start m first)
    (himp : ∀ accesses, first accesses → first' accesses) : step.Begins x start m first' := by
  intro out hrun
  obtain ⟨accesses, hstart, hfirst⟩ := h out hrun
  exact ⟨accesses, hstart, himp accesses hfirst⟩

/-- What comes later does not change how the accesses begin. -/
theorem Begins.bind {first : List Access → Prop} (h : step.Begins x start m first) :
    (step >>= next).Begins x start m first := by
  intro out hrun
  obtain ⟨out₁, out₂, hstep, _, rfl⟩ := run_bind_eq_ok.1 hrun
  obtain ⟨accesses, hstart, hfirst⟩ := h out₁ hstep
  dsimp only
  rw [Setting.accesses_append]
  exact ⟨accesses, hstart.trans (List.prefix_append _ _), hfirst⟩

/-- What a step emits, as it stands in a listing. The listing tells where each text is stored. -/
structure Emission (step : Lower α) where
  start : Resources
  out : Lowered α
  limit : Nat
  before : Listing
  after : Listing
  code : List Instruction
  lowered : step.run start = .ok out
  expanded : before.expandAll limit out.code = .ok (code, after)

/-- Lowers a step and expands what it emits. -/
def emit? (step : Lower α) (start : Resources) (limit : Nat) (before : Listing) :
    Option step.Emission :=
  match hrun : step.run start with
  | .error _ => none
  | .ok out =>
    match hexpand : before.expandAll limit out.code with
    | .error _ => none
    | .ok (code, after) => some ⟨start, out, limit, before, after, code, hrun, hexpand⟩

/-- The setting in which code of a listing is executed. -/
def Emission.setting (c : step.Emission) (env : Environment) : Setting :=
  ⟨env, c.limit, c.after.messageLabel⟩

theorem Emission.code_eq (c : step.Emission) (env : Environment) :
    c.code = (c.setting env).plain c.out.code :=
  (Listing.expandAll_plain c.expanded).1

theorem Executes.emitted {env : Environment} (c : step.Emission)
    (h : step.Executes (c.setting env) c.start m post fails) :
    match env.run c.code m with
    | .finished m' => post c.out.value c.out.resources m' (env.accesses c.code m)
    | .failed m' => fails m' (env.accesses c.code m)
    | .stuck => False := by
  rw [c.code_eq env]
  exact h c.out c.lowered

/-- Code that cannot end with an error finishes. -/
theorem Executes.finishes {env : Environment} (c : step.Emission)
    (h : step.Executes (c.setting env) c.start m post fun _ _ => False) :
    ∃ m', env.run c.code m = .finished m' ∧
      post c.out.value c.out.resources m' (env.accesses c.code m) := by
  have hend := h.emitted
  cases hrun : env.run c.code m with
  | finished m' => exact ⟨m', rfl, by simpa [hrun] using hend⟩
  | failed m' => simp [hrun] at hend
  | stuck => simp [hrun] at hend

/-- Code that cannot finish ends with an error. -/
theorem Executes.ends {env : Environment} (c : step.Emission)
    (h : step.Executes (c.setting env) c.start m (fun _ _ _ _ => False) fails) :
    ∃ m', env.run c.code m = .failed m' ∧ fails m' (env.accesses c.code m) := by
  have hend := h.emitted
  cases hrun : env.run c.code m with
  | finished m' => simp [hrun] at hend
  | failed m' => exact ⟨m', rfl, by simpa [hrun] using hend⟩
  | stuck => simp [hrun] at hend

/-! ## §4 Rules for basic steps -/

/-- A step without code leaves the machine as it is. -/
theorem executes_of_run {out : Lowered α} (hrun : step.run start = .ok out) (hcode : out.code = [])
    (hpost : post out.value out.resources m []) : step.Executes x start m post fails := by
  intro out' hrun'
  cases hrun.symm.trans hrun'
  simpa [hcode, Setting.run, Setting.accesses, Setting.plain, Environment.run,
    Environment.accesses] using hpost

/-- A step whose code is known to finish. -/
theorem executes_of_finished {out : Lowered α} {m' : Machine} (hrun : step.run start = .ok out)
    (hfinished : x.run out.code m = .finished m')
    (hpost : post out.value out.resources m' (x.accesses out.code m)) :
    step.Executes x start m post fails := by
  intro out' hrun'
  cases hrun.symm.trans hrun'
  simpa [hfinished] using hpost

theorem executes_pure {a : α} (hpost : post a start m []) :
    (pure a : Lower α).Executes x start m post fails :=
  executes_of_run (run_pure a start) rfl hpost

section Basic

variable {post : Unit → Resources → Machine → List Access → Prop}

theorem executes_release {r : Register}
    (hpost : post () { start with pool := start.pool.release r } m []) :
    (release r).Executes x start m post fails :=
  executes_of_run (run_release r start) rfl hpost

theorem executes_lookup {name : String} {post : Int × Ty → Resources → Machine → List Access → Prop}
    (hpost : ∀ found, start.frame.find name = .ok found → post found start m []) :
    (lookup name).Executes x start m post fails := by
  intro out hrun
  rw [run_lookup] at hrun
  obtain ⟨found, hfound, rfl⟩ := run_ofExcept_eq_ok.1 hrun
  exact hpost found hfound

/-- An instruction after which control goes on. -/
theorem executes_emitAll_next {p : Pseudo} {i : Instruction} {m' : Machine}
    (hplain : p.plain x.limit x.message = [i]) (hexec : i.exec m = .next m')
    (hpost : post () start m' (i.access? m).toList) :
    (emitAll [p]).Executes x start m post fails := by
  intro out hrun
  cases (run_emitAll [p] start).symm.trans hrun
  simpa [Setting.run, Setting.accesses, Setting.plain, hplain, Environment.run,
    Environment.accesses, hexec] using hpost

theorem executes_emit_next {i : Instruction} {m' : Machine} (hexec : i.exec m = .next m')
    (hpost : post () start m' (i.access? m).toList) :
    (emit i).Executes x start m post fails :=
  executes_emitAll_next rfl hexec hpost

/-- A call that comes back. -/
theorem executes_call_some {p : Pseudo} {target : String} {m' : Machine}
    (hplain : p.plain x.limit x.message = [call target]) (henv : x.env target m = some m')
    (hpost : post () start m' []) : (emitAll [p]).Executes x start m post fails := by
  intro out hrun
  cases (run_emitAll [p] start).symm.trans hrun
  simpa [Setting.run, Setting.accesses, Setting.plain, hplain, Environment.run,
    Environment.accesses, call, access?, exec, Machine.guard, henv] using hpost

/-- A call that ends the program. -/
theorem executes_call_none {p : Pseudo} {target : String}
    (hplain : p.plain x.limit x.message = [call target]) (henv : x.env target m = none)
    (hfails : fails m []) : (emitAll [p]).Executes x start m post fails := by
  intro out hrun
  cases (run_emitAll [p] start).symm.trans hrun
  simpa [Setting.run, Setting.accesses, Setting.plain, hplain, Environment.run,
    Environment.accesses, call, access?, exec, Machine.guard, henv] using hfails

end Basic

/-- A fresh register and the instruction that fills it. -/
theorem executes_intoFresh {instruction : Register → Pseudo}
    {post : Register → Resources → Machine → List Access → Prop}
    (h : ∀ r ∈ start.pool.free, (emitAll [instruction r]).Executes x (start.hold r) m
      (fun _ after m' accesses => post r after m' accesses) fails) :
    (intoFresh instruction).Executes x start m post fails := by
  intro out hrun
  obtain ⟨r, hhead, rfl⟩ := run_intoFresh_eq_ok.1 hrun
  exact h r (List.mem_of_mem_head? hhead) _ (run_emitAll _ _)

theorem executes_acquire {post : Register → Resources → Machine → List Access → Prop}
    (hpost : ∀ r ∈ start.pool.free, post r (start.hold r) m []) :
    acquire.Executes x start m post fails := by
  intro out hrun
  obtain ⟨r, hhead, rfl⟩ := run_acquire_eq_ok.1 hrun
  exact hpost r (List.mem_of_mem_head? hhead)

end Lower

end ArmCompiler
