import ArmCompiler.Proofs.BasicSteps
import ArmCompiler.Proofs.CheckedPrograms

/-!
# More Registers Give the Same Code

The pool hands out the lowest free register, so registers at the upper end of a larger pool are
never touched by code that gets along without them. Two runs over pools of different size, with
the same registers in use at the start, go on with the same registers in use as long as the
smaller pool lasts.

A lowering step *widens* if this holds of it. Widening steps can be put one after the other, so
the property passes from the basic steps to whole bodies. Main statement:
`Program.generate_of_more_registers`.

## Contents
- §1: wider pools
- §2: widening steps
- §3: programs
-/

namespace ArmCompiler

open Lower

/-! ## §1 Wider pools -/

/-- The pool over another number of registers, with the same ones in use. -/
def RegisterPool.widen (pool : RegisterPool) (capacity : Nat) : RegisterPool :=
  { pool with capacity }

/-- The resources over another number of registers. -/
def Resources.widen (resources : Resources) (capacity : Nat) : Resources :=
  { resources with pool := resources.pool.widen capacity }

/-- What a step leaves behind, over another number of registers. -/
def Lowered.widen {α : Type} (out : Lowered α) (capacity : Nat) : Lowered α :=
  { out with resources := out.resources.widen capacity }

/-- The free registers of a wider pool begin with those of the narrower one. -/
theorem RegisterPool.free_prefix {pool : RegisterPool} {capacity : Nat}
    (hle : pool.capacity ≤ capacity) : pool.free <+: (pool.widen capacity).free := by
  apply List.IsPrefix.filter
  exact List.take_prefix_take_left hle

/-- A wider pool hands out the same register, as long as the narrower one has any. -/
theorem RegisterPool.head?_widen {pool : RegisterPool} {capacity : Nat} {r : Register}
    (hle : pool.capacity ≤ capacity) (hhead : pool.free.head? = some r) :
    (pool.widen capacity).free.head? = some r := by
  obtain ⟨rest, hrest⟩ := pool.free_prefix hle
  rw [← hrest, List.head?_append, hhead]
  rfl

/-! ## §2 Widening steps -/

namespace Lower

variable {α β : Type}

/-- A step that, once it succeeds, does the same over more registers, and leaves the size of the
pool alone. -/
structure Widens (step : Lower α) : Prop where
  widen : ∀ {resources : Resources} {out : Lowered α} {capacity : Nat},
    resources.pool.capacity ≤ capacity → step.run resources = .ok out →
    out.resources.pool.capacity = resources.pool.capacity ∧
      step.run (resources.widen capacity) = .ok (out.widen capacity)

namespace Widens

/-- Widening steps can follow each other. -/
theorem bind {step : Lower α} {next : α → Lower β} (hstep : step.Widens)
    (hnext : ∀ a, (next a).Widens) : (step >>= next).Widens := by
  constructor
  intro resources out capacity hle hrun
  obtain ⟨first, second, hfirst, hsecond, rfl⟩ := run_bind_eq_ok.1 hrun
  obtain ⟨hkept, hwide⟩ := hstep.widen hle hfirst
  -- The second step starts from a pool of the size that the first one found.
  obtain ⟨hkept', hwide'⟩ := (hnext first.value).widen (hkept ▸ hle) hsecond
  exact ⟨hkept'.trans hkept, run_bind_eq_ok.2 ⟨_, _, hwide, hwide', rfl⟩⟩

/-- A step that cannot fail, and to which the size of the pool makes no difference. -/
theorem always {step : Lower α} (out : Resources → Lowered α)
    (hrun : ∀ resources, step.run resources = .ok (out resources))
    (hout : ∀ resources capacity,
      (out resources).resources.pool.capacity = resources.pool.capacity ∧
        out (resources.widen capacity) = (out resources).widen capacity) : step.Widens := by
  constructor
  intro resources _ capacity _ hok
  rw [hrun, Except.ok.injEq] at hok
  subst hok
  obtain ⟨hkept, hwide⟩ := hout resources capacity
  exact ⟨hkept, by rw [hrun, hwide]⟩

/-- The one step for which the size of the pool matters. -/
theorem acquire : Lower.acquire.Widens := by
  constructor
  intro resources out capacity hle hrun
  obtain ⟨r, hhead, rfl⟩ := run_acquire_eq_ok.1 hrun
  exact ⟨rfl, run_acquire_eq_ok.2 ⟨r, RegisterPool.head?_widen hle hhead, rfl⟩⟩

theorem lookup (name : String) : (Lower.lookup name).Widens := by
  constructor
  intro resources out capacity _ hrun
  rw [run_lookup, run_ofExcept_eq_ok] at hrun
  obtain ⟨found, hfound, rfl⟩ := hrun
  refine ⟨rfl, ?_⟩
  rw [run_lookup]
  exact run_ofExcept_eq_ok.2 ⟨found, hfound, rfl⟩

theorem declare (name : String) (ty : Ty) : (Lower.declare name ty).Widens := by
  constructor
  intro resources out capacity _ hrun
  obtain ⟨offset, frame, hdeclare, rfl⟩ := run_declare_eq_ok.1 hrun
  exact ⟨rfl, run_declare_eq_ok.2 ⟨offset, frame, hdeclare, rfl⟩⟩

theorem inScope {slots : Nat} {step : Lower Unit} (hstep : step.Widens) :
    (Lower.inScope slots step).Widens := by
  constructor
  intro resources out capacity hle hrun
  obtain ⟨inner, hinner, rfl⟩ := run_inScope_eq_ok.1 hrun
  -- A scope changes the frame only, so the step in it starts from the same pool.
  have hopen : ({ resources with frame := resources.frame.openScope slots } :
      Resources).pool.capacity ≤ capacity := hle
  obtain ⟨hkept, hwide⟩ := hstep.widen hopen hinner
  exact ⟨hkept, run_inScope_eq_ok.2 ⟨_, hwide, rfl⟩⟩

end Widens

/-- Whatever is made of basic steps widens. -/
theorem Parallel.widens {ρ : String → String} {step step' : Lower α}
    (h : step.Parallel ρ step') : step.Widens := by
  induction h with
  | bind _ _ ih ihNext => exact ih.bind ihNext
  | fail _ => exact ⟨fun _ hrun => by cases hrun⟩
  | acquire => exact .acquire
  | @modifyPool change hsize =>
    refine .always _ (run_modifyPool change) fun resources capacity => ⟨?_, ?_⟩
    · show (change { resources.pool with capacity := resources.pool.capacity }).capacity = _
      rw [hsize]
    · show ({ value := (), resources :=
        { resources with pool := change { resources.pool with capacity } } } : Lowered Unit) = _
      rw [hsize]
      rfl
  | lookup name => exact .lookup name
  | declare name ty => exact .declare name ty
  | inScope slots _ ih => exact ih.inScope
  | pure | emitAll | freshLabel | push | unpush | unwind =>
    exact .always _ (fun _ => rfl) fun _ _ => ⟨rfl, rfl⟩

end Lower

/-! ## §3 Programs -/

/-- Every body of a program is lowered to the same code over more registers. -/
theorem Program.bodies_widen {table : SymbolTable} {p : Program} :
    ∀ body ∈ p.bodies table, body.step.Widens := by
  intro body hbody
  simp only [bodies, List.mem_append, List.mem_map, List.mem_singleton] at hbody
  rcases hbody with ⟨f, _, rfl⟩ | rfl
  · exact (f.body.lowerBody_parallel (ρ := id) table).widens
  · exact ((p.body.lowerBody_parallel (ρ := id) table).andThen (.emit _)).widens

namespace Assembly

/-- The assembly whose code still to come can use another number of registers. -/
def widen (assembly : Assembly) (capacity : Nat) : Assembly :=
  { assembly with resources := assembly.resources.widen capacity }

variable {config config' : Config} {assembly assembly' : Assembly} {capacity : Nat}

/-- A widening body is added over more registers with the same listing. The listing depends on
the settings by the size of stack moves only. -/
theorem addBody_widen {body : Body} (hwidens : body.step.Widens)
    (hchunk : config.stackChunk = config'.stackChunk)
    (hle : assembly.resources.pool.capacity ≤ capacity)
    (hadd : assembly.addBody config body = .ok assembly') :
    assembly'.resources.pool.capacity = assembly.resources.pool.capacity ∧
      (assembly.widen capacity).addBody config' body = .ok (assembly'.widen capacity) := by
  simp only [addBody, add, bind, Except.bind] at hadd ⊢
  cases hstart : assembly.listing.start body.label true with
  | error e => simp [hstart] at hadd
  | ok started =>
    simp only [hstart] at hadd
    -- The body starts with a frame of its own, over the pool that the bodies before it left.
    generalize hfrom : ({ assembly.resources with frame := body.frame } : Resources) = origin at hadd
    have hwider : ({ (assembly.widen capacity).resources with frame := body.frame } : Resources) =
        origin.widen capacity := by
      rw [← hfrom]
      rfl
    cases hrun : body.step.run origin with
    | error e => simp [hrun] at hadd
    | ok lowered =>
      have hle' : origin.pool.capacity ≤ capacity := by
        rw [← hfrom]
        exact hle
      obtain ⟨hkept, hwide⟩ := hwidens.widen hle' hrun
      simp only [hrun] at hadd
      cases hexpand : started.expandAll config.stackChunk lowered.code with
      | error e => simp [hexpand] at hadd
      | ok expanded =>
        simp only [hexpand] at hadd
        cases hfinish : (expanded.2.emitAll expanded.1).finish .userRet with
        | error e => simp [hfinish] at hadd
        | ok listing =>
          simp only [hfinish, pure, Except.pure, Except.ok.injEq] at hadd
          subst hadd
          have hlisting : (assembly.widen capacity).listing = assembly.listing := rfl
          refine ⟨hkept.trans (by rw [← hfrom]), ?_⟩
          simp only [hlisting, hstart, hwider, hwide, Lowered.widen, ← hchunk, hexpand, hfinish]
          rfl

/-- Widening bodies are added one after the other with the same listing. -/
theorem addBodies_widen {bodies : List Body} (hwidens : ∀ body ∈ bodies, body.step.Widens)
    (hchunk : config.stackChunk = config'.stackChunk)
    (hle : assembly.resources.pool.capacity ≤ capacity)
    (hadd : bodies.foldlM (addBody config) assembly = .ok assembly') :
    bodies.foldlM (addBody config') (assembly.widen capacity) = .ok (assembly'.widen capacity) := by
  induction bodies generalizing assembly with
  | nil =>
    simp only [List.foldlM_nil, pure, Except.pure, Except.ok.injEq] at hadd ⊢
    rw [hadd]
  | cons body rest ih =>
    rw [List.foldlM_cons] at hadd ⊢
    cases hfirst : assembly.addBody config body with
    | error e => simp [hfirst, bind, Except.bind] at hadd
    | ok mid =>
      simp only [hfirst, bind, Except.bind] at hadd
      obtain ⟨hkept, hwide⟩ := addBody_widen (hwidens body (by simp)) hchunk hle hfirst
      simp only [hwide, bind, Except.bind]
      exact ih (fun b hb => hwidens b (List.mem_cons_of_mem _ hb)) (hkept ▸ hle) hadd

end Assembly

namespace Program

/-- What can be generated with some number of registers is generated with any larger number, and
the text is the same. -/
theorem generate_of_more_registers {p : Program} {table : SymbolTable} {config config' : Config}
    {text : String} (hvalid : config'.fault? = none)
    (hchunk : config.stackChunk = config'.stackChunk)
    (hle : config.generalRegisters ≤ config'.generalRegisters)
    (h : p.generate table config = .ok text) : p.generate table config' = .ok text := by
  obtain ⟨listing, hassemble, rfl⟩ := generate_eq_ok.1 h
  refine generate_eq_ok.2 ⟨listing, ?_, rfl⟩
  rw [assemble_eq] at hassemble ⊢
  cases hvalidate : config.validate with
  | error e => simp [hvalidate, bind, Except.bind] at hassemble
  | ok _ =>
    simp only [hvalidate, bind, Except.bind] at hassemble
    cases hfold : (p.bodies table).foldlM (Assembly.addBody config) (.start config) with
    | error e => simp [hfold] at hassemble
    | ok assembly =>
      obtain rfl : assembly.listing = listing := by
        simpa [hfold, pure, Except.pure] using hassemble
      -- The larger number of registers starts from the wider pool.
      have hpools : (Assembly.start config).resources.pool.capacity ≤
          (Assembly.start config').resources.pool.capacity := by
        simp only [Assembly.start, RegisterPool.ofCount]
        omega
      have hwide := Assembly.addBodies_widen bodies_widen hchunk hpools hfold
      have hstart : (Assembly.start config).widen (Assembly.start config').resources.pool.capacity =
          Assembly.start config' := rfl
      rw [hstart] at hwide
      simp [Config.validate, hvalid, hwide, Assembly.widen, bind, Except.bind, pure, Except.pure]

/-- Three registers are as few as building a pair can do with. -/
theorem generate_of_more_registers_sumProgram :
    ∃ text, sumProgram.generate sumProgram.check.value { generalRegisters := 3 } = .ok text ∧
      sumProgram.generate sumProgram.check.value {} = .ok text := by
  have hassemble : (sumProgram.assemble sumProgram.check.value { generalRegisters := 3 }).isOk := by
    decide +kernel
  obtain ⟨text, htext⟩ := generate_of_assemble hassemble
  exact ⟨text, htext, generate_of_more_registers (by decide) (by decide) (by decide) htext⟩

end Program

end ArmCompiler
