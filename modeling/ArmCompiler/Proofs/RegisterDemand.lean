import ArmCompiler.Proofs.CheckedPrograms

/-!
# How Many Registers a Program Needs

A program needs what the most demanding of its bodies does, and this is exact: a checked program is
compiled if there are as many registers as it demands, and cannot be compiled with fewer. Main
statement: `Program.compile_iff_demand`.
-/

namespace ArmCompiler

open Lower Report

namespace Program

variable {p : Program} {config : Config} {resources : Resources}

/-- The number of registers that a program needs: the largest of what its bodies need. -/
def demand (p : Program) : Nat :=
  (p.functions.map (·.body.demand)).foldr max p.body.demand

/-- A program's demand is met when the demand of each of its bodies is. -/
theorem demand_le_iff {n : Nat} :
    p.demand ≤ n ↔ (∀ f ∈ p.functions, f.body.demand ≤ n) ∧ p.body.demand ≤ n := by
  unfold demand
  induction p.functions with
  | nil => simp
  | cons f rest ih =>
    rw [List.map_cons, List.foldr_cons, Nat.max_le, ih, List.forall_mem_cons, and_assoc]

/-- A body starts with all registers of a valid setting free. -/
theorem available_of_valid (hvalid : config.fault? = none)
    (hpool : resources.pool = .ofCount config.generalRegisters) :
    resources.pool.available = config.generalRegisters := by
  rw [hpool, RegisterPool.available_ofCount, capacity_of_valid hvalid]

/-- A checked program that was assembled had the registers it demands. -/
theorem Clean.demand_le_of_assemble (h : p.Clean) (hvalid : config.fault? = none)
    (htypes : ∀ ty ∈ p.variableTypes, ty.isValid) {listing : Listing}
    (hassemble : p.assemble p.check.value config = .ok listing) :
    p.demand ≤ config.generalRegisters := by
  have hrun := assemble_run hassemble
  refine demand_le_iff.2 ⟨fun f hf => ?_, ?_⟩
  · obtain ⟨resources, hframe, hpool, out, hbody⟩ := hrun (f.toBody p.check.value)
      (List.mem_append_left _ (List.mem_map_of_mem hf))
    have hreturn : resources.pool.returnHeld = false := by rw [hpool]; rfl
    rw [← available_of_valid hvalid hpool]
    exact (h.function_needs htypes hf hframe hreturn).enough hbody
  · obtain ⟨resources, hframe, hpool, out, hbody⟩ := hrun (p.body.toMain p.check.value)
      (List.mem_append_right _ (List.mem_singleton_self _))
    have hreturn : resources.pool.returnHeld = false := by rw [hpool]; rfl
    rw [← available_of_valid hvalid hpool]
    exact (h.main_needs htypes hframe hreturn).enough hbody

/-- A checked program that cannot be assembled demands more registers than there are, and the error
says how many there are. -/
theorem Clean.assemble_error_demand (h : p.Clean) (hvalid : config.fault? = none)
    (htypes : ∀ ty ∈ p.variableTypes, ty.isValid) {e : CompileError}
    (hassemble : p.assemble p.check.value config = .error e) :
    ¬ p.demand ≤ config.generalRegisters ∧ e = .registersExhausted config.generalRegisters := by
  obtain ⟨body, hbody, resources, hframe, hpool, hrun⟩ :=
    assemble_error hvalid (h.labels_nodup _) hassemble
  have hreturn : resources.pool.returnHeld = false := by rw [hpool]; rfl
  refine ⟨fun hdemand => ?_, h.body_error hvalid htypes hbody hframe hpool hrun⟩
  obtain ⟨hfunctions, hmain⟩ := demand_le_iff.1 hdemand
  -- The body that failed had enough registers, so it cannot have failed.
  rw [← available_of_valid hvalid hpool] at hfunctions hmain
  simp only [bodies, List.mem_append, List.mem_map, List.mem_singleton] at hbody
  rcases hbody with ⟨f, hf, rfl⟩ | rfl
  · have hlack := ((h.function_needs htypes hf hframe hreturn).lack hrun).1
    exact absurd (hfunctions f hf) (Nat.not_le.2 hlack)
  · have hlack := ((h.main_needs htypes hframe hreturn).lack hrun).1
    exact absurd hmain (Nat.not_le.2 hlack)

/-- A checked program can be assembled with as many registers as it demands. -/
theorem Clean.assemble_of_demand (h : p.Clean) (hvalid : config.fault? = none)
    (htypes : ∀ ty ∈ p.variableTypes, ty.isValid) (hdemand : p.demand ≤ config.generalRegisters) :
    (p.assemble p.check.value config).isOk := by
  cases hassemble : p.assemble p.check.value config with
  | ok listing => rfl
  | error e => exact absurd hdemand (h.assemble_error_demand hvalid htypes hassemble).1

/-- Under valid settings a program in which no variable has the invalid type, and in which checking
finds nothing wrong, is compiled exactly if there are as many registers as it demands. If there
are fewer, the error says how many there are. -/
theorem compile_iff_demand (hvalid : config.fault? = none)
    (htypes : ∀ ty ∈ p.variableTypes, ty.kind ≠ .invalid) (hclean : p.check.diagnostics = []) :
    ((∃ text, p.compile config = .ok text) ↔ p.demand ≤ config.generalRegisters) ∧
      (¬ p.demand ≤ config.generalRegisters →
        p.compile config = .error (.registersExhausted config.generalRegisters)) := by
  have hcheck := check_clean hclean
  have hvalidTypes := isValid_of_kind htypes
  rw [compile_of_checked hvalid hclean]
  cases hassemble : p.assemble p.check.value config with
  | ok listing =>
    have hdemand := hcheck.demand_le_of_assemble hvalid hvalidTypes hassemble
    exact ⟨⟨fun _ => hdemand, fun _ => ⟨_, generate_eq_ok.2 ⟨listing, hassemble, rfl⟩⟩⟩,
      fun hmore => absurd hdemand hmore⟩
  | error e =>
    obtain ⟨hmore, rfl⟩ := hcheck.assemble_error_demand hvalid hvalidTypes hassemble
    have hgenerate : p.generate p.check.value config =
        .error (.registersExhausted config.generalRegisters) := by
      simp [generate, hassemble, bind, Except.bind]
    rw [hgenerate]
    exact ⟨⟨fun h => absurd h (by simp), fun hdemand => absurd hdemand hmore⟩, fun _ => rfl⟩

/-- Three registers are enough for the pair that the sum is taken of, two are not. -/
theorem compile_iff_demand_sumProgram :
    (∃ text, sumProgram.compile { generalRegisters := 3 } = .ok text) ∧
      sumProgram.compile { generalRegisters := 2 } = .error (.registersExhausted 2) := by
  have htypes : ∀ ty ∈ sumProgram.variableTypes, ty.kind ≠ .invalid := by decide
  have hclean : sumProgram.check.diagnostics = [] := by decide
  have hdemand : sumProgram.demand = 3 := by decide
  have henough : sumProgram.demand ≤ 3 := by omega
  have htooFew : ¬ sumProgram.demand ≤ 2 := by omega
  exact ⟨(compile_iff_demand (by decide) htypes hclean).1.2 henough,
    (compile_iff_demand (by decide) htypes hclean).2 htooFew⟩

end Program

end ArmCompiler
