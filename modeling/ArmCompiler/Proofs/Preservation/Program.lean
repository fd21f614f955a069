import ArmCompiler.Proofs.CheckedPrograms
import ArmCompiler.Proofs.LinkClosed
import ArmCompiler.Proofs.Preservation.Stmt

/-!
# Preservation for Programs

A scalar program that compiles does on the machine what the reference semantics says: if its main
body runs to an outcome, executing the main sequence shows that outcome, whatever the machine held
before.

## Contents
- §1: outcomes on the machine
- §2: the main sequence
- §3: programs
-/

namespace ArmCompiler

open Instruction Literal Lower Listing

/-! ## §1 Outcomes on the machine -/

/-- How the outcome of a program shows on a machine that was started in a given state. A program
that runs to its end returns zero. -/
def Outcome.Shows (start : Machine) : Outcome → Halt → Prop
  | .finished => Stop.Shows (start.regs .sp - 4) (start.regs .lr) (.returned 0)
  | .stopped how => how.Shows (start.regs .sp - 4) (start.regs .lr)

/-! ## §2 The main sequence -/

/-- The labels of the main sequence are distinct. -/
theorem labelsOf_main_nodup {W : Register → Prop} {known : String → Prop} {first next : Nat}
    {code : List Pseudo} (h : Structured W known 0 first next code) (limit : Nat)
    (message : String → String) :
    (labelsOf (bodySequence "main" (code.flatMap (·.plain limit message))).code).Nodup := by
  have hsound : (Piece.body "main" first next code).Sound W known := ⟨h, Routine.label_ne_main⟩
  have hperm := Piece.labels_perm limit message hsound
  -- The labels are the name of the sequence and a range of numbered ones.
  refine hperm.nodup_iff.2 (List.nodup_cons.2 ⟨?_, ?_⟩)
  · intro hmem
    obtain ⟨n, _, hn⟩ := List.mem_map.1 hmem
    exact SequenceName.main.ne_localLabel n hn.symm
  · exact List.Nodup.map localLabel_injective List.nodup_range'

/-- The listing of a program without functions has the sequence of its main body. -/
theorem Program.sequence_main {p : Program} {table : SymbolTable} {config : Config}
    {listing : Listing} (hfunctions : p.functions = [])
    (h : p.assemble table config = .ok listing) :
    ∃ lowered, (p.body.toMain table).step.run (Assembly.start config).resources = .ok lowered ∧
      listing.sequence? "main" = some (bodySequence "main"
        (lowered.code.flatMap (·.plain config.stackChunk listing.messageLabel))) := by
  rw [assemble_eq, bodies, hfunctions] at h
  cases hvalidate : config.validate with
  | error e => simp [hvalidate, bind, Except.bind] at h
  | ok _ =>
    cases hadd : (Assembly.start config).addBody config (p.body.toMain table) with
    | error e => simp [hvalidate, hadd, bind, Except.bind] at h
    | ok assembly =>
      obtain rfl : assembly.listing = listing := by
        simpa [hvalidate, hadd, bind, Except.bind, pure, Except.pure] using h
      -- There is one body only, so the listing is what adding it to the empty assembly leaves.
      have hclosed := (Assembly.built_start (fun _ => True) table.Knows config).closedBut
      obtain ⟨_, lowered, added, hrun, _, hadds⟩ :=
        Assembly.add_eq_ok hclosed Routine.label_ne_main hadd
      refine ⟨lowered, hrun, ?_⟩
      simp [sequence?, hadds.sequences, Assembly.start, bodySequence]

section Main

variable {p : Program} {table : SymbolTable} {config : Config} {lowered : Lowered Unit}
  {message : String → String} {rounds : Nat} {outcome : Outcome}

/-- The main body starts with an empty frame. -/
theorem Program.setting_main (p : Program) (config : Config) (slots : Nat) :
    Stmt.Setting p.functionTable
      { (Assembly.start config).resources with frame := ({} : Frame).openScope slots } where
  frame := by
    refine ⟨fun name => ?_, fun {name ty} hty => ?_⟩
    · rw [Frame.local?_openScope]
      simp [SymbolTable.typeOf?, SymbolTable.scopes, functionTable, Frame.local?]
    · simp [SymbolTable.typeOf?, SymbolTable.scopes, functionTable] at hty
  laid := (Frame.laid_ofParams []).openScope slots
  unused := rfl

/-- Saving the link register sets up the empty frame. -/
theorem Represents.start (m : Machine) :
    Represents (m.regs .sp - 4) (m.regs .lr) {} []
      ((m.set .sp (m.regs .sp - 4)).store (m.regs .sp - 4) (m.regs .lr) .word) where
  laid := Frame.laid_ofParams []
  params := rfl
  room := by decide
  stack := by
    rw [Machine.regs_store, Machine.regs_set_self]
    exact (below_zero _).symm
  saved := Machine.load_store_word _ _ _
  vars := .nil

/-- The code of the main body carries out its run. -/
theorem Program.Clean.body_executes (hclean : p.Clean) {site : Site} {inner : Lowered Unit}
    (hscalar : p.body.isScalar) (hroom : slotBytes * p.body.slots + p.body.reach + 4 ≤ 2 ^ 32)
    (hrun : (p.body.lowerBody table).run (Assembly.start config).resources = .ok inner) :
    Executes site {} inner.code {} (Store.inScope (p.body.exec rounds)) := by
  have hset := p.setting_main config p.body.slots
  have hdepth : (({} : Frame).openScope p.body.slots).depth = (slotBytes * p.body.slots : Nat) := by
    simp [Frame.openScope]
  have hready : p.body.Ready p.functionTable
      { (Assembly.start config).resources with frame := ({} : Frame).openScope p.body.slots } :=
    ⟨hset, hscalar, hclean.main, by simp only [hdepth]; omega⟩
  -- The check of the main body opens no scope, but its lowering does.
  have hdepth' : (Assembly.start config).resources.frame.depth = 0 := rfl
  refine .inScope hrun (by simp only [hdepth']; omega) fun hbody => ?_
  have hbalanced := p.body.lower_balanced hbody (.any _) hset.laid hset.unused
  exact ⟨⟨_, hbalanced.frame⟩, p.body.lower_preserved hbody hready⟩

/-- Executing the main sequence of a checked scalar program shows the program's outcome. -/
theorem Program.Clean.main_shows (hclean : p.Clean) (hscalar : p.body.isScalar)
    (hroom : slotBytes * p.body.slots + p.body.reach + 4 ≤ 2 ^ 32)
    (hrun : (p.body.toMain table).step.run (Assembly.start config).resources = .ok lowered)
    (houtcome : p.outcome? rounds = some outcome) (limit : Nat) (message : String → String)
    (start : Machine) :
    ∃ halt, Runs (bodySequence "main" (lowered.code.flatMap (·.plain limit message))).code
      (bodySequence "main" (lowered.code.flatMap (·.plain limit message))).code start halt ∧
        outcome.Shows start halt := by
  obtain ⟨_, hstructured⟩ := Stmt.toMain_sound (.any _) rfl p.body _ _ rfl rfl hrun
  let site : Site := {
    code := (bodySequence "main" (lowered.code.flatMap (·.plain limit message))).code
    labels := labelsOf_main_nodup hstructured limit message
    limit := limit
    message := message
    top := start.regs .sp - 4
    link := start.regs .lr
    wanted := outcome.Shows start }
  change site.Ends site.code start
  simp only [Stmt.toMain, run_bind_eq_ok, run_emit, Except.ok.injEq] at hrun
  obtain ⟨inner, _, hinner, rfl, rfl⟩ := hrun
  have hbody : Executes site {} inner.code {} (Store.inScope (p.body.exec rounds)) :=
    hclean.body_executes hscalar hroom hinner
  have hcode : site.code = .label "main" :: .push .lr ::
      (site.plain inner.code ++ [loadConst .r0 0, .pop .pc, .directive .ltorg]) := by
    simp [site, bodySequence, opening, Ending.code, Site.plain, Pseudo.plain]
  rw [hcode]
  -- Past the label and the saving of the link register, the empty frame is set up.
  refine .next rfl (.next rfl (hbody (Represents.start start) ?_ (Result.meets_bind.2 ?_)))
  · rw [hcode]
    exact List.suffix_append [_, _] _
  · unfold outcome? at houtcome
    cases hexec : p.body.exec rounds [] with
    | done σ =>
      obtain rfl : Outcome.finished = outcome := by simpa [hexec] using houtcome
      intro m hrep
      refine .loadConst (by decide) (.popLink ?_ hrep.saved (Machine.regs_set_self ..) fun _ => id)
      rw [Machine.regs_set_of_ne _ _ _ _ (by decide), hrep.stack]
      exact below_zero _
    | stopped how =>
      obtain rfl : Outcome.stopped how = outcome := by simpa [hexec] using houtcome
      exact fun _ => id
    | stuck => simp [hexec] at houtcome

end Main

/-! ## §3 Programs -/

/-- Scalar programs are compiled faithfully. The text of a compiled program has one main sequence,
and if the reference semantics runs the program to an outcome, then executing that sequence, from any
state of the machine, leaves it in exactly one way, which shows the outcome. The variables of all
scopes that are open together have to fit, with the saved link register, into the address space. -/
theorem Program.compile_preserves {p : Program} {config : Config} {text : String}
    (hscalar : p.isScalar) (hroom : slotBytes * p.body.slots + p.body.reach + 4 ≤ 2 ^ 32)
    (h : p.compile config = .ok text) :
    ∃ listing main, p.assemble p.check.value config = .ok listing ∧ text = listing.render ∧
      listing.sequence? "main" = some main ∧
      ∀ (rounds : Nat) (outcome : Outcome) (start : Machine), p.outcome? rounds = some outcome →
        ∃ halt, (∀ halt', Runs main.code main.code start halt' ↔ halt' = halt) ∧
          outcome.Shows start halt := by
  simp only [isScalar, Bool.and_eq_true, List.isEmpty_iff] at hscalar
  obtain ⟨hcheck, listing, hassemble, rfl⟩ := compile_eq_ok h
  obtain ⟨lowered, hrun, hmain⟩ := sequence_main hscalar.1 hassemble
  refine ⟨listing, _, hassemble, rfl, hmain, fun rounds outcome start houtcome => ?_⟩
  obtain ⟨halt, hruns, hshows⟩ :=
    (check_clean hcheck).main_shows hscalar.2 hroom hrun houtcome config.stackChunk
      listing.messageLabel start
  refine ⟨halt, fun halt' => ⟨fun hruns' => hruns'.unique hruns, ?_⟩, hshows⟩
  rintro rfl
  exact hruns

/-- Adds up squares in a loop whose body hides the sum, skips some rounds and tells them by a
character, and exits with the sum. -/
def Program.squareSum : Program where
  functions := []
  body := .seq {} (.declare {} .int "sum" (.expr (.int {} "0"))) (.seq {}
    (.forLoop {} (.declare {} .int "i" (.expr (.int {} "0")))
      (.binary {} .le (.ident {} "i") (.int {} "4")) (.increment {} "i")
      (.seq {} (.declare {} .char "c" (.expr (.unary {} .chr (.binary {} .add (.ident {} "i")
          (.int {} "97")))))
        (.ifThen {} (.binary {} .and (.binary {} .ne (.ident {} "c") (.char {} 'c'))
            (.unary {} .not (.bool {} false)))
          (.seq {} (.assign {} (.ident "sum") (.expr (.binary {} .add (.ident {} "sum")
              (.binary {} .mul (.ident {} "i") (.ident {} "i")))))
            (.declare {} .bool "sum" (.expr (.bool {} true)))))))
    (.exit {} (.ident {} "sum")))

/-- The squares without that of two come to 26, with which the code exits. -/
theorem Program.compile_preserves_squareSum :
    squareSum.isScalar ∧ slotBytes * squareSum.body.slots + squareSum.body.reach + 4 ≤ 2 ^ 32 ∧
      squareSum.outcome? 6 = some (.stopped (.exited 26)) ∧
      ∃ text, squareSum.compile {} = .ok text ∧
        ∃ listing main, squareSum.assemble squareSum.check.value {} = .ok listing ∧
          text = listing.render ∧ listing.sequence? "main" = some main ∧
          ∀ (rounds : Nat) (outcome : Outcome) (start : Machine),
            squareSum.outcome? rounds = some outcome →
            ∃ halt, (∀ halt', Runs main.code main.code start halt' ↔ halt' = halt) ∧
              outcome.Shows start halt := by
  have hscalar : squareSum.isScalar := by decide
  have hroom : slotBytes * squareSum.body.slots + squareSum.body.reach + 4 ≤ 2 ^ 32 := by decide
  have houtcome : squareSum.outcome? 6 = some (.stopped (.exited 26)) := by decide +kernel
  have hassemble : (squareSum.assemble squareSum.check.value {}).isOk := by decide +kernel
  obtain ⟨text, htext⟩ := compile_of_assemble (by decide) (by decide +kernel) hassemble
  exact ⟨hscalar, hroom, houtcome, text, htext, compile_preserves hscalar hroom htext⟩

end ArmCompiler
