import ArmCompiler.Proofs.CheckedPrograms
import ArmCompiler.Proofs.Labels
import Mathlib.Data.List.Perm.Basic

/-!
# Linking

A listing can be linked when its labels are unambiguous and nothing it refers to is missing. The
listing of a compiled program can, and it carries no routine that nothing branches to. Main
statement: `Program.compile_linked`.

## Contents
- §1: linked listings
- §2: references of a step
- §3: references of a routine
- §4: references of a piece
- §5: compiled programs
-/

namespace ArmCompiler

open Lower Listing

/-! ## §1 Linked listings -/

/-- A listing whose labels are pairwise distinct and whose branches and loads all lead somewhere.
Only sequences branch, local labels are reached from their own sequence only, and every routine
is reached. -/
structure Listing.Linked (listing : Listing) : Prop where
  distinct : (labelsOf listing.instructions).Nodup
  branches : ∀ i ∈ listing.instructions, ∀ target, i.target? = some target →
    target ∈ labelsOf listing.instructions ∨ target ∈ libraryFunctions
  inside : ∀ i ∈ listing.instructions, ∀ target, i.target? = some target →
    ∃ sequence ∈ listing.sequences, i ∈ sequence.code
  within : ∀ sequence ∈ listing.sequences, ∀ i ∈ sequence.code, ∀ n,
    i.target? = some (localLabel n) → localLabel n ∈ labelsOf sequence.code
  loads : ∀ i ∈ listing.instructions, ∀ label, i.loads? = some label →
    label ∈ labelsOf listing.dataSection
  reached : ∀ sequence ∈ listing.sequences, "p_".toList <+: sequence.name.toList →
    ∃ i ∈ listing.instructions, i.target? = some sequence.name

/-! ## §2 References of a step -/

/-- Where a branch can lead: to a local label from `numbers`, to one of the routines `callees`, to
a known function, or into the library. -/
inductive Leads (known : String → Prop) (numbers : List Nat) (callees : List Routine) :
    String → Prop where
  | inner {n : Nat} (h : n ∈ numbers) : Leads known numbers callees (localLabel n)
  | routine {r : Routine} (h : r ∈ callees) : Leads known numbers callees r.label
  | function {name : String} (h : known name) : Leads known numbers callees (functionLabel name)
  | library {name : String} (h : name ∈ libraryFunctions) : Leads known numbers callees name

theorem Leads.mono {known : String → Prop} {numbers numbers' : List Nat}
    {callees callees' : List Routine} {target : String} (h : Leads known numbers callees target)
    (hnumbers : numbers ⊆ numbers') (hcallees : callees ⊆ callees') :
    Leads known numbers' callees' target := by
  cases h with
  | inner h => exact .inner (hnumbers h)
  | routine h => exact .routine (hcallees h)
  | function h => exact .function h
  | library h => exact .library h

section Steps

variable {W : Register → Prop} {known : String → Prop} {first next limit : Nat}
  {message : String → String} {p : Pseudo} {i : Instruction}

theorem mem_adjustStack {op : ArithOp} {bytes : Nat} (h : i ∈ adjustStack op limit bytes) :
    ∃ step : Nat, i = .op op .sp .sp (.imm step) := by
  obtain ⟨step, _, rfl⟩ := List.mem_map.1 h
  exact ⟨step, rfl⟩

theorem Step.leads (h : Step W known first next p) (hi : i ∈ p.plain limit message)
    {target : String} (htarget : i.target? = some target) :
    Leads known (List.range' first (next - first)) p.callees target := by
  -- Only routine and library calls, function calls and local branches have a target.
  cases h with
  | straight h =>
    cases h with
    | routine =>
      obtain rfl := List.mem_singleton.1 hi
      obtain rfl := Option.some.inj htarget
      exact .routine (by simp [Pseudo.callees])
    | library hname =>
      obtain rfl := List.mem_singleton.1 hi
      obtain rfl := Option.some.inj htarget
      exact .library hname
    | constant | mov | text | loadSlot | storeSlot | load | store | arith | cmp | smull =>
      obtain rfl := List.mem_singleton.1 hi
      cases htarget
  | call hknown =>
    obtain rfl := List.mem_singleton.1 hi
    obtain rfl := Option.some.inj htarget
    exact .function hknown
  | branch hfirst hnext =>
    obtain rfl := List.mem_singleton.1 hi
    obtain rfl := Option.some.inj htarget
    exact .inner (List.mem_range'_1.2 ⟨hfirst, by omega⟩)
  | reserve | unreserve =>
    obtain ⟨_, rfl⟩ := mem_adjustStack hi
    cases htarget
  | push | pop | label =>
    obtain rfl := List.mem_singleton.1 hi
    cases htarget

theorem Step.loads (h : Step W known first next p) (hi : i ∈ p.plain limit message)
    {label : String} (hlabel : i.loads? = some label) : ∃ text ∈ p.texts, label = message text := by
  cases h with
  | straight h =>
    cases h with
    | text =>
      obtain rfl := List.mem_singleton.1 hi
      obtain rfl := Option.some.inj hlabel
      exact ⟨_, by simp [Pseudo.texts], rfl⟩
    | constant | mov | routine | library | loadSlot | storeSlot | load | store | arith | cmp
    | smull =>
      obtain rfl := List.mem_singleton.1 hi
      cases hlabel
  | reserve | unreserve =>
    obtain ⟨_, rfl⟩ := mem_adjustStack hi
    cases hlabel
  | call | branch | push | pop | label =>
    obtain rfl := List.mem_singleton.1 hi
    cases hlabel

end Steps

/-! ## §3 References of a routine -/

namespace Routine

theorem labelsOf_body (message : String → String) (r : Routine) :
    labelsOf (r.body message) = [] := by
  cases r <;> rfl

/-- The labels that a routine branches to do not depend on the labels of its texts. -/
theorem targets_body (message : String → String) (r : Routine) :
    (r.body message).filterMap (·.target?) = (r.body id).filterMap (·.target?) := by
  cases r <;> rfl

/-- A routine loads the address of each of its texts, in their order. -/
theorem loads_body (message : String → String) (r : Routine) :
    (r.body message).filterMap (·.loads?) = r.texts.map message := by
  cases r <;> rfl

theorem leads_body {known : String → Prop} {message : String → String} {r : Routine}
    {i : Instruction} (hi : i ∈ r.body message) {target : String}
    (htarget : i.target? = some target) : Leads known [] r.callees target := by
  -- With the texts out of the way this is a finite check.
  have htargets : ∀ t ∈ (r.body id).filterMap (·.target?),
      t ∈ r.callees.map label ∨ t ∈ libraryFunctions := by
    cases r <;> decide
  have hmem : target ∈ (r.body message).filterMap (·.target?) :=
    List.mem_filterMap.2 ⟨i, hi, htarget⟩
  rw [targets_body] at hmem
  rcases htargets target hmem with hroutine | hlibrary
  · obtain ⟨q, hq, rfl⟩ := List.mem_map.1 hroutine
    exact .routine hq
  · exact .library hlibrary

theorem exists_branch_body (message : String → String) {r q : Routine} (hq : q ∈ r.callees) :
    ∃ i ∈ r.body message, i.target? = some q.label := by
  have hcalled : ∀ s ∈ r.callees, s.label ∈ (r.body id).filterMap (·.target?) := by
    cases r <;> decide
  have hmem := hcalled q hq
  rw [← targets_body message] at hmem
  exact List.mem_filterMap.1 hmem

end Routine

/-! ## §4 References of a piece -/

namespace Piece

variable {W : Register → Prop} {known : String → Prop} {limit : Nat}
  {message : String → String} {piece : Piece} {i : Instruction}

/-- The labels of a piece are its name and its local labels. -/
theorem labels_perm (limit : Nat) (message : String → String) (h : piece.Sound W known) :
    (labelsOf (piece.sequence limit message).code).Perm
      (piece.name :: piece.numbers.map localLabel) := by
  cases piece with
  | body label first next code =>
    have hlabels : labelsOf (sequence limit message (.body label first next code)).code =
        label :: definedLabels code := by
      simp only [sequence, bodySequence, labelsOf_append, labelsOf_plain]
      simp [opening, labelsOf, Instruction.defines?, Ending.code]
    rw [hlabels]
    exact h.1.labels_perm.cons label
  | support r =>
    have hlabels : labelsOf (sequence limit message (.support r)).code = [r.label] := by
      simp only [sequence, Routine.sequence, labelsOf_append, Routine.labelsOf_body]
      cases r <;> rfl
    rw [hlabels]
    exact .refl _

/-- An instruction of a piece stands in its opening or its ending, or between them. -/
theorem mem_code (hi : i ∈ (piece.sequence limit message).code) :
    (i.target? = none ∧ i.loads? = none) ∨
      match piece with
      | .body _ _ _ code => ∃ p ∈ code, i ∈ p.plain limit message
      | .support r => i ∈ r.body message := by
  have hopening {name : String} {savesLink : Bool} (h : i ∈ opening name savesLink) :
      i.target? = none ∧ i.loads? = none := by
    simp only [opening, List.mem_cons] at h
    rcases h with rfl | h
    · exact ⟨rfl, rfl⟩
    · cases savesLink
      · cases h
      · obtain rfl := List.mem_singleton.1 h
        exact ⟨rfl, rfl⟩
  have hending {ending : Ending} (h : i ∈ ending.code) : i.target? = none ∧ i.loads? = none := by
    cases ending <;> simp only [Ending.code, List.mem_cons, List.not_mem_nil, or_false] at h
    · subst h
      exact ⟨rfl, rfl⟩
    · rcases h with rfl | rfl <;> exact ⟨rfl, rfl⟩
  cases piece with
  | body label first next code =>
    simp only [sequence, bodySequence, List.mem_append, List.mem_flatMap] at hi
    rcases hi with hi | hi | hi
    · exact .inl (hopening hi)
    · exact .inr hi
    · exact .inl (hending hi)
  | support r =>
    simp only [sequence, Routine.sequence, List.mem_append] at hi
    rcases hi with hi | hi | hi
    · exact .inl (hopening hi)
    · exact .inr hi
    · exact .inl (hending hi)

theorem leads (h : piece.Sound W known) (hi : i ∈ (piece.sequence limit message).code)
    {target : String} (htarget : i.target? = some target) :
    Leads known piece.numbers piece.callees target := by
  rcases mem_code hi with ⟨hnone, _⟩ | hi
  · simp [hnone] at htarget
  · cases piece with
    | body label first next code =>
      obtain ⟨p, hp, hi⟩ := hi
      refine ((h.1.steps p hp).leads hi htarget).mono (List.Subset.refl _) ?_
      exact fun r hr => List.mem_flatMap.2 ⟨p, hp, hr⟩
    | support r => exact Routine.leads_body hi htarget

theorem loads (h : piece.Sound W known) (hi : i ∈ (piece.sequence limit message).code)
    {label : String} (hlabel : i.loads? = some label) :
    ∃ text ∈ piece.texts, label = message text := by
  rcases mem_code hi with ⟨_, hnone⟩ | hi
  · simp [hnone] at hlabel
  · cases piece with
    | body name first next code =>
      obtain ⟨p, hp, hi⟩ := hi
      obtain ⟨text, htext, rfl⟩ := (h.1.steps p hp).loads hi hlabel
      exact ⟨text, List.mem_flatMap.2 ⟨p, hp, htext⟩, rfl⟩
    | support r =>
      have hmem : label ∈ (r.body message).filterMap (·.loads?) :=
        List.mem_filterMap.2 ⟨i, hi, hlabel⟩
      rw [Routine.loads_body] at hmem
      obtain ⟨text, htext, rfl⟩ := List.mem_map.1 hmem
      exact ⟨text, htext, rfl⟩

/-- A piece branches to each routine that it calls. -/
theorem exists_branch (limit : Nat) (message : String → String) {r : Routine}
    (hr : r ∈ piece.callees) :
    ∃ i ∈ (piece.sequence limit message).code, i.target? = some r.label := by
  cases piece with
  | body label first next code =>
    obtain ⟨p, hp, hr⟩ := List.mem_flatMap.1 hr
    cases p with
    | routine cond q =>
      obtain rfl := List.mem_singleton.1 hr
      refine ⟨.branch true cond r.label, ?_, rfl⟩
      simp only [sequence, bodySequence, List.mem_append, List.mem_flatMap]
      exact .inr (.inl ⟨_, hp, by simp [Pseudo.plain]⟩)
    | instr | message | reserve | unreserve => cases hr
  | support q =>
    obtain ⟨i, hi, htarget⟩ := Routine.exists_branch_body message hr
    refine ⟨i, ?_, htarget⟩
    simp only [sequence, Routine.sequence, List.mem_append]
    exact .inr (.inl hi)

end Piece

/-! ## §5 Compiled programs -/

theorem labelsOf_dataSection (listing : Listing) :
    labelsOf listing.dataSection = (List.range listing.messages.length).map labelAt := by
  have hentries : labelsOf (listing.messages.mapIdx messageEntry).flatten =
      (List.range listing.messages.length).map labelAt := by
    -- Every entry defines one label, numbered by its place.
    rw [labelsOf, List.filterMap_flatten, List.mapIdx_eq_zipIdx_map, List.map_map,
      List.range_eq_range', ← List.zipIdx_map_snd, List.map_map, ← List.flatMap_def]
    exact List.map_eq_flatMap.symm
  unfold dataSection
  split
  · rename_i hnone
    simp [hnone]
  · exact hentries

/-- What the sequences of a program can be called. -/
inductive SequenceName : String → Prop where
  | main : SequenceName "main"
  | function (name : String) : SequenceName (functionLabel name)
  | routine (r : Routine) : SequenceName r.label

namespace SequenceName

theorem ne_localLabel {name : String} (h : SequenceName name) (n : Nat) : name ≠ localLabel n := by
  intro heq
  have hchars := congrArg String.toList heq
  cases h with
  | main => simp [localLabel, String.toList_append] at hchars
  | function name => simp [localLabel, functionLabel, String.toList_append] at hchars
  | routine r => cases r <;> simp [localLabel, Routine.label, String.toList_append] at hchars

theorem ne_labelAt {name : String} (h : SequenceName name) (n : Nat) : name ≠ labelAt n := by
  intro heq
  have hchars := congrArg String.toList heq
  cases h with
  | main => simp [labelAt, String.toList_append] at hchars
  | function name => simp [labelAt, functionLabel, String.toList_append] at hchars
  | routine r => cases r <;> simp [labelAt, Routine.label, String.toList_append] at hchars

theorem routine_of_starts {name : String} (h : SequenceName name)
    (hstarts : "p_".toList <+: name.toList) : ∃ r : Routine, name = r.label := by
  cases h with
  | main => simp at hstarts
  | function name => simp [functionLabel, String.toList_append] at hstarts
  | routine r => exact ⟨r, rfl⟩

end SequenceName

theorem ne_localLabel_of_library {name : String} (h : name ∈ libraryFunctions) (n : Nat) :
    name ≠ localLabel n := by
  intro heq
  have hchars := congrArg String.toList heq
  simp only [libraryFunctions, List.mem_cons, List.not_mem_nil, or_false] at h
  rcases h with rfl | rfl | rfl | rfl | rfl | rfl | rfl | rfl | rfl <;>
    simp [localLabel, String.toList_append] at hchars

theorem localLabel_ne_labelAt (m n : Nat) : localLabel m ≠ labelAt n := by
  intro heq
  have hchars := congrArg String.toList heq
  simp [localLabel, labelAt, String.toList_append] at hchars

namespace Assembly.Built

variable {W : Register → Prop} {known : String → Prop} {config : Config} {assembly : Assembly}
  {pieces : List Piece}

/-- The instructions of an assembly: those of its pieces, and around them some that neither
branch nor load. -/
theorem mem_instructions (h : Built W known config assembly pieces) {i : Instruction}
    (hi : i ∈ assembly.listing.instructions) :
    (i.target? = none ∧ i.loads? = none) ∨ ∃ piece ∈ pieces,
      i ∈ (piece.sequence config.stackChunk assembly.listing.messageLabel).code := by
  simp only [instructions, List.mem_append, h.header, h.sequences, List.mem_flatMap,
    List.mem_map] at hi
  rcases hi with (hi | ⟨_, ⟨piece, hpiece, rfl⟩, hi⟩) | hi
  · simp only [List.mem_cons, List.not_mem_nil, or_false] at hi
    rcases hi with rfl | rfl <;> exact .inl ⟨rfl, rfl⟩
  · exact .inr ⟨piece, hpiece, hi⟩
  · left
    unfold dataSection at hi
    split at hi
    · cases hi
    · simp only [List.mem_cons, List.mem_flatten, List.mem_mapIdx] at hi
      rcases hi with rfl | ⟨_, ⟨index, _, rfl⟩, hi⟩
      · exact ⟨rfl, rfl⟩
      · simp only [messageEntry, List.mem_cons, List.not_mem_nil, or_false] at hi
        rcases hi with rfl | rfl | rfl <;> exact ⟨rfl, rfl⟩

/-- The labels of an assembly: the names of its pieces, their local labels, and the labels of the
texts. -/
theorem labels_perm (h : Built W known config assembly pieces) :
    (labelsOf assembly.listing.instructions).Perm
      (pieces.map Piece.name ++ (pieces.flatMap Piece.numbers).map localLabel ++
        (List.range assembly.listing.messages.length).map labelAt) := by
  have hheader : labelsOf assembly.listing.header = [] := by
    rw [h.header]
    rfl
  rw [instructions, labelsOf_append, labelsOf_append, hheader, labelsOf_dataSection]
  refine List.Perm.append_right _ ?_
  have hcode : labelsOf (assembly.listing.sequences.flatMap (·.code)) =
      pieces.flatMap fun piece =>
        labelsOf (piece.sequence config.stackChunk assembly.listing.messageLabel).code := by
    rw [h.sequences, labelsOf, List.filterMap_flatMap, List.flatMap_map]
    rfl
  rw [hcode, List.nil_append]
  have hpieces := List.Perm.flatMap_left pieces fun piece hpiece =>
    Piece.labels_perm config.stackChunk assembly.listing.messageLabel (h.sound piece hpiece)
  refine hpieces.trans ?_
  -- The names of all pieces are gathered in front of their local labels.
  have hsplit := List.flatMap_append_perm pieces (fun piece => [piece.name])
    (fun piece => piece.numbers.map localLabel)
  rw [← List.map_eq_flatMap, ← List.map_flatMap] at hsplit
  exact hsplit.symm

theorem labels_nodup (h : Built W known config assembly pieces)
    (hnames : ∀ piece ∈ pieces, SequenceName piece.name) :
    (labelsOf assembly.listing.instructions).Nodup := by
  rw [h.labels_perm.nodup_iff, List.nodup_append, List.nodup_append]
  refine ⟨⟨h.distinct, h.numbers.map localLabel_injective, ?_⟩,
    List.nodup_range.map labelAt_injective, ?_⟩
  · intro a ha b hb
    obtain ⟨piece, hpiece, rfl⟩ := List.mem_map.1 ha
    obtain ⟨n, _, rfl⟩ := List.mem_map.1 hb
    exact (hnames piece hpiece).ne_localLabel n
  · intro a ha b hb
    obtain ⟨n, _, rfl⟩ := List.mem_map.1 hb
    rcases List.mem_append.1 ha with ha | ha
    · obtain ⟨piece, hpiece, rfl⟩ := List.mem_map.1 ha
      exact (hnames piece hpiece).ne_labelAt n
    · obtain ⟨m, _, rfl⟩ := List.mem_map.1 ha
      exact localLabel_ne_labelAt m n

/-- An assembly of pieces can be linked if the functions they call are among them. -/
theorem linked (h : Built W known config assembly pieces)
    (hnames : ∀ piece ∈ pieces, SequenceName piece.name)
    (hknown : ∀ name, known name → functionLabel name ∈ pieces.map Piece.name) :
    assembly.listing.Linked := by
  have hsequence {sequence : Sequence} (hmem : sequence ∈ assembly.listing.sequences) :
      ∃ piece ∈ pieces,
        sequence = piece.sequence config.stackChunk assembly.listing.messageLabel := by
    rw [h.sequences] at hmem
    obtain ⟨piece, hpiece, rfl⟩ := List.mem_map.1 hmem
    exact ⟨piece, hpiece, rfl⟩
  have hlabel {label : String} (hmem : label ∈ pieces.map Piece.name ++
      (pieces.flatMap Piece.numbers).map localLabel) :
      label ∈ labelsOf assembly.listing.instructions :=
    h.labels_perm.mem_iff.2 (List.mem_append_left _ hmem)
  -- What remains: branches, where they stand, local branches, loads, and routines.
  refine ⟨h.labels_nodup hnames, ?_, ?_, ?_, ?_, ?_⟩
  · intro i hi target htarget
    rcases h.mem_instructions hi with ⟨hnone, _⟩ | ⟨piece, hpiece, hi⟩
    · simp [hnone] at htarget
    · cases Piece.leads (h.sound piece hpiece) hi htarget with
      | inner hn =>
        have hmem := List.mem_map_of_mem (f := localLabel) (List.mem_flatMap.2 ⟨piece, hpiece, hn⟩)
        exact .inl (hlabel (List.mem_append_right _ hmem))
      | routine hr =>
        have hmem := List.mem_map_of_mem (f := Piece.name) (h.closed piece hpiece _ hr)
        exact .inl (hlabel (List.mem_append_left _ hmem))
      | function hname => exact .inl (hlabel (List.mem_append_left _ (hknown _ hname)))
      | library hname => exact .inr hname
  · intro i hi target htarget
    rcases h.mem_instructions hi with ⟨hnone, _⟩ | ⟨piece, hpiece, hi⟩
    · simp [hnone] at htarget
    · refine ⟨_, ?_, hi⟩
      rw [h.sequences]
      exact List.mem_map_of_mem hpiece
  · intro sequence hmem i hi n htarget
    obtain ⟨piece, hpiece, rfl⟩ := hsequence hmem
    refine (Piece.labels_perm _ _ (h.sound piece hpiece)).mem_iff.2 (List.mem_cons_of_mem _ ?_)
    -- Of the places that a branch can lead to only the local labels are called like one.
    generalize hlabel : localLabel n = label at htarget
    cases Piece.leads (h.sound piece hpiece) hi htarget with
    | inner hn => exact List.mem_map_of_mem hn
    | @routine r hr => exact absurd hlabel.symm ((SequenceName.routine r).ne_localLabel n)
    | @function name hname =>
      exact absurd hlabel.symm ((SequenceName.function name).ne_localLabel n)
    | library hname => exact absurd hlabel.symm (ne_localLabel_of_library hname n)
  · intro i hi label hload
    rcases h.mem_instructions hi with ⟨_, hnone⟩ | ⟨piece, hpiece, hi⟩
    · simp [hnone] at hload
    · obtain ⟨text, htext, rfl⟩ := Piece.loads (h.sound piece hpiece) hi hload
      rw [labelsOf_dataSection]
      exact List.mem_map_of_mem
        (List.mem_range.2 (List.idxOf_lt_length_of_mem (h.texts piece hpiece text htext)))
  · intro sequence hmem hstarts
    obtain ⟨piece, hpiece, rfl⟩ := hsequence hmem
    rw [Piece.name_sequence] at hstarts ⊢
    cases piece with
    | body label first next code =>
      obtain ⟨r, hr⟩ := (hnames _ hpiece).routine_of_starts hstarts
      exact absurd hr.symm ((h.sound _ hpiece).2 r)
    | support r =>
      -- Some piece calls the routine, and so branches to it.
      obtain ⟨caller, hcaller, hcall⟩ := h.needed r hpiece
      obtain ⟨i, hi, htarget⟩ :=
        Piece.exists_branch config.stackChunk assembly.listing.messageLabel hcall
      refine ⟨i, ?_, htarget⟩
      simp only [instructions, List.mem_append, List.mem_flatMap, h.sequences]
      exact .inl (.inr ⟨_, List.mem_map_of_mem hcaller, hi⟩)

end Assembly.Built

/-- The pieces of a program are named after its functions, its main body and routines. -/
theorem Piece.sequenceName {table : SymbolTable} {p : Program} {pieces : List Piece}
    (hlabels : pieces.filterMap Piece.bodyLabel? = (p.bodies table).map (·.label)) {piece : Piece}
    (hpiece : piece ∈ pieces) : SequenceName piece.name := by
  cases piece with
  | support r => exact .routine r
  | body label first next code =>
    have hmem : label ∈ pieces.filterMap Piece.bodyLabel? :=
      List.mem_filterMap.2 ⟨_, hpiece, rfl⟩
    rw [hlabels] at hmem
    simp only [Program.bodies, List.map_append, List.map_map, List.mem_append, List.mem_map,
      List.map_cons, List.map_nil, List.mem_singleton] at hmem
    rcases hmem with ⟨f, _, rfl⟩ | rfl
    · exact .function f.name
    · exact .main

/-- The functions that a checked program can call are its own. -/
theorem Program.Clean.exists_of_knows {p : Program} (h : p.Clean) {name : String}
    (hknown : p.check.value.Knows name) : ∃ f ∈ p.functions, f.name = name := by
  simp only [SymbolTable.Knows, SymbolTable.function?, h.functions_eq, List.find?_isSome,
    functionTable, List.mem_map] at hknown
  obtain ⟨_, ⟨f, hf, rfl⟩, hname⟩ := hknown
  exact ⟨f, hf, by simpa [Function.signature] using hname⟩

/-- A program that compiles compiles to a listing that can be linked: its labels are pairwise
distinct, its branches lead to its own labels or into the library, local labels stay within
their sequences, the texts it loads are in its data section, and every routine in it is
branched to. -/
theorem Program.compile_linked {p : Program} {config : Config} {text : String}
    (h : p.compile config = .ok text) :
    ∃ listing, p.assemble p.check.value config = .ok listing ∧ text = listing.render ∧
      listing.Linked := by
  obtain ⟨hclean, listing, hassemble, htext⟩ := compile_eq_ok h
  obtain ⟨_, assembly, pieces, rfl, hbuilt, hlabels⟩ := assemble_built hassemble (.any _)
  refine ⟨assembly.listing, hassemble, htext, ?_⟩
  refine hbuilt.linked (fun piece hpiece => Piece.sequenceName hlabels hpiece) ?_
  intro name hknown
  obtain ⟨f, hf, rfl⟩ := (check_clean hclean).exists_of_knows hknown
  apply Piece.name_mem_of_body
  rw [hlabels]
  exact List.mem_map.2 ⟨f.toBody _, List.mem_append_left _ (List.mem_map_of_mem hf), rfl⟩

/-- A program that calls a function, prints and checks for null pointers. -/
theorem Program.compile_linked_sumProgram :
    ∃ text, sumProgram.compile {} = .ok text ∧
      ∃ listing, sumProgram.assemble sumProgram.check.value {} = .ok listing ∧
        text = listing.render ∧ listing.Linked := by
  have hassemble : (sumProgram.assemble sumProgram.check.value {}).isOk := by decide +kernel
  obtain ⟨text, htext⟩ := compile_of_assemble (by decide) (by decide) hassemble
  exact ⟨text, htext, compile_linked htext⟩

end ArmCompiler
