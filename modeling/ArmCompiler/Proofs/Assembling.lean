import ArmCompiler.Proofs.Balance.Stmt
import ArmCompiler.Proofs.Listings

/-!
# What a Program Is Assembled from

The listing of a program is made of *pieces*: the bodies of its functions and its main body, each
followed by the routines that were missing when it was added. The numbers of local labels are
handed on from one body to the next, so no two bodies use the same ones.

## Contents
- §1: bodies
- §2: pieces
- §3: assemblies built from pieces
- §4: programs
-/

namespace ArmCompiler

open Lower Listing

/-! ## §1 Bodies -/

/-- A function or main body: the label of its sequence, the frame it starts with, and the step
that generates its code. -/
structure Body where
  label : String
  frame : Frame
  step : Lower Unit

def Function.toBody (table : SymbolTable) (f : Function) : Body :=
  { label := functionLabel f.name, frame := .ofParams f.params, step := f.body.lowerBody table }

def Stmt.toMain (table : SymbolTable) (body : Stmt) : Body :=
  { label := "main", frame := {}, step := do body.lowerBody table; emit (.loadConst .r0 0) }

/-- The bodies of a program in the order they are assembled. -/
def Program.bodies (table : SymbolTable) (p : Program) : List Body :=
  p.functions.map (·.toBody table) ++ [p.body.toMain table]

/-- Adds a body to an assembly. -/
def Assembly.addBody (config : Config) (assembly : Assembly) (body : Body) :
    Except CompileError Assembly :=
  assembly.add config body.label body.frame body.step

/-- A program is assembled body by body. -/
theorem Program.assemble_eq (table : SymbolTable) (config : Config) (p : Program) :
    p.assemble table config = (do
      config.validate
      let assembly ← (p.bodies table).foldlM (Assembly.addBody config) (.start config)
      return assembly.listing) := by
  simp only [assemble, bodies, List.foldlM_append, List.foldlM_map, List.foldlM_cons,
    List.foldlM_nil, bind_assoc, pure_bind]
  rfl

/-- A body whose code is structured and which gives back every register. -/
def Body.Sound (W : Register → Prop) (known : String → Prop) (pool : RegisterPool)
    (body : Body) : Prop :=
  ∀ (resources : Resources) (out : Lowered Unit), resources.frame = body.frame →
    resources.pool = pool → body.step.run resources = .ok out →
    out.resources.pool = pool ∧
      Structured W known 0 resources.nextLabel out.resources.nextLabel out.code

theorem Stmt.lowerBody_balanced {W : Register → Prop} {table : SymbolTable} {body : Stmt}
    {resources : Resources} {out : Lowered Unit}
    (h : (body.lowerBody table).run resources = .ok out) (hW : Writable resources.pool W)
    (hlaid : resources.frame.Laid) (hreturn : resources.pool.returnHeld = false) :
    Balanced W table.Knows resources 0 out :=
  Balanced.inScope h fun hrun => body.lower_balanced hrun hW (hlaid.openScope _) hreturn

theorem Function.toBody_sound {W : Register → Prop} {table : SymbolTable} {pool : RegisterPool}
    (hW : Writable pool W) (hreturn : pool.returnHeld = false) (f : Function) :
    (f.toBody table).Sound W table.Knows pool := by
  intro resources out hframe hpool hrun
  subst hpool
  have hlaid : resources.frame.Laid := hframe ▸ Frame.laid_ofParams f.params
  have hbalanced := Stmt.lowerBody_balanced hrun hW hlaid hreturn
  have hcode := hbalanced.code
  rw [hframe] at hcode
  exact ⟨hbalanced.pool, hcode⟩

theorem Stmt.toMain_sound {W : Register → Prop} {table : SymbolTable} {pool : RegisterPool}
    (hW : Writable pool W) (hreturn : pool.returnHeld = false) (body : Stmt) :
    (body.toMain table).Sound W table.Knows pool := by
  intro resources out hframe hpool hrun
  subst hpool
  simp only [Stmt.toMain, run_bind_eq_ok, run_emit, Except.ok.injEq] at hrun
  obtain ⟨inner, _, hinner, rfl, rfl⟩ := hrun
  have hlaid : resources.frame.Laid := hframe ▸ Frame.laid_ofParams []
  have hbalanced := Stmt.lowerBody_balanced hinner hW hlaid hreturn
  have hcode := hbalanced.code
  rw [hframe] at hcode
  exact ⟨hbalanced.pool, hcode.append_straight (by simpa using .constant hW.r0)⟩

theorem Program.bodies_sound {W : Register → Prop} {table : SymbolTable} {pool : RegisterPool}
    (hW : Writable pool W) (hreturn : pool.returnHeld = false) (p : Program) :
    ∀ body ∈ p.bodies table, body.Sound W table.Knows pool := by
  intro body hbody
  simp only [bodies, List.mem_append, List.mem_map, List.mem_singleton] at hbody
  rcases hbody with ⟨f, _, rfl⟩ | rfl
  · exact f.toBody_sound hW hreturn
  · exact p.body.toMain_sound hW hreturn

/-- No routine is named like the main body. -/
theorem Routine.label_ne_main (r : Routine) : r.label ≠ "main" := by
  cases r <;> simp [label]

/-- No routine is named like a function. -/
theorem Routine.label_ne_functionLabel (r : Routine) (name : String) :
    r.label ≠ functionLabel name := by
  intro heq
  have hchars : r.label.toList = "f_".toList ++ name.toList := by
    rw [heq]
    simp [functionLabel, String.toList_append]
  -- The first letters of the two labels differ.
  cases r <;> simp [label] at hchars

/-- No body has the label of a routine. -/
theorem Program.label_ne_routine {table : SymbolTable} {p : Program} {body : Body}
    (hbody : body ∈ p.bodies table) (r : Routine) : r.label ≠ body.label := by
  simp only [bodies, List.mem_append, List.mem_map, List.mem_singleton] at hbody
  rcases hbody with ⟨f, _, rfl⟩ | rfl
  · exact r.label_ne_functionLabel f.name
  · exact r.label_ne_main

/-! ## §2 Pieces -/

/-- A sequence of a program: a body, with the numbers of its local labels from `first` up to,
but without, `next`, or a routine. -/
inductive Piece where
  | body (label : String) (first next : Nat) (code : List Pseudo)
  | support (r : Routine)

namespace Piece

/-- The name of a piece's sequence. -/
def name : Piece → String
  | .body label _ _ _ => label
  | .support r => r.label

/-- The sequence of a piece, given the label of each text. -/
def sequence (limit : Nat) (message : String → String) : Piece → Sequence
  | .body label _ _ code => bodySequence label (code.flatMap (·.plain limit message))
  | .support r => r.sequence message

/-- The texts that a piece refers to. -/
def texts : Piece → List String
  | .body _ _ _ code => code.flatMap (·.texts)
  | .support r => r.texts

/-- The routines that a piece calls. -/
def callees : Piece → List Routine
  | .body _ _ _ code => code.flatMap (·.callees)
  | .support r => r.callees

/-- The numbers of a piece's local labels. -/
def numbers : Piece → List Nat
  | .body _ first next _ => List.range' first (next - first)
  | .support _ => []

/-- The label of a piece that is a body. -/
def bodyLabel? : Piece → Option String
  | .body label _ _ _ => some label
  | .support _ => none

/-- A body whose code is structured and which is not named like a routine. A routine is what it
is. -/
def Sound (W : Register → Prop) (known : String → Prop) : Piece → Prop
  | .body label first next code =>
    Structured W known 0 first next code ∧ ∀ r : Routine, r.label ≠ label
  | .support _ => True

/-- A body and the routines that were added after it. -/
def ofBody (label : String) (first next : Nat) (code : List Pseudo) (added : List Routine) :
    List Piece :=
  .body label first next code :: added.map .support

@[simp] theorem name_sequence (limit : Nat) (message : String → String) (piece : Piece) :
    (piece.sequence limit message).name = piece.name := by
  cases piece <;> rfl

/-- The sequence of a piece depends on the labels of its own texts only. -/
theorem sequence_congr {limit : Nat} {message message' : String → String} (piece : Piece)
    (h : ∀ text ∈ piece.texts, message text = message' text) :
    piece.sequence limit message = piece.sequence limit message' := by
  cases piece with
  | body label first next code =>
    have hcode : code.flatMap (·.plain limit message) = code.flatMap (·.plain limit message') := by
      rw [List.flatMap_def, List.flatMap_def]
      congr 1
      apply List.map_congr_left
      intro p hp
      exact p.plain_congr fun text htext => h text (List.mem_flatMap.2 ⟨p, hp, htext⟩)
    simp only [sequence, hcode]
  | support r => simp only [sequence, Routine.sequence, r.body_congr h]

/-- Among sound pieces the one with a routine's name is that routine. -/
theorem mem_of_label_mem {W : Register → Prop} {known : String → Prop} {pieces : List Piece}
    (hsound : ∀ piece ∈ pieces, piece.Sound W known) {r : Routine}
    (hr : r.label ∈ pieces.map name) : .support r ∈ pieces := by
  obtain ⟨piece, hpiece, hname⟩ := List.mem_map.1 hr
  cases piece with
  | body label first next code => exact absurd hname.symm ((hsound _ hpiece).2 r)
  | support s =>
    obtain rfl := Routine.label_injective hname
    exact hpiece

/-- A piece that is a body has the name of the body. -/
theorem name_mem_of_body {pieces : List Piece} {label : String}
    (h : label ∈ pieces.filterMap bodyLabel?) : label ∈ pieces.map name := by
  obtain ⟨piece, hpiece, hlabel⟩ := List.mem_filterMap.1 h
  refine List.mem_map.2 ⟨piece, hpiece, ?_⟩
  cases piece with
  | body label first next code => exact Option.some.inj hlabel
  | support r => cases hlabel

end Piece

/-- A body's code was generated, from a pool with all registers free, and is one of the pieces. -/
def Body.Generated (config : Config) (pieces : List Piece) (body : Body) : Prop :=
  ∃ resources out, resources.frame = body.frame ∧
    resources.pool = .ofCount config.generalRegisters ∧ body.step.run resources = .ok out ∧
    .body body.label resources.nextLabel out.resources.nextLabel out.code ∈ pieces

theorem Body.Generated.mono {config : Config} {pieces pieces' : List Piece} {body : Body}
    (h : body.Generated config pieces) (hsub : pieces ⊆ pieces') :
    body.Generated config pieces' := by
  obtain ⟨resources, out, hframe, hpool, hrun, hmem⟩ := h
  exact ⟨resources, out, hframe, hpool, hrun, hsub hmem⟩

/-! ## §3 Assemblies built from pieces -/

/-- An assembly whose listing is made of given pieces. Every piece comes with the routines it
calls, and there is no routine that no piece calls. -/
structure Assembly.Built (W : Register → Prop) (known : String → Prop) (config : Config)
    (assembly : Assembly) (pieces : List Piece) : Prop where
  opened : assembly.listing.opened = []
  header : assembly.listing.header = ({} : Listing).header
  pool : assembly.resources.pool = .ofCount config.generalRegisters
  sequences : assembly.listing.sequences =
    pieces.map (·.sequence config.stackChunk assembly.listing.messageLabel)
  sound : ∀ piece ∈ pieces, piece.Sound W known
  distinct : (pieces.map Piece.name).Nodup
  texts : ∀ piece ∈ pieces, ∀ text ∈ piece.texts, text ∈ assembly.listing.messages
  numbers : (pieces.flatMap Piece.numbers).Nodup
  numbers_lt : ∀ n ∈ pieces.flatMap Piece.numbers, n < assembly.resources.nextLabel
  closed : ∀ piece ∈ pieces, ∀ r ∈ piece.callees, .support r ∈ pieces
  needed : ∀ r, .support r ∈ pieces → ∃ piece ∈ pieces, r ∈ piece.callees

namespace Assembly

variable {W : Register → Prop} {known : String → Prop} {config : Config}
  {assembly assembly' : Assembly} {pieces : List Piece}

theorem built_start (W : Register → Prop) (known : String → Prop) (config : Config) :
    Built W known config (start config) [] := by
  constructor <;> simp [start]

theorem Built.names_eq (h : Built W known config assembly pieces) :
    assembly.listing.names = pieces.map Piece.name := by
  simp [names, h.sequences]

theorem Built.closedBut (h : Built W known config assembly pieces) :
    ClosedBut [] assembly.listing.names := by
  rw [h.names_eq]
  intro r hr q hq
  have hthere := h.closed _ (Piece.mem_of_label_mem h.sound hr) q hq
  exact .inl (List.mem_map.2 ⟨_, hthere, rfl⟩)

/-- Adding a sound body adds its code as a piece, and the routines that were missing for it. -/
theorem Built.addBody (h : Built W known config assembly pieces) {body : Body}
    (hsound : body.Sound W known (.ofCount config.generalRegisters))
    (hroutine : ∀ r : Routine, r.label ≠ body.label)
    (hadd : assembly.addBody config body = .ok assembly') :
    body.label ∉ assembly.listing.names ∧ ∃ lowered added,
      body.step.run { assembly.resources with frame := body.frame } = .ok lowered ∧
      assembly'.resources = lowered.resources ∧
      Built W known config assembly' (pieces ++ Piece.ofBody body.label
        assembly.resources.nextLabel assembly'.resources.nextLabel lowered.code added) := by
  obtain ⟨hnew, lowered, added, hrun, hres, hadds⟩ := add_eq_ok h.closedBut hroutine hadd
  obtain ⟨hpool, hcode⟩ :=
    hsound { assembly.resources with frame := body.frame } lowered rfl h.pool hrun
  have hle : assembly.resources.nextLabel ≤ lowered.resources.nextLabel := hcode.label_le
  have hnext : lowered.resources.nextLabel = assembly'.resources.nextLabel := by rw [hres]
  rw [hnext] at hcode hle
  refine ⟨hnew, lowered, added, hrun, hres, ?_⟩
  -- Every field below speaks of all pieces: those from before, the body, and what was added for it.
  generalize hall : pieces ++ Piece.ofBody body.label assembly.resources.nextLabel
    assembly'.resources.nextLabel lowered.code added = all
  have hmem {piece : Piece} : piece ∈ all ↔ piece ∈ pieces ∨ piece = .body body.label
      assembly.resources.nextLabel assembly'.resources.nextLabel lowered.code ∨
      ∃ r ∈ added, piece = .support r := by
    simp [← hall, Piece.ofBody, eq_comm]
  have hnames : all.map Piece.name = assembly'.listing.names := by
    simp [← hall, Piece.ofBody, hadds.names_eq, h.names_eq, Piece.name, Function.comp_def]
  have hsounds : ∀ piece ∈ all, piece.Sound W known := by
    intro piece hpiece
    rcases hmem.1 hpiece with hpiece | rfl | ⟨r, _, rfl⟩
    · exact h.sound piece hpiece
    · exact ⟨hcode, hroutine⟩
    · trivial
  have htexts : ∀ piece ∈ all, ∀ text ∈ piece.texts, text ∈ assembly'.listing.messages := by
    intro piece hpiece text htext
    rcases hmem.1 hpiece with hpiece | rfl | ⟨r, hr, rfl⟩
    · exact hadds.messages.subset (h.texts piece hpiece text htext)
    · obtain ⟨p, hp, htext⟩ := List.mem_flatMap.1 htext
      exact hadds.texts p hp text htext
    · exact hadds.addedTexts r hr text htext
  -- Only the body brings new label numbers, those that its lowering took.
  have hnumbers : all.flatMap Piece.numbers = pieces.flatMap Piece.numbers ++
      List.range' assembly.resources.nextLabel
        (assembly'.resources.nextLabel - assembly.resources.nextLabel) := by
    simp [← hall, Piece.ofBody, Piece.numbers, List.flatMap_map]
  exact {
    opened := hadds.opened.trans h.opened
    header := hadds.header.trans h.header
    pool := by rw [hres, hpool]
    sequences := by
      -- Texts were stored behind those that were there, so the earlier pieces read as before.
      have hkept : pieces.map (·.sequence config.stackChunk assembly.listing.messageLabel) =
          pieces.map (·.sequence config.stackChunk assembly'.listing.messageLabel) :=
        List.map_congr_left fun piece hpiece => piece.sequence_congr fun text htext =>
          (messageLabel_of_mem hadds.messages (h.texts piece hpiece text htext)).symm
      rw [hadds.sequences, h.sequences, hkept, ← hall]
      simp [Piece.ofBody, Piece.sequence]
    sound := hsounds
    distinct := by
      rw [hnames]
      exact hadds.distinct (h.names_eq ▸ h.distinct)
    texts := htexts
    numbers := by
      rw [hnumbers, List.nodup_append]
      refine ⟨h.numbers, List.nodup_range', ?_⟩
      -- Earlier bodies use numbers below the one at which this body starts.
      intro a ha b hb hab
      have hlt := h.numbers_lt a ha
      have hge := (List.mem_range'_1.1 hb).1
      omega
    numbers_lt := by
      rw [hnumbers]
      intro n hn
      rcases List.mem_append.1 hn with hn | hn
      · exact Nat.lt_of_lt_of_le (h.numbers_lt n hn) hle
      · have hlt := (List.mem_range'_1.1 hn).2
        omega
    closed := by
      intro piece hpiece r hr
      -- It is enough to find the name of the called routine in the listing.
      apply Piece.mem_of_label_mem hsounds
      rw [hnames]
      rcases hmem.1 hpiece with hpiece | rfl | ⟨q, hq, rfl⟩
      · rw [hadds.names_eq, h.names_eq]
        exact List.mem_append_left _ (List.mem_map.2 ⟨_, h.closed piece hpiece r hr, rfl⟩)
      · obtain ⟨p, hp, hr⟩ := List.mem_flatMap.1 hr
        exact hadds.calls p hp r hr
      · have hq' : q.label ∈ assembly'.listing.names := by
          rw [hadds.names_eq]
          simp [List.mem_map_of_mem hq]
        exact (hadds.closed q hq' r hr).resolve_right List.not_mem_nil
    needed := by
      intro r hr
      rcases hmem.1 hr with hr | hr | ⟨q, hq, hr⟩
      · obtain ⟨piece, hpiece, hcall⟩ := h.needed r hr
        exact ⟨piece, hmem.2 (.inl hpiece), hcall⟩
      · cases hr
      · cases hr
        -- An added routine is called by the body or by another added routine.
        rcases hadds.called r hq with ⟨p, hp, hcall⟩ | ⟨q, hq', hcall⟩
        · exact ⟨_, hmem.2 (.inr (.inl rfl)), List.mem_flatMap.2 ⟨p, hp, hcall⟩⟩
        · exact ⟨.support q, hmem.2 (.inr (.inr ⟨q, hq', rfl⟩)), hcall⟩ }

theorem bodyLabels_ofBody (label : String) (first next : Nat) (code : List Pseudo)
    (added : List Routine) :
    (Piece.ofBody label first next code added).filterMap Piece.bodyLabel? = [label] := by
  simp [Piece.ofBody, Piece.bodyLabel?, List.filterMap_map, Function.comp_def]

/-- Adding sound bodies one after the other. The code of each of them is generated, from a pool with
all registers free, and becomes a piece. -/
theorem Built.addBodies {bodies : List Body} (h : Built W known config assembly pieces)
    (hsound : ∀ body ∈ bodies, body.Sound W known (.ofCount config.generalRegisters))
    (hroutine : ∀ body ∈ bodies, ∀ r : Routine, r.label ≠ body.label)
    (hadd : bodies.foldlM (Assembly.addBody config) assembly = .ok assembly') :
    ∃ added, Built W known config assembly' (pieces ++ added) ∧
      added.filterMap Piece.bodyLabel? = bodies.map (·.label) ∧
      ∀ body ∈ bodies, body.Generated config added := by
  -- The pieces of the first body are those from which the rest is added.
  induction bodies generalizing assembly pieces with
  | nil =>
    obtain rfl : assembly = assembly' := by
      simpa [pure, Except.pure] using hadd
    exact ⟨[], by simpa using h, rfl, by simp⟩
  | cons body rest ih =>
    rw [List.foldlM_cons] at hadd
    cases hfirst : assembly.addBody config body with
    | error e => simp [hfirst, bind, Except.bind] at hadd
    | ok mid =>
      simp only [hfirst, bind, Except.bind] at hadd
      obtain ⟨_, lowered, routines, hrun, hres, hmid⟩ :=
        h.addBody (hsound body (by simp)) (hroutine body (by simp)) hfirst
      obtain ⟨others, hbuilt, hlabels, hothers⟩ := ih hmid
        (fun b hb => hsound b (List.mem_cons_of_mem _ hb))
        (fun b hb => hroutine b (List.mem_cons_of_mem _ hb)) hadd
      rw [List.append_assoc] at hbuilt
      refine ⟨_, hbuilt, ?_, ?_⟩
      · rw [List.filterMap_append, bodyLabels_ofBody, hlabels]
        rfl
      · intro b hb
        rcases List.mem_cons.1 hb with rfl | hb
        · refine ⟨{ assembly.resources with frame := b.frame }, lowered, rfl, h.pool, hrun, ?_⟩
          simp [Piece.ofBody, hres]
        · exact (hothers b hb).mono fun piece hpiece => List.mem_append_right _ hpiece

/-- Adding sound bodies with new and distinct names fails only if the code of one of them cannot
be generated. -/
theorem Built.addBodies_error {bodies : List Body} {e : CompileError}
    (h : Built W known config assembly pieces)
    (hsound : ∀ body ∈ bodies, body.Sound W known (.ofCount config.generalRegisters))
    (hroutine : ∀ body ∈ bodies, ∀ r : Routine, r.label ≠ body.label)
    (hdistinct : (bodies.map (·.label)).Nodup)
    (hnew : ∀ body ∈ bodies, body.label ∉ assembly.listing.names)
    (hadd : bodies.foldlM (Assembly.addBody config) assembly = .error e) :
    ∃ body ∈ bodies, ∃ resources : Resources, resources.frame = body.frame ∧
      resources.pool = .ofCount config.generalRegisters ∧ body.step.run resources = .error e := by
  induction bodies generalizing assembly pieces with
  | nil => simp [pure, Except.pure] at hadd
  | cons body rest ih =>
    rw [List.foldlM_cons] at hadd
    cases hfirst : assembly.addBody config body with
    | error e' =>
      obtain rfl : e' = e := by simpa [hfirst, bind, Except.bind] using hadd
      rcases add_eq_error h.closedBut (hroutine body (by simp)) hfirst with hthere | hrun
      · exact absurd hthere (hnew body (by simp))
      · exact ⟨body, by simp, { assembly.resources with frame := body.frame }, rfl, h.pool, hrun⟩
    | ok mid =>
      simp only [hfirst, bind, Except.bind] at hadd
      obtain ⟨_, lowered, added, _, _, hmid⟩ :=
        h.addBody (hsound body (by simp)) (hroutine body (by simp)) hfirst
      rw [List.map_cons, List.nodup_cons] at hdistinct
      -- A later body could clash with the one just added or with a routine added for it, but
      -- neither has its name.
      have hnew' : ∀ b ∈ rest, b.label ∉ mid.listing.names := by
        intro b hb hmem
        rw [hmid.names_eq, List.map_append, List.mem_append, ← h.names_eq] at hmem
        rcases hmem with hmem | hmem
        · exact hnew b (List.mem_cons_of_mem _ hb) hmem
        · simp only [Piece.ofBody, Piece.name, List.map_cons, List.map_map, List.mem_cons,
            List.mem_map, Function.comp_apply] at hmem
          rcases hmem with hsame | ⟨r, _, hsame⟩
          · exact hdistinct.1 (List.mem_map.2 ⟨b, hb, hsame⟩)
          · exact hroutine b (List.mem_cons_of_mem _ hb) r hsame
      obtain ⟨b, hb, hfail⟩ := ih hmid (fun b hb => hsound b (List.mem_cons_of_mem _ hb))
        (fun b hb => hroutine b (List.mem_cons_of_mem _ hb)) hdistinct.2 hnew' hadd
      exact ⟨b, List.mem_cons_of_mem _ hb, hfail⟩

end Assembly

/-! ## §4 Programs -/

namespace Program

variable {W : Register → Prop} {table : SymbolTable} {config : Config} {p : Program}

/-- The text of a program is that of its listing. -/
theorem generate_eq_ok {text : String} : p.generate table config = .ok text ↔
    ∃ listing, p.assemble table config = .ok listing ∧ text = listing.render := by
  cases h : p.assemble table config with
  | error e => simp [generate, h, bind, Except.bind]
  | ok listing => simp [generate, h, bind, Except.bind, pure, Except.pure, eq_comm]

theorem generate_of_assemble (h : (p.assemble table config).isOk) :
    ∃ text, p.generate table config = .ok text := by
  cases hlisting : p.assemble table config with
  | error e => simp [hlisting, Except.isOk, Except.toBool] at h
  | ok listing => exact ⟨listing.render, generate_eq_ok.2 ⟨listing, hlisting, rfl⟩⟩

/-- The listing of a program is made of sound pieces, and the code of its bodies is among them. -/
theorem assemble_generated {listing : Listing} (h : p.assemble table config = .ok listing)
    (hW : Writable (.ofCount config.generalRegisters) W) :
    config.fault? = none ∧ ∃ assembly pieces, assembly.listing = listing ∧
      Assembly.Built W table.Knows config assembly pieces ∧
      pieces.filterMap Piece.bodyLabel? = (p.bodies table).map (·.label) ∧
      ∀ body ∈ p.bodies table, body.Generated config pieces := by
  rw [assemble_eq, Config.validate] at h
  cases hfault : config.fault? with
  | some fault => simp [hfault, bind, Except.bind] at h
  | none =>
    simp only [hfault, bind, Except.bind] at h
    cases hfold : (p.bodies table).foldlM (Assembly.addBody config) (.start config) with
    | error e => simp [hfold] at h
    | ok assembly =>
      obtain rfl : assembly.listing = listing := by
        simpa [hfold, pure, Except.pure] using h
      obtain ⟨pieces, hbuilt, hlabels, hgenerated⟩ :=
        (Assembly.built_start W table.Knows config).addBodies
          (p.bodies_sound hW rfl) (fun body hbody => label_ne_routine hbody) hfold
      exact ⟨rfl, assembly, pieces, rfl, hbuilt, hlabels, hgenerated⟩

/-- The listing of a program is made of sound pieces, its bodies among them in order. -/
theorem assemble_built {listing : Listing} (h : p.assemble table config = .ok listing)
    (hW : Writable (.ofCount config.generalRegisters) W) :
    config.fault? = none ∧ ∃ assembly pieces, assembly.listing = listing ∧
      Assembly.Built W table.Knows config assembly pieces ∧
      pieces.filterMap Piece.bodyLabel? = (p.bodies table).map (·.label) := by
  obtain ⟨hvalid, assembly, pieces, hlisting, hbuilt, hlabels, _⟩ := assemble_generated h hW
  exact ⟨hvalid, assembly, pieces, hlisting, hbuilt, hlabels⟩

/-- Under valid settings a program whose bodies have distinct names cannot be assembled only if
the code of one of its bodies cannot be generated. -/
theorem assemble_error {e : CompileError} (hvalid : config.fault? = none)
    (hdistinct : ((p.bodies table).map (·.label)).Nodup)
    (h : p.assemble table config = .error e) :
    ∃ body ∈ p.bodies table, ∃ resources : Resources, resources.frame = body.frame ∧
      resources.pool = .ofCount config.generalRegisters ∧ body.step.run resources = .error e := by
  -- Which registers are written does not matter here.
  have hW : Writable (.ofCount config.generalRegisters) fun _ => True := .any _
  rw [assemble_eq, Config.validate, hvalid] at h
  cases hfold : (p.bodies table).foldlM (Assembly.addBody config) (.start config) with
  | ok assembly => simp [hfold, bind, Except.bind, pure, Except.pure] at h
  | error e' =>
    obtain rfl : e' = e := by simpa [hfold, bind, Except.bind] using h
    exact (Assembly.built_start _ table.Knows config).addBodies_error (p.bodies_sound hW rfl)
      (fun body hbody => label_ne_routine hbody) hdistinct
      (fun body _ => by simp [Assembly.start, Listing.names]) hfold

/-- When a program was assembled, the code of each of its bodies was generated. -/
theorem assemble_run {listing : Listing} (h : p.assemble table config = .ok listing) :
    ∀ body ∈ p.bodies table, ∃ resources : Resources, resources.frame = body.frame ∧
      resources.pool = .ofCount config.generalRegisters ∧
      ∃ out, body.step.run resources = .ok out := by
  obtain ⟨_, _, _, _, _, _, hgenerated⟩ := assemble_generated h (.any _)
  intro body hbody
  obtain ⟨resources, out, hframe, hpool, hrun, _⟩ := hgenerated body hbody
  exact ⟨resources, hframe, hpool, out, hrun⟩

end Program

end ArmCompiler
