import ArmCompiler.Proofs.Assembling
import ArmCompiler.Proofs.Operations

/-!
# Generation Straight into a Listing

A body is lowered first and put into the listing when all of its code is there. Code can as well be
put into the listing step by step, so that a routine is opened and closed in the middle of the body
that calls it. `Lower.direct` does so. It respects sequencing, so the two ways can be mixed at will,
and the listing that it leaves is the same. Every step leaves open the sequences that were open.

## Contents
- §1: taking code into a listing
- §2: direct steps
- §3: code taken at once and step by step
- §4: adding a body
-/

namespace ArmCompiler

open Lower

namespace Listing

/-! ## §1 Taking code into a listing -/

/-- Puts a pseudo-instruction into the listing. The routine that it calls is added first. -/
def take (limit : Nat) (listing : Listing) (p : Pseudo) : Except CompileError Listing := do
  let (code, listing) ← listing.expand limit p
  return listing.emitAll code

/-- Puts pseudo-instructions into the listing one by one. -/
def takeAll (limit : Nat) (listing : Listing) (code : List Pseudo) : Except CompileError Listing :=
  code.foldlM (take limit) listing

/-- The listing with one more routine, which is not there yet, and its texts. -/
def added (listing : Listing) (r : Routine) : Listing :=
  let base := r.texts.foldl intern listing
  { base with sequences := base.sequences ++ [r.sequence base.messageLabel] }

theorem define_eq_added {listing : Listing} {r : Routine} (hnew : r.label ∉ listing.names) :
    listing.define r = .ok (listing.added r) := by
  have hnames : (r.texts.foldl intern listing).names = listing.names := by
    simpa using (Grows.internAll listing r.texts).1.names_eq
  rw [define_of_new hnew, defining, performAll_append, performAll_interns,
    performAll_block (hnames ▸ hnew)]
  rfl

theorem opened_added (listing : Listing) (r : Routine) :
    (listing.added r).opened = listing.opened :=
  (Grows.internAll listing r.texts).1.opened

/-- Asking for routines never fails, and leaves open what was open. -/
theorem requireChain_ok (chain : List Routine) (listing : Listing) :
    ∃ after, listing.requireChain chain = .ok after ∧ after.opened = listing.opened := by
  induction chain generalizing listing with
  | nil => exact ⟨listing, rfl, rfl⟩
  | cons r rest ih =>
    by_cases hthere : listing.has r.label
    · exact ⟨listing, by simp [requireChain, hthere], rfl⟩
    · obtain ⟨after, hafter, hopened⟩ := ih (listing.added r)
      refine ⟨after, ?_, hopened.trans (opened_added listing r)⟩
      have hdefine := define_eq_added fun hmem => hthere (has_iff.2 hmem)
      simp [requireChain, hthere, hdefine, bind, Except.bind, hafter]

/-- Expanding code never fails, and leaves open what was open. -/
theorem expand_ok (limit : Nat) (listing : Listing) (p : Pseudo) :
    ∃ plain after, listing.expand limit p = .ok (plain, after) ∧
      after.opened = listing.opened := by
  cases p with
  | instr i | reserve bytes | unreserve bytes => exact ⟨_, listing, rfl, rfl⟩
  | message dst text => exact ⟨_, _, rfl, (Grows.intern listing text).opened⟩
  | routine cond r =>
    obtain ⟨after, hafter, hopened⟩ := requireChain_ok r.chain listing
    refine ⟨[.branch true cond r.label], after, ?_, hopened⟩
    simp [expand, require, hafter, bind, Except.bind]

theorem expandAll_ok (limit : Nat) (code : List Pseudo) (listing : Listing) :
    ∃ plain after, listing.expandAll limit code = .ok (plain, after) := by
  induction code generalizing listing with
  | nil => exact ⟨[], listing, rfl⟩
  | cons p rest ih =>
    obtain ⟨first, mid, hfirst, _⟩ := expand_ok limit listing p
    obtain ⟨others, after, hothers⟩ := ih mid
    exact ⟨first ++ others, after, by simp [expandAll, hfirst, hothers, bind, Except.bind]⟩

/-- Taking code never fails either. -/
theorem take_ok (limit : Nat) (listing : Listing) (p : Pseudo) :
    ∃ after, listing.take limit p = .ok after ∧ after.opened = listing.opened := by
  obtain ⟨plain, after, hexpand, hopened⟩ := expand_ok limit listing p
  refine ⟨after.emitAll plain, ?_, by rw [opened_emitAll, hopened]⟩
  simp [take, hexpand, bind, Except.bind, pure, Except.pure]

theorem takeAll_ok (limit : Nat) (code : List Pseudo) (listing : Listing) :
    ∃ after, listing.takeAll limit code = .ok after ∧ after.opened = listing.opened := by
  induction code generalizing listing with
  | nil => exact ⟨listing, rfl, rfl⟩
  | cons p rest ih =>
    obtain ⟨mid, hmid, hopened⟩ := take_ok limit listing p
    obtain ⟨after, hafter, hopened'⟩ := ih mid
    refine ⟨after, ?_, hopened'.trans hopened⟩
    rw [takeAll, List.foldlM_cons, hmid]
    exact hafter

theorem takeAll_append (limit : Nat) (listing : Listing) (a b : List Pseudo) :
    listing.takeAll limit (a ++ b) = (do
      let mid ← listing.takeAll limit a
      mid.takeAll limit b) :=
  List.foldlM_append

end Listing

/-! ## §2 Direct steps -/

/-- Why direct generation stops: it is refused, or something is found to be other than it should
be. -/
inductive Interrupt where
  | refused (e : CompileError)
  /-- A statement left more or fewer sequences open than it found. -/
  | sequencesOpen
  /-- A statement left a register in use. -/
  | registersHeld
  /-- A call found the return register in use. -/
  | returnHeld
  deriving DecidableEq, Repr

/-- Generation that puts its code into the listing as it goes. -/
abbrev Direct := StateT Assembly (Except Interrupt)

/-- Runs a lowering step and takes its code into the listing. -/
def Lower.direct {α : Type} (limit : Nat) (step : Lower α) : Direct α := fun assembly =>
  match step.run assembly.resources with
  | .error e => .error (.refused e)
  | .ok out =>
    match assembly.listing.takeAll limit out.code with
    | .error e => .error (.refused e)
    | .ok listing => .ok (out.value, { resources := out.resources, listing })

namespace Lower

variable {α β : Type} {limit : Nat}

/-- What a direct step leaves: the resources of the step, and open what was open. -/
theorem direct_eq_ok {step : Lower α} {assembly assembly' : Assembly} {a : α}
    (h : step.direct limit assembly = .ok (a, assembly')) :
    ∃ out, step.run assembly.resources = .ok out ∧ a = out.value ∧
      assembly'.resources = out.resources ∧
      assembly'.listing.opened = assembly.listing.opened := by
  unfold direct at h
  cases hrun : step.run assembly.resources with
  | error e => simp [hrun] at h
  | ok out =>
    obtain ⟨after, hafter, hopened⟩ := Listing.takeAll_ok limit out.code assembly.listing
    simp only [hrun, hafter, Except.ok.injEq, Prod.mk.injEq] at h
    obtain ⟨rfl, rfl⟩ := h
    exact ⟨out, rfl, rfl, rfl, hopened⟩

@[simp] theorem direct_pure (a : α) : (pure a : Lower α).direct limit = pure a := rfl

/-- Two steps one after the other are the two direct steps one after the other. -/
theorem direct_bind (step : Lower α) (next : α → Lower β) :
    (step >>= next).direct limit = step.direct limit >>= fun a => (next a).direct limit := by
  funext assembly
  show (step >>= next).direct limit assembly = (step.direct limit assembly >>= fun result =>
    (next result.1).direct limit result.2)
  unfold direct
  rw [run_bind]
  cases step.run assembly.resources with
  | error e => rfl
  | ok first =>
    -- Taking the code of the first step cannot fail, so the second step is always reached.
    obtain ⟨mid, hmid, _⟩ := Listing.takeAll_ok limit first.code assembly.listing
    simp only [hmid, bind, Except.bind]
    cases (next first.value).run first.resources with
    | error e => rfl
    | ok second => simp only [Listing.takeAll_append, hmid, bind, Except.bind]

end Lower

/-! ## §3 Code taken at once and step by step -/

namespace Listing

/-- The innermost open sequence is there. -/
def Grounded (listing : Listing) : Prop :=
  ∀ name, listing.opened.head? = some name → name ∈ listing.names

@[simp] theorem names_emitAll (listing : Listing) (code : List Instruction) :
    (listing.emitAll code).names = listing.names := by
  unfold emitAll names
  split
  · rfl
  · rw [List.map_map]
    apply List.map_congr_left
    intro sequence _
    show (if sequence.name = _ then sequence.append code else sequence).name = sequence.name
    split <;> rfl

theorem intern_emitAll (listing : Listing) (code : List Instruction) (text : String) :
    (listing.emitAll code).intern text = (listing.intern text).emitAll code := by
  unfold intern
  rw [messages_emitAll]
  split
  · rfl
  · unfold emitAll
    cases listing.opened <;> rfl

theorem internAll_emitAll (texts : List String) (listing : Listing) (code : List Instruction) :
    texts.foldl intern (listing.emitAll code) = (texts.foldl intern listing).emitAll code := by
  induction texts generalizing listing with
  | nil => rfl
  | cons text rest ih => rw [List.foldl_cons, intern_emitAll, ih, List.foldl_cons]

/-- Adding a routine and emitting code to the open sequence can be done in either order. -/
theorem added_emitAll {listing : Listing} {r : Routine} (hgrounded : listing.Grounded)
    (hnew : r.label ∉ listing.names) (code : List Instruction) :
    (listing.emitAll code).added r = (listing.added r).emitAll code := by
  obtain ⟨hgrows, _⟩ := Grows.internAll listing r.texts
  unfold added
  rw [internAll_emitAll]
  generalize r.texts.foldl intern listing = base at hgrows
  have hlabel : (base.emitAll code).messageLabel = base.messageLabel := by
    funext text
    rw [messageLabel, messages_emitAll]
    rfl
  simp only [hlabel]
  unfold emitAll
  cases hopened : base.opened with
  | nil => rfl
  | cons name rest =>
    -- The new routine is not the sequence that is open, which was there before.
    have hother : r.label ≠ name := by
      rintro rfl
      have hhead : listing.opened.head? = some r.label := by rw [← hgrows.opened, hopened]; rfl
      exact hnew (hgrounded _ hhead)
    simp [Routine.sequence, hother]

theorem Grounded.added {listing : Listing} (h : listing.Grounded) (r : Routine) :
    (listing.added r).Grounded := by
  intro name hhead
  rw [opened_added] at hhead
  have hgrows := (Grows.internAll listing r.texts).1
  have hmem : name ∈ (r.texts.foldl intern listing).names := by
    rw [hgrows.names_eq]
    exact List.mem_append_left _ (h name hhead)
  simp only [Listing.added, Listing.names, List.map_append, List.mem_append]
  exact .inl hmem

theorem requireChain_emitAll {chain : List Routine} {listing after : Listing}
    (hgrounded : listing.Grounded) (h : listing.requireChain chain = .ok after)
    (code : List Instruction) :
    (listing.emitAll code).requireChain chain = .ok (after.emitAll code) ∧ after.Grounded := by
  induction chain generalizing listing with
  | nil =>
    cases h
    exact ⟨rfl, hgrounded⟩
  | cons r rest ih =>
    have hhas : (listing.emitAll code).has r.label = listing.has r.label := by
      rw [Bool.eq_iff_iff, has_iff, has_iff, names_emitAll]
    unfold requireChain at h ⊢
    rw [hhas]
    by_cases hthere : listing.has r.label
    · simp only [hthere, if_true] at h ⊢
      cases h
      exact ⟨rfl, hgrounded⟩
    · have hnew : r.label ∉ listing.names := fun hmem => hthere (has_iff.2 hmem)
      have hnew' : r.label ∉ (listing.emitAll code).names := by rwa [names_emitAll]
      simp only [hthere, Bool.false_eq_true, if_false, define_eq_added hnew, define_eq_added hnew',
        bind, Except.bind, added_emitAll hgrounded hnew] at h ⊢
      exact ih (hgrounded.added r) h

/-- Expanding a pseudo-instruction and emitting code can be done in either order. -/
theorem expand_emitAll {limit : Nat} {p : Pseudo} {listing after : Listing}
    {plain : List Instruction} (hgrounded : listing.Grounded)
    (h : listing.expand limit p = .ok (plain, after)) (code : List Instruction) :
    (listing.emitAll code).expand limit p = .ok (plain, after.emitAll code) ∧ after.Grounded := by
  cases p with
  | instr i | reserve bytes | unreserve bytes =>
    cases h
    exact ⟨rfl, hgrounded⟩
  | message dst text =>
    cases h
    have hgrows := Grows.intern listing text
    refine ⟨?_, ?_⟩
    · simp only [expand, intern_emitAll, messageLabel, messages_emitAll]
    · intro name hhead
      rw [hgrows.opened] at hhead
      rw [hgrows.names_eq]
      exact List.mem_append_left _ (hgrounded name hhead)
  | routine cond r =>
    obtain ⟨mid, hmid, _⟩ := requireChain_ok r.chain listing
    simp only [expand, require, hmid, bind, Except.bind] at h
    cases h
    obtain ⟨hafter, hgrounded'⟩ := requireChain_emitAll hgrounded hmid code
    exact ⟨by simp [expand, require, hafter, bind, Except.bind], hgrounded'⟩

theorem Grounded.emitAll {listing : Listing} (h : listing.Grounded) (code : List Instruction) :
    (listing.emitAll code).Grounded := by
  intro name hhead
  rw [opened_emitAll] at hhead
  rw [names_emitAll]
  exact h name hhead

theorem expandAll_emitAll {limit : Nat} {rest : List Pseudo} {listing after : Listing}
    {plain : List Instruction} (hgrounded : listing.Grounded)
    (h : listing.expandAll limit rest = .ok (plain, after)) (code : List Instruction) :
    (listing.emitAll code).expandAll limit rest = .ok (plain, after.emitAll code) := by
  induction rest generalizing listing plain with
  | nil =>
    cases h
    rfl
  | cons p rest ih =>
    obtain ⟨⟨first, mid⟩, hfirst, h⟩ := bind_eq_ok.1 h
    obtain ⟨⟨others, last⟩, hothers, h⟩ := bind_eq_ok.1 h
    cases h
    obtain ⟨hfirst', hgrounded'⟩ := expand_emitAll hgrounded hfirst code
    simp only [expandAll, hfirst', ih hgrounded' hothers, bind, Except.bind]

/-- Code that is expanded first and emitted at once gives the same listing as code that is taken
one by one. -/
theorem takeAll_of_expandAll {limit : Nat} {code : List Pseudo} {listing after : Listing}
    {plain : List Instruction} (hgrounded : listing.Grounded)
    (h : listing.expandAll limit code = .ok (plain, after)) :
    listing.takeAll limit code = .ok (after.emitAll plain) := by
  induction code generalizing listing plain after with
  | nil =>
    cases h
    rw [emitAll_nil]
    rfl
  | cons p rest ih =>
    obtain ⟨⟨first, mid⟩, hfirst, h⟩ := bind_eq_ok.1 h
    obtain ⟨⟨others, last⟩, hothers, h⟩ := bind_eq_ok.1 h
    cases h
    obtain ⟨_, hgrounded'⟩ := expand_emitAll hgrounded hfirst []
    -- What comes later is expanded although the first instructions are emitted before it.
    have hrest := ih (hgrounded'.emitAll first) (expandAll_emitAll hgrounded' hothers first)
    rw [emitAll_emitAll] at hrest
    have htake : listing.take limit p = .ok (mid.emitAll first) := by
      simp [take, hfirst, bind, Except.bind, pure, Except.pure]
    rw [takeAll, List.foldlM_cons, htake]
    exact hrest

end Listing

/-! ## §4 Adding a body -/

namespace Assembly

/-- Adds a sequence whose code is generated straight into it. -/
def addDirect (label : String) (frame : Frame) (body : Direct Unit) (assembly : Assembly) :
    Except Interrupt Assembly := do
  let listing ← (assembly.listing.start label true).mapError .refused
  let (_, filled) ← body { resources := { assembly.resources with frame }, listing }
  let listing ← (filled.listing.finish .userRet).mapError .refused
  return { filled with listing }

/-- A body can be generated straight into its sequence. -/
theorem addDirect_direct (config : Config) (label : String) (frame : Frame) (step : Lower Unit)
    (assembly : Assembly) :
    assembly.addDirect label frame (step.direct config.stackChunk) =
      (assembly.add config label frame step).mapError .refused := by
  unfold addDirect add
  by_cases hthere : label ∈ assembly.listing.names
  · rw [Listing.start_of_mem true hthere]
    rfl
  · rw [Listing.start_of_new true hthere]
    generalize hopened : ({ assembly.listing with
      sequences := assembly.listing.sequences ++
        [{ name := label, code := Listing.opening label true }]
      opened := label :: assembly.listing.opened } : Listing) = opened
    have hgrounded : opened.Grounded := by
      rintro name hhead
      subst hopened
      cases hhead
      simp [Listing.names]
    have hok : (Except.ok opened : Except CompileError Listing).mapError Interrupt.refused =
        .ok opened := rfl
    simp only [hok, bind, Except.bind, Lower.direct]
    cases hrun : step.run { assembly.resources with frame } with
    | error e => rfl
    | ok out =>
      obtain ⟨plain, after, hexpand⟩ := Listing.expandAll_ok config.stackChunk out.code opened
      simp only [Listing.takeAll_of_expandAll hgrounded hexpand, hexpand]
      cases (after.emitAll plain).finish .userRet <;> rfl

end Assembly

end ArmCompiler
