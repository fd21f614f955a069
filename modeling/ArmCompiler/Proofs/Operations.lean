import ArmCompiler.Proofs.Listings

/-!
# Runs of Listing Operations

A listing is built by operations: emitting an instruction, opening and closing a sequence,
interning a text. Asking for a routine performs several of them. What a listing holds after any
run of operations is told here from the run alone, without the listing: each operation is taken
together with the sequences that were there and that were open when it was performed. Main
statements: `Tells.performAll` and `Tells.unnested`.

## Contents
- §1: operations and requests
- §2: what a request performs
- §3: histories and moments
- §4: what a run tells
- §5: one operation
- §6: whole runs
- §7: the written program
-/

namespace ArmCompiler

/-- Two computations succeed together when each of them does. -/
theorem bind_eq_ok {α β : Type} {x : Except CompileError α} {f : α → Except CompileError β}
    {b : β} : (x >>= f) = .ok b ↔ ∃ a, x = .ok a ∧ f a = .ok b := by
  cases x <;> simp [bind, Except.bind]

namespace Listing

/-! ## §1 Operations and requests -/

/-- An operation on a listing. -/
inductive Operation where
  | emit (i : Instruction)
  | start (name : String) (savesLink : Bool)
  | finish (ending : Ending)
  | intern (text : String)
  deriving DecidableEq, Repr

/-- The outcome of an operation. -/
def apply (listing : Listing) : Operation → Except CompileError Listing
  | .emit i => .ok (listing.emit i)
  | .start name savesLink => listing.start name savesLink
  | .finish ending => listing.finish ending
  | .intern text => .ok (listing.intern text)

/-- What is asked of a listing: an operation, or that a routine be there. -/
inductive Request where
  | plain (operation : Operation)
  | routine (r : Routine)
  deriving DecidableEq, Repr

/-- The outcome of a request. -/
def answer (listing : Listing) : Request → Except CompileError Listing
  | .plain operation => listing.apply operation
  | .routine r => listing.require r

/-- The listing after an attempt. One that failed leaves the listing as it was. -/
def keep (listing : Listing) : Except CompileError Listing → Listing
  | .ok after => after
  | .error _ => listing

/-- The listing after operations. -/
def performAll (listing : Listing) (operations : List Operation) : Listing :=
  operations.foldl (fun l operation => l.keep (l.apply operation)) listing

/-- The listing after requests. -/
def serveAll (listing : Listing) (requests : List Request) : Listing :=
  requests.foldl (fun l request => l.keep (l.answer request)) listing

@[simp] theorem performAll_nil (listing : Listing) : listing.performAll [] = listing := rfl

@[simp] theorem performAll_cons (listing : Listing) (operation : Operation)
    (rest : List Operation) :
    listing.performAll (operation :: rest) =
      (listing.keep (listing.apply operation)).performAll rest := rfl

@[simp] theorem performAll_append (listing : Listing) (a b : List Operation) :
    listing.performAll (a ++ b) = (listing.performAll a).performAll b :=
  List.foldl_append

@[simp] theorem serveAll_append (listing : Listing) (a b : List Request) :
    listing.serveAll (a ++ b) = (listing.serveAll a).serveAll b :=
  List.foldl_append

theorem emitAll_nil (listing : Listing) : listing.emitAll [] = listing := by
  unfold emitAll
  split <;> simp

/-- Emitting instructions one by one. -/
theorem performAll_emits (listing : Listing) (code : List Instruction) :
    listing.performAll (code.map .emit) = listing.emitAll code := by
  induction code generalizing listing with
  | nil => exact (emitAll_nil listing).symm
  | cons i rest ih =>
    rw [List.map_cons, performAll_cons, ih]
    exact emitAll_emitAll listing [i] rest

/-- Interning texts one by one. -/
theorem performAll_interns (listing : Listing) (texts : List String) :
    listing.performAll (texts.map .intern) = texts.foldl intern listing := by
  induction texts generalizing listing with
  | nil => rfl
  | cons text rest ih =>
    rw [List.map_cons, performAll_cons, ih]
    rfl

/-! ## §2 What a request performs -/

/-- A sequence that is opened, filled and closed without a break. -/
def block (name : String) (savesLink : Bool) (code : List Instruction) (ending : Ending) :
    List Operation :=
  .start name savesLink :: (code.map .emit ++ [.finish ending])

/-- A block with a new name is one more sequence, and leaves open what was open. -/
theorem performAll_block {listing : Listing} {name : String} (hnew : name ∉ listing.names)
    (savesLink : Bool) (code : List Instruction) (ending : Ending) :
    listing.performAll (block name savesLink code ending) = { listing with
      sequences := listing.sequences ++
        [{ name, code := opening name savesLink ++ (code ++ ending.code) }] } := by
  let started : Listing := { listing with
    sequences := listing.sequences ++ [{ name, code := opening name savesLink }]
    opened := name :: listing.opened }
  have hstart : listing.start name savesLink = .ok started := start_of_new savesLink hnew
  -- The new sequence is the last one, so nothing before it has its name.
  have hemit : (started.emitAll code).emitAll ending.code = { started with
      sequences := listing.sequences ++
        [{ name, code := opening name savesLink ++ (code ++ ending.code) }] } := by
    rw [emitAll_emitAll, emitAll_of_opened rfl rfl hnew (by simp)]
    rfl
  have hopened : (started.emitAll code).opened = name :: listing.opened := opened_emitAll _ _
  simp only [block, performAll_cons, apply, hstart, keep, performAll_append, performAll_emits,
    performAll_nil, finish, hopened, hemit]
  rfl

/-- The operations that add a routine. -/
def defining (listing : Listing) (r : Routine) : List Operation :=
  r.texts.map .intern ++
    block r.label r.returns (r.body (r.texts.foldl intern listing).messageLabel) r.ending

/-- The operations that add the routines of a chain, up to the first one that is there. -/
def requiring (listing : Listing) : List Routine → List Operation
  | [] => []
  | r :: rest =>
    if listing.has r.label then []
    else listing.defining r ++ (listing.performAll (listing.defining r)).requiring rest

/-- The operations that a request performs. -/
def Request.operations (listing : Listing) : Request → List Operation
  | .plain operation => [operation]
  | .routine r => listing.requiring r.chain

/-- The operations that requests perform one after the other. -/
def operationsOf (listing : Listing) : List Request → List Operation
  | [] => []
  | request :: rest =>
    request.operations listing ++ (listing.keep (listing.answer request)).operationsOf rest

/-- A routine that is not there is added by its operations. -/
theorem define_of_new {listing : Listing} {r : Routine} (hnew : r.label ∉ listing.names) :
    listing.define r = .ok (listing.performAll (listing.defining r)) := by
  have hnames : (r.texts.foldl intern listing).names = listing.names := by
    simpa using (Grows.internAll listing r.texts).1.names_eq
  unfold define defining
  rw [performAll_append, performAll_interns]
  generalize r.texts.foldl intern listing = base at hnames ⊢
  rw [← hnames] at hnew
  have hstart := start_of_new r.returns hnew
  simp only [block, performAll_cons, apply, hstart, bind, Except.bind, keep, performAll_append,
    performAll_emits, performAll_nil]
  -- The sequence of the routine is open, so closing it succeeds.
  simp only [finish, opened_emitAll]
  rfl

/-- Asking for the routines of a chain never fails, and performs its operations. -/
theorem requireChain_eq (chain : List Routine) (listing : Listing) :
    listing.requireChain chain = .ok (listing.performAll (listing.requiring chain)) := by
  induction chain generalizing listing with
  | nil => rfl
  | cons r rest ih =>
    unfold requireChain requiring
    by_cases hthere : listing.has r.label
    · simp [hthere]
    · have hnew : r.label ∉ listing.names := fun hmem => hthere (has_iff.2 hmem)
      simp only [hthere, Bool.false_eq_true, if_false, define_of_new hnew, bind, Except.bind, ih,
        performAll_append]

/-- The only requests that fail are to open a name that is there and to close where nothing is
open. -/
theorem answer_eq_error {listing : Listing} {request : Request} {e : CompileError} :
    listing.answer request = .error e ↔
      (∃ name savesLink, request = .plain (.start name savesLink) ∧ name ∈ listing.names ∧
        e = .internal (.duplicateSequence name)) ∨
      (∃ ending, request = .plain (.finish ending) ∧ listing.opened = [] ∧
        e = .internal .noOpenSequence) := by
  cases request with
  | routine r => simp [answer, require, requireChain_eq]
  | plain operation =>
    cases operation with
    | emit i | intern text => simp [answer, apply]
    | start name savesLink =>
      by_cases hthere : name ∈ listing.names
      · simp [answer, apply, start_of_mem savesLink hthere, hthere, eq_comm]
      · simp [answer, apply, start_of_new savesLink hthere, hthere]
    | finish ending =>
      cases hopened : listing.opened <;> simp [answer, apply, finish, hopened, eq_comm]

/-- A request leaves behind what its operations leave behind. -/
theorem keep_answer (listing : Listing) (request : Request) :
    listing.keep (listing.answer request) = listing.performAll (request.operations listing) := by
  cases request with
  | plain operation => rfl
  | routine r =>
    show listing.keep (listing.requireChain r.chain) = _
    rw [requireChain_eq]
    rfl

/-- Requests leave behind what their operations leave behind. -/
theorem serveAll_eq (listing : Listing) (requests : List Request) :
    listing.serveAll requests = listing.performAll (listing.operationsOf requests) := by
  induction requests generalizing listing with
  | nil => rfl
  | cons request rest ih =>
    rw [operationsOf, performAll_append, ← keep_answer]
    exact ih _

/-! ## §3 Histories and moments -/

/-- The names of the sequences that were opened so far, in order, and of those that are still
open, innermost first. -/
structure History where
  names : List String := []
  opened : List String := []
  deriving DecidableEq, Repr

/-- The history after one more operation. A name counts only the first time, and where nothing is
open there is nothing to close. -/
def History.next (history : History) : Operation → History
  | .start name _ =>
    if name ∈ history.names then history
    else { names := history.names ++ [name], opened := name :: history.opened }
  | .finish _ => { history with opened := history.opened.tail }
  | .emit _ | .intern _ => history

/-- The history after operations. -/
def History.after (history : History) (operations : List Operation) : History :=
  operations.foldl next history

/-- An operation and the history before it. -/
structure Moment where
  before : History
  operation : Operation
  deriving DecidableEq, Repr

/-- The moments of a run. -/
def moments (history : History) : List Operation → List Moment
  | [] => []
  | operation :: rest => ⟨history, operation⟩ :: moments (history.next operation) rest

/-! ## §4 What a run tells -/

/-- The instruction that is emitted at a moment, if it goes to the sequence of the given name, or,
without a name, to the header. -/
def Moment.emitted? (place : Option String) (moment : Moment) : Option Instruction :=
  match moment.operation with
  | .emit i => if moment.before.opened.head? = place then some i else none
  | .start _ _ | .finish _ | .intern _ => none

/-- A sequence that is opened at a moment: its name, and whether it saves the link register. -/
def Moment.opening? (moment : Moment) : Option (String × Bool) :=
  match moment.operation with
  | .start name savesLink =>
    if name ∈ moment.before.names then none else some (name, savesLink)
  | .emit _ | .finish _ | .intern _ => none

/-- How the sequence of a name ends, if it is closed at a moment. -/
def Moment.ending? (name : String) (moment : Moment) : Option Ending :=
  match moment.operation with
  | .finish ending => if moment.before.opened.head? = some name then some ending else none
  | .emit _ | .start _ _ | .intern _ => none

/-- The text that is interned at a moment. -/
def Moment.text? (moment : Moment) : Option String :=
  match moment.operation with
  | .intern text => some text
  | .emit _ | .start _ _ | .finish _ => none

/-- The instructions emitted while a sequence was the innermost open one, or, without a name, while
nothing was open. -/
def emitted (place : Option String) (run : List Moment) : List Instruction :=
  run.filterMap (·.emitted? place)

/-- The sequences in the order they were opened. -/
def openings (run : List Moment) : List (String × Bool) := run.filterMap (·.opening?)

/-- How a sequence was closed. -/
def closing? (name : String) (run : List Moment) : Option Ending := run.findSome? (·.ending? name)

/-- The texts in the order they were interned, each as often as it was. -/
def texts (run : List Moment) : List String := run.filterMap (·.text?)

/-- A sequence as a run tells it: its opening, what was emitted while it was the innermost open
one, and its ending if it was closed. -/
def told (run : List Moment) (o : String × Bool) : Sequence where
  name := o.1
  code := opening o.1 o.2 ++
    (emitted (some o.1) run ++ ((closing? o.1 run).map Ending.code).getD [])

@[simp] theorem emitted_snoc (place : Option String) (run : List Moment) (moment : Moment) :
    emitted place (run ++ [moment]) = emitted place run ++ (moment.emitted? place).toList := by
  cases h : moment.emitted? place <;> simp [emitted, h]

@[simp] theorem openings_snoc (run : List Moment) (moment : Moment) :
    openings (run ++ [moment]) = openings run ++ moment.opening?.toList := by
  cases h : moment.opening? <;> simp [openings, h]

@[simp] theorem closing?_snoc (name : String) (run : List Moment) (moment : Moment) :
    closing? name (run ++ [moment]) = (closing? name run).or (moment.ending? name) := by
  simp [closing?, List.findSome?_append]

@[simp] theorem texts_snoc (run : List Moment) (moment : Moment) :
    texts (run ++ [moment]) = texts run ++ moment.text?.toList := by
  cases h : moment.text? <;> simp [texts, h]

/-- Of two equal texts the first counts. -/
theorem eraseDups_snoc (earlier : List String) (text : String) :
    (earlier ++ [text]).eraseDups =
      if text ∈ earlier then earlier.eraseDups else earlier.eraseDups ++ [text] := by
  rw [List.eraseDups_append]
  by_cases hmem : text ∈ earlier <;> simp [List.removeAll, hmem, List.eraseDups_cons]

/-- Interning goes on with the texts that were not interned before. -/
theorem messages_intern_of_eraseDups {listing : Listing} {earlier : List String}
    (h : listing.messages = earlier.eraseDups) (text : String) :
    (listing.intern text).messages = (earlier ++ [text]).eraseDups := by
  rw [eraseDups_snoc, intern, h]
  by_cases hmem : text ∈ earlier <;> simp [hmem, h]

/-- A sequence is told anew when nothing is emitted to it and it is not closed. -/
theorem told_snoc_of_none {run : List Moment} {moment : Moment} {o : String × Bool}
    (hemitted : moment.emitted? (some o.1) = none) (hending : moment.ending? o.1 = none) :
    told (run ++ [moment]) o = told run o := by
  simp [told, hemitted, hending]

/-- A listing that holds what a run tells. A sequence that is open was opened and not closed, and
one that was never opened was not written to. -/
structure Tells (run : List Moment) (history : History) (listing : Listing) : Prop where
  opened : listing.opened = history.opened
  header : listing.header = ({} : Listing).header ++ emitted none run
  sequences : listing.sequences = (openings run).map (told run)
  messages : listing.messages = (texts run).eraseDups
  names : history.names = (openings run).map (·.1)
  distinct : history.names.Nodup
  opened_distinct : history.opened.Nodup
  opened_subset : history.opened ⊆ history.names
  unopened : ∀ name ∉ history.names, emitted (some name) run = [] ∧ closing? name run = none
  closed : ∀ name ∈ history.names, name ∈ history.opened ↔ closing? name run = none

namespace Tells

variable {run : List Moment} {history : History} {listing : Listing}

theorem start : Tells [] {} {} where
  opened := rfl
  header := rfl
  sequences := rfl
  messages := rfl
  names := rfl
  distinct := List.nodup_nil
  opened_distinct := List.nodup_nil
  opened_subset := List.nil_subset _
  unopened := fun _ _ => ⟨rfl, rfl⟩
  closed := fun _ h => absurd h List.not_mem_nil

theorem names_eq (h : Tells run history listing) : listing.names = history.names := by
  rw [Listing.names, h.sequences, h.names, List.map_map]
  rfl

/-- Code that goes to the innermost open sequence is told of that sequence. The moment tells the
same of every other sequence as before. -/
theorem emitAll (h : Tells run history listing) {name : String} {rest : List String}
    (hopen : history.opened = name :: rest) {moment : Moment} {code : List Instruction}
    (hcode : ∀ o : String × Bool, o.1 = name → (told (run ++ [moment]) o).code =
      (told run o).code ++ code)
    (hemitted : ∀ other, other ≠ name → moment.emitted? (some other) = none)
    (hending : ∀ other, other ≠ name → moment.ending? other = none) :
    (listing.emitAll code).sequences = (openings run).map (told (run ++ [moment])) := by
  have hlisting : listing.opened = name :: rest := h.opened.trans hopen
  simp only [Listing.emitAll, hlisting, h.sequences, List.map_map]
  apply List.map_congr_left
  intro o _
  show (if o.1 = name then (told run o).append code else told run o) = _
  split
  · rename_i hsame
    rw [Sequence.append, ← hcode o hsame]
    rfl
  · rename_i hother
    exact (told_snoc_of_none (hemitted _ hother) (hending _ hother)).symm

/-! ## §5 One operation -/

theorem emit (h : Tells run history listing) (i : Instruction) :
    Tells (run ++ [⟨history, .emit i⟩]) history (listing.emit i) := by
  have hending (name : String) : Moment.ending? name ⟨history, .emit i⟩ = none := rfl
  have hopening : Moment.opening? ⟨history, .emit i⟩ = none := rfl
  have hclosing (name : String) : closing? name (run ++ [⟨history, .emit i⟩]) =
      closing? name run := by
    simp [hending]
  have hrest : (listing.emit i).opened = history.opened := by
    rw [Listing.emit, opened_emitAll, h.opened]
  have hmessages : (listing.emit i).messages =
      (texts (run ++ [⟨history, .emit i⟩])).eraseDups := by
    simp [Listing.emit, h.messages, Moment.text?]
  have hunopened : ∀ name ∉ history.names,
      emitted (some name) (run ++ [⟨history, .emit i⟩]) = [] ∧
        closing? name (run ++ [⟨history, .emit i⟩]) = none := by
    intro name hname
    obtain ⟨hnothing, hnone⟩ := h.unopened name hname
    have hhead : history.opened.head? ≠ some name := fun hhead =>
      hname (h.opened_subset (List.mem_of_mem_head? hhead))
    exact ⟨by simp [hnothing, Moment.emitted?, hhead], by rw [hclosing, hnone]⟩
  cases hopen : history.opened with
  | nil =>
    -- Nothing is open: the instruction goes to the header.
    have hlisting : listing.opened = [] := h.opened.trans hopen
    have helsewhere (name : String) : Moment.emitted? (some name) ⟨history, .emit i⟩ = none := by
      simp [Moment.emitted?, hopen]
    refine ⟨hrest, ?_, ?_, hmessages, ?_, h.distinct, h.opened_distinct, h.opened_subset, hunopened,
      ?_⟩
    · simp [Listing.emit, Listing.emitAll, hlisting, h.header, Moment.emitted?, hopen]
    · simp only [openings_snoc, hopening, Option.toList_none, List.append_nil, Listing.emit,
        Listing.emitAll, hlisting, h.sequences]
      apply List.map_congr_left
      intro o _
      exact (told_snoc_of_none (helsewhere _) (hending _)).symm
    · simpa [hopening] using h.names
    · simpa only [hclosing] using h.closed
  | cons name rest =>
    have hlisting : listing.opened = name :: rest := h.opened.trans hopen
    refine ⟨hrest, ?_, ?_, hmessages, ?_, h.distinct, h.opened_distinct, h.opened_subset, hunopened,
      ?_⟩
    · simp [Listing.emit, Listing.emitAll, hlisting, h.header, Moment.emitted?, hopen]
    · simp only [openings_snoc, hopening, Option.toList_none, List.append_nil]
      refine h.emitAll hopen ?_ ?_ (fun _ _ => rfl)
      · -- The innermost open sequence has no ending yet, so the instruction is its last.
        intro o hname
        have hmem : name ∈ history.opened := by simp [hopen]
        have hnone := (h.closed name (h.opened_subset hmem)).1 hmem
        simp [told, hname, hnone, hending, Moment.emitted?, hopen]
      · intro other hother
        simp [Moment.emitted?, hopen, hother.symm]
    · simpa [hopening] using h.names
    · simpa only [hclosing] using h.closed

/-- A moment of which nothing is told, because only texts are stored or the operation fails. -/
theorem silent (h : Tells run history listing) {moment : Moment} {after : Listing}
    (hemitted : ∀ place, moment.emitted? place = none) (hopening : moment.opening? = none)
    (hending : ∀ name, moment.ending? name = none) (hopened : after.opened = listing.opened)
    (hheader : after.header = listing.header) (hsequences : after.sequences = listing.sequences)
    (hmessages : after.messages = (texts (run ++ [moment])).eraseDups) :
    Tells (run ++ [moment]) history after := by
  have hemitted' (place : Option String) : emitted place (run ++ [moment]) = emitted place run := by
    simp [hemitted]
  have hopenings : openings (run ++ [moment]) = openings run := by simp [hopening]
  have hclosing (name : String) : closing? name (run ++ [moment]) = closing? name run := by
    simp [hending]
  refine ⟨hopened.trans h.opened, ?_, ?_, hmessages, ?_, h.distinct, h.opened_distinct,
    h.opened_subset, ?_, ?_⟩
  · rw [hheader, h.header, hemitted']
  · rw [hsequences, h.sequences, hopenings]
    apply List.map_congr_left
    intro o _
    exact (told_snoc_of_none (hemitted _) (hending _)).symm
  · rw [hopenings, h.names]
  · simpa only [hemitted', hclosing] using h.unopened
  · simpa only [hclosing] using h.closed

theorem intern (h : Tells run history listing) (text : String) :
    Tells (run ++ [⟨history, .intern text⟩]) history (listing.intern text) := by
  have hgrows := Grows.intern listing text
  refine h.silent (fun _ => rfl) rfl (fun _ => rfl) hgrows.opened hgrows.header
    (by simpa using hgrows.sequences) ?_
  rw [texts_snoc]
  exact messages_intern_of_eraseDups h.messages text

/-- A name that is there already cannot be opened again. -/
theorem startAgain (h : Tells run history listing) {name : String} (hthere : name ∈ history.names)
    (savesLink : Bool) : Tells (run ++ [⟨history, .start name savesLink⟩]) history listing := by
  have hopening : Moment.opening? ⟨history, .start name savesLink⟩ = none := by
    simp [Moment.opening?, hthere]
  exact h.silent (fun _ => rfl) hopening (fun _ => rfl) rfl rfl rfl
    (by simp [h.messages, Moment.text?])

/-- Where nothing is open there is nothing to close. -/
theorem finishNone (h : Tells run history listing) (hopen : history.opened = [])
    (ending : Ending) : Tells (run ++ [⟨history, .finish ending⟩]) history listing := by
  have hending (name : String) : Moment.ending? name ⟨history, .finish ending⟩ = none := by
    simp [Moment.ending?, hopen]
  exact h.silent (fun _ => rfl) rfl hending rfl rfl rfl (by simp [h.messages, Moment.text?])

/-- A new sequence starts with nothing but its opening. -/
theorem startNew (h : Tells run history listing) {name : String} (hnew : name ∉ history.names)
    (savesLink : Bool) :
    Tells (run ++ [⟨history, .start name savesLink⟩])
      { names := history.names ++ [name], opened := name :: history.opened }
      { listing with
        sequences := listing.sequences ++ [{ name, code := opening name savesLink }]
        opened := name :: listing.opened } := by
  have hemitted (place : Option String) :
      emitted place (run ++ [⟨history, .start name savesLink⟩]) = emitted place run := by
    simp [Moment.emitted?]
  have hopenings : openings (run ++ [⟨history, .start name savesLink⟩]) =
      openings run ++ [(name, savesLink)] := by
    simp [Moment.opening?, hnew]
  have hclosing (other : String) :
      closing? other (run ++ [⟨history, .start name savesLink⟩]) = closing? other run := by
    simp [Moment.ending?]
  -- Nothing is told yet of a sequence under this name.
  obtain ⟨hnothing, hnone⟩ := h.unopened name hnew
  have hnotOpen : name ∉ history.opened := fun hmem => hnew (h.opened_subset hmem)
  refine ⟨by rw [h.opened], ?_, ?_, by simp [h.messages, Moment.text?], ?_, ?_, ?_, ?_, ?_, ?_⟩
  · rw [hemitted]
    exact h.header
  · show listing.sequences ++ [_] = _
    rw [hopenings, List.map_append, h.sequences]
    congr 1
    · apply List.map_congr_left
      intro o _
      exact (told_snoc_of_none rfl rfl).symm
    · simp [told, hnothing, hnone, Moment.emitted?, Moment.ending?]
  · simp [hopenings, h.names]
  · rw [List.nodup_append]
    refine ⟨h.distinct, by simp, ?_⟩
    rintro a ha b hb rfl
    exact hnew (List.mem_singleton.1 hb ▸ ha)
  · exact List.nodup_cons.2 ⟨hnotOpen, h.opened_distinct⟩
  · intro other hother
    rcases List.mem_cons.1 hother with rfl | hother
    · simp
    · exact List.mem_append_left _ (h.opened_subset hother)
  · intro other hother
    rw [hemitted, hclosing]
    exact h.unopened other fun hmem => hother (List.mem_append_left _ hmem)
  · intro other hother
    rw [hclosing]
    rcases List.mem_append.1 hother with hother | hother
    · have hne : other ≠ name := fun heq => hnew (heq ▸ hother)
      simpa [hne] using h.closed other hother
    · obtain rfl := List.mem_singleton.1 hother
      simp [hnone]

/-- The innermost open sequence gets its ending, and is open no longer. -/
theorem finishOpen (h : Tells run history listing) {name : String} {rest : List String}
    (hopen : history.opened = name :: rest) (ending : Ending) :
    Tells (run ++ [⟨history, .finish ending⟩]) { history with opened := rest }
      { listing.emitAll ending.code with opened := rest } := by
  have hmem : name ∈ history.opened := by simp [hopen]
  have hthere := h.opened_subset hmem
  -- What is open has had no ending so far.
  have hnone := (h.closed name hthere).1 hmem
  have hdistinct := h.opened_distinct
  rw [hopen, List.nodup_cons] at hdistinct
  have hemitted (place : Option String) :
      emitted place (run ++ [⟨history, .finish ending⟩]) = emitted place run := by
    simp [Moment.emitted?]
  have hopenings : openings (run ++ [⟨history, .finish ending⟩]) = openings run := by
    simp [Moment.opening?]
  have hending (other : String) : Moment.ending? other ⟨history, .finish ending⟩ =
      if other = name then some ending else none := by
    simp [Moment.ending?, hopen, eq_comm]
  refine ⟨rfl, ?_, ?_, by simp [h.messages, Moment.text?], ?_, h.distinct, hdistinct.2, ?_, ?_, ?_⟩
  · have hlisting : listing.opened = name :: rest := h.opened.trans hopen
    rw [hemitted]
    simp [Listing.emitAll, hlisting, h.header]
  · rw [hopenings]
    refine h.emitAll hopen ?_ (fun _ _ => rfl) ?_
    · intro o hname
      simp [told, hname, hnone, hending, Moment.emitted?]
    · intro other hother
      rw [hending, if_neg hother]
  · rw [hopenings, h.names]
  · intro other hother
    exact h.opened_subset (by simp [hopen, hother])
  · intro other hother
    have hne : other ≠ name := fun heq => hother (heq ▸ hthere)
    simpa [hemitted, hending, hne] using h.unopened other hother
  · intro other hother
    -- Open names are distinct, so the sequence is not open further out.
    by_cases hsame : other = name
    · subst hsame
      simp [hending, hdistinct.1, hnone]
    · have hbefore := h.closed other hother
      rw [hopen, List.mem_cons] at hbefore
      simpa [hending, hsame] using hbefore

/-- What is told of a run goes on to hold when one more operation is performed. -/
theorem perform (h : Tells run history listing) (operation : Operation) :
    Tells (run ++ [⟨history, operation⟩]) (history.next operation)
      (listing.keep (listing.apply operation)) := by
  cases operation with
  | emit i => exact h.emit i
  | intern text => exact h.intern text
  | start name savesLink =>
    by_cases hthere : name ∈ history.names
    · have hlisting : name ∈ listing.names := h.names_eq ▸ hthere
      simp only [History.next, hthere, if_true, apply, start_of_mem savesLink hlisting, keep]
      exact h.startAgain hthere savesLink
    · have hlisting : name ∉ listing.names := h.names_eq ▸ hthere
      simp only [History.next, hthere, if_false, apply, start_of_new savesLink hlisting, keep]
      exact h.startNew hthere savesLink
  | finish ending =>
    cases hopen : history.opened with
    | nil =>
      have hlisting : listing.opened = [] := h.opened.trans hopen
      have hsame : history.next (.finish ending) = history := by
        rw [History.next, hopen, List.tail_nil, ← hopen]
      simp only [hsame, apply, finish, hlisting, keep]
      exact h.finishNone hopen ending
    | cons name rest =>
      have hlisting : listing.opened = name :: rest := h.opened.trans hopen
      simp only [History.next, hopen, List.tail_cons, apply, finish, hlisting, keep]
      exact h.finishOpen hopen ending

/-! ## §6 Whole runs -/

/-- What is told of a run goes on to hold however many operations follow. -/
theorem performAll (h : Tells run history listing) (operations : List Operation) :
    Tells (run ++ moments history operations) (history.after operations)
      (listing.performAll operations) := by
  induction operations generalizing run history listing with
  | nil => simpa [moments, History.after] using h
  | cons operation rest ih =>
    have hrest := ih (h.perform operation)
    rw [List.append_assoc] at hrest
    exact hrest

end Tells

/-- What is told of the requests made of a new listing. -/
theorem tells_serveAll (requests : List Request) :
    Tells (moments {} (operationsOf {} requests)) (History.after {} (operationsOf {} requests))
      (({} : Listing).serveAll requests) := by
  rw [serveAll_eq]
  exact Tells.start.performAll _

/-! ## §7 The written program -/

/-- A run that tells the same and opens one sequence after the other: the header first, then each
sequence in one piece, then the texts. A sequence that was left open ends with nothing. -/
def unnested (run : List Moment) : List Operation :=
  (emitted none run).map .emit ++
    ((openings run).flatMap fun o =>
      block o.1 o.2 (emitted (some o.1) run) ((closing? o.1 run).getD .none)) ++
    (texts run).map .intern

/-- Blocks with new and distinct names are so many more sequences. -/
theorem performAll_blocks {run : List Moment} {os : List (String × Bool)} {listing : Listing}
    (hnew : ∀ o ∈ os, o.1 ∉ listing.names) (hdistinct : (os.map (·.1)).Nodup) :
    listing.performAll (os.flatMap fun o =>
        block o.1 o.2 (emitted (some o.1) run) ((closing? o.1 run).getD .none)) =
      { listing with sequences := listing.sequences ++ os.map (told run) } := by
  induction os generalizing listing with
  | nil => simp
  | cons o rest ih =>
    rw [List.map_cons, List.nodup_cons] at hdistinct
    have hcode : ((closing? o.1 run).getD .none).code =
        ((closing? o.1 run).map Ending.code).getD [] := by
      cases closing? o.1 run <;> rfl
    rw [List.flatMap_cons, performAll_append, performAll_block (hnew o (by simp)), hcode]
    rw [ih ?_ hdistinct.2]
    · simp [told]
    · intro other hother hmem
      simp only [Listing.names, List.map_append, List.map_cons, List.map_nil, List.mem_append,
        List.mem_singleton] at hmem
      rcases hmem with hmem | hsame
      · exact hnew other (List.mem_cons_of_mem _ hother) hmem
      · exact hdistinct.1 (List.mem_map.2 ⟨other, hother, hsame⟩)

/-- Interning texts one after the other. -/
theorem messages_internAll {listing : Listing} {earlier : List String}
    (h : listing.messages = earlier.eraseDups) (texts : List String) :
    (texts.foldl intern listing).messages = (earlier ++ texts).eraseDups := by
  induction texts generalizing listing earlier with
  | nil => simpa using h
  | cons text rest ih =>
    rw [List.foldl_cons, ih (messages_intern_of_eraseDups h text), List.append_assoc]
    rfl

/-- Opening one sequence after the other gives the same listing, with nothing left open. -/
theorem Tells.unnested {run : List Moment} {history : History} {listing : Listing}
    (h : Tells run history listing) :
    ({} : Listing).performAll (Listing.unnested run) = { listing with opened := [] } := by
  have hdistinct : ((openings run).map (·.1)).Nodup := h.names ▸ h.distinct
  let filled : Listing := { ({} : Listing) with
    header := listing.header
    sequences := listing.sequences }
  have hblocks : ({} : Listing).performAll ((emitted none run).map .emit ++
      ((openings run).flatMap fun o =>
        block o.1 o.2 (emitted (some o.1) run) ((closing? o.1 run).getD .none))) = filled := by
    rw [performAll_append, performAll_emits,
      performAll_blocks (by simp [Listing.names, Listing.emitAll]) hdistinct]
    simp [Listing.emitAll, filled, h.header, h.sequences]
  have hgrows := (Grows.internAll filled (texts run)).1
  rw [Listing.unnested, performAll_append, hblocks, performAll_interns]
  -- Interning leaves all but the texts as it was.
  have hheader := hgrows.header
  have hopened := hgrows.opened
  have hsequences : ((texts run).foldl Listing.intern filled).sequences = filled.sequences := by
    simpa using hgrows.sequences
  have hempty : filled.messages = ([] : List String).eraseDups := rfl
  have hmessages := messages_internAll hempty (texts run)
  generalize (texts run).foldl Listing.intern filled = after at *
  obtain ⟨header, sequences, opened, messages⟩ := after
  simp only at hheader hopened hsequences hmessages
  rw [hheader, hopened, hsequences, hmessages, List.nil_append, ← h.messages]

end Listing

end ArmCompiler
