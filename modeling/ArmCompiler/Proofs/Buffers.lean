import ArmCompiler.Buffer
import ArmCompiler.Proofs.Operations
import Mathlib.Algebra.Group.Nat.Defs
import Mathlib.Data.List.Nodup

/-!
# Buffers and Listings

The tables of a buffer stay inverse to the lists beside them, and its open positions stay inside
the sequences. A buffer whose tables are right stands for a listing, and each edit then does to the
buffer what the operation of that name does to the listing. An edit that fails has not changed the
buffer. Main statement: `requests_told`.

## Contents
- §1: tables
- §2: the listing of a buffer
- §3: single edits
- §4: operations
- §5: requests
- §6: what requests leave in a buffer
-/

namespace ArmCompiler

/-! ## §1 Tables -/

/-- A table that finds each item of a list at its place, and nothing else. -/
def Inverts (table : List (String × Nat)) (items : List String) : Prop :=
  ∀ item place, table.lookup item = some place ↔ items[place]? = some item

namespace Inverts

variable {table : List (String × Nat)} {items : List String} {item : String}

theorem nil : Inverts [] [] := fun _ _ => by simp

theorem isSome_iff (h : Inverts table items) : (table.lookup item).isSome ↔ item ∈ items := by
  rw [Option.isSome_iff_exists, List.mem_iff_getElem?]
  exact exists_congr fun place => h item place

/-- An item has one entry in the table, so it is in the list only once. -/
theorem nodup (h : Inverts table items) : items.Nodup := by
  rw [List.nodup_iff_getElem?_ne_getElem?]
  intro i j hlt hj hsame
  have hi : items[i]? = some items[j] := hsame.trans (List.getElem?_eq_getElem hj)
  have hplace := ((h _ i).2 hi).symm.trans ((h _ j).2 (List.getElem?_eq_getElem hj))
  exact Nat.ne_of_lt hlt (Option.some.inj hplace)

theorem lookup_of_mem (h : Inverts table items) (hmem : item ∈ items) :
    table.lookup item = some (items.idxOf item) :=
  (h _ _).2 (List.getElem?_idxOf hmem)

theorem lookup_of_not_mem (h : Inverts table items) (hnew : item ∉ items) :
    table.lookup item = none := by
  rw [← Option.not_isSome_iff_eq_none, h.isSome_iff]
  exact hnew

/-- A new item goes to the end of the list. -/
theorem snoc (h : Inverts table items) (hnew : item ∉ items) :
    Inverts ((item, items.length) :: table) (items ++ [item]) := by
  intro other place
  rw [List.lookup_cons]
  by_cases hsame : other = item
  · subst hsame
    simp only [beq_self_eq_true, Option.some.injEq]
    constructor
    · rintro rfl
      simp
    · intro hplace
      rcases Nat.lt_trichotomy place items.length with hlt | heq | hgt
      · rw [List.getElem?_append_left hlt] at hplace
        exact absurd (List.mem_of_getElem? hplace) hnew
      · exact heq.symm
      · have hout := (List.getElem?_eq_some_iff.1 hplace).1
        simp only [List.length_append, List.length_singleton] at hout
        omega
  · rw [beq_false_of_ne hsame]
    refine (h other place).trans ?_
    by_cases hlt : place < items.length
    · rw [List.getElem?_append_left hlt]
    · have hout : items[place]? = none := List.getElem?_eq_none (Nat.le_of_not_lt hlt)
      rw [hout, List.getElem?_append_right (Nat.le_of_not_lt hlt)]
      simp only [reduceCtorEq, false_iff]
      intro hplace
      exact hsame (List.mem_singleton.1 (List.mem_of_getElem? hplace))

end Inverts

namespace Buffer

/-! ## §2 The listing of a buffer -/

/-- The listing that a buffer stands for. What is open is told by name. -/
def listing (buffer : Buffer) : Listing where
  header := buffer.header
  sequences := buffer.sequences
  opened := buffer.opened.map fun position => buffer.names.getD position ""
  messages := buffer.messages

/-- A buffer whose tables are right and whose open positions are those of sequences. -/
structure Sound (buffer : Buffer) : Prop where
  positions : Inverts buffer.positions buffer.names
  opened : ∀ position ∈ buffer.opened, position < buffer.names.length
  numbers : Inverts buffer.numbers buffer.messages

/-- A sound buffer that stands for a listing. -/
def Shows (buffer : Buffer) (listing : Listing) : Prop := buffer.Sound ∧ buffer.listing = listing

theorem shows_new : Shows {} {} :=
  ⟨⟨.nil, fun _ hmem => absurd hmem List.not_mem_nil, .nil⟩, rfl⟩

variable {buffer : Buffer} {listing : Listing} {name : String}

theorem Shows.names (h : buffer.Shows listing) : buffer.names = listing.names := by
  rw [← h.2]
  rfl

theorem Shows.messages (h : buffer.Shows listing) : buffer.messages = listing.messages := by
  rw [← h.2]
  rfl

theorem has_iff (h : buffer.Sound) : buffer.has name = true ↔ name ∈ buffer.names :=
  h.positions.isSome_iff

/-- A sequence is found at the position of its name. -/
theorem sequence?_eq (h : buffer.Sound) (name : String) :
    buffer.sequence? name = buffer.listing.sequence? name := by
  by_cases hmem : name ∈ buffer.names
  · obtain ⟨sequence, hsequence, rfl⟩ := List.mem_map.1 hmem
    obtain ⟨position, hposition⟩ := List.mem_iff_getElem?.1 hsequence
    have hname : buffer.names[position]? = some sequence.name := by
      rw [names, List.getElem?_map, hposition]
      rfl
    rw [sequence?, (h.positions _ _).2 hname, Option.bind_some, hposition]
    exact (@Listing.sequence?_of_mem buffer.listing _ h.positions.nodup hsequence).symm
  · have habsent : buffer.listing.sequence? name = none := by
      rw [← Option.not_isSome_iff_eq_none]
      exact fun hthere => hmem (Listing.has_iff.1 hthere)
    rw [sequence?, h.positions.lookup_of_not_mem hmem, habsent]
    rfl

/-! ## §3 Single edits -/

/-- The buffer with more instructions in its innermost open sequence, or in its header. -/
def appended (buffer : Buffer) (code : List Instruction) : Buffer :=
  match buffer.opened with
  | [] => { buffer with header := buffer.header ++ code }
  | position :: _ => { buffer with sequences := buffer.sequences.modify position (·.append code) }

theorem run_emit (buffer : Buffer) (i : Instruction) :
    (emit i).run buffer = .ok () (buffer.appended [i]) := rfl

@[simp] theorem opened_appended (buffer : Buffer) (code : List Instruction) :
    (buffer.appended code).opened = buffer.opened := by
  unfold appended
  split <;> rfl

theorem appended_nil (buffer : Buffer) : buffer.appended [] = buffer := by
  unfold appended
  split
  · simp
  · have hsame : (fun sequence : Sequence => sequence.append []) = id := by
      funext sequence
      exact sequence.append_nil
    rw [hsame, List.modify_id]

theorem appended_appended (buffer : Buffer) (a b : List Instruction) :
    (buffer.appended a).appended b = buffer.appended (a ++ b) := by
  cases hopened : buffer.opened with
  | nil => simp [appended, hopened]
  | cons position rest =>
    simp only [appended, hopened, List.modify_modify_eq]
    congr 2
    funext sequence
    exact sequence.append_append a b

theorem run_emitAll (buffer : Buffer) (code : List Instruction) :
    (emitAll code).run buffer = .ok () (buffer.appended code) := by
  induction code generalizing buffer with
  | nil => rw [appended_nil]; rfl
  | cons i rest ih =>
    show (emit i >>= fun _ => emitAll rest).run buffer = _
    rw [EStateM.run_bind, run_emit]
    show (emitAll rest).run (buffer.appended [i]) = _
    rw [ih, appended_appended]
    rfl

/-- Appending does not touch the names. -/
theorem names_appended (buffer : Buffer) (code : List Instruction) :
    (buffer.appended code).names = buffer.names := by
  unfold appended
  split
  · rfl
  · apply List.ext_getElem?
    intro place
    rw [names, List.getElem?_map, List.getElem?_modify, names, List.getElem?_map]
    cases buffer.sequences[place]? with
    | none => rfl
    | some sequence => split <;> rfl

/-- Only one sequence has the name at a position, so going by position is going by name. -/
theorem modify_eq_map (h : buffer.Sound) {position : Nat}
    (hposition : position < buffer.names.length) (f : Sequence → Sequence) :
    buffer.sequences.modify position f = buffer.sequences.map fun sequence =>
      if sequence.name = buffer.names.getD position "" then f sequence else sequence := by
  have hname : buffer.names[position]? = some (buffer.names.getD position "") := by
    simp [List.getD, hposition]
  apply List.ext_getElem?
  intro place
  rw [List.getElem?_modify, List.getElem?_map]
  cases hplace : buffer.sequences[place]? with
  | none => rfl
  | some sequence =>
    have hsequence : buffer.names[place]? = some sequence.name := by
      rw [names, List.getElem?_map, hplace]
      rfl
    have hiff : position = place ↔ sequence.name = buffer.names.getD position "" := by
      constructor
      · rintro rfl
        exact Option.some.inj (hsequence.symm.trans hname)
      · intro hsame
        rw [← hsame] at hname
        exact Option.some.inj
          (((h.positions _ _).2 hname).symm.trans ((h.positions _ _).2 hsequence))
    by_cases hsame : position = place
    · simp only [if_pos hsame, if_pos (hiff.1 hsame), Option.map_some, Option.map_eq_map]
    · simp only [if_neg hsame, if_neg (mt hiff.2 hsame), Option.map_some, Option.map_eq_map]

theorem Shows.appended (h : buffer.Shows listing) (code : List Instruction) :
    (buffer.appended code).Shows (listing.emitAll code) := by
  obtain ⟨hsound, rfl⟩ := h
  have hnames := names_appended buffer code
  have hsame : (buffer.appended code).positions = buffer.positions ∧
      (buffer.appended code).numbers = buffer.numbers ∧
      (buffer.appended code).messages = buffer.messages := by
    unfold Buffer.appended
    split <;> exact ⟨rfl, rfl, rfl⟩
  refine ⟨⟨?_, ?_, ?_⟩, ?_⟩
  · rw [hsame.1, hnames]
    exact hsound.positions
  · rw [opened_appended, hnames]
    exact hsound.opened
  · rw [hsame.2.1, hsame.2.2]
    exact hsound.numbers
  · rw [Buffer.listing, hnames, opened_appended, hsame.2.2]
    cases hopened : buffer.opened with
    | nil => simp [Buffer.appended, Listing.emitAll, Buffer.listing, hopened]
    | cons position rest =>
      have hposition := hsound.opened position (by simp [hopened])
      simp only [Buffer.appended, Listing.emitAll, Buffer.listing, hopened, List.map_cons,
        modify_eq_map hsound hposition]

/-- A name that is there cannot be opened again. Nothing has been changed when that is found. -/
theorem run_start_of_mem (hthere : buffer.has name = true) (savesLink : Bool) :
    (start name savesLink).run buffer =
      .error (.internal (.duplicateSequence name)) buffer := by
  simp [start, hthere]

/-- The buffer with a new sequence, which is open. -/
def started (buffer : Buffer) (name : String) (savesLink : Bool) : Buffer := { buffer with
  sequences := buffer.sequences ++ [{ name, code := Listing.opening name savesLink }]
  positions := (name, buffer.sequences.length) :: buffer.positions
  opened := buffer.sequences.length :: buffer.opened }

/-- The sequence at the end is the one at the position after all the others. -/
theorem modify_snoc (sequences : List Sequence) (sequence : Sequence) (f : Sequence → Sequence) :
    (sequences ++ [sequence]).modify sequences.length f = sequences ++ [f sequence] := by
  induction sequences with
  | nil => rfl
  | cons first rest ih => simpa using ih

theorem run_start_of_new (hnew : buffer.has name = false) (savesLink : Bool) :
    (start name savesLink).run buffer = .ok () (buffer.started name savesLink) := by
  cases savesLink <;>
    simp [start, hnew, run_emit, appended, started, Listing.opening, Sequence.append, modify_snoc]

theorem Shows.started (h : buffer.Shows listing) (hnew : name ∉ buffer.names) (savesLink : Bool) :
    (buffer.started name savesLink).Shows { listing with
      sequences := listing.sequences ++ [{ name, code := Listing.opening name savesLink }]
      opened := name :: listing.opened } := by
  obtain ⟨hsound, rfl⟩ := h
  have hlength : buffer.names.length = buffer.sequences.length := List.length_map ..
  have hnames : (buffer.started name savesLink).names = buffer.names ++ [name] := by
    simp [Buffer.started, Buffer.names]
  refine ⟨⟨?_, ?_, hsound.numbers⟩, ?_⟩
  · rw [hnames]
    show Inverts ((name, buffer.sequences.length) :: buffer.positions) _
    rw [← hlength]
    exact hsound.positions.snoc hnew
  · intro position hmem
    rw [hnames, List.length_append, List.length_singleton]
    rcases List.mem_cons.1 hmem with rfl | hmem
    · omega
    · have := hsound.opened position hmem
      omega
  · have hopened : (buffer.started name savesLink).opened.map
        (fun position => (buffer.names ++ [name]).getD position "") =
        name :: buffer.listing.opened := by
      show List.map _ (buffer.sequences.length :: buffer.opened) = _
      rw [List.map_cons]
      congr 1
      · simp [List.getD, ← hlength]
      · apply List.map_congr_left
        intro position hmem
        simp [List.getD, List.getElem?_append_left (hsound.opened position hmem)]
    rw [Buffer.listing, hnames, hopened]
    rfl

/-- Where nothing is open nothing can be closed. Nothing has been changed when that is found. -/
theorem run_finish_of_nil (hopened : buffer.opened = []) (ending : Ending) :
    (finish ending).run buffer = .error (.internal .noOpenSequence) buffer := by
  simp [finish, hopened]

theorem run_finish_of_cons {position : Nat} {rest : List Nat}
    (hopened : buffer.opened = position :: rest) (ending : Ending) :
    (finish ending).run buffer = .ok () { buffer.appended ending.code with opened := rest } := by
  simp [finish, hopened, run_emitAll]

theorem Shows.finished {position : Nat} {rest : List Nat} (h : buffer.Shows listing)
    (hopened : buffer.opened = position :: rest) (code : List Instruction) :
    Shows { buffer.appended code with opened := rest }
      { listing.emitAll code with opened := listing.opened.tail } := by
  obtain ⟨hsound, hlisting⟩ := h.appended code
  have hbefore : listing.opened.tail = rest.map fun p => buffer.names.getD p "" := by
    rw [← h.2, Buffer.listing, hopened]
    rfl
  refine ⟨⟨hsound.positions, ?_, hsound.numbers⟩, ?_⟩
  · intro p hp
    exact hsound.opened p (by simp [hopened, hp])
  · rw [← hlisting, hbefore, ← names_appended buffer code]
    rfl

/-- A text that is stored already is found by its number. -/
theorem run_intern_of_mem (h : buffer.Sound) {text : String} (hmem : text ∈ buffer.messages) :
    (intern text).run buffer = .ok (buffer.listing.messageLabel text) buffer := by
  simp [intern, h.numbers.lookup_of_mem hmem, Listing.messageLabel, Buffer.listing]

/-- A new text gets the next number. -/
theorem run_intern_of_new (h : buffer.Sound) {text : String} (hnew : text ∉ buffer.messages) :
    (intern text).run buffer = .ok (buffer.listing.messageLabel text) { buffer with
      messages := buffer.messages ++ [text]
      numbers := (text, buffer.messages.length) :: buffer.numbers } := by
  have hnext : buffer.messages.idxOf text = buffer.messages.length := List.idxOf_eq_length hnew
  rw [Listing.messageLabel, Buffer.listing, hnext]
  simp only [intern, EStateM.run_bind, EStateM.run_get, h.numbers.lookup_of_not_mem hnew]
  rfl

/-- Interning answers with the label of the text, and stores what the listing stores. -/
theorem run_intern (h : buffer.Shows listing) (text : String) :
    ∃ edited, (intern text).run buffer = .ok (listing.messageLabel text) edited ∧
      edited.Shows (listing.intern text) := by
  obtain ⟨hsound, rfl⟩ := h
  by_cases hmem : text ∈ buffer.messages
  · refine ⟨buffer, run_intern_of_mem hsound hmem, hsound, ?_⟩
    exact (if_pos hmem).symm
  · refine ⟨_, run_intern_of_new hsound hmem, ⟨hsound.positions, hsound.opened,
      hsound.numbers.snoc hmem⟩, ?_⟩
    exact (if_neg hmem).symm

end Buffer

/-! ## §4 Operations -/

namespace Listing

/-- The edit of an operation. -/
def Operation.edit : Operation → Edit Unit
  | .emit i => Buffer.emit i
  | .start name savesLink => Buffer.start name savesLink
  | .finish ending => Buffer.finish ending
  | .intern text => discard (Buffer.intern text)

/-- The edit of a request. -/
def Request.edit : Request → Edit Unit
  | .plain operation => operation.edit
  | .routine r => discard (Buffer.require r)

end Listing

namespace Buffer

open Listing (Operation Request)

variable {α β : Type} {buffer : Buffer} {listing : Listing} {name : String}

/-- The buffer after operations. -/
def performAll (buffer : Buffer) (operations : List Operation) : Buffer :=
  operations.foldl (fun b operation => b.after operation.edit) buffer

/-- The buffer after requests. -/
def serveAll (buffer : Buffer) (requests : List Request) : Buffer :=
  requests.foldl (fun b request => b.after request.edit) buffer

@[simp] theorem performAll_append (buffer : Buffer) (a b : List Operation) :
    buffer.performAll (a ++ b) = (buffer.performAll a).performAll b :=
  List.foldl_append

theorem after_of_ok {edit : Edit α} {a : α} {edited : Buffer}
    (h : edit.run buffer = .ok a edited) : buffer.after edit = edited := by
  rw [after, h]

theorem after_of_error {edit : Edit α} {e : CompileError} {edited : Buffer}
    (h : edit.run buffer = .error e edited) : buffer.after edit = edited := by
  rw [after, h]

theorem run_discard {edit : Edit α} {a : α} {edited : Buffer}
    (h : edit.run buffer = .ok a edited) : (discard edit).run buffer = .ok () edited := by
  show (edit >>= fun _ => pure ()).run buffer = _
  rw [EStateM.run_bind, h]
  rfl

/-- An edit does to a buffer what an outcome says of the listing. Where the listing is refused the
change, the buffer has not been changed. -/
def Follows (edit : Edit Unit) (buffer : Buffer) : Except CompileError Listing → Prop
  | .ok listing => ∃ edited, edit.run buffer = .ok () edited ∧ edited.Shows listing
  | .error e => edit.run buffer = .error e buffer

theorem Follows.shows_after {edit : Edit Unit} {outcome : Except CompileError Listing}
    (h : Follows edit buffer outcome) (hshows : buffer.Shows listing) :
    (buffer.after edit).Shows (listing.keep outcome) := by
  cases outcome with
  | ok next =>
    obtain ⟨edited, hrun, hedited⟩ := h
    rw [after_of_ok hrun]
    exact hedited
  | error e =>
    rw [after_of_error h]
    exact hshows

theorem Follows.error_iff {edit : Edit Unit} {outcome : Except CompileError Listing}
    (h : Follows edit buffer outcome) {e : CompileError} {edited : Buffer} :
    edit.run buffer = .error e edited ↔ edited = buffer ∧ outcome = .error e := by
  cases outcome with
  | ok next =>
    obtain ⟨_, hrun, -⟩ := h
    simp [hrun]
  | error e' =>
    have hrun : edit.run buffer = .error e' buffer := h
    rw [hrun]
    constructor
    · intro hsame
      cases hsame
      exact ⟨rfl, rfl⟩
    · rintro ⟨rfl, hsame⟩
      cases hsame
      rfl

/-- One operation, on a buffer and on the listing it stands for. -/
theorem Shows.operation (h : buffer.Shows listing) (operation : Operation) :
    Follows operation.edit buffer (listing.apply operation) := by
  cases operation with
  | emit i => exact ⟨_, run_emit buffer i, h.appended [i]⟩
  | intern text =>
    obtain ⟨edited, hrun, hedited⟩ := run_intern h text
    exact ⟨edited, run_discard hrun, hedited⟩
  | start name savesLink =>
    by_cases hthere : name ∈ buffer.names
    · rw [Listing.apply, Listing.start_of_mem savesLink (h.names ▸ hthere)]
      exact run_start_of_mem ((has_iff h.1).2 hthere) savesLink
    · rw [Listing.apply, Listing.start_of_new savesLink (h.names ▸ hthere)]
      have hnew : buffer.has name = false := Bool.eq_false_iff.2 (mt (has_iff h.1).1 hthere)
      exact ⟨_, run_start_of_new hnew savesLink, h.started hthere savesLink⟩
  | finish ending =>
    cases hopened : buffer.opened with
    | nil =>
      have hnone : listing.opened = [] := by rw [← h.2, Buffer.listing, hopened]; rfl
      simp only [Listing.apply, Listing.finish, hnone]
      exact run_finish_of_nil hopened ending
    | cons position rest =>
      have hsome : listing.opened = buffer.names.getD position "" :: listing.opened.tail := by
        rw [← h.2, Buffer.listing, hopened]
        rfl
      rw [Listing.apply, Listing.finish, hsome]
      exact ⟨_, run_finish_of_cons hopened ending, h.finished hopened ending.code⟩

/-- Operations, on a buffer and on the listing it stands for. -/
theorem Shows.performAll (h : buffer.Shows listing) (operations : List Operation) :
    (buffer.performAll operations).Shows (listing.performAll operations) := by
  induction operations generalizing buffer listing with
  | nil => exact h
  | cons operation rest ih => exact ih ((h.operation operation).shows_after h)

/-! ## §5 Requests -/

/-- An edit that succeeds, and leaves behind what operations leave behind. -/
def Performs (edit : Edit α) (buffer : Buffer) (a : α) (operations : List Operation) : Prop :=
  edit.run buffer = .ok a (buffer.performAll operations)

namespace Performs

theorem pure (a : α) : Performs (Pure.pure a) buffer a [] := rfl

theorem bind {edit : Edit α} {next : α → Edit β} {a : α} {b : β} {first second : List Operation}
    (hedit : Performs edit buffer a first)
    (hnext : Performs (next a) (buffer.performAll first) b second) :
    Performs (edit >>= next) buffer b (first ++ second) := by
  rw [Performs, EStateM.run_bind, hedit, performAll_append]
  exact hnext

/-- An answer that is made from another. -/
theorem andReturn {edit : Edit α} {a : α} {operations : List Operation}
    (hedit : Performs edit buffer a operations) (f : α → β) :
    Performs (edit >>= fun a => Pure.pure (f a)) buffer (f a) operations := by
  rw [Performs, EStateM.run_bind, hedit]
  rfl

/-- An operation that the listing is not refused. -/
theorem operation (h : buffer.Shows listing) {operation : Operation} {next : Listing}
    (happly : listing.apply operation = .ok next) :
    Performs operation.edit buffer () [operation] := by
  have hfollows := h.operation operation
  rw [happly] at hfollows
  obtain ⟨edited, hrun, -⟩ := hfollows
  rw [Performs, hrun]
  exact congrArg _ (after_of_ok hrun).symm

theorem finish {rest : List String} (h : buffer.Shows listing)
    (hopened : listing.opened = name :: rest) (ending : Ending) :
    Performs (Buffer.finish ending) buffer () [.finish ending] := by
  have happly : listing.apply (.finish ending) =
      .ok { listing.emitAll ending.code with opened := rest } := by
    simp only [Listing.apply, Listing.finish, hopened]
  exact operation h happly

theorem emitAll (buffer : Buffer) (code : List Instruction) :
    Performs (Buffer.emitAll code) buffer () (code.map .emit) := by
  induction code generalizing buffer with
  | nil => exact pure ()
  | cons i rest ih =>
    have hfirst : Performs (Buffer.emit i) buffer () [.emit i] := run_emit buffer i
    exact hfirst.bind (ih _)

theorem intern (h : buffer.Shows listing) (text : String) :
    Performs (Buffer.intern text) buffer (listing.messageLabel text) [.intern text] := by
  obtain ⟨edited, hrun, -⟩ := run_intern h text
  rw [Performs, hrun]
  exact congrArg _ (after_of_ok (run_discard hrun)).symm

/-- Texts that are interned one after the other get the labels that they have in the end. -/
theorem internAll (h : buffer.Shows listing) (texts : List String) :
    Performs (texts.mapM Buffer.intern) buffer
      (texts.map (texts.foldl Listing.intern listing).messageLabel) (texts.map .intern) := by
  induction texts generalizing buffer listing with
  | nil => exact pure []
  | cons text rest ih =>
    have hlater : (listing.intern text).messages <+:
        (rest.foldl Listing.intern (listing.intern text)).messages :=
      (Listing.Grows.internAll (listing.intern text) rest).1.messages
    have hlabel : listing.messageLabel text =
        (rest.foldl Listing.intern (listing.intern text)).messageLabel text := by
      rw [Listing.messageLabel_of_mem hlater (Listing.mem_messages_intern listing text),
        Listing.messageLabel_intern]
    rw [List.mapM_cons, List.foldl_cons, List.map_cons, List.map_cons, ← hlabel]
    exact (intern h text).bind ((ih (h.performAll [.intern text])).andReturn _)

end Performs

/-- The labels of texts, given one by one, are found again. -/
theorem labelling_map (label : String → String) {texts : List String} {text : String}
    (hmem : text ∈ texts) : labelling texts (texts.map label) text = label text := by
  induction texts with
  | nil => cases hmem
  | cons first rest ih =>
    rw [labelling, List.map_cons, List.zip_cons_cons, List.lookup_cons]
    by_cases hsame : text = first
    · simp [hsame]
    · rw [beq_false_of_ne hsame]
      exact ih ((List.mem_cons.1 hmem).resolve_left hsame)

/-- A routine that is not there is added by its operations. -/
theorem performs_define (h : buffer.Shows listing) {r : Routine} (hnew : r.label ∉ listing.names) :
    Performs (define r) buffer () (listing.defining r) := by
  let base := r.texts.foldl Listing.intern listing
  have hbase : (buffer.performAll (r.texts.map .intern)).Shows base := by
    have := h.performAll (r.texts.map .intern)
    rwa [Listing.performAll_interns] at this
  have hnames : base.names = listing.names := by
    simpa using (Listing.Grows.internAll listing r.texts).1.names_eq
  have hbody : r.body (labelling r.texts (r.texts.map base.messageLabel)) =
      r.body base.messageLabel :=
    r.body_congr fun text hmem => labelling_map _ hmem
  have hstart : base.apply (.start r.label r.returns) = _ :=
    Listing.start_of_new r.returns (hnames ▸ hnew)
  -- The sequence of the routine is open while its code is emitted, so it can be closed.
  have hopen := hbase.performAll (.start r.label r.returns :: (r.body base.messageLabel).map .emit)
  rw [Listing.performAll_cons, Listing.performAll_emits, hstart] at hopen
  refine (Performs.internAll h r.texts).bind (.bind (.operation hbase hstart) ?_)
  rw [hbody]
  exact (Performs.emitAll _ _).bind (.finish hopen (Listing.opened_emitAll _ _) r.ending)

/-- Asking for the routines of a chain never fails, and performs its operations. -/
theorem performs_requireChain (chain : List Routine) (h : buffer.Shows listing) :
    Performs (requireChain chain) buffer () (listing.requiring chain) := by
  induction chain generalizing buffer listing with
  | nil => exact .pure ()
  | cons r rest ih =>
    have hhas : buffer.has r.label = listing.has r.label := by
      rw [Bool.eq_iff_iff, has_iff h.1, Listing.has_iff, h.names]
    rw [Performs, requireChain, EStateM.run_bind, EStateM.run_get]
    by_cases hthere : listing.has r.label
    · simp [hhas, hthere, Listing.requiring, performAll]
    · have hnew : r.label ∉ listing.names := fun hmem => hthere (Listing.has_iff.2 hmem)
      simp only [hhas, hthere, Listing.requiring, Bool.false_eq_true, if_false]
      exact (performs_define h hnew).bind (ih (h.performAll _))

theorem performs_require (h : buffer.Shows listing) (r : Routine) :
    Performs (require r) buffer r.label (listing.requiring r.chain) :=
  (performs_requireChain r.chain h).andReturn fun _ => r.label

/-- A request leaves behind what its operations leave behind. -/
theorem after_request (h : buffer.Shows listing) (request : Request) :
    buffer.after request.edit = buffer.performAll (request.operations listing) := by
  cases request with
  | plain operation => rfl
  | routine r => exact after_of_ok (run_discard (performs_require h r))

/-- One request, of a buffer and of the listing it stands for. -/
theorem Shows.request (h : buffer.Shows listing) (request : Request) :
    Follows request.edit buffer (listing.answer request) := by
  cases request with
  | plain operation => exact h.operation operation
  | routine r =>
    rw [Listing.answer, Listing.require, Listing.requireChain_eq]
    exact ⟨_, run_discard (performs_require h r), h.performAll _⟩

/-- Requests leave behind what their operations leave behind. -/
theorem serveAll_eq (h : buffer.Shows listing) (requests : List Request) :
    buffer.serveAll requests = buffer.performAll (listing.operationsOf requests) := by
  induction requests generalizing buffer listing with
  | nil => rfl
  | cons request rest ih =>
    rw [Listing.operationsOf, performAll_append, ← after_request h]
    exact ih ((h.request request).shows_after h)

/-- Requests, of a buffer and of the listing it stands for. -/
theorem Shows.serveAll (h : buffer.Shows listing) (requests : List Request) :
    (buffer.serveAll requests).Shows (listing.serveAll requests) := by
  rw [serveAll_eq h, Listing.serveAll_eq]
  exact h.performAll _

/-! ## §6 What requests leave in a buffer -/

/-- The lines of a program, with the entries of the data section written out. -/
theorem instructions_eq (buffer : Buffer) :
    buffer.instructions = buffer.header ++ buffer.sequences.flatMap (·.code) ++
      (if buffer.messages = [] then [] else .directive .dataSection ::
        (buffer.messages.mapIdx fun i text =>
          [.label ("msg_" ++ i.repr), .directive (.word (UInt32.ofNat text.utf8ByteSize)),
            .directive (.ascii (Escape.encode text))]).flatten) := by
  rw [instructions]
  simp only [List.isEmpty_iff]
  rfl

/-- A word holds a length that is below 2 ^ 32. -/
theorem toNat_word_iff (length : Nat) : (UInt32.ofNat length).toNat = length ↔ length < 2 ^ 32 := by
  rw [UInt32.toNat_ofNat']
  exact ⟨fun hsame => hsame ▸ Nat.mod_lt _ (by decide), Nat.mod_eq_of_lt⟩

theorem render_listing (buffer : Buffer) : buffer.listing.render = buffer.render := by
  have hdata : buffer.listing.dataSection = if buffer.messages.isEmpty then [] else
      .directive .dataSection :: (buffer.messages.mapIdx Listing.messageEntry).flatten := by
    cases hmessages : buffer.messages <;> simp [Listing.dataSection, Buffer.listing, hmessages]
  rw [Listing.render, Listing.instructions, hdata]
  rfl

/-- The open sequences by name, innermost first. -/
theorem Shows.opened_names (h : buffer.Shows listing) :
    buffer.opened.map (buffer.names[·]?) = listing.opened.map some := by
  rw [← h.2, Buffer.listing, List.map_map]
  apply List.map_congr_left
  intro position hmem
  have hposition := h.1.opened position hmem
  simp [List.getD, hposition]

open Listing

/-- What requests leave in a buffer, told from the operations they perform. The sequences have
distinct names, stand in the order they were opened and are found by their names. Each is its label,
the saving of the link register if it was asked for, what was emitted while it was the innermost open
one, and its ending once it is closed; what was emitted while nothing was open is in the header. A
name that is there cannot be opened, and where nothing is open nothing can be closed; either attempt
fails and leaves the whole buffer as it was, and no other request fails. The written program is the
header, the sequences in order and in one piece each, and the data section, and it is the same text
as if no sequence had been opened inside another. -/
theorem requests_told (requests : List Request) :
    let buffer := ({} : Buffer).serveAll requests
    let operations := operationsOf {} requests
    let run := moments {} operations
    let opened := (History.after {} operations).opened
    let stored := (texts run).eraseDups
    let data : List Instruction := (stored.mapIdx fun i text =>
      [.label ("msg_" ++ i.repr), .directive (.word (UInt32.ofNat text.utf8ByteSize)),
        .directive (.ascii (Escape.encode text))]).flatten
    buffer = ({} : Buffer).performAll operations ∧
    (buffer.names.Nodup ∧ buffer.names = (openings run).map (·.1)) ∧
    (∀ name, buffer.has name = true ↔ name ∈ buffer.names) ∧
    (∀ name, buffer.sequence? name = buffer.sequences.find? (·.name == name)) ∧
    buffer.opened.map (buffer.names[·]?) = opened.map some ∧
    (∀ name ∈ buffer.names, closing? name run = none ↔ name ∈ opened) ∧
    buffer.header = [.directive .textSection, .directive (.global "main")] ++ emitted none run ∧
    buffer.sequences = (openings run).map (fun o =>
      { name := o.1
        code := .label o.1 :: (if o.2 then [.push .lr] else []) ++ emitted (some o.1) run ++
          match closing? o.1 run with
          | some .ret => [.pop .pc]
          | some .userRet => [.pop .pc, .directive .ltorg]
          | some .none | none => [] }) ∧
    (∀ (request : Request) e edited, request.edit.run buffer = .error e edited ↔ edited = buffer ∧
      ((∃ name savesLink, request = .plain (.start name savesLink) ∧ name ∈ buffer.names ∧
          e = .internal (.duplicateSequence name)) ∨
        (∃ ending, request = .plain (.finish ending) ∧ buffer.opened = [] ∧
          e = .internal .noOpenSequence))) ∧
    buffer.render = String.join ((buffer.header ++ buffer.sequences.flatMap (·.code) ++
      if stored = [] then [] else .directive .dataSection :: data).map (·.line)) ∧
    (({} : Buffer).performAll (unnested run)).render = buffer.render := by
  intro buffer operations run opened stored data
  have hshows : buffer.Shows (({} : Listing).serveAll requests) := shows_new.serveAll requests
  have htells : Tells run _ (({} : Listing).serveAll requests) := tells_serveAll requests
  generalize ({} : Listing).serveAll requests = listing at hshows htells
  obtain ⟨hsound, rfl⟩ := hshows
  have hnames : buffer.names = (History.after {} operations).names := htells.names_eq
  refine ⟨serveAll_eq shows_new requests, ⟨hsound.positions.nodup, hnames.trans htells.names⟩,
    fun name => has_iff hsound, sequence?_eq hsound, ?_, ?_, htells.header, ?_, ?_, ?_, ?_⟩
  · rw [Shows.opened_names ⟨hsound, rfl⟩, htells.opened]
  · intro name hname
    exact (htells.closed name (hnames ▸ hname)).symm
  · rw [show buffer.sequences = _ from htells.sequences]
    apply List.map_congr_left
    intro o _
    simp only [told, opening, List.cons_append, List.append_assoc]
    cases closing? o.1 run with
    | none => rfl
    | some ending => cases ending <;> rfl
  · intro request e edited
    rw [(Shows.request ⟨hsound, rfl⟩ request).error_iff, answer_eq_error]
    have hnone : buffer.listing.opened = [] ↔ buffer.opened = [] := by simp [Buffer.listing]
    rw [hnone]
    rfl
  · have hmessages : buffer.messages = stored := htells.messages
    rw [Buffer.render, instructions_eq, hmessages]
  · rw [← render_listing, ← render_listing, (shows_new.performAll _).2, htells.unnested]
    rfl

end Buffer

end ArmCompiler
