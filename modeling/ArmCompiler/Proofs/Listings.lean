import ArmCompiler.Compile

/-!
# What Ends up in a Listing

A listing only ever grows: sequences are added behind those that are there, and texts behind
texts, so a text that is stored keeps its label. Expanding code adds the routines it calls, each
together with the routines that it calls in turn, and never fails. What the expanded code looks
like can then be said in terms of the final labels alone.

## Contents
- §1: routines and pseudo-instructions as plain code
- §2: names of sequences
- §3: growing listings
- §4: adding routines
- §5: expanding code
- §6: adding a sequence to an assembly
-/

namespace ArmCompiler

open Instruction

/-! ## §1 Routines and pseudo-instructions as plain code -/

namespace Routine

/-- The sequence of a routine, given the label of each text. -/
def sequence (message : String → String) (r : Routine) : Sequence :=
  { name := r.label, code := Listing.opening r.label r.returns ++ (r.body message ++ r.ending.code) }

/-- The routines that a routine calls. -/
def callees : Routine → List Routine
  | .checkArrayBounds | .throwOverflow | .checkDivideByZero | .freePair | .checkNullPointer =>
    [.throwRuntimeError]
  | .throwRuntimeError => [.printString]
  | .printString | .printBool | .printInt | .printReference | .printChar | .printLn | .readInt
  | .readChar => []

/-- A routine calls at most one other, and those that come with it are those that come with the
called one. -/
theorem chain_eq (r : Routine) :
    (r.chain = [r] ∧ r.callees = []) ∨ ∃ q, r.chain = r :: q.chain ∧ r.callees = [q] := by
  cases r with
  | checkArrayBounds | throwOverflow | checkDivideByZero | freePair | checkNullPointer =>
    exact .inr ⟨.throwRuntimeError, rfl, rfl⟩
  | throwRuntimeError => exact .inr ⟨.printString, rfl, rfl⟩
  | printString | printBool | printInt | printReference | printChar | printLn | readInt
  | readChar => exact .inl ⟨rfl, rfl⟩

theorem label_injective : Function.Injective label := by
  -- Each routine is the first of all routines with its label.
  have hfind (r : Routine) : all.find? (fun s => s.label == r.label) = some r := by
    cases r <;> rfl
  intro r s h
  have hsame := hfind r
  rw [h, hfind s] at hsame
  exact (Option.some.inj hsame).symm

/-- The code of a routine depends on the labels of its own texts only. -/
theorem body_congr {message message' : String → String} (r : Routine)
    (h : ∀ text ∈ r.texts, message text = message' text) : r.body message = r.body message' := by
  cases r <;> simp_all [texts, body]

end Routine

namespace Pseudo

/-- The plain instructions that a pseudo-instruction stands for, given the label of each
text. -/
def plain (limit : Nat) (message : String → String) : Pseudo → List Instruction
  | .instr i => [i]
  | .routine cond r => [.branch true cond r.label]
  | .message dst text => [loadLabel dst (message text)]
  | .reserve bytes => adjustStack .sub limit bytes
  | .unreserve bytes => adjustStack .add limit bytes

/-- The texts that a pseudo-instruction refers to. -/
def texts : Pseudo → List String
  | .message _ text => [text]
  | .instr _ | .routine _ _ | .reserve _ | .unreserve _ => []

/-- The routines that a pseudo-instruction calls. -/
def callees : Pseudo → List Routine
  | .routine _ r => [r]
  | .instr _ | .message _ _ | .reserve _ | .unreserve _ => []

theorem plain_congr {limit : Nat} {message message' : String → String} (p : Pseudo)
    (h : ∀ text ∈ p.texts, message text = message' text) :
    p.plain limit message = p.plain limit message' := by
  cases p <;> simp_all [texts, plain]

end Pseudo

namespace Listing

/-! ## §2 Names of sequences -/

/-- The names of the sequences in a listing. -/
def names (listing : Listing) : List String := listing.sequences.map (·.name)

theorem has_iff {listing : Listing} {name : String} :
    listing.has name = true ↔ name ∈ listing.names := by
  simp [has, sequence?, names, List.find?_isSome]

theorem start_of_new {listing : Listing} {name : String} (savesLink : Bool)
    (hnew : name ∉ listing.names) :
    listing.start name savesLink = .ok { listing with
      sequences := listing.sequences ++ [{ name, code := opening name savesLink }]
      opened := name :: listing.opened } := by
  rw [start, if_neg fun hthere => hnew (has_iff.1 hthere)]

theorem start_of_mem {listing : Listing} {name : String} (savesLink : Bool)
    (hthere : name ∈ listing.names) :
    listing.start name savesLink = .error (.internal (.duplicateSequence name)) := by
  rw [start, if_pos (has_iff.2 hthere)]

/-- Where names are distinct, each sequence is found by its name. -/
theorem sequence?_of_mem {listing : Listing} {sequence : Sequence}
    (hdistinct : listing.names.Nodup) (hmem : sequence ∈ listing.sequences) :
    listing.sequence? sequence.name = some sequence := by
  obtain ⟨before, after, hsplit⟩ := List.append_of_mem hmem
  rw [names, hsplit, List.map_append, List.map_cons, List.nodup_append] at hdistinct
  rw [sequence?, hsplit, List.find?_append, List.find?_eq_none.2 ?_]
  · simp
  · intro other hother hsame
    have hname : other.name = sequence.name := by simpa using hsame
    exact hdistinct.2.2 _ (List.mem_map_of_mem hother) _ (List.mem_cons_self ..) hname

/-- Instructions go to the sequence that was opened last, wherever it stands. -/
theorem emitAll_of_opened {listing : Listing} {before after : List Sequence} {sequence : Sequence}
    {rest : List String} (hopened : listing.opened = sequence.name :: rest)
    (hsequences : listing.sequences = before ++ sequence :: after)
    (hbefore : sequence.name ∉ before.map (·.name))
    (hafter : sequence.name ∉ after.map (·.name)) (code : List Instruction) :
    listing.emitAll code =
      { listing with sequences := before ++ sequence.append code :: after } := by
  -- Sequences of other names are left as they are.
  have hothers : ∀ others : List Sequence, sequence.name ∉ others.map (·.name) →
      others.map (fun s => if s.name = sequence.name then s.append code else s) = others := by
    intro others hnotin
    calc others.map (fun s => if s.name = sequence.name then s.append code else s)
        = others.map id := by
          apply List.map_congr_left
          intro s hs
          have hne : s.name ≠ sequence.name := fun heq => hnotin (List.mem_map.2 ⟨s, hs, heq⟩)
          simp [hne]
      _ = others := List.map_id others
  simp only [emitAll, hopened, hsequences, List.map_append, List.map_cons, if_true,
    hothers before hbefore, hothers after hafter]

/-! ## §3 Growing listings -/

theorem messages_intern (listing : Listing) (text : String) :
    listing.messages <+: (listing.intern text).messages := by
  unfold intern
  split
  · exact List.prefix_refl _
  · exact List.prefix_append _ _

/-- A stored text keeps its label while texts are added. -/
theorem messageLabel_of_mem {listing listing' : Listing} {text : String}
    (hstarts : listing.messages <+: listing'.messages) (htext : text ∈ listing.messages) :
    listing'.messageLabel text = listing.messageLabel text := by
  obtain ⟨added, hadded⟩ := hstarts
  rw [messageLabel, ← hadded, List.idxOf_append, if_pos htext]
  rfl

/-- A listing to which the sequences of some routines were added, with the texts they refer
to and possibly more. -/
structure Grows (listing listing' : Listing) (routines : List Routine) : Prop where
  header : listing'.header = listing.header
  opened : listing'.opened = listing.opened
  messages : listing.messages <+: listing'.messages
  texts : ∀ r ∈ routines, ∀ text ∈ r.texts, text ∈ listing'.messages
  sequences : listing'.sequences =
    listing.sequences ++ routines.map (·.sequence listing'.messageLabel)
  distinct : listing.names.Nodup → listing'.names.Nodup

/-- The sequence of a routine stays what it is while texts are added. -/
theorem sequence_of_texts {listing listing' : Listing} {r : Routine}
    (hstarts : listing.messages <+: listing'.messages)
    (htexts : ∀ text ∈ r.texts, text ∈ listing.messages) :
    r.sequence listing'.messageLabel = r.sequence listing.messageLabel := by
  have hbody := r.body_congr fun text htext => messageLabel_of_mem hstarts (htexts text htext)
  simp only [Routine.sequence, hbody]

namespace Grows

variable {listing mid listing' : Listing} {routines routines' : List Routine}

theorem refl (listing : Listing) : Grows listing listing [] :=
  ⟨rfl, rfl, List.prefix_refl _, by simp, by simp, id⟩

theorem intern (listing : Listing) (text : String) : Grows listing (listing.intern text) [] := by
  refine ⟨?_, ?_, messages_intern listing text, by simp, ?_, ?_⟩ <;>
    · unfold Listing.intern
      split <;> simp [names]

theorem trans (h : Grows listing mid routines) (h' : Grows mid listing' routines') :
    Grows listing listing' (routines ++ routines') := by
  refine ⟨h'.header.trans h.header, h'.opened.trans h.opened, h.messages.trans h'.messages, ?_, ?_,
    fun hnodup => h'.distinct (h.distinct hnodup)⟩
  · intro r hr text htext
    rcases List.mem_append.1 hr with hr | hr
    · exact h'.messages.subset (h.texts r hr text htext)
    · exact h'.texts r hr text htext
  -- The routines added first keep their sequences, since their texts are stored already.
  · have hkept : routines.map (·.sequence mid.messageLabel) =
        routines.map (·.sequence listing'.messageLabel) :=
      List.map_congr_left fun r hr => (sequence_of_texts h'.messages (h.texts r hr)).symm
    rw [h'.sequences, h.sequences, hkept, List.map_append, List.append_assoc]

theorem names_eq (h : Grows listing listing' routines) :
    listing'.names = listing.names ++ routines.map (·.label) := by
  simp [names, h.sequences, Routine.sequence]

theorem internAll (listing : Listing) (texts : List String) :
    Grows listing (texts.foldl Listing.intern listing) [] ∧
      ∀ text ∈ texts, text ∈ (texts.foldl Listing.intern listing).messages := by
  induction texts generalizing listing with
  | nil => exact ⟨.refl listing, by simp⟩
  | cons text rest ih =>
    obtain ⟨hgrows, hstored⟩ := ih (listing.intern text)
    refine ⟨(Grows.intern listing text).trans hgrows, ?_⟩
    intro other hother
    rcases List.mem_cons.1 hother with rfl | hother
    · exact hgrows.messages.subset (mem_messages_intern listing _)
    · exact hstored other hother

end Grows

/-! ## §4 Adding routines -/

/-- A routine that is not there yet is added behind everything else. -/
theorem define_eq_ok {listing : Listing} {r : Routine} (hnew : r.label ∉ listing.names) :
    ∃ listing', listing.define r = .ok listing' ∧ Grows listing listing' [r] := by
  obtain ⟨hgrows, hstored⟩ := Grows.internAll listing r.texts
  -- From here on the listing is one in which the texts of the routine are stored.
  generalize hbase : r.texts.foldl intern listing = base at hgrows hstored
  have hnames : base.names = listing.names := by simpa using hgrows.names_eq
  let opened : Listing := { base with
    sequences := base.sequences ++ [{ name := r.label, code := opening r.label r.returns }]
    opened := r.label :: base.opened }
  rw [← hnames] at hnew
  have hstart : base.start r.label r.returns = .ok opened := start_of_new r.returns hnew
  let filled : Listing := { opened with
    sequences := base.sequences ++ [r.sequence base.messageLabel] }
  -- The routine's own sequence was opened last, so its code goes there.
  have hemit : (opened.emitAll (r.body opened.messageLabel)).emitAll r.ending.code = filled := by
    rw [emitAll_emitAll, emitAll_of_opened rfl rfl hnew (by simp)]
    rfl
  refine ⟨{ filled with opened := base.opened }, ?_, ?_⟩
  · have hopenedAfter : (opened.emitAll (r.body opened.messageLabel)).opened =
        r.label :: base.opened := by
      rw [opened_emitAll]
    simp only [define, hbase, hstart, bind, Except.bind, finish, hopenedAfter, hemit]
  · refine ⟨hgrows.header, hgrows.opened, hgrows.messages, ?_, ?_, ?_⟩
    · simpa using hstored
    · have hsequences : base.sequences = listing.sequences := by simpa using hgrows.sequences
      simp only [filled, hsequences, List.map_cons, List.map_nil]
      rfl
    · intro hnodup
      have hfilled : Listing.names { filled with opened := base.opened } =
          base.names ++ [r.label] := by
        simp [names, filled, Routine.sequence]
      rw [hfilled, List.nodup_append]
      exact ⟨hgrows.distinct hnodup, by simp, fun a ha b hb => by
        rintro rfl
        exact hnew (List.mem_singleton.1 hb ▸ ha)⟩

/-- Every routine that is there comes with those it calls, those of a list possibly excepted. -/
def ClosedBut (missing : List Routine) (names : List String) : Prop :=
  ∀ r : Routine, r.label ∈ names → ∀ q ∈ r.callees, q.label ∈ names ∨ q ∈ missing

theorem ClosedBut.of_present {names : List String} {r : Routine}
    (h : ClosedBut [r] names) (hr : r.label ∈ names) : ClosedBut [] names := by
  intro s hs q hq
  rcases h s hs q hq with hmem | hmem
  · exact .inl hmem
  · obtain rfl : q = r := by simpa using hmem
    exact .inl hr

/-- Once a missing routine is added, all that can be missing is what it calls. -/
theorem ClosedBut.add {names : List String} {r : Routine} (h : ClosedBut [r] names) :
    ClosedBut r.callees (names ++ [r.label]) := by
  intro s hs q hq
  rcases List.mem_append.1 hs with hs | hs
  · rcases h s hs q hq with hmem | hmem
    · exact .inl (List.mem_append_left _ hmem)
    · obtain rfl : q = r := by simpa using hmem
      exact .inl (by simp)
  · obtain rfl : s = r := Routine.label_injective (by simpa using hs)
    exact .inr hq

/-- Asking for a routine adds what is missing of it and of those it calls. Every added routine
but the one asked for is called by another added one. -/
theorem require_eq_ok (r : Routine) {listing : Listing} (hclosed : ClosedBut [r] listing.names) :
    ∃ listing' added, listing.require r = .ok listing' ∧ Grows listing listing' added ∧
      ClosedBut [] listing'.names ∧ r.label ∈ listing'.names ∧
      ∀ q ∈ added, q = r ∨ ∃ p ∈ added, q ∈ p.callees := by
  -- By induction on how many routines come with the one asked for. The listing in between lacks at
  -- most the routine asked for next.
  induction hlength : r.chain.length generalizing r listing with
  | zero =>
    rcases r.chain_eq with ⟨hchain, _⟩ | ⟨_, hchain, _⟩ <;> simp [hchain] at hlength
  | succ n ih =>
    by_cases hhas : r.label ∈ listing.names
    · refine ⟨listing, [], ?_, .refl listing, hclosed.of_present hhas, hhas, by simp⟩
      rcases r.chain_eq with ⟨hchain, _⟩ | ⟨_, hchain, _⟩ <;>
        simp [require, hchain, requireChain, has_iff.2 hhas]
    · have hmissing : listing.has r.label = false := by
        rw [Bool.eq_false_iff, ne_eq, has_iff]
        exact hhas
      obtain ⟨mid, hdefine, hgrows⟩ := define_eq_ok hhas
      have hnames : mid.names = listing.names ++ [r.label] := by simpa using hgrows.names_eq
      have hmid := hclosed.add
      rw [← hnames] at hmid
      rcases r.chain_eq with ⟨hchain, hcallees⟩ | ⟨q, hchain, hcallees⟩
      · rw [hcallees] at hmid
        refine ⟨mid, [r], ?_, hgrows, hmid, by simp [hnames], by simp⟩
        simp [require, hchain, requireChain, hmissing, hdefine, bind, Except.bind]
      -- All that can be missing now is what the routine calls, and that is asked for next.
      · rw [hcallees] at hmid
        have hshorter : q.chain.length = n := by simpa [hchain] using hlength
        obtain ⟨listing', added, hrequire, hmore, hend, _, hcalled⟩ := ih q hmid hshorter
        refine ⟨listing', r :: added, ?_, hgrows.trans hmore, hend, ?_, ?_⟩
        · simp only [require] at hrequire
          simp [require, hchain, requireChain, hmissing, hdefine, bind, Except.bind, hrequire]
        · rw [hmore.names_eq, hnames]
          simp
        · intro s hs
          rcases List.mem_cons.1 hs with rfl | hs
          · exact .inl rfl
          · rcases hcalled s hs with rfl | ⟨p, hp, hcall⟩
            · exact .inr ⟨r, by simp, by simp [hcallees]⟩
            · exact .inr ⟨p, List.mem_cons_of_mem _ hp, hcall⟩

/-! ## §5 Expanding code -/

/-- Code and the listing it was expanded into: everything the code refers to is there, and
nothing was added but what it refers to, directly or through routines. -/
structure Expands (limit : Nat) (code : List Pseudo) (listing listing' : Listing)
    (added : List Routine) : Prop where
  grows : Grows listing listing' added
  closed : ClosedBut [] listing'.names
  texts : ∀ p ∈ code, ∀ text ∈ p.texts, text ∈ listing'.messages
  calls : ∀ p ∈ code, ∀ r ∈ p.callees, r.label ∈ listing'.names
  called : ∀ r ∈ added, (∃ p ∈ code, r ∈ p.callees) ∨ ∃ q ∈ added, r ∈ q.callees

theorem expand_eq_ok (limit : Nat) {listing : Listing} (hclosed : ClosedBut [] listing.names)
    (p : Pseudo) :
    ∃ listing' added, listing.expand limit p = .ok (p.plain limit listing'.messageLabel, listing') ∧
      Expands limit [p] listing listing' added := by
  cases p with
  | instr i =>
    exact ⟨listing, [], rfl, .refl listing, hclosed, by simp [Pseudo.texts],
      by simp [Pseudo.callees], by simp⟩
  | reserve bytes | unreserve bytes =>
    exact ⟨listing, [], rfl, .refl listing, hclosed, by simp [Pseudo.texts],
      by simp [Pseudo.callees], by simp⟩
  | message dst text =>
    have hgrows := Grows.intern listing text
    refine ⟨listing.intern text, [], rfl, hgrows, ?_, ?_, by simp [Pseudo.callees], by simp⟩
    · have hnames : (listing.intern text).names = listing.names := by simpa using hgrows.names_eq
      rw [hnames]
      exact hclosed
    · simpa [Pseudo.texts] using mem_messages_intern listing text
  | routine cond r =>
    have hbut : ClosedBut [r] listing.names := fun s hs q hq =>
      (hclosed s hs q hq).imp_right fun hmem => absurd hmem List.not_mem_nil
    obtain ⟨listing', added, hrequire, hgrows, hend, hthere, hcalled⟩ := require_eq_ok r hbut
    refine ⟨listing', added, ?_, hgrows, hend, by simp [Pseudo.texts],
      by simpa [Pseudo.callees] using hthere, ?_⟩
    · simp [expand, hrequire, bind, Except.bind, Pseudo.plain]
    · intro q hq
      refine (hcalled q hq).imp_left ?_
      rintro rfl
      exact ⟨.routine cond q, by simp, by simp [Pseudo.callees]⟩

/-- Expanding never fails, and gives the plain code under the final labels. -/
theorem expandAll_eq_ok (limit : Nat) (code : List Pseudo) {listing : Listing}
    (hclosed : ClosedBut [] listing.names) :
    ∃ listing' added, listing.expandAll limit code =
        .ok (code.flatMap (·.plain limit listing'.messageLabel), listing') ∧
      Expands limit code listing listing' added := by
  induction code generalizing listing with
  | nil => exact ⟨listing, [], rfl, .refl listing, hclosed, by simp, by simp, by simp⟩
  | cons p rest ih =>
    obtain ⟨mid, added, hfirst, hp⟩ := expand_eq_ok limit hclosed p
    obtain ⟨listing', added', hothers, hrest⟩ := ih hp.closed
    -- What was expanded first refers to texts that are stored, and these keep their labels.
    have hkept : p.plain limit mid.messageLabel = p.plain limit listing'.messageLabel :=
      p.plain_congr fun text htext =>
        (messageLabel_of_mem hrest.grows.messages (hp.texts p (by simp) text htext)).symm
    refine ⟨listing', added ++ added', ?_, hp.grows.trans hrest.grows, hrest.closed, ?_, ?_, ?_⟩
    · simp [expandAll, hfirst, hothers, bind, Except.bind, hkept]
    · intro q hq text htext
      rcases List.mem_cons.1 hq with rfl | hq
      · exact hrest.grows.messages.subset (hp.texts q (by simp) text htext)
      · exact hrest.texts q hq text htext
    · intro q hq r hr
      rcases List.mem_cons.1 hq with rfl | hq
      · rw [hrest.grows.names_eq]
        exact List.mem_append_left _ (hp.calls q (by simp) r hr)
      · exact hrest.calls q hq r hr
    · intro r hr
      rcases List.mem_append.1 hr with hr | hr
      · rcases hp.called r hr with ⟨q, hq, hcall⟩ | ⟨q, hq, hcall⟩
        · exact .inl ⟨q, by simpa using .inl (by simpa using hq), hcall⟩
        · exact .inr ⟨q, List.mem_append_left _ hq, hcall⟩
      · rcases hrest.called r hr with ⟨q, hq, hcall⟩ | ⟨q, hq, hcall⟩
        · exact .inl ⟨q, List.mem_cons_of_mem _ hq, hcall⟩
        · exact .inr ⟨q, List.mem_append_right _ hq, hcall⟩

/-! ## §6 Adding a sequence to an assembly -/

/-- The sequence of a function or main body, given its instructions between opening and
ending. -/
def bodySequence (label : String) (code : List Instruction) : Sequence :=
  { name := label, code := opening label true ++ (code ++ Ending.userRet.code) }

/-- A listing to which a body was added, followed by the routines that were missing for it. -/
structure Adds (limit : Nat) (label : String) (code : List Pseudo) (listing listing' : Listing)
    (added : List Routine) : Prop where
  header : listing'.header = listing.header
  opened : listing'.opened = listing.opened
  messages : listing.messages <+: listing'.messages
  sequences : listing'.sequences = listing.sequences ++
    bodySequence label (code.flatMap (·.plain limit listing'.messageLabel)) ::
      added.map (·.sequence listing'.messageLabel)
  distinct : listing.names.Nodup → listing'.names.Nodup
  closed : ClosedBut [] listing'.names
  texts : ∀ p ∈ code, ∀ text ∈ p.texts, text ∈ listing'.messages
  addedTexts : ∀ r ∈ added, ∀ text ∈ r.texts, text ∈ listing'.messages
  calls : ∀ p ∈ code, ∀ r ∈ p.callees, r.label ∈ listing'.names
  called : ∀ r ∈ added, (∃ p ∈ code, r ∈ p.callees) ∨ ∃ q ∈ added, r ∈ q.callees

theorem Adds.names_eq {limit : Nat} {label : String} {code : List Pseudo}
    {listing listing' : Listing} {added : List Routine}
    (h : Adds limit label code listing listing' added) :
    listing'.names = listing.names ++ label :: added.map (·.label) := by
  simp [names, h.sequences, bodySequence, Routine.sequence]

end Listing

namespace Assembly

open Listing

variable (config : Config) {label : String} {frame : Frame} {body : Lower Unit}
  {assembly : Assembly}

/-- Once the code of a body is there, it can be put into the listing. -/
theorem add_of_run {lowered : Lowered Unit} (hclosed : ClosedBut [] assembly.listing.names)
    (hroutine : ∀ r : Routine, r.label ≠ label) (hnew : label ∉ assembly.listing.names)
    (hrun : body.run { assembly.resources with frame } = .ok lowered) :
    ∃ listing' added,
      add config label frame body assembly =
        .ok { resources := lowered.resources, listing := listing' } ∧
      Adds config.stackChunk label lowered.code assembly.listing listing' added := by
  let opened : Listing := { assembly.listing with
    sequences := assembly.listing.sequences ++ [{ name := label, code := opening label true }]
    opened := label :: assembly.listing.opened }
  have hstart : assembly.listing.start label true = .ok opened := start_of_new true hnew
  -- Opening the body's sequence adds no routine, so none can lack what it calls.
  have hopenedClosed : ClosedBut [] opened.names := by
    intro r hr q hq
    have hr' : r.label ∈ assembly.listing.names := by
      simpa [names, opened, hroutine r] using hr
    refine (hclosed r hr' q hq).imp_left fun hmem => ?_
    simp only [names] at hmem
    simp [names, opened, hmem]
  obtain ⟨filled, added, hexpand, hexpands⟩ :=
    expandAll_eq_ok config.stackChunk lowered.code hopenedClosed
  have hgrows := hexpands.grows
  have hfilled : filled.opened = label :: assembly.listing.opened := hgrows.opened
  -- The routines stand behind the body, which is still open.
  have hsequences : filled.sequences = assembly.listing.sequences ++
      { name := label, code := opening label true } ::
        added.map (·.sequence filled.messageLabel) := by
    rw [hgrows.sequences]
    simp [opened]
  have hafter : label ∉ (added.map (·.sequence filled.messageLabel)).map (·.name) := by
    simpa [Routine.sequence] using fun r _ => hroutine r
  let code := lowered.code.flatMap (·.plain config.stackChunk filled.messageLabel)
  let listing' : Listing := { filled with
    sequences := assembly.listing.sequences ++
      bodySequence label code :: added.map (·.sequence filled.messageLabel)
    opened := assembly.listing.opened }
  -- So the code of the body goes in front of them.
  have hemit : ((filled.emitAll code).emitAll Ending.userRet.code) =
      { listing' with opened := label :: assembly.listing.opened } := by
    rw [emitAll_emitAll, emitAll_of_opened hfilled hsequences hnew hafter, ← hfilled]
    rfl
  have hfinish : (filled.emitAll code).finish .userRet = .ok listing' := by
    simp only [finish, opened_emitAll, hfilled, hemit]
    rfl
  refine ⟨listing', added, ?_, ?_⟩
  · simp only [add, hstart, hrun, hexpand, bind, Except.bind, pure, Except.pure]
    rw [hfinish]
  · have hnames : listing'.names = filled.names := by
      simp [names, hsequences, listing', bodySequence]
    exact {
      header := hgrows.header
      opened := rfl
      messages := hgrows.messages
      sequences := rfl
      distinct := by
        intro hnodup
        rw [hnames]
        apply hgrows.distinct
        simp only [names, opened, List.map_append, List.map_cons, List.map_nil, List.nodup_append]
        exact ⟨hnodup, by simp, fun a ha b hb => by
          rintro rfl
          exact hnew (List.mem_singleton.1 hb ▸ ha)⟩
      closed := hnames ▸ hexpands.closed
      texts := hexpands.texts
      addedTexts := hgrows.texts
      calls := fun p hp r hr => hnames ▸ hexpands.calls p hp r hr
      called := hexpands.called }

/-- Adding a body fails only if its name is taken or its code cannot be generated. -/
theorem add_eq_error {config : Config} {e : CompileError} (hclosed : ClosedBut [] assembly.listing.names)
    (hroutine : ∀ r : Routine, r.label ≠ label)
    (h : add config label frame body assembly = .error e) :
    label ∈ assembly.listing.names ∨ body.run { assembly.resources with frame } = .error e := by
  by_cases hnew : label ∈ assembly.listing.names
  · exact .inl hnew
  · right
    cases hrun : body.run { assembly.resources with frame } with
    | ok lowered =>
      obtain ⟨listing', added, hadd, _⟩ := add_of_run config hclosed hroutine hnew hrun
      rw [hadd] at h
      cases h
    | error e' =>
      simpa [add, start_of_new true hnew, hrun, bind, Except.bind] using h

/-- A body that was added had a new name. -/
theorem add_eq_ok {config : Config} {assembly' : Assembly} (hclosed : ClosedBut [] assembly.listing.names)
    (hroutine : ∀ r : Routine, r.label ≠ label)
    (h : add config label frame body assembly = .ok assembly') :
    label ∉ assembly.listing.names ∧
      ∃ lowered added, body.run { assembly.resources with frame } = .ok lowered ∧
        assembly'.resources = lowered.resources ∧
        Adds config.stackChunk label lowered.code assembly.listing assembly'.listing added := by
  have hnew : label ∉ assembly.listing.names := by
    intro hthere
    simp [add, start_of_mem true hthere, bind, Except.bind] at h
  refine ⟨hnew, ?_⟩
  cases hrun : body.run { assembly.resources with frame } with
  | error e =>
    simp [add, start_of_new true hnew, hrun, bind, Except.bind] at h
  | ok lowered =>
    obtain ⟨listing', added, hadd, hadds⟩ := add_of_run config hclosed hroutine hnew hrun
    obtain rfl := Except.ok.inj (h.symm.trans hadd)
    exact ⟨lowered, added, rfl, rfl, hadds⟩

end Assembly

end ArmCompiler
